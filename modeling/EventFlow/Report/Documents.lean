import EventFlow.Report.Index
import EventFlow.Report.Propagation

namespace EventFlow.Report

-- Both documents by the names of their files.
def documents (graph : Graph) (options : Options) : Except Error (List (String × String)) := do
  let propagation ← propagationDocument graph options
  return [(propagationFile, propagation), (indexFile, indexDocument graph options)]

end EventFlow.Report
