import EventFlow.Main
import EventFlow.Proofs.Listener
import EventFlow.Proofs.Graph.Edges
import EventFlow.Proofs.Graph.Queries
import EventFlow.Proofs.Graph.Assembly
import EventFlow.Proofs.Listener.Merge
import EventFlow.Proofs.Corpus.Callables
import EventFlow.Proofs.Corpus.Outcome
import EventFlow.Proofs.Corpus.Duplicates
import EventFlow.Proofs.Listener.Pool
import EventFlow.Proofs.Corpus.Meaning
import EventFlow.Proofs.Callable
import EventFlow.Proofs.Source.Bracket
import EventFlow.Proofs.Source.Lines
import EventFlow.Proofs.Source.PlainText
import EventFlow.Proofs.System.Corpus
import EventFlow.Proofs.System.Recovery
import EventFlow.Proofs.Report.Geometry
import EventFlow.Proofs.Report.Index
import EventFlow.Proofs.Source.Argument
import EventFlow.Proofs.Source.Account
import EventFlow.Proofs.Source.Resumption
import EventFlow.Proofs.Corpus.Unplaced
import EventFlow.Proofs.Corpus.Headers
import EventFlow.Proofs.Source.LineEnd
import EventFlow.Proofs.Corpus.LineEnd
import EventFlow.Proofs.Corpus.Renaming
import EventFlow.Proofs.Corpus.Deletion
import EventFlow.Proofs.Grid.Bounds
import EventFlow.Proofs.Report.Documents
import EventFlow.Proofs.Graph.Dot
import EventFlow.Proofs.Model.Json
import EventFlow.Proofs.Command.Outcome
import EventFlow.Proofs.Listener.Join
import EventFlow.Proofs.Callable.Sites
import EventFlow.Proofs.Callable.Macros
import EventFlow.Proofs.Listener.Includes
import EventFlow.Proofs.Graph.Statistics
import EventFlow.Proofs.Grid.Effect
import EventFlow.Proofs.Report.Listing
import EventFlow.Proofs.Report.Container
