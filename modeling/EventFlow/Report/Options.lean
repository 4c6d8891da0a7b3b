import EventFlow.Graph.Basic

namespace EventFlow.Report

-- How the documents are laid out.
structure Options where
  -- what labels begin with, instead of the project's name
  project : Option String := none
  -- lists of this length or more are replaced by a reference into the index
  collapseAt : Nat := 7
  -- an event is in the index from this many producers or subscribers on; without it, always
  indexFrom : Option Nat := none
  title : Option String := none
  deriving DecidableEq

def Options.label (options : Options) (graph : Graph) : String :=
  options.project.getD graph.project

def propagationFile : String := "event_propagation.rst"

def indexFile : String := "event_rel_modules.rst"

def literal (item : String) : String := s!"``{item}``"

-- A cross-reference to a label of the project.
def reference (project item : String) : String := s!":ref:`{project}_{item}`"

-- The line that sets a label.
def anchor (project item : String) : String := s!".. _{project}_{item}:"

-- The label of the list of an event's producers, and of its subscribers.
def sourcesOf (event : String) : String := s!"{event}_sources"

def sinksOf (event : String) : String := s!"{event}_sinks"

-- A line below a title, as long as the title.
def underline (mark : Char) (title : String) : String :=
  String.ofList (List.replicate title.length mark)

-- The parts one after the other, without the blank line at the end: each part of a document
-- ends in two line ends.
def document (parts : List String) : String :=
  String.ofList (parts.flatMap String.toList).dropLast.dropLast

end EventFlow.Report
