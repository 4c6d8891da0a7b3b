import EventFlow.Error

namespace EventFlow

-- A column of a grid table: a header and the cells below it.
structure Grid.Column where
  header : String
  cells : List String
  deriving DecidableEq

-- A table drawn in characters, line by line. A column of width `w` takes `w + 2` characters
-- between two junctions.
structure Grid where
  widths : List Nat
  lines : List (List Char)
  deriving DecidableEq

namespace Grid

-- A column without cells gets one blank cell.
def Column.filled (column : Column) : Column :=
  if column.cells = [] then { column with cells := [""] } else column

-- The most characters in the header or in a cell.
def Column.width (column : Column) : Nat :=
  (column.cells.map String.length).foldl max column.header.length

def Column.cell (column : Column) (row : Nat) : String := column.cells.getD row ""

def hasContent (cell : String) : Bool := cell.toList.any (fun c => c ≠ ' ')

def rule (fill : Char) (widths : List Nat) : List Char :=
  '+' :: (List.intercalate ['+'] (widths.map fun width => List.replicate (width + 2) fill) ++ ['+'])

def pad (width : Nat) (cell : String) : List Char :=
  cell.toList ++ List.replicate (width - cell.length) ' '

def rowLine (widths : List Nat) (cells : List String) : List Char :=
  '|' :: ' ' :: (List.intercalate [' ', '|', ' '] (List.zipWith pad widths cells) ++ [' ', '|'])

-- A separator, given for each column its width and whether the cell below has content. Only
-- above content it is dashed, so a blank cell runs together with the one above it. A junction
-- is a cross when a dashed segment touches it.
def separatorFrom (dashedLeft : Bool) : List (Nat × Bool) → List Char
  | [] => [if dashedLeft then '+' else '|']
  | (width, dashed) :: rest =>
    (if dashedLeft || dashed then '+' else '|') ::
      (List.replicate (width + 2) (if dashed then '-' else ' ') ++ separatorFrom dashed rest)

def separator (widths : List Nat) (below : List String) : List Char :=
  separatorFrom false (widths.zip (below.map hasContent))

-- The data rows with the separators between them.
def body (widths : List Nat) : List (List String) → List (List Char)
  | [] => []
  | [row] => [rowLine widths row]
  | row :: below :: rest =>
    rowLine widths row :: separator widths below :: body widths (below :: rest)

-- Draws the columns side by side. They need the same number of cells; the first one that differs
-- from the first column is reported.
def draw (owner : String) (columns : List Column) : Except Error Grid :=
  let columns := columns.map Column.filled
  let rows := (columns.head?.map fun column => column.cells.length).getD 0
  match columns.find? (fun column => column.cells.length ≠ rows) with
  | some column => .error (.unevenColumn owner column.header rows column.cells.length)
  | none =>
    let widths := columns.map Column.width
    let cells := (List.range rows).map fun row => columns.map (fun column => column.cell row)
    .ok ⟨widths,
      rule '-' widths :: rowLine widths (columns.map Column.header) :: rule '=' widths ::
        (body widths cells ++ [rule '-' widths])⟩

-- The place of the last line that satisfies the test.
def lastIndex? (test : List Char → Bool) : List (List Char) → Option Nat
  | [] => none
  | line :: rest =>
    match lastIndex? test rest with
    | some index => some (index + 1)
    | none => if test line then some 0 else none

-- Dashes a separator below the columns of these widths, with crosses at both ends of each.
def dashBelow (widths : List Nat) (line : List Char) : List Char :=
  let dashes := widths.flatMap fun width => '+' :: List.replicate (width + 2) '-'
  if widths = [] then line else dashes ++ '+' :: line.drop (dashes.length + 1)

-- Closes the separator below the last line whose first cell starts with `marker`, across the
-- first `span` columns. A line that is no separator with a blank first cell stays as it is.
def closeBelowLast (marker : String) (span : Nat) (grid : Grid) : Grid :=
  match lastIndex? (fun line => ('|' :: ' ' :: marker.toList).isPrefixOf line) grid.lines with
  | none => grid
  | some row =>
    { grid with
      lines := grid.lines.modify (row + 1) fun line =>
        if line.head? = some '|' then dashBelow (grid.widths.take span) line else line }

def text (grid : Grid) : String := String.ofList (List.intercalate ['\n'] grid.lines)

end Grid

end EventFlow
