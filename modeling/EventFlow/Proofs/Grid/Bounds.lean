import EventFlow.Proofs.Grid.Closing

namespace EventFlow.Grid

variable {first : Column} {others : List Column} {rows : Nat} {marker : String} {span : Nat}

-- Where the closing of a table writes a separator over, the separator has room: all junctions of
-- the first columns are places in it, and it keeps its length.
def ClosesInside (marker : String) (span : Nat) (grid : Grid) : Prop :=
  ∀ row line, lastIndex? (isMarked marker) grid.lines = some row →
    grid.lines[row + 1]? = some line → line.head? = some '|' →
      (∀ column ≤ span, place grid.widths column < line.length) ∧
        (dashBelow (grid.widths.take span) line).length = line.length

-- Only rows are marked, and below a row there is a separator that spans all columns, or a rule.
theorem closesInside_drawing (hne : marker.toList ≠ []) (hblank : ' ' ∉ marker.toList)
    (hheader : ¬ marker.toList <+: first.header.toList) (hrows : 0 < rows) :
    (drawing (first :: others) rows).ClosesInside marker span := by
  intro index line hlast hline hbar
  obtain ⟨marked, hmarked, htest⟩ := exists_of_lastIndex? hlast
  have hindex : 3 ≤ index := three_le_of_isMarked hblank hheader hmarked htest
  obtain ⟨row, hrow, rfl, _⟩ := exists_row_of_isMarked hne hblank hrows hindex hmarked htest
  by_cases hbelow : row + 1 < rows
  · rw [getElem?_below hbelow] at hline
    cases hline
    have hflags := length_flagsAbove (first :: others) (row + 1)
    have hlength := length_separatorFrom hflags false
    constructor
    · intro column _
      have hplace := place_le_place (widthsOf (first :: others)) column
      rw [hlength]
      exact Nat.lt_succ_of_le hplace
    · have hclosed : (dashBelow ((widthsOf (first :: others)).take span)
          (separatorFrom false ((widthsOf (first :: others)).zip
            (flagsAbove (first :: others) (row + 1))))).length =
          place (widthsOf (first :: others)) (widthsOf (first :: others)).length + 1 := by
        rw [dashBelow_separatorFrom hflags span]
        exact length_separatorFrom (by rw [length_raiseFirst, hflags]) false
      exact hclosed.trans hlength.symm
  · have hbottom : 2 * row + 3 + 1 = 2 * rows + 2 := by omega
    rw [hbottom, getElem?_bottom hrows] at hline
    cases hline
    cases hbar

end EventFlow.Grid
