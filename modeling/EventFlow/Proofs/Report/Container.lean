import EventFlow.Proofs.Report.TableLines

namespace EventFlow.Report

-- The lines around the table of a listener.
def openingLine (listener : String) : String := s!".. table_{listener}_start"

def closingLine (listener : String) : String := s!".. table_{listener}_end"

def isMarker (line : String) : Bool := ".. table_".toList.isPrefixOf line.toList

section Marker

variable {first second line : String}

theorem isMarker_openingLine (name : String) : isMarker (openingLine name) = true := by
  simp [isMarker, openingLine, toString]

theorem isMarker_closingLine (name : String) : isMarker (closingLine name) = true := by
  simp [isMarker, closingLine, toString]

theorem openingLine_injective (h : openingLine first = openingLine second) : first = second := by
  have hchars := congrArg String.toList h
  simpa [openingLine, toString, String.toList_inj] using hchars

theorem closingLine_injective (h : closingLine first = closingLine second) : first = second := by
  have hchars := congrArg String.toList h
  simpa [closingLine, toString, String.toList_inj] using hchars

theorem openingLine_ne_closingLine (first second : String) :
    openingLine first ≠ closingLine second := by
  intro h
  have hopening : "_start".toList <:+ (openingLine first).toList :=
    ⟨".. table_".toList ++ first.toList, by simp [openingLine, toString]⟩
  have hclosing : "_end".toList <:+ (closingLine second).toList :=
    ⟨".. table_".toList ++ second.toList, by simp [closingLine, toString]⟩
  have hsuffix := List.suffix_of_suffix_length_le hclosing (h ▸ hopening) (by decide)
  revert hsuffix
  decide

-- The line is one of the two that belong to the listener.
def Marks (name line : String) : Prop := line = openingLine name ∨ line = closingLine name

theorem Marks.isMarker {name : String} (h : Marks name line) : isMarker line = true := by
  obtain rfl | rfl := h
  · exact isMarker_openingLine name
  · exact isMarker_closingLine name

theorem marks_openingLine (h : Marks first (openingLine second)) : first = second := by
  obtain heq | heq := h
  · exact (openingLine_injective heq).symm
  · exact absurd heq (openingLine_ne_closingLine second first)

theorem marks_closingLine (h : Marks first (closingLine second)) : first = second := by
  obtain heq | heq := h
  · exact absurd heq.symm (openingLine_ne_closingLine first second)
  · exact (closingLine_injective heq).symm

end Marker

section Reading

variable {lines front before inner after : List String} {name line : String} {index : Nat}
  {entries earlier later : List (String × List String)} {entry : String × List String}

-- The markers of a listener stand at one place each, with the lines `inner` between them.
structure Bracketed (lines : List String) (name : String) (before inner after : List String) :
    Prop where
  lines_eq : lines = before ++ openingLine name :: (inner ++ closingLine name :: after)
  others : ∀ line ∈ before ++ inner ++ after, ¬ Marks name line

namespace Bracketed

variable (h : Bracketed lines name before inner after)

include h

theorem not_mem {marker : String} (hmarker : Marks name marker) :
    marker ∉ before ∧ marker ∉ inner ∧ marker ∉ after := by
  have hothers := mt (h.others marker) (not_not_intro hmarker)
  simpa [not_or, and_assoc] using hothers

theorem count_eq : lines.count (openingLine name) = 1 ∧ lines.count (closingLine name) = 1 := by
  have hne := openingLine_ne_closingLine name name
  obtain ⟨hbefore, hinner, hafter⟩ := h.not_mem (.inl rfl)
  obtain ⟨hbefore', hinner', hafter'⟩ := h.not_mem (.inr rfl)
  rw [h.lines_eq]
  constructor
  · simp [List.count_eq_zero_of_not_mem, hbefore, hinner, hafter, hne.symm]
  · simp [List.count_eq_zero_of_not_mem, hbefore', hinner', hafter', hne]

theorem idxOf_opening : lines.idxOf (openingLine name) = before.length := by
  rw [h.lines_eq, List.idxOf_append_of_notMem (h.not_mem (.inl rfl)).1, List.idxOf_cons_self,
    Nat.add_zero]

theorem idxOf_closing : lines.idxOf (closingLine name) = before.length + 1 + inner.length := by
  obtain ⟨hbefore, hinner, -⟩ := h.not_mem (.inr rfl)
  rw [h.lines_eq, List.idxOf_append_of_notMem hbefore,
    List.idxOf_cons_ne _ (openingLine_ne_closingLine name name),
    List.idxOf_append_of_notMem hinner, List.idxOf_cons_self]
  omega

theorem idxOf_lt : lines.idxOf (openingLine name) < lines.idxOf (closingLine name) := by
  rw [h.idxOf_opening, h.idxOf_closing]
  omega

theorem drop_take_eq : (lines.take (lines.idxOf (closingLine name))).drop
    (lines.idxOf (openingLine name) + 1) = inner := by
  have hsplit : lines = (before ++ [openingLine name]) ++ (inner ++ closingLine name :: after) := by
    rw [h.lines_eq]
    simp
  have hlength : (before ++ [openingLine name]).length = before.length + 1 := by simp
  rw [h.idxOf_opening, h.idxOf_closing, List.drop_take, hsplit, ← hlength, List.drop_left,
    Nat.add_sub_cancel_left, List.take_left]

end Bracketed

-- A bracket with a blank line on both sides.
def bracketLines (entry : String × List String) : List String :=
  "" :: openingLine entry.1 :: (entry.2 ++ [closingLine entry.1, ""])

-- Nothing but the markers of the brackets can be taken for one.
structure Unmistakable (front : List String) (entries : List (String × List String)) : Prop where
  front : ∀ line ∈ front, isMarker line = false
  inner : ∀ entry ∈ entries, ∀ line ∈ entry.2, isMarker line = false
  ascending : entries.Pairwise fun first second => first.1 < second.1

theorem not_marks_of_isMarker_eq_false (h : isMarker line = false) : ¬ Marks name line := by
  intro hmarks
  rw [hmarks.isMarker] at h
  cases h

theorem mem_bracketLines (h : line ∈ bracketLines entry) :
    line = "" ∨ line = openingLine entry.1 ∨ line = closingLine entry.1 ∨ line ∈ entry.2 := by
  simp only [bracketLines, List.mem_cons, List.mem_append, List.not_mem_nil, or_false] at h
  obtain h | h | h | h | h := h
  · exact .inl h
  · exact .inr (.inl h)
  · exact .inr (.inr (.inr h))
  · exact .inr (.inr (.inl h))
  · exact .inl h

theorem Unmistakable.not_marks (h : Unmistakable front entries) (hentry : entry ∈ entries)
    (hne : name ≠ entry.1) (hline : line ∈ bracketLines entry) : ¬ Marks name line := by
  obtain rfl | rfl | rfl | hinner := mem_bracketLines hline
  · exact not_marks_of_isMarker_eq_false (by decide)
  · exact mt marks_openingLine hne
  · exact mt marks_closingLine hne
  · exact not_marks_of_isMarker_eq_false (h.inner entry hentry line hinner)

theorem Unmistakable.bracketed (h : Unmistakable front (earlier ++ entry :: later)) :
    Bracketed (front ++ (earlier ++ entry :: later).flatMap bracketLines) entry.1
      (front ++ earlier.flatMap bracketLines ++ [""]) entry.2
      ("" :: later.flatMap bracketLines) := by
  obtain ⟨-, hlater, hearlier⟩ := List.pairwise_append.mp h.ascending
  refine ⟨by simp [bracketLines], ?_⟩
  simp only [List.forall_mem_append, List.forall_mem_cons, List.not_mem_nil, false_implies,
    implies_true, and_true]
  have hblank : ¬ Marks entry.1 "" := not_marks_of_isMarker_eq_false (by decide)
  refine ⟨⟨⟨⟨fun line hline => ?_, fun line hline => ?_⟩, hblank⟩, fun line hline => ?_⟩, hblank,
    fun line hline => ?_⟩
  · exact not_marks_of_isMarker_eq_false (h.front line hline)
  · obtain ⟨other, hother, hline⟩ := List.mem_flatMap.mp hline
    have hlt := hearlier other hother entry List.mem_cons_self
    exact h.not_marks (List.mem_append_left _ hother) hlt.ne' hline
  · exact not_marks_of_isMarker_eq_false (h.inner entry (by simp) line hline)
  · obtain ⟨other, hother, hline⟩ := List.mem_flatMap.mp hline
    have hlt := (List.pairwise_cons.mp hlater).1 other hother
    exact h.not_marks (by simp [hother]) hlt.ne hline

-- A place in a text of several parts is a place in one of them.
theorem exists_of_getElem?_flatMap {α β : Type} {part : α → List β} {list : List α} {x : β}
    {index : Nat} (h : (list.flatMap part)[index]? = some x) :
    ∃ earlier item later offset, list = earlier ++ item :: later ∧
      index = (earlier.flatMap part).length + offset ∧ (part item)[offset]? = some x := by
  induction list generalizing index with
  | nil => cases h
  | cons item list ih =>
    rw [List.flatMap_cons] at h
    obtain hlt | hle := Nat.lt_or_ge index (part item).length
    · rw [List.getElem?_append_left hlt] at h
      exact ⟨[], item, list, index, rfl, (Nat.zero_add index).symm, h⟩
    · rw [List.getElem?_append_right hle] at h
      obtain ⟨earlier, other, later, offset, rfl, heq, hoffset⟩ := ih h
      refine ⟨item :: earlier, other, later, offset, rfl, ?_, hoffset⟩
      rw [List.flatMap_cons, List.length_append]
      omega

section Unmistakable

variable (h : Unmistakable front entries)

include h

theorem Unmistakable.exists_bracketed (hentry : (name, inner) ∈ entries) : ∃ before after,
    Bracketed (front ++ entries.flatMap bracketLines) name before inner after := by
  obtain ⟨earlier, later, rfl⟩ := List.append_of_mem hentry
  exact ⟨_, _, h.bracketed⟩

theorem Unmistakable.idxOf_lt {second : String} {others : List String}
    (hentry : (name, inner) ∈ entries) (hother : (second, others) ∈ entries)
    (hlt : name < second) :
    (front ++ entries.flatMap bracketLines).idxOf (closingLine name) <
      (front ++ entries.flatMap bracketLines).idxOf (openingLine second) := by
  obtain ⟨earlier, behind, rfl⟩ := List.append_of_mem hentry
  obtain ⟨-, hbehind, hearlier⟩ := List.pairwise_append.mp h.ascending
  obtain hbefore | hother := List.mem_append.mp hother
  · exact absurd (hearlier _ hbefore _ List.mem_cons_self) (lt_asymm hlt)
  obtain heq | hother := List.mem_cons.mp hother
  · exact absurd (Prod.mk.inj heq).1 hlt.ne'
  obtain ⟨between, later, rfl⟩ := List.append_of_mem hother
  have hfirst := h.bracketed.idxOf_closing
  have hassoc : earlier ++ (name, inner) :: (between ++ (second, others) :: later) =
      (earlier ++ (name, inner) :: between) ++ (second, others) :: later := by simp
  rw [hassoc] at h hfirst ⊢
  rw [h.bracketed.idxOf_opening, hfirst]
  simp only [bracketLines, List.length_append, List.flatMap_append, List.flatMap_cons,
    List.length_cons]
  omega

theorem Unmistakable.eq_blank (hline : (front ++ entries.flatMap bracketLines)[index]? = some line)
    (hfront : front.length ≤ index) (hout : ∀ entry ∈ entries,
      index < (front ++ entries.flatMap bracketLines).idxOf (openingLine entry.1) ∨
      (front ++ entries.flatMap bracketLines).idxOf (closingLine entry.1) < index) : line = "" := by
  rw [List.getElem?_append_right hfront] at hline
  obtain ⟨earlier, entry, later, offset, rfl, hindex, hoffset⟩ := exists_of_getElem?_flatMap hline
  have hentry := hout entry (by simp)
  rw [h.bracketed.idxOf_opening, h.bracketed.idxOf_closing] at hentry
  simp only [List.length_append, List.length_singleton] at hentry
  obtain hbefore | hbehind := hentry
  · obtain rfl : offset = 0 := by omega
    exact (Option.some.inj hoffset).symm
  · obtain ⟨count, rfl⟩ : ∃ count, offset = entry.2.length + count + 1 + 1 + 1 :=
      ⟨offset - entry.2.length - 3, by omega⟩
    rw [bracketLines, List.getElem?_cons_succ, List.getElem?_cons_succ,
      List.getElem?_append_right (by omega), Nat.add_assoc, Nat.add_sub_cancel_left,
      List.getElem?_cons_succ] at hoffset
    exact List.mem_singleton.mp (List.mem_of_getElem? hoffset)

end Unmistakable

end Reading

section Document

variable {model : Model} {graph : Graph} {options : Options} {tables : List String}
  {title : String}

def titleLines (title : String) : List String :=
  [":orphan:", "", title, String.ofList (List.replicate title.length '#')]

-- The brackets of listeners with their tables, which have a blank line above and below.
def brackets (entries : List (String × String)) : List (String × List String) :=
  entries.map fun entry => (entry.1, "" :: (linesOf entry.2 ++ [""]))

theorem unlines_append (first second : List String) :
    unlines (first ++ second) = unlines first ++ unlines second := List.flatMap_append

theorem toList_propagationFront : (propagationFront graph options).toList =
    unlines (titleLines (propagationTitle graph options)) ++ ['\n'] := by
  simp [propagationFront, unlines, titleLines, underline, toString]

-- A bracket is written with both blank lines behind it, one of which stands above the next one.
theorem cons_bracketed (name table : String) : '\n' :: (bracketed name table).toList =
    unlines (bracketLines (name, "" :: (linesOf table ++ [""]))) ++ ['\n'] := by
  have htable := unlines_linesOf table
  rw [unlines] at htable
  simp [bracketed, bracketLines, openingLine, closingLine, unlines, toString, htable]

theorem cons_flatMap_bracketed (entries : List (String × String)) :
    '\n' :: entries.flatMap (fun entry => (bracketed entry.1 entry.2).toList) =
      unlines ((brackets entries).flatMap bracketLines) ++ ['\n'] := by
  induction entries with
  | nil => rfl
  | cons entry entries ih =>
    rw [List.flatMap_cons, ← List.cons_append, cons_bracketed, List.append_assoc,
      List.singleton_append, ih, brackets, brackets, List.map_cons, List.flatMap_cons,
      unlines_append, List.append_assoc]

theorem flatMap_propagationParts : (propagationParts graph options tables).flatMap String.toList =
    unlines (titleLines (propagationTitle graph options) ++
      (brackets (graph.listeners.toList.zip tables)).flatMap bracketLines ++ [""]) := by
  have hbrackets := cons_flatMap_bracketed (graph.listeners.toList.zip tables)
  rw [propagationParts, List.flatMap_cons, toList_propagationFront, List.flatMap_map,
    List.append_assoc, List.singleton_append, hbrackets, unlines_append, unlines_append,
    List.append_assoc]
  rfl

-- A listener on one line with its table.
structure Tabled (graph : Graph) (options : Options) (entry : String × String) : Prop where
  table_eq : listenerTable graph options entry.1 = .ok entry.2
  framed : ∀ line ∈ linesOf entry.2, Grid.Framed line.toList
  oneLine : '\n' ∉ entry.1.toList

theorem Tabled.inner {entry : String × String} (h : Tabled graph options entry) :
    ∀ line ∈ "" :: (linesOf entry.2 ++ [""]), isMarker line = false ∧ '\n' ∉ line.toList := by
  have hblank : isMarker "" = false ∧ '\n' ∉ "".toList := by decide
  rw [List.forall_mem_cons, List.forall_mem_append, List.forall_mem_singleton]
  refine ⟨hblank, fun line hline => ⟨isPrefixOf_eq_false ?_, (h.framed line hline).oneLine⟩, hblank⟩
  obtain hstart | hstart := (h.framed line hline).starts
  · rw [hstart]
    decide
  · rw [hstart]
    decide

theorem Tabled.oneLine_bracketLines {entry : String × String} (h : Tabled graph options entry) :
    ∀ line ∈ bracketLines (entry.1, "" :: (linesOf entry.2 ++ [""])), '\n' ∉ line.toList := by
  intro line hline
  obtain rfl | rfl | rfl | hinner := mem_bracketLines hline
  · decide
  · simp [openingLine, toString, h.oneLine]
  · simp [closingLine, toString, h.oneLine]
  · exact (h.inner line hinner).2

theorem titleLines_plain (htitle : '\n' ∉ title.toList)
    (hmarker : ¬ ".. table_".toList <+: title.toList) :
    ∀ line ∈ titleLines title, isMarker line = false ∧ '\n' ∉ line.toList := by
  have hmark : isMarker (underline '#' title) = false ∧ '\n' ∉ (underline '#' title).toList :=
    ⟨isPrefixOf_eq_false (head?_underline_ne (by decide) title), by simp [underline]⟩
  simp only [titleLines, List.forall_mem_cons, List.not_mem_nil, false_implies, implies_true,
    and_true]
  refine ⟨by decide, by decide, ⟨?_, htitle⟩, hmark⟩
  rw [isMarker, Bool.eq_false_iff, ne_eq, List.isPrefixOf_iff_prefix]
  exact hmarker

theorem newline_not_mem_propagationTitle (hlabel : '\n' ∉ (options.label graph).toList)
    (htitle : ∀ title ∈ options.title, '\n' ∉ title.toList) :
    '\n' ∉ (propagationTitle graph options).toList := by
  unfold propagationTitle
  cases h : options.title with
  | none => simp [hlabel]
  | some title => exact htitle title h

theorem exists_tabled (hlabel : '\n' ∉ (options.label (Graph.ofModel model)).toList)
    (hlisteners : ∀ name ∈ model.listeners.keys, '\n' ∉ name.toList)
    (hevents : ∀ event ∈ model.events, '\n' ∉ event.toList) : ∃ tables,
      (Graph.ofModel model).listeners.toList.length = tables.length ∧
      (∀ entry ∈ (Graph.ofModel model).listeners.toList.zip tables,
        Tabled (Graph.ofModel model) options entry) ∧
      propagationDocument (Graph.ofModel model) options =
        .ok (document (propagationParts (Graph.ofModel model) options tables)) := by
  obtain ⟨tables, htables, hsections⟩ := exists_tables fun name hname =>
    exists_rendered model options hname
  obtain ⟨hlength, hrendered⟩ := List.forall₂_iff_zip.mp htables
  refine ⟨tables, hlength, fun ⟨name, table⟩ hentry => ?_, propagationDocument_eq hsections⟩
  obtain ⟨columns, grid, h⟩ := hrendered hentry
  obtain ⟨record, hrecord⟩ := Graph.mem_listeners_iff.mp (List.of_mem_zip hentry).1
  have hname := hlisteners name (NameMap.mem_keys_iff.mpr ⟨record, hrecord⟩)
  exact ⟨h.table_eq, h.framed (oneLine_of_columns (oneLine_ofModel hlabel hlisteners hevents)
    hname hrecord h.columns_eq), hname⟩

-- How a text, given by its lines, holds the tables of a graph's listeners.
structure Contains (graph : Graph) (options : Options) (lines : List String) : Prop where
  titled : titleLines (propagationTitle graph options) <+: lines
  -- the markers of a listener are on one line each
  once : ∀ name ∈ graph.listeners, lines.count (openingLine name) = 1 ∧
    lines.count (closingLine name) = 1
  opened : ∀ name ∈ graph.listeners,
    lines.idxOf (openingLine name) < lines.idxOf (closingLine name)
  ascending : ∀ name ∈ graph.listeners, ∀ later ∈ graph.listeners, name < later →
    lines.idxOf (closingLine name) < lines.idxOf (openingLine later)
  -- between them stands the listener's table, with a blank line above it and one below
  table : ∀ name ∈ graph.listeners, ∃ table, listenerTable graph options name = .ok table ∧
    (lines.take (lines.idxOf (closingLine name))).drop (lines.idxOf (openingLine name) + 1) =
      "" :: (linesOf table ++ [""])
  -- below the title there are only blank lines outside the markers
  outside : ∀ index line, lines[index]? = some line →
    (titleLines (propagationTitle graph options)).length ≤ index →
    (∀ name ∈ graph.listeners, index < lines.idxOf (openingLine name) ∨
      lines.idxOf (closingLine name) < index) → line = ""

section Lines

variable (hlength : graph.listeners.toList.length = tables.length)
  (htabled : ∀ entry ∈ graph.listeners.toList.zip tables, Tabled graph options entry)
  (htitle : '\n' ∉ (propagationTitle graph options).toList)
  (hmarker : ¬ ".. table_".toList <+: (propagationTitle graph options).toList)

include hlength htabled

theorem exists_bracket {name : String} (h : name ∈ graph.listeners) : ∃ table,
    listenerTable graph options name = .ok table ∧
      (name, "" :: (linesOf table ++ [""])) ∈ brackets (graph.listeners.toList.zip tables) := by
  rw [NameSet.mem_iff, ← List.map_fst_zip hlength.le] at h
  obtain ⟨⟨_, table⟩, hentry, rfl⟩ := List.mem_map.mp h
  exact ⟨table, (htabled _ hentry).table_eq, List.mem_map_of_mem hentry⟩

omit hlength

include htitle hmarker

theorem linesOf_propagationParts :
    linesOf (document (propagationParts graph options tables)) =
      titleLines (propagationTitle graph options) ++
        (brackets (graph.listeners.toList.zip tables)).flatMap bracketLines := by
  refine linesOf_document (List.cons_ne_nil _ _) ?_ flatMap_propagationParts
  rw [List.forall_mem_append]
  refine ⟨fun line hline => (titleLines_plain htitle hmarker line hline).2, fun line hline => ?_⟩
  obtain ⟨bracket, hbracket, hline⟩ := List.mem_flatMap.mp hline
  obtain ⟨entry, hentry, rfl⟩ := List.mem_map.mp hbracket
  exact (htabled entry hentry).oneLine_bracketLines line hline

include hlength

theorem unmistakable_brackets : Unmistakable (titleLines (propagationTitle graph options))
    (brackets (graph.listeners.toList.zip tables)) where
  front line hline := (titleLines_plain htitle hmarker line hline).1
  inner bracket hbracket line hline := by
    obtain ⟨entry, hentry, rfl⟩ := List.mem_map.mp hbracket
    exact ((htabled entry hentry).inner line hline).1
  ascending := by
    have hnames := graph.listeners.ascending
    rw [← List.map_fst_zip hlength.le, List.pairwise_map] at hnames
    exact List.pairwise_map.mpr hnames

theorem exists_place {name : String} (h : name ∈ graph.listeners) : ∃ table before after,
    listenerTable graph options name = .ok table ∧
      Bracketed (titleLines (propagationTitle graph options) ++
          (brackets (graph.listeners.toList.zip tables)).flatMap bracketLines)
        name before ("" :: (linesOf table ++ [""])) after := by
  obtain ⟨table, htable, hbracket⟩ := exists_bracket hlength htabled h
  have hread := unmistakable_brackets hlength htabled htitle hmarker
  obtain ⟨before, after, hbracketed⟩ := hread.exists_bracketed hbracket
  exact ⟨table, before, after, htable, hbracketed⟩

end Lines

end Document

-- The document is the title with one pair of markers for each listener, in order, around the
-- table that the listener has on its own.
theorem propagationDocument_contains {model : Model} {options : Options}
    (hlabel : '\n' ∉ (options.label (Graph.ofModel model)).toList)
    (hlisteners : ∀ name ∈ model.listeners.keys, '\n' ∉ name.toList)
    (hevents : ∀ event ∈ model.events, '\n' ∉ event.toList)
    (htitle : ∀ title ∈ options.title, '\n' ∉ title.toList)
    (hmarker : ¬ ".. table_".toList <+: (propagationTitle (Graph.ofModel model) options).toList) :
    ∃ text, propagationDocument (Graph.ofModel model) options = .ok text ∧
      Contains (Graph.ofModel model) options (linesOf text) := by
  obtain ⟨tables, hlength, htabled, hdocument⟩ := exists_tabled hlabel hlisteners hevents
  have hplain := newline_not_mem_propagationTitle hlabel htitle
  have hread := unmistakable_brackets hlength htabled hplain hmarker
  refine ⟨_, hdocument, ?_⟩
  rw [linesOf_propagationParts htabled hplain hmarker]
  refine ⟨List.prefix_append _ _, fun name hname => ?_, fun name hname => ?_,
    fun name hname later hlater hlt => ?_, fun name hname => ?_,
    fun index line hline hindex hout => ?_⟩
  · obtain ⟨_, _, _, -, hbracketed⟩ := exists_place hlength htabled hplain hmarker hname
    exact hbracketed.count_eq
  · obtain ⟨_, _, _, -, hbracketed⟩ := exists_place hlength htabled hplain hmarker hname
    exact hbracketed.idxOf_lt
  · obtain ⟨_, -, hbracket⟩ := exists_bracket hlength htabled hname
    obtain ⟨_, -, hbehind⟩ := exists_bracket hlength htabled hlater
    exact hread.idxOf_lt hbracket hbehind hlt
  · obtain ⟨table, _, _, htable, hbracketed⟩ := exists_place hlength htabled hplain hmarker hname
    exact ⟨table, htable, hbracketed.drop_take_eq⟩
  · refine hread.eq_blank hline hindex fun bracket hbracket => ?_
    obtain ⟨entry, hentry, rfl⟩ := List.mem_map.mp hbracket
    exact hout entry.1 (NameSet.mem_iff.mpr (List.of_mem_zip hentry).1)

def captioned : Options := { title := some "Events at the desk" }

theorem propagationDocument_contains_leds :
    '\n' ∉ (captioned.label (Graph.ofModel desk)).toList ∧
      (∀ name ∈ desk.listeners.keys, '\n' ∉ name.toList) ∧
      (∀ event ∈ desk.events, '\n' ∉ event.toList) ∧
      (∀ title ∈ captioned.title, '\n' ∉ title.toList) ∧
      ¬ ".. table_".toList <+: (propagationTitle (Graph.ofModel desk) captioned).toList ∧
      ∃ text, propagationDocument (Graph.ofModel desk) captioned = .ok text ∧
        Contains (Graph.ofModel desk) captioned (linesOf text) :=
  have hlabel : '\n' ∉ (captioned.label (Graph.ofModel desk)).toList := by decide +kernel
  have hlisteners : ∀ name ∈ desk.listeners.keys, '\n' ∉ name.toList := by decide +kernel
  have hevents : ∀ event ∈ desk.events, '\n' ∉ event.toList := by
    intro event hevent
    have hall : ∀ event ∈ desk.events.toList, '\n' ∉ event.toList := by decide +kernel
    exact hall event (NameSet.mem_iff.mp hevent)
  have htitle : ∀ title ∈ captioned.title, '\n' ∉ title.toList := by decide +kernel
  have hmarker : ¬ ".. table_".toList <+:
      (propagationTitle (Graph.ofModel desk) captioned).toList := by decide +kernel
  ⟨hlabel, hlisteners, hevents, htitle, hmarker,
    propagationDocument_contains hlabel hlisteners hevents htitle hmarker⟩

end EventFlow.Report
