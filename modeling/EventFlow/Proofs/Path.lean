import EventFlow.Path
import Mathlib.Tactic.MkIffOfInductiveProp

namespace EventFlow.Path

-- A name that leads from a directory to what has this name there.
@[mk_iff]
structure IsName (name : String) : Prop where
  nonempty : name ≠ ""
  not_here : name ≠ "."
  not_above : name ≠ ".."
  no_slash : '/' ∉ name.toList
  no_nul : '\x00' ∉ name.toList

instance (name : String) : Decidable (IsName name) := decidable_of_iff _ (isName_iff name).symm

variable {name : String} {path : Path}

theorem IsName.not_idle (h : IsName name) : isIdle name = false := by
  simp [isIdle, h.nonempty, h.not_here]

theorem IsName.not_absolute (h : IsName name) : (Path.mk name).isAbsolute = false := by
  rw [isAbsolute, decide_eq_false_iff_not]
  exact fun hhead => h.no_slash (List.mem_of_mem_head? hhead)

-- Whether nothing has to stand between this path and what follows it.
def IsOpen (path : Path) : Prop := path.text = "" ∨ path.text.toList.getLast? = some '/'

instance (path : Path) : Decidable path.IsOpen := inferInstanceAs (Decidable (_ ∨ _))

-- The segments of a path that another one follows.
def lead (path : Path) : List String :=
  if path.IsOpen then path.segments.dropLast else path.segments

theorem text_join (h : IsName name) :
    (path.join ⟨name⟩).text = if path.IsOpen then path.text ++ name else path.text ++ "/" ++ name := by
  rw [join, h.not_absolute, if_neg Bool.false_ne_true]
  by_cases hopen : path.IsOpen
  · rw [if_pos hopen, if_pos (show _ ∨ _ from hopen)]
  · rw [if_neg hopen, if_neg (show ¬(_ ∨ _) from hopen)]

theorem size_join_le (path : Path) (h : IsName name) : (path.join ⟨name⟩).text.utf8ByteSize ≤
    path.text.utf8ByteSize + (name.utf8ByteSize + 1) := by
  have hslash : "/".utf8ByteSize = 1 := by decide
  rw [text_join h]
  split
  · rw [String.utf8ByteSize_append]
    omega
  · rw [String.utf8ByteSize_append, String.utf8ByteSize_append, hslash]
    omega

theorem le_size_join (path : Path) (h : IsName name) : path.text.utf8ByteSize + name.utf8ByteSize ≤
    (path.join ⟨name⟩).text.utf8ByteSize := by
  rw [text_join h]
  split
  · exact Nat.le_of_eq (String.utf8ByteSize_append ..).symm
  · rw [String.utf8ByteSize_append, String.utf8ByteSize_append]
    omega

theorem isAbsolute_join (h : IsName name) : (path.join ⟨name⟩).isAbsolute = path.isAbsolute := by
  have hname : name.toList.head? ≠ some '/' := by simpa [isAbsolute] using h.not_absolute
  rw [isAbsolute, text_join h, isAbsolute]
  cases htext : path.text.toList with
  | nil =>
    have hempty : path.text = "" := String.toList_eq_nil_iff.mp htext
    simp [IsOpen, hempty, hname]
  | cons first rest => split <;> simp [htext]

theorem splitOn_name (h : IsName name) : name.toList.splitOn '/' = [name.toList] := by
  refine List.splitOnP_eq_singleton fun c hc => ?_
  rw [beq_eq_false_iff_ne]
  exact fun heq => h.no_slash (heq ▸ hc)

theorem splitOn_append_slash (front rest : List Char) :
    (front ++ '/' :: rest).splitOn '/' = front.splitOn '/' ++ rest.splitOn '/' :=
  List.splitOnP_append_cons front rest (beq_self_eq_true _)

-- The pieces between slashes when one name follows.
theorem splitOn_join (path : Path) (h : IsName name) :
    (path.join ⟨name⟩).text.toList.splitOn '/' =
      (if path.IsOpen then (path.text.toList.splitOn '/').dropLast
        else path.text.toList.splitOn '/') ++ [name.toList] := by
  rw [text_join h]
  split
  · rename_i hopen
    rcases hopen with hempty | hslash
    · simp [hempty, splitOn_name h]
    · obtain ⟨front, hfront⟩ := List.getLast?_eq_some_iff.mp hslash
      have hname := splitOn_append_slash front name.toList
      have hnothing := splitOn_append_slash front []
      rw [String.toList_append, hfront, List.append_assoc, List.singleton_append, hname, hnothing,
        splitOn_name h, List.splitOn_nil, List.dropLast_concat]
  · rw [String.toList_append, String.toList_append, List.append_assoc]
    have hname := splitOn_append_slash path.text.toList name.toList
    rw [splitOn_name h] at hname
    exact hname

-- The piece before the first slash of an absolute path is not the last one.
theorem splitOn_absolute (h : path.isAbsolute = true) :
    ∃ piece pieces, path.text.toList.splitOn '/' = [] :: piece :: pieces := by
  obtain ⟨rest, hrest⟩ : ∃ rest, path.text.toList = '/' :: rest := by
    rw [isAbsolute, decide_eq_true_eq] at h
    exact List.head?_eq_some_iff.mp h
  have hsplit := splitOn_append_slash [] rest
  cases hpieces : rest.splitOn '/' with
  | nil => exact absurd hpieces (List.splitOnP_ne_nil _ rest)
  | cons piece pieces =>
    rw [hpieces] at hsplit
    exact ⟨piece, pieces, by rw [hrest]; exact hsplit⟩

theorem segments_join (h : IsName name) : (path.join ⟨name⟩).segments = path.lead ++ [name] := by
  have hjoin := splitOn_join path h
  unfold lead segments
  rw [isAbsolute_join h, hjoin]
  cases habsolute : path.isAbsolute with
  | false => split <;> simp
  | true =>
    obtain ⟨piece, pieces, hpieces⟩ := splitOn_absolute habsolute
    rw [hpieces]
    split <;> simp

theorem IsName.toList_ne_nil (h : IsName name) : name.toList ≠ [] :=
  fun hnil => h.nonempty (String.toList_eq_nil_iff.mp hnil)

theorem not_isOpen_join (h : IsName name) : ¬ (path.join ⟨name⟩).IsOpen := by
  have hlast : name.toList.getLast? ≠ some '/' := fun hslash =>
    h.no_slash (List.mem_of_getLast? hslash)
  have htext : ∀ front : String, front ++ name ≠ "" ∧ (front ++ name).toList.getLast? ≠ some '/' := by
    intro front
    have hnonempty : front.toList ++ name.toList ≠ [] := by simp [h.toList_ne_nil]
    refine ⟨fun hempty => hnonempty ?_, ?_⟩
    · rw [← String.toList_append, hempty]
      rfl
    · rw [String.toList_append, List.getLast?_append, Ne, Option.or_eq_some_iff]
      simp [hlast, h.nonempty]
  rw [IsOpen, text_join h, not_or]
  split
  · exact htext path.text
  · exact htext (path.text ++ "/")

theorem lead_join (h : IsName name) : (path.join ⟨name⟩).lead = path.lead ++ [name] := by
  rw [lead, if_neg (not_isOpen_join h), segments_join h]

-- A slash at the end of a path adds an empty segment.
theorem segments_of_isOpen (h : path.IsOpen) (hne : path.text ≠ "") :
    path.segments = path.lead ++ [""] := by
  obtain ⟨front, hfront⟩ := List.getLast?_eq_some_iff.mp (h.resolve_left hne)
  have hsplit := splitOn_append_slash front []
  rw [List.splitOn_nil, ← hfront] at hsplit
  have hlast : path.segments.getLast? = some "" := by
    unfold segments
    cases habsolute : path.isAbsolute with
    | false => simp [hsplit]
    | true =>
      obtain ⟨piece, pieces, hpieces⟩ := splitOn_absolute habsolute
      have hend := congrArg List.getLast? (hpieces.symm.trans hsplit)
      rw [List.getLast?_cons_cons, List.getLast?_concat] at hend
      rw [hpieces, if_pos rfl, List.map_cons, List.drop_one, List.tail_cons, List.getLast?_map, hend]
      rfl
  obtain ⟨before, hbefore⟩ := List.getLast?_eq_some_iff.mp hlast
  rw [lead, if_pos h, hbefore, List.dropLast_concat]

theorem nul_join (h : IsName name) (hnul : '\x00' ∉ path.text.toList) :
    '\x00' ∉ (path.join ⟨name⟩).text.toList := by
  rw [text_join h]
  split
  · simp [hnul, h.no_nul]
  · simp [hnul, h.no_nul]

theorem trimEnd_concat (absolute : Bool) (front : List String) (h : isIdle name = false) :
    trimEnd absolute (front ++ [name]) = front ++ [name] := by
  cases front with
  | nil =>
    have hname : name ≠ "" ∧ name ≠ "." := by simpa [isIdle] using h
    simp [trimEnd, hname]
  | cons first rest => simp [trimEnd, h]

theorem fileName?_join (h : IsName name) : (path.join ⟨name⟩).fileName? = some name := by
  rw [fileName?, steps, segments_join h, trimEnd_concat _ _ h.not_idle]
  simp [h.not_here, h.not_above]

end EventFlow.Path
