import EventFlow.Proofs.Source.Numbering
import EventFlow.Proofs.Source.Writing

namespace EventFlow.Source

namespace Lexeme

-- Words with at most a single space between any two of them.
structure SinglySpaced (lexemes : List Lexeme) : Prop where
  word_or_space : ∀ lexeme ∈ lexemes, lexeme.isWord ∨ lexeme = ⟨.blank, [' ']⟩
  apart : lexemes.IsChain fun first second => second.isWord ∨ first.text.getLast? ≠ some ' '

section Written

variable {lexemes rest : List Lexeme} {first : Lexeme}

theorem length_write_le (h : ∀ lexeme ∈ lexemes, lexeme.text ≠ []) (spaced : Bool) :
    (write spaced lexemes).length ≤ (lexemes.flatMap Lexeme.text).length := by
  induction lexemes generalizing spaced with
  | nil => exact Nat.le_refl 0
  | cons lexeme rest ih =>
    obtain ⟨hne, hrest⟩ := List.forall_mem_cons.mp h
    have hlength := List.length_pos_iff.mpr hne
    rw [write, List.flatMap_cons, List.length_append]
    split
    · have hle := ih hrest (decide (lexeme.text.getLast? = some ' '))
      rw [List.length_append]
      omega
    · split
      · have hle := ih hrest true
        cases spaced with
        | true => exact Nat.le_add_left_of_le hle
        | false =>
          rw [List.length_append]
          exact Nat.add_le_add hlength hle
      · exact Nat.le_add_left_of_le (ih hrest spaced)

theorem mem_write {c : Char} {spaced : Bool} (h : c ∈ write spaced lexemes) :
    c = ' ' ∨ c ∈ lexemes.flatMap Lexeme.text := by
  induction lexemes generalizing spaced with
  | nil => cases h
  | cons lexeme rest ih =>
    rw [write] at h
    rw [List.flatMap_cons, List.mem_append]
    split at h
    · rcases List.mem_append.mp h with h | h
      · exact .inr (.inl h)
      · exact (ih h).imp_right .inr
    · split at h
      · rcases List.mem_append.mp h with h | h
        · split at h
          · cases h
          · exact .inl (List.mem_singleton.mp h)
        · exact (ih h).imp_right .inr
      · exact (ih h).imp_right .inr

theorem write_eq_iff (h : ∀ lexeme ∈ rest, lexeme.text ≠ [])
    (hspace : ∀ lexeme ∈ rest, lexeme.text = [' '] → lexeme = ⟨.blank, [' ']⟩) (first : Lexeme) :
    write (first.text.getLast? = some ' ') rest = rest.flatMap Lexeme.text ↔
      (∀ lexeme ∈ rest, lexeme.isWord ∨ lexeme = ⟨.blank, [' ']⟩) ∧
      (first :: rest).IsChain fun first second =>
        second.isWord ∨ first.text.getLast? ≠ some ' ' := by
  induction rest generalizing first with
  | nil => simp [write]
  | cons lexeme rest ih =>
    obtain ⟨hne, hrest⟩ := List.forall_mem_cons.mp h
    obtain ⟨hlexeme, hspaces⟩ := List.forall_mem_cons.mp hspace
    have hlength := List.length_pos_iff.mpr hne
    have hshort := length_write_le hrest
    rw [List.forall_mem_cons, List.isChain_cons_cons, write, List.flatMap_cons]
    cases hword : lexeme.isWord with
    | true => simp [ih hrest hspaces lexeme]
    | false =>
      simp only [Bool.false_eq_true, if_false, false_or]
      by_cases hspaced : lexeme.isSpace ∧ first.text.getLast? ≠ some ' '
      · obtain ⟨hkind, hlast⟩ := hspaced
        simp only [hkind, hlast, if_true, decide_false, Bool.false_eq_true, if_false, ne_eq,
          not_false_eq_true, true_and]
        constructor
        · intro heq
          -- the space stands for all of the lexeme, or what is written gets too short
          have hone : lexeme.text.length = 1 := by
            have hcount := congrArg List.length heq
            have hle := hshort true
            simp only [List.length_append, List.length_singleton] at hcount
            omega
          obtain ⟨c, hc⟩ := List.length_eq_one_iff.mp hone
          rw [hc, List.singleton_append, List.singleton_append, List.cons.injEq] at heq
          obtain ⟨rfl, heq⟩ := heq
          obtain rfl := hlexeme hc
          obtain ⟨hall, hchain⟩ := (ih hrest hspaces ⟨.blank, [' ']⟩).mp heq
          exact ⟨⟨rfl, hall⟩, hchain⟩
        · rintro ⟨⟨rfl, hall⟩, hchain⟩
          exact congrArg (' ' :: ·) ((ih hrest hspaces ⟨.blank, [' ']⟩).mpr ⟨hall, hchain⟩)
      · refine iff_of_false (fun heq => ?_) ?_
        · have hcount := congrArg List.length heq
          rw [List.length_append] at hcount
          split at hcount
          · rename_i hkind
            have hlast : first.text.getLast? = some ' ' := by simpa [hkind] using hspaced
            have hle := hshort true
            rw [decide_eq_true hlast, if_pos rfl, List.nil_append] at hcount
            omega
          · have hle := hshort (decide (first.text.getLast? = some ' '))
            omega
        · rintro ⟨⟨rfl, -⟩, hlast, -⟩
          exact hspaced ⟨rfl, hlast⟩

theorem text_ne_nil (text : List Char) : ∀ lexeme ∈ scan text, lexeme.text ≠ [] := by
  fun_induction scan text with
  | case1 => simp
  | case2 c rest ih => exact List.forall_mem_cons.mpr ⟨List.cons_ne_nil _ _, ih⟩

-- A text that begins with a word is written out as it stands just when it is spaced so.
theorem write_scan_eq_iff {text : List Char} (hscan : scan text = first :: rest)
    (hword : first.isWord) : write false (scan text) = text ↔ SinglySpaced (scan text) := by
  have hends : ∀ lexeme ∈ rest, ∃ behind, lexeme.EndsBefore behind := by
    intro lexeme hlexeme
    obtain ⟨before, behind, rfl⟩ := List.append_of_mem hlexeme
    exact ⟨_, @endsBefore_of_scan text (first :: before) behind lexeme hscan⟩
  have hne : ∀ lexeme ∈ rest, lexeme.text ≠ [] := fun lexeme hlexeme =>
    text_ne_nil text lexeme (hscan ▸ List.mem_cons_of_mem first hlexeme)
  have hspace : ∀ lexeme ∈ rest, lexeme.text = [' '] → lexeme = ⟨.blank, [' ']⟩ := by
    rintro ⟨kind, chars⟩ hlexeme rfl
    obtain ⟨behind, c, taken, htext, hfront⟩ := hends _ hlexeme
    obtain ⟨rfl, rfl⟩ := List.cons.inj htext
    have hkind : kind = .blank := (eq_of_front_eq hfront rfl).1
    rw [hkind]
  have htext := flatMap_text_scan text
  rw [hscan, List.flatMap_cons] at htext
  rw [hscan, write, if_pos hword]
  conv_lhs => rhs; rw [← htext]
  rw [List.append_cancel_left_eq, write_eq_iff hne hspace first]
  constructor
  · rintro ⟨hall, hchain⟩
    exact ⟨List.forall_mem_cons.mpr ⟨.inl hword, hall⟩, hchain⟩
  · intro hspaced
    exact ⟨(List.forall_mem_cons.mp hspaced.word_or_space).2, hspaced.apart⟩

end Written

-- A literal that nothing is hidden in ends with its second quote.
theorem literalLength_closed {quote : Char} {chars : List Char}
    (hquote : quote ≠ '\\' ∧ quote ≠ '\n') (h : ∀ c ∈ chars, c ≠ '\\' ∧ c ≠ '\n' ∧ c ≠ quote) :
    literalLength quote (chars ++ [quote]) = (chars ++ [quote]).length := by
  induction chars with
  | nil =>
    rw [List.nil_append, literalLength_plain hquote.1 hquote.2, if_pos rfl, List.length_singleton]
  | cons c rest ih =>
    obtain ⟨⟨hbackslash, hline, hne⟩, hrest⟩ := List.forall_mem_cons.mp h
    rw [List.cons_append, literalLength_plain hbackslash hline, if_neg hne, ih hrest,
      List.length_cons]

end Lexeme

-- Leading blanks are told from what follows.
theorem append_cons_inj_of_blank {blanks others rest more : List Char} {c d : Char}
    (hblanks : ∀ e ∈ blanks, Text.isBlank e) (hothers : ∀ e ∈ others, Text.isBlank e)
    (hc : Text.isBlank c = false) (hd : Text.isBlank d = false)
    (h : blanks ++ c :: rest = others ++ d :: more) : blanks = others ∧ c :: rest = d :: more := by
  have htake := congrArg (List.takeWhile Text.isBlank) h
  have hdrop := congrArg (List.dropWhile Text.isBlank) h
  rw [takeWhile_run hblanks (by simp [hc]), takeWhile_run hothers (by simp [hd])] at htake
  rw [dropWhile_run hblanks (by simp [hc]), dropWhile_run hothers (by simp [hd])] at hdrop
  exact ⟨htake, hdrop⟩

-- A line that includes a file, named between quotes or between angle brackets.
structure IncludeLine where
  quoted : Bool
  target : String
  nonempty : target ≠ ""
  plain : ∀ c ∈ target.toList, c ∉ ['<', '>', '"', '\\', '\n']

namespace IncludeLine

def opening (line : IncludeLine) : Char := if line.quoted then '"' else '<'

def closing (line : IncludeLine) : Char := if line.quoted then '"' else '>'

def bracketed (line : IncludeLine) : List Char :=
  line.opening :: (line.target.toList ++ [line.closing])

def text (line : IncludeLine) : String := "#include " ++ String.ofList line.bracketed

-- The line reads as words, with single spaces at most. A comment, any other white space and a
-- stray are none of these.
def Kept (line : IncludeLine) : Prop := Lexeme.SinglySpaced (Lexeme.scan line.text.toList)

-- The line is one of the text, with this number. No comment, literal or splice is open where it
-- begins and where it ends.
def StandsAt (line : IncludeLine) (text : String) (number : Nat) : Prop :=
  ∃ above below : String, text = above ++ line.text ++ below ∧
    number = 1 + above.toList.count '\n' ∧ (above = "" ∨ EndsLine above) ∧
    (below = "" ∨ below.toList.head? = some '\n' ∧ EndsLine (above ++ line.text ++ "\n"))

theorem toList_text (line : IncludeLine) :
    line.text.toList = '#' :: ("include".toList ++ ' ' :: line.bracketed) := by
  rw [text, String.toList_append, @String.toList_ofList line.bracketed]
  rfl

theorem scan_text (line : IncludeLine) : Lexeme.scan line.text.toList =
    ⟨.punctuation, ['#']⟩ :: ⟨.identifier, "include".toList⟩ :: ⟨.blank, [' ']⟩ ::
      Lexeme.scan line.bracketed := by
  rw [toList_text, Lexeme.scan_mark (by decide), Lexeme.scan_word (by decide) rfl, Lexeme.scan_gap]

theorem isBlank_opening (line : IncludeLine) : Text.isBlank line.opening = false := by
  rw [opening]
  split <;> decide

theorem isBlank_closing (line : IncludeLine) : Text.isBlank line.closing = false := by
  rw [closing]
  split <;> decide

theorem newline_not_mem (line : IncludeLine) : '\n' ∉ line.text.toList := by
  have htarget : '\n' ∉ line.target.toList := fun hmem => line.plain _ hmem (by decide)
  rw [toList_text, bracketed, opening, closing]
  split <;> simp [htarget]

-- Between quotes the target is one literal.
theorem kept_of_quoted {line : IncludeLine} (h : line.quoted) : line.Kept := by
  have hliteral : Lexeme.literalLength '"' (line.target.toList ++ ['"']) =
      (line.target.toList ++ ['"']).length := by
    refine Lexeme.literalLength_closed (by decide) fun c hc => ?_
    have hplain := line.plain c hc
    simp only [List.mem_cons, not_or] at hplain
    exact ⟨hplain.2.2.2.1, hplain.2.2.2.2.1, hplain.2.2.1⟩
  have hfront : Lexeme.front '"' (line.target.toList ++ ['"']) =
      (.string, (line.target.toList ++ ['"']).length) := congrArg (Lexeme.Kind.string, ·) hliteral
  have hscan : Lexeme.scan line.bracketed = [⟨.string, line.bracketed⟩] := by
    simp only [bracketed, opening, closing, h, if_true]
    rw [Lexeme.scan, hfront, List.take_length, List.drop_length, Lexeme.scan]
  rw [Kept, scan_text, hscan]
  constructor
  · simp [Lexeme.isWord]
  · simp [Lexeme.isWord]

-- A line that is written out as it stands gives the target it names.
theorem includeTarget?_of_text {line : IncludeLine} {directive : Directive}
    (h : directive.text = line.text) : directive.includeTarget? = some line.target := by
  have hkeyword : Directive.afterKeyword? "include" directive.text.toList =
      some (' ' :: line.bracketed) := by
    rw [h, toList_text]
    rfl
  have hdrop : Text.dropBlankStart (' ' :: line.bracketed) = line.bracketed := by
    rw [Text.dropBlankStart, List.dropWhile_cons_of_pos (by decide), bracketed,
      List.dropWhile_cons_of_neg (by simp [line.isBlank_opening])]
  have htarget : ∀ c ∈ line.target.toList, (decide (c ≠ '>' ∧ c ≠ '"')) = true := by
    intro c hc
    have hplain := line.plain c hc
    simp only [List.mem_cons, not_or] at hplain
    exact decide_eq_true ⟨hplain.2.1, hplain.2.2.1⟩
  have htake : (line.target.toList ++ [line.closing]).takeWhile (fun c => c ≠ '>' ∧ c ≠ '"') =
      line.target.toList :=
    takeWhile_run htarget (by rw [closing]; split <;> rfl)
  have hopening : line.opening = '<' ∨ line.opening = '"' := by
    rw [opening]
    split
    · exact .inr rfl
    · exact .inl rfl
  rw [Directive.includeTarget?, hkeyword, Option.bind_some, hdrop, bracketed]
  dsimp only
  rw [htake, if_pos ⟨hopening, by simpa using line.nonempty, by simp⟩, String.ofList_toList]

theorem exists_of_includeTarget? {directive : Directive} {target : String}
    (h : directive.includeTarget? = some target) : ∃ blanks spaces opening closing more,
      directive.text.toList = '#' :: (blanks ++ ("include".toList ++
        (spaces ++ opening :: (target.toList ++ closing :: more)))) ∧
      (∀ c ∈ blanks, Text.isBlank c) ∧ (∀ c ∈ spaces, Text.isBlank c) ∧
      Text.isBlank opening = false ∧ (closing = '>' ∨ closing = '"') := by
  obtain ⟨rest, hkeyword, h⟩ := Option.bind_eq_some_iff.mp h
  obtain ⟨blanks, htext, hblanks⟩ := Directive.exists_of_afterKeyword? hkeyword
  obtain ⟨spaces, hrest, hspaces⟩ := Directive.dropBlankStart_eq rest
  dsimp only at h
  split at h
  · rename_i opening more hmore
    split at h
    · rename_i hbracket
      obtain ⟨hopening, -, hlength⟩ := hbracket
      obtain rfl := Option.some.inj h
      have hsplit := @List.takeWhile_append_dropWhile _ (fun c => c ≠ '>' ∧ c ≠ '"') more
      have hstop := List.head?_dropWhile_not (fun c => decide (c ≠ '>' ∧ c ≠ '"')) more
      cases hbehind : more.dropWhile (fun c => c ≠ '>' ∧ c ≠ '"') with
      | nil =>
        rw [hbehind, List.append_nil] at hsplit
        rw [hsplit] at hlength
        exact absurd hlength (Nat.lt_irrefl _)
      | cons closing behind =>
        rw [hbehind] at hsplit hstop
        refine ⟨blanks, spaces, opening, closing, behind, ?_, hblanks, hspaces, ?_, ?_⟩
        · rw [htext, hrest, hmore, @String.toList_ofList (more.takeWhile _), hsplit]
        · rcases hopening with rfl | rfl <;> decide
        · simpa [or_iff_not_imp_left] using hstop
    · cases h
  · cases h

-- With a bracket written first, the target is what is written next.
theorem exists_of_written_bracket {directive : Directive} {target : String}
    {inside blanks : List Char} (h : directive.includeTarget? = some target)
    (hwrite : '#' :: ("include".toList ++ ' ' :: '<' :: inside) =
      directive.text.toList ++ blanks) :
    ∃ closing more, inside = target.toList ++ closing :: more ∧
      (closing = '>' ∨ closing = '"') := by
  obtain ⟨lead, spaces, opening, closing, more, htext, hlead, hspaces, hopening, hclosing⟩ :=
    exists_of_includeTarget? h
  have hword (tail : List Char) : "include".toList ++ tail = 'i' :: ("nclude".toList ++ tail) := rfl
  rw [htext] at hwrite
  simp only [List.cons_append, List.append_assoc, List.cons.injEq, true_and, hword] at hwrite
  rw [← List.nil_append ('i' :: _)] at hwrite
  have hnone : ∀ e ∈ ([] : List Char), Text.isBlank e := by simp
  have hkeyword := (append_cons_inj_of_blank hnone hlead rfl rfl hwrite).2
  rw [List.cons.injEq, List.append_cancel_left_eq, ← List.singleton_append] at hkeyword
  have hspace : ∀ e ∈ [' '], Text.isBlank e := List.all_eq_true.mp rfl
  have hbracket := (append_cons_inj_of_blank hspace hspaces rfl hopening hkeyword.2).2
  exact ⟨closing, more ++ blanks, (List.cons.inj hbracket).2, hclosing⟩

-- Nothing is longer written than it was, so the target is all that is written up to the bracket.
theorem write_target_eq {line : IncludeLine} {closing : Char} {more : List Char}
    (h : Lexeme.write false (Lexeme.scan (line.target.toList ++ ['>'])) =
      line.target.toList ++ closing :: more) (hclosing : closing = '>' ∨ closing = '"') :
    Lexeme.write false (Lexeme.scan (line.target.toList ++ ['>'])) =
      line.target.toList ++ ['>'] := by
  have hflat := Lexeme.flatMap_text_scan (line.target.toList ++ ['>'])
  have hlength := Lexeme.length_write_le (Lexeme.text_ne_nil (line.target.toList ++ ['>'])) false
  have hmore : more = [] := by
    rw [hflat, h] at hlength
    simpa using hlength
  have hclosed : closing = '>' := by
    refine hclosing.resolve_right ?_
    rintro rfl
    have hmem : '"' ∈ Lexeme.write false (Lexeme.scan (line.target.toList ++ ['>'])) := by
      rw [h]
      simp
    have hquote := Lexeme.mem_write hmem
    rw [hflat, List.mem_append] at hquote
    rcases hquote with hquote | hquote | hquote
    · cases hquote
    · exact line.plain _ hquote (by decide)
    · exact absurd hquote (by decide)
  rw [h, hmore, hclosed]

theorem getLast?_text (line : IncludeLine) : line.text.toList.getLast? = some line.closing := by
  have htext : line.text.toList = ('#' :: ("include".toList ++ ' ' :: line.opening ::
      line.target.toList)) ++ [line.closing] := by
    rw [toList_text, bracketed]
    simp
  rw [htext]
  exact List.getLast?_concat

-- The preprocessor line gives the target just when the line is written out as it stands.
theorem includeTarget?_iff {line : IncludeLine} {directive : Directive} {blanks : List Char}
    (hwrite : Lexeme.write false (Lexeme.scan line.text.toList) =
      directive.text.toList ++ blanks)
    (hblanks : ∀ c ∈ blanks, Text.isBlank c) :
    directive.includeTarget? = some line.target ↔ line.Kept := by
  rw [Kept, ← Lexeme.write_scan_eq_iff line.scan_text rfl]
  constructor
  · intro htarget
    cases hquoted : line.quoted with
    | true => exact (Lexeme.write_scan_eq_iff line.scan_text rfl).mpr (kept_of_quoted hquoted)
    | false =>
      have hbracketed : line.bracketed = '<' :: (line.target.toList ++ ['>']) := by
        simp [bracketed, opening, closing, hquoted]
      have hline : Lexeme.write false (Lexeme.scan line.text.toList) = '#' :: ("include".toList ++
          ' ' :: '<' :: Lexeme.write false (Lexeme.scan (line.target.toList ++ ['>']))) := by
        have hscan : Lexeme.scan line.bracketed =
            ⟨.punctuation, ['<']⟩ :: Lexeme.scan (line.target.toList ++ ['>']) := by
          rw [hbracketed, Lexeme.scan]
          rfl
        rw [scan_text, hscan]
        rfl
      obtain ⟨closing, more, hinside, hclosing⟩ :=
        exists_of_written_bracket htarget (hline.symm.trans hwrite)
      rw [hline, toList_text, hbracketed, write_target_eq hinside hclosing]
  · intro hkept
    rw [hwrite] at hkept
    have hnone : blanks = [] := by
      by_contra hne
      have hlast := line.getLast?_text
      rw [← hkept, List.getLast?_append_of_ne_nil _ hne] at hlast
      have hblank := hblanks _ (List.mem_of_getLast? hlast)
      rw [line.isBlank_closing] at hblank
      cases hblank
    rw [hnone, List.append_nil, String.toList_inj] at hkept
    exact includeTarget?_of_text hkept

-- The line is cut out of the text at line ends.
theorem StandsAt.exists_lexemes {line : IncludeLine} {text : String} {number : Nat}
    (h : line.StandsAt text number) : ∃ before after,
      Lexeme.scan text.toList = before ++ (Lexeme.scan line.text.toList ++ after) ∧
      number = 1 + (before.flatMap Lexeme.text).count '\n' ∧
      (∀ lexeme ∈ before.getLast?, lexeme.kind = .newline) ∧
      ∀ lexeme ∈ after.head?, lexeme.kind = .newline := by
  obtain ⟨above, below, rfl, rfl, habove, hbelow⟩ := h
  have hfirst (rest : List Char) : Lexeme.scan (above.toList ++ rest) =
      Lexeme.scan above.toList ++ Lexeme.scan rest := by
    rcases habove with rfl | habove
    · simp [Lexeme.scan]
    · exact habove.scan_append rest
  have hlast : ∀ lexeme ∈ (Lexeme.scan above.toList).getLast?, lexeme.kind = .newline := by
    rcases habove with rfl | ⟨front, hfront⟩
    · simp [Lexeme.scan]
    · rw [hfront, List.getLast?_concat]
      rintro lexeme hlexeme
      obtain rfl := Option.some.inj hlexeme
      rfl
  obtain ⟨after, hafter, hnewline⟩ : ∃ after,
      Lexeme.scan (line.text.toList ++ below.toList) = Lexeme.scan line.text.toList ++ after ∧
      ∀ lexeme ∈ after.head?, lexeme.kind = .newline := by
    rcases hbelow with rfl | ⟨hhead, front, hfront⟩
    · exact ⟨[], by simp, by simp⟩
    · obtain ⟨more, hmore⟩ := List.head?_eq_some_iff.mp hhead
      rw [String.toList_append, String.toList_append, List.append_assoc, hfirst] at hfront
      obtain ⟨words, hwords⟩ : ∃ words, Lexeme.scan (line.text.toList ++ "\n".toList) =
          words ++ [⟨.newline, ['\n']⟩] := by
        rcases List.eq_nil_or_concat (Lexeme.scan (line.text.toList ++ "\n".toList)) with
          hnone | ⟨words, last, hwords⟩
        · have htext := Lexeme.flatMap_text_scan (line.text.toList ++ "\n".toList)
          rw [hnone, List.flatMap_nil] at htext
          exact absurd htext.symm (by simp)
        · rw [List.concat_eq_append] at hwords
          rw [hwords, ← List.append_assoc] at hfront
          exact ⟨words, by rw [hwords, (List.append_inj' hfront rfl).2]⟩
      have hends : EndsLine (line.text ++ "\n") := ⟨words, by rw [String.toList_append, hwords]⟩
      have hall := hends.scan_append more
      rw [String.toList_append, hwords, List.append_assoc, List.append_assoc] at hall
      refine ⟨⟨.newline, ['\n']⟩ :: Lexeme.scan more, ?_, ?_⟩
      · rw [hmore, Lexeme.scan_of_append_newline hwords]
        exact hall
      · rintro lexeme hlexeme
        obtain rfl := Option.some.inj hlexeme
        rfl
  refine ⟨Lexeme.scan above.toList, after, ?_, ?_, hlast, hnewline⟩
  · rw [String.toList_append, String.toList_append, List.append_assoc, hfirst, hafter]
  · rw [Lexeme.flatMap_text_scan]

-- Such a line is a preprocessor line, the only one with its number, and its target is what it
-- names just when the line is written out as it stands.
theorem StandsAt.exists_directive {line : IncludeLine} {text : String} {number : Nat}
    (h : line.StandsAt text number) : ∃ directive ∈ (Stream.ofText text).directives,
      directive.line = number ∧ (directive.includeTarget? = some line.target ↔ line.Kept) := by
  obtain ⟨before, after, hscan, rfl, hbefore, hafter⟩ := h.exists_lexemes
  generalize hplaced : Placed.ofLexemes (1 + (before.flatMap Lexeme.text).count '\n')
    (0 + Placed.octets (before.flatMap Lexeme.text)) (Lexeme.scan line.text.toList) = placed
  have hlexemes : placed.map Placed.lexeme = Lexeme.scan line.text.toList := by
    rw [← hplaced, Placed.lexemes_ofLexemes]
  have hline : placed ∈ Placed.lines (Placed.ofLexemes 1 0 (Lexeme.scan text.toList)) := by
    rw [hscan, Placed.ofLexemes_append, Placed.ofLexemes_append, hplaced]
    refine Placed.mem_lines ?_ ?_ ?_
    · intro part hpart
      refine hbefore part.lexeme ?_
      rw [← Placed.lexemes_ofLexemes 1 0 before, List.getLast?_map]
      exact Option.mem_map_of_mem Placed.lexeme hpart
    · intro part hpart hkind
      have hmem := hlexemes ▸ List.mem_map_of_mem (f := Placed.lexeme) hpart
      have hnewline := List.mem_flatMap_of_mem hmem (Lexeme.newline_mem_of_kind hmem hkind)
      rw [Lexeme.flatMap_text_scan] at hnewline
      exact line.newline_not_mem hnewline
    · intro part hpart
      refine hafter part.lexeme ?_
      rw [← Placed.lexemes_ofLexemes _ _ after, List.head?_map]
      exact Option.mem_map_of_mem Placed.lexeme hpart
  have hopens : Stream.opensDirective placed := by
    rw [← hplaced, scan_text]
    rfl
  obtain ⟨count, hmem⟩ := Stream.exists_directiveOf 0 0 hline hopens
  refine ⟨_, hmem, ?_, ?_⟩
  · rw [← hplaced, scan_text]
    rfl
  · obtain ⟨blanks, hblanks, hwrite⟩ := @Directive.write_eq_textOf_append placed
      (hlexemes ▸ Lexeme.text_ne_nil line.text.toList)
    rw [hlexemes] at hwrite
    refine includeTarget?_iff ?_ hblanks
    rw [scan_text] at hwrite ⊢
    exact hwrite

end IncludeLine

end EventFlow.Source
