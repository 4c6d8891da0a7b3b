import EventFlow.Proofs.Source.Account
import EventFlow.Proofs.Source.Resumption

namespace EventFlow.Source

namespace Lexeme

variable {lexeme word : Lexeme} {lexemes gaps rest : List Lexeme} {behind : List Char}

-- The words of a line written out forwards. `spaced` says whether a space was written last.
def write (spaced : Bool) : List Lexeme → List Char
  | [] => []
  | lexeme :: rest =>
    if lexeme.isWord then lexeme.text ++ write (lexeme.text.getLast? = some ' ') rest
    else if lexeme.isSpace then (if spaced then [] else [' ']) ++ write true rest
    else write spaced rest

theorem writeBackwards_space (hword : lexeme.isWord = false) (hspace : lexeme.isSpace)
    (written : List Char) : Directive.writeBackwards written lexeme =
      if written.head? = some ' ' then written else ' ' :: written := by
  cases written with
  | nil => simp [Directive.writeBackwards, hword, hspace]
  | cons c rest =>
    by_cases hc : c = ' '
    · subst hc
      simp [Directive.writeBackwards, hword, hspace]
    · simp [Directive.writeBackwards, hword, hspace, hc]

theorem foldl_writeBackwards (h : ∀ lexeme ∈ lexemes, lexeme.text ≠ []) (written : List Char) :
    lexemes.foldl Directive.writeBackwards written =
      (write (written.head? = some ' ') lexemes).reverse ++ written := by
  induction lexemes generalizing written with
  | nil => rfl
  | cons lexeme rest ih =>
    obtain ⟨hne, hrest⟩ := List.forall_mem_cons.mp h
    rw [List.foldl_cons, ih hrest, write]
    cases hword : lexeme.isWord with
    | true =>
      obtain ⟨front, c, htext⟩ : ∃ front c, lexeme.text = front ++ [c] :=
        ⟨_, _, (List.dropLast_append_getLast hne).symm⟩
      simp [Directive.writeBackwards, hword, htext]
    | false =>
      cases hspace : lexeme.isSpace with
      | true =>
        rw [writeBackwards_space hword hspace]
        by_cases hhead : written.head? = some ' ' <;> simp [hhead]
      | false => simp [Directive.writeBackwards, hword, hspace]

end Lexeme

open Lexeme

namespace Directive

theorem dropBlankStart_eq (chars : List Char) : ∃ blanks, chars =
    blanks ++ Text.dropBlankStart chars ∧ ∀ c ∈ blanks, Text.isBlank c :=
  ⟨chars.takeWhile Text.isBlank, List.takeWhile_append_dropWhile.symm,
    fun _ hc => List.mem_takeWhile_imp hc⟩

theorem exists_of_afterKeyword? {keyword : String} {chars rest : List Char}
    (h : afterKeyword? keyword chars = some rest) : ∃ blanks,
      chars = '#' :: (blanks ++ (keyword.toList ++ rest)) ∧ ∀ c ∈ blanks, Text.isBlank c := by
  unfold afterKeyword? at h
  split at h
  · rename_i behind
    rw [List.isPrefixOf?_eq_some_iff_append_eq] at h
    obtain ⟨blanks, hbehind, hblanks⟩ := dropBlankStart_eq behind
    refine ⟨blanks, ?_, hblanks⟩
    rw [h, ← hbehind]
  · cases h

end Directive

-- The text of a line is what is written from its first word on, up to the blanks at the end.
theorem Directive.write_eq_textOf_append {line : List Placed}
    (h : ∀ lexeme ∈ line.map Placed.lexeme, lexeme.text ≠ []) :
    ∃ blanks, (∀ c ∈ blanks, Text.isBlank c) ∧
      write false ((line.map Placed.lexeme).dropWhile fun lexeme => !lexeme.isWord) =
        (textOf line).toList ++ blanks := by
  generalize hwords : (line.map Placed.lexeme).dropWhile (fun lexeme => !lexeme.isWord) = words
  have hne : ∀ lexeme ∈ words, lexeme.text ≠ [] := by
    intro lexeme hlexeme
    rw [← hwords] at hlexeme
    exact h lexeme (List.dropWhile_subset _ hlexeme)
  have hfold := foldl_writeBackwards hne []
  rw [List.append_nil] at hfold
  have htext : (textOf line).toList =
      ((write false words).reverse.dropWhile Text.isBlank).reverse := by
    rw [textOf, hwords, hfold, String.toList_ofList]
    rfl
  refine ⟨((write false words).reverse.takeWhile Text.isBlank).reverse, ?_, ?_⟩
  · intro c hc
    exact List.mem_takeWhile_imp (List.mem_reverse.mp hc)
  · rw [htext, ← List.reverse_append, List.takeWhile_append_dropWhile, List.reverse_reverse]

namespace Lexeme

variable {lexeme word : Lexeme} {lexemes gaps rest : List Lexeme} {behind : List Char}

-- Between two words at most one space is written.
theorem write_gaps (h : ∀ gap ∈ gaps, gap.isWord = false) (spaced : Bool) (rest : List Lexeme) :
    write spaced (gaps ++ rest) =
      (if !spaced && gaps.any isSpace then [' '] else []) ++
        write (spaced || gaps.any isSpace) rest := by
  induction gaps generalizing spaced with
  | nil => simp
  | cons gap gaps ih =>
    obtain ⟨hgap, hgaps⟩ := List.forall_mem_cons.mp h
    rw [List.cons_append, write, if_neg (by simp [hgap])]
    cases hspace : gap.isSpace with
    | true => cases spaced <;> simp [ih hgaps, hspace]
    | false => simp [ih hgaps, hspace]

-- The line up to its next word, or up to its end.
theorem exists_next (lexemes : List Lexeme) :
    (∀ lexeme ∈ lexemes, lexeme.isWord = false) ∨
    ∃ gaps word rest, lexemes = gaps ++ word :: rest ∧
      (∀ gap ∈ gaps, gap.isWord = false) ∧ word.isWord := by
  induction lexemes with
  | nil => exact .inl (by simp)
  | cons lexeme rest ih =>
    cases hword : lexeme.isWord with
    | true => exact .inr ⟨[], lexeme, rest, rfl, by simp, hword⟩
    | false =>
      rcases ih with hnone | ⟨gaps, word, behind, rfl, hgaps, hnext⟩
      · exact .inl (List.forall_mem_cons.mpr ⟨hword, hnone⟩)
      · exact .inr ⟨lexeme :: gaps, word, behind, rfl, List.forall_mem_cons.mpr ⟨hword, hgaps⟩,
          hnext⟩

-- The characters that are dropped without a trace.
def isStray (c : Char) : Bool :=
  (c.toNat < 0x20 || 0x7F ≤ c.toNat) && c != '\n' && !isBlank c

theorem isStray_of_printing {c : Char} (h : 0x21 ≤ c.toNat ∧ c.toNat ≤ 0x7E) :
    isStray c = false := by
  have hbetween : ¬ (c.toNat < 0x20 ∨ 0x7F ≤ c.toNat) := by omega
  simp [isStray, hbetween]

theorem printing_of_isPunctuation {c : Char} (h : isPunctuation c) :
    0x21 ≤ c.toNat ∧ c.toNat ≤ 0x7E := by
  simp only [isPunctuation, Bool.and_eq_true, decide_eq_true_eq] at h
  exact h.1

theorem printing_of_isDigit {c : Char} (h : c.isDigit) : 0x21 ≤ c.toNat ∧ c.toNat ≤ 0x7E :=
  printing_of_isIdentifierPart (by simp [isIdentifierPart, Char.isAlphanum, h])

-- Which kinds of lexeme a character can begin, and how many characters more are taken then.
inductive Begins : Char → Kind → Nat → Prop where
  | newline : Begins '\n' .newline 0
  | blank {c : Char} (h : isBlank c) : Begins c .blank 0
  | splice {count : Nat} : Begins '\\' .splice count
  | lineComment {count : Nat} : Begins '/' .lineComment count
  | blockComment {count : Nat} : Begins '/' .blockComment count
  | string {count : Nat} : Begins '"' .string count
  | character {count : Nat} : Begins '\'' .character count
  | identifier {c : Char} {count : Nat} (h : isIdentifierStart c) : Begins c .identifier count
  | number {c : Char} {count : Nat} (h : c.isDigit) : Begins c .number count
  | punctuation {c : Char} (h : isPunctuation c) (hpart : isIdentifierPart c = false) :
    Begins c .punctuation 0
  | stray {c : Char} (h : isStray c) : Begins c .stray 0

theorem begins_front (c : Char) (rest : List Char) :
    Begins c (front c rest).1 (front c rest).2 := by
  cases rule c with
  | newline hc =>
    subst hc
    exact .newline
  | blank hc h =>
    rw [h]
    exact .blank hc
  | backslash hc =>
    subst hc
    cases backslash rest with
    | splice _ | wideSplice _ => exact .splice
    | mark _ _ h =>
      rw [h]
      exact .punctuation (by decide) (by decide)
  | slash hc =>
    subst hc
    cases slash rest with
    | line _ => exact .lineComment
    | block _ => exact .blockComment
    | mark _ _ h =>
      rw [h]
      exact .punctuation (by decide) (by decide)
  | string hc =>
    subst hc
    exact .string
  | character hc =>
    subst hc
    exact .character
  | identifier h hc =>
    rw [h]
    exact .identifier hc
  | number h hc =>
    rw [h]
    exact .number hc
  | punctuation h hc =>
    have hstart : ¬ isIdentifierStart c := by
      intro hstart
      have hfront := (h rest).symm.trans (front_of_isIdentifierStart hstart rest)
      cases hfront
    have hletter : c.isAlphanum = false := by
      simp only [isPunctuation, Bool.and_eq_true, Bool.not_eq_true'] at hc
      exact hc.2
    rw [h]
    refine .punctuation hc ?_
    simp only [isIdentifierStart, Bool.or_eq_true, not_or] at hstart
    simp [isIdentifierPart, hletter, hstart.2]
  | stray hc h =>
    have hline : c ≠ '\n' := by
      rintro rfl
      cases h []
    have hblank : isBlank c = false := by
      by_contra hblank
      have hfront := h []
      unfold front at hfront
      rw [if_neg hline, if_pos (Bool.not_eq_false _ ▸ hblank)] at hfront
      cases hfront
    rw [h]
    exact .stray (by simp [isStray, hc, hline, hblank])

theorem EndsBefore.begins {c : Char} {taken : List Char} (h : lexeme.EndsBefore behind)
    (htext : lexeme.text = c :: taken) : Begins c lexeme.kind taken.length := by
  obtain ⟨d, more, hmore, hfront⟩ := h
  obtain ⟨rfl, rfl⟩ := List.cons.inj (htext.symm.trans hmore)
  have hbegins := begins_front c (taken ++ behind)
  rwa [hfront] at hbegins

namespace Begins

variable {c : Char} {kind : Kind} {count : Nat}

theorem printing (h : Begins c kind count) {text : List Char} (hword : isWord ⟨kind, text⟩) :
    0x21 ≤ c.toNat ∧ c.toNat ≤ 0x7E := by
  cases h with
  | newline | blank _ | splice | lineComment | blockComment | stray _ => cases hword
  | string | character => decide
  | identifier h => exact printing_of_isIdentifierPart (isIdentifierPart_of_start h)
  | number h => exact printing_of_isDigit h
  | punctuation h _ => exact printing_of_isPunctuation h

theorem stray_iff (h : Begins c kind count) : kind = .stray ↔ isStray c := by
  cases h with
  | newline | splice | lineComment | blockComment | string | character => decide
  | blank h => simp [isStray, h]
  | identifier h =>
    simp [isStray_of_printing (printing_of_isIdentifierPart (isIdentifierPart_of_start h))]
  | number h => simp [isStray_of_printing (printing_of_isDigit h)]
  | punctuation h _ => simp [isStray_of_printing (printing_of_isPunctuation h)]
  | stray h => simp [h]

theorem identifier_or_number_iff (h : Begins c kind count) :
    kind = .identifier ∨ kind = .number ↔ isIdentifierPart c := by
  cases h with
  | newline | splice | lineComment | blockComment | string | character => decide
  | identifier h => simp [isIdentifierPart_of_start h]
  | number h => simp [isIdentifierPart, Char.isAlphanum, h]
  | punctuation _ hpart => simp [hpart]
  | blank h =>
    simp only [isBlank, Bool.or_eq_true, beq_iff_eq] at h
    rcases h with (((rfl | rfl) | rfl) | rfl) | rfl <;> decide
  | stray h =>
    refine iff_of_false (by simp) fun hpart => ?_
    rw [isStray_of_printing (printing_of_isIdentifierPart hpart)] at h
    cases h

end Begins

theorem EndsBefore.printing (h : lexeme.EndsBefore behind) (hword : lexeme.isWord) :
    ∃ c taken, lexeme.text = c :: taken ∧ 0x21 ≤ c.toNat ∧ c.toNat ≤ 0x7E := by
  obtain ⟨c, taken, htext, -⟩ := id h
  exact ⟨c, taken, htext, (h.begins htext).printing hword⟩

-- A stray is one character.
theorem EndsBefore.text_of_stray (h : lexeme.EndsBefore behind) (hkind : lexeme.kind = .stray) :
    ∃ c, lexeme.text = [c] ∧ isStray c := by
  obtain ⟨c, taken, htext, -⟩ := id h
  have hbegins := h.begins htext
  have hstray := hbegins.stray_iff.mp hkind
  rw [hkind] at hbegins
  generalize hcount : taken.length = count at hbegins
  cases hbegins
  exact ⟨c, by rw [htext, List.length_eq_zero_iff.mp hcount], hstray⟩

-- A letter or `_` begins a word that goes on as far as it can.
theorem EndsBefore.identifier {c : Char} {taken : List Char} (h : lexeme.EndsBefore behind)
    (htext : lexeme.text = c :: taken) (hc : isIdentifierStart c) :
    lexeme.kind = .identifier ∧ (∀ d ∈ taken, isIdentifierPart d) ∧
      ∀ d ∈ behind.head?, ¬ isIdentifierPart d := by
  obtain ⟨d, more, hmore, hfront⟩ := h
  obtain ⟨rfl, rfl⟩ := List.cons.inj (htext.symm.trans hmore)
  obtain ⟨hkind, hlength⟩ := eq_of_front_eq hfront (front_of_isIdentifierStart hc _)
  exact ⟨hkind, run_of_length hlength.symm⟩

-- What is written of a line begins with its next word, after at most one space.
theorem exists_next_of_write {spaced : Bool} {blanks tail : List Char} {c : Char}
    (hwords : ∀ word ∈ lexemes, word.isWord → ∃ d taken, word.text = d :: taken ∧
      Text.isBlank d = false)
    (hwrite : write spaced lexemes = blanks ++ c :: tail) (hblanks : ∀ d ∈ blanks, Text.isBlank d)
    (hc : Text.isBlank c = false) :
    ∃ gaps word rest, lexemes = gaps ++ word :: rest ∧ (∀ gap ∈ gaps, gap.isWord = false) ∧
      word.isWord ∧ (blanks ≠ [] ↔ spaced = false ∧ gaps.any isSpace) ∧
      word.text ++ write (word.text.getLast? = some ' ') rest = c :: tail := by
  rcases exists_next lexemes with hnone | ⟨gaps, word, rest, rfl, hgaps, hword⟩
  · have hall := write_gaps hnone spaced []
    rw [List.append_nil, hwrite, write, List.append_nil] at hall
    split at hall
    · have hmem : c ∈ [' '] := hall ▸ List.mem_append_right blanks List.mem_cons_self
      rw [List.mem_singleton.mp hmem] at hc
      cases hc
    · simp at hall
  · obtain ⟨d, taken, htext, hd⟩ := hwords word (by simp) hword
    rw [write_gaps hgaps, write, if_pos hword, htext, List.cons_append] at hwrite
    refine ⟨gaps, word, rest, rfl, hgaps, hword, ?_⟩
    rw [htext, List.cons_append]
    split at hwrite
    · rename_i hspace
      rw [Bool.and_eq_true, Bool.not_eq_true'] at hspace
      cases blanks with
      | nil =>
        obtain ⟨rfl, -⟩ := List.cons.inj hwrite
        cases hc
      | cons e blanks =>
        obtain ⟨-, hrest⟩ := List.cons.inj hwrite
        cases blanks with
        | nil => exact ⟨by simpa using hspace, hrest⟩
        | cons e blanks =>
          obtain ⟨rfl, -⟩ := List.cons.inj hrest
          simp [hd] at hblanks
    · rename_i hspace
      rw [Bool.and_eq_true, Bool.not_eq_true'] at hspace
      cases blanks with
      | nil => exact ⟨by simpa using hspace, hwrite⟩
      | cons e blanks =>
        obtain ⟨rfl, -⟩ := List.cons.inj hwrite
        simp [hd] at hblanks

end Lexeme

namespace Placed

variable {placed line : List Placed} {lexemes gaps rest : List Lexeme} {word : Lexeme}

theorem exists_first_line (placed : List Placed) : ∃ first others below,
    lines placed = first :: others ∧ placed = first ++ below ∧
      ∀ part ∈ first, part.lexeme.kind ≠ .newline := by
  induction placed with
  | nil => exact ⟨[], [], [], rfl, rfl, by simp⟩
  | cons head tail ih =>
    obtain ⟨first, others, below, hlines, rfl, hfirst⟩ := ih
    rw [lines]
    split
    · exact ⟨[], _, head :: (first ++ below), rfl, rfl, by simp⟩
    · rename_i hhead
      exact ⟨head :: first, others, below, by rw [hlines]; rfl, rfl,
        List.forall_mem_cons.mpr ⟨hhead, hfirst⟩⟩

-- The lines are pieces of the text, cut out between line ends.
theorem exists_of_mem_lines (h : line ∈ lines placed) :
    ∃ above below, placed = above ++ (line ++ below) ∧
      ∀ part ∈ line, part.lexeme.kind ≠ .newline := by
  induction placed generalizing line with
  | nil =>
    obtain rfl := List.mem_singleton.mp h
    exact ⟨[], [], rfl, by simp⟩
  | cons head tail ih =>
    rw [lines] at h
    split at h
    · rcases List.mem_cons.mp h with rfl | h
      · exact ⟨[], head :: tail, rfl, by simp⟩
      · obtain ⟨above, below, rfl, hline⟩ := ih h
        exact ⟨head :: above, below, rfl, hline⟩
    · rename_i hhead
      obtain ⟨first, others, below, hlines, htail, hfirst⟩ := exists_first_line tail
      rw [hlines, List.modifyHead_cons] at h
      rcases List.mem_cons.mp h with rfl | h
      · exact ⟨[], below, by rw [htail]; rfl, List.forall_mem_cons.mpr ⟨hhead, hfirst⟩⟩
      · obtain ⟨above, below, htail, hline⟩ := ih (hlines ▸ List.mem_cons_of_mem _ h)
        exact ⟨head :: above, below, by rw [htail]; rfl, hline⟩

theorem lexemes_ofLexemes (line offset : Nat) (lexemes : List Lexeme) :
    (ofLexemes line offset lexemes).map Placed.lexeme = lexemes := by
  induction lexemes generalizing line offset with
  | nil => rfl
  | cons lexeme rest ih => rw [ofLexemes, List.map_cons, ih]

-- What is placed in a row was placed one behind the other.
theorem exists_of_ofLexemes_eq_append {line offset : Nat} {first second : List Placed}
    (h : ofLexemes line offset lexemes = first ++ second) :
    ∃ front back, lexemes = front ++ back ∧ first = ofLexemes line offset front ∧
      second = ofLexemes (line + (front.flatMap Lexeme.text).count '\n')
        (offset + octets (front.flatMap Lexeme.text)) back := by
  have hsplit := congrArg (List.map Placed.lexeme) h
  rw [lexemes_ofLexemes, List.map_append] at hsplit
  rw [hsplit, ofLexemes_append] at h
  have hlength : (ofLexemes line offset (first.map Placed.lexeme)).length = first.length := by
    rw [← List.length_map Placed.lexeme, lexemes_ofLexemes, List.length_map]
  obtain ⟨hfirst, hsecond⟩ := List.append_inj h hlength
  exact ⟨_, _, hsplit, hfirst.symm, hsecond.symm⟩

theorem kind?_iff {placed : Placed} {kind : Token.Kind} (h : kind? placed = some kind) :
    (kind = .identifier ↔ placed.lexeme.kind = .identifier) ∧
    (kind = .number ↔ placed.lexeme.kind = .number) ∧
    ∀ c, kind = .punctuation c ↔
      placed.lexeme.kind = .punctuation ∧ placed.lexeme.text.head? = some c := by
  obtain ⟨⟨lexemeKind, text⟩, line, offset⟩ := placed
  cases lexemeKind with
  | newline | blank | splice | lineComment | blockComment | stray => cases h
  | identifier | number | string | character =>
    obtain rfl := Option.some.inj h
    simp
  | punctuation =>
    obtain ⟨c, hc, rfl⟩ := Option.map_eq_some_iff.mp h
    have hhead : text.head? = some c := hc
    simp [hhead]

theorem tokens_eq_nil (h : ∀ lexeme ∈ lexemes, lexeme.isWord = false) (line offset : Nat)
    (directive : Option Nat) :
    (ofLexemes line offset lexemes).filterMap (token? directive) = [] := by
  rw [List.filterMap_eq_nil_iff]
  intro part hpart
  have hmem := List.mem_map_of_mem (f := Placed.lexeme) hpart
  rw [lexemes_ofLexemes] at hmem
  exact token?_of_not_isWord directive (h _ hmem)

-- The first token of a line is its next word.
theorem tokens_next (hgaps : ∀ gap ∈ gaps, gap.isWord = false) (hword : word.isWord)
    (hne : word.text ≠ []) (line offset : Nat) (directive : Option Nat) :
    ∃ token behind, (ofLexemes line offset (gaps ++ word :: rest)).filterMap (token? directive) =
        token :: (ofLexemes behind token.stop rest).filterMap (token? directive) ∧
      kind? ⟨word, 0, 0⟩ = some token.kind ∧ token.text = String.ofList word.text ∧
      token.offset = offset + octets (gaps.flatMap Lexeme.text) := by
  rw [ofLexemes_append, List.filterMap_append, tokens_eq_nil hgaps, List.nil_append, ofLexemes]
  generalize line + (gaps.flatMap Lexeme.text).count '\n' = start
  generalize offset + octets (gaps.flatMap Lexeme.text) = place
  obtain ⟨kind, htoken⟩ := @token?_of_isWord ⟨word, start, place⟩ directive hword hne
  obtain ⟨other, hother, heq⟩ := Option.map_eq_some_iff.mp htoken
  obtain rfl : other = kind := congrArg Token.kind heq
  refine ⟨⟨other, String.ofList word.text, start, place, directive⟩, start + word.text.count '\n',
    ?_, hother, rfl, rfl⟩
  rw [List.filterMap_cons_some htoken, Token.stop, ← octets_toList, String.toList_ofList]

end Placed

namespace Stream

-- What is left of a line behind so many octets of a text.
structure LineBehind (text : String) (stop : Nat) (rest : List Lexeme) : Prop where
  scan_eq : ∃ above below, Lexeme.scan text.toList = above ++ (rest ++ below) ∧
    stop = Placed.octets (above.flatMap Lexeme.text)
  not_newline : ∀ lexeme ∈ rest, lexeme.kind ≠ .newline

-- How a preprocessor line stands in a text. `rest` is the line behind its `#`.
structure Stands (text : String) (directive : Directive) (hash : Token) (rest : List Lexeme) :
    Prop where
  mark : hash.isPunctuation '#'
  lineBehind : LineBehind text hash.stop rest
  within_eq : ∃ line number, (ofText text).within directive =
    hash :: (Placed.ofLexemes line hash.stop rest).filterMap (Placed.token? number)
  written_eq : ∃ blanks, (∀ c ∈ blanks, Text.isBlank c) ∧
    '#' :: write false rest = directive.text.toList ++ blanks

-- The `#` of a preprocessor line is a lexeme of its own.
theorem exists_hash {lexemes : List Lexeme} {line offset : Nat}
    (hends : ∀ before lexeme after, lexemes = before ++ lexeme :: after →
      ∃ behind, lexeme.EndsBefore behind)
    (hopens : opensDirective (Placed.ofLexemes line offset lexemes)) :
    ∃ gaps rest, lexemes = gaps ++ ⟨.punctuation, ['#']⟩ :: rest ∧
      ∀ gap ∈ gaps, gap.isWord = false := by
  unfold opensDirective at hopens
  rcases exists_next lexemes with hnone | ⟨gaps, word, rest, rfl, hgaps, hword⟩
  · rw [Placed.tokens_eq_nil hnone] at hopens
    cases hopens
  · obtain ⟨behind, hword_ends⟩ := hends gaps word rest rfl
    obtain ⟨c, taken, htext, -⟩ := hword_ends.printing hword
    have hne : word.text ≠ [] := by rw [htext]; exact List.cons_ne_nil c taken
    obtain ⟨token, next, htokens, hkind, -⟩ := Placed.tokens_next hgaps hword hne line offset none
    rw [htokens] at hopens
    obtain ⟨hmark, hhead⟩ := ((Placed.kind?_iff hkind).2.2 '#').mp (of_decide_eq_true hopens)
    obtain rfl : c = '#' := by simpa [htext] using hhead
    obtain ⟨d, more, hmore, hfront⟩ := hword_ends
    obtain ⟨rfl, rfl⟩ := List.cons.inj (htext.symm.trans hmore)
    have hnone := List.length_eq_zero_iff.mp (eq_of_front_eq hfront rfl).2
    refine ⟨gaps, rest, ?_, hgaps⟩
    obtain ⟨kind, text⟩ := word
    simp_all

theorem exists_stands {text : String} {directive : Directive}
    (h : directive ∈ (ofText text).directives) : ∃ hash rest, Stands text directive hash rest := by
  obtain ⟨number, hnumber⟩ := List.mem_iff_getElem?.mp h
  obtain ⟨line, hline, hopens, htext, before, behind, hholds⟩ := exists_line 0 0 _ hnumber
  rw [Nat.zero_add] at hholds
  obtain ⟨above, below, hplaced, hnewline⟩ := Placed.exists_of_mem_lines hline
  obtain ⟨front, back, hscan, -, hrest⟩ := Placed.exists_of_ofLexemes_eq_append hplaced
  obtain ⟨lexemes, below, rfl, rfl, -⟩ := Placed.exists_of_ofLexemes_eq_append hrest.symm
  have hends (before : List Lexeme) (lexeme : Lexeme) (after : List Lexeme)
      (heq : lexemes = before ++ lexeme :: after) : ∃ behind, lexeme.EndsBefore behind := by
    have hall : Lexeme.scan text.toList = front ++ before ++ lexeme :: (after ++ below) := by
      rw [hscan, heq]
      simp
    exact ⟨_, Lexeme.endsBefore_of_scan hall⟩
  obtain ⟨gaps, rest, rfl, hgaps⟩ := exists_hash hends hopens
  have hlexemes := Placed.lexemes_ofLexemes (1 + (front.flatMap Lexeme.text).count '\n')
    (0 + Placed.octets (front.flatMap Lexeme.text)) (gaps ++ ⟨.punctuation, ['#']⟩ :: rest)
  obtain ⟨hash, next, htokens, hkind, hhash, hoffset⟩ := @Placed.tokens_next gaps rest
    ⟨.punctuation, ['#']⟩ hgaps rfl (List.cons_ne_nil _ _)
    (1 + (front.flatMap Lexeme.text).count '\n') (0 + Placed.octets (front.flatMap Lexeme.text))
    (some number)
  refine ⟨hash, rest, decide_eq_true (Option.some.inj hkind).symm,
    ⟨⟨front ++ gaps ++ [⟨.punctuation, ['#']⟩], below, by simp [hscan], ?_⟩, ?_⟩,
    ⟨next, some number, hholds.within_eq.trans htokens⟩, ?_⟩
  · rw [Token.stop, hoffset, hhash, ← Placed.octets_toList, String.toList_ofList, Nat.zero_add,
      List.flatMap_append, List.flatMap_append, Placed.octets_append, Placed.octets_append]
    rfl
  · intro lexeme hlexeme
    have hmem : lexeme ∈ gaps ++ ⟨.punctuation, ['#']⟩ :: rest := by simp [hlexeme]
    rw [← hlexemes] at hmem
    obtain ⟨part, hpart, rfl⟩ := List.mem_map.mp hmem
    exact hnewline part hpart
  · have hne : ∀ lexeme ∈ gaps ++ ⟨.punctuation, ['#']⟩ :: rest, lexeme.text ≠ [] := by
      intro lexeme hlexeme
      obtain ⟨before, after, heq⟩ := List.append_of_mem hlexeme
      obtain ⟨behind, c, taken, htext, -⟩ := hends before lexeme after heq
      rw [htext]
      exact List.cons_ne_nil c taken
    rw [← hlexemes] at hne
    obtain ⟨blanks, hblanks, hwrite⟩ := Directive.write_eq_textOf_append hne
    have hdrop : (gaps ++ ⟨.punctuation, ['#']⟩ :: rest).dropWhile (fun lexeme => !lexeme.isWord) =
        ⟨.punctuation, ['#']⟩ :: rest := by
      rw [List.dropWhile_append_of_pos fun gap hgap => by simp [hgaps gap hgap]]
      rfl
    rw [hlexemes, hdrop, ← htext] at hwrite
    exact ⟨blanks, hblanks, hwrite⟩

end Stream

-- Between the two tokens stand strays and nothing else.
def StraysBetween (text : String) (first second : Token) : Prop :=
  ∃ before strays behind : String, text = before ++ strays ++ behind ∧ strays ≠ "" ∧
    (∀ c ∈ strays.toList, Lexeme.isStray c) ∧ first.stop = before.utf8ByteSize ∧
    second.offset = (before ++ strays).utf8ByteSize

theorem Placed.octets_eq_zero_iff {chars : List Char} : octets chars = 0 ↔ chars = [] := by
  constructor
  · intro h
    cases chars with
    | nil => rfl
    | cons c rest =>
      have hsize := c.utf8Size_pos
      simp only [octets, List.foldr_cons] at h
      omega
  · rintro rfl
    rfl

-- A text is cut at an octet in one way.
theorem Placed.eq_of_octets_eq {first second front back : List Char}
    (h : first ++ front = second ++ back) (hoctets : octets first = octets second) :
    first = second ∧ front = back := by
  rcases List.append_eq_append_iff.mp h with ⟨more, rfl, rfl⟩ | ⟨more, rfl, rfl⟩
  · rw [octets_append] at hoctets
    simp [octets_eq_zero_iff.mp (show octets more = 0 by omega)]
  · rw [octets_append] at hoctets
    simp [octets_eq_zero_iff.mp (show octets more = 0 by omega)]

-- What stands between two words of a line.
structure Lexeme.Gaps (gaps : List Lexeme) : Prop where
  not_word : ∀ gap ∈ gaps, gap.isWord = false
  not_newline : ∀ gap ∈ gaps, gap.kind ≠ .newline
  ends : ∀ gap ∈ gaps, ∃ behind, gap.EndsBefore behind

theorem Lexeme.Gaps.stray_iff {gaps : List Lexeme} (h : Gaps gaps) :
    (∀ c ∈ gaps.flatMap Lexeme.text, isStray c) ↔ gaps.any isSpace = false := by
  have hkind : ∀ gap ∈ gaps, gap.isSpace = false ↔ gap.kind = .stray := by
    intro gap hgap
    have hword := h.not_word gap hgap
    have hline := h.not_newline gap hgap
    obtain ⟨kind, text⟩ := gap
    cases kind with
    | newline => exact absurd rfl hline
    | identifier | number | string | character | punctuation => cases hword
    | stray => exact iff_of_true rfl rfl
    | blank | splice | lineComment | blockComment => simp [isSpace]
  simp only [List.mem_flatMap, List.any_eq_false, Bool.not_eq_true]
  constructor
  · intro hall gap hgap
    obtain ⟨behind, hends⟩ := h.ends gap hgap
    refine (hkind gap hgap).mpr ?_
    obtain ⟨c, taken, htext, -⟩ := id hends
    have hmem : c ∈ gap.text := by simp [htext]
    exact (hends.begins htext).stray_iff.mpr (hall c ⟨gap, hgap, hmem⟩)
  · rintro hnone c ⟨gap, hgap, hc⟩
    obtain ⟨behind, hends⟩ := h.ends gap hgap
    obtain ⟨d, htext, hstray⟩ := hends.text_of_stray ((hkind gap hgap).mp (hnone gap hgap))
    rw [htext, List.mem_singleton] at hc
    rwa [hc]

theorem Lexeme.Gaps.flatMap_eq_nil_iff {gaps : List Lexeme} (h : Gaps gaps) :
    gaps.flatMap Lexeme.text = [] ↔ gaps = [] := by
  constructor
  · intro hnone
    by_contra hne
    obtain ⟨gap, rest, rfl⟩ := List.exists_cons_of_ne_nil hne
    obtain ⟨behind, c, taken, htext, -⟩ := h.ends gap (by simp)
    simp [htext] at hnone
  · rintro rfl
    rfl

theorem straysBetween_iff {text : String} {front tail : List Char} {gaps : List Lexeme}
    {first second : Token} (h : Lexeme.Gaps gaps)
    (htext : text.toList = front ++ (gaps.flatMap Lexeme.text ++ tail))
    (hstop : first.stop = Placed.octets front)
    (hoffset : second.offset = first.stop + Placed.octets (gaps.flatMap Lexeme.text)) :
    StraysBetween text first second ↔ gaps ≠ [] ∧ gaps.any Lexeme.isSpace = false := by
  rw [← h.stray_iff]
  constructor
  · rintro ⟨before, strays, behind, rfl, hne, hstrays, hfirst, hsecond⟩
    rw [String.toList_append, String.toList_append, List.append_assoc] at htext
    rw [String.utf8ByteSize_append] at hsecond
    have hbefore : Placed.octets before.toList = Placed.octets front := by
      rw [Placed.octets_toList, ← hfirst, hstop]
    obtain ⟨-, hrest⟩ := Placed.eq_of_octets_eq htext hbefore
    have hgap : Placed.octets strays.toList = Placed.octets (gaps.flatMap Lexeme.text) := by
      rw [Placed.octets_toList]
      omega
    obtain ⟨heq, -⟩ := Placed.eq_of_octets_eq hrest hgap
    rw [ne_eq, ← h.flatMap_eq_nil_iff, ← heq]
    exact ⟨fun hnone => hne (String.toList_eq_nil_iff.mp hnone), hstrays⟩
  · rintro ⟨hne, hstrays⟩
    have hsize (chars : List Char) : (String.ofList chars).utf8ByteSize = Placed.octets chars := by
      rw [← Placed.octets_toList, String.toList_ofList]
    refine ⟨String.ofList front, String.ofList (gaps.flatMap Lexeme.text), String.ofList tail,
      String.ext ?_, ?_, ?_, ?_, ?_⟩
    · simp [htext]
    · simpa [← h.flatMap_eq_nil_iff] using hne
    · rwa [String.toList_ofList]
    · rw [hsize, hstop]
    · rw [String.utf8ByteSize_append, hsize, hsize, hoffset, hstop]

-- One step along a line, to the next word of it and its token.
structure Next (text : String) (stop : Nat) (gaps : List Lexeme) (word : Lexeme)
    (rest : List Lexeme) (token : Token) : Prop where
  parts : Lexeme.Gaps gaps
  ends : ∃ below, word.EndsBefore ((rest ++ below).flatMap Lexeme.text)
  kind_eq : Placed.kind? ⟨word, 0, 0⟩ = some token.kind
  text_eq : token.text.toList = word.text
  lineBehind : Stream.LineBehind text token.stop rest
  touches_iff : token.offset = stop ↔ gaps = []
  straysBetween_iff : ∀ first : Token, first.stop = stop →
    (StraysBetween text first token ↔ gaps ≠ [] ∧ gaps.any Lexeme.isSpace = false)

theorem Stream.LineBehind.next {text : String} {stop : Nat} {gaps rest : List Lexeme}
    {word : Lexeme} (h : LineBehind text stop (gaps ++ word :: rest))
    (hgaps : ∀ gap ∈ gaps, gap.isWord = false) (hword : word.isWord) (line : Nat)
    (number : Option Nat) : ∃ token line',
      (Placed.ofLexemes line stop (gaps ++ word :: rest)).filterMap (Placed.token? number) =
        token :: (Placed.ofLexemes line' token.stop rest).filterMap (Placed.token? number) ∧
      Next text stop gaps word rest token := by
  obtain ⟨above, below, hscan, hstop⟩ := h.scan_eq
  have hall : Lexeme.scan text.toList = above ++ gaps ++ word :: (rest ++ below) := by
    rw [hscan]
    simp
  have hends := Lexeme.endsBefore_of_scan hall
  have hparts : Gaps gaps :=
    { not_word := hgaps
      not_newline := fun gap hgap => h.not_newline gap (by simp [hgap])
      ends := by
        intro gap hgap
        obtain ⟨before, after, rfl⟩ := List.append_of_mem hgap
        have hpart : Lexeme.scan text.toList =
            above ++ before ++ gap :: (after ++ word :: (rest ++ below)) := by
          rw [hscan]
          simp
        exact ⟨_, Lexeme.endsBefore_of_scan hpart⟩ }
  obtain ⟨c, taken, htext, -⟩ := id hends
  have hne : word.text ≠ [] := by rw [htext]; exact List.cons_ne_nil c taken
  obtain ⟨token, line', htokens, hkind, htoken, hoffset⟩ :=
    @Placed.tokens_next gaps rest word hgaps hword hne line stop number
  have htokenText : token.text.toList = word.text := by rw [htoken, String.toList_ofList]
  refine ⟨token, line', htokens, hparts, ⟨below, hends⟩, hkind, htokenText,
    ⟨⟨above ++ gaps ++ [word], below, by simp [hall], ?_⟩, ?_⟩, ?_, ?_⟩
  · simp only [Token.stop, hoffset, ← Placed.octets_toList, htokenText, hstop, List.flatMap_append,
      Placed.octets_append, List.flatMap_singleton]
  · exact fun lexeme hlexeme => h.not_newline lexeme (by simp [hlexeme])
  · rw [← hparts.flatMap_eq_nil_iff, ← Placed.octets_eq_zero_iff, hoffset]
    omega
  · intro first hfirst
    have htextAll : text.toList = above.flatMap Lexeme.text ++ (gaps.flatMap Lexeme.text ++
        (word :: (rest ++ below)).flatMap Lexeme.text) := by
      rw [← Lexeme.flatMap_text_scan text.toList, hall]
      simp
    exact EventFlow.Source.straysBetween_iff hparts htextAll (hfirst.trans hstop) (hfirst ▸ hoffset)

-- The words of a line begin with characters that print.
theorem Stream.LineBehind.words {text : String} {stop : Nat} {rest : List Lexeme}
    (h : LineBehind text stop rest) : ∀ word ∈ rest, word.isWord → ∃ d taken,
      word.text = d :: taken ∧ Text.isBlank d = false := by
  intro word hmem hword
  obtain ⟨above, below, hscan, -⟩ := h.scan_eq
  obtain ⟨before, after, rfl⟩ := List.append_of_mem hmem
  have hall : Lexeme.scan text.toList = above ++ before ++ word :: (after ++ below) := by
    rw [hscan]
    simp
  obtain ⟨d, taken, htext, hprinting⟩ := (Lexeme.endsBefore_of_scan hall).printing hword
  exact ⟨d, taken, htext, isBlank_of_printing hprinting⟩

end EventFlow.Source
