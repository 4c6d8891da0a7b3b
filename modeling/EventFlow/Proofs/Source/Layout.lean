import EventFlow.Proofs.Source.Scan
import EventFlow.Proofs.Text.Utf8
import EventFlow.Source.Token

namespace EventFlow.Source

-- What may stand between two tokens, given what stands behind it.
inductive Gap : List Char → List Char → Prop where
  | whitespace {c : Char} {behind : List Char} (hc : c = '\n' ∨ isBlank c) : Gap [c] behind
  | splice {behind : List Char} : Gap ['\\', '\n'] behind
  | wideSplice {behind : List Char} : Gap ['\\', '\r', '\n'] behind
  -- up to the end of the line
  | lineComment {inside behind : List Char} (hinside : '\n' ∉ inside)
      (hbehind : ∀ c ∈ behind.head?, c = '\n') : Gap ('/' :: '/' :: inside) behind
  | blockComment {inside behind : List Char} (hinside : ¬ ['*', '/'] <:+: inside) :
    Gap ('/' :: '*' :: (inside ++ ['*', '/'])) behind
  -- a comment that nothing closes takes the rest of the text
  | openComment {inside : List Char} (hinside : ¬ ['*', '/'] <:+: inside) :
    Gap ('/' :: '*' :: inside) []
  -- a control character, or one beyond ASCII
  | stray {c : Char} {behind : List Char} (hc : c.toNat < 0x20 ∨ 0x7F ≤ c.toNat) : Gap [c] behind

namespace Lexeme

variable {lexeme : Lexeme} {inside : Char → Bool} {taken behind : List Char}

-- A block comment is closed at the first opportunity, or never.
theorem blockComment_cases (rest : List Char) :
    (∃ inside behind, rest = inside ++ '*' :: '/' :: behind ∧ ¬ ['*', '/'] <:+: inside ∧
      blockCommentLength rest = inside.length + 2) ∨
    (¬ ['*', '/'] <:+: rest ∧ blockCommentLength rest = rest.length) := by
  fun_induction blockCommentLength rest with
  | case1 => exact .inr ⟨by simp, rfl⟩
  | case2 rest => exact .inl ⟨[], rest, rfl, by simp, rfl⟩
  | case3 c rest hclose ih =>
    have hnot : ∀ {more : List Char}, more <+: rest → ¬ ['*', '/'] <:+: more →
        ¬ ['*', '/'] <:+: c :: more := by
      rintro more ⟨behind, rfl⟩ hmore hinfix
      rcases List.infix_cons_iff.mp hinfix with ⟨tail, htail⟩ | hinfix
      · obtain ⟨rfl, rfl⟩ := List.cons.inj htail
        exact hclose _ rfl rfl
      · exact hmore hinfix
    rcases ih with ⟨inside, behind, rfl, hinside, hlength⟩ | ⟨hrest, hlength⟩
    · refine .inl ⟨c :: inside, behind, rfl, hnot (List.prefix_append _ _) hinside, ?_⟩
      rw [hlength, List.length_cons]
    · exact .inr ⟨hnot (List.prefix_refl rest) hrest, by rw [hlength, List.length_cons]⟩

-- The characters of a run, and the one behind it.
theorem run_of_length (h : runLength inside (taken ++ behind) = taken.length) :
    (∀ c ∈ taken, inside c) ∧ ∀ c ∈ behind.head?, ¬ inside c := by
  have hsplit := @List.takeWhile_append_dropWhile _ inside (taken ++ behind)
  obtain ⟨htaken, hbehind⟩ := List.append_inj hsplit h
  constructor
  · intro c hc
    rw [← htaken] at hc
    exact List.mem_takeWhile_imp hc
  · intro c hc
    have hhead := List.head?_dropWhile_not inside (taken ++ behind)
    rw [hbehind, hc] at hhead
    simpa using hhead

theorem eq_of_front_eq {c : Char} {rest : List Char} {kind other : Kind} {count : Nat}
    (h : front c rest = (kind, taken.length)) (hfront : front c rest = (other, count)) :
    kind = other ∧ taken.length = count :=
  Prod.mk.inj (h.symm.trans hfront)

theorem gap_of_lineComment {rest : List Char} (hall : taken ++ behind = '/' :: rest)
    (hlength : taken.length = runLength (fun d => d ≠ '\n') ('/' :: rest)) :
    Gap ('/' :: taken) behind := by
  rw [← hall] at hlength
  obtain ⟨hinside, hbehind⟩ := run_of_length hlength.symm
  cases taken with
  | nil =>
    obtain rfl : behind = '/' :: rest := hall
    exact absurd (by decide) (hbehind '/' rfl)
  | cons d inside =>
    obtain ⟨rfl, _⟩ := List.cons.inj hall
    refine .lineComment (fun hmem => ?_) fun c hc => by simpa using hbehind c hc
    simpa using hinside '\n' (List.mem_cons_of_mem _ hmem)

theorem gap_of_blockComment {rest : List Char} (hall : taken ++ behind = '*' :: rest)
    (hlength : taken.length = blockCommentLength rest + 1) : Gap ('/' :: taken) behind := by
  cases taken with
  | nil => cases hlength
  | cons d inside =>
    obtain ⟨rfl, rfl⟩ := List.cons.inj hall
    have hlength : blockCommentLength (inside ++ behind) = inside.length :=
      (Nat.succ.inj hlength).symm
    rcases blockComment_cases (inside ++ behind) with
      ⟨first, tail, hsplit, hfirst, htaken⟩ | ⟨hnone, htaken⟩
    · have hclosed : inside ++ behind = (first ++ ['*', '/']) ++ tail := by
        rw [hsplit, List.append_assoc, List.cons_append, List.cons_append, List.nil_append]
      have heq : inside.length = (first ++ ['*', '/']).length := by
        rw [← hlength, htaken, List.length_append, List.length_cons, List.length_singleton]
      obtain ⟨rfl, _⟩ := List.append_inj hclosed heq
      exact .blockComment hfirst
    · have hbehind : behind = [] := by
        rw [htaken, List.length_append] at hlength
        exact List.length_eq_zero_iff.mp (by omega)
      subst hbehind
      rw [List.append_nil] at hnone
      exact .openComment hnone

-- What is no word is a gap.
theorem EndsBefore.gap (h : lexeme.EndsBefore behind) (hword : lexeme.isWord = false) :
    Gap lexeme.text behind := by
  obtain ⟨c, taken, htext, hfront⟩ := h
  rw [htext]
  have hsingle : ∀ kind, front c (taken ++ behind) = (kind, 0) → taken = [] :=
    fun kind hkind => List.length_eq_zero_iff.mp (eq_of_front_eq hfront hkind).2
  have hkind : ∀ kind count, front c (taken ++ behind) = (kind, count) → lexeme.kind = kind :=
    fun kind count hkind => (eq_of_front_eq hfront hkind).1
  cases rule c with
  | newline hc =>
    subst hc
    rw [hsingle .newline rfl]
    exact .whitespace (.inl rfl)
  | blank hc h =>
    rw [hsingle .blank (h _)]
    exact .whitespace (.inr hc)
  | stray hc h =>
    rw [hsingle .stray (h _)]
    exact .stray hc
  | backslash hc =>
    subst hc
    generalize hall : taken ++ behind = all at hfront hkind
    cases backslash all with
    | splice rest =>
      obtain ⟨d, rfl⟩ := List.length_eq_one_iff.mp (eq_of_front_eq hfront rfl).2
      cases hall
      exact .splice
    | wideSplice rest =>
      obtain ⟨d, e, rfl⟩ := List.length_eq_two.mp (eq_of_front_eq hfront rfl).2
      cases hall
      exact .wideSplice
    | mark hline hwide h =>
      rw [isWord, hkind _ _ h] at hword
      cases hword
  | slash hc =>
    subst hc
    generalize hall : taken ++ behind = all at hfront hkind
    cases slash all with
    | line rest => exact gap_of_lineComment hall (eq_of_front_eq hfront rfl).2
    | block rest => exact gap_of_blockComment hall (eq_of_front_eq hfront rfl).2
    | mark hline hblock h =>
      rw [isWord, hkind _ _ h] at hword
      cases hword
  | string hc =>
    subst hc
    rw [isWord, hkind .string _ rfl] at hword
    cases hword
  | character hc =>
    subst hc
    rw [isWord, hkind .character _ rfl] at hword
    cases hword
  | identifier h =>
    rw [isWord, hkind _ _ (h _)] at hword
    cases hword
  | number h =>
    rw [isWord, hkind _ _ (h _)] at hword
    cases hword
  | punctuation h =>
    rw [isWord, hkind _ _ (h _)] at hword
    cases hword

end Lexeme

namespace Placed

theorem octets_eq (text : List Char) :
    octets text = (text.flatMap String.utf8EncodeChar).length := by
  induction text with
  | nil => rfl
  | cons c rest ih =>
    rw [List.flatMap_cons, List.length_append, String.length_utf8EncodeChar, ← ih]
    rfl

theorem octets_append (first second : List Char) :
    octets (first ++ second) = octets first + octets second := by
  simp only [octets_eq, List.flatMap_append, List.length_append]

theorem octets_toList (text : String) : octets text.toList = text.utf8ByteSize := by
  rw [octets_eq, ← Text.Utf8.encode_eq, Text.Utf8.length_encode]

theorem token?_of_not_isWord {placed : Placed} (directive : Option Nat)
    (h : placed.lexeme.isWord = false) : token? directive placed = none := by
  obtain ⟨⟨kind, text⟩, line, offset⟩ := placed
  cases kind with
  | newline | blank | splice | lineComment | blockComment | stray => rfl
  | identifier | number | string | character | punctuation => cases h

theorem token?_of_isWord {placed : Placed} (directive : Option Nat) (h : placed.lexeme.isWord)
    (hne : placed.lexeme.text ≠ []) : ∃ kind, token? directive placed =
      some ⟨kind, String.ofList placed.lexeme.text, placed.line, placed.offset, directive⟩ := by
  obtain ⟨⟨kind, text⟩, line, offset⟩ := placed
  obtain ⟨c, rest, rfl⟩ := List.exists_cons_of_ne_nil hne
  cases kind with
  | identifier | number | string | character | punctuation => exact ⟨_, rfl⟩
  | newline | blank | splice | lineComment | blockComment | stray => cases h

end Placed

open Placed

-- The number of the octet behind a token.
def Token.stop (token : Token) : Nat := token.offset + token.text.utf8ByteSize

-- From a line and an octet on, a text is made of tokens in their order and of gaps.
inductive Laid : Nat → Nat → List Char → List Token → Prop where
  | done {line offset : Nat} : Laid line offset [] []
  | gap {line offset : Nat} {gap behind : List Char} {tokens : List Token} (hgap : Gap gap behind)
      (h : Laid (line + gap.count '\n') (offset + octets gap) behind tokens) :
    Laid line offset (gap ++ behind) tokens
  | token {token : Token} {behind : List Char} {tokens : List Token} (hne : token.text ≠ "")
      (h : Laid (token.line + token.text.toList.count '\n') token.stop behind tokens) :
    Laid token.line token.offset (token.text.toList ++ behind) (token :: tokens)

-- Every text is laid out as the words that it is cut into.
theorem laid_scan (line offset : Nat) (text : List Char) :
    Laid line offset text ((ofLexemes line offset (Lexeme.scan text)).filterMap (token? none)) := by
  fun_induction Lexeme.scan text generalizing line offset with
  | case1 => exact .done
  | case2 c rest ih =>
    have hends := Lexeme.endsBefore_front c rest
    generalize hlexeme : (⟨(Lexeme.front c rest).1, c :: rest.take (Lexeme.front c rest).2⟩ :
      Lexeme) = lexeme at hends
    have htext : lexeme.text = c :: rest.take (Lexeme.front c rest).2 := by rw [← hlexeme]
    have hsplit : c :: rest = lexeme.text ++ rest.drop (Lexeme.front c rest).2 := by
      rw [htext, List.cons_append, List.take_append_drop]
    have hrest := ih (line + lexeme.text.count '\n') (offset + octets lexeme.text)
    rw [hsplit, ofLexemes]
    cases hword : lexeme.isWord with
    | false =>
      rw [List.filterMap_cons_none (token?_of_not_isWord none hword)]
      exact .gap (hends.gap hword) hrest
    | true =>
      have hne : lexeme.text ≠ [] := by rw [htext]; exact List.cons_ne_nil _ _
      obtain ⟨kind, htoken⟩ := @token?_of_isWord ⟨lexeme, line, offset⟩ none hword hne
      rw [List.filterMap_cons_some htoken]
      have hlaid := @Laid.token ⟨kind, String.ofList lexeme.text, line, offset, none⟩
        (rest.drop (Lexeme.front c rest).2) _ (by simpa using hne)
        (by rwa [Token.stop, ← octets_toList, String.toList_ofList])
      rwa [String.toList_ofList] at hlaid

namespace Laid

variable {line offset : Nat} {text : List Char} {tokens : List Token}

-- Which preprocessor line holds a token does not matter here.
theorem of_map (change : Token → Token) (htext : ∀ token, (change token).text = token.text)
    (hline : ∀ token, (change token).line = token.line)
    (hoffset : ∀ token, (change token).offset = token.offset)
    (h : Laid line offset text (tokens.map change)) : Laid line offset text tokens := by
  generalize hchanged : tokens.map change = changed at h
  induction h generalizing tokens with
  | done =>
    rw [List.map_eq_nil_iff.mp hchanged]
    exact .done
  | gap hgap _ ih => exact .gap hgap (ih hchanged)
  | token hne _ ih =>
    obtain ⟨token, rest, rfl, rfl, hrest⟩ := List.map_eq_cons_iff.mp hchanged
    have hlaid := ih hrest
    rw [Token.stop, htext, hline, hoffset] at hlaid
    rw [htext, hline, hoffset]
    rw [htext] at hne
    exact .token hne hlaid

theorem slice (h : Laid line offset text tokens) : ∀ token ∈ tokens, token.text ≠ "" ∧
    ∃ before behind, text = before ++ (token.text.toList ++ behind) ∧
      token.offset = offset + octets before ∧ token.line = line + before.count '\n' := by
  induction h with
  | done => exact fun token htoken => absurd htoken List.not_mem_nil
  | @gap line offset gap behind tokens hgap _ ih =>
    intro token htoken
    obtain ⟨hne, before, after, rfl, hoffset, hline⟩ := ih token htoken
    refine ⟨hne, gap ++ before, after, (List.append_assoc _ _ _).symm, ?_, ?_⟩
    · rw [hoffset, octets_append, Nat.add_assoc]
    · rw [hline, List.count_append, Nat.add_assoc]
  | @token first behind tokens hne _ ih =>
    intro token htoken
    rcases List.mem_cons.mp htoken with rfl | htoken
    · exact ⟨hne, [], behind, rfl, rfl, rfl⟩
    · obtain ⟨hne, before, after, rfl, hoffset, hline⟩ := ih token htoken
      refine ⟨hne, first.text.toList ++ before, after, (List.append_assoc _ _ _).symm, ?_, ?_⟩
      · rw [hoffset, octets_append, octets_toList, Token.stop, Nat.add_assoc]
      · rw [hline, List.count_append, Nat.add_assoc]

theorem le_offset (h : Laid line offset text tokens) {token : Token} (htoken : token ∈ tokens) :
    offset ≤ token.offset := by
  obtain ⟨_, before, _, _, hoffset, _⟩ := h.slice token htoken
  omega

theorem ascending (h : Laid line offset text tokens) :
    tokens.Pairwise (fun first second => first.stop ≤ second.offset) := by
  induction h with
  | done => exact .nil
  | gap _ _ ih => exact ih
  | token _ h ih => exact List.pairwise_cons.mpr ⟨fun other hother => h.le_offset hother, ih⟩

-- What stands between the octets `start` and `stop` is a gap that no token reaches into.
def HasGap (offset : Nat) (text : List Char) (tokens : List Token) (start stop : Nat) : Prop :=
  ∃ before gap behind, text = before ++ (gap ++ behind) ∧ Gap gap behind ∧
    start = offset + octets before ∧ stop = start + octets gap ∧
    ∀ token ∈ tokens, token.stop ≤ start ∨ stop ≤ token.offset

theorem HasGap.behind {front : List Char} {others : List Token} {start stop : Nat}
    (h : HasGap (offset + octets front) text tokens start stop)
    (hothers : ∀ token ∈ others, token.stop ≤ offset + octets front) :
    HasGap offset (front ++ text) (others ++ tokens) start stop := by
  obtain ⟨before, gap, behind, rfl, hgap, hstart, hstop, hapart⟩ := h
  refine ⟨front ++ before, gap, behind, (List.append_assoc _ _ _).symm, hgap, ?_, hstop, ?_⟩
  · rw [hstart, octets_append, Nat.add_assoc]
  · intro token htoken
    rcases List.mem_append.mp htoken with hother | htoken
    · have hle := hothers token hother
      omega
    · exact hapart token htoken

-- Each octet belongs to a token or to a gap.
theorem covered (h : Laid line offset text tokens) {place : Nat} (hplace : offset ≤ place)
    (hend : place < offset + octets text) :
    (∃ token ∈ tokens, token.offset ≤ place ∧ place < token.stop) ∨
      ∃ start stop, HasGap offset text tokens start stop ∧ start ≤ place ∧ place < stop := by
  induction h with
  | done => exact absurd hend (Nat.not_lt.mpr hplace)
  | @gap line offset gap behind tokens hgap h ih =>
    rw [octets_append] at hend
    by_cases hin : place < offset + octets gap
    · refine .inr ⟨offset, offset + octets gap, ⟨[], gap, behind, rfl, hgap, rfl, rfl, ?_⟩,
        hplace, hin⟩
      exact fun token htoken => .inr (h.le_offset htoken)
    · rcases ih (by omega) (by omega) with htoken | ⟨start, stop, hgap, hrange⟩
      · exact .inl htoken
      · have hnone : ∀ token ∈ ([] : List Token), token.stop ≤ offset + octets gap :=
          fun token htoken => absurd htoken List.not_mem_nil
        exact .inr ⟨start, stop, hgap.behind hnone, hrange⟩
  | @token first behind tokens hne h ih =>
    have hstop : first.stop = first.offset + octets first.text.toList := by
      rw [Token.stop, octets_toList]
    rw [octets_append] at hend
    by_cases hin : place < first.stop
    · exact .inl ⟨first, List.mem_cons_self, hplace, hin⟩
    · rcases ih (by omega) (by omega) with ⟨token, htoken, hrange⟩ | ⟨start, stop, hgap, hrange⟩
      · exact .inl ⟨token, List.mem_cons_of_mem _ htoken, hrange⟩
      · have hfirst : ∀ token ∈ [first], token.stop ≤ first.offset + octets first.text.toList := by
          intro token htoken
          rw [List.mem_singleton.mp htoken, hstop]
        rw [hstop] at hgap
        exact .inr ⟨start, stop, hgap.behind hfirst, hrange⟩

end Laid

end EventFlow.Source
