import EventFlow.Proofs.Callable
import EventFlow.Proofs.Source.Writing

namespace EventFlow

namespace Source

namespace Directive

variable {name text : String} {more : List Char}

theorem exists_of_definedName? (h : definedName? text = some (name, more)) : ∃ blanks spaces,
    text.toList = '#' :: (blanks ++ ("define".toList ++ (spaces ++ (name.toList ++ more)))) ∧
      (∀ c ∈ blanks, Text.isBlank c) ∧ spaces ≠ [] ∧ (∀ c ∈ spaces, Text.isBlank c) ∧
      isIdentifier name ∧ ∀ c ∈ more.head?, ¬ isIdentifierPart c := by
  obtain ⟨rest, hkeyword, h⟩ := Option.bind_eq_some_iff.mp h
  obtain ⟨blanks, htext, hblanks⟩ := exists_of_afterKeyword? hkeyword
  obtain ⟨spaces, hrest, hspaces⟩ := dropBlankStart_eq rest
  cases rest with
  | nil => cases h
  | cons blank behind =>
    dsimp only at h
    split at h
    · rename_i hblank
      split at h
      · cases h
      · rename_i c tail htail
        split at h
        · rename_i hstart
          obtain ⟨rfl, rfl⟩ := Prod.mk.inj (Option.some.inj h)
          rw [htail] at hrest
          refine ⟨blanks, spaces, ?_, hblanks, ?_, hspaces, ?_, ?_⟩
          · have hname : (String.ofList (c :: tail.takeWhile isIdentifierPart)).toList ++
                tail.dropWhile isIdentifierPart = c :: tail := by
              rw [String.toList_ofList, List.cons_append, List.takeWhile_append_dropWhile]
            rw [htext, hrest, hname]
          · rintro rfl
            obtain ⟨rfl, -⟩ := List.cons.inj hrest
            simp [isBlank_of_isIdentifierPart (isIdentifierPart_of_start hstart)] at hblank
          · have hall : (tail.takeWhile isIdentifierPart).all isIdentifierPart :=
              List.all_eq_true.mpr fun d hd => List.mem_takeWhile_imp hd
            rw [isIdentifier, String.toList_ofList]
            simp only [hstart, hall, Bool.and_self]
          · intro d hd
            have hhead := List.head?_dropWhile_not isIdentifierPart tail
            rw [Option.mem_def.mp hd] at hhead
            simpa using hhead
        · cases h
    · cases h

theorem exists_of_definition? {directive : Directive} {definition : Definition}
    (h : directive.definition? = some definition) : ∃ more,
      definedName? directive.text = some (definition.name, more) ∧
      (definition.takesArguments ↔ more.head? = some '(') := by
  obtain ⟨⟨name, more⟩, hname, rfl⟩ := Option.map_eq_some_iff.mp h
  refine ⟨more, ?_⟩
  dsimp only
  split
  · exact ⟨hname, by simp⟩
  · rename_i hnot
    refine ⟨hname, iff_of_false Bool.false_ne_true fun hhead => ?_⟩
    obtain ⟨body, rfl⟩ := List.head?_eq_some_iff.mp hhead
    exact hnot body rfl

end Directive

namespace Lexeme

variable {word : Lexeme} {gaps rest lexemes : List Lexeme} {run more written behind : List Char}

-- A name that is written out is begun by one identifier. What that leaves of it comes from
-- behind.
theorem EndsBefore.exists_left (h : word.EndsBefore behind) (hword : word.isWord)
    (hrun : ∃ c tail, run = c :: tail ∧ isIdentifierStart c ∧ ∀ d ∈ tail, isIdentifierPart d)
    (hmore : ∀ d ∈ more.head?, ¬ isIdentifierPart d) (hwrite : word.text ++ written = run ++ more) :
    word.kind = .identifier ∧ word.text.getLast? ≠ some ' ' ∧
      (∀ d ∈ behind.head?, ¬ isIdentifierPart d) ∧
      ∃ left, run = word.text ++ left ∧ written = left ++ more := by
  obtain ⟨c, tail, rfl, hstart, htail⟩ := hrun
  obtain ⟨d, taken, htext, -⟩ := h.printing hword
  obtain ⟨rfl, hrest⟩ : d = c ∧ taken ++ written = tail ++ more := by
    simpa [htext] using hwrite
  obtain ⟨hkind, htaken, hbehind⟩ := h.identifier htext hstart
  refine ⟨hkind, ?_, hbehind, ?_⟩
  · intro hlast
    have hmem := List.mem_of_getLast? hlast
    rw [htext] at hmem
    rcases List.mem_cons.mp hmem with heq | hmem
    · subst heq
      cases hstart
    · cases htaken _ hmem
  · rcases List.append_eq_append_iff.mp hrest with ⟨left, rfl, rfl⟩ | ⟨left, rfl, rfl⟩
    · exact ⟨left, by rw [htext]; rfl, rfl⟩
    · cases left with
      | nil => exact ⟨[], by simp [htext], by simp⟩
      | cons e left => exact absurd (htaken e (by simp)) (hmore e rfl)

end Lexeme

section Names

variable {text : String} {first : Token} {rest : List Lexeme} {chars : List Char}

-- A name that is written out next, after blanks. Its token may hold the front of it only.
theorem Stream.LineBehind.exists_named {stop : Nat} {blanks run more : List Char}
    (h : LineBehind text stop rest) (hwrite : Lexeme.write false rest = blanks ++ (run ++ more))
    (hblanks : ∀ d ∈ blanks, Text.isBlank d)
    (hrun : ∃ c tail, run = c :: tail ∧ isIdentifierStart c ∧ ∀ d ∈ tail, isIdentifierPart d)
    (hmore : ∀ d ∈ more.head?, ¬ isIdentifierPart d) (line : Nat) (number : Option Nat) :
    ∃ token line' behind left,
      (Placed.ofLexemes line stop rest).filterMap (Placed.token? number) =
        token :: (Placed.ofLexemes line' token.stop behind).filterMap (Placed.token? number) ∧
      token.isIdentifier ∧ LineBehind text token.stop behind ∧
      (∃ below, ∀ d ∈ ((behind ++ below).flatMap Lexeme.text).head?, ¬ isIdentifierPart d) ∧
      run = token.text.toList ++ left ∧ Lexeme.write false behind = left ++ more ∧
      (blanks ≠ [] → ∀ first : Token, first.stop = stop → ¬ StraysBetween text first token) := by
  obtain ⟨c, tail, hc, hstart, -⟩ := id hrun
  have hblank := isBlank_of_isIdentifierPart (isIdentifierPart_of_start hstart)
  rw [hc, List.cons_append] at hwrite
  obtain ⟨gaps, word, behind, rfl, hgaps, hword, hspace, hnext⟩ :=
    Lexeme.exists_next_of_write h.words hwrite hblanks hblank
  rw [← List.cons_append, ← hc] at hnext
  obtain ⟨token, line', htokens, hstep⟩ := h.next hgaps hword line number
  obtain ⟨below, hends⟩ := hstep.ends
  obtain ⟨hkind, hlast, hbehind, left, hleft, hrest⟩ := hends.exists_left hword hrun hmore hnext
  rw [decide_eq_false hlast] at hrest
  refine ⟨token, line', behind, left, htokens, ?_, hstep.lineBehind, ⟨below, hbehind⟩, ?_, hrest, ?_⟩
  · exact decide_eq_true ((Placed.kind?_iff hstep.kind_eq).1.mpr hkind)
  · rw [hstep.text_eq, hleft]
  · intro hne first hfirst hstrays
    have hnone := ((hstep.straysBetween_iff first hfirst).mp hstrays).2
    rw [(hspace.mp hne).2] at hnone
    cases hnone

-- What goes on with a name that was written before is a word of its own, behind strays.
theorem Stream.LineBehind.exists_glued (h : LineBehind text first.stop rest) {c : Char}
    (hwrite : Lexeme.write false rest = c :: chars) (hc : isIdentifierPart c)
    (hmunch : ∃ below, ∀ d ∈ ((rest ++ below).flatMap Lexeme.text).head?, ¬ isIdentifierPart d)
    (line : Nat) (number : Option Nat) : ∃ next tokens,
      (Placed.ofLexemes line first.stop rest).filterMap (Placed.token? number) = next :: tokens ∧
      StraysBetween text first next ∧ (next.isIdentifier ∨ next.kind = .number) := by
  have hblank := isBlank_of_isIdentifierPart hc
  obtain ⟨gaps, word, more, rfl, hgaps, hword, hspace, hnext⟩ :=
    @Lexeme.exists_next_of_write rest false [] chars c h.words hwrite (by simp) hblank
  obtain ⟨next, line', htokens, hstep⟩ := h.next hgaps hword line number
  obtain ⟨d, taken, htext, -⟩ := h.words word (by simp) hword
  obtain ⟨rfl, -⟩ : d = c ∧ _ := by simpa [htext] using hnext
  refine ⟨next, _, htokens, ?_, ?_⟩
  · refine (hstep.straysBetween_iff first rfl).mpr ⟨?_, by simpa using hspace⟩
    rintro rfl
    obtain ⟨below, hmunch⟩ := hmunch
    exact hmunch d (by simp [htext]) hc
  · obtain ⟨below, hends⟩ := hstep.ends
    obtain ⟨hidentifier, hnumber, -⟩ := Placed.kind?_iff hstep.kind_eq
    rw [Token.isIdentifier, decide_eq_true_eq, hidentifier, hnumber]
    exact (hends.begins htext).identifier_or_number_iff.mpr hc

-- A parenthesis right behind a name is written so. Only with strays between them it looks the
-- same.
theorem Stream.LineBehind.opens_iff (h : LineBehind text first.stop rest)
    (hchars : ∀ d ∈ (Lexeme.write false rest).head?, ¬ isIdentifierPart d) (line : Nat)
    (number : Option Nat) {tokens : List Token}
    (htokens : (Placed.ofLexemes line first.stop rest).filterMap (Placed.token? number) = tokens) :
    ((Lexeme.write false rest).head? = some '(' ↔
      ∃ opening ∈ tokens.head?, opening.isPunctuation '(' ∧ opening.offset = first.stop) ↔
    ¬ ∃ next ∈ tokens.head?, StraysBetween text first next ∧
      (next.isIdentifier ∨ next.kind = .number ∨ next.isPunctuation '(') := by
  rcases Lexeme.exists_next rest with hnone | ⟨gaps, word, more, rfl, hgaps, hword⟩
  · have hwrite := Lexeme.write_gaps hnone false []
    rw [List.append_nil, Lexeme.write, List.append_nil] at hwrite
    rw [Placed.tokens_eq_nil hnone] at htokens
    subst htokens
    rw [hwrite]
    split <;> simp
  · obtain ⟨next, line', hnext, hstep⟩ := h.next hgaps hword line number
    obtain ⟨below, hends⟩ := hstep.ends
    obtain ⟨d, taken, htext, hd⟩ := h.words word (by simp) hword
    obtain ⟨hidentifier, hnumber, hmark⟩ := Placed.kind?_iff hstep.kind_eq
    rw [hnext] at htokens
    subst htokens
    simp only [List.head?_cons, Option.mem_some_iff, exists_eq_left', hstep.touches_iff,
      hstep.straysBetween_iff first rfl]
    rw [Lexeme.write_gaps hgaps, Lexeme.write, if_pos hword, htext] at hchars ⊢
    cases hspace : gaps.any Lexeme.isSpace with
    | true =>
      have hne : gaps ≠ [] := by
        rintro rfl
        cases hspace
      simp [hne]
    | false =>
      have hpart : ¬ isIdentifierPart d := hchars d (by simp [hspace])
      have hname : ¬ (next.isIdentifier ∨ next.kind = .number) := by
        rw [Token.isIdentifier, decide_eq_true_eq, hidentifier, hnumber]
        exact fun hkind => hpart ((hends.begins htext).identifier_or_number_iff.mp hkind)
      have hopening : next.isPunctuation '(' ↔ d = '(' := by
        rw [Token.isPunctuation, decide_eq_true_eq, hmark, htext, List.head?_cons,
          Option.some_inj]
        refine ⟨And.right, ?_⟩
        rintro rfl
        obtain ⟨e, more, hmore, hfront⟩ := hends
        obtain ⟨rfl, rfl⟩ := List.cons.inj (htext.symm.trans hmore)
        exact ⟨(Lexeme.eq_of_front_eq hfront rfl).1, rfl⟩
      rw [← or_assoc, or_iff_right hname, hopening]
      simp only [Bool.not_false, Bool.true_and, Bool.false_eq_true, if_false,
        List.nil_append, List.cons_append, List.head?_cons, Option.some_inj, and_true, not_and,
        ne_eq]
      by_cases hround : d = '(' <;> simp [hround]

end Names

end Source

namespace Callable

open Source

-- A macro is what the tokens of its line say: `#`, `define` and the name come first, and all the
-- tokens behind the name are its parameters and what it stands for.
def Agrees (within : List Token) (definition : Definition) : Prop :=
  ∃ hash keyword named behind, within = hash :: keyword :: named :: behind ∧
    hash.isPunctuation '#' ∧ keyword.isWord "define" ∧ named.isWord definition.name ∧
    definition.kind = (if ∃ opening ∈ behind.head?,
      opening.isPunctuation '(' ∧ opening.offset = named.stop then .functionMacro
      else .objectMacro) ∧
    behind = within.filter (fun token => named.stop ≤ token.offset) ∧
    ∀ event, event ∈ definition.emits ↔ Event.NamedIn behind event

-- Strays cut up `define` or the name, or part the name from a parenthesis.
def Blurred (text : String) (within : List Token) : Prop :=
  ∃ hash keyword named behind, within = hash :: keyword :: named :: behind ∧
    (StraysBetween text keyword named ∨ ∃ next ∈ behind.head?, StraysBetween text named next ∧
      (next.isIdentifier ∨ next.kind = .number ∨ next.isPunctuation '('))

-- Behind the name stand the tokens that come after it.
theorem behind_eq_filter {hash keyword named : Token} {behind : List Token}
    (hascending : (hash :: keyword :: named :: behind).Pairwise
      fun first second => first.stop ≤ second.offset)
    (hne : ∀ token ∈ hash :: keyword :: named :: behind, token.offset < token.stop) :
    behind = (hash :: keyword :: named :: behind).filter
      (fun token => named.stop ≤ token.offset) := by
  simp only [List.pairwise_cons, List.mem_cons, forall_eq_or_imp] at hascending hne
  obtain ⟨⟨hkeyword, hnamed, -⟩, ⟨hnext, -⟩, hbehind, -⟩ := hascending
  obtain ⟨hhash, hstop, hlast, -⟩ := hne
  have hall : behind.filter (fun token => named.stop ≤ token.offset) = behind :=
    List.filter_eq_self.mpr fun token htoken => decide_eq_true (hbehind token htoken)
  rw [List.filter_cons_of_neg (by simpa using by omega),
    List.filter_cons_of_neg (by simpa using by omega),
    List.filter_cons_of_neg (by simpa using hlast), hall]

theorem isWord_iff {token : Token} {word : String} :
    token.isWord word ↔ token.isIdentifier ∧ token.text = word := by
  simp [Token.isWord]

-- With `#`, `define` and the name in front, only the parenthesis is left to be compared.
theorem agrees_iff_of_named {text : String} {definition : Definition} {takesArguments : Bool}
    {hash keyword named : Token} {behind : List Token} (hmark : hash.isPunctuation '#')
    (hkeyword : keyword.isWord "define") (hnamed : named.isWord definition.name)
    (hkind : definition.kind = if takesArguments then .functionMacro else .objectMacro)
    (hbehind : behind = (hash :: keyword :: named :: behind).filter
      fun token => named.stop ≤ token.offset)
    (hemits : ∀ event, event ∈ definition.emits ↔ Event.NamedIn behind event)
    (happart : ¬ StraysBetween text keyword named)
    (hopens : (takesArguments ↔ ∃ opening ∈ behind.head?,
        opening.isPunctuation '(' ∧ opening.offset = named.stop) ↔
      ¬ ∃ next ∈ behind.head?, StraysBetween text named next ∧
        (next.isIdentifier ∨ next.kind = .number ∨ next.isPunctuation '(')) :
    Agrees (hash :: keyword :: named :: behind) definition ↔
      ¬ Blurred text (hash :: keyword :: named :: behind) := by
  constructor
  · rintro ⟨_, _, _, _, heq, -, -, -, hsame, -⟩ ⟨_, _, _, _, hother, hstrays⟩
    simp only [List.cons.injEq] at heq hother
    obtain ⟨rfl, rfl, rfl, rfl⟩ := heq
    obtain ⟨rfl, rfl, rfl, rfl⟩ := hother
    rcases hstrays with hstrays | hnext
    · exact happart hstrays
    · refine hopens.mp ?_ hnext
      rw [hkind] at hsame
      split at hsame
      · rename_i htakes
        split at hsame
        · rename_i hopening
          exact iff_of_true htakes hopening
        · cases hsame
      · rename_i htakes
        split at hsame
        · cases hsame
        · rename_i hopening
          exact iff_of_false htakes hopening
  · intro hclear
    have hround := hopens.mpr fun hnext => hclear ⟨hash, keyword, named, behind, rfl, .inr hnext⟩
    exact ⟨hash, keyword, named, behind, rfl, hmark, hkeyword, hnamed,
      hkind.trans (if_congr hround rfl rfl), hbehind, hemits⟩

theorem agrees_iff {text : String} {directive : Directive} {definition : Definition}
    (hdirective : directive ∈ (Stream.ofText text).directives)
    (h : macroOf? (Stream.ofText text) directive = some definition) :
    Agrees ((Stream.ofText text).within directive) definition ↔
      ¬ Blurred text ((Stream.ofText text).within directive) := by
  obtain ⟨written, hwritten, rfl⟩ := Option.map_eq_some_iff.mp h
  obtain ⟨more, hname, htakes⟩ := Directive.exists_of_definition? hwritten
  obtain ⟨blanks, spaces, htext, hblanks, hne, hspaces, hident, hmore⟩ :=
    Directive.exists_of_definedName? hname
  obtain ⟨hash, rest, hstands⟩ := Stream.exists_stands hdirective
  obtain ⟨line, number, hwithin⟩ := hstands.within_eq
  obtain ⟨ends, hends, hwrite⟩ := hstands.written_eq
  rw [htext, List.cons_append, List.cons.injEq] at hwrite
  simp only [List.append_assoc, true_and] at hwrite
  have hblank {d : Char} (hd : Text.isBlank d) : ¬ isIdentifierPart d := fun hpart => by
    simp [isBlank_of_isIdentifierPart hpart] at hd
  have hdefine : ∃ c tail, "define".toList = c :: tail ∧ isIdentifierStart c ∧
      ∀ d ∈ tail, isIdentifierPart d :=
    ⟨'d', "efine".toList, rfl, by decide, List.all_eq_true.mp rfl⟩
  have hspace : ∀ d ∈ (spaces ++ (written.name.toList ++ (more ++ ends))).head?,
      ¬ isIdentifierPart d := by
    intro d hd
    rw [List.head?_append_of_ne_nil _ hne] at hd
    exact hblank (hspaces d (List.mem_of_mem_head? hd))
  have hover : ∀ d ∈ (more ++ ends).head?, ¬ isIdentifierPart d := by
    intro d hd
    rw [List.head?_append, Option.mem_def, Option.or_eq_some_iff] at hd
    rcases hd with hd | ⟨-, hd⟩
    · exact hmore d hd
    · exact hblank (hends d (List.mem_of_mem_head? hd))
  obtain ⟨keyword, line, rest, left, hkeyword, hword, hbehind, hmunch, hleft, hwrite, -⟩ :=
    hstands.lineBehind.exists_named hwrite hblanks hdefine hspace line number
  rw [hwithin, hkeyword]
  cases left with
  | cons c left =>
    -- the rest of `define` is a word of its own
    have hall : ∀ d ∈ "define".toList, isIdentifierPart d := List.all_eq_true.mp rfl
    have hc : isIdentifierPart c := hall c (by rw [hleft]; simp)
    obtain ⟨next, tokens, hnext, hstrays, -⟩ := hbehind.exists_glued hwrite hc hmunch line number
    rw [hnext]
    refine iff_of_false ?_ (not_not.mpr ⟨hash, keyword, next, tokens, rfl, .inl hstrays⟩)
    rintro ⟨_, _, _, _, heq, -, hkeyword, -⟩
    obtain ⟨-, heq⟩ := List.cons.inj heq
    obtain ⟨rfl, -⟩ := List.cons.inj heq
    rw [(isWord_iff.mp hkeyword).2, List.self_eq_append_right] at hleft
    cases hleft
  | nil =>
    rw [List.append_nil] at hleft
    rw [List.nil_append] at hwrite
    obtain ⟨c, tail, hchars, hstart, htail⟩ := exists_chars_of_isIdentifier hident
    obtain ⟨named, line, rest, left, hnamed, hidentifier, hbehind, hmunch, hpart, hwrite, happart⟩ :=
      hbehind.exists_named hwrite hspaces ⟨c, tail, hchars, hstart, htail⟩ hover line number
    rw [hnamed]
    cases left with
    | cons d left =>
      -- the rest of the name is a word of its own
      have hd : isIdentifierPart d := isIdentifierPart_of_mem hident (by rw [hpart]; simp)
      obtain ⟨next, tokens, hnext, hstrays, hkind⟩ :=
        hbehind.exists_glued hwrite hd hmunch line number
      rw [hnext]
      refine iff_of_false ?_ (not_not.mpr ⟨hash, keyword, named, next :: tokens, rfl,
        .inr ⟨next, rfl, hstrays, or_assoc.mp (.inl hkind)⟩⟩)
      rintro ⟨_, _, _, _, heq, -, -, hname, -⟩
      obtain ⟨-, heq⟩ := List.cons.inj heq
      obtain ⟨-, heq⟩ := List.cons.inj heq
      obtain ⟨rfl, -⟩ := List.cons.inj heq
      rw [(isWord_iff.mp hname).2, List.self_eq_append_right] at hpart
      cases hpart
    | nil =>
      rw [List.append_nil, String.toList_inj] at hpart
      rw [List.nil_append] at hwrite
      have hround : written.takesArguments ↔ (Lexeme.write false rest).head? = some '(' := by
        rw [htakes, hwrite, List.head?_append]
        cases hhead : more.head? with
        | some e => simp
        | none =>
          refine iff_of_false nofun fun hblank => ?_
          cases hends '(' (List.mem_of_mem_head? hblank)
      have hopens := hbehind.opens_iff (hwrite ▸ hover) line number rfl
      rw [← hround] at hopens
      have hsublist : (hash :: keyword :: named ::
          (Placed.ofLexemes line named.stop rest).filterMap (Placed.token? number)).Sublist
            (Stream.ofText text).tokens := by
        rw [← hnamed, ← hkeyword, ← hwithin]
        exact (List.drop_sublist _ _).trans (List.take_sublist _ _)
      have hsize : ∀ token ∈ hash :: keyword :: named ::
          (Placed.ofLexemes line named.stop rest).filterMap (Placed.token? number),
          token.offset < token.stop := by
        intro token htoken
        obtain ⟨hfull, -⟩ := Stream.slice_ofText (hsublist.subset htoken)
        have hoctets : token.text.utf8ByteSize ≠ 0 := by
          rw [← Placed.octets_toList]
          simpa [Placed.octets_eq_zero_iff] using hfull
        rw [Token.stop]
        omega
      exact agrees_iff_of_named hstands.mark
        (isWord_iff.mpr ⟨hword, String.toList_inj.mp hleft.symm⟩)
        (isWord_iff.mpr ⟨hidentifier, hpart.symm⟩) rfl
        (behind_eq_filter ((Stream.laid_ofText text).ascending.sublist hsublist) hsize)
        (fun _ => Event.mem_createdIn)
        (happart hne keyword rfl) hopens

def callText : String := "#define SEND() new_a_event\n"

theorem agrees_iff_call : ∃ directive definition,
    directive ∈ (Stream.ofText callText).directives ∧
    macroOf? (Stream.ofText callText) directive = some definition ∧
    Agrees ((Stream.ofText callText).within directive) definition ∧
    ¬ Blurred callText ((Stream.ofText callText).within directive) := by
  have hdirective : (⟨"#define SEND() new_a_event", 1, 0, 6⟩ : Directive) ∈
      (Stream.ofText callText).directives := by decide +kernel
  have hmacro : macroOf? (Stream.ofText callText) ⟨"#define SEND() new_a_event", 1, 0, 6⟩ =
      some ⟨"SEND", .functionMacro, NameSet.ofList ["a_event"], 1⟩ := by decide +kernel
  have hwithin : (Stream.ofText callText).within ⟨"#define SEND() new_a_event", 1, 0, 6⟩ =
      [⟨.punctuation '#', "#", 1, 0, some 0⟩, ⟨.identifier, "define", 1, 1, some 0⟩,
       ⟨.identifier, "SEND", 1, 8, some 0⟩, ⟨.punctuation '(', "(", 1, 12, some 0⟩,
       ⟨.punctuation ')', ")", 1, 13, some 0⟩, ⟨.identifier, "new_a_event", 1, 15, some 0⟩] := by
    decide +kernel
  have hemits : Event.createdIn [⟨.punctuation '(', "(", 1, 12, some 0⟩,
      ⟨.punctuation ')', ")", 1, 13, some 0⟩, ⟨.identifier, "new_a_event", 1, 15, some 0⟩] =
      NameSet.ofList ["a_event"] := by decide +kernel
  have hagrees : Agrees ((Stream.ofText callText).within ⟨"#define SEND() new_a_event", 1, 0, 6⟩)
      ⟨"SEND", .functionMacro, NameSet.ofList ["a_event"], 1⟩ :=
    ⟨_, _, _, _, hwithin, by decide, by decide, by decide, by decide +kernel,
      by rw [hwithin]; decide +kernel, fun _ => hemits ▸ Event.mem_createdIn⟩
  exact ⟨_, _, hdirective, hmacro, hagrees, (agrees_iff hdirective hmacro).mp hagrees⟩

-- A name with a character beyond ASCII inside is written as one, but cut up into two tokens.
def strayText : String := "#define FO\u00e9O new_x_event()\n"

theorem not_agrees_stray : ¬ ∀ (text : String) (directive : Directive) (definition : Definition),
    directive ∈ (Stream.ofText text).directives →
    macroOf? (Stream.ofText text) directive = some definition →
    Agrees ((Stream.ofText text).within directive) definition := by
  intro h
  have hagrees := h strayText ⟨"#define FOO new_x_event()", 1, 0, 7⟩
    ⟨"FOO", .objectMacro, NameSet.ofList ["x_event"], 1⟩ (by decide +kernel) (by decide +kernel)
  obtain ⟨hash, keyword, named, behind, hwithin, -, -, hname, -⟩ := hagrees
  have hthird : ((Stream.ofText strayText).within ⟨"#define FOO new_x_event()", 1, 0, 7⟩)[2]?.map
      Token.text = some "FO" := by decide +kernel
  rw [hwithin] at hthird
  have htext : named.text = "FO" := Option.some.inj hthird
  rw [(isWord_iff.mp hname).2] at htext
  exact absurd htext (by decide)

end Callable

end EventFlow
