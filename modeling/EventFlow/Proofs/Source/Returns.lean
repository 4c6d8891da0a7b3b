import EventFlow.Proofs.Source.Layout
import EventFlow.Proofs.Source.Piece
import EventFlow.Proofs.Source.Spacing

namespace EventFlow.Source

-- The text with a carriage return in front of every line end.
def withReturns (text : List Char) : List Char :=
  text.flatMap fun c => if c = '\n' then ['\r', '\n'] else [c]

section WithReturns

variable {c : Char} {text rest : List Char}

theorem withReturns_newline (rest : List Char) :
    withReturns ('\n' :: rest) = '\r' :: '\n' :: withReturns rest := rfl

theorem withReturns_cons (h : c ≠ '\n') (rest : List Char) :
    withReturns (c :: rest) = c :: withReturns rest := by
  rw [withReturns, List.flatMap_cons, if_neg h]
  rfl

theorem withReturns_append (first second : List Char) :
    withReturns (first ++ second) = withReturns first ++ withReturns second :=
  List.flatMap_append

theorem withReturns_of_not_mem (h : '\n' ∉ text) : withReturns text = text := by
  induction text with
  | nil => rfl
  | cons c rest ih =>
    rw [List.mem_cons, not_or] at h
    rw [withReturns_cons (Ne.symm h.1), ih h.2]

theorem count_withReturns (text : List Char) :
    (withReturns text).count '\n' = text.count '\n' := by
  induction text with
  | nil => rfl
  | cons c rest ih =>
    by_cases hc : c = '\n'
    · subst hc
      rw [withReturns_newline, List.count_cons_of_ne (by decide), List.count_cons_self,
        List.count_cons_self, ih]
    · rw [withReturns_cons hc, List.count_cons_of_ne hc, List.count_cons_of_ne hc, ih]

-- A text begins as before, or with a return where it began with a line end.
theorem head?_withReturns (rest : List Char) :
    (withReturns rest).head? = rest.head? ∨
      rest.head? = some '\n' ∧ (withReturns rest).head? = some '\r' := by
  cases rest with
  | nil => exact .inl rfl
  | cons c rest =>
    by_cases hc : c = '\n'
    · subst hc
      exact .inr ⟨rfl, rfl⟩
    · rw [withReturns_cons hc]
      exact .inl rfl

-- The end of a comment does not come about by returns.
theorem closing_infix_withReturns (h : ¬ ['*', '/'] <:+: text) :
    ¬ ['*', '/'] <:+: withReturns text := by
  induction text with
  | nil => exact h
  | cons c rest ih =>
    rw [List.infix_cons_iff, not_or] at h
    have hrest := ih h.2
    by_cases hc : c = '\n'
    · subst hc
      have hline : ¬ ['*', '/'] <+: '\r' :: '\n' :: withReturns rest := by
        simp [List.cons_prefix_cons]
      have hend : ¬ ['*', '/'] <+: '\n' :: withReturns rest := by
        simp [List.cons_prefix_cons]
      rw [withReturns_newline, List.infix_cons_iff, List.infix_cons_iff]
      rintro (hfirst | hsecond | hinfix)
      · exact hline hfirst
      · exact hend hsecond
      · exact hrest hinfix
    · rw [withReturns_cons hc, List.infix_cons_iff]
      rintro (hbegins | hinfix)
      · obtain ⟨rfl, hslash⟩ := List.cons_prefix_cons.mp hbegins
        apply h.1
        rw [List.cons_prefix_cons]
        refine ⟨rfl, ?_⟩
        cases rest with
        | nil => exact hslash
        | cons d rest =>
          by_cases hd : d = '\n'
          · subst hd
            simp [withReturns_newline, List.cons_prefix_cons] at hslash
          · rw [withReturns_cons hd, List.cons_prefix_cons] at hslash
            rw [List.cons_prefix_cons]
            exact ⟨hslash.1, List.nil_prefix⟩
      · exact hrest hinfix

end WithReturns

namespace Lexeme

variable {lexeme : Lexeme} {c : Char} {taken behind : List Char}

-- A literal is closed on the line it begins on.
def Unbroken (lexeme : Lexeme) : Prop :=
  lexeme.kind = .string ∨ lexeme.kind = .character →
    lexeme.isOpen = false ∧ '\n' ∉ lexeme.text

instance (lexeme : Lexeme) : Decidable lexeme.Unbroken := inferInstanceAs (Decidable (_ → _))

def carriageReturn : Lexeme := ⟨.blank, ['\r']⟩

-- Two cuttings with the same words on the same lines, but for a return in front of a line end.
-- Whatever keeps words apart may differ.
inductive Alike : List Lexeme → List Lexeme → Prop where
  | done : Alike [] []
  | keep {first second : Lexeme} {rest others : List Lexeme}
      (hevened : first.evened = second.evened)
      (hcount : first.text.count '\n' = second.text.count '\n')
      (h : Alike rest others) : Alike (first :: rest) (second :: others)
  | lineEnd {rest others : List Lexeme} (h : Alike rest others) :
    Alike (⟨.newline, ['\n']⟩ :: rest) (carriageReturn :: ⟨.newline, ['\n']⟩ :: others)

theorem Alike.of_lineEnd {rest others : List Lexeme}
    (h : Alike (⟨.newline, ['\n']⟩ :: rest) (carriageReturn :: ⟨.newline, ['\n']⟩ :: others)) :
    Alike rest others := by
  cases h with
  | keep hevened => cases hevened
  | lineEnd h => exact h

theorem scan_returns (rest : List Char) :
    scan ('\r' :: '\n' :: rest) = carriageReturn :: ⟨.newline, ['\n']⟩ :: scan rest := by
  have hreturn : carriageReturn.EndsBefore ('\n' :: rest) := ⟨'\r', [], rfl, rfl⟩
  rw [← scan_newline]
  exact hreturn.scan_eq

theorem EndsBefore.front_eq {kind : Kind} (h : EndsBefore ⟨kind, c :: taken⟩ behind) :
    front c (taken ++ behind) = (kind, taken.length) := by
  obtain ⟨_, _, htext, hfront⟩ := h
  obtain ⟨rfl, rfl⟩ := List.cons.inj htext
  exact hfront

-- A return behind a backslash or a slash gives it no other meaning than the line end had.

theorem front_backslash_withReturns (hline : ∀ rest, behind ≠ '\n' :: rest)
    (hreturn : '\r' ∉ behind) : front '\\' (withReturns behind) = (.punctuation, 0) := by
  cases behind with
  | nil => rfl
  | cons d behind =>
    have hd : d ≠ '\n' := fun hd => hline behind (by rw [hd])
    rw [withReturns_cons hd]
    generalize hmore : d :: withReturns behind = more
    cases backslash more with
    | splice rest => exact absurd (List.cons.inj hmore).1 hd
    | wideSplice rest =>
      obtain ⟨rfl, _⟩ := List.cons.inj hmore
      exact absurd List.mem_cons_self hreturn
    | mark _ _ h => exact h

theorem front_slash_withReturns (hline : ∀ rest, behind ≠ '/' :: rest)
    (hblock : ∀ rest, behind ≠ '*' :: rest) :
    front '/' (withReturns behind) = (.punctuation, 0) := by
  have hmore : ∀ d ∈ ['/', '*'], (withReturns behind).head? = some d → behind.head? = some d := by
    intro d hd hmore
    rcases head?_withReturns behind with hhead | ⟨_, hhead⟩
    · rwa [← hhead]
    · rw [hhead] at hmore
      cases hmore
      simp at hd
  generalize withReturns behind = more at hmore
  cases slash more with
  | line rest =>
    obtain ⟨rest, hrest⟩ := List.head?_eq_some_iff.mp (hmore '/' (by decide) rfl)
    exact absurd hrest (hline rest)
  | block rest =>
    obtain ⟨rest, hrest⟩ := List.head?_eq_some_iff.mp (hmore '*' (by decide) rfl)
    exact absurd hrest (hblock rest)
  | mark _ _ h => exact h

-- How a lexeme goes on when the text gains its returns. `behind` is what stands behind it.
section Step

variable {kind : Kind} {inside : Char → Bool}
variable (ih : Alike (scan behind) (scan (withReturns behind)))

include ih

theorem alike_word (hends : lexeme.EndsBefore (withReturns behind)) (hline : '\n' ∉ lexeme.text) :
    Alike (lexeme :: scan behind) (scan (withReturns (lexeme.text ++ behind))) := by
  rw [withReturns_append, withReturns_of_not_mem hline, hends.scan_eq]
  exact .keep rfl rfl ih

theorem alike_space (hspace : lexeme.isSpace)
    (hends : EndsBefore ⟨lexeme.kind, withReturns lexeme.text⟩ (withReturns behind)) :
    Alike (lexeme :: scan behind) (scan (withReturns (lexeme.text ++ behind))) := by
  have hother : (⟨lexeme.kind, withReturns lexeme.text⟩ : Lexeme).isSpace := hspace
  have hscan := hends.scan_eq
  rw [withReturns_append, hscan]
  refine .keep ?_ (count_withReturns lexeme.text).symm ih
  rw [evened, evened, if_pos hspace, if_pos hother]

theorem alike_single (hkind : kind ≠ .newline) (hfront : ∀ rest, front c rest = (kind, 0)) :
    Alike (⟨kind, [c]⟩ :: scan behind) (scan (withReturns ([c] ++ behind))) := by
  have hends : EndsBefore ⟨kind, [c]⟩ (withReturns behind) := ⟨c, [], rfl, hfront _⟩
  refine alike_word ih hends fun hmem => ?_
  obtain rfl := List.mem_singleton.mp hmem
  exact hkind (Prod.mk.inj (hfront [])).1.symm

theorem alike_run (hkind : kind ≠ .newline)
    (hfront : ∀ rest, front c rest = (kind, runLength inside rest))
    (hline : inside '\n' = false) (hreturn : inside '\r' = false)
    (h : EndsBefore ⟨kind, c :: taken⟩ behind) :
    Alike (⟨kind, c :: taken⟩ :: scan behind) (scan (withReturns (c :: taken ++ behind))) := by
  have hlength : runLength inside (taken ++ behind) = taken.length :=
    (Prod.mk.inj ((hfront _).symm.trans h.front_eq)).2
  obtain ⟨htaken, hbehind⟩ := run_of_length hlength
  have hbehind : behind.head?.all fun d => !inside d := by
    rw [Option.all_eq_true]
    exact fun d hd => by simpa using hbehind d hd
  have hmore : (withReturns behind).head?.all fun d => !inside d := by
    rcases head?_withReturns behind with hhead | ⟨_, hhead⟩
    · rwa [hhead]
    · rw [hhead, Option.all_some, hreturn]
      rfl
  have hsame : runLength inside (taken ++ withReturns behind) = taken.length := by
    calc runLength inside (taken ++ withReturns behind)
        = runLength inside taken := runLength_append_of_head hmore
      _ = runLength inside (taken ++ behind) := (runLength_append_of_head hbehind).symm
      _ = taken.length := hlength
  refine alike_word ih ⟨c, taken, rfl, ?_⟩ fun hmem => ?_
  · rw [hfront, hsame]
  · rcases List.mem_cons.mp hmem with rfl | hmem
    · exact hkind (Prod.mk.inj (hfront [])).1.symm
    · rw [htaken '\n' hmem] at hline
      cases hline

theorem alike_literal {quote : Char} (hquote : quote ≠ '\\')
    (hfront : ∀ rest, front quote rest = (kind, literalLength quote rest))
    (h : EndsBefore ⟨kind, quote :: taken⟩ behind) (hstops : literalStops quote taken)
    (hline : '\n' ∉ quote :: taken) :
    Alike (⟨kind, quote :: taken⟩ :: scan behind)
      (scan (withReturns (quote :: taken ++ behind))) := by
  have hends := h.front_eq
  rw [hfront, literalLength_append hquote hstops] at hends
  refine alike_word ih ⟨quote, taken, rfl, ?_⟩ hline
  rw [hfront, literalLength_append hquote hstops, hends]

theorem alike_backslash (h : EndsBefore ⟨kind, '\\' :: taken⟩ behind)
    (hreturn : '\r' ∉ taken ++ behind) :
    Alike (⟨kind, '\\' :: taken⟩ :: scan behind)
      (scan (withReturns ('\\' :: taken ++ behind))) := by
  have hends := h.front_eq
  generalize hall : taken ++ behind = all at hends hreturn
  cases backslash all with
  | splice rest =>
    obtain ⟨rfl, hlength⟩ := Prod.mk.inj hends
    obtain ⟨d, rfl⟩ := List.length_eq_one_iff.mp hlength.symm
    cases hall
    exact alike_space ih rfl ⟨'\\', ['\r', '\n'], rfl, rfl⟩
  | wideSplice rest => exact absurd List.mem_cons_self hreturn
  | mark hline hwide hmark =>
    obtain ⟨rfl, hlength⟩ := Prod.mk.inj (hmark.symm.trans hends)
    obtain rfl := List.length_eq_zero_iff.mp hlength.symm
    obtain rfl : behind = all := hall
    have hfront := front_backslash_withReturns hline hreturn
    exact alike_word ih ⟨'\\', [], rfl, hfront⟩ (by decide)

-- A line comment takes the return in, and the line end behind it stays what it is.
theorem alike_lineComment (hline : '\n' ∉ taken) (hbehind : ∀ c ∈ behind.head?, c = '\n') :
    Alike (⟨.lineComment, '/' :: '/' :: taken⟩ :: scan behind)
      (scan (withReturns ('/' :: '/' :: taken ++ behind))) := by
  have hinside : ∀ {taken : List Char}, '\n' ∉ taken →
      runLength (fun d => d ≠ '\n') ('/' :: taken) = ('/' :: taken).length := by
    intro taken hline
    refine congrArg List.length (List.takeWhile_eq_self_iff.mpr fun d hd => ?_)
    rcases List.mem_cons.mp hd with rfl | hd
    · rfl
    · exact decide_eq_true fun hne => hline (hne ▸ hd)
  cases behind with
  | nil =>
    refine alike_word ih ⟨'/', '/' :: taken, rfl, ?_⟩ (by simpa using hline)
    refine congrArg (Kind.lineComment, ·) ?_
    exact (congrArg (runLength _) (List.append_nil _)).trans (hinside hline)
  | cons d behind =>
    obtain rfl := hbehind d rfl
    have hreturn : '\n' ∉ taken ++ ['\r'] := by simpa using hline
    have hends : EndsBefore ⟨.lineComment, '/' :: '/' :: (taken ++ ['\r'])⟩
        ('\n' :: withReturns behind) := by
      refine ⟨'/', '/' :: (taken ++ ['\r']), rfl, ?_⟩
      refine congrArg (Kind.lineComment, ·) ?_
      exact (runLength_append_of_head rfl).trans (hinside hreturn)
    have htext : withReturns ('/' :: '/' :: taken ++ '\n' :: behind) =
        '/' :: '/' :: (taken ++ ['\r']) ++ '\n' :: withReturns behind := by
      have hmark : '\n' ∉ '/' :: '/' :: taken := by simpa using hline
      rw [withReturns_append, withReturns_of_not_mem hmark, withReturns_newline]
      simp
    rw [scan_newline, withReturns_newline, scan_returns] at ih
    have hscan := hends.scan_eq
    rw [htext, hscan, scan_newline, scan_newline]
    refine .keep rfl ?_ (.keep rfl rfl ih.of_lineEnd)
    rw [List.count_eq_zero_of_not_mem, List.count_eq_zero_of_not_mem]
    · simpa using hline
    · simpa using hline

theorem alike_blockComment {inside : List Char} (hinside : ¬ ['*', '/'] <:+: inside) :
    Alike (comment inside :: scan behind)
      (scan (withReturns ((comment inside).text ++ behind))) := by
  have htext : withReturns (comment inside).text = (comment (withReturns inside)).text := by
    rw [comment, withReturns_cons (by decide), withReturns_cons (by decide), withReturns_append]
    rfl
  refine alike_space ih rfl ?_
  rw [htext]
  exact endsBefore_comment (closing_infix_withReturns hinside) _

theorem alike_openComment {inside : List Char} (hinside : ¬ ['*', '/'] <:+: inside)
    (hbehind : behind = []) :
    Alike (⟨.blockComment, '/' :: '*' :: inside⟩ :: scan behind)
      (scan (withReturns ('/' :: '*' :: inside ++ behind))) := by
  subst hbehind
  have hlength : blockCommentLength (withReturns inside) = (withReturns inside).length := by
    rcases blockComment_cases (withReturns inside) with ⟨first, tail, hsplit, _⟩ | ⟨_, hlength⟩
    · exact absurd ⟨first, tail, by simp [hsplit]⟩ (closing_infix_withReturns hinside)
    · exact hlength
  refine alike_space ih rfl ?_
  rw [withReturns_cons (by decide), withReturns_cons (by decide)]
  refine ⟨'/', '*' :: withReturns inside, rfl, ?_⟩
  refine congrArg (fun count => (Kind.blockComment, count + 1)) ?_
  exact (congrArg blockCommentLength (List.append_nil _)).trans hlength

theorem alike_slash (h : EndsBefore ⟨kind, '/' :: taken⟩ behind) :
    Alike (⟨kind, '/' :: taken⟩ :: scan behind)
      (scan (withReturns ('/' :: taken ++ behind))) := by
  have hends := h.front_eq
  generalize hall : taken ++ behind = all at hends
  cases slash all with
  | line rest =>
    obtain ⟨rfl, hlength⟩ := Prod.mk.inj hends
    cases gap_of_lineComment hall hlength.symm with
    | whitespace hc => cases hlength
    | stray hc => cases hlength
    | lineComment hinside hbehind => exact alike_lineComment ih hinside hbehind
    | blockComment hinside => cases hall
    | openComment hinside => cases hall
  | block rest =>
    obtain ⟨rfl, hlength⟩ := Prod.mk.inj hends
    cases gap_of_blockComment hall hlength.symm with
    | whitespace hc => cases hlength
    | stray hc => cases hlength
    | lineComment hinside hbehind => cases hall
    | blockComment hinside => exact alike_blockComment ih hinside
    | openComment hinside => exact alike_openComment ih hinside rfl
  | mark hline hblock hmark =>
    obtain ⟨rfl, hlength⟩ := Prod.mk.inj (hmark.symm.trans hends)
    obtain rfl := List.length_eq_zero_iff.mp hlength.symm
    obtain rfl : behind = all := hall
    have hfront := front_slash_withReturns hline hblock
    exact alike_word ih ⟨'/', [], rfl, hfront⟩ (by decide)

end Step

-- A lexeme and its counterpart, given that what stands behind them is alike.
theorem alike_step (h : lexeme.EndsBefore behind) (hreturn : '\r' ∉ lexeme.text ++ behind)
    (hunbroken : lexeme.Unbroken) (ih : Alike (scan behind) (scan (withReturns behind))) :
    Alike (lexeme :: scan behind) (scan (withReturns (lexeme.text ++ behind))) := by
  obtain ⟨kind, text⟩ := lexeme
  have hends := h
  obtain ⟨c, taken, rfl, hfront⟩ := h
  have hsingle : ∀ other, front c (taken ++ behind) = (other, 0) → kind = other ∧ taken = [] := by
    intro other hother
    obtain ⟨hkind, hlength⟩ := Prod.mk.inj (hfront.symm.trans hother)
    exact ⟨hkind, List.length_eq_zero_iff.mp hlength⟩
  cases rule c with
  | newline hc =>
    subst hc
    obtain ⟨rfl, rfl⟩ := hsingle .newline rfl
    rw [List.singleton_append, withReturns_newline, scan_returns]
    exact .lineEnd ih
  | blank hc h =>
    obtain ⟨rfl, rfl⟩ := hsingle .blank (h _)
    exact alike_single ih (by decide) h
  | punctuation h =>
    obtain ⟨rfl, rfl⟩ := hsingle .punctuation (h _)
    exact alike_single ih (by decide) h
  | stray hc h =>
    obtain ⟨rfl, rfl⟩ := hsingle .stray (h _)
    exact alike_single ih (by decide) h
  | identifier h =>
    obtain rfl := (Prod.mk.inj (hfront.symm.trans (h _))).1
    exact alike_run ih (by decide) h (by decide) (by decide) hends
  | number h =>
    obtain rfl := (Prod.mk.inj (hfront.symm.trans (h _))).1
    exact alike_run ih (by decide) h (by decide) (by decide) hends
  | string hc =>
    subst hc
    obtain rfl : Kind.string = kind := (Prod.mk.inj hfront).1
    obtain ⟨hclosed, hline⟩ := hunbroken (.inl rfl)
    have hstops : literalStops '"' taken := (Bool.not_eq_false' _).mp hclosed
    exact alike_literal ih (by decide) (fun _ => rfl) hends hstops hline
  | character hc =>
    subst hc
    obtain rfl : Kind.character = kind := (Prod.mk.inj hfront).1
    obtain ⟨hclosed, hline⟩ := hunbroken (.inr rfl)
    have hstops : literalStops '\'' taken := (Bool.not_eq_false' _).mp hclosed
    exact alike_literal ih (by decide) (fun _ => rfl) hends hstops hline
  | backslash hc =>
    subst hc
    exact alike_backslash ih hends fun hmem => hreturn (List.mem_cons_of_mem _ hmem)
  | slash hc =>
    subst hc
    exact alike_slash ih hends

-- With returns in front of its line ends a text is cut into the same words on the same lines.
theorem alike_scan {text : List Char} (hreturn : '\r' ∉ text)
    (hunbroken : ∀ lexeme ∈ scan text, lexeme.Unbroken) :
    Alike (scan text) (scan (withReturns text)) := by
  fun_induction scan text with
  | case1 =>
    rw [withReturns, List.flatMap_nil, scan]
    exact .done
  | case2 c rest ih =>
    have hends := endsBefore_front c rest
    have htext : c :: rest = c :: rest.take (front c rest).2 ++ rest.drop (front c rest).2 := by
      rw [List.cons_append, List.take_append_drop]
    rw [List.forall_mem_cons] at hunbroken
    have hbehind : '\r' ∉ rest.drop (front c rest).2 := fun hmem =>
      hreturn (List.mem_cons_of_mem _ (List.mem_of_mem_drop hmem))
    rw [htext] at hreturn ⊢
    exact alike_step hends hreturn hunbroken.1 (ih hbehind hunbroken.2)

end Lexeme

end EventFlow.Source
