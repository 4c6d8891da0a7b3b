import EventFlow.Proofs.Source.Layout
import EventFlow.Proofs.Source.Lines

namespace EventFlow.Source

-- How much a text holds, by which all that is counted in what follows is more.
structure Extent where
  lines : Nat
  octets : Nat
  tokens : Nat
  directives : Nat

def Token.after (extent : Extent) (token : Token) : Token :=
  { token with
    line := token.line + extent.lines
    offset := token.offset + extent.octets
    directive := token.directive.map (· + extent.directives) }

def Directive.after (extent : Extent) (directive : Directive) : Directive :=
  { directive with
    line := directive.line + extent.lines
    first := directive.first + extent.tokens
    stop := directive.stop + extent.tokens }

namespace Placed

def after (extent : Extent) (placed : Placed) : Placed :=
  ⟨placed.lexeme, placed.line + extent.lines, placed.offset + extent.octets⟩

theorem ofLexemes_append (line offset : Nat) (first second : List Lexeme) :
    ofLexemes line offset (first ++ second) =
      ofLexemes line offset first ++
        ofLexemes (line + (first.flatMap Lexeme.text).count '\n')
          (offset + octets (first.flatMap Lexeme.text)) second := by
  induction first generalizing line offset with
  | nil => rfl
  | cons lexeme first ih =>
    rw [List.cons_append, ofLexemes, ofLexemes, List.cons_append, ih, List.flatMap_cons,
      List.count_append, octets_append, Nat.add_assoc, Nat.add_assoc]

theorem ofLexemes_after (extent : Extent) (line offset : Nat) (lexemes : List Lexeme) :
    ofLexemes (line + extent.lines) (offset + extent.octets) lexemes =
      (ofLexemes line offset lexemes).map (after extent) := by
  induction lexemes generalizing line offset with
  | nil => rfl
  | cons lexeme rest ih =>
    rw [ofLexemes, ofLexemes, List.map_cons, ← ih, Nat.add_right_comm line,
      Nat.add_right_comm offset]
    rfl

-- A line end ends a line wherever it stands.
theorem lines_append_cons {placed : Placed} (h : placed.lexeme.kind = .newline)
    (first second : List Placed) :
    lines (first ++ placed :: second) = lines first ++ lines second := by
  induction first with
  | nil =>
    have hend : lines (placed :: second) = [] :: lines second := if_pos h
    exact hend
  | cons head first ih =>
    rw [List.cons_append, lines, lines, ih]
    split
    · rfl
    · obtain ⟨line, rest, hlines⟩ := List.exists_cons_of_ne_nil (lines_ne_nil first)
      rw [hlines]
      rfl

end Placed

namespace Stream

theorem ofLines_append (directives tokens : Nat) (first second : List (List Placed)) :
    ofLines directives tokens (first ++ second) =
      ⟨(ofLines directives tokens first).tokens ++
        (ofLines (directives + (ofLines directives tokens first).directives.length)
          (tokens + (ofLines directives tokens first).tokens.length) second).tokens,
       (ofLines directives tokens first).directives ++
        (ofLines (directives + (ofLines directives tokens first).directives.length)
          (tokens + (ofLines directives tokens first).tokens.length) second).directives⟩ := by
  induction first generalizing directives tokens with
  | nil => rfl
  | cons line rest ih =>
    cases hopens : opensDirective line with
    | true =>
      simp only [List.cons_append, ofLines, hopens, if_true, ih, List.length_append,
        List.length_cons, List.append_assoc, length_tokens]
      simp only [Nat.add_assoc, Nat.add_comm 1]
    | false =>
      simp only [List.cons_append, ofLines, hopens, Bool.false_eq_true, if_false, ih,
        List.length_append, List.append_assoc, Nat.add_assoc]

theorem keeps_after (extent : Extent) : Keeps (Placed.after extent) (Token.after extent)
    (Directive.after extent) extent.directives extent.tokens where
  token?_eq tag placed := by
    rw [Placed.token?, Placed.token?, Option.map_map]
    rfl
  isPunctuation_eq token c := rfl
  directiveOf_eq line first hopens := by
    have htokens : (line.map (Placed.after extent)).filterMap (Placed.token? none) =
        (line.filterMap (Placed.token? none)).map (Token.after extent) := by
      refine Placed.tokens_map (fun placed => ?_) line
      rw [Placed.token?, Placed.token?, Option.map_map]
      rfl
    have htext : Directive.textOf (line.map (Placed.after extent)) = Directive.textOf line := by
      rw [Directive.textOf, List.map_map]
      rfl
    unfold opensDirective at hopens
    simp only [directiveOf, htext, htokens, List.length_map]
    -- the line of a preprocessor line is that of its first token, and there is one
    cases hline : line.filterMap (Placed.token? none) with
    | nil =>
      rw [hline] at hopens
      cases hopens
    | cons hash rest => simp [Directive.after, Token.after, Nat.add_right_comm]

-- How much a text holds.
def extent (text : String) : Extent :=
  ⟨text.toList.count '\n', text.utf8ByteSize, (ofText text).tokens.length,
    (ofText text).directives.length⟩

end Stream

namespace Lexeme

variable {c quote : Char} {rest text : List Char} {before : List Lexeme}

theorem literalLength_append_newline (hquote : quote ≠ '\\')
    (h : literalLength quote (rest ++ ['\n']) ≤ rest.length) :
    literalLength quote (rest ++ ['\n']) = literalLength quote rest := by
  fun_induction literalLength quote rest with
  | case1 => rfl
  | case2 rest ih => exact congrArg (· + 2) (ih (Nat.le_of_add_le_add_right h))
  | case3 rest ih => exact congrArg (· + 3) (ih (Nat.le_of_add_le_add_right h))
  | case4 c rest hsplice hwide ih =>
    have hbehind : ∀ behind, c = '\r' → rest ++ ['\n'] = '\n' :: behind → False := by
      rintro behind rfl hbehind
      cases rest with
      | nil => simp [literalLength] at h
      | cons d rest => exact hwide rest rfl (by rw [(List.cons.inj hbehind).1])
    rw [List.cons_append, List.cons_append, literalLength.eq_4 quote c _ hsplice hbehind] at h ⊢
    rw [ih (Nat.le_of_add_le_add_right h)]
  | case5 rest => rfl
  | case6 rest _ _ _ hline => rw [List.cons_append, literalLength_plain hquote hline, if_pos rfl]
  | case7 c rest _ _ hescape hline hne ih =>
    have hc : c ≠ '\\' := by
      rintro rfl
      cases rest with
      | nil => simp [literalLength] at h
      | cons d rest => exact hescape d rest rfl rfl
    rw [List.cons_append, literalLength_plain hc hline, if_neg hne] at h ⊢
    rw [ih (Nat.le_of_add_le_add_right h)]

theorem blockCommentLength_append_newline
    (h : blockCommentLength (rest ++ ['\n']) ≤ rest.length) :
    blockCommentLength (rest ++ ['\n']) = blockCommentLength rest := by
  have hcloses := closes_of_blockCommentLength_lt
    (show blockCommentLength (rest ++ ['\n']) < (rest ++ ['\n']).length by simp; omega)
  rw [List.infix_concat_iff] at hcloses
  rcases hcloses with ⟨front, heq⟩ | hcloses
  · have hlast := congrArg List.getLast? heq
    simp at hlast
  · exact blockCommentLength_append hcloses

-- A line end that a lexeme does not take has no part in how the lexeme is read.
theorem front_append_newline (h : (front c (rest ++ ['\n'])).2 ≤ rest.length) :
    front c (rest ++ ['\n']) = front c rest := by
  cases rule c with
  | newline hc =>
    subst hc
    rfl
  | blank _ hfront | punctuation hfront _ | stray _ hfront => rw [hfront, hfront]
  | backslash hc =>
    subst hc
    cases backslash rest with
    | splice behind => rfl
    | wideSplice behind => rfl
    | mark hline hwide hmark =>
      rw [hmark]
      generalize hall : rest ++ ['\n'] = all at h
      cases backslash all with
      | splice behind =>
        cases rest with
        | nil => cases h
        | cons d rest => exact absurd (by rw [(List.cons.inj hall).1]) (hline rest)
      | wideSplice behind =>
        cases rest with
        | nil => cases hall
        | cons d rest =>
          obtain ⟨rfl, hrest⟩ := List.cons.inj hall
          cases rest with
          | nil => exact absurd h (show ¬ 2 ≤ 1 by decide)
          | cons e rest => exact absurd (by rw [(List.cons.inj hrest).1]) (hwide rest)
      | mark _ _ h => exact h
  | slash hc =>
    subst hc
    cases slash rest with
    | line behind =>
      have hrun : runLength (fun d => d ≠ '\n') ('/' :: behind ++ ['\n']) =
          runLength (fun d => d ≠ '\n') ('/' :: behind) := runLength_append_of_head rfl
      exact congrArg (Kind.lineComment, ·) hrun
    | block behind =>
      have hclosed := blockCommentLength_append_newline (Nat.le_of_succ_le_succ h)
      exact congrArg (fun count => (Kind.blockComment, count + 1)) hclosed
    | mark hline hblock hmark =>
      rw [hmark]
      generalize hall : rest ++ ['\n'] = all
      cases slash all with
      | line behind =>
        cases rest with
        | nil => cases hall
        | cons d rest => exact absurd (by rw [(List.cons.inj hall).1]) (hline rest)
      | block behind =>
        cases rest with
        | nil => cases hall
        | cons d rest => exact absurd (by rw [(List.cons.inj hall).1]) (hblock rest)
      | mark _ _ h => exact h
  | string hc =>
    subst hc
    exact congrArg (Kind.string, ·) (literalLength_append_newline (by decide) h)
  | character hc =>
    subst hc
    exact congrArg (Kind.character, ·) (literalLength_append_newline (by decide) h)
  | identifier hfront _ =>
    rw [hfront, hfront, runLength_append_of_head rfl]
  | number hfront _ =>
    rw [hfront, hfront, runLength_append_of_head rfl]

-- The text of a line is read as if it stood alone, if its line end is read as one.
theorem scan_of_append_newline (h : scan (text ++ ['\n']) = before ++ [⟨.newline, ['\n']⟩]) :
    scan text = before := by
  fun_induction scan text generalizing before with
  | case1 =>
    have hlength := congrArg List.length h
    simp [scan_newline, scan] at hlength
    exact hlength.symm
  | case2 c rest ih =>
    rw [List.cons_append, scan] at h
    cases before with
    | nil =>
      obtain ⟨-, hnone⟩ := List.cons.inj h
      have htext := flatMap_text_scan (c :: rest ++ ['\n'])
      rw [List.cons_append, scan, h] at htext
      simp at htext
    | cons first before =>
      obtain ⟨rfl, hbehind⟩ := List.cons.inj h
      have hfront : (front c (rest ++ ['\n'])).2 ≤ rest.length := by
        by_contra hover
        rw [List.drop_eq_nil_of_le (by simp; omega), scan] at hbehind
        simp at hbehind
      rw [List.take_append_of_le_length hfront, front_append_newline hfront]
      rw [List.drop_append_of_le_length hfront, front_append_newline hfront] at hbehind
      rw [ih hbehind]

end Lexeme

-- The last character is a line end, and it is read as one: it does not belong to a comment, to a
-- literal or to a splice.
def EndsLine (text : String) : Prop :=
  ∃ before, Lexeme.scan text.toList = before ++ [⟨.newline, ['\n']⟩]

theorem EndsLine.scan_append {first : String} (h : EndsLine first) (second : List Char) :
    Lexeme.scan (first.toList ++ second) = Lexeme.scan first.toList ++ Lexeme.scan second := by
  obtain ⟨before, hscan⟩ := h
  have htext : first.toList = before.flatMap Lexeme.text ++ ['\n'] := by
    rw [← Lexeme.flatMap_text_scan first.toList, hscan, List.flatMap_append]
    rfl
  refine Lexeme.scan_append (fun lexeme hlexeme => ?_) fun hreturn => ?_
  · rw [hscan, List.getLast?_append] at hlexeme
    obtain rfl := Option.some.inj hlexeme
    exact ⟨'\n', [], rfl, rfl⟩
  · rw [htext, List.getLast?_append] at hreturn
    cases hreturn

namespace Stream

-- Nothing stands on the line behind the last line end.
theorem ofText_of_scan {text : String} {before : List Lexeme}
    (h : Lexeme.scan text.toList = before ++ [⟨.newline, ['\n']⟩]) :
    ofText text = ofLines 0 0 (Placed.lines (Placed.ofLexemes 1 0 before)) := by
  have hempty : ∀ directives tokens, ofLines directives tokens (Placed.lines []) = ⟨[], []⟩ :=
    fun _ _ => rfl
  rw [ofText, h, Placed.ofLexemes_append, Placed.ofLexemes, Placed.ofLexemes,
    Placed.lines_append_cons rfl, ofLines_append, hempty, List.append_nil, List.append_nil]

-- A text that ends with a line leaves no trace in how the next one is read: nothing is left open.
theorem ofText_append {first : String} (h : EndsLine first) (second : String) :
    ofText (first ++ second) =
      ⟨(ofText first).tokens ++ (ofText second).tokens.map (Token.after (extent first)),
        (ofText first).directives ++
          (ofText second).directives.map (Directive.after (extent first))⟩ := by
  have hscan := h.scan_append second.toList
  have hplaced : Placed.ofLexemes (1 + (extent first).lines) (0 + (extent first).octets)
      (Lexeme.scan second.toList) =
      (Placed.ofLexemes 1 0 (Lexeme.scan second.toList)).map (Placed.after (extent first)) :=
    Placed.ofLexemes_after _ _ _ _
  have hsecond := (keeps_after (extent first)).ofLines_map 0 0
    (Placed.lines (Placed.ofLexemes 1 0 (Lexeme.scan second.toList)))
  rw [← Placed.lines_map (Placed.after (extent first)) (fun _ => Iff.rfl), ← hplaced] at hsecond
  -- the second text is placed behind the octets and the lines of the first
  have hbehind : Placed.ofLexemes 1 0 (Lexeme.scan first.toList ++ Lexeme.scan second.toList) =
      Placed.ofLexemes 1 0 (Lexeme.scan first.toList) ++
        Placed.ofLexemes (1 + (extent first).lines) (0 + (extent first).octets)
          (Lexeme.scan second.toList) := by
    rw [Placed.ofLexemes_append, Lexeme.flatMap_text_scan, Placed.octets_toList]
    rfl
  obtain ⟨before, hbefore⟩ := h
  have hfirst := ofText_of_scan hbefore
  rw [ofText, String.toList_append, hscan, hbehind, hbefore, Placed.ofLexemes_append,
    Placed.ofLexemes, Placed.ofLexemes, List.append_assoc, List.singleton_append,
    Placed.lines_append_cons rfl, ofLines_append, ← hfirst]
  exact congrArg (fun stream : Stream => (⟨(ofText first).tokens ++ stream.tokens,
    (ofText first).directives ++ stream.directives⟩ : Stream)) hsecond

-- A splice inside a literal, a comment over two lines and a literal without its end stand in a
-- preprocessor line.
def unclosed : String := "#define A 'a\\\r\nb' /* \"\n */ \"open\n"

theorem ofText_append_unclosed : EndsLine unclosed ∧
    ofText (unclosed ++ "x\n#") =
      ⟨(ofText unclosed).tokens ++ (ofText "x\n#").tokens.map (Token.after (extent unclosed)),
        (ofText unclosed).directives ++
          (ofText "x\n#").directives.map (Directive.after (extent unclosed))⟩ ∧
    (ofText (unclosed ++ "x\n#")).directives =
      [⟨"#define A 'a\\\r\nb' \"open", 1, 0, 5⟩, ⟨"#", 5, 6, 7⟩] := by
  have hends : EndsLine unclosed :=
    ⟨Lexeme.scan "#define A 'a\\\r\nb' /* \"\n */ \"open".toList, by decide +kernel⟩
  exact ⟨hends, ofText_append hends "x\n#", by decide +kernel⟩

end Stream

end EventFlow.Source
