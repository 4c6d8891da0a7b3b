import EventFlow.Proofs.Source.Layout
import EventFlow.Proofs.Source.Lines

namespace EventFlow.Source

theorem Placed.flatMap_lines (placed : List Placed) :
    (lines placed).flatMap (List.filterMap (token? none)) = placed.filterMap (token? none) := by
  induction placed with
  | nil => rfl
  | cons head tail ih =>
    rw [lines]
    split
    · rename_i hline
      have hnone : token? none head = none :=
        token?_of_not_isWord none (by rw [Lexeme.isWord, hline])
      rw [List.filterMap_cons_none hnone, List.flatMap_cons, ih, List.filterMap_nil,
        List.nil_append]
    · rw [← List.singleton_append, List.filterMap_append, ← ih]
      obtain ⟨line, rest, hlines⟩ := List.exists_cons_of_ne_nil (lines_ne_nil tail)
      rw [hlines, List.modifyHead_cons, List.flatMap_cons, List.flatMap_cons,
        ← List.singleton_append, List.filterMap_append, List.append_assoc]

namespace Stream

variable {text : String} {number : Nat} {directive : Directive}

theorem tokens_ofLines (directives tokens : Nat) (lines : List (List Placed)) :
    (ofLines directives tokens lines).tokens.map (Token.inDirective none) =
      lines.flatMap (List.filterMap (Placed.token? none)) := by
  induction lines generalizing directives tokens with
  | nil => rfl
  | cons line rest ih =>
    have hline : ∀ directive, (line.filterMap (Placed.token? directive)).map
        (Token.inDirective none) = line.filterMap (Placed.token? none) := by
      intro directive
      rw [Placed.tokens_inDirective directive, List.map_map]
      conv_rhs => rw [Placed.tokens_inDirective none]
      rfl
    rw [ofLines, List.flatMap_cons]
    split
    · rw [List.map_append, hline, ih]
    · rw [List.map_append, hline, ih]

theorem laid_ofText (text : String) : Laid 1 0 text.toList (ofText text).tokens := by
  have htokens : (ofText text).tokens.map (Token.inDirective none) =
      (Placed.ofLexemes 1 0 (Lexeme.scan text.toList)).filterMap (Placed.token? none) := by
    rw [ofText, tokens_ofLines, Placed.flatMap_lines]
  have hlaid := laid_scan 1 0 text.toList
  rw [← htokens] at hlaid
  exact hlaid.of_map (Token.inDirective none) (fun token => rfl) (fun token => rfl)
    (fun token => rfl)

-- The preprocessor lines are numbered from `directives` on.
theorem number_bounds (directives tokens : Nat) (lines : List (List Placed)) {token : Token}
    (htoken : token ∈ (ofLines directives tokens lines).tokens)
    (h : token.directive = some number) : directives ≤ number ∧
      number < directives + (ofLines directives tokens lines).directives.length := by
  induction lines generalizing directives tokens with
  | nil => cases htoken
  | cons line rest ih =>
    cases hopens : opensDirective line with
    | true =>
      simp only [ofLines, hopens, if_true, List.mem_append, List.length_cons] at htoken ⊢
      rcases htoken with htoken | htoken
      · rw [Placed.tokens_inDirective] at htoken
        obtain ⟨other, _, rfl⟩ := List.mem_map.mp htoken
        obtain rfl := Option.some.inj h
        omega
      · have hbounds := ih _ _ htoken
        omega
    | false =>
      simp only [ofLines, hopens, Bool.false_eq_true, if_false, List.mem_append] at htoken ⊢
      rcases htoken with htoken | htoken
      · rw [Placed.tokens_inDirective] at htoken
        obtain ⟨other, _, rfl⟩ := List.mem_map.mp htoken
        cases h
      · exact ih _ _ htoken

-- The tokens of a preprocessor line stand together, its `#` in front. `count` tokens stand before
-- all of these.
structure Holds (count : Nat) (tokens : List Token) (number : Nat) (directive : Directive)
    (before inside behind : List Token) : Prop where
  split : tokens = before ++ (inside ++ behind)
  first_eq : directive.first = count + before.length
  stop_eq : directive.stop = directive.first + inside.length
  mark : ∃ hash ∈ inside.head?, hash.isPunctuation '#' ∧ directive.line = hash.line
  inside_eq : ∀ token ∈ inside, token.directive = some number
  apart : ∀ token ∈ before ++ behind, token.directive ≠ some number

theorem Holds.behind {count more : Nat} {tokens front before inside behind : List Token}
    (h : Holds (count + more) tokens number directive before inside behind)
    (hlength : front.length = more)
    (hfront : ∀ token ∈ front, token.directive ≠ some number) :
    Holds count (front ++ tokens) number directive (front ++ before) inside behind where
  split := by rw [h.split, List.append_assoc]
  first_eq := by rw [h.first_eq, List.length_append, hlength, Nat.add_assoc]
  stop_eq := h.stop_eq
  mark := h.mark
  inside_eq := h.inside_eq
  apart token htoken := by
    rw [List.append_assoc] at htoken
    rcases List.mem_append.mp htoken with hfirst | hrest
    · exact hfront token hfirst
    · exact h.apart token hrest

theorem directive_of_mem {line : List Placed} {tag : Option Nat} {token : Token}
    (h : token ∈ line.filterMap (Placed.token? tag)) : token.directive = tag := by
  rw [Placed.tokens_inDirective] at h
  obtain ⟨other, _, rfl⟩ := List.mem_map.mp h
  rfl

-- A preprocessor line holds its own tokens.
theorem holds_directiveOf {line : List Placed} {tokens : List Token} (count : Nat)
    (hopens : opensDirective line) (hrest : ∀ token ∈ tokens, token.directive ≠ some number) :
    Holds count (line.filterMap (Placed.token? (some number)) ++ tokens) number
      (directiveOf line count) [] (line.filterMap (Placed.token? (some number))) tokens where
  split := rfl
  first_eq := rfl
  stop_eq := by rw [length_tokens]; rfl
  mark := by
    unfold opensDirective at hopens
    rw [Placed.tokens_inDirective, List.head?_map, directiveOf]
    split at hopens
    · rename_i hash rest heq
      rw [heq]
      exact ⟨_, rfl, hopens, rfl⟩
    · cases hopens
  inside_eq token htoken := directive_of_mem htoken
  apart := hrest

-- A preprocessor line is one of the lines, and it holds the tokens of that one.
theorem exists_line (directives tokens : Nat) (lines : List (List Placed))
    (h : (ofLines directives tokens lines).directives[number]? = some directive) :
    ∃ line ∈ lines, opensDirective line ∧ directive.text = Directive.textOf line ∧
      ∃ before behind, Holds tokens (ofLines directives tokens lines).tokens
        (directives + number) directive before
        (line.filterMap (Placed.token? (some (directives + number)))) behind := by
  induction lines generalizing directives tokens number with
  | nil => cases h
  | cons line rest ih =>
    cases hopens : opensDirective line with
    | true =>
      simp only [ofLines, hopens, if_true] at h ⊢
      cases number with
      | zero =>
        obtain rfl := Option.some.inj h
        refine ⟨line, List.mem_cons_self, hopens, rfl, _, _,
          holds_directiveOf tokens hopens fun token htoken heq => ?_⟩
        have hbounds := number_bounds _ _ _ htoken heq
        omega
      | succ number =>
        rw [List.getElem?_cons_succ] at h
        obtain ⟨other, hother, hmark, htext, before, behind, hholds⟩ := ih _ _ h
        rw [Nat.add_right_comm directives, Nat.add_assoc directives] at hholds
        refine ⟨other, List.mem_cons_of_mem _ hother, hmark, htext, _, _,
          hholds.behind (length_tokens line _) fun token htoken heq => ?_⟩
        rw [directive_of_mem htoken] at heq
        have hnumber := Option.some.inj heq
        omega
    | false =>
      simp only [ofLines, hopens, Bool.false_eq_true, if_false] at h ⊢
      obtain ⟨other, hother, hmark, htext, before, behind, hholds⟩ := ih _ _ h
      refine ⟨other, List.mem_cons_of_mem _ hother, hmark, htext, _, _,
        hholds.behind rfl fun token htoken heq => ?_⟩
      rw [directive_of_mem htoken] at heq
      cases heq

theorem exists_holds (directives tokens : Nat) (lines : List (List Placed))
    (h : (ofLines directives tokens lines).directives[number]? = some directive) :
    ∃ before inside behind, Holds tokens (ofLines directives tokens lines).tokens
      (directives + number) directive before inside behind := by
  obtain ⟨line, _, _, _, before, behind, hholds⟩ := exists_line directives tokens lines h
  exact ⟨before, _, behind, hholds⟩

theorem Holds.within_eq {stream : Stream} {before inside behind : List Token}
    (h : Holds 0 stream.tokens number directive before inside behind) :
    stream.within directive = inside := by
  rw [within, h.stop_eq, h.first_eq, Nat.zero_add, h.split, List.take_length_add_append,
    List.take_left, List.drop_left]

-- The numbers of the tokens inside are those that the preprocessor line gives.
theorem Holds.directive_iff {tokens before inside behind : List Token} {place : Nat}
    {token : Token} (h : Holds 0 tokens number directive before inside behind)
    (htoken : tokens[place]? = some token) :
    token.directive = some number ↔ directive.first ≤ place ∧ place < directive.stop := by
  have hfirst := h.first_eq
  have hstop := h.stop_eq
  rw [h.split] at htoken
  rw [Nat.zero_add] at hfirst
  by_cases hbefore : place < before.length
  · rw [List.getElem?_append_left hbefore] at htoken
    have hne := h.apart token (List.mem_append_left _ (List.mem_of_getElem? htoken))
    exact iff_of_false hne (by omega)
  · rw [List.getElem?_append_right (by omega)] at htoken
    by_cases hinside : place - before.length < inside.length
    · rw [List.getElem?_append_left hinside] at htoken
      exact iff_of_true (h.inside_eq token (List.mem_of_getElem? htoken)) (by omega)
    · rw [List.getElem?_append_right (by omega)] at htoken
      have hne := h.apart token (List.mem_append_right _ (List.mem_of_getElem? htoken))
      exact iff_of_false hne (by omega)

-- A preprocessor line holds a range of the tokens that begins with its `#`.
theorem Holds.range {tokens before inside behind : List Token}
    (h : Holds 0 tokens number directive before inside behind) :
    directive.first < directive.stop ∧ directive.stop ≤ tokens.length ∧
      ∃ hash, tokens[directive.first]? = some hash ∧ hash.isPunctuation '#' ∧
        directive.line = hash.line := by
  obtain ⟨hash, hhash, hmark, hline⟩ := h.mark
  obtain ⟨rest, rfl⟩ := List.head?_eq_some_iff.mp hhash
  have hfirst := h.first_eq
  have hstop := h.stop_eq
  rw [Nat.zero_add] at hfirst
  rw [List.length_cons] at hstop
  refine ⟨by omega, ?_, hash, ?_, hmark, hline⟩
  · rw [h.split, List.length_append, List.length_append, List.length_cons]
    omega
  · rw [h.split, hfirst, List.getElem?_append_right (Nat.le_refl _), Nat.sub_self]
    rfl

theorem le_first (directives tokens : Nat) (lines : List (List Placed))
    (h : directive ∈ (ofLines directives tokens lines).directives) : tokens ≤ directive.first := by
  obtain ⟨number, hnumber⟩ := List.mem_iff_getElem?.mp h
  obtain ⟨before, inside, behind, hholds⟩ := exists_holds directives tokens lines hnumber
  have hfirst := hholds.first_eq
  omega

theorem directives_ascending (directives tokens : Nat) (lines : List (List Placed)) :
    (ofLines directives tokens lines).directives.Pairwise
      (fun first second => first.stop ≤ second.first) := by
  induction lines generalizing directives tokens with
  | nil => exact .nil
  | cons line rest ih =>
    cases hopens : opensDirective line with
    | true =>
      simp only [ofLines, hopens, if_true]
      exact List.pairwise_cons.mpr ⟨fun other hother => le_first _ _ _ hother, ih _ _⟩
    | false =>
      simp only [ofLines, hopens, Bool.false_eq_true, if_false]
      exact ih _ _

-- What a stream has to say for a text, so that no octet of it is left out.
structure Accounts (text : String) (stream : Stream) : Prop where
  -- the text is its tokens, with gaps before, between and behind them
  laid : Laid 1 0 text.toList stream.tokens
  -- tokens are pieces of the text, cut out between characters
  slice : ∀ token ∈ stream.tokens, token.text ≠ "" ∧ ∃ before behind : String,
    text = before ++ token.text ++ behind ∧ token.offset = before.utf8ByteSize ∧
    token.stop = (before ++ token.text).utf8ByteSize
  line_eq : ∀ token ∈ stream.tokens,
    token.line = 1 + ((Text.Utf8.encode text).take token.offset).count 0x0A
  ascending : stream.tokens.Pairwise (fun first second => first.stop ≤ second.offset)
  -- octets outside of tokens belong to gaps
  gap : ∀ place < text.utf8ByteSize,
    (∀ token ∈ stream.tokens, ¬ (token.offset ≤ place ∧ place < token.stop)) →
    ∃ before gap behind : String, text = before ++ gap ++ behind ∧
      Gap gap.toList behind.toList ∧ before.utf8ByteSize ≤ place ∧
      place < (before ++ gap).utf8ByteSize ∧ ∀ token ∈ stream.tokens,
        token.stop ≤ before.utf8ByteSize ∨ (before ++ gap).utf8ByteSize ≤ token.offset
  -- a preprocessor line holds just the tokens that carry its number, from its `#` on
  within : ∀ (number : Nat) (directive : Directive),
    stream.directives[number]? = some directive →
    directive.first < directive.stop ∧ directive.stop ≤ stream.tokens.length ∧
    (∀ (place : Nat) (token : Token), stream.tokens[place]? = some token →
      (token.directive = some number ↔ directive.first ≤ place ∧ place < directive.stop)) ∧
    ∃ hash, stream.tokens[directive.first]? = some hash ∧ hash.isPunctuation '#' ∧
      directive.line = hash.line
  numbered : ∀ token ∈ stream.tokens, ∀ number, token.directive = some number →
    number < stream.directives.length
  directives_ascending :
    stream.directives.Pairwise (fun first second => first.stop ≤ second.first)

theorem slice_ofText {token : Token} (htoken : token ∈ (ofText text).tokens) :
    token.text ≠ "" ∧ ∃ before behind : String, text = before ++ token.text ++ behind ∧
      token.offset = before.utf8ByteSize ∧ token.line = 1 + before.toList.count '\n' := by
  obtain ⟨hne, before, behind, htext, hoffset, hline⟩ := (laid_ofText text).slice token htoken
  refine ⟨hne, String.ofList before, String.ofList behind, ?_, ?_, ?_⟩
  · rw [← String.toList_inj, htext]
    simp
  · rw [hoffset, Nat.zero_add, ← Placed.octets_toList, String.toList_ofList]
  · rw [hline, String.toList_ofList]

-- Each octet of a text belongs to a token or to a gap, both as pieces of the text.
theorem covered_ofText {place : Nat} (hplace : place < text.utf8ByteSize) :
    (∃ token ∈ (ofText text).tokens, token.offset ≤ place ∧ place < token.stop) ∨
      ∃ before gap behind : String, text = before ++ gap ++ behind ∧
        Gap gap.toList behind.toList ∧ before.utf8ByteSize ≤ place ∧
        place < (before ++ gap).utf8ByteSize ∧ ∀ token ∈ (ofText text).tokens,
          token.stop ≤ before.utf8ByteSize ∨ (before ++ gap).utf8ByteSize ≤ token.offset := by
  have hend : place < 0 + Placed.octets text.toList := by
    rwa [Nat.zero_add, Placed.octets_toList]
  rcases (laid_ofText text).covered (Nat.zero_le place) hend with
    htoken | ⟨start, stop, ⟨before, gap, behind, htext, hgap, rfl, rfl, hapart⟩, hstart, hstop⟩
  · exact .inl htoken
  · have hbefore : (String.ofList before).utf8ByteSize = 0 + Placed.octets before := by
      rw [← Placed.octets_toList, String.toList_ofList, Nat.zero_add]
    have hboth : (String.ofList before ++ String.ofList gap).utf8ByteSize =
        0 + Placed.octets before + Placed.octets gap := by
      rw [String.utf8ByteSize_append, hbefore, ← Placed.octets_toList (String.ofList gap),
        String.toList_ofList]
    refine .inr ⟨String.ofList before, String.ofList gap, String.ofList behind, ?_, ?_, ?_, ?_, ?_⟩
    · rw [← String.toList_inj, htext]
      simp
    · rwa [String.toList_ofList, String.toList_ofList]
    · rwa [hbefore]
    · rwa [hboth]
    · rwa [hbefore, hboth]

theorem ofText_accounts (text : String) : Accounts text (ofText text) where
  laid := laid_ofText text
  slice token htoken := by
    obtain ⟨hne, before, behind, htext, hoffset, _⟩ := slice_ofText htoken
    refine ⟨hne, before, behind, htext, hoffset, ?_⟩
    rw [Token.stop, hoffset, String.utf8ByteSize_append]
  line_eq token htoken := by
    obtain ⟨_, before, behind, htext, hoffset, hline⟩ := slice_ofText htoken
    rw [hline, htext, Text.Utf8.encode_append, Text.Utf8.encode_append, List.append_assoc, hoffset,
      ← Text.Utf8.length_encode, List.take_left, Text.Utf8.count_encode]
  ascending := (laid_ofText text).ascending
  gap place hplace hnone := by
    rcases covered_ofText hplace with ⟨token, htoken, hrange⟩ | hgap
    · exact absurd hrange (hnone token htoken)
    · exact hgap
  within number directive h := by
    obtain ⟨before, inside, behind, hholds⟩ := exists_holds 0 0 _ h
    rw [Nat.zero_add] at hholds
    obtain ⟨hfirst, hstop, hhash⟩ := hholds.range
    exact ⟨hfirst, hstop, fun place token => hholds.directive_iff, hhash⟩
  numbered token htoken number h := by
    have hbounds := number_bounds 0 0 _ htoken h
    rw [Nat.zero_add] at hbounds
    exact hbounds.2
  directives_ascending := directives_ascending 0 0 _

end Stream

end EventFlow.Source
