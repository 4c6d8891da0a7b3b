import EventFlow.Proofs.Callable
import EventFlow.Proofs.Listener.Registration
import Mathlib.Data.List.Basic

namespace EventFlow

open Source

namespace Source

-- A token without its place in the text. Only the preprocessor line is kept.
def Token.unplaced (token : Token) : Token := { token with line := 0, offset := 0 }

namespace Token

@[simp] theorem text_unplaced (token : Token) : token.unplaced.text = token.text := rfl

@[simp] theorem isIdentifier_unplaced (token : Token) :
    token.unplaced.isIdentifier = token.isIdentifier := rfl

@[simp] theorem isPunctuation_unplaced (token : Token) (c : Char) :
    token.unplaced.isPunctuation c = token.isPunctuation c := rfl

end Token

namespace Bracket

@[simp] theorem opens_unplaced (bracket : Bracket) (token : Token) :
    bracket.opens token.unplaced = bracket.opens token := rfl

@[simp] theorem closes_unplaced (bracket : Bracket) (token : Token) :
    bracket.closes token.unplaced = bracket.closes token := rfl

theorem untilClose_unplaced (bracket : Bracket) (depth : Nat) (tokens : List Token) :
    bracket.untilClose depth (tokens.map Token.unplaced) = bracket.untilClose depth tokens := by
  induction tokens generalizing depth with
  | nil => rfl
  | cons token rest ih =>
    simp only [List.map_cons, untilClose, opens_unplaced, closes_unplaced, ih]

end Bracket

namespace Token

theorem group?_unplaced (bracket : Bracket) (tokens : List Token) :
    group? bracket (tokens.map unplaced) =
      (group? bracket tokens).map fun (inside, behind) =>
        (inside.map unplaced, behind.map unplaced) := by
  cases tokens with
  | nil => rfl
  | cons token rest =>
    simp only [List.map_cons, group?, Bracket.opens_unplaced, Bracket.untilClose_unplaced]
    split
    · simp only [Option.map_map, Function.comp_def, List.map_take, List.map_drop]
    · rfl

theorem splitAtCommas_unplaced (depth : Nat) (tokens : List Token) :
    splitAtCommas depth (tokens.map unplaced) =
      (splitAtCommas depth tokens).map (List.map unplaced) := by
  induction tokens generalizing depth with
  | nil => rfl
  | cons token rest ih =>
    have hdepth : depthAfter depth token.unplaced = depthAfter depth token := rfl
    simp only [List.map_cons, splitAtCommas, isPunctuation_unplaced, hdepth, ih]
    split
    · simp only [List.map_cons, List.map_nil]
    · cases splitAtCommas (depthAfter depth token) rest with
      | nil => rfl
      | cons argument more => rfl

theorem callArguments?_unplaced (behind : List Token) :
    callArguments? (behind.map unplaced) =
      (callArguments? behind).map (List.map (List.map unplaced)) := by
  rw [callArguments?, group?_unplaced, callArguments?, Option.map_map, Option.map_map]
  refine congrArg (fun f => (group? .round behind).map f) (funext fun group => ?_)
  simp only [Function.comp_apply]
  cases group.1 with
  | nil => rfl
  | cons token rest => exact splitAtCommas_unplaced 0 (token :: rest)

@[simp] theorem bareText_unplaced (argument : List Token) :
    bareText (argument.map unplaced) = bareText argument := by
  simp only [bareText, List.filter_map, List.map_map, Function.comp_def, isPunctuation_unplaced,
    text_unplaced]

end Token

def Placed.bare (lexeme : Lexeme) : Placed := ⟨lexeme, 0, 0⟩

def Placed.unplaced (placed : Placed) : Placed := bare placed.lexeme

namespace Placed

theorem map_unplaced_ofLexemes (line offset : Nat) (lexemes : List Lexeme) :
    (ofLexemes line offset lexemes).map unplaced = lexemes.map bare := by
  induction lexemes generalizing line offset with
  | nil => rfl
  | cons lexeme rest ih =>
    rw [ofLexemes, List.map_cons, ih]
    rfl

theorem lines_map (change : Placed → Placed)
    (h : ∀ placed, (change placed).lexeme.kind = .newline ↔ placed.lexeme.kind = .newline)
    (placed : List Placed) : lines (placed.map change) = (lines placed).map (List.map change) := by
  induction placed with
  | nil => rfl
  | cons head tail ih =>
    simp only [List.map_cons, lines, ih, h]
    split
    · rfl
    · cases lines tail with
      | nil => rfl
      | cons line rest => rfl

theorem lines_unplaced (placed : List Placed) :
    lines (placed.map unplaced) = (lines placed).map (List.map unplaced) :=
  lines_map unplaced (fun _ => Iff.rfl) placed

theorem token?_unplaced (directive : Option Nat) (placed : Placed) :
    token? directive placed.unplaced = (token? directive placed).map Token.unplaced := by
  rw [token?, token?, Option.map_map]
  rfl

theorem tokens_map {change : Placed → Placed} {f : Token → Token} {tag other : Option Nat}
    (h : ∀ placed, token? other (change placed) = (token? tag placed).map f) (line : List Placed) :
    (line.map change).filterMap (token? other) = (line.filterMap (token? tag)).map f := by
  rw [List.filterMap_map, List.map_filterMap]
  exact List.filterMap_congr fun placed _ => h placed

theorem tokens_unplaced (directive : Option Nat) (line : List Placed) :
    (line.map unplaced).filterMap (token? directive) =
      (line.filterMap (token? directive)).map Token.unplaced :=
  tokens_map (token?_unplaced directive) line

end Placed

def Directive.unplaced (directive : Directive) : Directive := { directive with line := 0 }

@[simp] theorem Directive.definition?_unplaced (directive : Directive) :
    directive.unplaced.definition? = directive.definition? := rfl

@[simp] theorem Directive.includeTarget?_unplaced (directive : Directive) :
    directive.unplaced.includeTarget? = directive.includeTarget? := rfl

namespace Stream

-- What a text says, wherever in it the words stand.
def unplaced (stream : Stream) : Stream :=
  ⟨stream.tokens.map Token.unplaced, stream.directives.map Directive.unplaced⟩

theorem code_unplaced (stream : Stream) :
    stream.unplaced.code = stream.code.map Token.unplaced := by
  rw [code, unplaced, List.filter_map]
  rfl

theorem identifiers_unplaced (stream : Stream) :
    stream.unplaced.identifiers = stream.identifiers := by
  simp only [identifiers, unplaced, List.filter_map, List.map_map, Function.comp_def,
    Token.isIdentifier_unplaced, Token.text_unplaced]

theorem within_unplaced (stream : Stream) (directive : Directive) :
    stream.unplaced.within directive.unplaced = (stream.within directive).map Token.unplaced := by
  simp only [within, unplaced, Directive.unplaced, List.map_drop, List.map_take]

theorem filterMap_directives_unplaced {α : Type} (stream : Stream) {f : Directive → Option α}
    (h : ∀ directive, f directive.unplaced = f directive) :
    stream.unplaced.directives.filterMap f = stream.directives.filterMap f := by
  rw [unplaced, List.filterMap_map]
  exact List.filterMap_congr fun directive _ => h directive

-- A change of the words of a text that keeps its preprocessor lines what they are, and what it
-- makes of tokens and directives. `directives` and `tokens` more of them stand before the text.
structure Keeps (change : Placed → Placed) (f : Token → Token) (g : Directive → Directive)
    (directives tokens : Nat) : Prop where
  token?_eq : ∀ tag placed, Placed.token? (tag.map (· + directives)) (change placed) =
    (Placed.token? tag placed).map f
  isPunctuation_eq : ∀ token c, (f token).isPunctuation c = token.isPunctuation c
  directiveOf_eq : ∀ line first, opensDirective line →
    directiveOf (line.map change) (first + tokens) = g (directiveOf line first)

theorem Keeps.ofLines_map {change : Placed → Placed} {f : Token → Token}
    {g : Directive → Directive} {moreDirectives moreTokens : Nat}
    (h : Keeps change f g moreDirectives moreTokens) (directives tokens : Nat)
    (lines : List (List Placed)) :
    ofLines (directives + moreDirectives) (tokens + moreTokens) (lines.map (List.map change)) =
      ⟨(ofLines directives tokens lines).tokens.map f,
        (ofLines directives tokens lines).directives.map g⟩ := by
  have hnone : ∀ line : List Placed, (line.map change).filterMap (Placed.token? none) =
      (line.filterMap (Placed.token? none)).map f := Placed.tokens_map (h.token?_eq none)
  have hsome : ∀ number (line : List Placed),
      (line.map change).filterMap (Placed.token? (some (number + moreDirectives))) =
        (line.filterMap (Placed.token? (some number))).map f :=
    fun number => Placed.tokens_map (h.token?_eq (some number))
  have hopens : ∀ line, opensDirective (line.map change) = opensDirective line := by
    intro line
    rw [opensDirective, hnone, opensDirective]
    cases line.filterMap (Placed.token? none) with
    | nil => rfl
    | cons token rest => exact h.isPunctuation_eq token '#'
  induction lines generalizing directives tokens with
  | nil => rfl
  | cons line rest ih =>
    have hrest := fun number =>
      ih number (tokens + (line.filterMap (Placed.token? none)).length)
    rw [Nat.add_right_comm] at hrest
    cases hline : opensDirective line with
    | true =>
      have hnext := hrest (directives + 1)
      rw [Nat.add_right_comm directives] at hnext
      simp only [List.map_cons, ofLines, hopens, hline, if_true, hnone, hsome, List.length_map,
        hnext, h.directiveOf_eq line tokens hline, List.map_append]
    | false =>
      simp only [List.map_cons, ofLines, hopens, hline, Bool.false_eq_true, if_false, hnone,
        List.length_map, hrest, List.map_append]

theorem directiveOf_unplaced (line : List Placed) (first : Nat) :
    directiveOf (line.map Placed.unplaced) first = (directiveOf line first).unplaced := by
  have htext : Directive.textOf (line.map Placed.unplaced) = Directive.textOf line := by
    rw [Directive.textOf, List.map_map]
    rfl
  simp only [directiveOf, htext, Placed.tokens_unplaced, List.length_map]
  cases line.filterMap (Placed.token? none) with
  | nil => rfl
  | cons token rest => rfl

theorem keeps_unplaced : Keeps Placed.unplaced Token.unplaced Directive.unplaced 0 0 where
  token?_eq tag placed := by
    have htag : tag.map (· + 0) = tag := Option.map_id_apply
    rw [htag]
    exact Placed.token?_unplaced tag placed
  isPunctuation_eq := Token.isPunctuation_unplaced
  directiveOf_eq line first _ := directiveOf_unplaced line first

theorem ofLines_unplaced (directives tokens : Nat) (lines : List (List Placed)) :
    ofLines directives tokens (lines.map (List.map Placed.unplaced)) =
      (ofLines directives tokens lines).unplaced :=
  keeps_unplaced.ofLines_map directives tokens lines

-- What a text says depends on its lexemes only.
theorem ofText_unplaced (text : String) :
    (ofText text).unplaced =
      ofLines 0 0 (Placed.lines ((Lexeme.scan text.toList).map Placed.bare)) := by
  rw [ofText, ← ofLines_unplaced, ← Placed.lines_unplaced, Placed.map_unplaced_ofLexemes]

end Stream

end Source

theorem Event.createdIn_unplaced (tokens : List Token) :
    createdIn (tokens.map Token.unplaced) = createdIn tokens := by
  simp only [createdIn, List.filter_map, List.filterMap_map, Function.comp_def,
    Token.isIdentifier_unplaced, Token.text_unplaced]

namespace Callable

def Definition.unplaced (definition : Definition) : Definition := { definition with line := 0 }

def Before.unplaced (before : Before) : Before :=
  ⟨before.last.map Token.unplaced, before.beforeLast.map Token.unplaced⟩

theorem opensLinkage_unplaced (before : Before) :
    before.unplaced.opensLinkage = before.opensLinkage := by
  rcases before with ⟨_ | last, _ | beforeLast⟩
  · rfl
  · rfl
  · rfl
  · rfl

theorem parametersAndBody?_unplaced (tokens : List Token) :
    parametersAndBody? (tokens.map Token.unplaced) =
      (parametersAndBody? tokens).map fun (body, behind) =>
        (body.map Token.unplaced, behind.map Token.unplaced) := by
  simp only [parametersAndBody?, Token.group?_unplaced, Option.bind_map, Option.map_bind,
    Function.comp_def]

theorem functions_unplaced (braces : List Bool) (before : Before) (tokens : List Token) :
    functions braces before.unplaced (tokens.map Token.unplaced) =
      (functions braces before tokens).map Definition.unplaced := by
  fun_induction functions braces before tokens with
  | case1 => rw [List.map_nil, functions, List.map_nil]
  | case2 braces before token rest next hopens ih =>
    have hopens : token.unplaced.isPunctuation '{' := hopens
    rw [List.map_cons, functions_opening hopens, opensLinkage_unplaced]
    exact ih
  | case3 braces before token rest next hopens hcloses ih =>
    have hcloses : token.unplaced.isPunctuation '}' := hcloses
    rw [List.map_cons, functions_closing hcloses]
    exact ih
  | case4 braces before token rest hopens hcloses hname body behind hbody hlength ih =>
    have hidentifier : token.unplaced.isIdentifier := hname.1
    have hbody : parametersAndBody? (rest.map Token.unplaced) =
        some (body.map Token.unplaced, behind.map Token.unplaced) := by
      rw [parametersAndBody?_unplaced, hbody]
      rfl
    rw [List.map_cons, functions_defining hidentifier hname.2.1 hname.2.2 hbody, List.map_cons,
      ← ih, Event.createdIn_unplaced]
    rfl
  | case5 braces before token rest next hopens hcloses hname hbody ih =>
    have hopens : ¬ token.unplaced.isPunctuation '{' := hopens
    have hnone : parametersAndBody? (rest.map Token.unplaced) = none := by
      rw [parametersAndBody?_unplaced, hbody]
      rfl
    rw [List.map_cons, functions_passing hopens hcloses fun _ => hnone]
    exact ih
  | case6 braces before token rest next hopens hcloses hname ih =>
    have hopens : ¬ token.unplaced.isPunctuation '{' := hopens
    rw [List.map_cons, functions_passing hopens hcloses fun h => absurd h hname]
    exact ih

theorem macroOf?_unplaced (stream : Stream) (directive : Directive) :
    macroOf? stream.unplaced directive.unplaced =
      (macroOf? stream directive).map Definition.unplaced := by
  simp only [macroOf?, Directive.definition?_unplaced, Stream.within_unplaced, ← List.map_drop,
    Event.createdIn_unplaced, Option.map_map]
  rfl

theorem definitions_unplaced (stream : Stream) :
    definitions stream.unplaced = (definitions stream).map Definition.unplaced := by
  have hmacros : stream.unplaced.directives.filterMap (macroOf? stream.unplaced) =
      (stream.directives.filterMap (macroOf? stream)).map Definition.unplaced := by
    rw [Stream.unplaced, List.filterMap_map, List.map_filterMap]
    exact List.filterMap_congr fun directive _ => macroOf?_unplaced stream directive
  have hfunctions : functions [] ⟨none, none⟩ stream.unplaced.code =
      (functions [] ⟨none, none⟩ stream.code).map Definition.unplaced := by
    rw [Stream.code_unplaced]
    exact functions_unplaced [] ⟨none, none⟩ stream.code
  rw [definitions, hmacros, hfunctions, ← List.map_append, List.filter_map]
  rfl

end Callable

namespace Listener.SourceFile

theorem registered?_unplaced (tokens : List Token) :
    registered? (tokens.map Token.unplaced) =
      (registered? tokens).map (List.map Token.unplaced) := by
  cases tokens with
  | nil => rfl
  | cons marker behind =>
    simp only [List.map_cons, registered?, Token.callArguments?_unplaced]
    rcases Token.callArguments? behind with _ | _ | ⟨name, _ | ⟨handler, _ | ⟨third, more⟩⟩⟩
    · rfl
    · rfl
    · rfl
    · simp
    · rfl

theorem registrations_unplaced (tokens : List Token) :
    registrations (tokens.map Token.unplaced) = registrations tokens := by
  induction tokens with
  | nil => rfl
  | cons token rest ih =>
    rw [registrations_cons, ← ih, List.map_cons, registrations_cons, ← List.map_cons,
      registered?_unplaced, Option.map_map]
    simp only [Function.comp_def, Token.bareText_unplaced]

theorem subscriptions_unplaced (tokens : List Token) :
    subscriptions (tokens.map Token.unplaced) = subscriptions tokens := by
  induction tokens with
  | nil => rfl
  | cons token rest ih =>
    have hevent : (((Token.callArguments? (rest.map Token.unplaced)).bind List.getLast?).map
        Token.bareText) = ((Token.callArguments? rest).bind List.getLast?).map Token.bareText := by
      rw [Token.callArguments?_unplaced]
      cases Token.callArguments? rest with
      | none => rfl
      | some arguments =>
        simp only [Option.map_some, Option.bind_some, List.getLast?_map, Option.map_map,
          Function.comp_def, Token.bareText_unplaced]
    simp only [List.map_cons, subscriptions, ih, hevent]
    rfl

theorem calledNames_unplaced (tokens : List Token) :
    calledNames (tokens.map Token.unplaced) = calledNames tokens := by
  induction tokens with
  | nil => rfl
  | cons token rest ih =>
    cases rest with
    | nil => rfl
    | cons next rest =>
      simp only [List.map_cons] at ih
      simp only [List.map_cons, calledNames, ih]
      rfl

theorem isCandidate_unplaced (stream : Stream) :
    isCandidate stream.unplaced = isCandidate stream := by
  rw [isCandidate, Stream.identifiers_unplaced, isCandidate]

theorem resolve_unplaced (file : String) (stream : Stream) (name : String) :
    resolve file stream.unplaced name = resolve file stream name := by
  rw [resolve, Stream.filterMap_directives_unplaced stream Directive.definition?_unplaced, resolve]

theorem ofStream?_unplaced (suffix file : String) (stream : Stream) :
    ofStream? suffix file stream.unplaced = ofStream? suffix file stream := by
  simp only [ofStream?, isCandidate_unplaced, resolve_unplaced, Stream.code_unplaced,
    registrations_unplaced, subscriptions_unplaced, Stream.identifiers_unplaced,
    Stream.filterMap_directives_unplaced stream Directive.includeTarget?_unplaced]
  simp only [Stream.unplaced, Event.createdIn_unplaced, calledNames_unplaced]

end Listener.SourceFile

end EventFlow
