import EventFlow.Listener.SourceFile
import EventFlow.Proofs.Callable
import Mathlib.Data.List.TakeWhile

namespace EventFlow.Listener.SourceFile

open Source

-- The first argument of the registration that a list of tokens begins with: a registration
-- macro with just two arguments behind it, neither of them empty.
def registered? : List Token → Option (List Token)
  | marker :: behind =>
    match Token.callArguments? behind with
    | some [name, handler] =>
      if marker.isIdentifier ∧ registers marker.text ∧ name ≠ [] ∧ handler ≠ [] then some name
      else none
    | _ => none
  | [] => none

-- The first arguments of all registrations, looked for at each token.
def registeredArguments (code : List Token) : List (List Token) :=
  (List.range code.length).filterMap (fun site => registered? (code.drop site))

-- A preprocessor line that gives the name a nonempty replacement, without arguments.
def redefines (name : String) (directive : Directive) : Bool :=
  directive.definition?.any fun definition =>
    definition.name = name && !definition.takesArguments &&
      definition.body.any (fun c => !Text.isBlank c)

def redefinitions (stream : Stream) (name : String) : Nat :=
  stream.directives.countP (redefines name)

-- One registration, and at most one replacement of the name it registers.
def WellRegistered (stream : Stream) : Prop :=
  match registeredArguments stream.code with
  | [argument] => redefinitions stream (Token.bareText argument) ≤ 1
  | _ => False

instance (stream : Stream) : Decidable (WellRegistered stream) := by
  unfold WellRegistered
  split <;> infer_instance

-- What is wrong with a file that is not well registered. The number of registrations comes
-- first.
inductive Fault (file : String) (stream : Stream) : Error → Prop where
  | count (h : (registeredArguments stream.code).length ≠ 1) :
    Fault file stream (.registrationCount file (registeredArguments stream.code).length)
  | replaced (argument : List Token) (h : registeredArguments stream.code = [argument])
      (hmany : 1 < redefinitions stream (Token.bareText argument)) :
    Fault file stream (.ambiguousName file (Token.bareText argument)
      (redefinitions stream (Token.bareText argument)))

theorem registeredArguments_cons (token : Token) (rest : List Token) :
    registeredArguments (token :: rest) =
      (registered? (token :: rest)).toList ++ registeredArguments rest := by
  simp only [registeredArguments, List.length_cons, List.range_succ_eq_map, List.filterMap_cons,
    List.filterMap_map, Function.comp_def, List.drop_succ_cons, List.drop_zero]
  cases registered? (token :: rest) with
  | none => rfl
  | some argument => rfl

theorem registrations_cons (token : Token) (rest : List Token) :
    registrations (token :: rest) =
      ((registered? (token :: rest)).map Token.bareText).toList ++ registrations rest := by
  rw [registrations]
  simp only [registered?]
  rcases Token.callArguments? rest with _ | _ | ⟨name, _ | ⟨handler, _ | ⟨third, more⟩⟩⟩
  · simp
  · simp
  · simp
  · by_cases hmarker : token.isIdentifier ∧ registers token.text
    · by_cases hboth : name ≠ [] ∧ handler ≠ []
      · simp [hmarker, hboth]
      · simp [hmarker, hboth]
    · have hnone : ¬ (token.isIdentifier ∧ registers token.text ∧ name ≠ [] ∧ handler ≠ []) :=
        fun h => hmarker ⟨h.1, h.2.1⟩
      simp only [if_neg hmarker, if_neg hnone]
      rfl
  · simp

theorem registrations_eq (code : List Token) :
    registrations code = (registeredArguments code).map Token.bareText := by
  induction code with
  | nil => rfl
  | cons token rest ih =>
    rw [registeredArguments_cons, registrations_cons, ih, List.map_append]
    cases registered? (token :: rest) with
    | none => rfl
    | some argument => rfl

theorem stripBlanks_eq_nil_iff {text : List Char} :
    Text.stripBlanks text = [] ↔ ∀ c ∈ text, Text.isBlank c := by
  rw [Text.stripBlanks, Text.dropBlankEnd, List.reverse_eq_nil_iff, List.dropWhile_eq_nil_iff]
  simp only [List.mem_reverse, Text.dropBlankStart]
  constructor
  · intro h c hc
    rw [← List.takeWhile_append_dropWhile (p := Text.isBlank) (l := text)] at hc
    cases List.mem_append.mp hc with
    | inl htake => exact List.mem_takeWhile_imp htake
    | inr hdrop => exact h c hdrop
  · intro h c hc
    exact h c (List.dropWhile_subset _ hc)

-- The texts that preprocessor lines give for a name.
def replacements (stream : Stream) (name : String) : List (List Char) :=
  (stream.directives.filterMap Directive.definition?).filterMap fun definition =>
    if definition.name = name then definition.replacement? else none

theorem length_replacements (stream : Stream) (name : String) :
    (replacements stream name).length = redefinitions stream name := by
  rw [replacements, List.filterMap_filterMap, List.length_filterMap_eq_countP, redefinitions]
  refine List.countP_congr fun directive _ => ?_
  unfold redefines
  cases directive.definition? with
  | none => simp
  | some definition =>
    have hblank := @stripBlanks_eq_nil_iff definition.body
    by_cases hname : definition.name = name
    · cases harguments : definition.takesArguments with
      | true => simp [hname, harguments, Directive.Definition.replacement?]
      | false =>
        cases hbody : Text.stripBlanks definition.body with
        | nil =>
          have hall := hblank.mp hbody
          simpa [hname, harguments, Directive.Definition.replacement?, hbody] using hall
        | cons c more =>
          have hsome : ¬ ∀ c ∈ definition.body, Text.isBlank c := by
            rw [← hblank, hbody]
            exact List.cons_ne_nil c more
          simpa [hname, harguments, Directive.Definition.replacement?, hbody] using hsome
    · simp [hname]

theorem resolve_eq (file name : String) (stream : Stream) :
    resolve file stream name =
      match replacements stream name with
      | [] => .ok name
      | [replacement] => .ok (String.ofList (Text.lastWord replacement))
      | several => .error (.ambiguousName file name several.length) := rfl

theorem resolve_eq_ok {file name : String} {stream : Stream}
    (h : redefinitions stream name ≤ 1) : ∃ resolved, resolve file stream name = .ok resolved := by
  rw [← length_replacements] at h
  rw [resolve_eq]
  generalize replacements stream name = texts at h
  rcases texts with _ | ⟨replacement, _ | ⟨second, more⟩⟩
  · exact ⟨name, rfl⟩
  · exact ⟨_, rfl⟩
  · simp at h

theorem resolve_eq_error {file name : String} {stream : Stream}
    (h : 1 < redefinitions stream name) :
    resolve file stream name = .error (.ambiguousName file name (redefinitions stream name)) := by
  rw [← length_replacements] at h ⊢
  rw [resolve_eq]
  generalize replacements stream name = texts at h ⊢
  rcases texts with _ | ⟨replacement, _ | ⟨second, more⟩⟩
  · simp at h
  · simp at h
  · rfl

theorem ofStream?_of_not_candidate {suffix file : String} {stream : Stream}
    (h : isCandidate stream = false) : ofStream? suffix file stream = .ok none := by
  rw [ofStream?, h]
  rfl

theorem ofStream?_eq_ok {suffix file : String} {stream : Stream}
    (hcandidate : isCandidate stream) (h : WellRegistered stream) :
    ∃ source, ofStream? suffix file stream = .ok (some source) := by
  unfold WellRegistered at h
  split at h
  · rename_i argument hargument
    obtain ⟨resolved, hresolved⟩ := @resolve_eq_ok file _ _ h
    rw [ofStream?, if_pos hcandidate, registrations_eq, hargument, List.map_singleton]
    simp only [hresolved]
    exact ⟨_, rfl⟩
  · exact h.elim

theorem ofStream?_eq_error {suffix file : String} {stream : Stream}
    (hcandidate : isCandidate stream) (h : ¬ WellRegistered stream) :
    ∃ error, Fault file stream error ∧ ofStream? suffix file stream = .error error := by
  unfold WellRegistered at h
  by_cases hcount : (registeredArguments stream.code).length = 1
  · obtain ⟨argument, hargument⟩ := List.length_eq_one_iff.mp hcount
    rw [hargument] at h
    have hmany := Nat.lt_of_not_le h
    refine ⟨_, .replaced argument hargument hmany, ?_⟩
    rw [ofStream?, if_pos hcandidate, registrations_eq, hargument, List.map_singleton]
    simp only [resolve_eq_error hmany]
    rfl
  · refine ⟨_, .count hcount, ?_⟩
    rw [ofStream?, if_pos hcandidate, registrations_eq]
    rcases hfound : registeredArguments stream.code with _ | ⟨argument, _ | ⟨second, more⟩⟩
    · rfl
    · rw [hfound] at hcount
      exact absurd rfl hcount
    · simp

theorem fault_of_ofStream? {suffix file : String} {stream : Stream} {error : Error}
    (h : ofStream? suffix file stream = .error error) : Fault file stream error := by
  cases hcandidate : isCandidate stream with
  | false =>
    rw [ofStream?_of_not_candidate hcandidate] at h
    cases h
  | true =>
    by_cases hregistered : WellRegistered stream
    · obtain ⟨source, hok⟩ := @ofStream?_eq_ok suffix file _ hcandidate hregistered
      rw [hok] at h
      cases h
    · obtain ⟨other, hfault, herror⟩ := @ofStream?_eq_error suffix file _ hcandidate hregistered
      rw [herror] at h
      cases h
      exact hfault

-- A parenthesis stands right behind the name, on the same preprocessor line or both in the code.
def CalledIn (tokens : List Token) (name : String) : Prop :=
  ∃ before called opening behind, tokens = before ++ called :: opening :: behind ∧
    called.isIdentifier ∧ called.text = name ∧ opening.isPunctuation '(' ∧
    opening.directive = called.directive

theorem calledIn_cons {token next : Token} {rest : List Token} {name : String} :
    CalledIn (token :: next :: rest) name ↔
      (token.isIdentifier ∧ token.text = name ∧ next.isPunctuation '(' ∧
        next.directive = token.directive) ∨ CalledIn (next :: rest) name := by
  constructor
  · rintro ⟨before, called, opening, behind, heq, h⟩
    obtain ⟨rfl, hcalled⟩ | ⟨before, rfl, hrest⟩ := List.cons_eq_append_iff.mp heq
    · cases hcalled
      exact .inl h
    · exact .inr ⟨before, called, opening, behind, hrest, h⟩
  · rintro (h | ⟨before, called, opening, behind, heq, h⟩)
    · exact ⟨[], token, next, rest, rfl, h⟩
    · exact ⟨token :: before, called, opening, behind, congrArg (token :: ·) heq, h⟩

theorem mem_calledNames {tokens : List Token} {name : String} :
    name ∈ calledNames tokens ↔ CalledIn tokens name := by
  fun_induction calledNames tokens with
  | case1 token next rest h ih =>
    rw [List.mem_cons, ih, calledIn_cons]
    refine or_congr_left ⟨?_, fun hfirst => hfirst.2.1.symm⟩
    rintro rfl
    exact ⟨h.1, rfl, h.2⟩
  | case2 token next rest h ih =>
    rw [ih, calledIn_cons]
    exact (or_iff_right fun hfirst => h ⟨hfirst.1, hfirst.2.2⟩).symm
  | case3 tokens hshort =>
    refine iff_of_false List.not_mem_nil ?_
    rintro ⟨before, called, opening, behind, rfl, -⟩
    cases before with
    | nil => exact hshort _ _ _ rfl
    | cons first before => cases before <;> exact hshort _ _ _ rfl

-- What a file says of the events that it creates and of what it invokes.
structure ReadFrom (source : SourceFile) (stream : Stream) : Prop where
  mem_created : ∀ event, event ∈ source.created ↔ Event.NamedIn stream.tokens event
  mem_calls : ∀ name, name ∈ source.calls ↔ CalledIn stream.tokens name
  mem_mentions : ∀ name, name ∈ source.mentions ↔
    ∃ token ∈ stream.tokens, token.isIdentifier ∧ token.text = name

theorem readFrom_of_ofStream? {suffix file : String} {stream : Stream} {source : SourceFile}
    (h : ofStream? suffix file stream = .ok (some source)) :
    source.file = file ∧ source.ReadFrom stream := by
  unfold ofStream? at h
  split at h
  · split at h
    · rename_i registered _
      cases hresolve : resolve file stream registered with
      | error error =>
        rw [hresolve] at h
        cases h
      | ok name =>
        rw [hresolve] at h
        cases h
        refine ⟨rfl, fun _ => Event.mem_createdIn, fun name => ?_, fun name => ?_⟩
        · rw [NameSet.mem_ofList, mem_calledNames]
        · simp [Stream.identifiers, and_assoc]
    · cases h
  · cases h

theorem file_of_ofStream? {suffix file : String} {stream : Stream} {source : SourceFile}
    (h : ofStream? suffix file stream = .ok (some source)) : source.file = file :=
  (readFrom_of_ofStream? h).1

end EventFlow.Listener.SourceFile
