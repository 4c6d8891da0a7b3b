import EventFlow.Proofs.Callable
import EventFlow.Proofs.Source.Nesting

namespace EventFlow.Callable

open Source

-- Whether a brace behind these tokens opens a linkage block. Then a string literal stands right
-- before it, and `extern` before that.
def endsInLinkage (before : List Token) : Bool :=
  before.getLast?.any (fun token => token.kind = .string) &&
    before.dropLast.getLast?.any (fun token => token.isWord "extern")

-- The braces around the place between `done` and `rest` are all those of linkage blocks.
def AtFileScope (done rest : List Token) : Prop :=
  ∀ before, Bracket.curly.Encloses before done rest → endsInLinkage before

-- No brace is opened in parentheses at file scope.
def PlainParentheses (tokens : List Token) : Prop :=
  ∀ before group behind, tokens = before ++ (group ++ behind) → Bracket.round.IsGroup group →
    AtFileScope before (group ++ behind) → ∀ token ∈ group, ¬ Bracket.curly.opens token

-- A function where it stands in a file. The parameters and the body come with their brackets.
structure Site where
  before : List Token
  name : Token
  parameters : List Token
  body : List Token
  behind : List Token

namespace Site

def tokens (site : Site) : List Token :=
  site.before ++ site.name :: (site.parameters ++ (site.body ++ site.behind))

-- The numbers of the first token of the body and of the first one behind it.
def first (site : Site) : Nat := site.before.length + 1 + site.parameters.length

def stop (site : Site) : Nat := site.first + site.body.length

def Covers (site : Site) (place : Nat) : Prop := site.first ≤ place ∧ place < site.stop

-- What the language takes for the definition of a function.
structure Defines (site : Site) : Prop where
  isIdentifier : site.name.isIdentifier
  notMem_otherWords : site.name.text ∉ otherWords
  scope : AtFileScope site.before (site.name :: (site.parameters ++ (site.body ++ site.behind)))
  parameters : Bracket.round.IsGroup site.parameters
  body : Bracket.curly.IsGroup site.body

-- What is reported of a function: the events of the identifiers in its body, and no others.
structure Reads (site : Site) (definition : Definition) : Prop where
  name : definition.name = site.name.text
  kind : definition.kind = .function
  line : definition.line = site.name.line
  emits (event : String) : event ∈ definition.emits ↔ Event.NamedIn site.body event

end Site

-- The search as a relation. `done` holds the tokens that lie behind.
inductive Finds : List Bool → Before → List Token → List Token → List Site → Prop where
  | nil {braces : List Bool} {before : Before} {done : List Token} : Finds braces before done [] []
  | opening {braces : List Bool} {before : Before} {done rest : List Token} {token : Token}
      {found : List Site} (htoken : Bracket.curly.opens token)
      (hfound : Finds (before.opensLinkage :: braces) ⟨some token, before.last⟩ (done ++ [token])
        rest found) : Finds braces before done (token :: rest) found
  | closing {braces : List Bool} {before : Before} {done rest : List Token} {token : Token}
      {found : List Site} (htoken : Bracket.curly.closes token)
      (hfound : Finds braces.tail ⟨some token, before.last⟩ (done ++ [token]) rest found) :
      Finds braces before done (token :: rest) found
  -- the search goes on behind the body
  | defining {braces : List Bool} {before : Before} {done parameters body behind : List Token}
      {arguments inside : List Token} {token : Token} {found : List Site}
      (hname : token.isIdentifier) (hbraces : braces.all id) (hword : token.text ∉ otherWords)
      (hparameters : Token.group? .round (parameters ++ (body ++ behind)) =
        some (arguments, body ++ behind))
      (hbody : Token.group? .curly (body ++ behind) = some (inside, behind))
      (hfound : Finds braces ⟨none, none⟩ (done ++ token :: (parameters ++ body)) behind found) :
      Finds braces before done (token :: (parameters ++ (body ++ behind)))
        (⟨done, token, parameters, body, behind⟩ :: found)
  | passing {braces : List Bool} {before : Before} {done rest : List Token} {token : Token}
      {found : List Site} (hopens : ¬ Bracket.curly.opens token)
      (hcloses : ¬ Bracket.curly.closes token)
      (htoken : token.isIdentifier ∧ braces.all id ∧ token.text ∉ otherWords →
        parametersAndBody? rest = none)
      (hfound : Finds braces ⟨some token, before.last⟩ (done ++ [token]) rest found) :
      Finds braces before done (token :: rest) found

theorem Site.reads {done parameters body behind inside : List Token} {token : Token}
    (hbody : Token.group? .curly (body ++ behind) = some (inside, behind)) :
    Reads ⟨done, token, parameters, body, behind⟩
      ⟨token.text, .function, Event.createdIn inside, token.line⟩ where
  name := rfl
  kind := rfl
  line := rfl
  emits event := by
    obtain ⟨opening, closing, hopens, hcloses, heq⟩ := Token.exists_brackets hbody
    obtain rfl := List.append_cancel_right heq
    have hfirst : ¬ opening.isIdentifier := fun h => not_isPunctuation_of_isIdentifier h _ hopens
    have hlast : ¬ closing.isIdentifier := fun h => not_isPunctuation_of_isIdentifier h _ hcloses
    simp [Event.mem_createdIn, Event.NamedIn, hfirst, hlast, or_and_right, exists_or]

-- Every search is told by the relation, with the sites of the definitions that it reports.
theorem exists_finds (braces : List Bool) (before : Before) (tokens : List Token) :
    ∀ done, ∃ found, Finds braces before done tokens found ∧
      List.Forall₂ Site.Reads found (functions braces before tokens) := by
  fun_induction functions braces before tokens with
  | case1 braces before => exact fun done => ⟨[], .nil, .nil⟩
  | case2 braces before token rest next hopens ih =>
    intro done
    obtain ⟨found, hfound, hreads⟩ := ih (done ++ [token])
    exact ⟨found, .opening hopens hfound, hreads⟩
  | case3 braces before token rest next hopens hcloses ih =>
    intro done
    obtain ⟨found, hfound, hreads⟩ := ih (done ++ [token])
    exact ⟨found, .closing hcloses hfound, hreads⟩
  | case4 braces before token rest hopens hcloses hname inside behind hbody hlength ih =>
    intro done
    obtain ⟨⟨arguments, middle⟩, hparameters, hbody⟩ := Option.bind_eq_some_iff.mp hbody
    dsimp only at hbody
    obtain ⟨first, last, -, -, heq⟩ := Token.exists_brackets hparameters
    obtain ⟨opening, closing, -, -, hmiddle⟩ := Token.exists_brackets hbody
    rw [heq, hmiddle] at hparameters
    rw [hmiddle] at hbody
    obtain ⟨found, hfound, hreads⟩ := ih (done ++ token :: (first :: (arguments ++ [last]) ++
      opening :: (inside ++ [closing])))
    rw [heq, hmiddle]
    exact ⟨_, .defining hname.1 hname.2.1 hname.2.2 hparameters hbody hfound,
      .cons (Site.reads hbody) hreads⟩
  | case5 braces before token rest next hopens hcloses hname hbody ih =>
    intro done
    obtain ⟨found, hfound, hreads⟩ := ih (done ++ [token])
    exact ⟨found, .passing hopens hcloses (fun _ => hbody) hfound, hreads⟩
  | case6 braces before token rest next hopens hcloses hname ih =>
    intro done
    obtain ⟨found, hfound, hreads⟩ := ih (done ++ [token])
    exact ⟨found, .passing hopens hcloses (fun h => absurd h hname) hfound, hreads⟩

namespace Finds

variable {braces : List Bool} {before : Before} {done rest : List Token} {found : List Site}

theorem tokens_eq (h : Finds braces before done rest found) :
    ∀ site ∈ found, site.tokens = done ++ rest ∧ done.length ≤ site.before.length := by
  induction h with
  | nil => simp
  | opening _ _ ih | closing _ _ ih | passing _ _ _ _ ih =>
    intro site hsite
    obtain ⟨heq, hle⟩ := ih site hsite
    rw [List.length_append] at hle
    exact ⟨by simpa using heq, by omega⟩
  | defining _ _ _ _ _ _ ih =>
    intro site hsite
    rcases List.mem_cons.mp hsite with rfl | hsite
    · exact ⟨rfl, Nat.le_refl _⟩
    · obtain ⟨heq, hle⟩ := ih site hsite
      rw [List.length_append] at hle
      exact ⟨by simpa using heq, by omega⟩

-- A function ends before the name of the next one.
theorem pairwise_stop_le (h : Finds braces before done rest found) :
    found.Pairwise fun a b => a.stop ≤ b.before.length := by
  induction h with
  | nil => exact .nil
  | opening _ _ ih | closing _ _ ih | passing _ _ _ _ ih => exact ih
  | defining _ _ _ _ _ hfound ih =>
    refine .cons (fun site hsite => ?_) ih
    have hle := (hfound.tokens_eq site hsite).2
    simp only [List.length_append, List.length_cons] at hle
    simp only [Site.stop, Site.first]
    omega

end Finds

-- The braces that are open behind some tokens when none of them is passed over.
def openBraces (braces : List Bool) (done : List Token) : List Token → List Bool
  | [] => braces
  | token :: rest =>
    openBraces
      (if Bracket.curly.opens token then endsInLinkage done :: braces
        else if Bracket.curly.closes token then braces.tail else braces)
      (done ++ [token]) rest

section OpenBraces

variable {tokens front back : List Token}

theorem openBraces_append (braces : List Bool) (done front back : List Token) :
    openBraces braces done (front ++ back) =
      openBraces (openBraces braces done front) (done ++ front) back := by
  induction front generalizing braces done with
  | nil => simp [openBraces]
  | cons token front ih => simp [openBraces, ih]

-- What is nested closes all that it opens.
theorem openBraces_nested (h : Nested tokens) (braces : List Bool) (done : List Token) :
    openBraces braces done tokens = braces := by
  induction h generalizing braces done with
  | nil => rfl
  | plain htoken _ ih => simp [openBraces, htoken, ih]
  | @group kind opening closing inside rest hopens hcloses _ _ ihinside ihrest =>
    by_cases hkind : Bracket.curly = kind
    · subst hkind
      simp [openBraces, openBraces_append, hopens, hcloses, ihinside, ihrest,
        Bracket.opens_eq_false_of_closes hcloses]
    · simp [openBraces, openBraces_append, ihinside, ihrest, hkind,
        Bracket.opens_eq_of_opens hopens, Bracket.closes_eq_false_of_opens hopens,
        Bracket.closes_eq_of_closes hcloses, Bracket.opens_eq_false_of_closes hcloses]

theorem openBraces_all_iff (h : Nested (front ++ back)) (braces : List Bool) (done : List Token) :
    (openBraces braces done front).all id ↔ braces.all id ∧
      ∀ before, Bracket.curly.Encloses before front back → endsInLinkage (done ++ before) := by
  induction hlength : front.length using Nat.strong_induction_on
    generalizing front back braces done with
  | _ length ih =>
    rcases h.split with ⟨hfront, -⟩ |
      ⟨kind, before, opening, inner, outer, closing, behind, rfl, rfl, hopens, hcloses, hbefore,
        hinner, -⟩
    · simp [openBraces_nested hfront, hfront.not_encloses]
    · have hlt : inner.length < length := by
        rw [← hlength, List.length_append, List.length_cons]
        omega
      have hwithin : (∀ around, (∃ more, Bracket.curly.Encloses more inner outer ∧
            around = before ++ opening :: more) → endsInLinkage (done ++ around)) ↔
          ∀ more, Bracket.curly.Encloses more inner outer →
            endsInLinkage (done ++ before ++ [opening] ++ more) := by
        simp only [List.append_assoc, List.singleton_append]
        exact ⟨fun h more hmore => h _ ⟨more, hmore, rfl⟩,
          fun h _ ⟨more, hmore, heq⟩ => heq ▸ h more hmore⟩
      rw [openBraces_append, openBraces_nested hbefore, openBraces, ih _ hlt hinner _ _ rfl]
      simp only [Nested.encloses_iff hopens hcloses hbefore hinner, or_imp, forall_and, hwithin]
      by_cases hkind : Bracket.curly = kind
      · subst hkind
        simp [hopens, and_assoc, and_left_comm]
      · simp [hkind, Bracket.opens_eq_of_opens hopens, Bracket.closes_eq_false_of_opens hopens]

theorem atFileScope_iff (h : Nested (front ++ back)) :
    AtFileScope front back ↔ (openBraces [] [] front).all id := by
  simp [openBraces_all_iff h, AtFileScope]

end OpenBraces

theorem endsInLinkage_concat (done : List Token) (token : Token) :
    endsInLinkage (done ++ [token]) = (decide (token.kind = .string) &&
      done.getLast?.any (fun token => token.isWord "extern")) := by
  simp [endsInLinkage]

theorem isWord_eq_false_of_closes {bracket : Bracket} {token : Token} (h : bracket.closes token)
    (word : String) : token.isWord word = false := by
  have hnot : ¬ token.isIdentifier := fun hname => not_isPunctuation_of_isIdentifier hname _ h
  simp [Token.isWord, hnot]

theorem endsInLinkage_closing {bracket : Bracket} {token : Token} (h : bracket.closes token)
    (done : List Token) : endsInLinkage (done ++ [token]) = false := by
  have hkind : token.kind = .punctuation bracket.closing := of_decide_eq_true h
  simp [endsInLinkage_concat, hkind]

-- What the search knows of the tokens that lie behind it.
structure Tracks (braces : List Bool) (before : Before) (done : List Token) : Prop where
  braces_eq : braces = openBraces [] [] done
  extern_eq : before.last.any (fun token => token.isWord "extern") =
    done.getLast?.any (fun token => token.isWord "extern")
  opensLinkage_eq : before.opensLinkage = endsInLinkage done

namespace Tracks

variable {braces : List Bool} {before : Before} {done : List Token} {token : Token}

theorem step (h : Tracks braces before done) (token : Token) :
    Tracks (openBraces braces done [token]) ⟨some token, before.last⟩ (done ++ [token]) where
  braces_eq := by rw [openBraces_append, ← h.braces_eq, List.nil_append]
  extern_eq := by simp
  opensLinkage_eq := by rw [endsInLinkage_concat, ← h.extern_eq]; rfl

-- Behind a body nothing is remembered, which is the same as the brace that closes it.
theorem jump {front group : List Token} (h : Tracks braces before done) (hfront : Nested front)
    (hgroup : Bracket.curly.IsGroup group) : Tracks braces ⟨none, none⟩ (done ++ (front ++ group)) where
  braces_eq := by
    rw [openBraces_append, ← h.braces_eq, openBraces_nested (hfront.append (.of_isGroup hgroup))]
  extern_eq := by
    obtain ⟨opening, inside, closing, rfl, _, hcloses, _⟩ := hgroup
    have hlast : (done ++ (front ++ opening :: (inside ++ [closing]))).getLast? = some closing := by
      simp [List.getLast?_append, List.getLast?_cons]
    rw [hlast, Option.any_some, isWord_eq_false_of_closes hcloses]
    rfl
  opensLinkage_eq := by
    obtain ⟨opening, inside, closing, rfl, _, hcloses, _⟩ := hgroup
    have hends := endsInLinkage_closing hcloses (done ++ (front ++ opening :: inside))
    rw [List.append_assoc, List.append_assoc, List.cons_append] at hends
    rw [hends]
    rfl

end Tracks

section Names

variable {token : Token} {front back done rest : List Token}

theorem opens_eq_false_of_isIdentifier (h : token.isIdentifier) (bracket : Bracket) :
    bracket.opens token = false ∧ bracket.closes token = false :=
  ⟨Bool.eq_false_iff.mpr (not_isPunctuation_of_isIdentifier h _),
    Bool.eq_false_iff.mpr (not_isPunctuation_of_isIdentifier h _)⟩

-- A name in a group is neither of its brackets.
theorem exists_inside {bracket : Bracket} (h : bracket.IsGroup (front ++ token :: back))
    (htoken : token.isIdentifier) : ∃ opening inner outer closing, front = opening :: inner ∧
      back = outer ++ [closing] ∧ bracket.opens opening ∧ bracket.closes closing ∧
      Nested (inner ++ token :: outer) := by
  obtain ⟨opening, inside, closing, heq, hopens, hcloses, hinside⟩ := h
  obtain ⟨hnot, hlast⟩ := opens_eq_false_of_isIdentifier htoken bracket
  rcases List.append_eq_cons_iff.mp heq with ⟨rfl, hfront⟩ | ⟨inner, rfl, hinner⟩
  · obtain ⟨rfl, -⟩ := List.cons.inj hfront
    simp [hopens] at hnot
  rcases List.append_eq_append_iff.mp hinner with ⟨past, rfl, hpast⟩ | ⟨past, rfl, hpast⟩
  · rcases List.singleton_eq_append_iff.mp hpast with ⟨rfl, hsingle⟩ | ⟨-, hnone⟩
    · obtain ⟨rfl, -⟩ := List.cons.inj hsingle
      simp [hcloses] at hlast
    · cases hnone
  · rcases List.cons_eq_append_iff.mp hpast with ⟨rfl, hsingle⟩ | ⟨outer, rfl, rfl⟩
    · obtain ⟨rfl, -⟩ := List.cons.inj hsingle
      simp [hcloses] at hlast
    · exact ⟨opening, inner, outer, closing, rfl, rfl, hopens, hcloses, hinside⟩

namespace Site

-- A function whose name is not before a token has it as its name or stands behind it.
theorem eq_or_later {site : Site} (heq : site.tokens = done ++ token :: rest)
    (hle : done.length ≤ site.before.length) :
    (site.before = done ∧ site.name = token ∧
      site.parameters ++ (site.body ++ site.behind) = rest) ∨
    (done ++ [token]).length ≤ site.before.length := by
  rcases Nat.lt_or_ge done.length site.before.length with hlt | hge
  · right
    rw [List.length_append, List.length_singleton]
    exact hlt
  · left
    obtain ⟨hdone, hrest⟩ := List.append_inj heq (Nat.le_antisymm hge hle)
    obtain ⟨hname, hrest⟩ := List.cons.inj hrest
    exact ⟨hdone, hname, hrest⟩

variable {site other : Site}

theorem Defines.parametersAndBody? (h : site.Defines) :
    Callable.parametersAndBody? (site.parameters ++ (site.body ++ site.behind)) =
      some (site.body.tail.dropLast, site.behind) := by
  rw [Callable.parametersAndBody?, Nested.group?_append h.parameters, Option.bind_some,
    Nested.group?_append h.body]

-- The name says where its parameters and its body are.
theorem Defines.eq_of_before (h : site.Defines) (hother : other.Defines)
    (hbefore : other.before = site.before) (hname : other.name = site.name)
    (hrest : other.parameters ++ (other.body ++ other.behind) =
      site.parameters ++ (site.body ++ site.behind)) : other = site := by
  have hgroup := Nested.group?_append hother.parameters (other.body ++ other.behind)
  rw [hrest, Nested.group?_append h.parameters] at hgroup
  obtain ⟨-, hmiddle⟩ := Prod.mk.inj (Option.some.inj hgroup)
  rw [← hmiddle] at hrest
  have hbody := Nested.group?_append hother.body other.behind
  rw [← hmiddle, Nested.group?_append h.body] at hbody
  obtain ⟨-, hbehind⟩ := Prod.mk.inj (Option.some.inj hbody)
  rw [← hbehind] at hmiddle
  have hparameters := List.append_cancel_right hrest
  have hbody := List.append_cancel_right hmiddle
  cases site
  cases other
  simp_all

-- The body is a brace group of its own, behind a parenthesis.
theorem Defines.not_within_body (h : site.Defines) (hbody : site.body = front ++ token :: back)
    (htoken : token.isIdentifier) :
    ¬ AtFileScope (site.before ++ site.name :: (site.parameters ++ front))
      (token :: (back ++ site.behind)) := by
  intro hscope
  obtain ⟨opening, inner, outer, closing, rfl, rfl, hopens, hcloses, hinner⟩ :=
    exists_inside (hbody ▸ h.body) htoken
  obtain ⟨first, arguments, last, hparameters, -, hlast, -⟩ := h.parameters
  have hends := hscope (site.before ++ site.name :: site.parameters)
    ⟨opening, inner, token :: outer, closing, site.behind, by simp, by simp, hopens, hcloses,
      hinner⟩
  have hnot := endsInLinkage_closing hlast (site.before ++ site.name :: first :: arguments)
  rw [hparameters] at hends
  simp only [List.append_assoc, List.cons_append] at hnot
  rw [hnot] at hends
  cases hends

-- A name among the parameters has its own parameters and body there, so a brace is opened there.
theorem Defines.not_within_parameters (h : other.Defines) {closing : Token}
    (hinside : Nested (front ++ other.name :: back)) (hcloses : Bracket.round.closes closing)
    (hrest : other.parameters ++ (other.body ++ other.behind) = back ++ closing :: rest) :
    ∃ token ∈ back, Bracket.curly.opens token := by
  have hgroups := (Nested.of_isGroup h.parameters).append (.of_isGroup h.body)
  rw [← List.append_assoc] at hrest
  rw [List.append_cons] at hinside
  have hprefix := hinside.isPrefix_of_append hgroups hcloses hrest
  obtain ⟨opening, inside, last, hbody, hopens, -⟩ := h.body
  refine ⟨opening, hprefix.subset ?_, hopens⟩
  simp [hbody]

theorem atFileScope_behind_name (hname : token.isIdentifier)
    (h : Nested (front ++ token :: back)) (hscope : AtFileScope front (token :: back)) :
    AtFileScope (front ++ [token]) back := by
  have hbehind : Nested (front ++ [token] ++ back) := by rwa [← List.append_cons]
  have hplain := opens_eq_false_of_isIdentifier hname .curly
  rw [atFileScope_iff hbehind, openBraces_append]
  rw [atFileScope_iff h] at hscope
  simpa [openBraces, hplain] using hscope

-- In the parameters and the body of a function no other one is defined.
theorem Defines.eq_or_stop_le (h : site.Defines) (hother : other.Defines)
    (heq : other.tokens = site.tokens) (hnested : Nested site.tokens)
    (hplain : PlainParentheses site.tokens) (hle : site.before.length ≤ other.before.length) :
    other = site ∨ site.stop ≤ other.before.length := by
  rcases eq_or_later heq hle with ⟨hbefore, hname, hrest⟩ | hlater
  · exact .inl (h.eq_of_before hother hbefore hname hrest)
  by_contra hnot
  have hstop : other.before.length < site.stop := Nat.lt_of_not_le (not_or.mp hnot).2
  rw [tokens, tokens, List.append_cons site.before] at heq
  obtain ⟨inner, hbefore⟩ : ∃ inner, other.before = site.before ++ [site.name] ++ inner :=
    (List.prefix_of_prefix_length_le (List.prefix_append _ _) ⟨_, heq⟩ hlater).imp
      fun _ h => h.symm
  rw [hbefore, List.append_assoc, List.append_cancel_left_eq] at heq
  have hbody (past : List Token) (hinner : inner = site.parameters ++ past)
      (hpast : site.body ++ site.behind =
        past ++ other.name :: (other.parameters ++ (other.body ++ other.behind))) : False := by
    simp only [stop, first, hbefore, hinner, List.length_append, List.length_singleton] at hstop
    rcases List.append_eq_append_iff.mp hpast with ⟨more, rfl, -⟩ | ⟨more, hmore, hbehind⟩
    · rw [List.length_append] at hstop
      omega
    rcases List.cons_eq_append_iff.mp hbehind with ⟨rfl, -⟩ | ⟨back, rfl, hback⟩
    · rw [hmore, List.append_nil] at hstop
      omega
    · have hscope := hother.scope
      rw [hback, hbefore, hinner, ← List.append_cons] at hscope
      exact h.not_within_body hmore hother.isIdentifier hscope
  rcases List.append_eq_append_iff.mp heq with ⟨past, hinner, hpast⟩ | ⟨past, rfl, hpast⟩
  · rcases List.cons_eq_append_iff.mp hpast with ⟨rfl, hrest⟩ | ⟨back, rfl, hrest⟩
    · exact hbody [] (by simpa using hinner.symm) (by simpa using hrest)
    obtain ⟨opening, front, outer, closing, rfl, rfl, -, hcloses, hinside⟩ :=
      exists_inside (hinner ▸ h.parameters) hother.isIdentifier
    rw [List.append_assoc, List.singleton_append] at hrest
    obtain ⟨token, htoken, hopens⟩ := hother.not_within_parameters hinside hcloses hrest
    refine hplain (site.before ++ [site.name]) _ _ (List.append_cons _ _ _) h.parameters
      (atFileScope_behind_name h.isIdentifier hnested h.scope) token ?_ hopens
    simp [hinner, htoken]
  · exact hbody past rfl hpast

-- Past a token that names no function, the functions are those from that token on.
theorem defined_behind_iff (hnot : site.Defines → site.before = done → site.name = token →
      site.parameters ++ (site.body ++ site.behind) ≠ rest) :
    (site.tokens = done ++ [token] ++ rest ∧ (done ++ [token]).length ≤ site.before.length ∧
      site.Defines) ↔
    site.tokens = done ++ token :: rest ∧ done.length ≤ site.before.length ∧ site.Defines := by
  rw [← List.append_cons]
  constructor
  · rintro ⟨heq, hle, h⟩
    rw [List.length_append] at hle
    exact ⟨heq, by omega, h⟩
  · rintro ⟨heq, hle, h⟩
    rcases eq_or_later heq hle with ⟨hbefore, hname, hrest⟩ | hlater
    · exact absurd hrest (hnot h hbefore hname)
    · exact ⟨heq, hlater, h⟩

end Site

end Names

-- The functions that the search finds from a place on are those that are defined from there on.
theorem Finds.mem_iff {braces : List Bool} {before : Before} {done rest : List Token}
    {found : List Site} (h : Finds braces before done rest found)
    (htracks : Tracks braces before done) (hnested : Nested (done ++ rest))
    (hplain : PlainParentheses (done ++ rest)) (site : Site) :
    site ∈ found ↔
      site.tokens = done ++ rest ∧ done.length ≤ site.before.length ∧ site.Defines := by
  induction h with
  | @nil braces before done =>
    refine iff_of_false List.not_mem_nil ?_
    rintro ⟨heq, hle, -⟩
    have hlength := congrArg List.length heq
    simp only [Site.tokens, List.length_append, List.length_cons, List.length_nil] at hlength
    omega
  | @opening braces before done rest token found htoken _ ih =>
    have hstep := htracks.step token
    rw [openBraces, if_pos htoken, ← htracks.opensLinkage_eq] at hstep
    rw [List.append_cons] at hnested hplain
    rw [ih hstep hnested hplain]
    refine Site.defined_behind_iff fun h _ hname => ?_
    have hnot := (opens_eq_false_of_isIdentifier (hname ▸ h.isIdentifier) .curly).1
    simp [htoken] at hnot
  | @closing braces before done rest token found htoken _ ih =>
    have hstep := htracks.step token
    rw [openBraces, Bracket.opens_eq_false_of_closes htoken, if_neg Bool.false_ne_true,
      if_pos htoken] at hstep
    rw [List.append_cons] at hnested hplain
    rw [ih hstep hnested hplain]
    refine Site.defined_behind_iff fun h _ hname => ?_
    have hnot := (opens_eq_false_of_isIdentifier (hname ▸ h.isIdentifier) .curly).2
    simp [htoken] at hnot
  | @passing braces before done rest token found hopens hcloses htoken _ ih =>
    have hstep := htracks.step token
    rw [openBraces, if_neg hopens, if_neg hcloses] at hstep
    have hscope := atFileScope_iff hnested
    rw [← htracks.braces_eq] at hscope
    rw [List.append_cons] at hnested hplain
    rw [ih hstep hnested hplain]
    refine Site.defined_behind_iff fun h hbefore hname hrest => ?_
    have hfound := h.parametersAndBody?
    have hthere := h.scope
    rw [hbefore, hname, hrest, hscope] at hthere
    rw [hrest, htoken ⟨hname ▸ h.isIdentifier, hthere, hname ▸ h.notMem_otherWords⟩] at hfound
    cases hfound
  | @defining braces before done parameters body behind arguments inside token found hname hbraces
      hword hparameters hbody hfound ih =>
    let here : Site := ⟨done, token, parameters, body, behind⟩
    have hhere : here.Defines :=
      { isIdentifier := hname
        notMem_otherWords := hword
        scope := (atFileScope_iff hnested).mpr (htracks.braces_eq ▸ hbraces)
        parameters := by
          rw [List.append_cons] at hnested
          exact hnested.isGroup_of_group? hparameters
        body := by
          rw [List.append_cons, ← List.append_assoc] at hnested
          exact hnested.isGroup_of_group? hbody }
    have hfront : Nested (token :: parameters) :=
      .plain (opens_eq_false_of_isIdentifier hname) (.of_isGroup hhere.parameters)
    have hall : done ++ token :: (parameters ++ (body ++ behind)) =
        done ++ token :: (parameters ++ body) ++ behind := by simp
    have hmem := ih (htracks.jump hfront hhere.body) (hall ▸ hnested) (hall ▸ hplain)
    have hstop : (done ++ token :: (parameters ++ body)).length = here.stop := by
      simp only [Site.stop, Site.first, List.length_append, List.length_cons, here]
      omega
    rw [List.mem_cons, hmem, hstop, ← hall]
    constructor
    · rintro (rfl | ⟨heq, hle, h⟩)
      · exact ⟨rfl, Nat.le_refl _, hhere⟩
      · simp only [Site.stop, Site.first, here] at hle
        exact ⟨heq, by omega, h⟩
    · rintro ⟨heq, hle, h⟩
      exact (hhere.eq_or_stop_le h heq hnested hplain hle).imp_right fun hlater => ⟨heq, hlater, h⟩

-- The sites of the functions of a file.
structure Located (tokens : List Token) (found : List Site) : Prop where
  -- one for each definition that is reported
  reads : List.Forall₂ Site.Reads found (functions [] ⟨none, none⟩ tokens)
  tokens_eq : ∀ site ∈ found, site.tokens = tokens
  ascending : found.Pairwise fun a b => a.before.length < b.before.length
  -- no token is in two bodies
  disjoint : found.Pairwise fun a b => ∀ place, a.Covers place → ¬ b.Covers place
  exact : Nested tokens → PlainParentheses tokens →
    ∀ site, site ∈ found ↔ site.tokens = tokens ∧ site.Defines

theorem plainParentheses_of_forall {tokens : List Token}
    (h : ∀ place < tokens.length, ∀ group ∈ Token.group? .round (tokens.drop place),
      ∀ token ∈ group.1, ¬ Bracket.curly.opens token) : PlainParentheses tokens := by
  rintro before group behind rfl hgroup - token htoken
  have hfound := Nested.group?_append hgroup behind
  obtain ⟨opening, inside, closing, rfl, hopens, hcloses, -⟩ := hgroup
  have hplace : before.length < (before ++ (opening :: (inside ++ [closing]) ++ behind)).length := by
    simp
  have hinside := h _ hplace _ (by rwa [List.drop_left])
  rcases List.mem_cons.mp htoken with rfl | htoken
  · simp [Bracket.opens_eq_of_opens hopens]
  rcases List.mem_append.mp htoken with htoken | hlast
  · exact hinside token (by simpa using htoken)
  · obtain rfl := List.mem_singleton.mp hlast
    simp [Bracket.opens_eq_false_of_closes hcloses]

theorem functions_located (tokens : List Token) : ∃ found, Located tokens found := by
  obtain ⟨found, hfound, hreads⟩ := exists_finds [] ⟨none, none⟩ tokens []
  have hapart := hfound.pairwise_stop_le
  refine ⟨found, hreads, fun site hsite => (hfound.tokens_eq site hsite).1, ?_, ?_, ?_⟩
  · refine hapart.imp fun {a b} hle => ?_
    simp only [Site.stop, Site.first] at hle
    omega
  · refine hapart.imp fun {a b} hle place ha hb => ?_
    obtain ⟨-, hlt⟩ := ha
    obtain ⟨hge, -⟩ := hb
    simp only [Site.first] at hge
    omega
  · intro hnested hplain site
    rw [hfound.mem_iff ⟨rfl, rfl, rfl⟩ hnested hplain]
    simp

-- A function in a linkage block.
def linkage : List Token :=
  let word (text : String) : Token := ⟨.identifier, text, 1, 0, none⟩
  let mark (c : Char) : Token := ⟨.punctuation c, c.toString, 1, 0, none⟩
  [word "extern", ⟨.string, "C", 1, 0, none⟩, mark '\x7b', word "send", mark '(', mark ')',
    mark '\x7b', word "new_a_event", mark '\x7d', mark '\x7d']

theorem functions_located_linkage : Nested linkage ∧ PlainParentheses linkage ∧
    ∃ found, Located linkage found ∧ found.map (fun site => site.name.text) = ["send"] := by
  have hbody : Nested (linkage.drop 7 |>.take 1) :=
    .plain (opens_eq_false_of_isIdentifier rfl) .nil
  have hsend : Nested (linkage.drop 3 |>.take 6) :=
    .plain (opens_eq_false_of_isIdentifier rfl)
      (@Nested.group .round _ _ [] _ rfl rfl .nil (@Nested.group .curly _ _ _ [] rfl rfl hbody .nil))
  have hliteral (bracket : Bracket) : bracket.opens ⟨.string, "C", 1, 0, none⟩ = false ∧
      bracket.closes ⟨.string, "C", 1, 0, none⟩ = false := by
    cases bracket <;> exact ⟨rfl, rfl⟩
  have hnested : Nested linkage :=
    .plain (opens_eq_false_of_isIdentifier rfl) (.plain hliteral
      (@Nested.group .curly _ _ _ [] rfl rfl hsend .nil))
  refine ⟨hnested, plainParentheses_of_forall (by decide +kernel), ?_⟩
  obtain ⟨found, hfound⟩ := functions_located linkage
  have hdefinitions : functions [] ⟨none, none⟩ linkage =
      [⟨"send", .function, NameSet.ofList ["a_event"], 1⟩] := by decide +kernel
  have hreads := hdefinitions ▸ hfound.reads
  cases hreads with
  | cons hsite hnone =>
    cases hnone
    exact ⟨_, hfound, congrArg (fun name => [name]) hsite.name.symm⟩

end EventFlow.Callable
