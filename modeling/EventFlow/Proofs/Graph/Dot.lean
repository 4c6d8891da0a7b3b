import EventFlow.Graph.Dot
import EventFlow.Proofs.Graph.Queries
import EventFlow.Proofs.Source.Piece

namespace EventFlow

section Cuts

variable {α β : Type}

-- Where a separator stands for the first time, a list falls apart in one way only.
theorem append_cons_inj {separator : α} {first second rest others : List α}
    (hfirst : separator ∉ first) (hsecond : separator ∉ second)
    (h : first ++ separator :: rest = second ++ separator :: others) :
    first = second ∧ rest = others := by
  induction first generalizing second with
  | nil =>
    cases second with
    | nil => exact ⟨rfl, (List.cons.inj h).2⟩
    | cons item second => exact absurd ((List.cons.inj h).1 ▸ List.mem_cons_self) hsecond
  | cons item first ih =>
    cases second with
    | nil => exact absurd ((List.cons.inj h).1 ▸ List.mem_cons_self) hfirst
    | cons other second =>
      obtain ⟨rfl, htail⟩ := List.cons.inj h
      rw [List.mem_cons, not_or] at hfirst hsecond
      obtain ⟨rfl, hrest⟩ := ih hfirst.2 hsecond.2 htail
      exact ⟨rfl, hrest⟩

theorem eq_of_map_eq_map {f : α → β} {first second : List α}
    (hinj : ∀ a ∈ first, ∀ b ∈ second, f a = f b → a = b) (h : first.map f = second.map f) :
    first = second := by
  induction first generalizing second with
  | nil => exact (List.map_eq_nil_iff.mp h.symm).symm
  | cons a first ih =>
    cases second with
    | nil => cases h
    | cons b second =>
      obtain ⟨hhead, htail⟩ := List.cons.inj h
      have hrest : first = second := ih (fun c hc d hd =>
        hinj c (List.mem_cons_of_mem _ hc) d (List.mem_cons_of_mem _ hd)) htail
      rw [hinj a List.mem_cons_self b List.mem_cons_self hhead, hrest]

-- A text tells its lines, when none of them holds a line end.
theorem eq_of_join_lines {first second : List String}
    (hfirst : ∀ line ∈ first, '\n' ∉ line.toList) (hsecond : ∀ line ∈ second, '\n' ∉ line.toList)
    (h : String.join (first.map (· ++ "\n")) = String.join (second.map (· ++ "\n"))) :
    first = second := by
  have hchars := congrArg String.toList h
  clear h
  induction first generalizing second with
  | nil =>
    cases second with
    | nil => rfl
    | cons other second => simp [String.toList_join] at hchars
  | cons line first ih =>
    cases second with
    | nil => simp [String.toList_join] at hchars
    | cons other second =>
      rw [List.forall_mem_cons] at hfirst hsecond
      simp only [String.toList_join, List.map_cons, List.flatMap_cons, String.toList_append] at hchars
      obtain ⟨hline, hrest⟩ := append_cons_inj hfirst.1 hsecond.1 (by simpa using hchars)
      rw [String.toList_inj.mp hline, ih hfirst.2 hsecond.2 (by simpa [String.toList_join] using hrest)]

end Cuts

-- Every listener and every event has an identifier for a name.
def Model.HasIdentifiers (model : Model) : Prop :=
  (∀ name ∈ model.listeners.keys, Source.isIdentifier name) ∧
    ∀ event ∈ model.events, Source.isIdentifier event

instance (model : Model) : Decidable model.HasIdentifiers :=
  inferInstanceAs (Decidable ((∀ name ∈ model.listeners.keys, Source.isIdentifier name) ∧
    ∀ event ∈ model.events.toList, Source.isIdentifier event))

namespace Graph

-- What a text in the DOT language says with one line. A node has no kind beside its shape, and an
-- arrow is told by its ends and its label.
inductive Dot.Statement where
  | box (name : String)
  | ellipse (name : String)
  | arrow (source target : String) (label : Option Tier)
  deriving DecidableEq

namespace Dot

namespace Statement

-- The name in front.
def name : Statement → String
  | box name | ellipse name | arrow name _ _ => name

def names : Statement → List String
  | box name | ellipse name => [name]
  | arrow source target _ => [source, target]

def ending : Option Tier → String
  | none => ";"
  | some tier => " [label=\"" ++ tier.label ++ "\"];"

-- What stands behind the name in front.
def behind : Statement → String
  | box _ => " [shape=box, style=filled, fillcolor=lightblue];"
  | ellipse _ => " [shape=ellipse];"
  | arrow _ target label => " -> \"" ++ target ++ "\"" ++ ending label

def text (statement : Statement) : String := "  \"" ++ statement.name ++ "\"" ++ statement.behind

def ofEdge : Edge → Statement
  | .emits listener event => arrow listener event none
  | .subscribes event listener tier =>
    arrow event listener (if tier = .normal then none else some tier)

end Statement

-- The nodes of a graph as the text has them.
def nodes (graph : Graph) : List Statement :=
  graph.listeners.toList.map .box ++ graph.events.toList.map .ellipse

def arrows (graph : Graph) : List Statement := graph.edges.map .ofEdge

theorem text_box (name : String) : (Statement.box name).text = listenerLine name := by
  simp [Statement.text, Statement.name, Statement.behind, listenerLine, toString, ← String.toList_inj]

theorem text_ellipse (name : String) : (Statement.ellipse name).text = eventLine name := by
  simp [Statement.text, Statement.name, Statement.behind, eventLine, toString, ← String.toList_inj]

theorem text_ofEdge (edge : Edge) : (Statement.ofEdge edge).text = edgeLine edge := by
  cases edge with
  | emits listener event =>
    simp [Statement.text, Statement.ofEdge, Statement.name, Statement.behind, Statement.ending,
      edgeLine, toString, ← String.toList_inj]
  | subscribes event listener tier =>
    cases tier <;>
      simp [Statement.text, Statement.ofEdge, Statement.name, Statement.behind, Statement.ending,
        edgeLine, toString, ← String.toList_inj]

def front : List String :=
  ["digraph evprop \x7b", "  rankdir=LR;", "  node [fontname=\"JetBrains Mono\"];", ""]

theorem lines_eq (graph : Graph) : lines graph =
    front ++ ((nodes graph).map Statement.text ++
      "" :: ((arrows graph).map Statement.text ++ ["\x7d"])) := by
  simp [lines, front, nodes, arrows, Function.comp_def, text_box, text_ellipse, text_ofEdge]

-- Names that leave the quotes around them and the lines as they are.
def Plain (statement : Statement) : Prop :=
  ∀ name ∈ statement.names, '"' ∉ name.toList ∧ '\n' ∉ name.toList

theorem ending_injective {label other : Option Tier}
    (h : Statement.ending label = Statement.ending other) : label = other := by
  have hchars := congrArg String.toList h
  cases label with
  | none =>
    cases other with
    | none => rfl
    | some tier => simp [Statement.ending] at hchars
  | some tier =>
    cases other with
    | none => simp [Statement.ending] at hchars
    | some tier' =>
      have hlabel : tier.label = tier'.label := by
        simpa [Statement.ending, String.toList_inj] using hchars
      rw [← Tier.ofLabel?_label tier, hlabel, Tier.ofLabel?_label]

theorem eq_of_behind_eq {first second : Statement} (hfirst : Plain first) (hsecond : Plain second)
    (hname : first.name = second.name) (h : first.behind = second.behind) : first = second := by
  have hchars := congrArg String.toList h
  cases first with
  | box name =>
    cases second with
    | box other => exact congrArg Statement.box hname
    | ellipse other => simp [Statement.behind] at hchars
    | arrow other target label => simp [Statement.behind] at hchars
  | ellipse name =>
    cases second with
    | box other => simp [Statement.behind] at hchars
    | ellipse other => exact congrArg Statement.ellipse hname
    | arrow other target label => simp [Statement.behind] at hchars
  | arrow name target label =>
    cases second with
    | box other => simp [Statement.behind] at hchars
    | ellipse other => simp [Statement.behind] at hchars
    | arrow other target' label' =>
      have hquoted : target.toList ++ '"' :: (Statement.ending label).toList =
          target'.toList ++ '"' :: (Statement.ending label').toList := by
        simpa [Statement.behind] using hchars
      obtain ⟨htarget, hending⟩ := append_cons_inj (hfirst target (by simp [Statement.names])).1
        (hsecond target' (by simp [Statement.names])).1 hquoted
      have hlabel : label = label' := ending_injective (String.toList_inj.mp hending)
      rw [String.toList_inj.mp htarget, hlabel, show name = other from hname]

theorem name_mem_names (statement : Statement) : statement.name ∈ statement.names := by
  cases statement <;> exact List.mem_cons_self

-- A line tells what it says.
theorem eq_of_text_eq {first second : Statement} (hfirst : Plain first) (hsecond : Plain second)
    (h : first.text = second.text) : first = second := by
  have hchars : first.name.toList ++ '"' :: first.behind.toList =
      second.name.toList ++ '"' :: second.behind.toList := by
    simpa [Statement.text] using congrArg String.toList h
  obtain ⟨hname, hbehind⟩ := append_cons_inj (hfirst _ (name_mem_names first)).1
    (hsecond _ (name_mem_names second)).1 hchars
  exact eq_of_behind_eq hfirst hsecond (String.toList_inj.mp hname) (String.toList_inj.mp hbehind)

theorem newline_not_mem_ending (label : Option Tier) : '\n' ∉ (Statement.ending label).toList := by
  cases label with
  | none => decide
  | some tier => cases tier <;> decide

theorem newline_not_mem_text {statement : Statement} (h : Plain statement) :
    '\n' ∉ statement.text.toList := by
  have hname := (h _ (name_mem_names statement)).2
  cases statement with
  | box name => simpa [Statement.text, Statement.behind] using hname
  | ellipse name => simpa [Statement.text, Statement.behind] using hname
  | arrow name target label =>
    have htarget := (h target (by simp [Statement.names])).2
    simp [Statement.text, Statement.behind, htarget, newline_not_mem_ending, hname]

theorem text_ne_empty (statement : Statement) : statement.text ≠ "" := by
  intro h
  have hchars := congrArg String.toList h
  simp [Statement.text] at hchars

-- What a text says of a graph, all names in it plain.
def Legible (graph : Graph) : Prop := ∀ statement ∈ nodes graph ++ arrows graph, Plain statement

theorem newline_not_mem_lines {graph : Graph} (h : Legible graph) :
    ∀ line ∈ lines graph, '\n' ∉ line.toList := by
  have hfront : ∀ line ∈ front ++ ["", "\x7d"], '\n' ∉ line.toList := by decide
  intro line hline
  simp only [lines_eq, List.mem_append, List.mem_cons, List.mem_map, List.not_mem_nil,
    or_false] at hline
  rcases hline with hline | ⟨statement, hstatement, rfl⟩ | rfl | ⟨statement, hstatement, rfl⟩ | rfl
  · exact hfront line (List.mem_append_left _ hline)
  · exact newline_not_mem_text (h statement (List.mem_append_left _ hstatement))
  · exact hfront _ (by simp)
  · exact newline_not_mem_text (h statement (List.mem_append_right _ hstatement))
  · exact hfront _ (by simp)

-- The text tells its statements.
theorem statements_of_dot_eq {first second : Graph} (hfirst : Legible first)
    (hsecond : Legible second) (h : first.dot = second.dot) :
    nodes first = nodes second ∧ arrows first = arrows second := by
  have hlines : lines first = lines second :=
    eq_of_join_lines (newline_not_mem_lines hfirst) (newline_not_mem_lines hsecond) h
  rw [lines_eq, lines_eq, List.append_cancel_left_eq] at hlines
  have hblank : ∀ statements : List Statement, "" ∉ statements.map Statement.text := by
    intro statements hmem
    obtain ⟨statement, _, htext⟩ := List.mem_map.mp hmem
    exact text_ne_empty statement htext
  obtain ⟨hnodes, harrows⟩ := append_cons_inj (hblank _) (hblank _) hlines
  rw [List.append_cancel_right_eq] at harrows
  constructor
  · refine eq_of_map_eq_map (fun a ha b hb => ?_) hnodes
    exact eq_of_text_eq (hfirst a (List.mem_append_left _ ha)) (hsecond b (List.mem_append_left _ hb))
  · refine eq_of_map_eq_map (fun a ha b hb => ?_) harrows
    exact eq_of_text_eq (hfirst a (List.mem_append_right _ ha))
      (hsecond b (List.mem_append_right _ hb))

theorem box_mem_nodes_iff {graph : Graph} {name : String} :
    .box name ∈ nodes graph ↔ name ∈ graph.listeners := by
  simp [nodes, NameSet.mem_iff]

theorem ellipse_mem_nodes_iff {graph : Graph} {event : String} :
    .ellipse event ∈ nodes graph ↔ event ∈ graph.events := by
  simp [nodes, NameSet.mem_iff]

theorem nodes_eq_iff {first second : Graph} :
    nodes first = nodes second ↔ first.listeners = second.listeners ∧ first.events = second.events := by
  constructor
  · intro h
    constructor
    · refine NameSet.ext fun name => ?_
      rw [← box_mem_nodes_iff, ← box_mem_nodes_iff, h]
    · refine NameSet.ext fun event => ?_
      rw [← ellipse_mem_nodes_iff, ← ellipse_mem_nodes_iff, h]
  · rintro ⟨hlisteners, hevents⟩
    rw [nodes, nodes, hlisteners, hevents]

theorem dot_eq_iff {first second : Graph} (hfirst : Legible first) (hsecond : Legible second) :
    first.dot = second.dot ↔ first.listeners = second.listeners ∧ first.events = second.events ∧
      arrows first = arrows second := by
  constructor
  · intro h
    obtain ⟨hnodes, harrows⟩ := statements_of_dot_eq hfirst hsecond h
    obtain ⟨hlisteners, hevents⟩ := nodes_eq_iff.mp hnodes
    exact ⟨hlisteners, hevents, harrows⟩
  · rintro ⟨hlisteners, hevents, harrows⟩
    rw [dot, dot, lines_eq, lines_eq, nodes_eq_iff.mpr ⟨hlisteners, hevents⟩, harrows]

theorem plain_of_isIdentifier {name : String} (h : Source.isIdentifier name) :
    '"' ∉ name.toList ∧ '\n' ∉ name.toList := by
  have hpart {d : Char} (hd : d ∈ name.toList) := Source.isIdentifierPart_of_mem h hd
  exact ⟨fun hmem => absurd (hpart hmem) (by decide), fun hmem => absurd (hpart hmem) (by decide)⟩

theorem names_ofEdge (edge : Edge) : (Statement.ofEdge edge).names =
    match edge with
    | .emits listener event => [listener, event]
    | .subscribes event listener _ => [event, listener] := by
  cases edge <;> rfl

theorem legible_ofModel {model : Model} (h : model.HasIdentifiers) : Legible (ofModel model) := by
  have hlistener : ∀ name, (∃ listener, model.listeners.get? name = some listener) →
      '"' ∉ name.toList ∧ '\n' ∉ name.toList :=
    fun name hname => plain_of_isIdentifier (h.1 name (NameMap.mem_keys_iff.mpr hname))
  have hevent : ∀ event ∈ model.events, '"' ∉ event.toList ∧ '\n' ∉ event.toList :=
    fun event hevent => plain_of_isIdentifier (h.2 event hevent)
  intro statement hstatement
  rcases List.mem_append.mp hstatement with hnode | harrow
  · rcases List.mem_append.mp hnode with hbox | hellipse
    · obtain ⟨name, hname, rfl⟩ := List.mem_map.mp hbox
      simpa [Plain, Statement.names] using hlistener name (mem_listeners_iff.mp hname)
    · obtain ⟨event, hmem, rfl⟩ := List.mem_map.mp hellipse
      simpa [Plain, Statement.names] using hevent event hmem
  · obtain ⟨edge, hedge, rfl⟩ := List.mem_map.mp harrow
    rw [Plain, names_ofEdge]
    cases edge with
    | emits name event =>
      obtain ⟨hname, hmem⟩ := nodes_of_emits hedge
      simpa using ⟨hlistener name hname, hevent event hmem⟩
    | subscribes event name tier =>
      obtain ⟨hname, hmem⟩ := nodes_of_subscribes hedge
      simpa using ⟨hevent event hmem, hlistener name hname⟩

-- Two edges are drawn alike only when one creates what the other would be heard of, under the
-- same two names.
theorem eq_or_of_ofEdge_eq {edge other : Edge} (h : Statement.ofEdge edge = Statement.ofEdge other) :
    edge = other ∨ ∃ source target, edge = .emits source target ∧
        other = .subscribes source target .normal ∨
      edge = .subscribes source target .normal ∧ other = .emits source target := by
  cases edge with
  | emits name event =>
    cases other with
    | emits name' event' =>
      cases h
      exact .inl rfl
    | subscribes event' name' tier =>
      cases tier <;> cases h
      exact .inr ⟨name, event, .inl ⟨rfl, rfl⟩⟩
  | subscribes event name tier =>
    cases other with
    | emits name' event' =>
      cases tier <;> cases h
      exact .inr ⟨event, name, .inr ⟨rfl, rfl⟩⟩
    | subscribes event' name' tier' =>
      cases tier <;> cases tier' <;> cases h <;> exact .inl rfl

end Dot

variable {first second : Model}

-- The name stands for a listener and for an event, which a text draws as one node.
def Shared (graph : Graph) (name : String) : Prop :=
  name ∈ graph.listeners ∧ name ∈ graph.events

-- The edge looks like one the other way round: between names that are shared, creating an event
-- and hearing one at the normal tier are drawn as the same arrow.
def Ambiguous (graph : Graph) (edge : Edge) : Prop :=
  ∃ source target, graph.Shared source ∧ graph.Shared target ∧
    (edge = .emits source target ∨ edge = .subscribes source target .normal)

-- Edges of graphs with the same nodes are the same when they are drawn alike, but for ambiguous
-- ones.
theorem eq_or_ambiguous (hlisteners : (ofModel first).listeners = (ofModel second).listeners)
    (hevents : (ofModel first).events = (ofModel second).events) {edge other : Edge}
    (hedge : edge ∈ (ofModel first).edges) (hother : other ∈ (ofModel second).edges)
    (h : Dot.Statement.ofEdge edge = Dot.Statement.ofEdge other) :
    edge = other ∨ (ofModel first).Ambiguous edge := by
  rcases Dot.eq_or_of_ofEdge_eq h with heq | ⟨source, target, ⟨rfl, rfl⟩ | ⟨rfl, rfl⟩⟩
  · exact .inl heq
  · obtain ⟨hsource, htarget⟩ := nodes_of_emits hedge
    obtain ⟨htarget', hsource'⟩ := nodes_of_subscribes hother
    have hheard : source ∈ (ofModel first).events := hevents ▸ hsource'
    have hcreates : target ∈ (ofModel first).listeners :=
      hlisteners ▸ mem_listeners_iff.mpr htarget'
    exact .inr ⟨source, target, ⟨mem_listeners_iff.mpr hsource, hheard⟩, ⟨hcreates, htarget⟩,
      .inl rfl⟩
  · obtain ⟨htarget, hsource⟩ := nodes_of_subscribes hedge
    obtain ⟨hsource', htarget'⟩ := nodes_of_emits hother
    have hcreates : source ∈ (ofModel first).listeners :=
      hlisteners ▸ mem_listeners_iff.mpr hsource'
    have hheard : target ∈ (ofModel first).events := hevents ▸ htarget'
    exact .inr ⟨source, target, ⟨hcreates, hsource⟩, ⟨mem_listeners_iff.mpr htarget, hheard⟩,
      .inr rfl⟩

-- The text of a graph tells its listeners, its events and the arrows between them. It tells every
-- edge that is not ambiguous, so that where no listener has the name of an event it tells the
-- whole graph.
theorem dot_determines (hfirst : first.HasIdentifiers) (hsecond : second.HasIdentifiers) :
    ((ofModel first).dot = (ofModel second).dot ↔
      (ofModel first).listeners = (ofModel second).listeners ∧
      (ofModel first).events = (ofModel second).events ∧
      Dot.arrows (ofModel first) = Dot.arrows (ofModel second)) ∧
    ((ofModel first).dot = (ofModel second).dot →
      (∀ edge ∈ (ofModel first).edges, ¬ (ofModel first).Ambiguous edge →
        edge ∈ (ofModel second).edges) ∧
      ((∀ name ∈ (ofModel first).listeners, name ∉ (ofModel first).events) →
        (ofModel first).edges = (ofModel second).edges)) := by
  have hiff := Dot.dot_eq_iff (Dot.legible_ofModel hfirst) (Dot.legible_ofModel hsecond)
  refine ⟨hiff, fun hdot => ?_⟩
  obtain ⟨hlisteners, hevents, harrows⟩ := hiff.mp hdot
  constructor
  · intro edge hedge hclear
    have hdrawn : Dot.Statement.ofEdge edge ∈ Dot.arrows (ofModel second) :=
      harrows ▸ List.mem_map_of_mem hedge
    obtain ⟨other, hother, heq⟩ := List.mem_map.mp hdrawn
    obtain rfl := (eq_or_ambiguous hlisteners hevents hedge hother heq.symm).resolve_right hclear
    exact hother
  · intro hapart
    refine eq_of_map_eq_map (fun edge hedge other hother heq => ?_) harrows
    refine (eq_or_ambiguous hlisteners hevents hedge hother heq).resolve_right ?_
    rintro ⟨source, _, hshared, _⟩
    exact hapart source hshared.1 hshared.2

-- A listener that creates an event, and one that hears it.
def creator (name event : String) : Model :=
  ⟨"p", ∅, NameMap.ofList [(name, { Listener.blank name with outEvents := .ofList [event] })]⟩

def hearer (name event : String) : Model :=
  ⟨"p", ∅, NameMap.ofList [(name, { Listener.blank name with
    inEvents := ⟨some ∅, some (.ofList [event]), some ∅⟩ })]⟩

theorem dot_determines_lamp :
    (creator "lamp" "press_event").HasIdentifiers ∧ (hearer "lamp" "press_event").HasIdentifiers ∧
      (ofModel (creator "lamp" "press_event")).dot ≠ (ofModel (hearer "lamp" "press_event")).dot := by
  have hcreator : (creator "lamp" "press_event").HasIdentifiers := by decide
  have hhearer : (hearer "lamp" "press_event").HasIdentifiers := by decide
  refine ⟨hcreator, hhearer, fun hdot => ?_⟩
  obtain ⟨_, _, harrows⟩ := (dot_determines hcreator hhearer).1.mp hdot
  exact absurd harrows (by decide)

-- A listener with the name of an event is drawn as the node of the event, and whether it creates
-- the event or hears it the text does not say.
theorem not_dot_injective :
    ¬ ∀ first second : Model, first.HasIdentifiers → second.HasIdentifiers →
      (ofModel first).dot = (ofModel second).dot →
        ∀ edge, edge ∈ (ofModel first).edges ↔ edge ∈ (ofModel second).edges := by
  intro h
  have hsame := h (creator "a_event" "a_event") (hearer "a_event" "a_event") (by decide)
    (by decide +kernel) (by decide +kernel) (.emits "a_event" "a_event")
  have hcreates : Edge.emits "a_event" "a_event" ∈
      (ofModel (creator "a_event" "a_event")).edges := by decide
  exact absurd (hsame.mp hcreates) (by decide)

end Graph

end EventFlow
