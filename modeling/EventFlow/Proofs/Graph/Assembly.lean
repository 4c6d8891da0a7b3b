import EventFlow.Proofs.Graph.Edges

namespace EventFlow.Graph

namespace Edge

def Joins (source target : Node) (edge : Edge) : Prop :=
  edge.source = source ∧ edge.target = target

instance (source target : Node) (edge : Edge) : Decidable (edge.Joins source target) :=
  inferInstanceAs (Decidable (_ ∧ _))

end Edge

-- Draws an edge. There is room for one edge from a node to another, so an older edge with the
-- same ends gives way.
def connect (edges : List Edge) (edge : Edge) : List Edge :=
  edges.filter (fun older => ¬ older.Joins edge.source edge.target) ++ [edge]

-- The edges at a listener in the order in which a walk over the model meets them.
def edgesAt (name : String) (listener : Listener) : List Edge :=
  listener.outEvents.toList.map (.emits name) ++
    Tier.all.flatMap fun tier =>
      (listener.heard.get tier).toList.map fun event => .subscribes event name tier

-- The edges that are left when a walk over the model has drawn one after the other.
def drawn (model : Model) : List Edge :=
  (model.listeners.entries.flatMap fun entry => edgesAt entry.1 entry.2).foldl connect []

-- As long as no two edges with the same ends are drawn, none gives way.
theorem mem_foldl_connect {added edges : List Edge} {edge : Edge}
    (h : ∀ first ∈ edges ++ added, ∀ second ∈ edges ++ added,
      first.Joins second.source second.target → first = second) :
    edge ∈ added.foldl connect edges ↔ edge ∈ edges ++ added := by
  induction added generalizing edges with
  | nil => simp
  | cons head tail ih =>
    have hkept : ∀ other, other ∈ connect edges head ↔ other ∈ edges ++ [head] := by
      intro other
      simp only [connect, List.mem_append, List.mem_filter, List.mem_singleton,
        decide_eq_true_eq]
      constructor
      · rintro (⟨hother, _⟩ | heq)
        · exact .inl hother
        · exact .inr heq
      · rintro (hother | heq)
        · by_cases hjoins : other.Joins head.source head.target
          · exact .inr (h other (by simp [hother]) head (by simp) hjoins)
          · exact .inl ⟨hother, hjoins⟩
        · exact .inr heq
    have hall : ∀ other, other ∈ connect edges head ++ tail ↔ other ∈ edges ++ head :: tail := by
      intro other
      rw [List.mem_append, hkept, ← List.mem_append, List.append_assoc, List.singleton_append]
    rw [List.foldl_cons, ih, hall]
    intro first hfirst second hsecond
    exact h first ((hall first).mp hfirst) second ((hall second).mp hsecond)

theorem mem_walk_iff {model : Model} {edge : Edge} :
    (edge ∈ model.listeners.entries.flatMap fun entry => edgesAt entry.1 entry.2) ↔
      edge ∈ (ofModel model).edges := by
  simp only [List.mem_flatMap, Prod.exists, NameMap.mem_entries_iff, edgesAt, List.mem_append,
    List.mem_map, Tier.mem_all, true_and, ← NameSet.mem_iff, Listener.mem_heard_iff]
  cases edge with
  | emits name event => simp [emits_mem_edges_iff]
  | subscribes event name tier => simp [subscribes_mem_edges_iff]

theorem eq_of_joins {model : Model} {first second : Edge} (hfirst : first ∈ (ofModel model).edges)
    (hsecond : second ∈ (ofModel model).edges)
    (h : first.Joins second.source second.target) : first = second := by
  obtain ⟨hsource, htarget⟩ := h
  cases first with
  | emits name event =>
    cases second with
    | emits name' event' =>
      cases hsource
      cases htarget
      rfl
    | subscribes => cases hsource
  | subscribes event name tier =>
    cases second with
    | emits => cases hsource
    | subscribes event' name' tier' =>
      cases hsource
      cases htarget
      rw [tier_unique hfirst hsecond]

theorem mem_drawn_iff {model : Model} {edge : Edge} :
    edge ∈ drawn model ↔ edge ∈ (ofModel model).edges := by
  unfold drawn
  rw [mem_foldl_connect, List.nil_append, mem_walk_iff]
  intro first hfirst second hsecond
  exact eq_of_joins (mem_walk_iff.mp hfirst) (mem_walk_iff.mp hsecond)

-- Where edges with the same ends are equal, a search for ends finds the edge that has them.
theorem find?_joins_eq_some_iff {edges : List Edge} {source target : Node} {edge : Edge}
    (h : ∀ first ∈ edges, ∀ second ∈ edges,
      first.Joins second.source second.target → first = second) :
    edges.find? (fun edge => edge.Joins source target) = some edge ↔
      edge ∈ edges ∧ edge.Joins source target := by
  constructor
  · intro hfind
    exact ⟨List.mem_of_find?_eq_some hfind, by simpa using List.find?_some hfind⟩
  · rintro ⟨hedge, hjoins⟩
    have hsome : (edges.find? (fun edge => edge.Joins source target)).isSome :=
      List.find?_isSome.mpr ⟨edge, hedge, by simpa using hjoins⟩
    obtain ⟨found, hfound⟩ := Option.isSome_iff_exists.mp hsome
    have hends : found.Joins source target := by simpa using List.find?_some hfound
    have heq : found = edge := by
      apply h found (List.mem_of_find?_eq_some hfound) edge hedge
      exact ⟨hends.1.trans hjoins.1.symm, hends.2.trans hjoins.2.symm⟩
    rw [hfound, heq]

theorem edge?_ofModel_eq_some_iff {model : Model} {source target : Node} {edge : Edge} :
    (ofModel model).edge? source target = some edge ↔
      edge ∈ (ofModel model).edges ∧ edge.Joins source target :=
  find?_joins_eq_some_iff fun _ hfirst _ hsecond => eq_of_joins hfirst hsecond

-- Between any two nodes a walk over the model leaves the edge that the graph has.
theorem find?_drawn (model : Model) (source target : Node) :
    (drawn model).find? (fun edge => edge.Joins source target) =
      (ofModel model).edge? source target := by
  apply Option.ext
  intro edge
  rw [edge?_ofModel_eq_some_iff, find?_joins_eq_some_iff, mem_drawn_iff]
  intro first hfirst second hsecond
  exact eq_of_joins (mem_drawn_iff.mp hfirst) (mem_drawn_iff.mp hsecond)

end EventFlow.Graph
