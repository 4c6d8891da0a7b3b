import EventFlow.Model.Json
import EventFlow.Proofs.Json.RoundTrip
import EventFlow.Proofs.Names

namespace EventFlow

theorem NameSet.ofList_toList (names : NameSet) : NameSet.ofList names.toList = names :=
  NameSet.ext fun _ => NameSet.mem_ofList

theorem NameMap.ofList_entries {α : Type} (map : NameMap α) : NameMap.ofList map.entries = map := by
  refine NameMap.ext fun name => Option.ext fun value => ?_
  rw [NameMap.get?_ofList map.keys_nodup, NameMap.mem_entries_iff]

-- Items that are each read back from what they are written as are read back together.
theorem mapM_map_eq_some {α β : Type} {read? : β → Option α} {write : α → β} (items : List α)
    (h : ∀ item ∈ items, read? (write item) = some item) :
    (items.map write).mapM read? = some items := by
  induction items with
  | nil => rfl
  | cons item items ih =>
    rw [List.forall_mem_cons] at h
    rw [List.map_cons, List.mapM_cons, h.1, ih h.2]
    rfl

namespace Json

theorem toNameSet?_ofNameSet (names : NameSet) : toNameSet? (ofNameSet names) = some names := by
  have hread : (names.toList.map string).mapM text? = some names.toList :=
    mapM_map_eq_some names.toList fun _ _ => rfl
  simp only [ofNameSet, Json.names, toNameSet?, elements?, Option.bind_eq_bind, Option.bind_some,
    hread, Option.pure_def, NameSet.ofList_toList]

theorem toNameMap?_ofNameMap {α : Type} {write : α → Json} {read? : Json → Option α}
    (h : ∀ value, read? (write value) = some value) (map : NameMap α) :
    toNameMap? read? (ofNameMap write map) = some map := by
  simp only [ofNameMap, NameMap.entries_mapValues, toNameMap?, members?, Option.bind_eq_bind,
    Option.bind_some]
  rw [mapM_map_eq_some map.entries]
  · rw [Option.bind_some, NameMap.ofList_entries]
    rfl
  · intro entry _
    simp [h]

end Json

theorem Callable.Kind.ofJson?_label (kind : Callable.Kind) :
    Kind.ofJson? (.string kind.label) = some kind :=
  ofLabel?_label kind

theorem Callable.ofJson?_toJson (callable : Callable) :
    Callable.ofJson? callable.toJson = some callable := by
  simp [Callable.ofJson?, Callable.toJson, Json.record?, Json.member?, Json.text?,
    Callable.Kind.ofJson?_label, Json.toNameSet?_ofNameSet]

-- The tiers that hold something, in the order of their labels.
def PerTier.held {α : Type} (values : PerTier (Option α)) : List (Tier × α) :=
  [Tier.early, .final, .normal].filterMap fun tier =>
    (values.get tier).map fun value => (tier, value)

theorem PerTier.find?_held {α : Type} (values : PerTier (Option α)) (tier : Tier) :
    (values.held.find? (fun entry => entry.1 = tier)).map Prod.snd = values.get tier := by
  obtain ⟨_ | early, _ | normal, _ | final⟩ := values <;> cases tier <;> rfl

theorem PerTier.toJson_eq {α : Type} (write : α → Json) (values : PerTier (Option α)) :
    values.toJson write =
      .object (values.held.map fun entry => (entry.1.label, write entry.2)) := by
  rw [PerTier.toJson, PerTier.held, List.map_filterMap]
  simp only [Option.map_map, Function.comp_def]

theorem PerTier.ofJson?_toJson {α : Type} {write : α → Json} {read? : Json → Option α}
    (h : ∀ value, read? (write value) = some value) (values : PerTier (Option α)) :
    PerTier.ofJson? read? (values.toJson write) = some values := by
  have hvalues : PerTier.ofFn (fun tier =>
      (values.held.find? (fun entry => entry.1 = tier)).map Prod.snd) = values :=
    PerTier.ext_get fun tier => by rw [PerTier.get_ofFn, PerTier.find?_held]
  rw [PerTier.toJson_eq]
  simp only [PerTier.ofJson?, Json.members?, Option.bind_eq_bind, Option.bind_some]
  rw [mapM_map_eq_some values.held]
  · rw [Option.bind_some, hvalues]
    rfl
  · intro entry _
    simp [h]

theorem Listener.ofJson?_toJson (listener : Listener) :
    Listener.ofJson? listener.toJson = some listener := by
  simp [Listener.ofJson?, Listener.toJson, Json.record?, Json.member?, Json.text?,
    PerTier.ofJson?_toJson Json.toNameSet?_ofNameSet, Json.toNameSet?_ofNameSet]

namespace Model

theorem ofJson?_toJson (model : Model) : Model.ofJson? model.toJson = some model := by
  simp [Model.ofJson?, Model.toJson, Json.record?, Json.member?, Json.text?,
    Json.toNameMap?_ofNameMap Callable.ofJson?_toJson,
    Json.toNameMap?_ofNameMap Listener.ofJson?_toJson]

end Model

-- What the members of an object of statistics say, each under its own name.
structure Statistics.ShownBy (statistics : Statistics) (members : List (String × Json)) : Prop where
  listeners : Json.member? "listeners" members = some (.number statistics.listeners)
  events : Json.member? "events" members = some (.number statistics.events)
  callables : Json.member? "submit_callables" members = some (.number statistics.callables)
  emissions : Json.member? "emit_edges" members = some (.number statistics.emissions)
  subscriptions :
    Json.member? "subscribe_edges" members = some (.number statistics.subscriptions)
  unproduced : Json.member? "unproduced_events" members = some (.names statistics.unproduced)
  unconsumed : Json.member? "unconsumed_events" members = some (.names statistics.unconsumed)

theorem Statistics.exists_shownBy (statistics : Statistics) :
    ∃ members, statistics.toJson = .object members ∧ statistics.ShownBy members :=
  ⟨_, rfl, by constructor <;> simp [Json.member?]⟩

namespace Model

theorem parse?_jsonReport (model : Model) :
    Json.parse? model.jsonReport = some (.object
      [("model", model.toJson), ("stats", (Statistics.ofModel model).toJson)]) := by
  rw [jsonReport, Json.parse?_pretty]

-- The report is an object. Its model reads back as the model it was made of and its statistics are
-- those of the graph, so that no other model has the same report.
theorem jsonReport_roundTrip (model : Model) :
    ∃ members statistics, Json.parse? model.jsonReport = some (.object members) ∧
      (Json.member? "model" members).bind ofJson? = some model ∧
      Json.member? "stats" members = some (.object statistics) ∧
      (Statistics.ofModel model).ShownBy statistics ∧
      ∀ other : Model, other.jsonReport = model.jsonReport → other = model := by
  obtain ⟨statistics, hstatistics, hshown⟩ := (Statistics.ofModel model).exists_shownBy
  have hreport := model.parse?_jsonReport
  rw [hstatistics] at hreport
  refine ⟨_, statistics, hreport, ?_, ?_, hshown, fun other hsame => ?_⟩
  · simp [Json.member?, ofJson?_toJson]
  · simp [Json.member?]
  · have hobjects := other.parse?_jsonReport
    rw [hsame, model.parse?_jsonReport] at hobjects
    have hmodels : other.toJson = model.toJson := by simp_all
    have hread : some other = some model := by
      rw [← other.ofJson?_toJson, ← model.ofJson?_toJson, hmodels]
    exact Option.some.inj hread

end Model

end EventFlow
