import EventFlow.Proofs.Listener.Merge

namespace EventFlow.Listener

namespace SourceFile

-- A macro without arguments is invoked by its name. After the name of any other callable
-- stands a parenthesis.
theorem invokes_iff {source : SourceFile} {callable : Callable} :
    source.invokes callable ↔
      if callable.kind = .objectMacro then callable.name ∈ source.mentions
      else callable.name ∈ source.calls := by
  unfold invokes
  cases callable.kind with
  | function => simp [Callable.Kind.needsCall]
  | functionMacro => simp [Callable.Kind.needsCall]
  | objectMacro => simp [Callable.Kind.needsCall]

-- What the file creates: the events it creates itself and those of the callables it invokes.
def Creates (source : SourceFile) (callables : List Callable) (event : String) : Prop :=
  event ∈ source.created ∨
    ∃ callable ∈ callables, source.invokes callable ∧ event ∈ callable.emits

variable {source : SourceFile} {callables : List Callable} {tier : Tier} {event : String}

theorem get_inEvents_listener :
    (source.listener callables).inEvents.get tier = some (source.inEvents.get tier) :=
  PerTier.get_map _ _ _

theorem hasTier_listener : (source.listener callables).HasTier tier :=
  ⟨_, get_inEvents_listener⟩

theorem declares_listener :
    (source.listener callables).Declares tier event ↔ event ∈ source.inEvents.get tier := by
  simp [Declares, get_inEvents_listener]

theorem mem_outEvents_listener :
    event ∈ (source.listener callables).outEvents ↔ source.Creates callables event := by
  simp only [listener, Creates, NameSet.mem_foldl_union, List.mem_filter, and_assoc]

theorem mem_files_listener {file : String} :
    file ∈ (source.listener callables).files ↔ source.file = file := by
  simp only [listener, NameSet.mem_ofList, List.mem_singleton, eq_comm]

end SourceFile

-- What several files of one listener say, taken together before any invocation is followed.
structure Pool where
  inEvents : PerTier NameSet
  created : NameSet
  calls : NameSet
  mentions : NameSet
  definitionFiles : NameSet
  files : NameSet

namespace Pool

def ofFiles (sources : List SourceFile) : Pool :=
  let together (field : SourceFile → NameSet) : NameSet :=
    sources.foldl (fun found source => found.union (field source)) ∅
  { inEvents := PerTier.ofFn fun tier => together (fun source => source.inEvents.get tier)
    created := together SourceFile.created
    calls := together SourceFile.calls
    mentions := together SourceFile.mentions
    definitionFiles := together SourceFile.definitionFiles
    files := together (fun source => NameSet.ofList [source.file]) }

def invokes (pool : Pool) (callable : Callable) : Bool :=
  if callable.kind.needsCall then callable.name ∈ pool.calls else callable.name ∈ pool.mentions

def listener (pool : Pool) (name : String) (callables : List Callable) : Listener :=
  { name := name
    inEvents := pool.inEvents.map some
    outEvents := (callables.filter pool.invokes).foldl
      (fun events callable => events.union callable.emits) pool.created
    definitionFiles := pool.definitionFiles
    files := pool.files }

theorem invokes_ofFiles {sources : List SourceFile} {callable : Callable} :
    (ofFiles sources).invokes callable ↔ ∃ source ∈ sources, source.invokes callable := by
  simp only [invokes, SourceFile.invokes, ofFiles]
  cases callable.kind.needsCall with
  | true => simp [NameSet.mem_foldl_union]
  | false => simp [NameSet.mem_foldl_union]

-- To follow the invocations of all files together is to follow those of each file.
theorem isUnion_listener {sources : List SourceFile} {name : String} (callables : List Callable)
    (hname : ∀ source ∈ sources, source.name = name) (hne : sources ≠ []) :
    IsUnion (sources.map fun source => source.listener callables)
      ((ofFiles sources).listener name callables) where
  name_eq part hpart := by
    obtain ⟨source, hsource, rfl⟩ := List.mem_map.mp hpart
    exact hname source hsource
  hasTier_iff tier := by
    obtain ⟨source, hsource⟩ := List.exists_mem_of_ne_nil sources hne
    refine iff_of_true ⟨_, PerTier.get_map _ _ _⟩ ?_
    exact ⟨_, List.mem_map_of_mem hsource, SourceFile.hasTier_listener⟩
  declares_iff tier event := by
    have hpool : ((ofFiles sources).listener name callables).Declares tier event ↔
        event ∈ (ofFiles sources).inEvents.get tier := by
      simp [Declares, listener]
    rw [hpool]
    simp only [ofFiles, PerTier.get_ofFn, NameSet.mem_foldl_union, NameSet.not_mem_empty,
      false_or, List.mem_map, exists_exists_and_eq_and, SourceFile.declares_listener]
  mem_outEvents_iff event := by
    simp only [listener, NameSet.mem_foldl_union, List.mem_filter, invokes_ofFiles,
      List.mem_map, exists_exists_and_eq_and, SourceFile.mem_outEvents_listener, SourceFile.Creates]
    constructor
    · rintro (hcreated | ⟨callable, ⟨hcallable, source, hsource, hinvokes⟩, hemits⟩)
      · simp only [ofFiles, NameSet.mem_foldl_union, NameSet.not_mem_empty, false_or] at hcreated
        obtain ⟨source, hsource, hevent⟩ := hcreated
        exact ⟨source, hsource, .inl hevent⟩
      · exact ⟨source, hsource, .inr ⟨callable, hcallable, hinvokes, hemits⟩⟩
    · rintro ⟨source, hsource, hevent | ⟨callable, hcallable, hinvokes, hemits⟩⟩
      · refine .inl ?_
        simp only [ofFiles, NameSet.mem_foldl_union, NameSet.not_mem_empty, false_or]
        exact ⟨source, hsource, hevent⟩
      · exact .inr ⟨callable, ⟨hcallable, source, hsource, hinvokes⟩, hemits⟩
  mem_definitionFiles_iff file := by
    simp only [listener, ofFiles, NameSet.mem_foldl_union, NameSet.not_mem_empty, false_or,
      List.mem_map, exists_exists_and_eq_and]
    rfl
  mem_files_iff file := by
    simp only [listener, ofFiles, NameSet.mem_foldl_union, NameSet.not_mem_empty, false_or,
      List.mem_map, exists_exists_and_eq_and]
    rfl

end Pool

end EventFlow.Listener
