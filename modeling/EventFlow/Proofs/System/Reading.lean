import EventFlow.Proofs.Corpus.Meaning
import EventFlow.Proofs.System.Listeners

namespace EventFlow

open Source

namespace Listener.SourceFile

-- A source without preprocessor lines that registers once is read without faults.
theorem ofStream?_of_code {stream : Stream} {name : String} (suffix file : String)
    (hdirectives : stream.directives = []) (hcandidate : isCandidate stream)
    (hregistered : registrations stream.code = [name]) :
    ofStream? suffix file stream = .ok (some
      { file := file
        name := name
        inEvents := PerTier.ofFn fun tier => NameSet.ofList
          (((subscriptions stream.code).filter (fun s => s.1 = tier)).map Prod.snd)
        created := Event.createdIn stream.tokens
        calls := NameSet.ofList (calledNames stream.tokens)
        mentions := NameSet.ofList stream.identifiers
        definitionFiles := ∅ }) := by
  rw [ofStream?, if_pos hcandidate, hregistered]
  simp only [resolve, hdirectives, List.filterMap_nil]
  rfl

theorem wellRegistered_of_code {stream : Stream} {name : String}
    (hdirectives : stream.directives = []) (hregistered : registrations stream.code = [name]) :
    WellRegistered stream := by
  rw [registrations_eq] at hregistered
  obtain ⟨argument, hargument, _⟩ := List.map_eq_singleton_iff.mp hregistered
  rw [WellRegistered, hargument]
  simp [redefinitions, hdirectives]

end Listener.SourceFile

namespace System

open Piece Listener.SourceFile

-- Reading lines one after the other, when what each gives does not depend on those behind it.
theorem flatMap_of_step {ι β : Type} {f : List Token → List β} {tokens : ι → List Token}
    {g : ι → List β} {items : List ι}
    (h : ∀ item ∈ items, ∀ rest, f (tokens item ++ rest) = g item ++ f rest)
    (rest : List Token) : f (items.flatMap tokens ++ rest) = items.flatMap g ++ f rest := by
  induction items with
  | nil => rfl
  | cons item items ih =>
    rw [List.forall_mem_cons] at h
    rw [List.flatMap_cons, List.append_assoc, h.1, ih h.2, List.flatMap_cons, List.append_assoc]

theorem directive_of_mem_tokensOf {pieces : List Piece} {token : Token}
    (h : token ∈ tokensOf pieces) : token.directive = none := by
  obtain ⟨piece, _, hpiece⟩ := List.mem_filterMap.mp h
  cases piece with
  | word name =>
    cases hpiece
    rfl
  | mark c =>
    cases hpiece
    rfl
  | gap => cases hpiece

namespace ListenerFile

variable {system : System} {file : ListenerFile}

theorem flatMap_lines {β : Type} {f : List Token → List β} {g : Statement → List β}
    {registered : List β} (hnil : f [] = [])
    (hstep : ∀ statement ∈ file.statements, ∀ rest,
      f (tokensOf (statement.line file.name) ++ rest) = g statement ++ f rest)
    (hregistration : ∀ rest, f (tokensOf (macroLine registrationMacro file.name file.handler) ++
      rest) = registered ++ f rest) :
    f (file.lines.flatMap tokensOf) =
      file.above.flatMap g ++ (registered ++ file.below.flatMap g) := by
  have habove := flatMap_of_step fun statement h => hstep statement (List.mem_append_left _ h)
  have hbelow := flatMap_of_step (fun statement h => hstep statement (List.mem_append_right _ h)) []
  rw [List.append_nil, hnil, List.append_nil] at hbelow
  rw [lines, List.flatMap_append, List.flatMap_cons, List.flatMap_map, List.flatMap_map, habove,
    hregistration, hbelow]

theorem code_stream : file.stream.code = file.lines.flatMap tokensOf := by
  refine List.filter_eq_self.mpr fun token htoken => ?_
  obtain ⟨line, _, hline⟩ := List.mem_flatMap.mp htoken
  exact decide_eq_true (directive_of_mem_tokensOf hline)

theorem identifiers_stream : file.stream.identifiers = file.lines.flatMap namesOf := by
  rw [Stream.identifiers, stream, List.filter_flatMap, List.map_flatMap]
  rfl

theorem registrations_stream (file : ListenerFile) : registrations file.stream.code = [file.name] := by
  have hlines : registrations (file.lines.flatMap tokensOf) =
      file.above.flatMap (fun _ => []) ++ ([file.name] ++ file.below.flatMap (fun _ => [])) :=
    flatMap_lines rfl (fun statement _ _ => statement.registrations_line)
      fun _ => Statement.registrations_registration
  have hnone : ∀ statements : List Statement, statements.flatMap (fun _ => ([] : List String)) = [] :=
    fun _ => List.flatMap_eq_nil_iff.mpr fun _ _ => rfl
  rw [code_stream, hlines, hnone, hnone]
  rfl

theorem calledNames_stream : calledNames file.stream.tokens =
    file.above.flatMap Statement.called ++ ([registrationMacro] ++
      file.below.flatMap Statement.called) :=
  flatMap_lines rfl (fun statement _ _ => statement.calledNames_line)
    fun _ => by simp [macroLine]

theorem mem_calledNames_iff {name : String} : name ∈ calledNames file.stream.tokens ↔
    name = registrationMacro ∨ ∃ statement ∈ file.statements, name ∈ statement.called := by
  simp only [calledNames_stream, List.mem_append, List.mem_flatMap, List.mem_singleton, statements,
    or_and_right, exists_or]
  exact or_left_comm

theorem subscriptions_stream (h : ∀ statement ∈ file.statements,
      statement.Sound system ∧ statement.Unmistakable) :
    subscriptions file.stream.code =
      file.above.flatMap (fun statement => statement.subscription?.toList) ++
        ([] ++ file.below.flatMap fun statement => statement.subscription?.toList) := by
  rw [code_stream]
  exact flatMap_lines rfl
    (fun statement hmem _ => Statement.subscriptions_line (h statement hmem).1 (h statement hmem).2)
    fun _ => Statement.subscriptions_registration

theorem mem_subscriptions_iff (h : ∀ statement ∈ file.statements,
      statement.Sound system ∧ statement.Unmistakable) {tier : Tier} {event : String} :
    (tier, event) ∈ subscriptions file.stream.code ↔
      .subscribes tier event ∈ file.statements := by
  have hstatement : ∀ statement : Statement, (tier, event) ∈ statement.subscription?.toList ↔
      statement = .subscribes tier event := by
    intro statement
    cases statement with
    | subscribes other name => simp [Statement.subscription?, eq_comm]
    | creates function name => simp [Statement.subscription?]
    | uses function helper => simp [Statement.subscription?]
  simp only [subscriptions_stream h, List.nil_append, List.mem_append, List.mem_flatMap,
    hstatement, exists_eq_right, statements]

theorem mem_identifiers_iff {name : String} : name ∈ file.stream.identifiers ↔
    name ∈ [registrationMacro, file.name, file.handler] ∨
      ∃ statement ∈ file.statements, name ∈ namesOf (statement.line file.name) := by
  rw [identifiers_stream, List.mem_flatMap]
  constructor
  · rintro ⟨line, hline, hname⟩
    rcases mem_lines_iff.mp hline with rfl | ⟨statement, hstatement, rfl⟩
    · exact .inl hname
    · exact .inr ⟨statement, hstatement, hname⟩
  · rintro (hname | ⟨statement, hstatement, hname⟩)
    · exact ⟨_, mem_lines_iff.mpr (.inl rfl), hname⟩
    · exact ⟨_, mem_lines_iff.mpr (.inr ⟨statement, hstatement, rfl⟩), hname⟩

theorem createdIn_stream : Event.createdIn file.stream.tokens =
    NameSet.ofList (file.stream.identifiers.filterMap Event.createdBy?) := by
  rw [Stream.identifiers, List.filterMap_map]
  rfl

theorem isCandidate_stream (file : ListenerFile) : isCandidate file.stream :=
  List.any_eq_true.mpr ⟨registrationMacro, mem_identifiers_iff.mpr (.inl List.mem_cons_self),
    registers_registrationMacro⟩

end ListenerFile

namespace Statement

variable {system : System} {statement : Statement} {name : String}

theorem namesOf_invocationPieces (helper : Helper) :
    namesOf helper.invocationPieces = [helper.name] := by
  unfold Helper.invocationPieces
  split
  · rfl
  · rfl

theorem mem_created_iff (hsound : statement.Sound system) (h : statement.Unmistakable)
    (hname : Event.createdBy? name = none) {event : String} :
    (∃ word ∈ namesOf (statement.line name), Event.createdBy? word = some event) ↔
      ∃ function, statement = .creates function event := by
  have hvoid : Event.createdBy? "void" = none := by decide
  cases statement with
  | subscribes tier other =>
    have hevent : Event.createdBy? other = none := h
    simp [line, macroLine, createdBy?_subscriptionMacro, hname, hevent]
  | creates function other =>
    simp [line, functionLine, hvoid, h.1, createdBy?_new hsound.2]
  | uses function helper =>
    simp [line, functionLine, hvoid, h.1, namesOf_invocationPieces, h.2.2]

-- A name that no line writes for itself stands there as that of a helper.
theorem mem_namesOf_line_iff {other : String} (hother : other ≠ name) (h : other ∉ statement.names) :
    other ∈ namesOf (statement.line name) ↔
      ∃ function helper, statement = .uses function helper ∧ helper.name = other := by
  cases statement with
  | subscribes tier event =>
    simp only [names, List.mem_cons, List.not_mem_nil, or_false, not_or] at h
    simp [line, macroLine, hother, h]
  | creates function event =>
    simp only [names, List.mem_cons, List.not_mem_nil, or_false, not_or] at h
    simp [line, functionLine, h]
  | uses function helper =>
    simp only [names, List.mem_cons, List.not_mem_nil, or_false, not_or] at h
    simp [line, functionLine, namesOf_invocationPieces, h, @eq_comm String other]

theorem mem_called_iff {other : String} (h : other ∉ statement.names) :
    other ∈ statement.called ↔ ∃ function helper, statement = .uses function helper ∧
      helper.kind.needsCall ∧ helper.name = other := by
  cases statement with
  | subscribes tier event =>
    simp only [names, List.mem_cons, List.not_mem_nil, or_false, not_or] at h
    simp [called, h]
  | creates function event =>
    simp only [names, List.mem_cons, List.not_mem_nil, or_false, not_or] at h
    simp [called, h]
  | uses function helper =>
    simp only [names, List.mem_cons, List.not_mem_nil, or_false, not_or] at h
    cases hcall : helper.kind.needsCall with
    | true => simp [called, hcall, h, @eq_comm String other]
    | false => simp [called, hcall, h]

end Statement

-- What is read off a listener file is what it is written from.
structure ListenerFile.ReadAs (system : System) (file : ListenerFile)
    (source : Listener.SourceFile) : Prop where
  name_eq : source.name = file.name
  mem_inEvents_iff : ∀ tier event, event ∈ source.inEvents.get tier ↔
    .subscribes tier event ∈ file.statements
  mem_created_iff : ∀ event, event ∈ source.created ↔
    ∃ function, .creates function event ∈ file.statements
  invokes_iff : ∀ helper ∈ system.helpers,
    (if helper.kind = .objectMacro then helper.name ∈ source.mentions
      else helper.name ∈ source.calls) ↔ ∃ function, .uses function helper ∈ file.statements
  definitionFiles_eq : source.definitionFiles = ∅

section Read

variable {system : System} {entry : String × ListenerFile}

theorem Described.mem_created_iff (h : system.Described) (hu : system.Unmistakable)
    (hentry : entry ∈ system.listenerFiles) {event : String} :
    event ∈ Event.createdIn entry.2.stream.tokens ↔
      ∃ function, .creates function event ∈ entry.2.statements := by
  obtain ⟨hname, hhandler⟩ := hu.listeners entry hentry
  have hline : ∀ statement ∈ entry.2.statements,
      (∃ word ∈ namesOf (statement.line entry.2.name), Event.createdBy? word = some event) ↔
        ∃ function, statement = .creates function event :=
    fun statement hmem => Statement.mem_created_iff
      ((h.listeners_sound entry hentry).statements_sound statement hmem)
      (hu.statements entry hentry statement hmem) hname
  have hmacro : Event.createdBy? registrationMacro = none := by decide
  rw [ListenerFile.createdIn_stream, NameSet.mem_ofList, List.mem_filterMap]
  simp only [ListenerFile.mem_identifiers_iff]
  constructor
  · rintro ⟨word, hword | ⟨statement, hstatement, hword⟩, hcreated⟩
    · simp only [List.mem_cons, List.not_mem_nil, or_false] at hword
      rcases hword with rfl | rfl | rfl
      · cases hmacro.symm.trans hcreated
      · cases hname.symm.trans hcreated
      · cases hhandler.symm.trans hcreated
    · obtain ⟨function, rfl⟩ := (hline statement hstatement).mp ⟨word, hword, hcreated⟩
      exact ⟨function, hstatement⟩
  · rintro ⟨function, hstatement⟩
    obtain ⟨word, hword, hcreated⟩ := (hline _ hstatement).mpr ⟨function, rfl⟩
    exact ⟨word, .inr ⟨_, hstatement, hword⟩, hcreated⟩

theorem Described.eq_of_name (h : system.Described) {helper other : Helper}
    (hhelper : helper ∈ system.helpers) (hother : other ∈ system.helpers)
    (hname : helper.name = other.name) : helper = other :=
  List.inj_on_of_nodup_map h.helpers_distinct hhelper hother hname

theorem Described.invokes_iff (h : system.Described) (hentry : entry ∈ system.listenerFiles)
    {helper : Helper} (hhelper : helper ∈ system.helpers) :
    (if helper.kind = .objectMacro then helper.name ∈ entry.2.stream.identifiers
      else helper.name ∈ calledNames entry.2.stream.tokens) ↔
        ∃ function, .uses function helper ∈ entry.2.statements := by
  have hapart := h.helpers_apart helper hhelper entry hentry
  rw [ListenerFile.names, List.mem_append, not_or] at hapart
  obtain ⟨hnot, hlines⟩ := hapart
  have hstatements : ∀ statement ∈ entry.2.statements, helper.name ∉ statement.names :=
    fun statement hmem hin => hlines (List.mem_flatMap.mpr ⟨statement, hmem, hin⟩)
  have hother : helper.name ≠ entry.2.name := fun heq => hnot (by simp [heq])
  have huses : ∀ function other, .uses function other ∈ entry.2.statements →
      other.name = helper.name → other = helper := by
    intro function other hmem hname
    have hsound := (h.listeners_sound entry hentry).statements_sound _ hmem
    exact h.eq_of_name hsound.2 hhelper hname
  split
  · rw [ListenerFile.mem_identifiers_iff]
    constructor
    · rintro (hmem | ⟨statement, hstatement, hmem⟩)
      · exact absurd hmem hnot
      · obtain ⟨function, other, rfl, hname⟩ :=
          (Statement.mem_namesOf_line_iff hother (hstatements statement hstatement)).mp hmem
        exact ⟨function, huses function other hstatement hname ▸ hstatement⟩
    · rintro ⟨function, hstatement⟩
      exact .inr ⟨_, hstatement, (Statement.mem_namesOf_line_iff hother
        (hstatements _ hstatement)).mpr ⟨function, helper, rfl, rfl⟩⟩
  · rename_i hkind
    rw [ListenerFile.mem_calledNames_iff]
    constructor
    · rintro (hmem | ⟨statement, hstatement, hmem⟩)
      · exact absurd (hmem ▸ List.mem_cons_self) hnot
      · obtain ⟨function, other, rfl, _, hname⟩ :=
          (Statement.mem_called_iff (hstatements statement hstatement)).mp hmem
        exact ⟨function, huses function other hstatement hname ▸ hstatement⟩
    · rintro ⟨function, hstatement⟩
      have hcall : helper.kind.needsCall := by
        cases hcases : helper.kind with
        | function => rfl
        | functionMacro => rfl
        | objectMacro => exact absurd hcases hkind
      exact .inr ⟨_, hstatement, (Statement.mem_called_iff (hstatements _ hstatement)).mpr
        ⟨function, helper, rfl, hcall, rfl⟩⟩

theorem Described.exists_source (h : system.Described) (hu : system.Unmistakable)
    (hentry : entry ∈ system.listenerFiles) (suffix : String) :
    ∃ source, ofStream? suffix entry.1 (Stream.ofText entry.2.text) = .ok (some source) ∧
      entry.2.ReadAs system source ∧ source.file = entry.1 := by
  have hstream := (h.listeners_sound entry hentry).unplaced_text h.helpers_sound
  have hsound : ∀ statement ∈ entry.2.statements, statement.Sound system ∧ statement.Unmistakable :=
    fun statement hmem => ⟨(h.listeners_sound entry hentry).statements_sound statement hmem,
      hu.statements entry hentry statement hmem⟩
  have hread := ofStream?_of_code suffix entry.1 rfl entry.2.isCandidate_stream
    entry.2.registrations_stream
  rw [← hstream, ofStream?_unplaced, hstream] at hread
  refine ⟨_, hread, ?_, rfl⟩
  exact
    { name_eq := rfl
      mem_inEvents_iff := fun tier event => by
        rw [PerTier.get_ofFn, NameSet.mem_ofList, ← ListenerFile.mem_subscriptions_iff hsound]
        simp
      mem_created_iff := fun event => h.mem_created_iff hu hentry
      invokes_iff := fun helper hhelper => by
        simp only [NameSet.mem_ofList]
        exact h.invokes_iff hentry hhelper
      definitionFiles_eq := rfl }

theorem Described.isCandidate_text (h : system.Described)
    (hentry : entry ∈ system.listenerFiles) : Corpus.isCandidate entry.2.text := by
  rw [Corpus.isCandidate, ← isCandidate_unplaced,
    (h.listeners_sound entry hentry).unplaced_text h.helpers_sound]
  exact entry.2.isCandidate_stream

theorem Described.wellRegistered (h : system.Described) (hentry : entry ∈ system.listenerFiles) :
    WellRegistered (Stream.ofText entry.2.text) := by
  have hstream := (h.listeners_sound entry hentry).unplaced_text h.helpers_sound
  refine @wellRegistered_of_code _ entry.2.name ?_ ?_
  · have hdirectives := congrArg Stream.directives hstream
    exact List.map_eq_nil_iff.mp hdirectives
  · rw [← registrations_unplaced, ← Stream.code_unplaced, hstream]
    exact entry.2.registrations_stream

end Read

end System

end EventFlow
