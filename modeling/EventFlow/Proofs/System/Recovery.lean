import EventFlow.Proofs.Graph.Queries
import EventFlow.Proofs.System.Corpus

namespace EventFlow.System

open Source Listener

variable {system : System} {suffix : String}

-- The callable that a helper is, with the file that defines it.
def Helper.callable (helper : Helper) (file : String) : Callable :=
  ⟨helper.name, helper.kind, file, NameSet.ofList helper.events⟩

-- The record of a listener says what its files were written to say.
structure Records (system : System) (name : String) (listener : Listener) : Prop where
  name_eq : listener.name = name
  mem_files_iff : ∀ file, file ∈ listener.files ↔
    ∃ entry ∈ system.listenerFiles, entry.2.name = name ∧ entry.1 = file
  declares_iff : ∀ tier event, listener.Declares tier event ↔ system.Subscribes name tier event
  mem_outEvents_iff : ∀ event, event ∈ listener.outEvents ↔ system.Creates name event
  definitionFiles_eq : listener.definitionFiles = ∅

-- The model and its graph give the system back.
structure Recovered (system : System) (model : Model) : Prop where
  callable_iff : ∀ name callable, model.callables.get? name = some callable ↔
    ∃ entry ∈ system.helperFiles, ∃ helper ∈ entry.2, name = helper.name ∧
      callable = helper.callable entry.1
  listener_iff : ∀ name, name ∈ (Graph.ofModel model).listeners ↔
    ∃ entry ∈ system.listenerFiles, entry.2.name = name
  records : ∀ name listener, model.listeners.get? name = some listener →
    system.Records name listener
  event_iff : ∀ event, event ∈ (Graph.ofModel model).events ↔
    ∃ name, (∃ tier, system.Subscribes name tier event) ∨ system.Creates name event
  -- a listener hears an event at the earliest tier of its subscriptions, and only there
  inEvents_eq : ∀ name ∈ (Graph.ofModel model).listeners,
    ∃ heard, (Graph.ofModel model).inEvents name = .ok heard ∧
      ∀ tier event, event ∈ heard.get tier ↔ system.SubscribesFirst name tier event
  outEvents_eq : ∀ name ∈ (Graph.ofModel model).listeners,
    ∃ created, (Graph.ofModel model).outEvents name = .ok created ∧
      ∀ event, event ∈ created ↔ system.Creates name event
  subscriber_iff : ∀ event tier name,
    name ∈ ((Graph.ofModel model).subscribers event).get tier ↔
      system.SubscribesFirst name tier event
  producer_iff : ∀ event name,
    name ∈ (Graph.ofModel model).producers event ↔ system.Creates name event

section Graph

variable {model : Model} {name event : String} {tier : Tier}
  (hlisteners : ∀ name, (∃ listener, model.listeners.get? name = some listener) ↔
    ∃ entry ∈ system.listenerFiles, entry.2.name = name)
  (hrecords : ∀ name listener, model.listeners.get? name = some listener →
    system.Records name listener)

include hlisteners hrecords

theorem emits_iff : .emits name event ∈ (Graph.ofModel model).edges ↔ system.Creates name event := by
  rw [Graph.emits_mem_edges_iff]
  constructor
  · rintro ⟨listener, hget, hevent⟩
    exact ((hrecords name listener hget).mem_outEvents_iff event).mp hevent
  · intro hcreates
    obtain ⟨entry, hentry, hname, _⟩ := id hcreates
    obtain ⟨listener, hget⟩ := (hlisteners name).mpr ⟨entry, hentry, hname⟩
    exact ⟨listener, hget, ((hrecords name listener hget).mem_outEvents_iff event).mpr hcreates⟩

theorem subscribes_iff : .subscribes event name tier ∈ (Graph.ofModel model).edges ↔
    system.SubscribesFirst name tier event := by
  have hfirst : ∀ listener, model.listeners.get? name = some listener →
      (listener.DeclaresFirst tier event ↔ system.SubscribesFirst name tier event) := by
    intro listener hget
    simp only [DeclaresFirst, SubscribesFirst, (hrecords name listener hget).declares_iff]
  rw [Graph.subscribes_mem_edges_iff]
  constructor
  · rintro ⟨listener, hget, hevent⟩
    exact (hfirst listener hget).mp hevent
  · intro hsubscribes
    obtain ⟨entry, hentry, hname, _⟩ := hsubscribes.1
    obtain ⟨listener, hget⟩ := (hlisteners name).mpr ⟨entry, hentry, hname⟩
    exact ⟨listener, hget, (hfirst listener hget).mpr hsubscribes⟩

theorem events_iff : event ∈ (Graph.ofModel model).events ↔
    ∃ name, (∃ tier, system.Subscribes name tier event) ∨ system.Creates name event := by
  refine Model.mem_events_iff.trans (exists_congr fun name => ?_)
  constructor
  · rintro ⟨listener, hget, ⟨tier, hdeclares⟩ | hevent⟩
    · exact .inl ⟨tier, ((hrecords name listener hget).declares_iff tier event).mp hdeclares⟩
    · exact .inr (((hrecords name listener hget).mem_outEvents_iff event).mp hevent)
  · rintro (⟨tier, hsubscribes⟩ | hcreates)
    · obtain ⟨entry, hentry, hname, _⟩ := id hsubscribes
      obtain ⟨listener, hget⟩ := (hlisteners name).mpr ⟨entry, hentry, hname⟩
      exact ⟨listener, hget, .inl ⟨tier,
        ((hrecords name listener hget).declares_iff tier event).mpr hsubscribes⟩⟩
    · obtain ⟨entry, hentry, hname, _⟩ := id hcreates
      obtain ⟨listener, hget⟩ := (hlisteners name).mpr ⟨entry, hentry, hname⟩
      exact ⟨listener, hget, .inr
        (((hrecords name listener hget).mem_outEvents_iff event).mpr hcreates)⟩

end Graph

section Described

variable (h : system.Described) (hu : system.Unmistakable)

include h

theorem creates_iff {callables : List Callable} (hcallables : ∀ callable, callable ∈ callables ↔
      ∃ entry ∈ system.helperFiles, ∃ helper ∈ entry.2, callable = helper.callable entry.1)
    {entry : String × ListenerFile} (hentry : entry ∈ system.listenerFiles)
    {source : SourceFile} (hread : entry.2.ReadAs system source) {event : String} :
    (event ∈ source.created ∨ ∃ callable ∈ callables, (if callable.kind = .objectMacro then
        callable.name ∈ source.mentions else callable.name ∈ source.calls) ∧
        event ∈ callable.emits) ↔
      (∃ function, .creates function event ∈ entry.2.statements) ∨
        ∃ function helper, .uses function helper ∈ entry.2.statements ∧ event ∈ helper.events := by
  rw [hread.mem_created_iff]
  refine or_congr_right ?_
  constructor
  · rintro ⟨callable, hcallable, hinvokes, hevent⟩
    obtain ⟨file, hfile, helper, hhelper, rfl⟩ := (hcallables callable).mp hcallable
    obtain ⟨function, huses⟩ :=
      (hread.invokes_iff helper (mem_helpers_iff.mpr ⟨file, hfile, hhelper⟩)).mp hinvokes
    exact ⟨function, helper, huses, NameSet.mem_ofList.mp hevent⟩
  · rintro ⟨function, helper, huses, hevent⟩
    have hhelper := ((h.listeners_sound entry hentry).statements_sound _ huses).2
    obtain ⟨file, hfile, hin⟩ := mem_helpers_iff.mp hhelper
    exact ⟨helper.callable file.1, (hcallables _).mpr ⟨file, hfile, helper, hin, rfl⟩,
      (hread.invokes_iff helper hhelper).mpr ⟨function, huses⟩, NameSet.mem_ofList.mpr hevent⟩

include hu

theorem records_of_gathers {callables : List Callable} (hcallables : ∀ callable,
      callable ∈ callables ↔
        ∃ entry ∈ system.helperFiles, ∃ helper ∈ entry.2, callable = helper.callable entry.1)
    {name : String} {listener : Listener}
    (hgathers : Corpus.Gathers system.corpus suffix callables name listener) :
    system.Records name listener where
  name_eq := hgathers.name_eq
  mem_files_iff file := by
    rw [hgathers.mem_files_iff]
    refine exists_fragmentsOf_iff h hu fun entry _ source _ hfile => ?_
    rw [hfile]
  declares_iff tier event := by
    obtain ⟨events, hget, hevents⟩ := hgathers.inEvents_eq tier
    have hdeclares : listener.Declares tier event ↔ event ∈ events := by
      simp [Declares, hget]
    rw [hdeclares, hevents]
    exact exists_fragmentsOf_iff h hu fun entry _ source hread _ => hread.mem_inEvents_iff tier event
  mem_outEvents_iff event := by
    rw [hgathers.mem_outEvents_iff]
    exact exists_fragmentsOf_iff h hu fun entry hentry source hread _ =>
      creates_iff h hcallables hentry hread
  definitionFiles_eq := by
    apply NameSet.ext
    intro file
    rw [hgathers.mem_definitionFiles_iff]
    refine iff_of_false ?_ (NameSet.not_mem_empty file)
    rintro ⟨source, hsource, hfile⟩
    obtain ⟨entry, _, _, hread⟩ := mem_fragments h hu (Corpus.mem_fragmentsOf_iff.mp hsource).1
    rw [hread.definitionFiles_eq] at hfile
    exact NameSet.not_mem_empty file hfile

theorem exists_listener_iff {callables : List Callable} (name : String) :
    (∃ listener, (system.corpus.listenersOf suffix callables).get? name = some listener) ↔
      ∃ entry ∈ system.listenerFiles, entry.2.name = name := by
  rw [Corpus.listenersOf_eq_some_iff]
  constructor
  · rintro ⟨source, hsource, hname⟩
    obtain ⟨entry, hentry, _, hread⟩ := mem_fragments h hu hsource
    exact ⟨entry, hentry, hread.name_eq.symm.trans hname⟩
  · rintro ⟨entry, hentry, hname⟩
    obtain ⟨source, hsource, _, hread⟩ := @exists_fragment system suffix h hu entry hentry
    exact ⟨source, hsource, hread.name_eq.trans hname⟩

end Described

-- Whatever the files are named and in whatever order their lines stand.
theorem model_recovered (h : system.Described) (hu : system.Unmistakable)
    (project suffix : String) :
    ∃ model, system.corpus.model project suffix = .ok model ∧ system.Recovered model := by
  obtain ⟨table, htable, hok⟩ := @Corpus.exists_model system.corpus project suffix
    (quietHeaders h hu) (unambiguous h hu) (registered h hu)
  have hget : ∀ name callable, table.get? name = some callable ↔
      ∃ entry ∈ system.helperFiles, ∃ helper ∈ entry.2, name = helper.name ∧
        callable = helper.callable entry.1 :=
    fun name callable => (htable name callable).trans (mem_eventDefinitions h hu)
  have hcallables : ∀ callable, callable ∈ table.values ↔
      ∃ entry ∈ system.helperFiles, ∃ helper ∈ entry.2, callable = helper.callable entry.1 := by
    intro callable
    rw [NameMap.mem_values_iff]
    constructor
    · rintro ⟨name, hname⟩
      obtain ⟨entry, hentry, helper, hhelper, _, hcallable⟩ := (hget name callable).mp hname
      exact ⟨entry, hentry, helper, hhelper, hcallable⟩
    · rintro ⟨entry, hentry, helper, hhelper, hcallable⟩
      exact ⟨helper.name, (hget _ callable).mpr ⟨entry, hentry, helper, hhelper, rfl, hcallable⟩⟩
  have hlisteners := @exists_listener_iff system suffix h hu table.values
  have hrecords : ∀ name listener,
      (system.corpus.listenersOf suffix table.values).get? name = some listener →
        system.Records name listener :=
    fun name listener hname => records_of_gathers h hu hcallables (Corpus.gathers_of_get? hname)
  refine ⟨_, hok, ?_⟩
  exact
    { callable_iff := hget
      listener_iff := fun name => Graph.mem_listeners_iff.trans (hlisteners name)
      records := hrecords
      event_iff := fun event => events_iff hlisteners hrecords
      inEvents_eq := fun name hname => by
        obtain ⟨heard, hheard, hevents⟩ := Graph.inEvents_ofModel hname
        exact ⟨heard, hheard, fun tier event =>
          ((hevents tier).2 event).trans (subscribes_iff hlisteners hrecords)⟩
      outEvents_eq := fun name hname => by
        obtain ⟨created, hcreated, _, hevents⟩ := Graph.outEvents_ofModel hname
        exact ⟨created, hcreated, fun event =>
          (hevents event).trans (emits_iff hlisteners hrecords)⟩
      subscriber_iff := fun event tier name =>
        (Graph.subscribers_ofModel.2 name).trans (subscribes_iff hlisteners hrecords)
      producer_iff := fun event name =>
        (Graph.producers_ofModel.2 name).trans (emits_iff hlisteners hrecords) }

-- A helper of each kind, and a listener with two files that uses them all.
def lamp : System :=
  let send : Helper := ⟨"send", .function, ["ready_event", "done_event"]⟩
  let sendOn : Helper := ⟨"SEND_ON", .functionMacro, ["on_event"]⟩
  let sendOff : Helper := ⟨"SEND_OFF", .objectMacro, ["off_event"]⟩
  ⟨NameMap.ofList
    [("lamp.c", .registers ⟨"lamp", "handle", [.subscribes .early "power_event"],
      [.uses "start" send, .creates "stop" "stop_event"]⟩),
     ("lamp_state.c", .registers ⟨"lamp", "track", [.uses "on" sendOn, .uses "off" sendOff],
      [.subscribes .normal "power_event"]⟩),
     ("send.c", .defines [send])],
   NameMap.ofList [("send.h", [sendOn, sendOff])]⟩

theorem model_recovered_lamp :
    (lamp.Described ∧ lamp.Unmistakable) ∧
      ∃ model, lamp.corpus.model "p" "_def.h" = .ok model ∧ lamp.Recovered model := by
  have hdescribed : lamp.Described := by decide +kernel
  have hunmistakable : lamp.Unmistakable := by decide +kernel
  exact ⟨⟨hdescribed, hunmistakable⟩, model_recovered hdescribed hunmistakable "p" "_def.h"⟩

-- In a model that gives the system back, a listener has a record that its sources agree with.
theorem Recovered.exists_record {model : Model} {project name : String}
    (hrecovered : system.Recovered model) (hdisjoint : system.corpus.Disjoint)
    (hok : system.corpus.model project suffix = .ok model)
    (hname : ∃ source ∈ system.corpus.fragments suffix, source.name = name) :
    ∃ callables listener, Corpus.Gathers system.corpus suffix callables name listener ∧
      system.Records name listener := by
  obtain ⟨hunambiguous, hregistered⟩ :=
    (Corpus.model_eq_ok_iff project suffix hdisjoint).mp ⟨model, hok⟩
  obtain ⟨table, _, htable⟩ := @Corpus.exists_model system.corpus project suffix
    hdisjoint.quietHeaders hunambiguous hregistered
  obtain rfl := Except.ok.inj (hok.symm.trans htable)
  obtain ⟨listener, hget⟩ :=
    (@Corpus.listenersOf_eq_some_iff system.corpus suffix table.values name).mpr hname
  exact ⟨table.values, listener, Corpus.gathers_of_get? hget, hrecovered.records name listener hget⟩

-- The event that is subscribed to has the name of a creation.
def strayEvent : System :=
  ⟨NameMap.ofList [("m.c", .registers ⟨"m", "h", [], [.subscribes .normal "new_x_event"]⟩)], ∅⟩

-- The helper has the name of a registration macro.
def strayHelper : System :=
  ⟨NameMap.ofList [("k.c", .defines [⟨"MY_EVENT_LISTENER", .function, ["x_event"]⟩])], ∅⟩

-- The function has the name of a subscription macro.
def strayFunction : System :=
  ⟨NameMap.ofList
    [("m.c", .registers ⟨"m", "h", [], [.creates "MY_EVENT_SUBSCRIBE" "x_event"]⟩)], ∅⟩

theorem not_recovered_strays :
    (strayEvent.Described ∧ ¬ ∃ model, strayEvent.corpus.model "p" "_def.h" = .ok model ∧
      strayEvent.Recovered model) ∧
    (strayHelper.Described ∧ ¬ ∃ model, strayHelper.corpus.model "p" "_def.h" = .ok model ∧
      strayHelper.Recovered model) ∧
    (strayFunction.Described ∧ ¬ ∃ model, strayFunction.corpus.model "p" "_def.h" = .ok model ∧
      strayFunction.Recovered model) := by
  refine ⟨⟨by decide +kernel, ?_⟩, ⟨by decide +kernel, ?_⟩, by decide +kernel, ?_⟩
  · rintro ⟨model, hok, hrecovered⟩
    obtain ⟨callables, listener, hgathers, hrecords⟩ :=
      @Recovered.exists_record _ _ _ _ "m" hrecovered (by decide +kernel) hok (by decide +kernel)
    have hcreated : ∃ source ∈ strayEvent.corpus.fragmentsOf "_def.h" "m",
        "x_event" ∈ source.created := by decide +kernel
    obtain ⟨source, hsource, hevent⟩ := hcreated
    have hout := (hgathers.mem_outEvents_iff "x_event").mpr ⟨source, hsource, .inl hevent⟩
    obtain ⟨entry, hentry, _, hcreates⟩ := (hrecords.mem_outEvents_iff "x_event").mp hout
    have hfiles : strayEvent.listenerFiles =
        [("m.c", ⟨"m", "h", [], [.subscribes .normal "new_x_event"]⟩)] := by decide +kernel
    rw [hfiles, List.mem_singleton] at hentry
    simp [hentry, ListenerFile.statements] at hcreates
  · rintro ⟨model, hok, _⟩
    have hregistered := ((Corpus.model_eq_ok_iff "p" "_def.h" (by decide +kernel)).mp ⟨model, hok⟩).2
    revert hregistered
    decide +kernel
  · rintro ⟨model, hok, hrecovered⟩
    obtain ⟨callables, listener, hgathers, hrecords⟩ :=
      @Recovered.exists_record _ _ _ _ "m" hrecovered (by decide +kernel) hok (by decide +kernel)
    obtain ⟨events, hget, hevents⟩ := hgathers.inEvents_eq .normal
    have hheard : "void" ∈ events := (hevents "void").mpr (by decide +kernel)
    obtain ⟨entry, hentry, _, hsubscribes⟩ :=
      (hrecords.declares_iff .normal "void").mp ⟨events, hget, hheard⟩
    have hfiles : strayFunction.listenerFiles =
        [("m.c", ⟨"m", "h", [], [.creates "MY_EVENT_SUBSCRIBE" "x_event"]⟩)] := by decide +kernel
    rw [hfiles, List.mem_singleton] at hentry
    simp [hentry, ListenerFile.statements] at hsubscribes

end EventFlow.System
