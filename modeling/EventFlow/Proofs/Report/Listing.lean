import EventFlow.Proofs.Graph.Queries
import EventFlow.Proofs.Report.Documents
import Mathlib.Algebra.Ring.Nat

namespace EventFlow.Report

-- The lines of a text, without their ends.
def linesOf (text : String) : List String := (text.toList.splitOn '\n').map String.ofList

-- A line that sets a label, and one that is an item of a list.
def isAnchor (line : String) : Bool := ".. _".toList.isPrefixOf line.toList

def isBullet (line : String) : Bool := "* ".toList.isPrefixOf line.toList

-- Each anchor with the lines up to the next one. What stands above the first one is left out.
def sections : List String → List (String × List String)
  | [] => []
  | line :: rest =>
    if isAnchor line then (line, rest.takeWhile fun other => !isAnchor other) :: sections rest
    else sections rest

-- What a reader takes from a section: a title with the line below it, and the items of a list.
structure Listing where
  anchor : String
  title : String
  mark : String
  bullets : List String
  deriving DecidableEq

def Listing.ofSection (part : String × List String) : Listing :=
  ⟨part.1, part.2.getD 1 "", part.2.getD 2 "", part.2.filter isBullet⟩

def listings (text : String) : List Listing := (sections (linesOf text)).map Listing.ofSection

section Sections

variable {entries : List (String × List String)} {lines body : List String} {anchor : String}

theorem sections_append_of_forall (h : ∀ line ∈ body, isAnchor line = false) :
    sections (body ++ lines) = sections lines := by
  induction body with
  | nil => rfl
  | cons line body ih =>
    obtain ⟨hline, hbody⟩ := List.forall_mem_cons.mp h
    rw [List.cons_append, sections, hline]
    exact ih hbody

-- A text made of sections is cut up into them.
theorem sections_flatMap (h : ∀ entry ∈ entries,
    isAnchor entry.1 = true ∧ ∀ line ∈ entry.2, isAnchor line = false) :
    sections (entries.flatMap fun entry => entry.1 :: entry.2) = entries := by
  induction entries with
  | nil => rfl
  | cons entry entries ih =>
    obtain ⟨⟨hanchor, hbody⟩, hentries⟩ := List.forall_mem_cons.mp h
    have hnext : (entries.flatMap fun entry => entry.1 :: entry.2).takeWhile
        (fun other => !isAnchor other) = [] := by
      cases entries with
      | nil => rfl
      | cons next entries =>
        rw [List.flatMap_cons, List.cons_append,
          List.takeWhile_cons_of_neg (by simp [(hentries next List.mem_cons_self).1])]
    rw [List.flatMap_cons, List.cons_append, sections, if_pos hanchor,
      List.takeWhile_append_of_pos (fun line hline => by simp [hbody line hline]), hnext,
      List.append_nil, sections_append_of_forall hbody, ih hentries]

theorem map_fst_sections (lines : List String) :
    (sections lines).map Prod.fst = lines.filter isAnchor := by
  induction lines with
  | nil => rfl
  | cons line rest ih =>
    rw [sections]
    split_ifs with hline
    · rw [List.map_cons, ih, List.filter_cons_of_pos hline]
    · rw [ih, List.filter_cons_of_neg hline]

example : sections ["front", ".. _a:", "* b", ".. _c:"] =
    [(".. _a:", ["* b"]), (".. _c:", [])] := by decide +kernel

end Sections

section Text

variable {parts lines : List String}

theorem dropLast_unlines (hne : lines ≠ []) :
    (unlines lines).dropLast = List.intercalate ['\n'] (lines.map String.toList) := by
  induction lines with
  | nil => exact absurd rfl hne
  | cons line lines ih =>
    cases lines with
    | nil => simp [unlines]
    | cons next lines =>
      have hrest := ih (List.cons_ne_nil _ _)
      have hmore : unlines (next :: lines) ≠ [] := by simp [unlines]
      have hcons : unlines (line :: next :: lines) =
          line.toList ++ ['\n'] ++ unlines (next :: lines) := List.flatMap_cons
      rw [hcons, List.dropLast_append_of_ne_nil hmore, hrest]
      simp only [List.map_cons, List.intercalate_cons_cons]

-- A document loses the blank line at its end.
theorem linesOf_document (hne : lines ≠ []) (h : ∀ line ∈ lines, '\n' ∉ line.toList)
    (hparts : parts.flatMap String.toList = unlines (lines ++ [""])) :
    linesOf (document parts) = lines := by
  have hunlines : unlines (lines ++ [""]) = unlines lines ++ ['\n'] := List.flatMap_append
  have hlines : (lines.map String.toList) ≠ [] := by simpa using hne
  rw [linesOf, document, String.toList_ofList, hparts, hunlines, List.dropLast_concat,
    dropLast_unlines hne, List.splitOn_intercalate '\n' (by simpa using h) hlines, List.map_map]
  simp

-- An anchor with the lines below it: none of them is another anchor.
structure IsSection (part : String × List String) : Prop where
  anchor : isAnchor part.1 = true
  others : ∀ line ∈ part.2, isAnchor line = false
  oneLine : ∀ line ∈ part.1 :: part.2, '\n' ∉ line.toList

theorem IsSection.of_subset {anchor : String} {body kept : List String}
    (h : IsSection (anchor, body)) (hsub : kept ⊆ body) : IsSection (anchor, kept) where
  anchor := h.anchor
  others line hline := h.others line (hsub hline)
  oneLine line hline := h.oneLine line (List.cons_subset_cons anchor hsub hline)

-- A section as a document writes it: below the anchor is a title with a line below it, and at the
-- end a blank line.
structure Entry (part : String × List String) : Prop extends IsSection part where
  shape : ∃ title mark rest, part.2 = "" :: title :: mark :: (rest ++ [""])

theorem Listing.ofSection_append_blank (anchor title mark : String) (rest : List String) :
    ofSection (anchor, "" :: title :: mark :: (rest ++ [""])) =
      ofSection (anchor, "" :: title :: mark :: rest) := by
  have hblank : isBullet "" = false := by decide
  simp [ofSection, List.filter_cons, hblank]

-- The blank line that a document loses belongs to its last section, and is not missed there.
theorem sections_document {entries : List (String × List String)} (hne : entries ≠ [])
    (h : ∀ entry ∈ entries, Entry entry)
    (hparts : parts.flatMap String.toList =
      unlines (entries.flatMap fun entry => entry.1 :: entry.2)) :
    ((sections (linesOf (document parts))).flatMap fun part => part.1 :: part.2) =
        linesOf (document parts) ∧
      listings (document parts) = entries.map Listing.ofSection := by
  obtain ⟨init, last, rfl⟩ : ∃ init last, entries = init ++ [last] :=
    ⟨_, _, (List.dropLast_append_getLast hne).symm⟩
  obtain ⟨anchor, body⟩ := last
  have hlast := h (anchor, body) (by simp)
  obtain ⟨title, mark, rest, hbody⟩ := hlast.shape
  simp only at hbody
  subst hbody
  let kept : List (String × List String) := init ++ [(anchor, "" :: title :: mark :: rest)]
  have hkept : ∀ entry ∈ kept, IsSection entry := by
    rw [List.forall_mem_append, List.forall_mem_singleton]
    refine ⟨fun entry hentry => (h entry (List.mem_append_left _ hentry)).toIsSection, ?_⟩
    exact hlast.toIsSection.of_subset
      (List.sublist_append_left ("" :: title :: mark :: rest) [""]).subset
  have hlines : linesOf (document parts) = kept.flatMap fun entry => entry.1 :: entry.2 := by
    refine linesOf_document (by simp [kept]) (fun line hline => ?_) ?_
    · obtain ⟨entry, hentry, hline⟩ := List.mem_flatMap.mp hline
      exact (hkept entry hentry).oneLine line hline
    · rw [hparts]
      simp [kept]
  have hsections := sections_flatMap fun entry hentry =>
    ⟨(hkept entry hentry).anchor, (hkept entry hentry).others⟩
  rw [listings, hlines, hsections]
  refine ⟨rfl, ?_⟩
  rw [List.map_append, List.map_append, List.map_singleton, List.map_singleton,
    Listing.ofSection_append_blank]

end Text

section Index

variable {graph : Graph} {options : Options} {project event : String}

def frontBody : List String :=
  ["", "Source and sink module lists", "############################", "", ".. contents::",
    "   :local:", "   :depth: 2", "",
    "This page includes lists of source and sink modules for events that have many listeners or "
      ++ "sources.",
    "These were gathered on a single page to simplify the event propagation tables.", ""]

-- The sections of the index.
def indexEntries (graph : Graph) (options : Options) : List (String × List String) :=
  (anchor (options.label graph) "event_rel_modules", frontBody) ::
    (graph.events.toList.filter (isIndexed graph options)).flatMap fun event =>
      [(anchor (options.label graph) (sourcesOf event),
          listBody (options.label graph) s!"Source modules for {event}" (graph.producers event) ++
            [""]),
        (anchor (options.label graph) (sinksOf event),
          listBody (options.label graph) s!"Sink modules for {event}" (graph.audience event) ++
            ["", ""])]

theorem toList_indexFront : (indexFront graph options).toList =
    unlines (anchor (options.label graph) "event_rel_modules" :: frontBody) := by
  have hintroduction : introduction = String.ofList (unlines (frontBody.drop 8)) := by
    decide +kernel
  have hmark : underline '#' "Source and sink module lists" = "############################" := by
    decide +kernel
  rw [indexFront, String.toList_append, hintroduction, String.toList_ofList]
  simp [toString, hmark, unlines, frontBody]

theorem flatMap_indexParts : (indexParts graph options).flatMap String.toList =
    unlines ((indexEntries graph options).flatMap fun entry => entry.1 :: entry.2) := by
  rw [indexParts, List.flatMap_cons, toList_indexFront, indexEntries, List.flatMap_cons, unlines,
    unlines, List.flatMap_append, List.flatMap_map, List.flatMap_assoc, List.flatMap_assoc]
  refine congrArg _ (List.flatMap_congr fun event _ => ?_)
  rw [toList_indexSection, ← anchor_sourcesOf, ← anchor_sinksOf]
  simp [unlines]

theorem isPrefixOf_eq_false {c : Char} {rest line : List Char} (h : line.head? ≠ some c) :
    (c :: rest).isPrefixOf line = false := by
  rw [Bool.eq_false_iff, ne_eq, List.isPrefixOf_iff_prefix]
  rintro ⟨behind, rfl⟩
  exact h rfl

theorem isAnchor_eq_false {line : String} (h : line.toList.head? ≠ some '.') :
    isAnchor line = false := isPrefixOf_eq_false h

theorem isBullet_eq_false {line : String} (h : line.toList.head? ≠ some '*') :
    isBullet line = false := isPrefixOf_eq_false h

theorem head?_underline_ne {c mark : Char} (h : mark ≠ c) (title : String) :
    (underline mark title).toList.head? ≠ some c := by
  rw [underline, String.toList_ofList, List.head?_replicate]
  split_ifs
  · exact (Option.some_ne_none c).symm
  · exact fun hsome => h (Option.some.inj hsome)

variable {label title : String} {modules extra : List String}

theorem mem_listBody {line : String} (hextra : ∀ line ∈ extra, line = "")
    (h : line ∈ listBody project title modules ++ (extra ++ [""])) :
    line = "" ∨ line = title ∨ line = underline '=' title ∨
      ∃ name ∈ modules, line = s!"* :ref:`{project}_{name}`" := by
  simp only [listBody, List.mem_append, List.mem_cons, List.not_mem_nil, or_false,
    List.mem_map] at h
  obtain ((rfl | rfl | rfl | rfl) | ⟨name, hname, rfl⟩) | hblank | rfl := h
  · exact .inl rfl
  · exact .inr (.inl rfl)
  · exact .inr (.inr (.inl rfl))
  · exact .inl rfl
  · exact .inr (.inr (.inr ⟨name, hname, rfl⟩))
  · exact .inl (hextra line hblank)
  · exact .inl rfl

theorem entry_list (hproject : '\n' ∉ project.toList) (hlabel : '\n' ∉ label.toList)
    (htitle : '\n' ∉ title.toList) (hmodules : ∀ name ∈ modules, '\n' ∉ name.toList)
    (hhead : title.toList.head? = some 'S') (hextra : ∀ line ∈ extra, line = "") :
    Entry (anchor project label, listBody project title modules ++ (extra ++ [""])) where
  anchor := by simp [isAnchor, Report.anchor, toString]
  others line hline := by
    refine isAnchor_eq_false ?_
    obtain rfl | rfl | rfl | ⟨name, _, rfl⟩ := mem_listBody hextra hline
    · decide
    · rw [hhead]
      decide
    · exact head?_underline_ne (by decide) title
    · simp [toString]
  oneLine := by
    rw [List.forall_mem_cons]
    refine ⟨by simp [Report.anchor, toString, hproject, hlabel], fun line hline => ?_⟩
    obtain rfl | rfl | rfl | ⟨name, hname, rfl⟩ := mem_listBody hextra hline
    · decide
    · exact htitle
    · simp [underline]
    · simp [toString, hproject, hmodules name hname]
  shape := ⟨title, underline '=' title,
    "" :: (modules.map (fun name => s!"* :ref:`{project}_{name}`") ++ extra),
    by simp [listBody, underline]⟩

theorem ofSection_list (hhead : title.toList.head? = some 'S') (hextra : ∀ line ∈ extra, line = "")
    (project label : String) (modules : List String) :
    Listing.ofSection (anchor project label, listBody project title modules ++ (extra ++ [""])) =
      ⟨anchor project label, title, underline '=' title,
        modules.map fun name => s!"* :ref:`{project}_{name}`"⟩ := by
  have htitle : isBullet title = false := isBullet_eq_false (by rw [hhead]; decide)
  have hmark : isBullet (String.ofList (List.replicate title.length '=')) = false :=
    isBullet_eq_false (head?_underline_ne (by decide) title)
  have hblank : isBullet "" = false := by decide
  have hbullets : (modules.map fun name => s!"* :ref:`{project}_{name}`").filter isBullet =
      modules.map fun name => s!"* :ref:`{project}_{name}`" := by
    refine List.filter_eq_self.mpr fun line hline => ?_
    obtain ⟨name, _, rfl⟩ := List.mem_map.mp hline
    simp [isBullet, toString]
  have hblanks : (extra ++ [""]).filter isBullet = [] := by
    refine List.filter_eq_nil_iff.mpr fun line hline => ?_
    obtain rfl : line = "" := by
      obtain hline | hline := List.mem_append.mp hline
      · exact hextra line hline
      · exact List.mem_singleton.mp hline
    decide
  simp only [Listing.ofSection, List.filter_append, hblanks, List.append_nil]
  simp [listBody, underline, htitle, hmark, hblank, hbullets]

theorem frontBody_plain : ∀ line ∈ frontBody,
    isAnchor line = false ∧ isBullet line = false ∧ '\n' ∉ line.toList := by decide +kernel

theorem entry_front (hproject : '\n' ∉ project.toList) :
    Entry (anchor project "event_rel_modules", frontBody) := by
  have hshape : frontBody = "" :: "Source and sink module lists" ::
      "############################" :: ((frontBody.drop 3).dropLast ++ [""]) := rfl
  refine ⟨⟨by simp [isAnchor, anchor, toString], fun line hline => (frontBody_plain line hline).1,
    ?_⟩, ⟨_, _, _, hshape⟩⟩
  rw [List.forall_mem_cons]
  exact ⟨by simp [anchor, toString, hproject], fun line hline => (frontBody_plain line hline).2.2⟩

theorem ofSection_front (label : String) : Listing.ofSection (label, frontBody) =
    ⟨label, "Source and sink module lists", "############################", []⟩ := by
  have hbullets : frontBody.filter isBullet = [] :=
    List.filter_eq_nil_iff.mpr fun line hline => by simp [(frontBody_plain line hline).2.1]
  rw [Listing.ofSection, hbullets]
  rfl

-- What the index lists, section by section.
def indexListings (graph : Graph) (options : Options) : List Listing :=
  ⟨anchor (options.label graph) "event_rel_modules", "Source and sink module lists",
      "############################", []⟩ ::
    (graph.events.toList.filter (isIndexed graph options)).flatMap fun event =>
      [⟨anchor (options.label graph) (sourcesOf event), s!"Source modules for {event}",
          underline '=' s!"Source modules for {event}",
          (graph.producers event).map fun name => s!"* :ref:`{options.label graph}_{name}`"⟩,
        ⟨anchor (options.label graph) (sinksOf event), s!"Sink modules for {event}",
          underline '=' s!"Sink modules for {event}",
          (graph.audience event).map fun name => s!"* :ref:`{options.label graph}_{name}`"⟩]

theorem map_ofSection_indexEntries :
    (indexEntries graph options).map Listing.ofSection = indexListings graph options := by
  rw [indexEntries, indexListings, List.map_cons, ofSection_front, List.map_flatMap]
  refine congrArg _ (List.flatMap_congr fun event _ => ?_)
  have hsource : s!"Source modules for {event}".toList.head? = some 'S' := by simp [toString]
  have hsink : s!"Sink modules for {event}".toList.head? = some 'S' := by simp [toString]
  have hsources := @ofSection_list _ [] hsource (by simp) (options.label graph)
    (sourcesOf event) (graph.producers event)
  have hsinks := @ofSection_list _ [""] hsink (by simp) (options.label graph)
    (sinksOf event) (graph.audience event)
  exact congrArg₂ (fun first second => [first, second]) hsources hsinks

-- The names that the lines of an index are made of do not reach over a line end.
structure OneLine (graph : Graph) (options : Options) : Prop where
  label : '\n' ∉ (options.label graph).toList
  events : ∀ event ∈ graph.events, '\n' ∉ event.toList
  producers : ∀ event, ∀ name ∈ graph.producers event, '\n' ∉ name.toList
  audience : ∀ event, ∀ name ∈ graph.audience event, '\n' ∉ name.toList

theorem entry_of_mem (h : OneLine graph options) {entry : String × List String}
    (hentry : entry ∈ indexEntries graph options) : Entry entry := by
  obtain rfl | hentry := List.mem_cons.mp hentry
  · exact entry_front h.label
  · obtain ⟨event, hevent, hentry⟩ := List.mem_flatMap.mp hentry
    have hname := h.events event (List.mem_filter.mp hevent).1
    obtain rfl | rfl := List.mem_pair.mp hentry
    · exact @entry_list _ _ _ _ [] h.label (by simp [sourcesOf, toString, hname])
        (by simp [toString, hname]) (h.producers event) (by simp [toString]) (by simp)
    · exact @entry_list _ _ _ _ [""] h.label (by simp [sinksOf, toString, hname])
        (by simp [toString, hname]) (h.audience event) (by simp [toString]) (by simp)

theorem read_indexDocument (h : OneLine graph options) :
    ((sections (linesOf (indexDocument graph options))).flatMap fun part => part.1 :: part.2) =
        linesOf (indexDocument graph options) ∧
      listings (indexDocument graph options) = indexListings graph options := by
  have hentries : indexEntries graph options ≠ [] := List.cons_ne_nil _ _
  obtain ⟨hsections, hlistings⟩ := sections_document hentries
    (fun entry hentry => entry_of_mem h hentry) flatMap_indexParts
  exact ⟨hsections, hlistings.trans map_ofSection_indexEntries⟩

theorem anchor_injective {first second : String}
    (h : anchor project first = anchor project second) : first = second := by
  have hchars := congrArg String.toList h
  simpa [anchor, toString, String.toList_inj] using hchars

theorem sourcesOf_suffix (event : String) : "_sources".toList <:+ (sourcesOf event).toList :=
  ⟨event.toList, by simp [sourcesOf, toString]⟩

theorem sinksOf_suffix (event : String) : "_sinks".toList <:+ (sinksOf event).toList :=
  ⟨event.toList, by simp [sinksOf, toString]⟩

theorem sourcesOf_injective {first second : String} (h : sourcesOf first = sourcesOf second) :
    first = second := by
  have hchars := congrArg String.toList h
  simpa [sourcesOf, toString, String.toList_inj] using hchars

theorem sinksOf_injective {first second : String} (h : sinksOf first = sinksOf second) :
    first = second := by
  have hchars := congrArg String.toList h
  simpa [sinksOf, toString, String.toList_inj] using hchars

theorem sourcesOf_ne_sinksOf (first second : String) : sourcesOf first ≠ sinksOf second := by
  intro h
  have hsources := h ▸ sourcesOf_suffix first
  have hsuffix := List.suffix_of_suffix_length_le (sinksOf_suffix second) hsources (by decide)
  revert hsuffix
  decide

-- The labels of the index end in different words, or begin with different events.
theorem labels_nodup {indexed : List String} (h : indexed.Nodup) :
    ("event_rel_modules" ::
      indexed.flatMap fun event => [sourcesOf event, sinksOf event]).Nodup := by
  rw [List.nodup_cons, List.nodup_flatMap]
  refine ⟨fun hmem => ?_, fun event _ => ?_,
    h.imp fun {first second} hne label hfirst hsecond => ?_⟩
  · obtain ⟨event, _, hlabel⟩ := List.mem_flatMap.mp hmem
    obtain hlabel | hlabel := List.mem_pair.mp hlabel
    · exact absurd (hlabel ▸ sourcesOf_suffix event) (by decide)
    · exact absurd (hlabel ▸ sinksOf_suffix event) (by decide)
  · simpa using sourcesOf_ne_sinksOf event event
  · obtain rfl | rfl := List.mem_pair.mp hfirst
    · obtain heq | heq := List.mem_pair.mp hsecond
      · exact hne (sourcesOf_injective heq)
      · exact sourcesOf_ne_sinksOf _ _ heq
    · obtain heq | heq := List.mem_pair.mp hsecond
      · exact sourcesOf_ne_sinksOf _ _ heq.symm
      · exact hne (sinksOf_injective heq)

end Index

section Model

variable {model : Model} {graph : Graph} {options : Options} {event : String}

theorem audience_nodup : ((Graph.ofModel model).audience event).Nodup := by
  refine List.nodup_flatMap.mpr ⟨fun tier _ => ?_, ?_⟩
  · exact Graph.subscribers_ofModel.1.imp fun h => h.ne
  · have htiers : Tier.all.Pairwise (· ≠ ·) := by decide
    refine htiers.imp fun {tier other} hne name hname hother => hne ?_
    exact Graph.tier_unique (Graph.subscribers_ofModel.2 name |>.mp hname)
      (Graph.subscribers_ofModel.2 name |>.mp hother)

theorem mem_keys_of_audience {name : String} (h : name ∈ (Graph.ofModel model).audience event) :
    name ∈ model.listeners.keys := by
  obtain ⟨tier, _, hname⟩ := List.mem_flatMap.mp h
  exact NameMap.mem_keys_iff.mpr
    (Graph.nodes_of_subscribes (Graph.subscribers_ofModel.2 name |>.mp hname)).1

theorem oneLine_ofModel (hlabel : '\n' ∉ (options.label (Graph.ofModel model)).toList)
    (hlisteners : ∀ name ∈ model.listeners.keys, '\n' ∉ name.toList)
    (hevents : ∀ event ∈ model.events, '\n' ∉ event.toList) :
    OneLine (Graph.ofModel model) options where
  label := hlabel
  events := hevents
  producers _ name hname := hlisteners name (NameMap.mem_keys_iff.mpr
    (Graph.nodes_of_emits (Graph.producers_ofModel.2 name |>.mp hname)).1)
  audience _ name hname := hlisteners name (mem_keys_of_audience hname)

theorem length_audience (graph : Graph) (event : String) : (graph.audience event).length =
    (Tier.all.map fun tier => ((graph.subscribers event).get tier).length).sum := by
  rw [Graph.audience, List.length_flatten, PerTier.toList, List.map_map]
  rfl

theorem isIndexed_iff : isIndexed graph options event ↔
    options.indexFrom = none ∨ ∃ least, options.indexFrom = some least ∧
      (least ≤ (graph.producers event).length ∨
        least ≤ (Tier.all.map fun tier => ((graph.subscribers event).get tier).length).sum) := by
  rw [← length_audience]
  unfold isIndexed
  cases options.indexFrom with
  | none => simp
  | some least => simp

-- What a reader finds in the index of a graph whose labels begin with `project`. `indexed` are
-- the events that have lists there.
structure ReadsAs (graph : Graph) (project : String) (indexFrom : Option Nat)
    (indexed : List String) (text : String) : Prop where
  indexed_ascending : indexed.Pairwise (· < ·)
  mem_indexed : ∀ event, event ∈ indexed ↔ event ∈ graph.events ∧
    (indexFrom = none ∨ ∃ least, indexFrom = some least ∧
      (least ≤ (graph.producers event).length ∨
        least ≤ (Tier.all.map fun tier => ((graph.subscribers event).get tier).length).sum))
  anchors_eq : (linesOf text).filter isAnchor =
    s!".. _{project}_event_rel_modules:" :: indexed.flatMap fun event =>
      [s!".. _{project}_{event}_sources:", s!".. _{project}_{event}_sinks:"]
  anchors_nodup : ((linesOf text).filter isAnchor).Nodup
  -- the text is its sections, one after the other
  sections_eq : (sections (linesOf text)).flatMap (fun part => part.1 :: part.2) = linesOf text
  titles_eq : (listings text).map Listing.title =
    "Source and sink module lists" :: indexed.flatMap fun event =>
      [s!"Source modules for {event}", s!"Sink modules for {event}"]
  underlined : ∀ listing ∈ listings text, ∃ mark ∈ ['#', '='],
    listing.mark.toList = List.replicate listing.title.length mark
  -- a section lists all the producers of an event, or all its subscribers in tier order
  bullets_eq : (listings text).map Listing.bullets =
    [] :: indexed.flatMap fun event =>
      [(graph.producers event).map fun name => s!"* :ref:`{project}_{name}`",
        (Tier.all.flatMap (graph.subscribers event).get).map fun name =>
          s!"* :ref:`{project}_{name}`"]
  producers_ascending : ∀ event, (graph.producers event).Pairwise (· < ·)
  subscribers_ascending : ∀ event tier, ((graph.subscribers event).get tier).Pairwise (· < ·)
  subscribers_nodup : ∀ event, (Tier.all.flatMap (graph.subscribers event).get).Nodup

theorem anchor_event_rel_modules (project : String) :
    anchor project "event_rel_modules" = s!".. _{project}_event_rel_modules:" := by
  simp [anchor, toString, ← String.toList_inj]

theorem map_anchor_indexListings :
    (indexListings graph options).map Listing.anchor =
      ("event_rel_modules" :: (graph.events.toList.filter (isIndexed graph options)).flatMap
        fun event => [sourcesOf event, sinksOf event]).map (anchor (options.label graph)) := by
  simp only [indexListings, List.map_cons, List.map_flatMap, List.map_nil]

theorem exists_mark_of_mem {listing : Listing}
    (h : listing ∈ indexListings graph options) : ∃ mark ∈ ['#', '='],
      listing.mark.toList = List.replicate listing.title.length mark := by
  have hfront : "############################".toList =
      List.replicate "Source and sink module lists".length '#' := by decide +kernel
  obtain rfl | h := List.mem_cons.mp h
  · exact ⟨'#', by decide, hfront⟩
  · obtain ⟨event, _, h⟩ := List.mem_flatMap.mp h
    refine ⟨'=', by decide, ?_⟩
    obtain rfl | rfl := List.mem_pair.mp h
    · exact String.toList_ofList
    · exact String.toList_ofList

theorem indexDocument_readsAs
    (hlabel : '\n' ∉ (options.label (Graph.ofModel model)).toList)
    (hlisteners : ∀ name ∈ model.listeners.keys, '\n' ∉ name.toList)
    (hevents : ∀ event ∈ model.events, '\n' ∉ event.toList) :
    ∃ indexed, ReadsAs (Graph.ofModel model) (options.project.getD model.project)
      options.indexFrom indexed (indexDocument (Graph.ofModel model) options) := by
  obtain ⟨hsections, hlistings⟩ :=
    read_indexDocument (oneLine_ofModel hlabel hlisteners hevents)
  have hascending : ((Graph.ofModel model).events.toList.filter
      (isIndexed (Graph.ofModel model) options)).Pairwise (· < ·) :=
    (NameSet.ascending _).filter _
  have hanchors : (linesOf (indexDocument (Graph.ofModel model) options)).filter isAnchor =
      (indexListings (Graph.ofModel model) options).map Listing.anchor := by
    rw [← hlistings, listings, List.map_map, ← map_fst_sections]
    rfl
  rw [map_anchor_indexListings] at hanchors
  refine ⟨_, ⟨hascending, fun event => ?_, ?_, ?_, hsections, ?_, fun listing h => ?_, ?_,
    fun _ => Graph.producers_ofModel.1, fun _ _ => Graph.subscribers_ofModel.1,
    fun _ => audience_nodup⟩⟩
  · rw [List.mem_filter, isIndexed_iff, NameSet.mem_iff]
  · rw [hanchors, List.map_cons, List.map_flatMap, anchor_event_rel_modules]
    simp only [List.map_cons, List.map_nil, anchor_sourcesOf, anchor_sinksOf]
    rfl
  · rw [hanchors]
    exact (labels_nodup (hascending.imp fun h => h.ne)).map fun _ _ h => anchor_injective h
  · rw [hlistings, indexListings, List.map_cons, List.map_flatMap]
    rfl
  · rw [hlistings] at h
    exact exists_mark_of_mem h
  · rw [hlistings, indexListings, List.map_cons, List.map_flatMap]
    rfl

theorem indexDocument_readsAs_wired :
    '\n' ∉ (Options.label { indexFrom := some 2 } (Graph.ofModel wired)).toList ∧
      (∀ name ∈ wired.listeners.keys, '\n' ∉ name.toList) ∧
      (∀ event ∈ wired.events, '\n' ∉ event.toList) ∧
      ∃ indexed, ReadsAs (Graph.ofModel wired) "p" (some 2) indexed
        (indexDocument (Graph.ofModel wired) { indexFrom := some 2 }) :=
  have hlabel : '\n' ∉ (Options.label { indexFrom := some 2 } (Graph.ofModel wired)).toList := by
    decide +kernel
  have hlisteners : ∀ name ∈ wired.listeners.keys, '\n' ∉ name.toList := by decide +kernel
  have hevents : ∀ event ∈ wired.events, '\n' ∉ event.toList := by
    intro event hevent
    have hall : ∀ event ∈ wired.events.toList, '\n' ∉ event.toList := by decide +kernel
    exact hall event (NameSet.mem_iff.mp hevent)
  ⟨hlabel, hlisteners, hevents, indexDocument_readsAs hlabel hlisteners hevents⟩

end Model

end EventFlow.Report
