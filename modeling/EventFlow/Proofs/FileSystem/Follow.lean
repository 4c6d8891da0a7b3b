import EventFlow.FileSystem.Basic
import EventFlow.Proofs.Except
import EventFlow.Proofs.Path

namespace EventFlow.FileSystem

variable {files : FileSystem} {path : Path} {place first : Location} {name : String}

@[simp] theorem lookup?_root : files.lookup? [] = some .directory := rfl

@[simp] theorem current_put (location : Location) (entry : Entry) :
    (files.put location entry).current = files.current := by
  unfold put
  split <;> rfl

-- Where one segment leads from a directory.
def next (place : Location) (segment : String) : Except Fault Location :=
  if Path.isIdle segment then .ok place
  else if segment = ".." then .ok place.dropLast
  else if maxName < segment.utf8ByteSize then .error .nameTooLong
  else .ok (place ++ [segment])

theorem next_name (hname : Path.IsName name) (hshort : name.utf8ByteSize ≤ maxName) :
    next place name = .ok (place ++ [name]) := by
  rw [next, if_neg (by simp [hname.not_idle]), if_neg hname.not_above,
    if_neg (Nat.not_lt.mpr hshort)]

theorem follow_cons (segment : String) (rest : List String)
    (h : files.lookup? first = some .directory) :
    files.follow first (segment :: rest) =
      (next first segment).bind fun place => files.follow place rest := by
  rw [follow, h, next]
  by_cases hidle : Path.isIdle segment = true
  · simp only [hidle, if_true, Except.bind]
  · by_cases habove : segment = ".."
    · simp only [if_neg hidle, if_pos habove, Except.bind]
    · by_cases hlong : maxName < segment.utf8ByteSize
      · simp only [if_neg hidle, if_neg habove, if_pos hlong, Except.bind]
      · simp only [if_neg hidle, if_neg habove, if_neg hlong, Except.bind]

theorem directory_of_follow {segment : String} {rest : List String}
    (h : files.follow first (segment :: rest) = .ok place) :
    files.lookup? first = some .directory := by
  rw [follow] at h
  cases hfirst : files.lookup? first with
  | none => simp [hfirst] at h
  | some entry =>
    cases entry with
    | file _ => simp [hfirst] at h
    | directory => rfl

-- Idle segments lead from a directory to itself.
theorem follow_idle {segments : List String} (h : files.lookup? place = some .directory)
    (hidle : ∀ segment ∈ segments, Path.isIdle segment = true) :
    files.follow place segments = .ok place := by
  induction segments with
  | nil => rfl
  | cons segment rest ih =>
    rw [List.forall_mem_cons] at hidle
    rw [follow_cons segment rest h, next, if_pos hidle.1]
    exact ih hidle.2

-- A way through directories stays open as long as they stay.
theorem follow_mono {later : FileSystem}
    (hstay : ∀ place, files.lookup? place = some .directory → later.lookup? place = some .directory)
    {segments : List String} (h : files.follow first segments = .ok place) :
    later.follow first segments = .ok place := by
  induction segments generalizing first with
  | nil => exact h
  | cons segment rest ih =>
    have hfirst := directory_of_follow h
    rw [follow_cons segment rest hfirst] at h
    rw [follow_cons segment rest (hstay first hfirst)]
    cases hnext : next first segment with
    | error fault => rw [hnext] at h; cases h
    | ok place =>
      rw [hnext] at h
      exact ih h

theorem follow_append (first : Location) (front back : List String) :
    files.follow first (front ++ back) =
      (files.follow first front).bind fun place => files.follow place back := by
  induction front generalizing first with
  | nil => rfl
  | cons segment rest ih =>
    cases hfirst : files.lookup? first with
    | none => rw [List.cons_append, follow, follow, hfirst]; rfl
    | some entry =>
      cases entry with
      | file _ => rw [List.cons_append, follow, follow, hfirst]; rfl
      | directory =>
        rw [List.cons_append, follow_cons segment _ hfirst, follow_cons segment _ hfirst]
        cases next first segment with
        | error fault => rfl
        | ok place => exact ih place

theorem origin_eq_ok_iff : files.origin path = .ok first ↔
    '\x00' ∉ path.text.toList ∧ path.text ≠ "" ∧
      first = if path.isAbsolute then [] else files.current := by
  unfold origin
  by_cases hnul : '\x00' ∈ path.text.toList
  · simp [hnul]
  · by_cases hempty : path.text = ""
    · simp [hempty]
    · rw [if_neg hnul, if_neg hempty, Except.ok.injEq]
      exact ⟨fun h => ⟨hnul, hempty, h.symm⟩, fun h => h.2.2.symm⟩

theorem start_eq_ok_iff : files.start path = .ok first ↔
    files.origin path = .ok first ∧ path.text.utf8ByteSize ≤ maxPath := by
  rw [start, bind_eq_ok_iff]
  constructor
  · rintro ⟨place, horigin, hplace⟩
    by_cases hlong : maxPath < path.text.utf8ByteSize
    · rw [if_pos hlong] at hplace
      cases hplace
    · rw [if_neg hlong] at hplace
      cases hplace
      exact ⟨horigin, Nat.le_of_not_lt hlong⟩
  · rintro ⟨horigin, hshort⟩
    exact ⟨first, horigin, by rw [if_neg (Nat.not_lt.mpr hshort)]; rfl⟩

theorem resolve_eq_ok_iff {entry : Entry} :
    files.resolve path = .ok (place, entry) ↔ ∃ first, files.start path = .ok first ∧
      files.follow first path.segments = .ok place ∧ files.lookup? place = some entry := by
  rw [resolve, bind_eq_ok_iff]
  refine exists_congr fun first => and_congr_right fun _ => ?_
  rw [bind_eq_ok_iff]
  constructor
  · rintro ⟨end', hfollow, hlookup⟩
    cases hend : files.lookup? end' with
    | none => rw [hend] at hlookup; cases hlookup
    | some found =>
      rw [hend] at hlookup
      cases hlookup
      exact ⟨hfollow, hend⟩
  · rintro ⟨hfollow, hlookup⟩
    exact ⟨place, hfollow, by rw [hlookup]; rfl⟩

theorem isDirectory_iff : files.isDirectory path = true ↔
    ∃ place, files.resolve path = .ok (place, .directory) := by
  unfold isDirectory
  cases files.resolve path with
  | error fault => simp
  | ok found =>
    obtain ⟨place, _ | octets⟩ := found
    · simp
    · simp

-- A slash at the end of a path to a directory changes nothing.
theorem follow_lead (h : files.follow first path.segments = .ok place) (hne : path.text ≠ "") :
    files.follow first path.lead = .ok place := by
  by_cases hopen : path.IsOpen
  · rw [Path.segments_of_isOpen hopen hne, follow_append] at h
    obtain ⟨reached, hreached, hlast⟩ := bind_eq_ok_iff.mp h
    rw [follow_cons "" [] (directory_of_follow hlast)] at hlast
    cases hlast
    exact hreached
  · rwa [Path.lead, if_neg hopen]

end EventFlow.FileSystem
