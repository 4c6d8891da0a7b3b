import EventFlow.Proofs.FileSystem.Follow

namespace EventFlow.FileSystem

variable {files made : FileSystem} {path : Path} {place location : Location} {name : String}
  {octets : List UInt8}

-- A file that replaces no directory leaves every directory in its place.
theorem lookup?_put_file_of_directory (hfree : files.lookup? location ≠ some .directory)
    (h : files.lookup? place = some .directory) :
    (files.put location (.file octets)).lookup? place = some .directory := by
  by_cases hroot : place = []
  · rw [hroot, lookup?_root]
  · have hne : place ≠ location := fun heq => hfree (heq ▸ h)
    rw [lookup?_put _ _ _ _ hroot, if_neg hne, h]

-- Where a file comes to lie that is written to a path.
def spot (files : FileSystem) (path : Path) : Location :=
  match files.resolveLast path with
  | .ok (place, some name, _) => place ++ [name]
  | _ => []

-- A path leads to a name in a directory, where no directory is, so that a file can be put there.
structure Receives (files : FileSystem) (path : Path) (place : Location) (name : String) : Prop where
  isName : Path.IsName name
  reached : ∃ first front, files.start path = .ok first ∧ path.segments = front ++ [name] ∧
    files.follow first front = .ok place
  directory : files.lookup? place = some .directory
  short : name.utf8ByteSize ≤ maxName
  free : files.lookup? (place ++ [name]) ≠ some .directory

namespace Receives

theorem put (h : files.Receives path place name)
    (hfree : files.lookup? location ≠ some .directory) :
    (files.put location (.file octets)).Receives path place name := by
  obtain ⟨first, front, hstart, hsegments, hfollow⟩ := h.reached
  have hstart' : (files.put location (.file octets)).start path = .ok first := by
    rw [← hstart]
    simp only [start, origin, current_put]
  refine ⟨h.isName, ⟨first, front, hstart', hsegments, ?_⟩, ?_, h.short, ?_⟩
  · exact follow_mono (fun _ => lookup?_put_file_of_directory hfree) hfollow
  · exact lookup?_put_file_of_directory hfree h.directory
  · rw [lookup?_put _ _ _ _ (by simp)]
    split
    · simp
    · exact h.free

theorem resolveLast_eq (h : files.Receives path place name) :
    files.resolveLast path = .ok (place, some name, false) := by
  obtain ⟨first, front, hstart, hsegments, hfollow⟩ := h.reached
  have hlast : path.segments.reverse.dropWhile (fun segment => segment = "") =
      name :: front.reverse := by
    simp [hsegments, h.isName.nonempty]
  have hslash : path.segments.getLast? ≠ some "" := by
    simp [hsegments, h.isName.nonempty]
  simp [resolveLast, hstart, hlast, hfollow, h.directory, hslash, bind, Except.bind, pure,
    Except.pure]

theorem spot_eq (h : files.Receives path place name) : files.spot path = place ++ [name] := by
  rw [spot, h.resolveLast_eq]

-- Such a file can be written, whatever stands in it.
theorem write_eq (h : files.Receives path place name) (octets : List UInt8) :
    files.write path octets = .ok (files.put (place ++ [name]) (.file octets)) := by
  have hdots : ¬ (name = "." ∨ name = "..") := by
    simp [h.isName.not_here, h.isName.not_above]
  simp only [write, h.resolveLast_eq, bind, Except.bind, if_neg hdots,
    if_neg (Nat.not_lt.mpr h.short), if_neg h.free]
  rfl

-- The path leads to the file that stands there.
theorem resolve_eq (h : files.Receives path place name)
    (hfile : files.lookup? (place ++ [name]) = some (.file octets)) :
    files.resolve path = .ok (place ++ [name], .file octets) := by
  obtain ⟨first, front, hstart, hsegments, hfollow⟩ := h.reached
  have hway : files.follow first path.segments = .ok (place ++ [name]) := by
    rw [hsegments, follow_append, hfollow]
    simp only [Except.bind]
    rw [follow_cons name [] h.directory, next_name h.isName h.short]
    rfl
  exact resolve_eq_ok_iff.mpr ⟨first, hstart, hway, hfile⟩

-- Where a file with a name could be written, files of this name can be put.
theorem of_write {front : List String} (hname : Path.IsName name)
    (hsegments : path.segments = front ++ [name]) (h : files.write path octets = .ok made) :
    ∃ place, files.Receives path place name := by
  have hlast : path.segments.reverse.dropWhile (fun segment => segment = "") =
      name :: front.reverse := by
    simp [hsegments, hname.nonempty]
  obtain ⟨target, htarget, hput⟩ := bind_eq_ok_iff.mp h
  obtain ⟨first, hstart, hrest⟩ := bind_eq_ok_iff.mp htarget
  rw [hlast] at hrest
  obtain ⟨place, hfollow, hplace⟩ := bind_eq_ok_iff.mp hrest
  rw [List.reverse_reverse] at hfollow
  cases hlookup : files.lookup? place with
  | none => rw [hlookup] at hplace; cases hplace
  | some entry =>
    cases entry with
    | file _ => rw [hlookup] at hplace; cases hplace
    | directory =>
      have hslash : path.segments.getLast? ≠ some "" := by simp [hsegments, hname.nonempty]
      simp only [hlookup, hslash, decide_false, pure, Except.pure, Except.ok.injEq] at hplace
      subst hplace
      have hdots : ¬ (name = "." ∨ name = "..") := by simp [hname.not_here, hname.not_above]
      simp only [if_neg hdots] at hput
      by_cases hlong : maxName < name.utf8ByteSize
      · rw [if_pos hlong] at hput
        cases hput
      · by_cases hfree : files.lookup? (place ++ [name]) = some .directory
        · rw [if_neg hlong, if_pos hfree] at hput
          cases hput
        · exact ⟨place, hname, ⟨first, front, hstart, hsegments, hfollow⟩, hlookup,
            Nat.le_of_not_lt hlong, hfree⟩

end Receives

-- The second tree is the first one with further directories.
structure Grown (before after : FileSystem) : Prop where
  current : after.current = before.current
  kept : ∀ location, after.lookup? location = before.lookup? location ∨
    before.lookup? location = none ∧ after.lookup? location = some .directory

namespace Grown

variable {before between after : FileSystem}

theorem refl (files : FileSystem) : files.Grown files := ⟨rfl, fun _ => .inl rfl⟩

theorem trans (h : before.Grown between) (h' : between.Grown after) : before.Grown after := by
  refine ⟨h'.current.trans h.current, fun location => ?_⟩
  rcases h.kept location, h'.kept location with ⟨hsame | ⟨hnone, hnew⟩, hsame' | ⟨hnone', hnew'⟩⟩
  · exact .inl (hsame'.trans hsame)
  · exact .inr ⟨hsame ▸ hnone', hnew'⟩
  · exact .inr ⟨hnone, hsame'.trans hnew⟩
  · exact .inr ⟨hnone, hnew'⟩

end Grown

theorem grown_makeDirectory (h : files.makeDirectory path = .ok made) : files.Grown made := by
  obtain ⟨⟨place, last?, slash⟩, _, hput⟩ := bind_eq_ok_iff.mp h
  cases last? with
  | none => cases hput
  | some name =>
    simp only at hput
    split at hput
    · cases hput
    · split at hput
      · cases hput
      · split at hput
        · cases hput
        · rename_i hfree
          cases hput
          refine ⟨current_put _ _, fun location => ?_⟩
          by_cases hroot : location = []
          · exact .inl (by rw [hroot, lookup?_root, lookup?_root])
          · rw [lookup?_put _ _ _ _ hroot]
            split
            · rename_i heq
              exact .inr ⟨by simpa [heq] using hfree, rfl⟩
            · exact .inl rfl

theorem grown_makeFirst (files : FileSystem) (paths : List Path) :
    files.Grown (files.makeFirst paths).1 := by
  induction paths with
  | nil => exact .refl files
  | cons path above ih =>
    rw [makeFirst]
    split
    · exact .refl files
    · split
      · rename_i hmade
        exact grown_makeDirectory hmade
      · generalize files.makeFirst above = result at ih
        obtain ⟨between, _ | fault⟩ := result
        · simp only
          split
          · rename_i hmade
            exact ih.trans (grown_makeDirectory hmade)
          · exact ih
        · exact ih
      · exact .refl files

theorem grown_makeDirectories (files : FileSystem) (path : Path) :
    files.Grown (files.makeDirectories path).1 :=
  grown_makeFirst files (path :: path.above)

end EventFlow.FileSystem
