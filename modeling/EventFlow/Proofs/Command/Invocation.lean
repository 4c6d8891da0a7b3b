import EventFlow.Command.Invocation
import EventFlow.Proofs.Except

namespace EventFlow.Invocation

-- Whether an argument only says what is printed.
def Argument.isOutput : Argument → Bool
  | .switch .json | .switch .dot | .setting .listener _ => true
  | _ => false

-- The same request with nothing said about what is printed.
def plain (invocation : Invocation) : Invocation :=
  { invocation with json := false, dot := false, listener := none }

variable {words others : List String} {invocation other : Invocation}

theorem apply_output {argument : Argument} (h : argument.isOutput = true)
    (invocation : Invocation) : (invocation.apply argument).map plain = .ok invocation.plain := by
  cases argument with
  | path text => cases h
  | switch switch => cases switch <;> first | rfl | cases h
  | setting setting value => cases setting <;> first | rfl | cases h

theorem apply_plain {argument : Argument} (h : argument.isOutput = false)
    (invocation : Invocation) :
    invocation.plain.apply argument = (invocation.apply argument).map plain := by
  cases argument with
  | path text => rfl
  | switch switch => cases switch <;> first | rfl | cases h
  | setting setting value =>
    cases setting with
    | config | frameworkRoot | outDirectory | dotFile =>
      simp only [apply]
      cases pathOf _ value <;> rfl
    | collapseAt | indexFrom =>
      simp only [apply]
      cases numberOf _ value <;> rfl
    | appDirectory | frameworkModule | projectName => rfl
    | listener => cases h

-- Taking over all arguments, those left out that only say what is printed.
theorem foldlM_apply_plain (arguments : List Argument) (invocation : Invocation) :
    (arguments.filter (fun argument => !argument.isOutput)).foldlM apply invocation.plain =
      (arguments.foldlM apply invocation).map plain := by
  induction arguments generalizing invocation with
  | nil => rfl
  | cons argument arguments ih =>
    rw [List.foldlM_cons]
    cases houtput : argument.isOutput with
    | true =>
      have hsame := apply_output houtput invocation
      rw [List.filter_cons_of_neg (by simp [houtput])]
      cases happly : invocation.apply argument with
      | error fault => rw [happly] at hsame; cases hsame
      | ok next =>
        rw [happly] at hsame
        rw [← Except.ok.inj hsame, ih]
        rfl
    | false =>
      rw [List.filter_cons_of_pos (by simp [houtput]), List.foldlM_cons,
        apply_plain houtput invocation]
      cases invocation.apply argument with
      | error fault => rfl
      | ok next => exact ih next

theorem paths_filter (arguments : List Argument) :
    paths (arguments.filter fun argument => !argument.isOutput) = paths arguments := by
  induction arguments with
  | nil => rfl
  | cons argument arguments ih =>
    cases argument with
    | path text => exact congrArg (text :: ·) ih
    | switch switch => cases switch <;> exact ih
    | setting setting value => cases setting <;> exact ih

-- The path that arguments name goes into the request.
def withPath (paths : List String) (invocation : Invocation) : Invocation :=
  match paths with
  | [path] => { invocation with path := path }
  | _ => invocation

theorem plain_withPath (paths : List String) (invocation : Invocation) :
    (withPath paths invocation).plain = withPath paths invocation.plain := by
  unfold withPath
  split <;> rfl

-- What is read from accepted words comes from their arguments.
theorem exists_arguments (h : ofWords words = .ok invocation) :
    ∃ read taken, arguments words = .ok read ∧ read.foldlM apply {} = .ok taken ∧
      invocation = withPath (paths read) taken := by
  obtain ⟨read, hread, h⟩ := bind_eq_ok_iff.mp h
  cases hflag : (singleFlags read).find? (fun flag => 1 < (singleFlags read).count flag) with
  | some flag => simp only [hflag] at h; cases h
  | none =>
    simp only [hflag] at h
    obtain ⟨taken, htaken, h⟩ := bind_eq_ok_iff.mp h
    refine ⟨read, taken, hread, htaken, ?_⟩
    split at h
    · cases h
    · match hpaths : paths read with
      | [] => rw [hpaths] at h; exact (Except.ok.inj h).symm
      | [path] => rw [hpaths] at h; exact (Except.ok.inj h).symm
      | _ :: _ :: _ => rw [hpaths] at h; cases h

-- The arguments of words that say more than what is printed.
def lasting (words : List String) : Except Fault (List Argument) :=
  (arguments words).map fun read => read.filter fun argument => !argument.isOutput

-- Words that differ only in what is printed are one request but for that.
theorem plain_eq_of_lasting (hwords : ofWords words = .ok invocation)
    (hothers : ofWords others = .ok other) (hsame : lasting others = lasting words) :
    other.plain = invocation.plain := by
  obtain ⟨read, taken, hread, htaken, rfl⟩ := exists_arguments hwords
  obtain ⟨read', taken', hread', htaken', rfl⟩ := exists_arguments hothers
  have hfilter : read'.filter (fun argument => !argument.isOutput) =
      read.filter (fun argument => !argument.isOutput) := by
    rw [lasting, lasting, hread, hread'] at hsame
    exact Except.ok.inj hsame
  have hpaths : paths read' = paths read := by
    rw [← paths_filter read', hfilter, paths_filter]
  have htakens : taken'.plain = taken.plain := by
    have hplain := foldlM_apply_plain read {}
    have hplain' := foldlM_apply_plain read' {}
    rw [hfilter, hplain, htaken, htaken'] at hplain'
    exact (Except.ok.inj hplain').symm
  rw [plain_withPath, plain_withPath, hpaths, htakens]

end EventFlow.Invocation
