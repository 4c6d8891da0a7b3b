import EventFlow.Proofs.Listener.Registration
import EventFlow.Proofs.Source.Inclusion

namespace EventFlow.Listener.SourceFile

open Source

variable {suffix file text : String} {stream : Stream} {source : SourceFile}

theorem mem_definitionFiles_iff (h : ofStream? suffix file stream = .ok (some source))
    {target : String} : target ∈ source.definitionFiles ↔ suffix.toList <:+ target.toList ∧
      ∃ directive ∈ stream.directives, directive.includeTarget? = some target := by
  unfold ofStream? at h
  split at h
  · split at h
    · rename_i registered _
      cases hresolve : resolve file stream registered with
      | error error =>
        rw [hresolve] at h
        cases h
      | ok name =>
        rw [hresolve] at h
        cases h
        rw [NameSet.mem_ofList, List.mem_filter, List.mem_filterMap, List.isSuffixOf_iff_suffix,
          and_comm]
    · cases h
  · cases h

-- Whether a preprocessor line begins as one that includes a file.
def beginsInclusion (directive : Directive) : Bool :=
  (Directive.afterKeyword? "include" directive.text.toList).isSome

-- A target is recorded as it is named between quotes, and so between angle brackets just when
-- the line reads as words with single spaces. With no other lines there are no other targets.
theorem definitionFiles_named (h : ofStream? suffix file (Stream.ofText text) = .ok (some source)) :
    (∀ (line : IncludeLine) (number : Nat), line.StandsAt text number →
      ∃ directive ∈ (Stream.ofText text).directives, directive.line = number ∧
        (directive.includeTarget? = some line.target ↔ line.quoted ∨ line.Kept)) ∧
    (∀ (line : IncludeLine) (number : Nat), line.StandsAt text number →
      line.quoted ∨ line.Kept →
      (line.target ∈ source.definitionFiles ↔ suffix.toList <:+ line.target.toList)) ∧
    ((∀ directive ∈ (Stream.ofText text).directives, beginsInclusion directive →
        ∃ line : IncludeLine, line.StandsAt text directive.line ∧ (line.quoted ∨ line.Kept)) →
      ∀ target ∈ source.definitionFiles, ∃ (line : IncludeLine) (number : Nat),
        line.StandsAt text number ∧ line.target = target) := by
  have hkept (line : IncludeLine) : line.quoted ∨ line.Kept ↔ line.Kept :=
    or_iff_right_of_imp IncludeLine.kept_of_quoted
  refine ⟨fun line number hstands => ?_, fun line number hstands hplain => ?_,
    fun hlines target htarget => ?_⟩
  · obtain ⟨directive, hmem, hline, htarget⟩ := hstands.exists_directive
    exact ⟨directive, hmem, hline, htarget.trans (hkept line).symm⟩
  · obtain ⟨directive, hmem, -, htarget⟩ := hstands.exists_directive
    rw [mem_definitionFiles_iff h]
    exact and_iff_left ⟨directive, hmem, htarget.mpr ((hkept line).mp hplain)⟩
  · obtain ⟨-, directive, hmem, hnamed⟩ := (mem_definitionFiles_iff h).mp htarget
    have hbegins : beginsInclusion directive := by
      obtain ⟨rest, hrest, -⟩ := Option.bind_eq_some_iff.mp hnamed
      rw [beginsInclusion, hrest]
      rfl
    obtain ⟨line, hstands, hplain⟩ := hlines directive hmem hbegins
    obtain ⟨other, hother, hline, hsame⟩ := hstands.exists_directive
    obtain rfl := Stream.eq_of_line_eq hother hmem hline
    refine ⟨line, _, hstands, ?_⟩
    exact Option.some.inj ((hsame.mpr ((hkept line).mp hplain)).symm.trans hnamed)

def lampText : String :=
  "#include \"lamp_def.h\"\n#include <sys/a_def.h>\nEVENT_LISTENER(lamp, run);\n"

def lampLine : IncludeLine := ⟨true, "lamp_def.h", by decide, by simp⟩

def systemLine : IncludeLine := ⟨false, "sys/a_def.h", by decide, by simp⟩

theorem definitionFiles_named_lamp : ∃ source,
    ofStream? "_def.h" "lamp.c" (Stream.ofText lampText) = .ok (some source) ∧
    lampLine.target ∈ source.definitionFiles ∧ systemLine.target ∈ source.definitionFiles ∧
    ∀ target ∈ source.definitionFiles, ∃ (line : IncludeLine) (number : Nat),
      line.StandsAt lampText number ∧ line.target = target := by
  obtain ⟨source, hsource⟩ := @ofStream?_eq_ok "_def.h" "lamp.c" (Stream.ofText lampText)
    (by decide +kernel) (by decide +kernel)
  have hlamp : lampLine.StandsAt lampText 1 := by
    have htext : lampText = "" ++ lampLine.text ++
        "\n#include <sys/a_def.h>\nEVENT_LISTENER(lamp, run);\n" := by decide +kernel
    have hends : EndsLine ("" ++ lampLine.text ++ "\n") :=
      ⟨Lexeme.scan "#include \"lamp_def.h\"".toList, by decide +kernel⟩
    exact ⟨_, _, htext, rfl, .inl rfl, .inr ⟨rfl, hends⟩⟩
  have hsystem : systemLine.StandsAt lampText 2 := by
    have htext : lampText = "#include \"lamp_def.h\"\n" ++ systemLine.text ++
        "\nEVENT_LISTENER(lamp, run);\n" := by decide +kernel
    have hnumber : 2 = 1 + "#include \"lamp_def.h\"\n".toList.count '\n' := by decide +kernel
    have habove : EndsLine "#include \"lamp_def.h\"\n" :=
      ⟨Lexeme.scan "#include \"lamp_def.h\"".toList, by decide +kernel⟩
    have hends : EndsLine ("#include \"lamp_def.h\"\n" ++ systemLine.text ++ "\n") :=
      ⟨Lexeme.scan "#include \"lamp_def.h\"\n#include <sys/a_def.h>".toList, by decide +kernel⟩
    exact ⟨_, _, htext, hnumber, .inr habove, .inr ⟨rfl, hends⟩⟩
  have hkept : systemLine.Kept := ⟨by decide +kernel, by decide +kernel⟩
  have hlines : (Stream.ofText lampText).directives =
      [⟨"#include \"lamp_def.h\"", 1, 0, 3⟩, ⟨"#include <sys/a_def.h>", 2, 3, 12⟩] := by
    decide +kernel
  obtain ⟨-, hrecorded, honly⟩ := definitionFiles_named hsource
  refine ⟨source, hsource, (hrecorded lampLine 1 hlamp (.inl rfl)).mpr (by decide),
    (hrecorded systemLine 2 hsystem (.inr hkept)).mpr (by decide), honly ?_⟩
  rw [hlines]
  intro directive hdirective _
  rcases List.mem_pair.mp hdirective with rfl | rfl
  · exact ⟨lampLine, hlamp, .inl rfl⟩
  · exact ⟨systemLine, hsystem, .inr hkept⟩

-- A character beyond ASCII is left out of a target between angle brackets.
def accentText : String := "#include <\u00e9_def.h>\nEVENT_LISTENER(m, h);\n"

def accentLine : IncludeLine := ⟨false, "\u00e9_def.h", by decide, by simp⟩

theorem not_definitionFiles_accent : ¬ ∀ (suffix file text : String) (source : SourceFile)
    (line : IncludeLine) (number : Nat),
    ofStream? suffix file (Stream.ofText text) = .ok (some source) → line.StandsAt text number →
    (line.target ∈ source.definitionFiles ↔ suffix.toList <:+ line.target.toList) := by
  intro h
  obtain ⟨source, hsource⟩ := @ofStream?_eq_ok "_def.h" "m.c" (Stream.ofText accentText)
    (by decide +kernel) (by decide +kernel)
  have hstands : accentLine.StandsAt accentText 1 := by
    have htext : accentText = "" ++ accentLine.text ++ "\nEVENT_LISTENER(m, h);\n" := by
      decide +kernel
    have hends : EndsLine ("" ++ accentLine.text ++ "\n") :=
      ⟨Lexeme.scan "#include <\u00e9_def.h>".toList, by decide +kernel⟩
    exact ⟨_, _, htext, rfl, .inl rfl, .inr ⟨rfl, hends⟩⟩
  have hrecorded := (h _ _ _ _ _ _ hsource hstands).mpr (by decide)
  obtain ⟨-, directive, hdirective, htarget⟩ := (mem_definitionFiles_iff hsource).mp hrecorded
  have hlines : (Stream.ofText accentText).directives = [⟨"#include <_def.h>", 1, 0, 7⟩] := by
    decide +kernel
  rw [hlines, List.mem_singleton] at hdirective
  subst hdirective
  exact absurd htarget (by decide +kernel)

end EventFlow.Listener.SourceFile
