import IppCode.Proofs.BlankLines
import Mathlib.Data.List.DropRight

namespace IppCode

/-- The bytes up to the last line feed. -/
def completeLines (bytes : Bytes) : Bytes := bytes.rdropWhile (· != lineFeed)

/-- Bytes behind which a new line starts. -/
def AtLineStart (bytes : Bytes) : Prop := bytes = [] ∨ bytes.getLast? = some lineFeed

/-- The longest part at the front of some bytes that is empty or ends in a line feed. -/
structure LongestLines (bytes complete : Bytes) : Prop where
  at_front : complete <+: bytes
  ends : AtLineStart complete
  longest : ∀ other, other <+: bytes → AtLineStart other → other.length ≤ complete.length

/-- A source that has been read to its end when its header is still missing. -/
def Source.EndsHeaderless (source : Source) : Prop :=
  source.program = .error .missingHeader ∧ Wordless source.lines

theorem atLineStart_completeLines (bytes : Bytes) : AtLineStart (completeLines bytes) := by
  by_cases hne : completeLines bytes = []
  · exact .inl hne
  · have hlast := List.rdropWhile_last_not (· != lineFeed) bytes hne
    rw [Bool.not_eq_true, bne_eq_false_iff_eq] at hlast
    refine .inr ?_
    rw [List.getLast?_eq_some_getLast hne]
    exact congrArg some hlast

theorem exists_rest_of_completeLines (bytes : Bytes) :
    ∃ rest, bytes = completeLines bytes ++ rest ∧ lineFeed ∉ rest := by
  refine ⟨bytes.rtakeWhile (· != lineFeed), List.rdropWhile_append_rtakeWhile.symm, ?_⟩
  intro hmem
  exact absurd (List.mem_rtakeWhile_imp hmem) (by decide)

theorem longestLines_of_append {complete rest : Bytes} (hends : AtLineStart complete)
    (hrest : lineFeed ∉ rest) : LongestLines (complete ++ rest) complete := by
  refine ⟨List.prefix_append complete rest, hends, ?_⟩
  rintro other ⟨more, hmore⟩ hother
  rcases List.append_eq_append_iff.mp hmore with ⟨between, rfl, -⟩ | ⟨beyond, rfl, rfl⟩
  · rw [List.length_append]
    exact Nat.le_add_right _ _
  · -- Whatever goes beyond the complete lines ends in a line feed of the rest.
    by_cases hbeyond : beyond = []
    · rw [hbeyond, List.append_nil]
    · have hlast : (complete ++ beyond).getLast? = some lineFeed :=
        hother.resolve_left (List.append_ne_nil_of_right_ne_nil complete hbeyond)
      rw [List.getLast?_append_of_ne_nil complete hbeyond] at hlast
      exact absurd (List.mem_append_left more (List.mem_of_getLast? hlast)) hrest

theorem longestLines_completeLines (bytes : Bytes) :
    LongestLines bytes (completeLines bytes) := by
  obtain ⟨rest, hbytes, hrest⟩ := exists_rest_of_completeLines bytes
  have hlongest := longestLines_of_append (atLineStart_completeLines bytes) hrest
  rwa [← hbytes] at hlongest

namespace Progress

/-- A failure to read shows unless the run has failed before. -/
theorem advance_append_error (progress : Progress) (readings : List Reading)
    (cause : StreamError) :
    progress.advance (readings ++ [.error cause]) =
      ((progress.advance readings).1,
        some ((progress.advance readings).2.getD (.input cause))) := by
  rw [advance_append]
  rcases progress.advance readings with ⟨last, _ | failure⟩
  · exact advance_cons_of_refuses .unreadable []
  · rfl

theorem exists_advance_of_wordless {readings : List Reading} (h : Wordless readings)
    (progress : Progress) : ∃ last, progress.advance readings = (last, none) := by
  rcases hrun : progress.advance readings with ⟨last, _ | failure⟩
  · exact ⟨last, rfl⟩
  · obtain ⟨before, reading, after, rfl, -, hrefuses⟩ := advance_eq_some_iff.mp hrun
    obtain ⟨text, rfl, htokens⟩ := h reading (List.mem_append_right before List.mem_cons_self)
    have hblank : Statement.ofLine? text = none := Statement.ofLine?_eq_none_iff.mpr htokens
    cases hrefuses with
    | headerless hline | faulty hline =>
        rw [hblank] at hline
        cases hline

end Progress

namespace Source

theorem lines_append_broken {complete rest : Bytes} (hends : AtLineStart complete)
    (hrest : lineFeed ∉ rest) (cause : StreamError) :
    Source.lines ⟨complete ++ rest, some cause⟩ =
      Source.lines ⟨complete, none⟩ ++ [.error cause] := by
  obtain ⟨readings, -, hlines⟩ := exists_lines_append hends
  have hcomplete : Source.lines ⟨complete, none⟩ = readings := by
    have hall := hlines [] none
    rwa [List.append_nil, lines_nil, List.append_nil] at hall
  have hbroken : Source.lines ⟨rest, some cause⟩ = [.error cause] := by
    simp only [Source.lines, Source.ending, pieces_eq_singleton hrest]
    rfl
  rw [hlines, hcomplete, hbroken]

theorem lines_brokenAfter (bytes : Bytes) (count : Nat) (cause : StreamError) :
    (Source.brokenAfter count cause bytes).lines =
      Source.lines ⟨completeLines (bytes.take count), none⟩ ++ [.error cause] := by
  obtain ⟨rest, hbytes, hrest⟩ := exists_rest_of_completeLines (bytes.take count)
  have hlines := lines_append_broken (atLineStart_completeLines (bytes.take count)) hrest cause
  rwa [← hbytes] at hlines

theorem program_of_lines_append_error {source : Source} {readings : List Reading}
    {cause : StreamError} (h : source.lines = readings ++ [.error cause]) :
    source.program =
      .error ((({} : Progress).advance readings).2.getD (.input cause)) := by
  rw [Source.program, assemble, h, Progress.advance_append_error]
  rfl

/-- A source that breaks off behind some of its bytes is read up to the last line feed among them,
and then the failure of the device shows. So it holds no program. If its complete lines on their
own fail at one of them, that is the failure; if they hold a program, or end before a header has
come, the failure is the one of the device. What is left of the line that was cut is never looked
at. -/
theorem program_brokenAfter_of_complete (bytes : Bytes) (count : Nat) (cause : StreamError) :
    let complete := completeLines (bytes.take count)
    let broken := Source.brokenAfter count cause bytes
    LongestLines (bytes.take count) complete ∧
      (∀ program, broken.program ≠ .ok program) ∧
      (∀ failure, Source.program ⟨complete, none⟩ = .error failure →
        ¬ EndsHeaderless ⟨complete, none⟩ → broken.program = .error failure) ∧
      ((∃ program, Source.program ⟨complete, none⟩ = .ok program) ∨
        EndsHeaderless ⟨complete, none⟩ → broken.program = .error (.input cause)) ∧
      broken.lines = Source.lines ⟨complete, none⟩ ++ [.error cause] ∧
      ∀ tail, lineFeed ∉ tail →
        Source.assemble ⟨complete ++ tail, some cause⟩ = broken.assemble := by
  intro complete broken
  have hlines : broken.lines = Source.lines ⟨complete, none⟩ ++ [.error cause] :=
    lines_brokenAfter bytes count cause
  have hprogram := program_of_lines_append_error hlines
  refine ⟨longestLines_completeLines _, ?_, ?_, ?_, hlines, ?_⟩
  · intro program hok
    rw [hprogram] at hok
    cases hok
  · intro failure hfails hheader
    rcases program_eq_error_iff.mp hfails with ⟨last, hlast⟩ | ⟨rfl, last, hlast, hdraft⟩
    · rw [hprogram, hlast]
      rfl
    · exact absurd ⟨hfails, wordless_of_advance hlast hdraft⟩ hheader
  · intro hcomplete
    obtain ⟨last, hlast⟩ :
        ∃ last, ({} : Progress).advance (Source.lines ⟨complete, none⟩) = (last, none) := by
      rcases hcomplete with ⟨program, hok⟩ | ⟨-, hwordless⟩
      · obtain ⟨last, -, hlast, -⟩ := program_eq_ok_iff_draft.mp hok
        exact ⟨last, hlast⟩
      · exact Progress.exists_advance_of_wordless hwordless {}
    rw [hprogram, hlast]
    rfl
  · intro tail htail
    rw [assemble, assemble, hlines, lines_append_broken (atLineStart_completeLines _) htail]

theorem program_brokenAfter_in_character :
    let bytes : Bytes := toUtf8 "\n.IPPcode22\nWRITE string@é\nFOO\n".toList
    let cause : StreamError := .device "source broke".toList
    Source.program (.brokenAfter 26 cause bytes) = .error (.input cause) ∧
      Source.program (.brokenAfter 4 cause bytes) = .error (.input cause) ∧
      Source.program (.brokenAfter 40 cause bytes) =
        .error (.rejected 4 (.unknownOperation "FOO".toList)) ∧
      Source.assemble ⟨toUtf8 "\n.IPPcode22\n".toList ++ [255], some cause⟩ =
        Source.assemble (.brokenAfter 26 cause bytes) := by
  intro bytes cause
  have hheader : EndsHeaderless ⟨completeLines (bytes.take 4), none⟩ := by
    refine ⟨by decide, ?_⟩
    have hlines : Source.lines ⟨completeLines (bytes.take 4), none⟩ = [.ok []] := by decide
    rw [hlines]
    intro reading hreading
    exact ⟨[], List.mem_singleton.mp hreading, by decide⟩
  have hfails : Source.program ⟨completeLines (bytes.take 40), none⟩ =
      .error (.rejected 4 (.unknownOperation "FOO".toList)) := by decide
  have hlate : ¬ EndsHeaderless ⟨completeLines (bytes.take 40), none⟩ := by
    rintro ⟨hmissing, -⟩
    rw [hfails] at hmissing
    cases hmissing
  have hcut : completeLines (bytes.take 26) = toUtf8 "\n.IPPcode22\n".toList := by decide
  have hok : Source.program ⟨completeLines (bytes.take 26), none⟩ = .ok {} := by decide
  obtain ⟨-, -, -, hdevice, -, htail⟩ := program_brokenAfter_of_complete bytes 26 cause
  refine ⟨hdevice (.inl ⟨_, hok⟩), ?_, ?_, ?_⟩
  · exact (program_brokenAfter_of_complete bytes 4 cause).2.2.2.1 (.inr hheader)
  · exact (program_brokenAfter_of_complete bytes 40 cause).2.2.1 _ hfails hlate
  · rw [hcut] at htail
    exact htail [255] (by decide)

end Source

end IppCode
