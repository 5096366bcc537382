import IppCode.Proofs.Continuation
import IppCode.Proofs.RoundTrip

namespace IppCode

theorem Program.empty_followedBy (program : Program) :
    ({} : Program).followedBy program = program := by
  have hrenumber : (fun instruction : Instruction =>
      (⟨instruction.toOperation, instruction.order + ({} : Program).length⟩ : Instruction)) =
        id := by
    funext instruction
    rfl
  simp only [followedBy, hrenumber, Array.map_id, Array.empty_append]

/-- The failure of a run over one more line, which stands behind the first ones. -/
def Failure.lineAdded (count : Nat) : Failure → Failure
  | .rejected line fault => .rejected (if count < line then line + 1 else line) fault
  | failure => failure

namespace Progress

theorem Takes.behind_of_blank {progress next : Progress} {text : Text}
    (h : progress.Takes (.ok text) next) (hline : Statement.ofLine? text = none) :
    Behind 1 {} progress next := by
  refine ⟨h.line_eq, ?_, fun _ => rfl⟩
  cases h with
  | @blank _ draft =>
      cases draft with
      | none => rfl
      | some draft =>
          simp only [Option.map_some, Program.empty_followedBy]
          rfl
  | header hheader =>
      rw [hline] at hheader
      cases hheader
  | statement hstatement =>
      rw [hline] at hstatement
      cases hstatement

theorem result_cons_blank {text : Text} (h : Statement.ofLine? text = none)
    (progress : Progress) (readings : List Reading) :
    (Assembly.ofProgress (progress.advance (.ok text :: readings))).result =
      (Assembly.ofProgress (progress.advance readings)).result.mapError (Failure.movedDown 1) := by
  have htakes : progress.Takes (.ok text) ⟨progress.line + 1, progress.draft,
      progress.events.push (.skipped (progress.line + 1))⟩ := .blank h
  rw [advance_cons_of_takes htakes, (htakes.behind_of_blank h).result]
  congr 1
  cases (Assembly.ofProgress (progress.advance readings)).result with
  | error failure => rfl
  | ok program => exact congrArg Except.ok program.empty_followedBy

theorem line_of_rejected {progress last : Progress} {readings : List Reading} {line : Nat}
    {fault : Fault} (h : progress.advance readings = (last, some (.rejected line fault))) :
    progress.line < line ∧ line ≤ progress.line + readings.length := by
  obtain ⟨before, reading, after, rfl, hbefore, hrefuses⟩ := advance_eq_some_iff.mp h
  have hline : last.line = progress.line + before.length := advance_line_eq hbefore
  cases hrefuses with
  | faulty =>
      rw [List.length_append, List.length_cons]
      simp only at hline
      omega

theorem lineAdded_of_advance {progress last : Progress} {readings : List Reading}
    {failure : Failure} (h : progress.advance readings = (last, some failure)) :
    failure.lineAdded (progress.line + readings.length) = failure ∧
      failure.lineAdded progress.line = failure.movedDown 1 := by
  cases failure with
  | rejected line fault =>
      obtain ⟨hbehind, hwithin⟩ := line_of_rejected h
      simp only [Failure.lineAdded, Failure.movedDown, if_neg (Nat.not_lt.mpr hwithin),
        if_pos hbehind, and_self]
  | invalidArguments | input | output | missingHeader => exact ⟨rfl, rfl⟩

theorem mapError_result_end {change : Failure → Failure}
    (h : change .missingHeader = .missingHeader) (last : Progress) :
    (Assembly.ofProgress (last, none)).result.mapError change =
      (Assembly.ofProgress (last, none)).result := by
  simp only [Assembly.ofProgress]
  cases last.draft with
  | none => exact congrArg Except.error h
  | some draft => rfl

/-- A line without tokens between the lines of a run shows in the lines behind it only. -/
theorem result_insert_blank {text : Text} (h : Statement.ofLine? text = none)
    (progress : Progress) (before after : List Reading) :
    (Assembly.ofProgress (progress.advance (before ++ .ok text :: after))).result =
      (Assembly.ofProgress (progress.advance (before ++ after))).result.mapError
        (Failure.lineAdded (progress.line + before.length)) := by
  rw [advance_append, advance_append]
  rcases hbefore : progress.advance before with ⟨last, _ | failure⟩
  · rw [← advance_line_eq hbefore]
    simp only [result_cons_blank h]
    rcases hafter : last.advance after with ⟨final, _ | failure⟩
    · rw [mapError_result_end rfl, mapError_result_end rfl]
    · exact congrArg Except.error (lineAdded_of_advance hafter).2.symm
  · -- The run has failed before it comes to the new line.
    exact congrArg Except.error (lineAdded_of_advance hbefore).1.symm

theorem result_append_blank {text : Text} (h : Statement.ofLine? text = none)
    (progress : Progress) (readings : List Reading) :
    (Assembly.ofProgress (progress.advance (readings ++ [.ok text]))).result =
      (Assembly.ofProgress (progress.advance readings)).result := by
  rw [result_insert_blank h, List.append_nil]
  rcases hrun : progress.advance readings with ⟨last, _ | failure⟩
  · exact mapError_result_end rfl last
  · exact congrArg Except.error (lineAdded_of_advance hrun).1

end Progress

namespace Source

theorem exists_lines_append {front : Bytes}
    (h : front = [] ∨ front.getLast? = some lineFeed) :
    ∃ readings : List Reading, readings.length = front.count lineFeed ∧
      ∀ rest broken, Source.lines ⟨front ++ rest, broken⟩ =
        readings ++ Source.lines ⟨rest, broken⟩ := by
  rcases h with rfl | hlast
  · exact ⟨[], rfl, fun _ _ => rfl⟩
  · obtain ⟨front, rfl⟩ := List.getLast?_eq_some_iff.mp hlast
    refine ⟨(pieces front).map readTerminatedLine, ?_, ?_⟩
    · rw [List.length_map, length_pieces, List.count_append]
      rfl
    · intro rest broken
      rw [List.append_assoc]
      exact lines_append front rest broken

theorem lines_lineBytes_append {line : Text} (h : '\n' ∉ line) (rest : Bytes)
    (broken : Option StreamError) :
    Source.lines ⟨lineBytes line ++ rest, broken⟩ =
      .ok (dropFinal '\r' line) :: Source.lines ⟨rest, broken⟩ := by
  have hbytes : lineBytes line ++ rest = toUtf8 line ++ lineFeed :: rest := by
    rw [lineBytes, toUtf8_append, List.append_assoc]
    rfl
  rw [hbytes, lines_append, pieces_eq_singleton (lineFeed_not_mem_toUtf8 h)]
  simp only [List.map_cons, List.map_nil, readTerminatedLine, readLine, ofUtf8?_toUtf8]
  rfl

/-- A line without tokens can be put in between any two lines, before the header or behind it: the
program is the same, and so is every failure, except that statements behind the new line are
rejected one line further down. -/
theorem program_insert_of_tokens_eq_nil {front : Bytes} {line : Text}
    (hfront : front = [] ∨ front.getLast? = some lineFeed) (hfeed : '\n' ∉ line)
    (hline : Line.tokens line = []) (rest : Bytes) (broken : Option StreamError) :
    match Source.program ⟨front ++ rest, broken⟩ with
    | .error (.rejected number fault) =>
        Source.program ⟨front ++ lineBytes line ++ rest, broken⟩ =
          .error (.rejected (if front.count lineFeed < number then number + 1 else number) fault)
    | result => Source.program ⟨front ++ lineBytes line ++ rest, broken⟩ = result := by
  obtain ⟨readings, hlength, hlines⟩ := exists_lines_append hfront
  have hblank : Statement.ofLine? (dropFinal '\r' line) = none := by
    rw [Statement.ofLine?_dropFinal, Statement.ofLine?_eq_none_iff, hline]
  have hinsert : Source.program ⟨front ++ lineBytes line ++ rest, broken⟩ =
      (Source.program ⟨front ++ rest, broken⟩).mapError
        (Failure.lineAdded (front.count lineFeed)) := by
    have hrun := Progress.result_insert_blank hblank {} readings (Source.lines ⟨rest, broken⟩)
    rw [hlength, Nat.zero_add] at hrun
    simp only [Source.program, assemble, List.append_assoc, hlines, lines_lineBytes_append hfeed]
    exact hrun
  rw [hinsert]
  rcases Source.program ⟨front ++ rest, broken⟩ with failure | program
  · cases failure with
    | rejected | invalidArguments | input | output | missingHeader => rfl
  · rfl

theorem program_insert_comment :
    let line : Text := " \t# é\r".toList
    let front : Bytes := toUtf8 "\n.IPPcode22\n".toList
    let rest : Bytes := toUtf8 "FOO".toList
    Line.tokens line = [] ∧
      Source.program ⟨front ++ rest, none⟩ = .error (.rejected 3 (.unknownOperation "FOO".toList)) ∧
      Source.program ⟨front ++ lineBytes line ++ rest, none⟩ =
        .error (.rejected 4 (.unknownOperation "FOO".toList)) := by
  intro line front rest
  have hfront : front = [] ∨ front.getLast? = some lineFeed := by decide
  have hfeed : '\n' ∉ line := by decide
  have hline : Line.tokens line = [] := by decide
  have hfails : Source.program ⟨front ++ rest, none⟩ =
      .error (.rejected 3 (.unknownOperation "FOO".toList)) := by decide
  have hinsert := program_insert_of_tokens_eq_nil hfront hfeed hline rest none
  rw [hfails] at hinsert
  exact ⟨hline, hfails, hinsert⟩

end Source

end IppCode
