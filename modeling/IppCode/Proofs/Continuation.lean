import IppCode.Proofs.Earliest

/-!
Sources are read on where an accepted one ends. Whatever follows it is read as behind a bare
header, with lines and orders counted on: the two runs stay in step line by line, and the
instructions made so far and the two counters are all in which they differ.
-/

namespace IppCode

/-- The instructions of two programs, those of the second renumbered behind the first. -/
def Program.followedBy (program later : Program) : Program :=
  ⟨program.instructions ++ later.instructions.map fun instruction =>
    ⟨instruction.toOperation, instruction.order + program.length⟩⟩

/-- The failure with the line it names moved down. -/
def Failure.movedDown (count : Nat) : Failure → Failure
  | .rejected line fault => .rejected (line + count) fault
  | failure => failure

namespace Program

theorem followedBy_empty (program : Program) : program.followedBy {} = program := by
  simp [followedBy]

theorem followedBy_append (program later : Program) (instruction : Instruction) :
    program.followedBy (later.append instruction) =
      (program.followedBy later).append
        ⟨instruction.toOperation, instruction.order + program.length⟩ := by
  simp [followedBy, append]

theorem prefix_followedBy (program later : Program) :
    program.instructions.toList <+: (program.followedBy later).instructions.toList := by
  rw [followedBy, Array.toList_append]
  exact List.prefix_append _ _

end Program

namespace Progress

/-- The same lines read behind earlier ones: lines and orders are counted on, and the earlier
program stands before what is made. Before the header there is no earlier program. -/
structure Behind (count : Nat) (earlier : Program) (progress behind : Progress) : Prop where
  line_eq : behind.line = progress.line + count
  draft_eq : behind.draft = progress.draft.map fun draft =>
    ⟨⟨draft.assembler.nextOrder + earlier.length⟩, earlier.followedBy draft.program⟩
  earlier_eq : progress.draft = none → earlier = {}

namespace Behind

variable {count : Nat} {earlier : Program} {progress behind next : Progress} {reading : Reading}

theorem takes (h : Behind count earlier progress behind) (htakes : progress.Takes reading next) :
    ∃ next', behind.Takes reading next' ∧ Behind count earlier next next' := by
  have hline : ∀ next', behind.Takes reading next' → next'.line = next.line + count := by
    intro next' htakes'
    rw [htakes'.line_eq, htakes.line_eq, h.line_eq]
    exact Nat.add_right_comm progress.line count 1
  obtain ⟨line', draft', events'⟩ := behind
  obtain ⟨-, hdraft, hearlier⟩ := h
  cases htakes with
  | blank htext => exact ⟨_, .blank htext, hline _ (.blank htext), hdraft, hearlier⟩
  | header htext =>
      obtain rfl : draft' = none := hdraft
      -- The header starts an empty draft, so nothing may stand before it.
      obtain rfl := hearlier rfl
      refine ⟨_, .header htext, hline _ (.header htext), ?_, fun hnone => by cases hnone⟩
      simp only [Option.map_some, Program.followedBy_empty]
      rfl
  | @statement _ order program _ _ _ operation htext hoperation =>
      obtain rfl : draft' = some ⟨⟨order + earlier.length⟩, earlier.followedBy program⟩ := hdraft
      refine ⟨_, .statement htext hoperation, hline _ (.statement htext hoperation), ?_,
        fun hnone => by cases hnone⟩
      simp only [Option.map_some, Program.followedBy_append]
      rw [Nat.add_right_comm order 1 earlier.length]

theorem refuses {failure : Failure} (h : Behind count earlier progress behind)
    (hrefuses : progress.Refuses reading failure) :
    behind.Refuses reading (failure.movedDown count) := by
  obtain ⟨line', draft', events'⟩ := behind
  obtain ⟨hline, hdraft, -⟩ := h
  cases hrefuses with
  | unreadable => exact .unreadable
  | headerless htext hheader =>
      obtain rfl : draft' = none := hdraft
      exact .headerless htext hheader
  | @faulty line draft _ _ _ fault htext hoperation =>
      obtain rfl : draft' = some _ := hdraft
      have hmoved : line + 1 + count = line' + 1 := by
        change line' = line + count at hline
        omega
      change Refuses _ _ (.rejected (line + 1 + count) fault)
      rw [hmoved]
      exact .faulty htext hoperation

/-- Two runs over the same lines stay in step, to the line that fails if there is one. -/
theorem advance (h : Behind count earlier progress behind) (readings : List Reading) :
    ∃ last, behind.advance readings =
        (last, (progress.advance readings).2.map (Failure.movedDown count)) ∧
      Behind count earlier (progress.advance readings).1 last := by
  induction readings generalizing progress behind with
  | nil => exact ⟨behind, rfl, h⟩
  | cons reading rest ih =>
      rcases takes_or_refuses progress reading with ⟨next, htakes⟩ | ⟨failure, hrefuses⟩
      · obtain ⟨next', htakes', hnext⟩ := h.takes htakes
        rw [advance_cons_of_takes htakes, advance_cons_of_takes htakes']
        exact ih hnext
      · rw [advance_cons_of_refuses hrefuses, advance_cons_of_refuses (h.refuses hrefuses)]
        exact ⟨behind, rfl, h⟩

theorem result (h : Behind count earlier progress behind) (readings : List Reading) :
    (Assembly.ofProgress (behind.advance readings)).result =
      ((Assembly.ofProgress (progress.advance readings)).result.map
        earlier.followedBy).mapError (Failure.movedDown count) := by
  obtain ⟨last, hlast, hbehind⟩ := h.advance readings
  have hdraft := hbehind.draft_eq
  rw [hlast]
  rcases hrun : progress.advance readings with ⟨last', _ | failure⟩
  · rw [hrun] at hdraft
    simp only [Option.map_none, Assembly.ofProgress, hdraft]
    cases last'.draft with
    | none => rfl
    | some draft => rfl
  · rfl

end Behind

theorem failure_of_draft {line : Nat} {draft : Draft} {events : Array Event}
    {readings : List Reading} {last : Progress} {failure : Failure}
    (h : advance ⟨line, some draft, events⟩ readings = (last, some failure)) :
    (∃ cause, failure = .input cause) ∨ ∃ line fault, failure = .rejected line fault := by
  obtain ⟨before, reading, after, -, hbefore, hrefuses⟩ := advance_eq_some_iff.mp h
  cases hrefuses with
  | unreadable => exact .inl ⟨_, rfl⟩
  | headerless =>
      -- Behind the header there is a draft at every line.
      obtain ⟨_, _, -, -, hdraft⟩ := advance_draft_iff.mp ⟨_, hbefore, rfl⟩
      cases hdraft
  | faulty => exact .inr ⟨_, _, rfl⟩

end Progress

theorem length_pieces (bytes : Bytes) : (pieces bytes).length = bytes.count lineFeed + 1 := by
  unfold pieces
  induction bytes with
  | nil => rfl
  | cons byte rest ih =>
      rw [List.splitOnP_cons_eq_if_modifyHead, List.count_cons]
      split
      · rw [List.length_cons, ih]
      · rw [List.length_modifyHead, ih]

namespace Source

/-- The bytes of a line that holds the header and nothing else. -/
def headerLine : Bytes := toUtf8 ".IPPcode22\n".toList

theorem lines_headerLine_append (rest : Bytes) (broken : Option StreamError) :
    Source.lines ⟨headerLine ++ rest, broken⟩ =
      .ok header.name :: Source.lines ⟨rest, broken⟩ := by
  have hsplit : headerLine ++ rest = toUtf8 header.name ++ lineFeed :: rest := by
    have hline : headerLine = toUtf8 header.name ++ [lineFeed] := by decide
    rw [hline, List.append_assoc, List.singleton_append]
  have hread : (pieces (toUtf8 header.name)).map readTerminatedLine = [.ok header.name] := by
    decide
  rw [hsplit, lines_append, hread, List.singleton_append]

theorem assemble_headerLine_append (rest : Bytes) (broken : Option StreamError) :
    Source.assemble ⟨headerLine ++ rest, broken⟩ =
      .ofProgress (Progress.advance ⟨1, some {}, #[.header 1]⟩ (Source.lines ⟨rest, broken⟩)) := by
  have hheader : Statement.ofLine? header.name = some header := by decide
  rw [assemble, lines_headerLine_append, Progress.advance_cons_of_takes (.header hheader)]
  rfl

theorem behind_of_program {front : Bytes} {program : Program}
    (h : Source.program ⟨front ++ [lineFeed], none⟩ = .ok program) :
    ∃ last, ({} : Progress).advance ((pieces front).map readTerminatedLine) = (last, none) ∧
      Progress.Behind (front.count lineFeed) program ⟨1, some {}, #[.header 1]⟩ last := by
  obtain ⟨last, assembler, hlast, hdraft⟩ := program_eq_ok_iff_draft.mp h
  rw [lines_append, lines_nil, List.append_nil] at hlast
  refine ⟨last, hlast, ?_, ?_, fun hnone => by cases hnone⟩
  · have hline := Progress.advance_line_eq hlast
    rw [List.length_map, length_pieces] at hline
    change last.line = 1 + front.count lineFeed
    rw [hline]
    change 0 + _ = _
    omega
  · obtain ⟨_, _, instructions, -, -, -, hfinal⟩ :=
      Progress.advance_header_iff.mp ⟨last, hlast, hdraft⟩
    obtain ⟨rfl, rfl⟩ := Draft.mk.inj hfinal
    simp only [hdraft, Option.map_some, Program.followedBy_empty]
    rfl

theorem program_append_eq {front : Bytes} {program : Program}
    (h : Source.program ⟨front ++ [lineFeed], none⟩ = .ok program) (rest : Bytes)
    (broken : Option StreamError) :
    Source.program ⟨front ++ lineFeed :: rest, broken⟩ =
      ((Source.program ⟨headerLine ++ rest, broken⟩).map program.followedBy).mapError
        (Failure.movedDown (front.count lineFeed)) := by
  obtain ⟨last, hlast, hbehind⟩ := behind_of_program h
  have hassemble : Source.assemble ⟨front ++ lineFeed :: rest, broken⟩ =
      .ofProgress (last.advance (Source.lines ⟨rest, broken⟩)) := by
    rw [assemble, lines_append, Progress.advance_append, hlast]
  rw [Source.program, hassemble, Source.program, assemble_headerLine_append]
  exact hbehind.result _

theorem failure_of_headerLine {rest : Bytes} {broken : Option StreamError} {failure : Failure}
    (h : Source.program ⟨headerLine ++ rest, broken⟩ = .error failure) :
    (∃ cause, failure = .input cause) ∨ ∃ line fault, failure = .rejected line fault := by
  rw [Source.program, assemble_headerLine_append] at h
  rcases hrun : Progress.advance ⟨1, some {}, #[.header 1]⟩ (Source.lines ⟨rest, broken⟩) with
    ⟨last, _ | failure'⟩
  · obtain ⟨_, _, -, -, hdraft⟩ := Progress.advance_draft_iff.mp ⟨last, hrun, rfl⟩
    rw [hrun] at h
    simp only [Assembly.ofProgress, hdraft] at h
    cases h
  · rw [hrun] at h
    obtain rfl : failure' = failure := Except.error.inj h
    exact Progress.failure_of_draft hrun

/-- What follows an accepted source is read as behind a bare header: its instructions come after
those of the source with their orders counted on, a statement is rejected with its line counted
on, and a line that cannot be read fails the same. An accepted extension holds the program of
the source as its first part. -/
theorem program_append_of_program {bytes : Bytes} {program : Program}
    (hend : bytes.getLast? = some lineFeed) (h : Source.program ⟨bytes, none⟩ = .ok program)
    (rest : Bytes) (broken : Option StreamError) :
    (match Source.program ⟨headerLine ++ rest, broken⟩ with
      | .ok later => Source.program ⟨bytes ++ rest, broken⟩ = .ok (program.followedBy later)
      | .error (.rejected line fault) =>
          Source.program ⟨bytes ++ rest, broken⟩ =
            .error (.rejected (line + bytes.count lineFeed - 1) fault)
      | .error (.input cause) => Source.program ⟨bytes ++ rest, broken⟩ = .error (.input cause)
      | .error _ => False) ∧
    ∀ extended, Source.program ⟨bytes ++ rest, broken⟩ = .ok extended →
      program.instructions.toList <+: extended.instructions.toList := by
  obtain ⟨front, rfl⟩ := List.getLast?_eq_some_iff.mp hend
  have hcount : (front ++ [lineFeed]).count lineFeed = front.count lineFeed + 1 := by simp
  rw [List.append_assoc, List.singleton_append, program_append_eq h, hcount]
  cases hrest : Source.program ⟨headerLine ++ rest, broken⟩ with
  | ok later =>
      refine ⟨rfl, ?_⟩
      rintro extended ⟨⟩
      exact program.prefix_followedBy later
  | error failure =>
      refine ⟨?_, fun extended hextended => by cases hextended⟩
      rcases failure_of_headerLine hrest with ⟨cause, rfl⟩ | ⟨line, fault, rfl⟩
      · rfl
      · rfl

theorem program_append_of_break :
    let bytes : Bytes := toUtf8 ".IPPcode22\n# a\nBREAK\n".toList
    (∃ program, Source.program ⟨bytes, none⟩ = .ok program) ∧
      Source.program ⟨bytes ++ toUtf8 "\nFOO".toList, none⟩ =
        .error (.rejected 5 (.unknownOperation "FOO".toList)) ∧
      ∃ extended, Source.program ⟨bytes ++ toUtf8 "return\n".toList, none⟩ = .ok extended ∧
        [⟨⟨.brk, []⟩, 1⟩] <+: extended.instructions.toList := by
  intro bytes
  have hprogram : Source.program ⟨bytes, none⟩ = .ok ⟨#[⟨⟨.brk, []⟩, 1⟩]⟩ := by decide
  have hend : bytes.getLast? = some lineFeed := by decide
  have hfault : Source.program ⟨headerLine ++ toUtf8 "\nFOO".toList, none⟩ =
      .error (.rejected 3 (.unknownOperation "FOO".toList)) := by decide
  have hreturn : Source.program ⟨bytes ++ toUtf8 "return\n".toList, none⟩ =
      .ok ⟨#[⟨⟨.brk, []⟩, 1⟩, ⟨⟨.ret, []⟩, 2⟩]⟩ := by decide
  have hrejected := (program_append_of_program hend hprogram (toUtf8 "\nFOO".toList) none).1
  rw [hfault] at hrejected
  refine ⟨⟨_, hprogram⟩, hrejected, _, hreturn, ?_⟩
  exact (program_append_of_program hend hprogram (toUtf8 "return\n".toList) none).2 _ hreturn

end Source

end IppCode
