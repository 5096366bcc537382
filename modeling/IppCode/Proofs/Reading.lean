import IppCode.Assembly

/-!
What one line can do to the progress made so far, and from it what a whole run does.
A line is taken or refused, and a run ends at the first line that is refused.

`Source.program_eq_ok_iff_statements` says which sources hold a program, statement by
statement.
-/

namespace IppCode

/-- The statements of lines, blank ones left out. -/
def statements (texts : List Text) : List Statement := texts.filterMap Statement.ofLine?

/-- Instructions made of statements one by one, numbered from an order on. -/
inductive Assembles : Nat → List Statement → List Instruction → Prop
  | nil {order : Nat} : Assembles order [] []
  | cons {order : Nat} {statement : Statement} {operation : Operation} {rest : List Statement}
      {instructions : List Instruction} (hhead : statement.operation = .ok operation)
      (htail : Assembles (order + 1) rest instructions) :
      Assembles order (statement :: rest) (⟨operation, order⟩ :: instructions)

namespace Progress

/-- A line is blank, the header of a source that has none yet, or a statement behind the header
that makes an instruction. -/
inductive Takes : Progress → Reading → Progress → Prop
  | blank {line : Nat} {draft : Option Draft} {events : Array Event} {text : Text}
      (hline : Statement.ofLine? text = none) :
      Takes ⟨line, draft, events⟩ (.ok text) ⟨line + 1, draft, events.push (.skipped (line + 1))⟩
  | header {line : Nat} {events : Array Event} {text : Text}
      (hline : Statement.ofLine? text = some header) :
      Takes ⟨line, none, events⟩ (.ok text)
        ⟨line + 1, some {}, events.push (.header (line + 1))⟩
  | statement {line order : Nat} {program : Program} {events : Array Event} {text : Text}
      {statement : Statement} {operation : Operation}
      (hline : Statement.ofLine? text = some statement)
      (hoperation : statement.operation = .ok operation) :
      Takes ⟨line, some ⟨⟨order⟩, program⟩, events⟩ (.ok text)
        ⟨line + 1, some ⟨⟨order + 1⟩, program.append ⟨operation, order⟩⟩,
          events.push (.built (line + 1) order operation.opcode)⟩

/-- A line is refused when it is no text, when it is the first statement but not the header, or
when it is a statement at fault. -/
inductive Refuses : Progress → Reading → Failure → Prop
  | unreadable {progress : Progress} {cause : StreamError} :
      Refuses progress (.error cause) (.input cause)
  | headerless {line : Nat} {events : Array Event} {text : Text} {statement : Statement}
      (hline : Statement.ofLine? text = some statement) (hheader : statement ≠ IppCode.header) :
      Refuses ⟨line, none, events⟩ (.ok text) .missingHeader
  | faulty {line : Nat} {draft : Draft} {events : Array Event} {text : Text}
      {statement : Statement} {fault : Fault} (hline : Statement.ofLine? text = some statement)
      (hoperation : statement.operation = .error fault) :
      Refuses ⟨line, some draft, events⟩ (.ok text) (.rejected (line + 1) fault)

theorem step_of_takes {progress next : Progress} {reading : Reading}
    (h : progress.Takes reading next) : progress.step reading = (next, none) := by
  cases h with
  | blank hline => simp only [step, hline]
  | header hline => simp only [step, hline, takeStatement, if_true]
  | statement hline hoperation =>
      simp only [step, hline, takeStatement, Assembler.assemble, hoperation]

theorem step_of_refuses {progress : Progress} {reading : Reading} {failure : Failure}
    (h : progress.Refuses reading failure) :
    progress.step reading = (progress, some failure) := by
  cases h with
  | unreadable => rfl
  | headerless hline hheader => simp only [step, hline, takeStatement, if_neg hheader]
  | faulty hline hoperation =>
      simp only [step, hline, takeStatement, Assembler.assemble, hoperation]

theorem takes_or_refuses (progress : Progress) (reading : Reading) :
    (∃ next, progress.Takes reading next) ∨ ∃ failure, progress.Refuses reading failure := by
  obtain ⟨line, draft, events⟩ := progress
  cases reading with
  | error cause => exact .inr ⟨_, .unreadable⟩
  | ok text =>
      cases hline : Statement.ofLine? text with
      | none => exact .inl ⟨_, .blank hline⟩
      | some statement =>
          cases draft with
          | none =>
              rcases Decidable.em (statement = IppCode.header) with rfl | hheader
              · exact .inl ⟨_, .header hline⟩
              · exact .inr ⟨_, .headerless hline hheader⟩
          | some draft =>
              obtain ⟨⟨order⟩, program⟩ := draft
              cases hoperation : statement.operation with
              | error fault => exact .inr ⟨_, .faulty hline hoperation⟩
              | ok operation => exact .inl ⟨_, .statement hline hoperation⟩

theorem advance_cons_of_takes {progress next : Progress} {reading : Reading}
    (h : progress.Takes reading next) (rest : List Reading) :
    progress.advance (reading :: rest) = next.advance rest := by
  rw [advance, step_of_takes h]

theorem advance_cons_of_refuses {progress : Progress} {reading : Reading} {failure : Failure}
    (h : progress.Refuses reading failure) (rest : List Reading) :
    progress.advance (reading :: rest) = (progress, some failure) := by
  rw [advance, step_of_refuses h]

theorem advance_cons_eq_none_iff {progress last : Progress} {reading : Reading}
    {rest : List Reading} :
    progress.advance (reading :: rest) = (last, none) ↔
      ∃ next, progress.Takes reading next ∧ next.advance rest = (last, none) := by
  constructor
  · intro h
    rcases takes_or_refuses progress reading with ⟨next, htakes⟩ | ⟨failure, hrefuses⟩
    · rw [advance_cons_of_takes htakes] at h
      exact ⟨next, htakes, h⟩
    · rw [advance_cons_of_refuses hrefuses] at h
      cases h
  · rintro ⟨next, htakes, h⟩
    rw [advance_cons_of_takes htakes, h]

/-- A run fails exactly at the first line that is refused. -/
theorem advance_eq_some_iff {progress last : Progress} {readings : List Reading}
    {failure : Failure} :
    progress.advance readings = (last, some failure) ↔
      ∃ before reading after, readings = before ++ reading :: after ∧
        progress.advance before = (last, none) ∧ last.Refuses reading failure := by
  constructor
  · intro h
    induction readings generalizing progress with
    | nil => cases h
    | cons reading rest ih =>
        rcases takes_or_refuses progress reading with ⟨next, htakes⟩ | ⟨failure', hrefuses⟩
        · rw [advance_cons_of_takes htakes] at h
          obtain ⟨before, refused, after, rfl, hbefore, hrefuses⟩ := ih h
          refine ⟨reading :: before, refused, after, rfl, ?_, hrefuses⟩
          rw [advance_cons_of_takes htakes, hbefore]
        · rw [advance_cons_of_refuses hrefuses] at h
          cases h
          exact ⟨[], reading, rest, rfl, rfl, hrefuses⟩
  · rintro ⟨before, reading, after, rfl, hbefore, hrefuses⟩
    rw [advance_append, hbefore]
    exact advance_cons_of_refuses hrefuses after

theorem Takes.line_eq {progress next : Progress} {reading : Reading}
    (h : progress.Takes reading next) : next.line = progress.line + 1 := by
  cases h <;> rfl

theorem advance_line_eq {progress last : Progress} {readings : List Reading}
    (h : progress.advance readings = (last, none)) : last.line = progress.line + readings.length := by
  induction readings generalizing progress with
  | nil =>
      cases h
      rfl
  | cons reading rest ih =>
      obtain ⟨next, htakes, hrest⟩ := advance_cons_eq_none_iff.mp h
      rw [ih hrest, htakes.line_eq, List.length_cons]
      omega

theorem draft_extend_cons (order : Nat) (program : Program) (instruction : Instruction)
    (instructions : List Instruction) :
    (⟨⟨order + 1 + instructions.length⟩,
      ⟨(program.append instruction).instructions ++ instructions.toArray⟩⟩ : Draft) =
      ⟨⟨order + (instruction :: instructions).length⟩,
        ⟨program.instructions ++ (instruction :: instructions).toArray⟩⟩ := by
  simp [Program.append, Nat.add_comm, Nat.add_left_comm]

theorem advance_draft_iff {line order : Nat} {program : Program} {events : Array Event}
    {readings : List Reading} {draft : Option Draft} :
    (∃ last, advance ⟨line, some ⟨⟨order⟩, program⟩, events⟩ readings = (last, none) ∧
        last.draft = draft) ↔
      ∃ texts instructions, readings = texts.map .ok ∧
        Assembles order (statements texts) instructions ∧
        draft = some ⟨⟨order + instructions.length⟩,
          ⟨program.instructions ++ instructions.toArray⟩⟩ := by
  induction readings generalizing line order program events with
  | nil =>
      constructor
      · rintro ⟨last, hlast, rfl⟩
        cases hlast
        exact ⟨[], [], rfl, .nil, by simp⟩
      · rintro ⟨texts, instructions, htexts, hassembles, rfl⟩
        have hnil : texts = [] := by simpa using htexts.symm
        subst texts
        cases hassembles
        exact ⟨_, rfl, by simp⟩
  | cons reading rest ih =>
      constructor
      · rintro ⟨last, hlast, hdraft⟩
        obtain ⟨next, htakes, hrest⟩ := advance_cons_eq_none_iff.mp hlast
        cases htakes with
        | @blank _ _ _ text hline =>
            obtain ⟨texts, instructions, rfl, hassembles, hfinal⟩ := ih.mp ⟨last, hrest, hdraft⟩
            refine ⟨text :: texts, instructions, rfl, ?_, hfinal⟩
            rwa [statements, List.filterMap_cons_none hline]
        | @statement _ _ _ _ text statement operation hline hoperation =>
            obtain ⟨texts, instructions, rfl, hassembles, hfinal⟩ := ih.mp ⟨last, hrest, hdraft⟩
            refine ⟨text :: texts, ⟨operation, order⟩ :: instructions, rfl, ?_, ?_⟩
            · rw [statements, List.filterMap_cons_some hline]
              exact .cons hoperation hassembles
            · rw [hfinal, draft_extend_cons]
      · rintro ⟨texts, instructions, htexts, hassembles, hfinal⟩
        obtain ⟨text, texts, rfl, rfl, rfl⟩ := List.map_eq_cons_iff.mp htexts.symm
        cases hline : Statement.ofLine? text with
        | none =>
            rw [statements, List.filterMap_cons_none hline] at hassembles
            obtain ⟨last, hlast, hdraft⟩ := ih.mpr ⟨texts, instructions, rfl, hassembles, hfinal⟩
            refine ⟨last, ?_, hdraft⟩
            rw [advance_cons_of_takes (.blank hline), hlast]
        | some statement =>
            rw [statements, List.filterMap_cons_some hline] at hassembles
            cases hassembles with
            | @cons _ _ operation _ instructions hhead htail =>
                rw [← draft_extend_cons] at hfinal
                obtain ⟨last, hlast, hdraft⟩ := ih.mpr ⟨texts, instructions, rfl, htail, hfinal⟩
                refine ⟨last, ?_, hdraft⟩
                rw [advance_cons_of_takes (.statement hline hhead), hlast]

theorem advance_blank_iff {line : Nat} {events : Array Event} {readings : List Reading} :
    (∃ last, advance ⟨line, none, events⟩ readings = (last, none) ∧ last.draft = none) ↔
      ∃ texts, readings = texts.map .ok ∧ statements texts = [] := by
  induction readings generalizing line events with
  | nil =>
      constructor
      · intro _
        exact ⟨[], rfl, rfl⟩
      · intro _
        exact ⟨_, rfl, rfl⟩
  | cons reading rest ih =>
      constructor
      · rintro ⟨last, hlast, hdraft⟩
        obtain ⟨next, htakes, hrest⟩ := advance_cons_eq_none_iff.mp hlast
        cases htakes with
        | @blank _ _ _ text hline =>
            obtain ⟨texts, rfl, hnone⟩ := ih.mp ⟨last, hrest, hdraft⟩
            refine ⟨text :: texts, rfl, ?_⟩
            rwa [statements, List.filterMap_cons_none hline]
        | header hline =>
            -- The draft that the header opens is never dropped again.
            obtain ⟨_, _, -, -, hfinal⟩ := advance_draft_iff.mp ⟨last, hrest, hdraft⟩
            cases hfinal
      · rintro ⟨texts, htexts, hnone⟩
        obtain ⟨text, texts, rfl, rfl, rfl⟩ := List.map_eq_cons_iff.mp htexts.symm
        cases hline : Statement.ofLine? text with
        | none =>
            rw [statements, List.filterMap_cons_none hline] at hnone
            obtain ⟨last, hlast, hdraft⟩ := ih.mpr ⟨texts, rfl, hnone⟩
            refine ⟨last, ?_, hdraft⟩
            rw [advance_cons_of_takes (.blank hline), hlast]
        | some statement =>
            rw [statements, List.filterMap_cons_some hline] at hnone
            cases hnone

theorem advance_header_iff {line : Nat} {events : Array Event} {readings : List Reading}
    {draft : Draft} :
    (∃ last, advance ⟨line, none, events⟩ readings = (last, none) ∧ last.draft = some draft) ↔
      ∃ texts rest instructions, readings = texts.map .ok ∧
        statements texts = IppCode.header :: rest ∧ Assembles 1 rest instructions ∧
        draft = ⟨⟨1 + instructions.length⟩, ⟨instructions.toArray⟩⟩ := by
  induction readings generalizing line events with
  | nil =>
      constructor
      · rintro ⟨last, hlast, hdraft⟩
        cases hlast
        cases hdraft
      · rintro ⟨texts, rest, instructions, htexts, hstatements, -, -⟩
        have hnil : texts = [] := by simpa using htexts.symm
        subst texts
        cases hstatements
  | cons reading readings ih =>
      constructor
      · rintro ⟨last, hlast, hdraft⟩
        obtain ⟨next, htakes, hrest⟩ := advance_cons_eq_none_iff.mp hlast
        cases htakes with
        | @blank _ _ _ text hline =>
            obtain ⟨texts, rest, instructions, rfl, hstatements, hassembles, hfinal⟩ :=
              ih.mp ⟨last, hrest, hdraft⟩
            refine ⟨text :: texts, rest, instructions, rfl, ?_, hassembles, hfinal⟩
            rwa [statements, List.filterMap_cons_none hline]
        | @header _ _ text hline =>
            obtain ⟨texts, instructions, rfl, hassembles, hfinal⟩ :=
              advance_draft_iff.mp ⟨last, hrest, hdraft⟩
            refine ⟨text :: texts, statements texts, instructions, rfl, ?_, hassembles, ?_⟩
            · rw [statements, List.filterMap_cons_some hline]
              rfl
            · simpa using hfinal
      · rintro ⟨texts, rest, instructions, htexts, hstatements, hassembles, hfinal⟩
        obtain ⟨text, texts, rfl, rfl, rfl⟩ := List.map_eq_cons_iff.mp htexts.symm
        cases hline : Statement.ofLine? text with
        | none =>
            rw [statements, List.filterMap_cons_none hline] at hstatements
            obtain ⟨last, hlast, hdraft⟩ :=
              ih.mpr ⟨texts, rest, instructions, rfl, hstatements, hassembles, hfinal⟩
            refine ⟨last, ?_, hdraft⟩
            rw [advance_cons_of_takes (.blank hline), hlast]
        | some statement =>
            rw [statements, List.filterMap_cons_some hline, List.cons.injEq] at hstatements
            obtain ⟨rfl, rfl⟩ := hstatements
            have hdrafted : some draft = some ⟨⟨1 + instructions.length⟩,
                ⟨({} : Program).instructions ++ instructions.toArray⟩⟩ := by
              simp [hfinal]
            obtain ⟨last, hlast, hdraft⟩ :=
              advance_draft_iff.mpr ⟨texts, instructions, rfl, hassembles, hdrafted⟩
            exact ⟨last, (advance_cons_of_takes (.header hline) _).trans hlast, hdraft⟩

end Progress

namespace Source

theorem program_eq_ok_iff_draft {source : Source} {program : Program} :
    source.program = .ok program ↔
      ∃ last assembler, ({} : Progress).advance source.lines = (last, none) ∧
        last.draft = some ⟨assembler, program⟩ := by
  unfold Source.program Source.assemble
  rcases ({} : Progress).advance source.lines with ⟨last, _ | failure⟩
  · rcases hdraft : last.draft with _ | ⟨assembler, program'⟩
    · simp [Assembly.ofProgress, hdraft]
    · simp [Assembly.ofProgress, hdraft]
  · simp [Assembly.ofProgress]

theorem program_eq_error_iff {source : Source} {failure : Failure} :
    source.program = .error failure ↔
      (∃ last, ({} : Progress).advance source.lines = (last, some failure)) ∨
      (failure = .missingHeader ∧
        ∃ last, ({} : Progress).advance source.lines = (last, none) ∧ last.draft = none) := by
  unfold Source.program Source.assemble
  rcases ({} : Progress).advance source.lines with ⟨last, _ | failure'⟩
  · rcases hdraft : last.draft with _ | draft
    · simp [Assembly.ofProgress, hdraft, eq_comm]
    · simp [Assembly.ofProgress, hdraft]
  · simp [Assembly.ofProgress]

theorem refused_of_program {source : Source} {failure : Failure}
    (h : source.program = .error failure) :
    failure = .missingHeader ∨
      ∃ progress, ∃ reading ∈ source.lines, Progress.Refuses progress reading failure := by
  rcases program_eq_error_iff.mp h with ⟨last, hlast⟩ | ⟨hmissing, -⟩
  · obtain ⟨before, reading, after, hlines, -, hrefuses⟩ := Progress.advance_eq_some_iff.mp hlast
    refine .inr ⟨last, reading, ?_, hrefuses⟩
    rw [hlines]
    exact List.mem_append_right before List.mem_cons_self
  · exact .inl hmissing

/-- A source holds a program exactly when all of its lines are text, its first statement is the
header, and the others make the instructions of the program. -/
theorem program_eq_ok_iff_statements {source : Source} {program : Program} :
    source.program = .ok program ↔
      ∃ texts rest, source.lines = texts.map .ok ∧ statements texts = header :: rest ∧
        Assembles 1 rest program.instructions.toList := by
  rw [program_eq_ok_iff_draft]
  constructor
  · rintro ⟨last, assembler, hlast, hdraft⟩
    obtain ⟨texts, rest, instructions, htexts, hstatements, hassembles, hfinal⟩ :=
      Progress.advance_header_iff.mp ⟨last, hlast, hdraft⟩
    cases hfinal
    exact ⟨texts, rest, htexts, hstatements, hassembles⟩
  · rintro ⟨texts, rest, htexts, hstatements, hassembles⟩
    obtain ⟨last, hlast, hdraft⟩ := Progress.advance_header_iff.mpr
      ⟨texts, rest, program.instructions.toList, htexts, hstatements, hassembles, rfl⟩
    exact ⟨last, _, hlast, hdraft⟩

end Source

end IppCode
