import IppCode.Proofs.Earliest

namespace IppCode

/-- The order and the opcode of the instruction that an event reports. -/
def Event.made? : Event → Option (Nat × Opcode)
  | .built _ order opcode => some (order, opcode)
  | .skipped _ | .header _ | .finished _ => none

abbrev Log := List Event

namespace Log

def lines (log : Log) : List Nat := log.filterMap Event.line?

def made (log : Log) : List (Nat × Opcode) := log.filterMap Event.made?

/-- Nothing but skipped lines. -/
def Blank (log : Log) : Prop := ∀ event ∈ log, ∃ line, event = .skipped line

/-- Skipped lines, then the header, and no other header behind it. -/
def Headed (log : Log) : Prop :=
  ∃ skips line later, log = skips ++ .header line :: later ∧ Blank skips ∧
    ∀ event ∈ later, ∀ line, event ≠ .header line

def Unfinished (log : Log) : Prop := ∀ count, .finished count ∉ log

end Log

/-- A line, counted from one, at which reading fails: the first that is no text, the first with
tokens when it is not the header, or one with a statement at fault. -/
inductive FailsAt (readings : List Reading) : Nat → Failure → Prop
  | unreadable {count : Nat} {cause : StreamError}
      (hbefore : ∀ reading ∈ readings.take count, ∃ text, reading = .ok text)
      (hline : readings[count]? = some (.error cause)) :
      FailsAt readings (count + 1) (.input cause)
  | headerless {count : Nat} {text : Text} (hbefore : Wordless (readings.take count))
      (hline : readings[count]? = some (.ok text)) (htokens : Line.tokens text ≠ [])
      (hheader : Line.tokens text ≠ [header.name]) :
      FailsAt readings (count + 1) .missingHeader
  | rejected {count : Nat} {text : Text} {statement : Statement} {fault : Fault}
      (hline : readings[count]? = some (.ok text))
      (hstatement : Statement.ofLine? text = some statement)
      (hfault : statement.operation = .error fault) :
      FailsAt readings (count + 1) (.rejected (count + 1) fault)

/-- What a log says about the lines of a source and the outcome of reading them. -/
inductive Accounts (readings : List Reading) : Log → Except Failure Program → Prop
  /-- Every line is named, and the last event counts the instructions. -/
  | finished {log : Log} {program : Program}
      (hlines : log.lines = List.range' 1 readings.length) (hheaded : log.Headed)
      (hmade : log.made = program.instructions.toList.map fun instruction =>
        (instruction.order, instruction.opcode))
      (hunfinished : log.Unfinished) :
      Accounts readings (log ++ [.finished program.length]) (.ok program)
  /-- The lines before the one that fails are named. -/
  | stopped {log : Log} {count : Nat} {failure : Failure}
      (hlines : log.lines = List.range' 1 count) (hfails : FailsAt readings (count + 1) failure)
      (hshape : log.Blank ∨ log.Headed) (hunfinished : log.Unfinished) :
      Accounts readings log (.error failure)
  /-- Every line is skipped, and the header never comes. -/
  | ended {log : Log} (hlines : log.lines = List.range' 1 readings.length)
      (hwordless : Wordless readings) (hblank : log.Blank) :
      Accounts readings log (.error .missingHeader)

namespace Log

variable {log : Log} {event : Event}

theorem lines_append_singleton {line : Nat} (h : event.line? = some line) :
    lines (log ++ [event]) = log.lines ++ [line] := by
  rw [lines, List.filterMap_append, List.filterMap_cons_some h, List.filterMap_nil, lines]

theorem made_append_singleton (log : Log) (event : Event) :
    made (log ++ [event]) = log.made ++ event.made?.toList := by
  rw [made, List.filterMap_append, made]
  cases hmade : event.made? with
  | none => rw [List.filterMap_cons_none hmade, List.filterMap_nil, Option.toList_none]
  | some pair => rw [List.filterMap_cons_some hmade, List.filterMap_nil, Option.toList_some]

theorem Blank.append_skipped (h : log.Blank) (line : Nat) : Blank (log ++ [.skipped line]) := by
  intro event hevent
  rcases List.mem_append.mp hevent with hlog | hnew
  · exact h event hlog
  · exact ⟨line, List.mem_singleton.mp hnew⟩

theorem Blank.headed (h : log.Blank) (line : Nat) : Headed (log ++ [.header line]) :=
  ⟨log, line, [], rfl, h, by simp⟩

theorem Headed.append_singleton (h : log.Headed) (hevent : ∀ line, event ≠ .header line) :
    Headed (log ++ [event]) := by
  obtain ⟨skips, line, later, rfl, hskips, hlater⟩ := h
  refine ⟨skips, line, later ++ [event], by simp, hskips, ?_⟩
  intro other hother
  rcases List.mem_append.mp hother with hother | hother
  · exact hlater other hother
  · rw [List.mem_singleton.mp hother]
    exact hevent

theorem Unfinished.append_singleton (h : log.Unfinished) {line : Nat}
    (hevent : event.line? = some line) : Unfinished (log ++ [event]) := by
  intro count hcount
  rcases List.mem_append.mp hcount with hlog | hnew
  · exact h count hlog
  · rw [← List.mem_singleton.mp hnew] at hevent
    cases hevent

end Log

/-- The instructions made so far, none before the header. -/
def drafted : Option Draft → List Instruction
  | none => []
  | some draft => draft.program.instructions.toList

/-- The log agrees with the lines read, with the header and with the instructions made. -/
structure Logged (line : Nat) (draft : Option Draft) (log : Log) : Prop where
  lines_eq : log.lines = List.range' 1 line
  made_eq : log.made =
    (drafted draft).map fun instruction => (instruction.order, instruction.opcode)
  orders_eq : (drafted draft).map Instruction.order = List.range' 1 (drafted draft).length
  shape : match draft with
    | none => log.Blank
    | some draft => log.Headed ∧ draft.assembler.nextOrder = draft.program.length + 1
  unfinished : log.Unfinished

namespace Logged

variable {line : Nat} {draft : Option Draft} {log : Log}

theorem start : Logged 0 none [] := by
  refine ⟨rfl, rfl, rfl, ?_, ?_⟩
  · exact fun event hevent => absurd hevent List.not_mem_nil
  · exact fun count hcount => absurd hcount List.not_mem_nil

theorem lines_append {event : Event} (h : Logged line draft log)
    (hevent : event.line? = some (line + 1)) :
    Log.lines (log ++ [event]) = List.range' 1 (line + 1) := by
  rw [Log.lines_append_singleton hevent, h.lines_eq, List.range'_1_concat, Nat.add_comm 1]

theorem skipped (h : Logged line draft log) :
    Logged (line + 1) draft (log ++ [.skipped (line + 1)]) where
  lines_eq := h.lines_append rfl
  made_eq := by
    rw [Log.made_append_singleton, h.made_eq]
    exact List.append_nil _
  orders_eq := h.orders_eq
  shape := by
    cases draft with
    | none => exact Log.Blank.append_skipped h.shape (line + 1)
    | some draft => exact ⟨h.shape.1.append_singleton (by simp), h.shape.2⟩
  unfinished := h.unfinished.append_singleton rfl

theorem header (h : Logged line none log) :
    Logged (line + 1) (some {}) (log ++ [.header (line + 1)]) where
  lines_eq := h.lines_append rfl
  made_eq := by
    rw [Log.made_append_singleton, h.made_eq]
    rfl
  orders_eq := rfl
  shape := ⟨Log.Blank.headed h.shape (line + 1), rfl⟩
  unfinished := h.unfinished.append_singleton rfl

theorem built {order : Nat} {program : Program} (h : Logged line (some ⟨⟨order⟩, program⟩) log)
    (operation : Operation) :
    Logged (line + 1) (some ⟨⟨order + 1⟩, program.append ⟨operation, order⟩⟩)
      (log ++ [.built (line + 1) order operation.opcode]) := by
  obtain ⟨hheaded, hnext⟩ := h.shape
  change order = program.length + 1 at hnext
  have hdrafted : drafted (some ⟨⟨order + 1⟩, program.append ⟨operation, order⟩⟩) =
      drafted (some ⟨⟨order⟩, program⟩) ++ [⟨operation, order⟩] :=
    program.toList_append ⟨operation, order⟩
  have hlength : (drafted (some ⟨⟨order⟩, program⟩)).length = program.length :=
    Array.length_toList
  refine ⟨h.lines_append rfl, ?_, ?_, ?_, h.unfinished.append_singleton rfl⟩
  · rw [hdrafted, Log.made_append_singleton, h.made_eq, List.map_append]
    rfl
  · rw [hdrafted, List.map_append, h.orders_eq, List.length_append, List.length_singleton,
      List.range'_1_concat, hlength, Nat.add_comm 1, ← hnext]
    rfl
  · refine ⟨hheaded.append_singleton (by simp), ?_⟩
    rw [Program.length_append, ← hnext]

end Logged

namespace Progress

def Logs (progress : Progress) : Prop :=
  Logged progress.line progress.draft progress.events.toList

theorem Logs.takes {progress next : Progress} {reading : Reading} (h : progress.Logs)
    (htakes : progress.Takes reading next) : next.Logs := by
  unfold Logs at h ⊢
  cases htakes with
  | blank htext =>
      rw [Array.toList_push]
      exact h.skipped
  | header htext =>
      rw [Array.toList_push]
      exact h.header
  | @statement _ _ _ _ _ _ operation htext hoperation =>
      rw [Array.toList_push]
      exact h.built operation

theorem Logs.advance {progress : Progress} (h : progress.Logs) (readings : List Reading) :
    (progress.advance readings).1.Logs := by
  induction readings generalizing progress with
  | nil => exact h
  | cons reading rest ih =>
      rcases takes_or_refuses progress reading with ⟨next, htakes⟩ | ⟨failure, hrefuses⟩
      · rw [advance_cons_of_takes htakes]
        exact ih (h.takes htakes)
      · rw [advance_cons_of_refuses hrefuses]
        exact h

theorem readable_of_advance {progress last : Progress} {readings : List Reading}
    (h : progress.advance readings = (last, none)) :
    ∀ reading ∈ readings, ∃ text, reading = .ok text := by
  induction readings generalizing progress with
  | nil => simp
  | cons reading rest ih =>
      obtain ⟨next, htakes, hrest⟩ := advance_cons_eq_none_iff.mp h
      refine List.forall_mem_cons.mpr ⟨?_, ih hrest⟩
      cases htakes with
      | blank => exact ⟨_, rfl⟩
      | header => exact ⟨_, rfl⟩
      | statement => exact ⟨_, rfl⟩

theorem failsAt_of_advance {readings : List Reading} {last : Progress} {failure : Failure}
    (h : ({} : Progress).advance readings = (last, some failure)) :
    FailsAt readings (last.line + 1) failure := by
  obtain ⟨before, reading, after, rfl, hbefore, hrefuses⟩ := advance_eq_some_iff.mp h
  have hcount : last.line = before.length := by simpa using advance_line_eq hbefore
  have htake : (before ++ reading :: after).take last.line = before := by
    rw [hcount, List.take_left]
  have hline : (before ++ reading :: after)[last.line]? = some reading := by
    simp [hcount]
  cases hrefuses with
  | unreadable =>
      refine .unreadable ?_ hline
      rw [htake]
      exact readable_of_advance hbefore
  | @headerless _ _ _ statement hstatement hheader =>
      have htokens := Statement.ofLine?_eq_some_iff.mp hstatement
      refine .headerless ?_ hline ?_ ?_
      · rw [htake]
        exact Source.wordless_of_advance hbefore rfl
      · simp [htokens]
      · intro hsame
        apply hheader
        obtain ⟨name, operands⟩ := statement
        obtain ⟨rfl, rfl⟩ := List.cons.inj (htokens.symm.trans hsame)
        rfl
  | faulty hstatement hoperation => exact .rejected hline hstatement hoperation

end Progress

namespace Logged

variable {line : Nat} {draft : Option Draft} {log : Log}

theorem blank_or_headed (h : Logged line draft log) : log.Blank ∨ log.Headed := by
  cases draft with
  | none => exact .inl h.shape
  | some draft => exact .inr h.shape.1

theorem map_fst_made (h : Logged line draft log) :
    log.made.map Prod.fst = List.range' 1 log.made.length := by
  rw [h.made_eq, List.map_map, List.length_map, ← h.orders_eq]
  rfl

end Logged

/-- Whatever ends a run, its log accounts for the lines, and the orders it reports are dense. -/
theorem Progress.accounts_advance (readings : List Reading) :
    let assembly := Assembly.ofProgress (({} : Progress).advance readings)
    Accounts readings assembly.events assembly.result ∧
      (Log.made assembly.events).map Prod.fst =
        List.range' 1 (Log.made assembly.events).length := by
  have hstart : ({} : Progress).Logs := Logged.start
  have hlogs := hstart.advance readings
  rcases hrun : ({} : Progress).advance readings with ⟨last, _ | failure⟩
  · rw [hrun, Logs] at hlogs
    have hline : last.line = readings.length := by simpa using advance_line_eq hrun
    cases hdraft : last.draft with
    | none =>
        simp only [Assembly.ofProgress, hdraft]
        rw [hdraft, hline] at hlogs
        refine ⟨?_, hlogs.map_fst_made⟩
        exact .ended hlogs.lines_eq (Source.wordless_of_advance hrun hdraft) hlogs.shape
    | some draft =>
        simp only [Assembly.ofProgress, hdraft, Array.toList_push]
        rw [hdraft, hline] at hlogs
        have hmade : Log.made (last.events.toList ++ [.finished draft.program.length]) =
            Log.made last.events.toList := by
          rw [Log.made_append_singleton]
          exact List.append_nil _
        rw [hmade]
        refine ⟨?_, hlogs.map_fst_made⟩
        exact .finished hlogs.lines_eq hlogs.shape.1 hlogs.made_eq hlogs.unfinished
  · rw [hrun] at hlogs
    refine ⟨?_, hlogs.map_fst_made⟩
    exact .stopped hlogs.lines_eq (failsAt_of_advance hrun) hlogs.blank_or_headed hlogs.unfinished

namespace Source

theorem log_trace (source : Source) : source.log .trace = source.assemble.events :=
  List.filter_eq_self.mpr fun _ _ => rfl

theorem log_debug (source : Source) :
    source.log .debug = (source.log .trace).filter fun event => event.level ≠ .trace := by
  rw [log_trace, log]
  congr 1
  funext event
  cases event with
  | skipped | header | built | finished => rfl

/-- The log of a source names its lines once each and in order, up to the end of the source or to
the line before the one that fails. Only skipped lines come before the header. The instructions it
reports are numbered from one on and, if the source holds a program, are those of the program; a
last event then counts them. The coarser level leaves out the events of the finer one. -/
theorem log_accounts_for_lines (source : Source) :
    Accounts source.lines (source.log .trace) source.program ∧
      (Log.made (source.log .trace)).map Prod.fst =
        List.range' 1 (Log.made (source.log .trace)).length ∧
      source.log .debug = (source.log .trace).filter fun event => event.level ≠ .trace := by
  obtain ⟨haccounts, horders⟩ := Progress.accounts_advance source.lines
  refine ⟨?_, ?_, source.log_debug⟩
  · rw [log_trace]
    exact haccounts
  · rw [log_trace]
    exact horders

example : Source.log ⟨toUtf8 "\n.IPPcode22\nbreak # x\n\nfoo".toList, none⟩ .trace =
    [.skipped 1, .header 2, .built 3 1 .brk, .skipped 4] := by
  decide

end Source

end IppCode
