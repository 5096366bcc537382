import IppCode.Proofs.Reading
import IppCode.Proofs.Values

namespace IppCode

/-- The first lines of some bytes, each with a line feed behind it. -/
def firstLines (count : Nat) (bytes : Bytes) : Bytes :=
  ((pieces bytes).take count).flatMap (· ++ [lineFeed])

/-- Lines that can all be read and have no token. -/
def Wordless (readings : List Reading) : Prop :=
  ∀ reading ∈ readings, ∃ text, reading = .ok text ∧ Line.tokens text = []

/-- A line, counted from one, together with the lines before it accounts for a failure. -/
inductive Offends (bytes : Bytes) : Nat → Failure → Prop
  | rejected {count : Nat} {text : Text} {statement : Statement} {fault : Fault}
      (hbefore : ∃ program, Source.program ⟨firstLines count bytes, none⟩ = .ok program)
      (hcount : 1 ≤ count) (hline : (Source.lines ⟨bytes, none⟩)[count]? = some (.ok text))
      (hstatement : Statement.ofLine? text = some statement)
      (hfault : ∀ assembler : Assembler, (assembler.assemble statement).1 = .error fault) :
      Offends bytes (count + 1) (.rejected (count + 1) fault)
  | unreadable {count : Nat}
      (hbefore : (∃ program, Source.program ⟨firstLines count bytes, none⟩ = .ok program) ∨
        Source.program ⟨firstLines count bytes, none⟩ = .error .missingHeader ∧
          Wordless (Source.lines ⟨firstLines count bytes, none⟩))
      (hline : (Source.lines ⟨bytes, none⟩)[count]? = some (.error .notUtf8)) :
      Offends bytes (count + 1) (.input .notUtf8)
  | headerless {count : Nat} {text : Text}
      (hbefore : Wordless ((Source.lines ⟨bytes, none⟩).take count))
      (hline : (Source.lines ⟨bytes, none⟩)[count]? = some (.ok text))
      (htokens : Line.tokens text ≠ []) (hheader : Line.tokens text ≠ [header.name]) :
      Offends bytes (count + 1) .missingHeader

theorem pieces_eq_singleton {bytes : Bytes} (h : lineFeed ∉ bytes) : pieces bytes = [bytes] := by
  apply List.splitOnP_eq_singleton
  intro byte hbyte
  rw [beq_eq_false_iff_ne]
  rintro rfl
  exact h hbyte

theorem exists_pieces_eq (bytes : Bytes) : ∃ front last, pieces bytes = front ++ [last] :=
  ⟨_, _, (List.dropLast_append_getLast (pieces_ne_nil bytes)).symm⟩

namespace Source

theorem lines_nil : Source.lines ⟨[], none⟩ = [] := by decide

theorem lines_flatMap_append {lines : List Bytes} (h : ∀ line ∈ lines, lineFeed ∉ line)
    (rest : Bytes) (failure : Option StreamError) :
    Source.lines ⟨lines.flatMap (· ++ [lineFeed]) ++ rest, failure⟩ =
      lines.map readTerminatedLine ++ Source.lines ⟨rest, failure⟩ := by
  induction lines with
  | nil => rfl
  | cons line lines ih =>
      have hsplit : (line :: lines).flatMap (· ++ [lineFeed]) ++ rest =
          line ++ lineFeed :: (lines.flatMap (· ++ [lineFeed]) ++ rest) := by simp
      rw [hsplit, lines_append, pieces_eq_singleton (h line List.mem_cons_self),
        ih fun l hl => h l (List.mem_cons_of_mem _ hl)]
      rfl

theorem lines_firstLines_append (count : Nat) (bytes rest : Bytes)
    (failure : Option StreamError) :
    Source.lines ⟨firstLines count bytes ++ rest, failure⟩ =
      ((pieces bytes).take count).map readTerminatedLine ++ Source.lines ⟨rest, failure⟩ :=
  lines_flatMap_append (fun _ hline => lineFeed_not_mem_pieces (List.mem_of_mem_take hline)) rest
    failure

theorem lines_of_pieces {bytes last : Bytes} {front : List Bytes}
    (h : pieces bytes = front ++ [last]) :
    Source.lines ⟨bytes, none⟩ =
      front.map readTerminatedLine ++ if last = [] then [] else [readLine last] := by
  simp only [Source.lines, Source.ending, h, List.dropLast_concat, List.getLastD_concat]
  cases last with
  | nil => rfl
  | cons byte last => rfl

theorem lines_eq_append {bytes : Bytes} {before after : List Reading} {reading : Reading}
    (h : Source.lines ⟨bytes, none⟩ = before ++ reading :: after) :
    ∃ piece, (pieces bytes)[before.length]? = some piece ∧
      ((pieces bytes).take before.length).map readTerminatedLine = before ∧
      (reading = readTerminatedLine piece ∨ reading = readLine piece) := by
  obtain ⟨front, last, hpieces⟩ := exists_pieces_eq bytes
  rw [lines_of_pieces hpieces] at h
  have hterminated : ∀ after', front.map readTerminatedLine = before ++ reading :: after' →
      ∃ piece, (pieces bytes)[before.length]? = some piece ∧
        ((pieces bytes).take before.length).map readTerminatedLine = before ∧
        (reading = readTerminatedLine piece ∨ reading = readLine piece) := by
    intro after' hfront
    obtain ⟨first, others, rfl, rfl, hothers⟩ := List.map_eq_append_iff.mp hfront
    obtain ⟨piece, others, rfl, rfl, -⟩ := List.map_eq_cons_iff.mp hothers
    refine ⟨piece, ?_, ?_, .inl rfl⟩
    · simp [hpieces]
    · simp [hpieces]
  split at h
  · exact hterminated after (by simpa using h)
  · rcases List.eq_nil_or_concat after with rfl | ⟨others, final, rfl⟩
    · obtain ⟨rfl, hreading⟩ := List.append_inj' h rfl
      refine ⟨last, ?_, ?_, .inr (List.cons.inj hreading).1.symm⟩
      · simp [hpieces]
      · simp [hpieces]
    · rw [List.concat_eq_append, ← List.cons_append, ← List.append_assoc] at h
      exact hterminated others (List.append_inj' h rfl).1

end Source

theorem Statement.ofLine?_dropFinal (text : Text) :
    ofLine? (dropFinal '\r' text) = ofLine? text := by
  rw [ofLine?, ofLine?, Line.tokens_dropFinal (by decide)]

theorem Progress.Refuses.terminated {progress : Progress} {piece : Bytes} {failure : Failure}
    (h : progress.Refuses (readLine piece) failure) :
    progress.Refuses (readTerminatedLine piece) failure := by
  unfold readTerminatedLine
  generalize readLine piece = reading at h
  cases h with
  | unreadable => exact .unreadable
  | headerless hstatement hheader =>
      exact .headerless ((Statement.ofLine?_dropFinal _).trans hstatement) hheader
  | faulty hstatement hoperation =>
      exact .faulty ((Statement.ofLine?_dropFinal _).trans hstatement) hoperation

namespace Source

/-- The line that is refused first, with its place in the source. -/
theorem exists_refused {bytes : Bytes} {last : Progress} {failure : Failure}
    (h : ({} : Progress).advance (Source.lines ⟨bytes, none⟩) = (last, some failure)) :
    ∃ count reading, (Source.lines ⟨bytes, none⟩)[count]? = some reading ∧
      ({} : Progress).advance ((Source.lines ⟨bytes, none⟩).take count) = (last, none) ∧
      Source.lines ⟨firstLines count bytes, none⟩ = (Source.lines ⟨bytes, none⟩).take count ∧
      last.line = count ∧ last.Refuses reading failure ∧
      ∀ rest broken, Source.program ⟨firstLines (count + 1) bytes ++ rest, broken⟩ =
        .error failure := by
  obtain ⟨before, reading, after, hlines, hbefore, hrefuses⟩ := Progress.advance_eq_some_iff.mp h
  obtain ⟨piece, hpiece, hread, hreading⟩ := lines_eq_append hlines
  have htake : (Source.lines ⟨bytes, none⟩).take before.length = before := by
    rw [hlines, List.take_left]
  refine ⟨before.length, reading, ?_, ?_, ?_, ?_, hrefuses, ?_⟩
  · simp [hlines]
  · rw [htake, hbefore]
  · have hfirst := lines_firstLines_append before.length bytes [] none
    rw [List.append_nil, lines_nil, List.append_nil, hread] at hfirst
    rw [htake, hfirst]
  · simpa using Progress.advance_line_eq hbefore
  · intro rest broken
    have hterminated : last.Refuses (readTerminatedLine piece) failure := by
      rcases hreading with rfl | rfl
      · exact hrefuses
      · exact hrefuses.terminated
    have hagain : Source.lines ⟨firstLines (before.length + 1) bytes ++ rest, broken⟩ =
        before ++ readTerminatedLine piece :: Source.lines ⟨rest, broken⟩ := by
      rw [lines_firstLines_append, List.take_add_one, hpiece, List.map_append, hread,
        List.append_assoc]
      rfl
    refine program_eq_error_iff.mpr (.inl ⟨last, ?_⟩)
    exact Progress.advance_eq_some_iff.mpr ⟨before, _, _, hagain, hbefore, hterminated⟩

theorem wordless_of_advance {readings : List Reading} {last : Progress}
    (h : ({} : Progress).advance readings = (last, none)) (hdraft : last.draft = none) :
    Wordless readings := by
  obtain ⟨texts, rfl, hnone⟩ := Progress.advance_blank_iff.mp ⟨last, h, hdraft⟩
  intro reading hreading
  obtain ⟨text, htext, rfl⟩ := List.mem_map.mp hreading
  refine ⟨text, rfl, ?_⟩
  rw [← Statement.ofLine?_eq_none_iff]
  exact List.filterMap_eq_nil_iff.mp hnone text htext

theorem notUtf8_of_mem_lines {bytes : Bytes} {cause : StreamError}
    (h : .error cause ∈ Source.lines ⟨bytes, none⟩) : cause = .notUtf8 := by
  have hpiece : ∀ piece, readLine piece = .error cause → cause = .notUtf8 := by
    intro piece hread
    unfold readLine at hread
    split at hread
    · cases hread
    · exact (Except.error.inj hread).symm
  obtain ⟨before, after, hlines⟩ := List.append_of_mem h
  obtain ⟨piece, -, -, hread | hread⟩ := lines_eq_append hlines
  · unfold readTerminatedLine at hread
    cases hline : readLine piece with
    | ok text =>
        rw [hline] at hread
        cases hread
    | error cause' =>
        rw [hline] at hread
        cases hread
        exact hpiece piece hline
  · exact hpiece piece hread.symm

/-- A source that is read to its end and holds no program either has no statement at all or has a
line that accounts for the failure, with everything behind that line left open. -/
theorem exists_offends_of_program_eq_error {bytes : Bytes} {failure : Failure}
    (h : Source.program ⟨bytes, none⟩ = .error failure) :
    (failure = .missingHeader ∧ Wordless (Source.lines ⟨bytes, none⟩)) ∨
      ∃ line, Offends bytes line failure ∧ line ≤ (Source.lines ⟨bytes, none⟩).length ∧
        ∀ rest broken, Source.program ⟨firstLines line bytes ++ rest, broken⟩ = .error failure := by
  rcases program_eq_error_iff.mp h with ⟨last, hlast⟩ | ⟨rfl, last, hlast, hdraft⟩
  · obtain ⟨count, reading, hline, hbefore, hfirst, rfl, hrefuses, hsame⟩ := exists_refused hlast
    refine .inr ⟨last.line + 1, ?_, (List.getElem?_eq_some_iff.mp hline).1, hsame⟩
    have hok : ∀ draft, last.draft = some draft →
        ∃ program, Source.program ⟨firstLines last.line bytes, none⟩ = .ok program := by
      intro draft hdraft
      rw [← hfirst] at hbefore
      exact ⟨draft.program, program_eq_ok_iff_draft.mpr ⟨last, draft.assembler, hbefore, hdraft⟩⟩
    cases hrefuses with
    | unreadable =>
        obtain rfl := notUtf8_of_mem_lines (List.mem_of_getElem? hline)
        refine .unreadable ?_ hline
        cases hdraft : last.draft with
        | some draft => exact .inl (hok draft hdraft)
        | none =>
            refine .inr ⟨?_, hfirst ▸ wordless_of_advance hbefore hdraft⟩
            rw [← hfirst] at hbefore
            exact program_eq_error_iff.mpr (.inr ⟨rfl, last, hbefore, hdraft⟩)
    | @headerless _ _ _ statement hstatement hheader =>
        have htokens := Statement.ofLine?_eq_some_iff.mp hstatement
        refine .headerless (wordless_of_advance hbefore rfl) hline ?_ ?_
        · simp [htokens]
        · intro hsame
          obtain ⟨hname, hoperands⟩ := List.cons.inj (htokens.symm.trans hsame)
          obtain ⟨name, operands⟩ := statement
          subst hname hoperands
          exact hheader rfl
    | @faulty count draft _ _ statement fault hstatement hoperation =>
        refine .rejected (hok draft rfl) ?_ hline hstatement ?_
        · -- With no line before it there would be no draft yet.
          cases count with
          | zero => cases hbefore
          | succ count => exact Nat.le_add_left 1 count
        · intro assembler
          rw [Assembler.assemble, hoperation]
  · exact .inl ⟨rfl, wordless_of_advance hlast hdraft⟩

theorem exists_offends_of_unknown_operation : ∃ bytes line,
    Offends bytes line (.rejected 3 (.unknownOperation "FOO".toList)) ∧
      ∀ rest broken, Source.program ⟨firstLines line bytes ++ rest, broken⟩ =
        .error (.rejected 3 (.unknownOperation "FOO".toList)) := by
  have hfails : Source.program ⟨toUtf8 ".IPPcode22\n\nFOO x # y".toList, none⟩ =
      .error (.rejected 3 (.unknownOperation "FOO".toList)) := by decide
  rcases exists_offends_of_program_eq_error hfails with ⟨hheader, -⟩ | ⟨line, hoffends, -, hsame⟩
  · cases hheader
  · exact ⟨_, line, hoffends, hsame⟩

end Source

end IppCode
