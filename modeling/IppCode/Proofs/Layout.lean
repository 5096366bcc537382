import IppCode.Proofs.Readability

namespace IppCode

namespace Source

/-- The lines of a source that are text. -/
def texts (source : Source) : List Text := source.lines.filterMap Except.toOption

/-- The statements behind the first one, which is the header of an accepted source. -/
def body (source : Source) : List Statement := (statements source.texts).tail

theorem texts_eq {source : Source} {texts : List Text} (h : source.lines = texts.map .ok) :
    source.texts = texts := by
  rw [Source.texts, h, List.filterMap_map]
  exact List.filterMap_some

theorem assembles_body {source : Source} {program : Program} (h : source.program = .ok program) :
    Assembles 1 source.body program.instructions.toList := by
  obtain ⟨texts, rest, hlines, hstatements, hassembles⟩ := program_eq_ok_iff_statements.mp h
  rw [body, texts_eq hlines, hstatements]
  exact hassembles

theorem convert_of_program {source : Source} {program : Program}
    (h : source.program = .ok program) : source.convert {} = ⟨program.document, none⟩ := by
  rw [convert, writeTo_of_program h]
  simp only [Sink.publish_writer, Sink.write_of_unlimited, Delivery.flush, Conversion.ofDelivery,
    Program.flatten_lines, Option.map_none]

theorem exists_program_of_convert {source : Source} (h : (source.convert {}).failure = none) :
    ∃ program, source.program = .ok program := by
  cases hprogram : source.program with
  | ok program => exact ⟨program, rfl⟩
  | error failure =>
      rw [convert, writeTo_of_error hprogram] at h
      cases h

theorem program_eq_iff_canonical {source source' : Source} {program program' : Program}
    (h : source.program = .ok program) (h' : source'.program = .ok program') :
    program = program' ↔
      source.body.map Statement.canonical = source'.body.map Statement.canonical := by
  have hassembles := assembles_body h
  have hassembles' := assembles_body h'
  rw [← hassembles.map_statement, ← hassembles'.map_statement]
  constructor
  · rintro rfl
    rfl
  · intro hsame
    have hagain := hassembles.reassemble
    rw [hsame] at hagain
    have hlists := hagain.functional hassembles'.reassemble
    obtain ⟨⟨instructions⟩⟩ := program
    obtain ⟨⟨instructions'⟩⟩ := program'
    exact congrArg (fun list : List Instruction => (⟨list.toArray⟩ : Program)) hlists

/-- Accepted sources give the same document exactly when they hold the same statements behind the
header, once operation names are in upper case and angle brackets of strings are entities. -/
theorem written_eq_iff_canonical {source source' : Source}
    (h : (source.convert {}).failure = none) (h' : (source'.convert {}).failure = none) :
    (source.convert {}).written = (source'.convert {}).written ↔
      source.body.map Statement.canonical = source'.body.map Statement.canonical := by
  obtain ⟨program, hprogram⟩ := exists_program_of_convert h
  obtain ⟨program', hprogram'⟩ := exists_program_of_convert h'
  rw [← program_eq_iff_canonical hprogram hprogram', convert_of_program hprogram,
    convert_of_program hprogram']
  constructor
  · intro hwritten
    exact Program.document_inj
      (fun _ hinstruction _ hoperand => lineFeed_not_mem_value hprogram hinstruction hoperand)
      (fun _ hinstruction _ hoperand => lineFeed_not_mem_value hprogram' hinstruction hoperand)
      hwritten
  · rintro rfl
    rfl

theorem exists_written_eq_of_layout :
    ∃ source source' : Source, source ≠ source' ∧ (source.convert {}).failure = none ∧
      (source'.convert {}).failure = none ∧
      (source.convert {}).written = (source'.convert {}).written :=
  ⟨⟨toUtf8 ".IPPcode22\nwrite string@a<b # c\n".toList, none⟩,
    ⟨toUtf8 "# c\n.IPPcode22\n\n WRITE\tstring@a&lt;b".toList, none⟩,
    by decide, by decide, by decide,
    (written_eq_iff_canonical (by decide) (by decide)).mpr (by decide)⟩

end Source

end IppCode
