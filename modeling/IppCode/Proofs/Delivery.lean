import IppCode.Proofs.Layout

namespace IppCode

/-- The prefix law of a limited sink: bytes that fit are kept in full, of more than that the first
ones are kept and the write fails. -/
structure Limit.Keeps (limit : Limit) (bytes : Bytes) (delivery : Delivery) : Prop where
  of_full : limit.capacity < bytes.length →
    delivery = ⟨(bytes.take limit.capacity).toArray, some limit.failure⟩
  of_room : bytes.length ≤ limit.capacity → delivery = ⟨bytes.toArray, none⟩

theorem Sink.keeps_write (limit : Limit) (flushFailure : Option StreamError)
    (portions : List Bytes) :
    limit.Keeps portions.flatten (Sink.write ⟨some limit, flushFailure⟩ portions) := by
  have hlimit : Sink.limit ⟨some limit, flushFailure⟩ = some limit := rfl
  have hwrite := Sink.write_of_limit hlimit portions
  constructor
  · intro hfull
    rw [hwrite, if_neg (Nat.not_le.mpr hfull)]
  · intro hroom
    rw [hwrite, if_pos hroom, List.take_of_length_le hroom]

theorem Program.keeps_document (program : Program) (limit : Limit)
    (flushFailure : Option StreamError) {portions : List Bytes}
    (h : portions.flatten = (program.lines.map lineBytes).flatten) :
    limit.Keeps program.document (Sink.write ⟨some limit, flushFailure⟩ portions) := by
  rw [← Program.flatten_lines, ← h]
  exact Sink.keeps_write limit flushFailure portions

namespace Source

theorem convert_of_error {source : Source} {failure : Failure}
    (h : source.program = .error failure) (sink : Sink) :
    source.convert sink = ⟨[], some failure⟩ :=
  writeTo_of_error h sink.writer

theorem convert_of_delivery {source : Source} {program : Program} {sink : Sink}
    {delivery : Delivery} (h : source.program = .ok program)
    (hdelivery : sink.write (program.lines.map lineBytes) = delivery) :
    source.convert sink = .ofDelivery (delivery.flush sink) := by
  rw [convert, writeTo_of_program h, Sink.publish_writer, hdelivery]

theorem exists_written_eq_document {source : Source} {sink : Sink}
    (h : (source.convert sink).failure = none) :
    ∃ program, source.program = .ok program ∧
      (source.convert sink).written = program.document := by
  cases hprogram : source.program with
  | error failure =>
      rw [convert_of_error hprogram] at h
      cases h
  | ok program =>
      refine ⟨program, rfl, ?_⟩
      obtain ⟨_ | limit, flushFailure⟩ := sink
      · rw [convert_of_delivery hprogram (Sink.write_of_unlimited rfl _), Program.flatten_lines]
        rfl
      · have hkeeps := program.keeps_document limit flushFailure rfl
        by_cases hroom : program.document.length ≤ limit.capacity
        · rw [convert_of_delivery hprogram (hkeeps.of_room hroom)]
          rfl
        · rw [convert_of_delivery hprogram (hkeeps.of_full (Nat.not_le.mp hroom))] at h
          cases h

/-- A source without a program writes nothing to any sink. The document of a program reaches a
limited sink up to its capacity: what does not fit fails the run, and flushing does so only behind
the whole document. The same holds of every program and however its document is cut into
portions. -/
theorem convert_nothing_or_first_bytes (source : Source) (limit : Limit)
    (flushFailure : Option StreamError) :
    (∀ failure, source.program = .error failure →
      ∀ sink, source.convert sink = ⟨[], some failure⟩) ∧
    (∀ program, source.program = .ok program →
      source.convert {} = ⟨program.document, none⟩ ∧
      (limit.capacity < program.document.length →
        source.convert ⟨some limit, flushFailure⟩ =
          ⟨program.document.take limit.capacity, some (.output limit.failure)⟩) ∧
      (program.document.length ≤ limit.capacity →
        source.convert ⟨some limit, flushFailure⟩ =
          ⟨program.document, flushFailure.map .output⟩)) ∧
    ∀ (program : Program) (portions : List Bytes),
      portions.flatten = (program.lines.map lineBytes).flatten →
      Sink.write {} portions = ⟨program.document.toArray, none⟩ ∧
        limit.Keeps program.document (Sink.write ⟨some limit, flushFailure⟩ portions) := by
  refine ⟨fun _ h => convert_of_error h, ?_, ?_⟩
  · intro program h
    have hkeeps := program.keeps_document limit flushFailure rfl
    refine ⟨convert_of_program h, fun hfull => ?_, fun hroom => ?_⟩
    · rw [convert_of_delivery h (hkeeps.of_full hfull)]
      rfl
    · rw [convert_of_delivery h (hkeeps.of_room hroom)]
      rfl
  · intro program portions h
    refine ⟨?_, program.keeps_document limit flushFailure h⟩
    rw [Sink.write_of_unlimited rfl, h, Program.flatten_lines]

theorem convert_cuts_character :
    let source : Source := ⟨toUtf8 ".IPPcode22\nWRITE string@é\n".toList, none⟩
    let limit : Limit := ⟨142, .device "sink full".toList⟩
    ∃ program, source.program = .ok program ∧
      source.convert ⟨some limit, some (.device "flush failed".toList)⟩ =
        ⟨program.document.take 142, some (.output (.device "sink full".toList))⟩ ∧
      (program.document.drop 141).take 2 = toUtf8 "é".toList := by
  intro source limit
  have hprogram : source.program = .ok ⟨#[⟨⟨.write, [⟨.string, "é".toList⟩]⟩, 1⟩]⟩ := by decide
  have hlaw := convert_nothing_or_first_bytes source limit (some (.device "flush failed".toList))
  exact ⟨_, hprogram, (hlaw.2.1 _ hprogram).2.1 (by decide +kernel), by decide +kernel⟩

end Source

end IppCode
