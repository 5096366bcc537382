import IppCode.Assembly
import IppCode.Document
import IppCode.Writer

namespace IppCode

/-- The bytes a run has written and the failure it ended with, if any. -/
structure Conversion where
  written : Bytes
  failure : Option Failure
  deriving DecidableEq

/-- A delivery fails a run by its output. -/
def Conversion.ofDelivery (delivery : Delivery) : Conversion :=
  ⟨delivery.written.toList, delivery.failure.map .output⟩

/-- Write the document of the program of a source. Nothing is written before the whole source is
assembled. -/
def Source.writeTo {σ : Type} (source : Source) (writer : Writer σ) : Conversion :=
  match source.program with
  | .error failure => ⟨(writer.drop writer.start).written.toList, some failure⟩
  | .ok program => .ofDelivery (writer.publish (program.lines.map lineBytes))

theorem Source.writeTo_of_error {σ : Type} {source : Source} {failure : Failure}
    (h : source.program = .error failure) (writer : Writer σ) :
    source.writeTo writer = ⟨(writer.drop writer.start).written.toList, some failure⟩ := by
  rw [writeTo, h]

theorem Source.writeTo_of_program {σ : Type} {source : Source} {program : Program}
    (h : source.program = .ok program) (writer : Writer σ) :
    source.writeTo writer = .ofDelivery (writer.publish (program.lines.map lineBytes)) := by
  rw [writeTo, h]

/-- The document goes to the sink as it is, without a buffer. -/
def Source.convert (source : Source) (sink : Sink) : Conversion := source.writeTo sink.writer

end IppCode
