import IppCode.Sink

/-!
Ways to write to a sink: directly, as standard output, or through a buffer. A buffered write is
done as soon as its bytes are held back, so that a sink may fail only when the buffer is passed on.
-/

namespace IppCode

/-- Portions are written one after another, then flushed; what has arrived shows once the writer
is dropped. A state that holds a failure takes nothing more. -/
structure Writer (σ : Type) where
  start : σ
  write : σ → Bytes → σ
  flush : σ → σ
  drop : σ → Delivery

/-- Write all portions, flush, and drop the writer. -/
def Writer.publish {σ : Type} (writer : Writer σ) (portions : List Bytes) : Delivery :=
  writer.drop (writer.flush (portions.foldl writer.write writer.start))

/-- Every portion goes to the sink at once. -/
def Sink.writer (sink : Sink) : Writer Delivery where
  start := {}
  write := Delivery.write sink
  flush := Delivery.flush sink
  drop := id

theorem Sink.publish_writer (sink : Sink) (portions : List Bytes) :
    sink.writer.publish portions = (sink.write portions).flush sink := rfl

/-- A descriptor that is not open passes for one that takes everything. -/
def Delivery.overlook : Delivery → Delivery
  | ⟨written, some .badDescriptor⟩ => ⟨written, none⟩
  | delivery => delivery

/-- A sink as the standard output of a process. Its own line buffer is left out: it holds nothing
back behind a flush, and whatever is written is flushed. -/
def Sink.standardOutput (sink : Sink) : Writer Delivery where
  start := {}
  write delivery portion :=
    match delivery.failure with
    | some _ => delivery
    | none => (delivery.write sink portion).overlook
  flush delivery :=
    match delivery.failure with
    | some _ => delivery
    | none => (delivery.flush sink).overlook
  drop := id

/-- The bytes that a buffer holds back, and the delivery behind it. -/
structure Buffered where
  pending : Array UInt8 := #[]
  delivery : Delivery
  deriving DecidableEq

namespace Buffered

def hold (state : Buffered) (portion : Bytes) : Buffered :=
  ⟨state.pending ++ portion.toArray, state.delivery⟩

/-- What a buffer is left with once its bytes are handed on, where so many had arrived before. Of
bytes that fail to arrive, those not taken are kept. -/
def remainder (pending : Array UInt8) (before : Nat) (after : Delivery) : Buffered :=
  ⟨if after.failure = none then #[] else pending.drop (after.written.size - before), after⟩

/-- Hand on what is held back. -/
def passOn (inner : Writer Delivery) : Buffered → Buffered
  | ⟨pending, delivery⟩ =>
      remainder pending delivery.written.size (inner.write delivery pending.toList)

/-- Pass the buffer on if a portion would overfill it. -/
def makeRoom (inner : Writer Delivery) (capacity : Nat) (portion : Bytes) (state : Buffered) :
    Buffered :=
  if capacity - state.pending.size < portion.length then state.passOn inner else state

/-- Hold a portion back, or hand it on at once if it is as long as the buffer. -/
def write (inner : Writer Delivery) (capacity : Nat) (state : Buffered) (portion : Bytes) :
    Buffered :=
  let state := state.makeRoom inner capacity portion
  match state.delivery.failure with
  | some _ => state
  | none =>
      if capacity ≤ portion.length then
        ⟨state.pending, inner.write state.delivery portion⟩
      else
        state.hold portion

def flush (inner : Writer Delivery) (state : Buffered) : Buffered :=
  let state := state.passOn inner
  ⟨state.pending, inner.flush state.delivery⟩

/-- What is still held back is handed on once more, and nobody hears if that fails. -/
def drop (inner : Writer Delivery) (state : Buffered) : Delivery :=
  let last := inner.write ⟨state.delivery.written, none⟩ state.pending.toList
  ⟨(inner.drop last).written, state.delivery.failure⟩

end Buffered

/-- A writer behind a buffer of the given capacity. -/
def Writer.buffered (capacity : Nat) (inner : Writer Delivery) : Writer Buffered where
  start := ⟨#[], inner.start⟩
  write := Buffered.write inner capacity
  flush := Buffered.flush inner
  drop := Buffered.drop inner

/-- The capacity of the buffer before standard output. -/
def bufferSize : Nat := 8192

end IppCode
