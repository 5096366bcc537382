import IppCode.Writer

/-!
A buffer changes neither what arrives nor how the delivery ends. The view of a buffered state is
the delivery that handing on its pending bytes would give: a buffered write does to the view what an
unbuffered one does to the delivery, and a flush brings the delivery up to the view. What is handed
on when the buffer is dropped has nothing to add, because a writer that failed once fails again.
-/

namespace IppCode

theorem Delivery.overlook_eq_iff {delivery : Delivery} {kept : Array UInt8} {cause : StreamError} :
    delivery.overlook = ⟨kept, some cause⟩ ↔
      delivery = ⟨kept, some cause⟩ ∧ cause ≠ .badDescriptor := by
  obtain ⟨written, failure⟩ := delivery
  unfold overlook
  split
  · rename_i hbad
    cases hbad
    constructor
    · intro h
      cases h
    · rintro ⟨h, hcause⟩
      cases h
      exact absurd rfl hcause
  · rename_i hother
    constructor
    · intro h
      cases h
      exact ⟨rfl, fun hcause => hother kept (by rw [hcause])⟩
    · exact And.left

/-- What a buffer relies on: the bytes alone decide what arrives, not the portions they come in,
nothing arrives behind a failure, and a write that failed fails again. -/
structure Writer.Direct (writer : Writer Delivery) : Prop where
  start_eq : writer.start = {}
  drop_eq (delivery : Delivery) : writer.drop delivery = delivery
  write_nil (delivery : Delivery) : writer.write delivery [] = delivery
  write_append (delivery : Delivery) (front rest : Bytes) :
    writer.write delivery (front ++ rest) = writer.write (writer.write delivery front) rest
  write_of_failure {delivery : Delivery} {cause : StreamError}
    (h : delivery.failure = some cause) (portion : Bytes) : writer.write delivery portion = delivery
  flush_of_failure {delivery : Delivery} {cause : StreamError}
    (h : delivery.failure = some cause) : writer.flush delivery = delivery
  write_again {before kept : Array UInt8} {cause : StreamError} {portion rest : Bytes}
    (h : writer.write ⟨before, none⟩ portion = ⟨kept, some cause⟩) (hrest : rest ≠ []) :
    writer.write ⟨kept, none⟩ rest = ⟨kept, some cause⟩

namespace Sink

theorem direct_writer (sink : Sink) : sink.writer.Direct where
  start_eq := rfl
  drop_eq _ := rfl
  write_nil := Delivery.write_nil sink
  write_append := Delivery.write_append sink
  write_of_failure h _ := by simp only [writer, Delivery.write, h]
  flush_of_failure h := by simp only [writer, Delivery.flush, h]
  write_again := Delivery.write_again

variable (sink : Sink)

theorem standardOutput_write_nil (delivery : Delivery) :
    sink.standardOutput.write delivery [] = delivery := by
  obtain ⟨kept, _ | cause⟩ := delivery
  · exact congrArg Delivery.overlook (Delivery.write_nil sink _)
  · rfl

theorem standardOutput_write_again {before kept : Array UInt8} {cause : StreamError}
    {portion rest : Bytes}
    (h : sink.standardOutput.write ⟨before, none⟩ portion = ⟨kept, some cause⟩)
    (hrest : rest ≠ []) : sink.standardOutput.write ⟨kept, none⟩ rest = ⟨kept, some cause⟩ := by
  obtain ⟨hwrite, hcause⟩ := Delivery.overlook_eq_iff.mp h
  exact Delivery.overlook_eq_iff.mpr ⟨Delivery.write_again hwrite hrest, hcause⟩

theorem standardOutput_write_append (delivery : Delivery) (front rest : Bytes) :
    sink.standardOutput.write delivery (front ++ rest) =
      sink.standardOutput.write (sink.standardOutput.write delivery front) rest := by
  obtain ⟨before, _ | cause⟩ := delivery
  · change (Delivery.write sink ⟨before, none⟩ (front ++ rest)).overlook =
      sink.standardOutput.write (Delivery.write sink ⟨before, none⟩ front).overlook rest
    rw [Delivery.write_append]
    rcases hfront : Delivery.write sink ⟨before, none⟩ front with ⟨kept, _ | cause⟩
    · rfl
    · by_cases hcause : cause = .badDescriptor
      · subst hcause
        by_cases hrest : rest = []
        · rw [hrest, Delivery.write_nil]
          exact (sink.standardOutput_write_nil ⟨kept, none⟩).symm
        · exact congrArg Delivery.overlook (Delivery.write_again hfront hrest).symm
      · have hfailed : Delivery.overlook ⟨kept, some cause⟩ = ⟨kept, some cause⟩ :=
          Delivery.overlook_eq_iff.mpr ⟨rfl, hcause⟩
        rw [hfailed]
        exact hfailed
  · rfl

theorem direct_standardOutput : sink.standardOutput.Direct where
  start_eq := rfl
  drop_eq _ := rfl
  write_nil := sink.standardOutput_write_nil
  write_append := sink.standardOutput_write_append
  write_of_failure h _ := by simp only [standardOutput, h]
  flush_of_failure h := by simp only [standardOutput, h]
  write_again := sink.standardOutput_write_again

end Sink

namespace Writer.Direct

variable {writer : Writer Delivery}

theorem publish_eq (direct : writer.Direct) (portions : List Bytes) :
    writer.publish portions = writer.flush (writer.write {} portions.flatten) := by
  rw [publish, direct.drop_eq, direct.start_eq,
    foldl_portions direct.write_nil direct.write_append]

theorem written_again (direct : writer.Direct) {delivery : Delivery} {portion : Bytes}
    {cause : StreamError} (hbefore : delivery.failure = none)
    (h : (writer.write delivery portion).failure = some cause) (rest : Bytes) :
    (writer.write ⟨(writer.write delivery portion).written, none⟩ rest).written =
      (writer.write delivery portion).written := by
  obtain ⟨before, failure⟩ := delivery
  obtain rfl : failure = none := hbefore
  have hwrite : writer.write ⟨before, none⟩ portion =
      ⟨(writer.write ⟨before, none⟩ portion).written, some cause⟩ := by rw [← h]
  by_cases hrest : rest = []
  · rw [hrest, direct.write_nil]
  · rw [direct.write_again hwrite hrest]

end Writer.Direct

namespace Buffered

variable {inner : Writer Delivery} {capacity : Nat} {state : Buffered}

/-- The delivery once the pending bytes are handed on. -/
def settled (inner : Writer Delivery) (state : Buffered) : Delivery :=
  inner.write state.delivery state.pending.toList

/-- Where the delivery has failed, handing on the pending bytes once more adds nothing. -/
def Spent (inner : Writer Delivery) (state : Buffered) : Prop :=
  ∀ cause, state.delivery.failure = some cause →
    (inner.write ⟨state.delivery.written, none⟩ state.pending.toList).written =
      state.delivery.written

theorem settled_of_failure (direct : inner.Direct) {cause : StreamError}
    (h : state.delivery.failure = some cause) : state.settled inner = state.delivery :=
  direct.write_of_failure h _

theorem spent_of_failure_eq_none (h : state.delivery.failure = none) : state.Spent inner := by
  intro cause hfailed
  rw [hfailed] at h
  cases h

theorem delivery_passOn (state : Buffered) :
    (state.passOn inner).delivery = state.settled inner := rfl

theorem pending_passOn (h : (state.settled inner).failure = none) :
    (state.passOn inner).pending = #[] := if_pos h

theorem passOn_of_failure (direct : inner.Direct) {cause : StreamError}
    (h : state.delivery.failure = some cause) : state.passOn inner = state := by
  simp [passOn, remainder, direct.write_of_failure h, h]

theorem settled_passOn (direct : inner.Direct) (state : Buffered) :
    (state.passOn inner).settled inner = state.settled inner := by
  cases hfailure : (state.settled inner).failure with
  | none =>
      rw [settled, pending_passOn hfailure]
      exact direct.write_nil _
  | some cause => exact settled_of_failure direct hfailure

theorem spent_passOn (direct : inner.Direct) (h : state.Spent inner) :
    (state.passOn inner).Spent inner := by
  cases hfailure : state.delivery.failure with
  | none => exact fun cause hfailed => direct.written_again hfailure hfailed _
  | some cause =>
      rw [passOn_of_failure direct hfailure]
      exact h

theorem settled_makeRoom (direct : inner.Direct) (capacity : Nat) (portion : Bytes)
    (state : Buffered) :
    (state.makeRoom inner capacity portion).settled inner = state.settled inner := by
  unfold makeRoom
  split
  · exact settled_passOn direct state
  · rfl

theorem spent_makeRoom (direct : inner.Direct) (h : state.Spent inner) (portion : Bytes) :
    (state.makeRoom inner capacity portion).Spent inner := by
  unfold makeRoom
  split
  · exact spent_passOn direct h
  · exact h

/-- A portion as long as the buffer finds it empty, so that nothing overtakes the pending bytes. -/
theorem pending_makeRoom {portion : Bytes} (hlong : capacity ≤ portion.length)
    (hportion : portion ≠ [])
    (h : (state.makeRoom inner capacity portion).delivery.failure = none) :
    (state.makeRoom inner capacity portion).pending = #[] := by
  have hpos : 0 < portion.length := List.length_pos_iff.mpr hportion
  unfold makeRoom at h ⊢
  split
  · rename_i hfull
    rw [if_pos hfull] at h
    exact pending_passOn h
  · have hempty : state.pending.size = 0 := by omega
    exact Array.eq_empty_of_size_eq_zero hempty

theorem write_cases (inner : Writer Delivery) (capacity : Nat) (state : Buffered)
    (portion : Bytes) :
    let room := state.makeRoom inner capacity portion
    let after := state.write inner capacity portion
    (∃ cause, room.delivery.failure = some cause ∧ after = room) ∨
      room.delivery.failure = none ∧
        ((portion = [] ∨ room.pending = #[]) ∧
            after = ⟨room.pending, inner.write room.delivery portion⟩ ∨
          after = room.hold portion) := by
  intro room after
  cases hfailure : room.delivery.failure with
  | some cause =>
      refine .inl ⟨cause, rfl, ?_⟩
      simp only [after, write, room, hfailure]
  | none =>
      refine .inr ⟨rfl, ?_⟩
      by_cases hlong : capacity ≤ portion.length
      · refine .inl ⟨?_, ?_⟩
        · by_cases hportion : portion = []
          · exact .inl hportion
          · exact .inr (pending_makeRoom hlong hportion hfailure)
        · simp only [after, write, room, hfailure, hlong, if_true]
      · right
        simp only [after, write, room, hfailure, hlong, if_false]

theorem settled_hold (direct : inner.Direct) (state : Buffered) (portion : Bytes) :
    (state.hold portion).settled inner = inner.write (state.settled inner) portion := by
  simp only [settled, hold, Array.toList_append, direct.write_append]

/-- A buffered write does to the view what the writer behind the buffer does to a delivery. -/
theorem settled_write (direct : inner.Direct) (capacity : Nat) (state : Buffered)
    (portion : Bytes) :
    (state.write inner capacity portion).settled inner =
      inner.write (state.settled inner) portion := by
  rw [← settled_makeRoom direct capacity portion state]
  rcases write_cases inner capacity state portion with
    ⟨cause, hfailure, hafter⟩ | ⟨-, ⟨rfl | hpending, hafter⟩ | hafter⟩
  · rw [hafter, settled_of_failure direct hfailure, direct.write_of_failure hfailure]
  · rw [hafter, direct.write_nil, direct.write_nil]
  · rw [hafter, settled, settled, hpending, direct.write_nil, direct.write_nil]
  · rw [hafter, settled_hold direct]

theorem spent_write (direct : inner.Direct) (capacity : Nat) (h : state.Spent inner)
    (portion : Bytes) : (state.write inner capacity portion).Spent inner := by
  rcases write_cases inner capacity state portion with
    ⟨cause, -, hafter⟩ | ⟨hfailure, ⟨-, hafter⟩ | hafter⟩
  · rw [hafter]
    exact spent_makeRoom direct h portion
  · rw [hafter]
    exact fun cause hfailed => direct.written_again hfailure hfailed _
  · rw [hafter]
    exact spent_of_failure_eq_none hfailure

theorem foldl_write (direct : inner.Direct) (capacity : Nat) (h : state.Spent inner)
    (portions : List Bytes) :
    (portions.foldl (write inner capacity) state).Spent inner ∧
      (portions.foldl (write inner capacity) state).settled inner =
        portions.foldl inner.write (state.settled inner) := by
  induction portions generalizing state with
  | nil => exact ⟨h, rfl⟩
  | cons portion portions ih =>
      rw [List.foldl_cons, List.foldl_cons, ← settled_write direct capacity]
      exact ih (spent_write direct capacity h portion)

theorem drop_flush (direct : inner.Direct) (h : state.Spent inner) :
    (state.flush inner).drop inner = inner.flush (state.settled inner) := by
  simp only [flush, drop, delivery_passOn, direct.drop_eq]
  cases hfailure : (state.settled inner).failure with
  | none => rw [pending_passOn hfailure, direct.write_nil]
  | some cause =>
      have hspent := spent_passOn direct h cause hfailure
      rw [delivery_passOn] at hspent
      rw [direct.flush_of_failure hfailure, hspent]

end Buffered

/-- A buffer of any capacity delivers what the writer behind it would deliver by itself, failures
included. -/
theorem Writer.Direct.publish_buffered {inner : Writer Delivery} (direct : inner.Direct)
    (capacity : Nat) (portions : List Bytes) :
    (inner.buffered capacity).publish portions = inner.publish portions := by
  have hstart : (Buffered.mk #[] inner.start).Spent inner := by
    rw [direct.start_eq]
    exact Buffered.spent_of_failure_eq_none rfl
  have hsettled : (Buffered.mk #[] inner.start).settled inner = inner.start := direct.write_nil _
  obtain ⟨hspent, hrun⟩ := Buffered.foldl_write direct capacity hstart portions
  rw [hsettled] at hrun
  calc (inner.buffered capacity).publish portions
      = inner.flush (portions.foldl inner.write inner.start) := by
        rw [← hrun]
        exact Buffered.drop_flush direct hspent
    _ = inner.publish portions := (direct.drop_eq _).symm

end IppCode
