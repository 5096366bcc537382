import IppCode.Source

namespace IppCode

/-- The number of bytes a sink takes, and how the write of one more fails. -/
structure Limit where
  capacity : Nat
  failure : StreamError
  deriving DecidableEq

/-- Takes bytes until its capacity is used up. -/
structure Sink where
  limit : Option Limit := none
  /-- How flushing fails, if it does. -/
  flushFailure : Option StreamError := none
  deriving DecidableEq

/-- What a sink has kept, and the failure that ended the delivery. -/
structure Delivery where
  written : Array UInt8 := #[]
  failure : Option StreamError := none
  deriving DecidableEq

namespace Delivery

/-- Write one more portion. Nothing is written behind a failure. -/
def write (sink : Sink) (delivery : Delivery) (portion : Bytes) : Delivery :=
  match delivery.failure, sink.limit with
  | some _, _ => delivery
  | none, none => ⟨delivery.written ++ portion.toArray, none⟩
  | none, some limit =>
      let room := limit.capacity - delivery.written.size
      if portion.length ≤ room then
        ⟨delivery.written ++ portion.toArray, none⟩
      else
        ⟨delivery.written ++ (portion.take room).toArray, some limit.failure⟩

def flush (sink : Sink) (delivery : Delivery) : Delivery :=
  match delivery.failure with
  | some _ => delivery
  | none => ⟨delivery.written, sink.flushFailure⟩

variable {sink : Sink} {limit : Limit} {kept : Array UInt8} {portion : Bytes}

theorem write_of_unlimited (h : sink.limit = none) (kept : Array UInt8) (portion : Bytes) :
    write sink ⟨kept, none⟩ portion = ⟨kept ++ portion.toArray, none⟩ := by
  simp only [write, h]

theorem write_of_room (h : sink.limit = some limit)
    (hroom : portion.length ≤ limit.capacity - kept.size) :
    write sink ⟨kept, none⟩ portion = ⟨kept ++ portion.toArray, none⟩ := by
  simp only [write, h, hroom, if_true]

theorem write_of_full (h : sink.limit = some limit)
    (hfull : limit.capacity - kept.size < portion.length) :
    write sink ⟨kept, none⟩ portion =
      ⟨kept ++ (portion.take (limit.capacity - kept.size)).toArray, some limit.failure⟩ := by
  simp only [write, h, Nat.not_le.mpr hfull, if_false]

theorem write_of_exhausted (h : sink.limit = some limit) (hused : limit.capacity ≤ kept.size)
    (hportion : portion ≠ []) :
    write sink ⟨kept, none⟩ portion = ⟨kept, some limit.failure⟩ := by
  have hroom : limit.capacity - kept.size = 0 := Nat.sub_eq_zero_of_le hused
  have hpos : 0 < portion.length := List.length_pos_iff.mpr hportion
  rw [write_of_full h (by omega), hroom]
  simp

theorem write_nil (sink : Sink) (delivery : Delivery) : write sink delivery [] = delivery := by
  obtain ⟨kept, _ | cause⟩ := delivery
  · cases hlimit : sink.limit with
    | none => simp [write_of_unlimited hlimit]
    | some limit => simp [write_of_room hlimit]
  · rfl

theorem write_append (sink : Sink) (delivery : Delivery) (front rest : Bytes) :
    write sink delivery (front ++ rest) = write sink (write sink delivery front) rest := by
  obtain ⟨kept, _ | cause⟩ := delivery
  · cases hlimit : sink.limit with
    | none => simp [write_of_unlimited hlimit]
    | some limit =>
        by_cases hfront : front.length ≤ limit.capacity - kept.size
        · rw [write_of_room hlimit hfront]
          by_cases hrest : rest.length ≤ limit.capacity - kept.size - front.length
          · have hboth : (front ++ rest).length ≤ limit.capacity - kept.size := by
              simp
              omega
            rw [write_of_room hlimit hboth, write_of_room hlimit (by simp; omega)]
            simp
          · have hboth : limit.capacity - kept.size < (front ++ rest).length := by
              simp
              omega
            rw [write_of_full hlimit hboth, write_of_full hlimit (by simp; omega)]
            simp [List.take_append, List.take_of_length_le hfront, Nat.sub_add_eq]
        · have hfull : limit.capacity - kept.size < (front ++ rest).length := by
            simp
            omega
          rw [write_of_full hlimit hfull, write_of_full hlimit (Nat.not_le.mp hfront),
            List.take_append_of_le_length (Nat.le_of_not_le hfront)]
          rfl
  · rfl

/-- A sink that refused a portion refuses whatever comes next. -/
theorem write_again {before : Array UInt8} {cause : StreamError} {rest : Bytes}
    (h : write sink ⟨before, none⟩ portion = ⟨kept, some cause⟩) (hrest : rest ≠ []) :
    write sink ⟨kept, none⟩ rest = ⟨kept, some cause⟩ := by
  cases hlimit : sink.limit with
  | none =>
      rw [write_of_unlimited hlimit] at h
      cases h
  | some limit =>
      by_cases hroom : portion.length ≤ limit.capacity - before.size
      · rw [write_of_room hlimit hroom] at h
        cases h
      · rw [write_of_full hlimit (Nat.not_le.mp hroom)] at h
        cases h
        apply write_of_exhausted hlimit _ hrest
        simp
        omega

end Delivery

theorem foldl_portions {σ : Type} {write : σ → Bytes → σ} (nil : ∀ state, write state [] = state)
    (append : ∀ state front rest, write state (front ++ rest) = write (write state front) rest)
    (state : σ) (portions : List Bytes) :
    portions.foldl write state = write state portions.flatten := by
  induction portions generalizing state with
  | nil => exact (nil state).symm
  | cons portion portions ih => rw [List.foldl_cons, ih, List.flatten_cons, append]

namespace Sink

def write (sink : Sink) (portions : List Bytes) : Delivery :=
  portions.foldl (Delivery.write sink) {}

theorem write_eq (sink : Sink) (portions : List Bytes) :
    sink.write portions = Delivery.write sink {} portions.flatten :=
  foldl_portions (Delivery.write_nil sink) (Delivery.write_append sink) {} portions

theorem write_of_unlimited {sink : Sink} (h : sink.limit = none) (portions : List Bytes) :
    sink.write portions = ⟨portions.flatten.toArray, none⟩ := by
  rw [write_eq, Delivery.write_of_unlimited h, Array.empty_append]

/-- A limited sink keeps what fits and fails exactly when something does not. -/
theorem write_of_limit {sink : Sink} {limit : Limit} (h : sink.limit = some limit)
    (portions : List Bytes) :
    sink.write portions =
      ⟨(portions.flatten.take limit.capacity).toArray,
        if portions.flatten.length ≤ limit.capacity then none else some limit.failure⟩ := by
  rw [write_eq]
  by_cases hroom : portions.flatten.length ≤ limit.capacity
  · rw [Delivery.write_of_room h hroom, if_pos hroom, List.take_of_length_le hroom,
      Array.empty_append]
  · rw [Delivery.write_of_full h (Nat.not_le.mp hroom), if_neg hroom, Array.empty_append]
    rfl

end Sink

end IppCode
