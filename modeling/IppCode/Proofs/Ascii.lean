import IppCode.Proofs.RoundTrip

namespace IppCode

theorem utf8EncodeChar_of_ascii {c : Char} (h : c.toNat < 128) :
    String.utf8EncodeChar c = [c.toUInt8] := by
  apply String.utf8EncodeChar_eq_singleton
  rw [Char.utf8Size_eq_one_iff, UInt32.le_iff_toNat_le]
  exact Nat.le_of_lt_succ h

theorem eq_of_mem_utf8EncodeChar {c d : Char} (hc : c.toNat < 128)
    (h : c.toUInt8 ∈ String.utf8EncodeChar d) : d = c := by
  have hbyte : c.toUInt8.toNat = c.toNat := by
    apply Nat.mod_eq_of_lt
    show c.toNat < 256
    omega
  apply Char.toNat_inj.mp
  rw [toNat_eq_of_mem_utf8EncodeChar h (hbyte ▸ hc), hbyte]

theorem count_toUtf8 {c : Char} (hc : c.toNat < 128) (text : Text) :
    (toUtf8 text).count c.toUInt8 = text.count c := by
  induction text with
  | nil => rfl
  | cons d text ih =>
      have hcons : toUtf8 (d :: text) = String.utf8EncodeChar d ++ toUtf8 text := rfl
      rw [hcons, List.count_append, List.count_cons, ih]
      by_cases hd : d = c
      · subst hd
        rw [utf8EncodeChar_of_ascii hc]
        simp [Nat.add_comm]
      · have hnot : c.toUInt8 ∉ String.utf8EncodeChar d :=
          fun hmem => hd (eq_of_mem_utf8EncodeChar hc hmem)
        simp [List.count_eq_zero.mpr hnot, hd]

theorem exists_eq_of_toUtf8_eq {c : Char} (hc : c.toNat < 128) {front rest : Bytes} {text : Text}
    (h : toUtf8 text = front ++ c.toUInt8 :: rest) :
    ∃ before after, text = before ++ c :: after ∧ toUtf8 before = front ∧
      toUtf8 after = rest := by
  induction text generalizing front with
  | nil => simp at h
  | cons d text ih =>
      have hcons : toUtf8 (d :: text) = String.utf8EncodeChar d ++ toUtf8 text := rfl
      have hlater : ∀ front', toUtf8 text = front' ++ c.toUInt8 :: rest →
          front = String.utf8EncodeChar d ++ front' →
          ∃ before after, d :: text = before ++ c :: after ∧ toUtf8 before = front ∧
            toUtf8 after = rest := by
        intro front' htext hfront
        obtain ⟨before, after, rfl, rfl, rfl⟩ := ih htext
        exact ⟨d :: before, after, rfl, hfront.symm, rfl⟩
      rw [hcons] at h
      rcases List.append_eq_append_iff.mp h with ⟨middle, hmiddle, htext⟩ | ⟨middle, hd, hrest⟩
      · exact hlater middle htext hmiddle
      · cases middle with
        | nil =>
            rw [List.append_nil] at hd
            exact hlater [] hrest.symm (by rw [hd, List.append_nil])
        | cons byte middle =>
            obtain ⟨rfl, rfl⟩ := List.cons.inj hrest
            obtain rfl : d = c := by
              apply eq_of_mem_utf8EncodeChar hc
              rw [hd]
              exact List.mem_append_right front List.mem_cons_self
            -- The whole encoding is this one byte.
            rw [utf8EncodeChar_of_ascii hc] at hd
            rcases List.append_eq_singleton_iff.mp hd.symm with ⟨rfl, hone⟩ | ⟨-, hnone⟩
            · obtain ⟨-, rfl⟩ := List.cons.inj hone
              exact ⟨[], text, rfl, rfl, rfl⟩
            · cases hnone

end IppCode
