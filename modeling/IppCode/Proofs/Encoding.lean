import IppCode.Proofs.Ascii
import IppCode.Proofs.Delivery
import IppCode.Proofs.Log
import IppCode.Proofs.WellFormed

/-!
Strict UTF-8, by the bytes it is made of. Bytes are strict UTF-8 exactly when they are the
encoding of a text, and since a line feed is never part of a longer sequence, they are so exactly
when each of their lines is.
-/

namespace IppCode

def IsContinuation (byte : UInt8) : Prop := 0x80 ≤ byte.toNat ∧ byte.toNat ≤ 0xBF

/-- The bytes of one character. The bounds on the first two of them leave out forms longer than
needed, surrogates and everything above the last code point. -/
inductive Utf8Sequence : Bytes → Prop
  | one {a : UInt8} (ha : a.toNat ≤ 0x7F) : Utf8Sequence [a]
  | two {a b : UInt8} (ha : 0xC2 ≤ a.toNat ∧ a.toNat ≤ 0xDF) (hb : IsContinuation b) :
      Utf8Sequence [a, b]
  | three {a b c : UInt8} (ha : 0xE0 ≤ a.toNat ∧ a.toNat ≤ 0xEF) (hb : IsContinuation b)
      (hc : IsContinuation c) (hshort : a.toNat = 0xE0 → 0xA0 ≤ b.toNat)
      (hsurrogate : a.toNat = 0xED → b.toNat ≤ 0x9F) : Utf8Sequence [a, b, c]
  | four {a b c d : UInt8} (ha : 0xF0 ≤ a.toNat ∧ a.toNat ≤ 0xF4) (hb : IsContinuation b)
      (hc : IsContinuation c) (hd : IsContinuation d)
      (hshort : a.toNat = 0xF0 → 0x90 ≤ b.toNat) (hlast : a.toNat = 0xF4 → b.toNat ≤ 0x8F) :
      Utf8Sequence [a, b, c, d]

/-- Nothing but sequences of characters. -/
def StrictUtf8 (bytes : Bytes) : Prop :=
  ∃ sequences : List Bytes, (∀ bytes ∈ sequences, Utf8Sequence bytes) ∧ sequences.flatten = bytes

theorem exists_val_toNat_eq {n : Nat} (h : n.isValidChar) : ∃ c : Char, c.val.toNat = n :=
  ⟨Char.ofNatAux n h, rfl⟩

theorem ofNat_eq_of_eq_toNat {n : Nat} (byte : UInt8) (h : n = byte.toNat) :
    UInt8.ofNat n = byte := by
  rw [h, UInt8.ofNat_toNat]

theorem isContinuation_ofNat (n : Nat) : IsContinuation (UInt8.ofNat (n % 64 + 128)) := by
  unfold IsContinuation
  rw [UInt8.toNat_ofNat']
  omega

theorem utf8Sequence_utf8EncodeChar (c : Char) : Utf8Sequence (String.utf8EncodeChar c) := by
  have hvalid : c.val.toNat < 0xD800 ∨ 0xDFFF < c.val.toNat ∧ c.val.toNat < 0x110000 := c.valid
  simp only [String.utf8EncodeChar]
  generalize c.val.toNat = n at hvalid
  split
  · refine .one ?_
    rw [UInt8.toNat_ofNat']
    omega
  split
  · refine .two ?_ (isContinuation_ofNat n)
    rw [UInt8.toNat_ofNat']
    omega
  split
  · refine .three ?_ (isContinuation_ofNat _) (isContinuation_ofNat n) ?_ ?_
    · rw [UInt8.toNat_ofNat']
      omega
    · rw [UInt8.toNat_ofNat', UInt8.toNat_ofNat']
      omega
    · rw [UInt8.toNat_ofNat', UInt8.toNat_ofNat']
      omega
  · refine .four ?_ (isContinuation_ofNat _) (isContinuation_ofNat _) (isContinuation_ofNat n) ?_ ?_
    · rw [UInt8.toNat_ofNat']
      omega
    · rw [UInt8.toNat_ofNat', UInt8.toNat_ofNat']
      omega
    · rw [UInt8.toNat_ofNat', UInt8.toNat_ofNat']
      omega

theorem Utf8Sequence.exists_utf8EncodeChar_eq {bytes : Bytes} (h : Utf8Sequence bytes) :
    ∃ c, String.utf8EncodeChar c = bytes := by
  -- The code point is put together from the bits that the bytes carry behind their marks.
  cases h with
  | @one a ha =>
      have hvalid : a.toNat.isValidChar := .inl (by omega)
      obtain ⟨c, hc⟩ := exists_val_toNat_eq hvalid
      refine ⟨c, ?_⟩
      simp only [String.utf8EncodeChar, hc, if_pos ha, UInt8.ofNat_toNat]
  | @two a b ha hb =>
      unfold IsContinuation at hb
      have hvalid : ((a.toNat - 0xC0) * 64 + (b.toNat - 0x80)).isValidChar := .inl (by omega)
      obtain ⟨c, hc⟩ := exists_val_toNat_eq hvalid
      refine ⟨c, ?_⟩
      simp only [String.utf8EncodeChar, hc]
      rw [if_neg (by omega), if_pos (by omega), ofNat_eq_of_eq_toNat a (by omega),
        ofNat_eq_of_eq_toNat b (by omega)]
  | @three a b d ha hb hd hshort hsurrogate =>
      unfold IsContinuation at hb hd
      have hvalid : ((a.toNat - 0xE0) * 4096 + (b.toNat - 0x80) * 64 +
          (d.toNat - 0x80)).isValidChar := by
        unfold Nat.isValidChar
        omega
      obtain ⟨c, hc⟩ := exists_val_toNat_eq hvalid
      refine ⟨c, ?_⟩
      simp only [String.utf8EncodeChar, hc]
      rw [if_neg (by omega), if_neg (by omega), if_pos (by omega),
        ofNat_eq_of_eq_toNat a (by omega), ofNat_eq_of_eq_toNat b (by omega),
        ofNat_eq_of_eq_toNat d (by omega)]
  | @four a b d e ha hb hd he hshort hlast =>
      unfold IsContinuation at hb hd he
      have hvalid : ((a.toNat - 0xF0) * 262144 + (b.toNat - 0x80) * 4096 +
          (d.toNat - 0x80) * 64 + (e.toNat - 0x80)).isValidChar := by
        unfold Nat.isValidChar
        omega
      obtain ⟨c, hc⟩ := exists_val_toNat_eq hvalid
      refine ⟨c, ?_⟩
      simp only [String.utf8EncodeChar, hc]
      rw [if_neg (by omega), if_neg (by omega), if_neg (by omega),
        ofNat_eq_of_eq_toNat a (by omega), ofNat_eq_of_eq_toNat b (by omega),
        ofNat_eq_of_eq_toNat d (by omega), ofNat_eq_of_eq_toNat e (by omega)]

theorem strictUtf8_iff {bytes : Bytes} : StrictUtf8 bytes ↔ ∃ text, bytes = toUtf8 text := by
  constructor
  · rintro ⟨sequences, hsequences, rfl⟩
    induction sequences with
    | nil => exact ⟨[], rfl⟩
    | cons sequence sequences ih =>
        obtain ⟨hsequence, hrest⟩ := List.forall_mem_cons.mp hsequences
        obtain ⟨c, rfl⟩ := hsequence.exists_utf8EncodeChar_eq
        obtain ⟨text, htext⟩ := ih hrest
        refine ⟨c :: text, ?_⟩
        rw [List.flatten_cons, htext]
        rfl
  · rintro ⟨text, rfl⟩
    refine ⟨text.map String.utf8EncodeChar, ?_, List.flatMap_def.symm⟩
    intro sequence hsequence
    obtain ⟨c, -, rfl⟩ := List.mem_map.mp hsequence
    exact utf8Sequence_utf8EncodeChar c

theorem strictUtf8_iff_isSome {bytes : Bytes} : StrictUtf8 bytes ↔ (ofUtf8? bytes).isSome := by
  simp only [strictUtf8_iff, Option.isSome_iff_exists, ofUtf8?_eq_some_iff]

instance (bytes : Bytes) : Decidable (StrictUtf8 bytes) :=
  decidable_of_iff _ strictUtf8_iff_isSome.symm

/-- Forms longer than needed, surrogates and values above the last code point are left out. -/
example : ¬ StrictUtf8 [0xC0, 0x8A] ∧ ¬ StrictUtf8 [0xED, 0xA0, 0x80] ∧
    ¬ StrictUtf8 [0xF4, 0x90, 0x80, 0x80] ∧ StrictUtf8 [0xF4, 0x8F, 0xBF, 0xBF] := by
  decide

/-- A line feed can be taken out of strict UTF-8: it stands for itself and for nothing else. -/
theorem strictUtf8_append_lineFeed_iff {front rest : Bytes} :
    StrictUtf8 (front ++ lineFeed :: rest) ↔ StrictUtf8 front ∧ StrictUtf8 rest := by
  simp only [strictUtf8_iff]
  constructor
  · rintro ⟨text, htext⟩
    have hascii : '\n'.toNat < 128 := by decide
    obtain ⟨before, after, -, rfl, rfl⟩ := exists_eq_of_toUtf8_eq hascii htext.symm
    exact ⟨⟨before, rfl⟩, after, rfl⟩
  · rintro ⟨⟨before, rfl⟩, after, rfl⟩
    refine ⟨before ++ '\n' :: after, ?_⟩
    rw [toUtf8_append]
    rfl

theorem strictUtf8_nil : StrictUtf8 [] := strictUtf8_iff.mpr ⟨[], rfl⟩

theorem strictUtf8_intercalate_iff (lines : List Bytes) :
    StrictUtf8 ([lineFeed].intercalate lines) ↔ ∀ line ∈ lines, StrictUtf8 line := by
  induction lines with
  | nil =>
      rw [List.intercalate_nil]
      exact iff_of_true strictUtf8_nil fun line hline => absurd hline List.not_mem_nil
  | cons line lines ih =>
      rw [List.forall_mem_cons, ← ih]
      cases lines with
      | nil =>
          rw [List.intercalate_singleton, List.intercalate_nil]
          exact (and_iff_left strictUtf8_nil).symm
      | cons next lines =>
          rw [List.intercalate_cons_cons, List.append_assoc]
          exact strictUtf8_append_lineFeed_iff

theorem strictUtf8_iff_pieces {bytes : Bytes} :
    StrictUtf8 bytes ↔ ∀ piece ∈ pieces bytes, StrictUtf8 piece := by
  have hpieces : [lineFeed].intercalate (pieces bytes) = bytes := List.intercalate_splitOn lineFeed
  rw [← strictUtf8_intercalate_iff, hpieces]

theorem exists_readLine_iff {bytes : Bytes} :
    (∃ text, readLine bytes = .ok text) ↔ StrictUtf8 bytes := by
  rw [strictUtf8_iff_isSome, readLine]
  cases ofUtf8? bytes with
  | none => simp
  | some text => simp

theorem exists_readTerminatedLine_iff {bytes : Bytes} :
    (∃ text, readTerminatedLine bytes = .ok text) ↔ StrictUtf8 bytes := by
  rw [← exists_readLine_iff, readTerminatedLine]
  cases readLine bytes with
  | error cause => simp [Except.map]
  | ok text => simp [Except.map]

namespace Source

theorem readable_lines_iff {bytes : Bytes} :
    (∀ reading ∈ Source.lines ⟨bytes, none⟩, ∃ text, reading = .ok text) ↔ StrictUtf8 bytes := by
  obtain ⟨front, last, hpieces⟩ := exists_pieces_eq bytes
  rw [strictUtf8_iff_pieces, hpieces, lines_of_pieces hpieces, List.forall_mem_append,
    List.forall_mem_append]
  refine and_congr ?_ ?_
  · simp only [List.forall_mem_map, exists_readTerminatedLine_iff]
  · rw [List.forall_mem_singleton]
    split
    · rename_i hlast
      rw [hlast]
      exact iff_of_true (fun reading hreading => absurd hreading List.not_mem_nil) strictUtf8_nil
    · rw [List.forall_mem_singleton, exists_readLine_iff]

theorem readable_of_program {source : Source} {program : Program}
    (h : source.program = .ok program) : ∀ reading ∈ source.lines, ∃ text, reading = .ok text := by
  obtain ⟨last, -, hlast, -⟩ := program_eq_ok_iff_draft.mp h
  exact Progress.readable_of_advance hlast

theorem unreadable_of_program {source : Source} {cause : StreamError}
    (h : source.program = .error (.input cause)) : .error cause ∈ source.lines := by
  rcases refused_of_program h with hmissing | ⟨_, _, hreading, hrefuses⟩
  · cases hmissing
  · cases hrefuses with
    | unreadable => exact hreading

theorem strictUtf8_document (program : Program) : StrictUtf8 program.document :=
  strictUtf8_iff.mpr ⟨program.text, program.document_eq_toUtf8⟩

/-- A source is strict UTF-8 as a whole exactly when each of its lines can be read. So reading a
strict source never fails, and one that is not strict holds no program, whatever line the bad bytes
stand in. The document that a strict source is converted to is strict UTF-8 as well. -/
theorem strictUtf8_iff_lines_readable (bytes : Bytes) :
    (StrictUtf8 bytes ↔
      ∀ reading ∈ Source.lines ⟨bytes, none⟩, ∃ text, reading = .ok text) ∧
    (StrictUtf8 bytes → ∀ cause, Source.program ⟨bytes, none⟩ ≠ .error (.input cause)) ∧
    (¬ StrictUtf8 bytes → ∀ program, Source.program ⟨bytes, none⟩ ≠ .ok program) ∧
    (StrictUtf8 bytes → ∀ sink, (Source.convert ⟨bytes, none⟩ sink).failure = none →
      StrictUtf8 (Source.convert ⟨bytes, none⟩ sink).written) := by
  refine ⟨readable_lines_iff.symm, ?_, ?_, ?_⟩
  · intro hstrict cause hfails
    obtain ⟨text, htext⟩ := readable_lines_iff.mpr hstrict _ (unreadable_of_program hfails)
    cases htext
  · intro hstrict program hok
    exact hstrict (readable_lines_iff.mp (readable_of_program hok))
  · intro _ sink hdone
    obtain ⟨program, -, hwritten⟩ := exists_written_eq_document hdone
    rw [hwritten]
    exact strictUtf8_document program

theorem strictUtf8_iff_lines_readable_of_comment :
    let strict : Bytes := toUtf8 ".IPPcode22\nWRITE string@é # ✓\n".toList
    let cut : Bytes := toUtf8 ".IPPcode22\n#".toList ++ [0xC3, lineFeed]
    StrictUtf8 (Source.convert ⟨strict, none⟩ {}).written ∧
      (∀ cause, Source.program ⟨strict, none⟩ ≠ .error (.input cause)) ∧
      ¬ StrictUtf8 cut ∧ ∀ program, Source.program ⟨cut, none⟩ ≠ .ok program := by
  intro strict cut
  have hstrict : StrictUtf8 strict := by decide
  have hcut : ¬ StrictUtf8 cut := by decide
  have hdone : (Source.convert ⟨strict, none⟩ {}).failure = none := by decide
  obtain ⟨-, hread, -, hwritten⟩ := strictUtf8_iff_lines_readable strict
  obtain ⟨-, -, hprogram, -⟩ := strictUtf8_iff_lines_readable cut
  exact ⟨hwritten hstrict {} hdone, hread hstrict, hcut, hprogram hcut⟩

end Source

end IppCode
