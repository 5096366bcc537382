import IppCode.Proofs.Ascii

/-!
Escape sequences in encoded text. A scanner over bytes, with a cursor that moves on by one byte
or by a whole escape sequence, finds the same as a look at the characters: no byte of a longer
encoding is a backslash or a digit, and no escape sequence hides a backslash.
-/

namespace IppCode

def backslash : UInt8 := 92

/-- The length of an escape sequence with its backslash. -/
def escapeLength : Nat := 4

def isDigitByte (byte : UInt8) : Bool := 48 ≤ byte && byte ≤ 57

/-- The bytes between two positions, unless they reach behind the end. -/
def slice? (bytes : Bytes) (start stop : Nat) : Option Bytes :=
  if start ≤ stop ∧ stop ≤ bytes.length then some ((bytes.drop start).take (stop - start))
  else none

/-- The number that the bytes of decimal digits spell. -/
def codeOfDigits (digits : Bytes) : Nat :=
  digits.foldl (fun code digit => code * 10 + (digit - 48).toNat) 0

/-- Check the escape sequences of encoded text from a position on. -/
def scanEscapesFrom (bytes : Bytes) (position : Nat) : Bool :=
  if h : position < bytes.length then
    if bytes[position] ≠ backslash then
      scanEscapesFrom bytes (position + 1)
    else
      match slice? bytes (position + 1) (position + escapeLength) with
      | none => false
      | some digits =>
          if digits.all isDigitByte && isEscapeCode (codeOfDigits digits) then
            scanEscapesFrom bytes (position + escapeLength)
          else
            false
  else
    true
termination_by bytes.length - position
decreasing_by
  · omega
  · unfold escapeLength
    omega

def scanEscapes (bytes : Bytes) : Bool := scanEscapesFrom bytes 0

namespace Grammar

/-- Three digits that spell an admissible code. -/
def Coded (a b c : Char) : Prop :=
  Digit a ∧ Digit b ∧ Digit c ∧
    (threeDigits a b c ≤ 32 ∨ (35 ≤ threeDigits a b c ∧ threeDigits a b c ≤ 92))

/-- One character other than the backslash, or one escape sequence. -/
inductive EscapePiece : Text → Prop
  | plain {c : Char} (h : c ≠ '\\') : EscapePiece [c]
  | sequence {a b c : Char} (h : Coded a b c) : EscapePiece ['\\', a, b, c]

/-- The character at a position, if it is a backslash, starts an escape sequence. -/
def SequenceAt (text : Text) (position : Nat) : Prop :=
  text[position]? = some '\\' →
    ∃ a b c, text[position + 1]? = some a ∧ text[position + 2]? = some b ∧
      text[position + 3]? = some c ∧ Coded a b c

theorem isWellEscaped_iff_pieces {text : Text} :
    isWellEscaped text ↔ ∃ pieces : List Text, (∀ piece ∈ pieces, EscapePiece piece) ∧
      pieces.flatten = text := by
  rw [isWellEscaped_iff]
  constructor
  · intro h
    induction h with
    | nil => exact ⟨[], by simp, rfl⟩
    | @plain c _ hc _ ih =>
        obtain ⟨pieces, hpieces, rfl⟩ := ih
        exact ⟨[c] :: pieces, List.forall_mem_cons.mpr ⟨.plain hc, hpieces⟩, rfl⟩
    | @escape a b c _ ha hb hc hcode _ ih =>
        obtain ⟨pieces, hpieces, rfl⟩ := ih
        refine ⟨['\\', a, b, c] :: pieces, List.forall_mem_cons.mpr ⟨?_, hpieces⟩, rfl⟩
        exact .sequence ⟨ha, hb, hc, hcode⟩
  · rintro ⟨pieces, hpieces, rfl⟩
    induction pieces with
    | nil => exact .nil
    | cons piece pieces ih =>
        obtain ⟨hpiece, hrest⟩ := List.forall_mem_cons.mp hpieces
        cases hpiece with
        | plain hc => exact .plain hc (ih hrest)
        | sequence hcoded =>
            obtain ⟨ha, hb, hc, hcode⟩ := hcoded
            exact .escape ha hb hc hcode (ih hrest)

theorem Escaped.sequenceAt {text : Text} (h : Escaped text) (position : Nat) :
    SequenceAt text position := by
  have hdigit : ¬ Digit '\\' := by simp [Digit]
  induction h generalizing position with
  | nil =>
      intro hposition
      cases hposition
  | plain hc _ ih =>
      cases position with
      | zero =>
          intro hfirst
          exact absurd (Option.some.inj hfirst) hc
      | succ position => exact ih position
  | @escape a b c _ ha hb hc hcode _ ih =>
      -- The three positions behind the backslash hold digits.
      rcases position with _ | _ | _ | _ | position
      · exact fun _ => ⟨a, b, c, rfl, rfl, rfl, ha, hb, hc, hcode⟩
      · exact fun hfirst => absurd (Option.some.inj hfirst ▸ ha) hdigit
      · exact fun hfirst => absurd (Option.some.inj hfirst ▸ hb) hdigit
      · exact fun hfirst => absurd (Option.some.inj hfirst ▸ hc) hdigit
      · exact ih position

theorem isWellEscaped_of_sequenceAt {text : Text} (h : ∀ position, SequenceAt text position) :
    isWellEscaped text := by
  fun_induction isWellEscaped text with
  | case1 => rfl
  | case2 a b c rest ih =>
      obtain ⟨a', b', c', ha, hb, hc, hcoded⟩ := h 0 rfl
      obtain ⟨rfl, rfl, rfl⟩ : a = a' ∧ b = b' ∧ c = c' :=
        ⟨Option.some.inj ha, Option.some.inj hb, Option.some.inj hc⟩
      rw [Bool.and_eq_true, isEscapeSequence_iff]
      exact ⟨hcoded, ih fun position => h (position + 4)⟩
  | case3 c rest hshort ih =>
      rw [Bool.and_eq_true, bne_iff_ne]
      refine ⟨?_, ih fun position => h (position + 1)⟩
      rintro rfl
      -- Where a backslash is handled by itself, fewer than three characters follow it.
      obtain ⟨a, b, d, ha, hb, hd, -⟩ := h 0 rfl
      rcases rest with _ | ⟨a', _ | ⟨b', _ | ⟨d', rest⟩⟩⟩
      · cases ha
      · cases hb
      · cases hd
      · exact hshort a' b' d' rest rfl rfl

end Grammar

section Cursor

variable {bytes rest : Bytes} {byte : UInt8} {position : Nat}

theorem drop_succ_of_drop (h : bytes.drop position = byte :: rest) :
    bytes.drop (position + 1) = rest := by
  rw [← List.tail_drop, h, List.tail_cons]

theorem length_of_drop (h : bytes.drop position = byte :: rest) :
    bytes.length = position + 1 + rest.length := by
  have hlength := congrArg List.length h
  rw [List.length_drop, List.length_cons] at hlength
  omega

theorem getElem?_of_drop (h : bytes.drop position = byte :: rest) :
    bytes[position]? = some byte := by
  rw [← List.head?_drop, h, List.head?_cons]

theorem slice?_of_drop (h : bytes.drop position = byte :: rest) :
    slice? bytes (position + 1) (position + escapeLength) =
      if 3 ≤ rest.length then some (rest.take 3) else none := by
  have hlength := length_of_drop h
  have hwidth : position + escapeLength - (position + 1) = 3 := by
    unfold escapeLength
    omega
  rw [slice?, drop_succ_of_drop h, hwidth]
  unfold escapeLength
  split
  · rw [if_pos (by omega)]
  · rw [if_neg (by omega)]

theorem scanEscapesFrom_of_end (h : bytes.drop position = []) :
    scanEscapesFrom bytes position = true := by
  rw [scanEscapesFrom, dif_neg]
  rw [List.drop_eq_nil_iff] at h
  omega

theorem scanEscapesFrom_of_ne (h : bytes.drop position = byte :: rest) (hbyte : byte ≠ backslash) :
    scanEscapesFrom bytes position = scanEscapesFrom bytes (position + 1) := by
  obtain ⟨hposition, hhere⟩ := List.getElem?_eq_some_iff.mp (getElem?_of_drop h)
  rw [scanEscapesFrom, dif_pos hposition, if_pos]
  rw [hhere]
  exact hbyte

theorem scanEscapesFrom_of_backslash (h : bytes.drop position = backslash :: rest) :
    scanEscapesFrom bytes position ↔
      ∃ a b c later, rest = a :: b :: c :: later ∧ [a, b, c].all isDigitByte ∧
        isEscapeCode (codeOfDigits [a, b, c]) ∧
        scanEscapesFrom bytes (position + escapeLength) := by
  obtain ⟨hposition, hhere⟩ := List.getElem?_eq_some_iff.mp (getElem?_of_drop h)
  rw [scanEscapesFrom, dif_pos hposition, if_neg (by simp [hhere]), slice?_of_drop h]
  rcases rest with _ | ⟨a, _ | ⟨b, _ | ⟨c, later⟩⟩⟩
  · simp
  · simp
  · simp
  · simp only [List.length_cons, List.take_succ_cons, List.take_zero]
    rw [if_pos (by omega)]
    constructor
    · intro hscan
      dsimp only at hscan
      split at hscan
      · rename_i htest
        rw [Bool.and_eq_true] at htest
        exact ⟨a, b, c, later, rfl, htest.1, htest.2, hscan⟩
      · cases hscan
    · rintro ⟨_, _, _, _, ⟨⟩, hdigits, hcode, hscan⟩
      dsimp only
      rw [if_pos]
      · exact hscan
      · rw [hdigits, hcode]
        rfl

theorem scanEscapesFrom_skip {skipped : Bytes} (h : bytes.drop position = skipped ++ rest)
    (hskipped : backslash ∉ skipped) :
    scanEscapesFrom bytes position = scanEscapesFrom bytes (position + skipped.length) := by
  induction skipped generalizing position with
  | nil => rfl
  | cons byte skipped ih =>
      rw [List.mem_cons, not_or] at hskipped
      rw [scanEscapesFrom_of_ne h (Ne.symm hskipped.1), ih (drop_succ_of_drop h) hskipped.2,
        List.length_cons]
      congr 1
      omega

end Cursor

namespace Grammar

theorem digit_iff {c : Char} : Digit c ↔ 48 ≤ c.toNat ∧ c.toNat ≤ 57 := by
  simp only [Digit, Char.le_def, UInt32.le_iff_toNat_le]
  rfl

theorem toNat_toUInt8_of_digit {c : Char} (h : Digit c) : c.toUInt8.toNat = c.toNat := by
  rw [digit_iff] at h
  apply Nat.mod_eq_of_lt
  change c.toNat < 256
  omega

theorem isDigitByte_iff {byte : UInt8} : isDigitByte byte ↔ 48 ≤ byte.toNat ∧ byte.toNat ≤ 57 := by
  simp only [isDigitByte, Bool.and_eq_true, decide_eq_true_eq, UInt8.le_iff_toNat_le]
  rfl

theorem isDigitByte_of_digit {c : Char} (h : Digit c) : isDigitByte c.toUInt8 := by
  rw [isDigitByte_iff, toNat_toUInt8_of_digit h, ← digit_iff]
  exact h

theorem toUtf8_cons_of_digit {c : Char} (h : Digit c) (text : Text) :
    toUtf8 (c :: text) = c.toUInt8 :: toUtf8 text := by
  rw [digit_iff] at h
  change String.utf8EncodeChar c ++ toUtf8 text = _
  rw [utf8EncodeChar_of_ascii (by omega), List.singleton_append]

theorem exists_digit_of_toUtf8_eq {byte : UInt8} {rest : Bytes} {text : Text}
    (hbyte : isDigitByte byte) (h : toUtf8 text = byte :: rest) :
    ∃ c later, text = c :: later ∧ Digit c ∧ byte = c.toUInt8 ∧ rest = toUtf8 later := by
  rw [isDigitByte_iff] at hbyte
  cases text with
  | nil => cases h
  | cons c later =>
      change String.utf8EncodeChar c ++ toUtf8 later = byte :: rest at h
      obtain ⟨first, others, hencoded⟩ :=
        List.exists_cons_of_ne_nil (@String.utf8EncodeChar_ne_nil c)
      have hfirst : first = byte := by
        rw [hencoded] at h
        exact (List.cons.inj h).1
      have hmem : byte ∈ String.utf8EncodeChar c := by
        rw [hencoded, hfirst]
        exact List.mem_cons_self
      have hsame : c.toNat = byte.toNat := toNat_eq_of_mem_utf8EncodeChar hmem (by omega)
      rw [utf8EncodeChar_of_ascii (by omega)] at h
      obtain ⟨hbyte', hrest⟩ := List.cons.inj h
      refine ⟨c, later, rfl, ?_, hbyte'.symm, hrest.symm⟩
      rw [digit_iff, hsame]
      exact hbyte

theorem codeOfDigits_eq {a b c : Char} (ha : Digit a) (hb : Digit b) (hc : Digit c) :
    codeOfDigits [a.toUInt8, b.toUInt8, c.toUInt8] = threeDigits a b c := by
  have hvalue : ∀ {d : Char}, Digit d → (d.toUInt8 - 48).toNat = digitValue d := by
    intro d hd
    have hbyte := toNat_toUInt8_of_digit hd
    have hzero : 48 ≤ d.toUInt8 := by
      rw [UInt8.le_iff_toNat_le, hbyte]
      exact (digit_iff.mp hd).1
    rw [UInt8.toNat_sub_of_le _ _ hzero, hbyte]
    rfl
  simp only [codeOfDigits, List.foldl_cons, List.foldl_nil, hvalue ha, hvalue hb, hvalue hc,
    threeDigits]
  omega

theorem toUtf8_backslash (text : Text) : toUtf8 ('\\' :: text) = backslash :: toUtf8 text := rfl

theorem isWellEscaped_backslash_iff {text : Text} :
    isWellEscaped ('\\' :: text) ↔
      ∃ a b c rest, text = a :: b :: c :: rest ∧ Coded a b c ∧ isWellEscaped rest := by
  rw [isWellEscaped_iff]
  constructor
  · rintro (_ | ⟨hplain, -⟩ | ⟨ha, hb, hc, hcode, hrest⟩)
    · exact absurd rfl hplain
    · exact ⟨_, _, _, _, rfl, ⟨ha, hb, hc, hcode⟩, isWellEscaped_iff.mpr hrest⟩
  · rintro ⟨a, b, c, rest, rfl, ⟨ha, hb, hc, hcode⟩, hrest⟩
    exact .escape ha hb hc hcode (isWellEscaped_iff.mp hrest)

theorem toUtf8_of_coded {a b c : Char} (h : Coded a b c) (text : Text) :
    toUtf8 (a :: b :: c :: text) = a.toUInt8 :: b.toUInt8 :: c.toUInt8 :: toUtf8 text := by
  obtain ⟨ha, hb, hc, -⟩ := h
  rw [toUtf8_cons_of_digit ha, toUtf8_cons_of_digit hb, toUtf8_cons_of_digit hc]

variable {bytes : Bytes} {text : Text} {position : Nat}

theorem drop_of_coded {a b c : Char} (hcoded : Coded a b c)
    (h : bytes.drop position = toUtf8 ('\\' :: a :: b :: c :: text)) :
    bytes.drop (position + escapeLength) = toUtf8 text := by
  rw [toUtf8_backslash, toUtf8_of_coded hcoded] at h
  rw [← List.drop_drop, h]
  rfl

theorem scanEscapesFrom_backslash_iff (h : bytes.drop position = toUtf8 ('\\' :: text)) :
    scanEscapesFrom bytes position ↔
      ∃ a b c rest, text = a :: b :: c :: rest ∧ Coded a b c ∧
        scanEscapesFrom bytes (position + escapeLength) := by
  rw [toUtf8_backslash] at h
  rw [scanEscapesFrom_of_backslash h]
  constructor
  · rintro ⟨x, y, z, later, htext, hdigits, hcode, hscan⟩
    simp only [List.all_cons, List.all_nil, Bool.and_true, Bool.and_eq_true] at hdigits
    obtain ⟨hx, hy, hz⟩ := hdigits
    obtain ⟨a, behindA, rfl, ha, rfl, hbehindA⟩ := exists_digit_of_toUtf8_eq hx htext
    obtain ⟨b, behindB, rfl, hb, rfl, hbehindB⟩ := exists_digit_of_toUtf8_eq hy hbehindA.symm
    obtain ⟨c, rest, rfl, hc, rfl, -⟩ := exists_digit_of_toUtf8_eq hz hbehindB.symm
    refine ⟨a, b, c, rest, rfl, ⟨ha, hb, hc, ?_⟩, hscan⟩
    rw [codeOfDigits_eq ha hb hc] at hcode
    simpa [isEscapeCode] using hcode
  · rintro ⟨a, b, c, rest, rfl, hcoded, hscan⟩
    refine ⟨_, _, _, _, toUtf8_of_coded hcoded rest, ?_, ?_, hscan⟩
    all_goals obtain ⟨ha, hb, hc, hcode⟩ := hcoded
    · simp [isDigitByte_of_digit ha, isDigitByte_of_digit hb, isDigitByte_of_digit hc]
    · rw [codeOfDigits_eq ha hb hc]
      simpa [isEscapeCode] using hcode

theorem scanEscapesFrom_cons_of_ne {c : Char} (hc : c ≠ '\\')
    (h : bytes.drop position = toUtf8 (c :: text)) :
    scanEscapesFrom bytes position =
        scanEscapesFrom bytes (position + (String.utf8EncodeChar c).length) ∧
      bytes.drop (position + (String.utf8EncodeChar c).length) = toUtf8 text := by
  change bytes.drop position = String.utf8EncodeChar c ++ toUtf8 text at h
  constructor
  · apply scanEscapesFrom_skip h
    intro hmem
    have hascii : '\\'.toNat < 128 := by decide
    exact hc (eq_of_mem_utf8EncodeChar hascii hmem)
  · rw [← List.drop_drop, h, List.drop_left]

/-- Wherever the cursor stands before a character, the scan decides the rest of the text. -/
theorem scanEscapesFrom_iff (h : bytes.drop position = toUtf8 text) :
    scanEscapesFrom bytes position ↔ isWellEscaped text := by
  induction hlength : text.length using Nat.strong_induction_on generalizing text position with
  | h n ih =>
      cases text with
      | nil =>
          rw [scanEscapesFrom_of_end h]
          rfl
      | cons c text =>
          by_cases hc : c = '\\'
          · subst hc
            rw [scanEscapesFrom_backslash_iff h, isWellEscaped_backslash_iff]
            have hsame : ∀ a b d rest, text = a :: b :: d :: rest → Coded a b d →
                (scanEscapesFrom bytes (position + escapeLength) ↔ isWellEscaped rest) := by
              rintro a b d rest rfl hcoded
              refine ih rest.length ?_ (drop_of_coded hcoded h) rfl
              simp only [← hlength, List.length_cons]
              omega
            constructor
            · rintro ⟨a, b, d, rest, htext, hcoded, hscan⟩
              exact ⟨a, b, d, rest, htext, hcoded, (hsame a b d rest htext hcoded).mp hscan⟩
            · rintro ⟨a, b, d, rest, htext, hcoded, hrest⟩
              exact ⟨a, b, d, rest, htext, hcoded, (hsame a b d rest htext hcoded).mpr hrest⟩
          · obtain ⟨hskip, hdrop⟩ := scanEscapesFrom_cons_of_ne hc h
            rw [hskip, isWellEscaped_cons_of_ne hc]
            exact ih text.length (by simp [← hlength]) hdrop rfl

theorem scanEscapes_toUtf8 (text : Text) : scanEscapes (toUtf8 text) = isWellEscaped text :=
  Bool.eq_iff_iff.mpr (scanEscapesFrom_iff List.drop_zero)

/-- The scan of an encoded text decides whether the text is made of characters other than the
backslash and of escape sequences, which is to say whether every backslash in it starts an escape
sequence. Behind a text that passes, the scan starts anew. -/
theorem scanEscapes_recognises (text : Text) :
    scanEscapes (toUtf8 text) = isWellEscaped text ∧
      (scanEscapes (toUtf8 text) ↔
        ∃ pieces : List Text, (∀ piece ∈ pieces, EscapePiece piece) ∧ pieces.flatten = text) ∧
      (scanEscapes (toUtf8 text) ↔ ∀ position, SequenceAt text position) ∧
      (scanEscapes (toUtf8 text) → ∀ rest,
        scanEscapes (toUtf8 (text ++ rest)) = scanEscapes (toUtf8 rest)) := by
  refine ⟨scanEscapes_toUtf8 text, ?_, ?_, ?_⟩
  · rw [scanEscapes_toUtf8]
    exact isWellEscaped_iff_pieces
  · rw [scanEscapes_toUtf8]
    constructor
    · intro htext
      exact (isWellEscaped_iff.mp htext).sequenceAt
    · exact isWellEscaped_of_sequenceAt
  · intro htext rest
    rw [scanEscapes_toUtf8] at htext
    rw [scanEscapes_toUtf8, scanEscapes_toUtf8, isWellEscaped_append htext rest]

theorem scanEscapes_recognises_cut :
    scanEscapes (toUtf8 "ř\\0921".toList) ∧ ¬ scanEscapes (toUtf8 "ř\\0921\\03".toList) := by
  obtain ⟨hscan, -, -, hbehind⟩ := scanEscapes_recognises "ř\\0921".toList
  obtain ⟨-, -, hpositions, -⟩ := scanEscapes_recognises "\\03".toList
  have hpasses : scanEscapes (toUtf8 "ř\\0921".toList) := hscan.trans (by decide)
  refine ⟨hpasses, ?_⟩
  intro hscan'
  have hcut := hpositions.mp ((hbehind hpasses "\\03".toList).symm.trans hscan')
  obtain ⟨_, _, _, -, -, hthird, -⟩ := hcut 0 rfl
  cases hthird

end Grammar

end IppCode
