import IppCode.Instruction
import IppCode.Proofs.Words
import Mathlib.Data.List.Forall2

namespace IppCode.Grammar

/-- Characters that are the same or two cases of one ASCII letter. -/
def SameLetter (c d : Char) : Prop :=
  c = d ∨ (('a' ≤ c ∧ c ≤ 'z') ∧ c.toNat = d.toNat + 32) ∨
    (('A' ≤ c ∧ c ≤ 'Z') ∧ d.toNat = c.toNat + 32)

/-- Names with the same slots, group by group. -/
def table : List (List String × List Slot) :=
  [(["CREATEFRAME", "PUSHFRAME", "POPFRAME", "RETURN", "BREAK"], []),
    (["DEFVAR", "POPS"], [.var]),
    (["CALL", "LABEL", "JUMP"], [.label]),
    (["PUSHS", "WRITE"], [.symb]),
    (["MOVE", "INT2CHAR", "STRLEN", "TYPE", "NOT"], [.var, .symb]),
    (["READ"], [.var, .type]),
    (["ADD", "SUB", "MUL", "IDIV", "LT", "GT", "EQ", "AND", "OR", "STRI2INT", "CONCAT", "GETCHAR",
      "SETCHAR"], [.var, .symb, .symb]),
    (["JUMPIFEQ", "JUMPIFNEQ"], [.label, .symb, .symb])]

/-- As many tokens as slots, each denoting an operand in its slot. -/
inductive Fits : List Slot → List Text → List Operand → Prop
  | nil : Fits [] [] []
  | cons {slot : Slot} {token : Text} {operand : Operand} {slots : List Slot}
      {tokens : List Text} {operands : List Operand} (hhead : Denotes slot token operand)
      (htail : Fits slots tokens operands) :
      Fits (slot :: slots) (token :: tokens) (operand :: operands)

/-- What the tokens of a line mean: the first is a name of the table in any case, and the others
fit the slots that stand beside that name. -/
inductive Means : List Text → Operation → Prop
  | intro {names : List String} {slots : List Slot} {name : String} {word : Text}
      {tokens : List Text} {opcode : Opcode} {operands : List Operand}
      (hrow : (names, slots) ∈ table) (hname : name ∈ names)
      (hword : List.Forall₂ SameLetter word name.toList) (hopcode : opcode.name = name.toList)
      (hfits : Fits slots tokens operands) : Means (word :: tokens) ⟨opcode, operands⟩

theorem toNat_toUpper_of_lower {c : Char} (h : 'a' ≤ c ∧ c ≤ 'z') :
    c.toUpper.toNat + 32 = c.toNat := by
  have hlower : 'a'.val ≤ c.val ∧ c.val ≤ 'z'.val := h
  have hupper : c.toUpper.val = c.val + ('A'.val - 'a'.val) := by
    delta Char.toUpper
    rw [dif_pos hlower]
  simp only [UInt32.le_iff_toNat_le] at hlower
  change 97 ≤ c.val.toNat ∧ c.val.toNat ≤ 122 at hlower
  change c.toUpper.val.toNat + 32 = c.val.toNat
  rw [hupper]
  rw [UInt32.toNat_add]
  change (c.val.toNat + 4294967264) % 4294967296 + 32 = c.val.toNat
  omega

theorem toUpper_of_not_lower {c : Char} (h : ¬ ('a' ≤ c ∧ c ≤ 'z')) : c.toUpper = c := by
  have hlower : ¬ ('a'.val ≤ c.val ∧ c.val ≤ 'z'.val) := h
  exact dif_neg hlower

theorem sameLetter_iff {c d : Char} (hd : ¬ ('a' ≤ d ∧ d ≤ 'z')) :
    SameLetter c d ↔ c.toUpper = d := by
  constructor
  · rintro (rfl | ⟨hlower, hshift⟩ | ⟨⟨hA, hZ⟩, hshift⟩)
    · exact toUpper_of_not_lower hd
    · have hupper := toNat_toUpper_of_lower hlower
      exact Char.toNat_inj.mp (by omega)
    · -- The upper-case letter is on the wrong side.
      exfalso
      apply hd
      simp only [Char.le_def, UInt32.le_iff_toNat_le] at hA hZ ⊢
      change 65 ≤ c.toNat at hA
      change c.toNat ≤ 90 at hZ
      change 97 ≤ d.toNat ∧ d.toNat ≤ 122
      omega
  · rintro rfl
    by_cases hlower : 'a' ≤ c ∧ c ≤ 'z'
    · exact .inr (.inl ⟨hlower, (toNat_toUpper_of_lower hlower).symm⟩)
    · exact .inl (toUpper_of_not_lower hlower).symm

theorem forall₂_sameLetter_iff {word name : Text} (h : ∀ d ∈ name, ¬ ('a' ≤ d ∧ d ≤ 'z')) :
    List.Forall₂ SameLetter word name ↔ word.map Char.toUpper = name := by
  induction word generalizing name with
  | nil => cases name <;> simp
  | cons c word ih =>
      cases name with
      | nil => simp
      | cons d name =>
          have hd : ¬ ('a' ≤ d ∧ d ≤ 'z') := h d (by simp)
          have hname : ∀ e ∈ name, ¬ ('a' ≤ e ∧ e ≤ 'z') := fun e he => h e (by simp [he])
          rw [List.forall₂_cons, sameLetter_iff hd, ih hname, List.map_cons, List.cons.injEq]

theorem name_not_lower (opcode : Opcode) : ∀ d ∈ opcode.name, ¬ ('a' ≤ d ∧ d ≤ 'z') := by
  cases opcode <;> decide

theorem ofSource?_eq_some_iff {word : Text} {opcode : Opcode} :
    Opcode.ofSource? word = some opcode ↔ List.Forall₂ SameLetter word opcode.name := by
  rw [Opcode.ofSource?, ofName?_eq_some_iff, forall₂_sameLetter_iff (name_not_lower opcode)]
  exact eq_comm

theorem exists_row (opcode : Opcode) :
    ∃ row ∈ table, row.2 = opcode.signature ∧ ∃ name ∈ row.1, name.toList = opcode.name := by
  cases opcode <;> decide

theorem exists_opcode_of_mem_row : ∀ row ∈ table, ∀ name ∈ row.1,
    ∃ opcode ∈ Opcode.all, opcode.name = name.toList ∧ opcode.signature = row.2 := by
  decide

theorem signature_eq_of_mem_row {names : List String} {slots : List Slot} {name : String}
    {opcode : Opcode} (hrow : (names, slots) ∈ table) (hname : name ∈ names)
    (hopcode : opcode.name = name.toList) : opcode.signature = slots := by
  obtain ⟨listed, -, hlisted, hsignature⟩ := exists_opcode_of_mem_row _ hrow name hname
  have hsame : opcode = listed :=
    Named.name_injective opcode (Named.mem_all opcode) listed (Named.mem_all listed)
      (hopcode.trans hlisted.symm)
  rw [hsame, hsignature]

theorem Fits.length_eq {slots : List Slot} {tokens : List Text} {operands : List Operand}
    (h : Fits slots tokens operands) : tokens.length = slots.length := by
  induction h with
  | nil => rfl
  | cons _ _ ih => simp [ih]

theorem fit_eq_ok_iff {opcode : Opcode} {position : Nat} {slots : List Slot} {tokens : List Text}
    {operands : List Operand} (hlength : tokens.length = slots.length) :
    opcode.fit position (slots.zip tokens) = .ok operands ↔ Fits slots tokens operands := by
  induction slots generalizing position tokens operands with
  | nil =>
      have hnil : tokens = [] := List.eq_nil_of_length_eq_zero hlength
      subst tokens
      constructor
      · intro h
        cases h
        exact .nil
      · rintro ⟨⟩
        rfl
  | cons slot slots ih =>
      cases tokens with
      | nil => simp at hlength
      | cons token tokens =>
          have htail : tokens.length = slots.length := by simpa using hlength
          rw [List.zip_cons_cons, Opcode.fit]
          constructor
          · intro h
            split at h
            · cases h
            · rename_i operand hoperand
              split at h
              · cases h
              · rename_i rest hrest
                cases h
                exact .cons (operand?_eq_some_iff.mp hoperand) ((ih htail).mp hrest)
          · rintro (_ | ⟨hhead, hrest⟩)
            rw [operand?_eq_some_iff.mpr hhead, (ih htail).mpr hrest]

theorem operands_eq_ok_iff {rule : Rule} {tokens : List Text} {operands : List Operand} :
    rule.operands tokens = .ok operands ↔ Fits rule.slots tokens operands := by
  unfold Rule.operands
  split
  · rename_i hlength
    exact fit_eq_ok_iff hlength
  · rename_i hlength
    constructor
    · intro h
      cases h
    · intro h
      exact absurd h.length_eq hlength

/-- A statement makes an operation exactly when its words mean that operation. -/
theorem operation_eq_ok_iff {statement : Statement} {operation : Operation} :
    statement.operation = .ok operation ↔
      Means (statement.name :: statement.operands) operation := by
  unfold Statement.operation
  constructor
  · intro h
    split at h
    · cases h
    · rename_i rule hrule
      obtain ⟨hopcode, hslots⟩ := Rule.ofSource?_eq_some_iff.mp hrule
      split at h
      · cases h
      · rename_i operands hoperands
        cases h
        obtain ⟨⟨names, slots⟩, hrow, hsignature, name, hname, hsame⟩ := exists_row rule.opcode
        rw [operands_eq_ok_iff, hslots, ← hsignature] at hoperands
        refine .intro hrow hname ?_ hsame.symm hoperands
        rw [hsame]
        exact ofSource?_eq_some_iff.mp hopcode
  · rintro (@⟨_, slots, _, _, _, opcode, operands, hrow, hname, hword, hopcode, hfits⟩)
    rw [← hopcode, ← ofSource?_eq_some_iff] at hword
    have hslots : slots = opcode.signature := (signature_eq_of_mem_row hrow hname hopcode).symm
    have hrule : Rule.ofSource? statement.name = some ⟨opcode, slots⟩ :=
      Rule.ofSource?_eq_some_iff.mpr ⟨hword, hslots⟩
    have hoperands : Rule.operands ⟨opcode, slots⟩ statement.operands = .ok operands :=
      operands_eq_ok_iff.mpr hfits
    simp only [hrule, hoperands]

theorem fits_of_operation {statement : Statement} {operation : Operation}
    (h : statement.operation = .ok operation) :
    Fits operation.opcode.signature statement.operands operation.operands := by
  cases statement
  cases operation_eq_ok_iff.mp h with
  | intro hrow hname _ hopcode hfits =>
      rw [signature_eq_of_mem_row hrow hname hopcode]
      exact hfits

end IppCode.Grammar
