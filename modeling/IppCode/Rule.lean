import IppCode.Slot

namespace IppCode

/-- What an opcode takes: an operand for every slot. -/
structure Rule where
  opcode : Opcode
  slots : List Slot
  deriving DecidableEq

namespace Rule

def arity (rule : Rule) : Nat := rule.slots.length

/-- Opcodes with the same slots, row by row. -/
def rows : List (List Opcode × List Slot) :=
  [([.createFrame, .pushFrame, .popFrame, .ret, .brk], []),
    ([.defVar, .pops], [.var]),
    ([.call, .label, .jump], [.label]),
    ([.pushs, .write], [.symb]),
    ([.move, .int2char, .strlen, .type, .not], [.var, .symb]),
    ([.read], [.var, .type]),
    ([.add, .sub, .mul, .idiv, .lt, .gt, .eq, .and, .or, .stri2int, .concat, .getChar, .setChar],
      [.var, .symb, .symb]),
    ([.jumpIfEq, .jumpIfNeq], [.label, .symb, .symb])]

/-- Rules by their opcodes. -/
abbrev Table := Opcode → Option Rule

def Table.insert (table : Table) (rule : Rule) : Table :=
  fun opcode => if opcode = rule.opcode then some rule else table opcode

def Table.insertRow (table : Table) (row : List Opcode × List Slot) : Table :=
  row.1.foldl (fun table opcode => table.insert ⟨opcode, row.2⟩) table

/-- Filled row by row; a later entry for an opcode takes the place of an earlier one. -/
def table : Table := rows.foldl Table.insertRow fun _ => none

def ofOpcode? (opcode : Opcode) : Option Rule := table opcode

/-- The rule that a source means by a word, whatever the ASCII case of its letters. -/
def ofSource? (word : Text) : Option Rule := (Opcode.ofSource? word).bind ofOpcode?

theorem ofOpcode?_eq (opcode : Opcode) : ofOpcode? opcode = some ⟨opcode, opcode.signature⟩ := by
  cases opcode <;> decide

theorem ofSource?_eq_none_iff {word : Text} :
    ofSource? word = none ↔ Opcode.ofSource? word = none := by
  unfold ofSource?
  cases Opcode.ofSource? word with
  | none => simp
  | some opcode => simp [ofOpcode?_eq]

theorem ofSource?_eq_some_iff {word : Text} {rule : Rule} :
    ofSource? word = some rule ↔
      Opcode.ofSource? word = some rule.opcode ∧ rule.slots = rule.opcode.signature := by
  obtain ⟨opcode, slots⟩ := rule
  unfold ofSource?
  cases Opcode.ofSource? word with
  | none => simp
  | some found =>
      rw [Option.bind_some, ofOpcode?_eq, Option.some.injEq, Option.some.injEq, mk.injEq]
      constructor
      · rintro ⟨rfl, rfl⟩
        exact ⟨rfl, rfl⟩
      · rintro ⟨rfl, hslots⟩
        exact ⟨rfl, hslots.symm⟩

end Rule

end IppCode
