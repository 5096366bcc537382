import IppCode.Proofs.Acceptance
import IppCode.Proofs.Values

namespace IppCode

namespace Grammar

/-- The kinds of operand that a slot takes. -/
inductive Suits : Slot → Kind → Prop
  | var : Suits .var .var
  | label : Suits .label .label
  | type : Suits .type .type
  | symb {kind : Kind} (h : kind ∈ [.var, .int, .bool, .string, .nil]) : Suits .symb kind

theorem Denotes.suits {slot : Slot} {token : Text} {operand : Operand}
    (h : Denotes slot token operand) : Suits slot operand.kind := by
  cases h with
  | var => exact .var
  | label => exact .label
  | type => exact .type
  | symbVar | int | bool | nil | string => exact .symb (by simp)

theorem Fits.suits {slots : List Slot} {tokens : List Text} {operands : List Operand}
    (h : Fits slots tokens operands) :
    List.Forall₂ (fun slot operand => Suits slot operand.kind) slots operands := by
  induction h with
  | nil => exact .nil
  | cons hhead _ ih => exact .cons hhead.suits ih

end Grammar

/-- The operands of an instruction are as many as its opcode takes, of kinds that suit their slots,
and free of angle brackets. -/
structure Instruction.Conforms (instruction : Instruction) : Prop where
  arity : instruction.operands.length = instruction.opcode.arity
  kinds : List.Forall₂ (fun slot operand => Grammar.Suits slot operand.kind)
    instruction.opcode.signature instruction.operands
  values : ∀ operand ∈ instruction.operands, '<' ∉ operand.value ∧ '>' ∉ operand.value

theorem Instruction.conforms_of_operation {statement : Statement} {instruction : Instruction}
    (h : statement.operation = .ok instruction.toOperation) : instruction.Conforms := by
  have hfits := Grammar.fits_of_operation h
  refine ⟨hfits.suits.length_eq.symm, hfits.suits, ?_⟩
  intro operand hoperand
  obtain ⟨slot, token, -, hdenotes⟩ := hfits.exists_denotes hoperand
  exact hdenotes.bracket_not_mem

/-- What came of each statement. -/
abbrev Results := List (Except Fault Instruction)

namespace Results

def made (results : Results) : List Instruction := results.filterMap Except.toOption

/-- The statements that an instruction was made of. -/
def kept (results : Results) (statements : List Statement) : List Statement :=
  ((statements.zip results).filter (·.2.isOk)).map Prod.fst

end Results

/-- Give statements to an assembler one after the other. -/
def Assembler.assembleAll (assembler : Assembler) : List Statement → Results × Assembler
  | [] => ([], assembler)
  | statement :: rest =>
      let (result, next) := assembler.assemble statement
      let (results, last) := next.assembleAll rest
      (result :: results, last)

/-- A session from one assembler to another: a statement is made into an instruction that takes
the next order, or it is refused and the assembler stays as it is. -/
inductive Session : Assembler → List Statement → Results → Assembler → Prop
  | nil {assembler : Assembler} : Session assembler [] [] assembler
  | made {order : Nat} {statement : Statement} {operation : Operation} {rest : List Statement}
      {results : Results} {last : Assembler} (hoperation : statement.operation = .ok operation)
      (hrest : Session ⟨order + 1⟩ rest results last) :
      Session ⟨order⟩ (statement :: rest) (.ok ⟨operation, order⟩ :: results) last
  | refused {assembler : Assembler} {statement : Statement} {fault : Fault}
      {rest : List Statement} {results : Results} {last : Assembler}
      (hoperation : statement.operation = .error fault)
      (hrest : Session assembler rest results last) :
      Session assembler (statement :: rest) (.error fault :: results) last

namespace Assembler

theorem assemble_of_ok {statement : Statement} {operation : Operation}
    (h : statement.operation = .ok operation) (assembler : Assembler) :
    assembler.assemble statement =
      (.ok ⟨operation, assembler.nextOrder⟩, ⟨assembler.nextOrder + 1⟩) := by
  rw [assemble, h]

theorem assemble_of_error {statement : Statement} {fault : Fault}
    (h : statement.operation = .error fault) (assembler : Assembler) :
    assembler.assemble statement = (.error fault, assembler) := by
  rw [assemble, h]

theorem assemble_snd_of_error {assembler : Assembler} {statement : Statement} {fault : Fault}
    (h : (assembler.assemble statement).1 = .error fault) :
    (assembler.assemble statement).2 = assembler := by
  cases hoperation : statement.operation with
  | ok operation =>
      rw [assemble_of_ok hoperation] at h
      cases h
  | error fault => rw [assemble_of_error hoperation]

theorem session_assembleAll (assembler : Assembler) (statements : List Statement) :
    Session assembler statements (assembler.assembleAll statements).1
      (assembler.assembleAll statements).2 := by
  induction statements generalizing assembler with
  | nil => exact .nil
  | cons statement rest ih =>
      rw [assembleAll]
      cases hoperation : statement.operation with
      | ok operation =>
          rw [assemble_of_ok hoperation]
          exact .made hoperation (ih _)
      | error fault =>
          rw [assemble_of_error hoperation]
          exact .refused hoperation (ih _)

end Assembler

namespace Session

variable {assembler last : Assembler} {statements : List Statement} {results : Results}

theorem assembleAll_eq (h : Session assembler statements results last) :
    assembler.assembleAll statements = (results, last) := by
  induction h with
  | nil => rfl
  | made hoperation _ ih =>
      simp only [Assembler.assembleAll, Assembler.assemble_of_ok hoperation, ih]
  | refused hoperation _ ih =>
      simp only [Assembler.assembleAll, Assembler.assemble_of_error hoperation, ih]

theorem length_eq (h : Session assembler statements results last) :
    results.length = statements.length := by
  induction h with
  | nil => rfl
  | made _ _ ih => rw [List.length_cons, ih, List.length_cons]
  | refused _ _ ih => rw [List.length_cons, ih, List.length_cons]

theorem nextOrder_eq (h : Session assembler statements results last) :
    last.nextOrder = assembler.nextOrder + results.made.length := by
  induction h with
  | nil => rfl
  | @made order _ _ _ results last _ _ ih =>
      calc
        last.nextOrder = order + 1 + results.made.length := ih
        _ = order + (results.made.length + 1) := by omega
  | refused _ _ ih => exact ih

theorem kept (h : Session assembler statements results last) :
    Session assembler (results.kept statements) (results.filter Except.isOk) last := by
  induction h with
  | nil => exact .nil
  | made hoperation _ ih => exact .made hoperation ih
  | refused _ _ ih => exact ih

theorem assembles (h : Session assembler statements results last) :
    Assembles assembler.nextOrder (results.kept statements) results.made := by
  induction h with
  | nil => exact .nil
  | made hoperation _ ih => exact .cons hoperation ih
  | refused _ _ ih => exact ih

theorem map_order_made (h : Session assembler statements results last) :
    results.made.map Instruction.order = List.range' assembler.nextOrder results.made.length := by
  obtain ⟨horders, hmade⟩ := assembles_iff.mp h.assembles
  rw [horders, hmade.length_eq]

theorem conforms (h : Session assembler statements results last) {instruction : Instruction}
    (hmade : instruction ∈ results.made) : instruction.Conforms := by
  obtain ⟨statement, -, hoperation⟩ := h.assembles.exists_statement hmade
  exact Instruction.conforms_of_operation hoperation

end Session

namespace Assembler

/-- Over any statements a fresh assembler answers each of them, counts the instructions it makes
and numbers them from one on. A statement at fault leaves it unchanged, so that leaving all of
these out changes no other answer. The instructions conform to the signatures of their opcodes,
and the counter is never ahead of the statements. -/
theorem assembleAll_numbers_made (statements : List Statement) :
    let (results, last) := ({} : Assembler).assembleAll statements
    results.length = statements.length ∧
      last.nextOrder = 1 + results.made.length ∧
      results.made.map Instruction.order = List.range' 1 results.made.length ∧
      (∀ (assembler : Assembler) (statement : Statement) (fault : Fault),
        (assembler.assemble statement).1 = .error fault →
        (assembler.assemble statement).2 = assembler) ∧
      ({} : Assembler).assembleAll (results.kept statements) =
        (results.filter Except.isOk, last) ∧
      (∀ instruction ∈ results.made, instruction.Conforms) ∧
      last.nextOrder ≤ statements.length + 1 := by
  have hsession := session_assembleAll {} statements
  revert hsession
  generalize ({} : Assembler).assembleAll statements = outcome
  obtain ⟨results, last⟩ := outcome
  intro hsession
  have hcount : last.nextOrder = 1 + results.made.length := hsession.nextOrder_eq
  refine ⟨hsession.length_eq, hcount, hsession.map_order_made,
    fun _ _ _ => assemble_snd_of_error, hsession.kept.assembleAll_eq,
    fun _ => hsession.conforms, ?_⟩
  have hmade : results.made.length ≤ results.length := List.length_filterMap_le _ _
  have hlength : results.length = statements.length := hsession.length_eq
  omega

theorem assembleAll_numbers_mixed :
    let statements : List Statement := [⟨"foo".toList, []⟩, ⟨"break".toList, []⟩,
      ⟨"WRITE".toList, []⟩, ⟨"write".toList, ["string@<".toList]⟩]
    let written : Instruction := ⟨⟨.write, [⟨.string, "&lt;".toList⟩]⟩, 2⟩
    let assembler : Assembler := ⟨5⟩
    (({} : Assembler).assembleAll statements).1.made.map Instruction.order = [1, 2] ∧
      written ∈ (({} : Assembler).assembleAll statements).1.made ∧ written.Conforms ∧
      (assembler.assemble ⟨"foo".toList, []⟩).2 = assembler := by
  intro statements written assembler
  obtain ⟨-, -, horders, hunchanged, -, hconforms, -⟩ := assembleAll_numbers_made statements
  have hwritten : written ∈ (({} : Assembler).assembleAll statements).1.made := by decide
  exact ⟨horders, hwritten, hconforms written hwritten,
    hunchanged assembler _ (.unknownOperation "foo".toList) (by decide)⟩

end Assembler

end IppCode
