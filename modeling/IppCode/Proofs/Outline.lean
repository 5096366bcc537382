import IppCode.Proofs.Ascii
import IppCode.Proofs.Delivery
import IppCode.Proofs.WellFormed
import Mathlib.Algebra.GroupWithZero.Nat

namespace IppCode

open Markup

/-- What a line of a document is. -/
inductive Row where
  | declaration
  | rootStart
  | instructionStart (order : Nat) (opcode : Opcode)
  | argument (position : Nat)
  | instructionEnd
  | rootEnd

/-- The rows of an instruction with a number of operands. -/
def instructionRows (order : Nat) (opcode : Opcode) (count : Nat) : List Row :=
  .instructionStart order opcode :: (List.range' 1 count).map .argument ++ [.instructionEnd]

/-- The rows of instructions that are numbered from an order on. -/
def bodyRows (order : Nat) : List (Opcode × Nat) → List Row
  | [] => []
  | (opcode, count) :: rest => instructionRows order opcode count ++ bodyRows (order + 1) rest

/-- The rows of a document, from the opcodes of its instructions and the numbers of their
operands. -/
def outline (arities : List (Opcode × Nat)) : List Row :=
  [.declaration, .rootStart] ++ bodyRows 1 arities ++ [.rootEnd]

def Program.arities (program : Program) : List (Opcode × Nat) :=
  program.instructions.toList.map fun instruction =>
    (instruction.opcode, instruction.operands.length)

/-- Text that cannot be taken for markup or for the end of a line. -/
def Inert (text : Text) : Prop := '<' ∉ text ∧ '>' ∉ text ∧ '\n' ∉ text

instance (text : Text) : Decidable (Inert text) :=
  inferInstanceAs (Decidable ('<' ∉ text ∧ '>' ∉ text ∧ '\n' ∉ text))

/-- The lines that a row admits. Only a row of an operand leaves anything open: the kind and the
value. -/
inductive Row.Admits : Row → Text → Prop
  | declaration : Admits .declaration "<?xml version=\"1.0\" encoding=\"UTF-8\"?>".toList
  | rootStart : Admits .rootStart "<program language=\"IPPcode22\">".toList
  | instructionStart {order : Nat} {opcode : Opcode} :
      Admits (.instructionStart order opcode)
        ("    <instruction order=\"".toList ++ decimal order ++ "\" opcode=\"".toList ++
          opcode.name.map Char.toUpper ++ "\">".toList)
  | argument {position : Nat} {kind : Kind} {value : Text} (hvalue : Inert value) :
      Admits (.argument position)
        ("        <arg".toList ++ decimal position ++ " type=\"".toList ++ kind.name ++
          "\">".toList ++ value ++ "</arg".toList ++ decimal position ++ ">".toList)
  | instructionEnd : Admits .instructionEnd "    </instruction>".toList
  | rootEnd : Admits .rootEnd "</program>".toList

theorem map_toUpper_name (opcode : Opcode) : opcode.name.map Char.toUpper = opcode.name := by
  cases opcode <;> decide

theorem admits_startLine (instruction : Instruction) :
    Row.Admits (.instructionStart instruction.order instruction.opcode)
      instruction.startLine := by
  have hline : instruction.startLine = "    <instruction order=\"".toList ++
      decimal instruction.order ++ "\" opcode=\"".toList ++
      instruction.opcode.name.map Char.toUpper ++ "\">".toList := by
    rw [map_toUpper_name]
    simp [Instruction.startLine, indent, startTag, attr]
  rw [hline]
  exact .instructionStart

theorem admits_operandLine {operand : Operand} (h : Inert operand.value) (position : Nat) :
    Row.Admits (.argument position) (indent 2 (operand.element position)) := by
  have hline : indent 2 (operand.element position) = "        <arg".toList ++
      decimal position ++ " type=\"".toList ++ operand.kind.name ++ "\">".toList ++
      operand.value ++ "</arg".toList ++ decimal position ++ ">".toList := by
    simp [Operand.element, indent, startTag, endTag, attr]
  rw [hline]
  exact .argument h

theorem admits_operandLines {operands : List Operand}
    (h : ∀ operand ∈ operands, Inert operand.value) (position : Nat) :
    List.Forall₂ Row.Admits ((List.range' position operands.length).map .argument)
      (operandLines position operands) := by
  induction operands generalizing position with
  | nil => exact .nil
  | cons operand operands ih =>
      rw [operandLines_cons, List.length_cons, List.range'_succ, List.map_cons]
      refine .cons (admits_operandLine (h operand List.mem_cons_self) position) ?_
      exact ih (fun o ho => h o (List.mem_cons_of_mem operand ho)) (position + 1)

theorem admits_instruction {instruction : Instruction}
    (h : ∀ operand ∈ instruction.operands, Inert operand.value) :
    List.Forall₂ Row.Admits
      (instructionRows instruction.order instruction.opcode instruction.operands.length)
      instruction.lines := by
  apply List.rel_append
  · exact .cons (admits_startLine instruction) (admits_operandLines h 1)
  · exact .cons .instructionEnd .nil

theorem Assembles.admits {order : Nat} {rest : List Statement} {instructions : List Instruction}
    (hassembles : Assembles order rest instructions)
    (h : ∀ instruction ∈ instructions, ∀ operand ∈ instruction.operands, Inert operand.value) :
    List.Forall₂ Row.Admits
      (bodyRows order (instructions.map fun instruction =>
        (instruction.opcode, instruction.operands.length)))
      (instructions.flatMap Instruction.lines) := by
  induction hassembles with
  | nil => exact .nil
  | cons _ _ ih =>
      rw [List.map_cons, List.flatMap_cons, bodyRows]
      apply List.rel_append
      · exact admits_instruction (h _ List.mem_cons_self)
      · exact ih fun i hi => h i (List.mem_cons_of_mem _ hi)

theorem Source.admits_outline {source : Source} {program : Program}
    (h : source.program = .ok program) :
    List.Forall₂ Row.Admits (outline program.arities) program.lines := by
  have hinert : ∀ instruction ∈ program.instructions.toList,
      ∀ operand ∈ instruction.operands, Inert operand.value := by
    intro instruction hinstruction operand hoperand
    obtain ⟨hlt, hgt⟩ := bracket_not_mem_value h hinstruction hoperand
    exact ⟨hlt, hgt, lineFeed_not_mem_value h hinstruction hoperand⟩
  apply List.rel_append
  · apply List.rel_append
    · exact .cons .declaration (.cons .rootStart .nil)
    · exact (assembles_body h).admits hinert
  · exact .cons .rootEnd .nil

def Row.tags : Row → Nat
  | .argument _ => 2
  | _ => 1

theorem inert_decimal (n : Nat) : Inert (decimal n) := by
  have hnot : ∀ c : Char, c.isDigit = false → c ∉ decimal n := by
    intro c hc hmem
    rw [isDigit_of_mem_decimal hmem] at hc
    cases hc
  exact ⟨hnot _ (by decide), hnot _ (by decide), hnot _ (by decide)⟩

theorem inert_kind (kind : Kind) : Inert kind.name := by
  cases kind <;> decide

theorem inert_opcode (opcode : Opcode) : Inert opcode.name := by
  cases opcode <;> decide

theorem Inert.count_eq {text : Text} (h : Inert text) :
    text.count '<' = 0 ∧ text.count '>' = 0 ∧ text.count '\n' = 0 :=
  ⟨List.count_eq_zero.mpr h.1, List.count_eq_zero.mpr h.2.1, List.count_eq_zero.mpr h.2.2⟩

theorem Row.Admits.count_eq {row : Row} {line : Text} (h : row.Admits line) :
    line.count '<' = row.tags ∧ line.count '>' = row.tags ∧ line.count '\n' = 0 := by
  cases h with
  | declaration | rootStart | instructionEnd | rootEnd => decide
  | @instructionStart order opcode =>
      simp only [map_toUpper_name, List.count_append, (inert_decimal order).count_eq,
        (inert_opcode opcode).count_eq, tags]
      decide
  | @argument position kind value hvalue =>
      simp only [List.count_append, (inert_decimal position).count_eq, (inert_kind kind).count_eq,
        hvalue.count_eq, tags]
      decide

/-- Lines that rows admit hold the tags of these rows and one line feed each. -/
theorem count_of_admits {rows : List Row} {lines : List Text}
    (h : List.Forall₂ Row.Admits rows lines) :
    (lines.flatMap (· ++ ['\n'])).count '<' = (rows.map Row.tags).sum ∧
      (lines.flatMap (· ++ ['\n'])).count '>' = (rows.map Row.tags).sum ∧
      (lines.flatMap (· ++ ['\n'])).count '\n' = rows.length := by
  induction h with
  | nil => decide
  | @cons row line rows lines hhead _ ih =>
      obtain ⟨hlt, hgt, hfeed⟩ := hhead.count_eq
      have hend : ['\n'].count '<' = 0 ∧ ['\n'].count '>' = 0 ∧ ['\n'].count '\n' = 1 := by decide
      simp only [List.flatMap_cons, List.count_append, hlt, hgt, hfeed, hend, ih, List.map_cons,
        List.sum_cons, List.length_cons]
      omega

theorem sum_tags_bodyRows (order : Nat) (arities : List (Opcode × Nat)) :
    ((bodyRows order arities).map Row.tags).sum =
      2 * arities.length + 2 * (arities.map Prod.snd).sum := by
  induction arities generalizing order with
  | nil => rfl
  | cons arity arities ih =>
      simp only [bodyRows, instructionRows, List.cons_append, List.map_cons, List.map_append,
        List.map_map, List.map_nil, Function.comp_def, Row.tags, List.map_const',
        List.length_range', List.sum_cons, List.sum_append, List.sum_replicate_nat, List.sum_nil,
        ih, List.length_cons]
      omega

theorem length_bodyRows (order : Nat) (arities : List (Opcode × Nat)) :
    (bodyRows order arities).length =
      2 * arities.length + (arities.map Prod.snd).sum := by
  induction arities generalizing order with
  | nil => rfl
  | cons arity arities ih =>
      simp only [bodyRows, instructionRows, List.cons_append, List.length_cons,
        List.length_append, List.length_map, List.length_range', List.length_nil, ih,
        List.map_cons, List.sum_cons]
      omega

theorem sum_tags_outline (arities : List (Opcode × Nat)) :
    ((outline arities).map Row.tags).sum =
      3 + 2 * arities.length + 2 * (arities.map Prod.snd).sum := by
  simp only [outline, List.map_append, List.map_cons, List.map_nil, List.sum_append,
    List.sum_cons, List.sum_nil, Row.tags, sum_tags_bodyRows]
  omega

theorem length_outline (arities : List (Opcode × Nat)) :
    (outline arities).length =
      3 + 2 * arities.length + (arities.map Prod.snd).sum := by
  simp only [outline, List.length_append, List.length_cons, List.length_nil, length_bodyRows]
  omega

theorem pieces_flatMap_lineFeed {lines : List Bytes} (h : ∀ line ∈ lines, lineFeed ∉ line) :
    pieces (lines.flatMap (· ++ [lineFeed])) = lines ++ [[]] := by
  induction lines with
  | nil => rfl
  | cons line lines ih =>
      rw [List.flatMap_cons, List.append_assoc, List.singleton_append, pieces_append,
        pieces_eq_singleton (h line List.mem_cons_self),
        ih fun l hl => h l (List.mem_cons_of_mem line hl)]
      rfl

namespace Program

theorem length_arities (program : Program) : program.arities.length = program.length := by
  simp [arities, length]

theorem pieces_document {program : Program} (h : ∀ line ∈ program.lines, '\n' ∉ line) :
    pieces program.document = program.lines.map toUtf8 ++ [[]] := by
  rw [document_eq_toUtf8, text, toUtf8_flatMap_lineFeed]
  exact pieces_flatMap_lineFeed (lineFeed_not_mem_map_toUtf8 h)

end Program

namespace Source

/-- The outline of a written document is the one of its instructions: the lines are as many as the
outline has rows, and each is one that its row admits. So the numbers of angle brackets and line
feeds follow from the numbers of instructions and operands, whatever the operands say. -/
theorem written_follows_outline {source : Source} {sink : Sink}
    (h : (source.convert sink).failure = none) :
    ∃ program lines, source.program = .ok program ∧
      let written := (source.convert sink).written
      let operands := (program.arities.map Prod.snd).sum
      written.count '<'.toUInt8 = 3 + 2 * program.length + 2 * operands ∧
        written.count '>'.toUInt8 = 3 + 2 * program.length + 2 * operands ∧
        written.count lineFeed = 3 + 2 * program.length + operands ∧
        written.getLast? = some lineFeed ∧
        pieces written = lines.map toUtf8 ++ [[]] ∧
        List.Forall₂ Row.Admits (outline program.arities) lines := by
  obtain ⟨program, hprogram, hwritten⟩ := exists_written_eq_document h
  have hadmits := admits_outline hprogram
  obtain ⟨hlt, hgt, hfeed⟩ := count_of_admits hadmits
  rw [sum_tags_outline, program.length_arities] at hlt hgt
  rw [length_outline, program.length_arities] at hfeed
  have hlines : ∀ line ∈ program.lines, '\n' ∉ line :=
    Program.lineFeed_not_mem_lines fun _ hinstruction _ hoperand =>
      lineFeed_not_mem_value hprogram hinstruction hoperand
  refine ⟨program, program.lines, hprogram, ?_⟩
  simp only [hwritten]
  refine ⟨?_, ?_, ?_, program.getLast?_document, Program.pieces_document hlines, hadmits⟩
  · rw [program.document_eq_toUtf8, count_toUtf8 (by decide)]
    exact hlt
  · rw [program.document_eq_toUtf8, count_toUtf8 (by decide)]
    exact hgt
  · have hbyte : lineFeed = '\n'.toUInt8 := by decide
    rw [program.document_eq_toUtf8, hbyte, count_toUtf8 (by decide)]
    exact hfeed

theorem written_follows_outline_of_brackets :
    let source : Source :=
      ⟨toUtf8 ".IPPcode22\nBREAK\nwrite string@</arg1>\n".toList, none⟩
    (source.convert {}).failure = none ∧
      (source.convert {}).written.count '<'.toUInt8 = 9 ∧
      (source.convert {}).written.count lineFeed = 8 ∧
      ∃ lines, pieces (source.convert {}).written = lines.map toUtf8 ++ [[]] ∧
        List.Forall₂ Row.Admits
          [.declaration, .rootStart, .instructionStart 1 .brk, .instructionEnd,
            .instructionStart 2 .write, .argument 1, .instructionEnd, .rootEnd] lines := by
  intro source
  have hprogram : source.program = .ok ⟨#[⟨⟨.brk, []⟩, 1⟩,
      ⟨⟨.write, [⟨.string, "&lt;/arg1&gt;".toList⟩]⟩, 2⟩]⟩ := by decide
  have hfailure : (source.convert {}).failure = none := by
    rw [convert_of_program hprogram]
  obtain ⟨program, lines, hsame, hlt, -, hfeed, -, hpieces, hadmits⟩ :=
    written_follows_outline hfailure
  obtain rfl := Except.ok.inj (hprogram.symm.trans hsame)
  exact ⟨hfailure, hlt, hfeed, lines, hpieces, hadmits⟩

end Source

end IppCode
