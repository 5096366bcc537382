import IppCode.Conversion
import IppCode.Proofs.Acceptance
import IppCode.Proofs.Values

/-!
Documents are uniquely readable. A document gives back its lines, the lines give back the
instructions and their operands, and so two programs without line feeds in their values
have the same document only if they are the same.
-/

namespace IppCode

theorem append_cons_inj {α : Type} {mark : α} {front front' rest rest' : List α}
    (hfront : mark ∉ front) (hfront' : mark ∉ front')
    (h : front ++ mark :: rest = front' ++ mark :: rest') : front = front' ∧ rest = rest' := by
  induction front generalizing front' with
  | nil =>
      cases front' with
      | nil => exact ⟨rfl, (List.cons.inj h).2⟩
      | cons a front' =>
          have ha : mark = a := (List.cons.inj h).1
          exact absurd List.mem_cons_self (ha ▸ hfront')
  | cons a front ih =>
      cases front' with
      | nil =>
          have ha : a = mark := (List.cons.inj h).1
          exact absurd List.mem_cons_self (ha ▸ hfront)
      | cons a' front' =>
          obtain ⟨rfl, htail⟩ := List.cons.inj h
          simp only [List.mem_cons, not_or] at hfront hfront'
          obtain ⟨rfl, hrest⟩ := ih hfront.2 hfront'.2 htail
          exact ⟨rfl, hrest⟩

theorem toUtf8_injective : Function.Injective toUtf8 := by
  intro text text' h
  have hdecoded := congrArg ofUtf8? h
  rw [ofUtf8?_toUtf8, ofUtf8?_toUtf8] at hdecoded
  exact Option.some.inj hdecoded

theorem decimal_injective : Function.Injective decimal := by
  intro n n' h
  have hvalue := congrArg (fun digits => Nat.ofDigitChars 10 digits 0) h
  simpa only [decimal, Nat.ofDigitChars_ten_toDigits] using hvalue

theorem isDigit_of_mem_decimal {n : Nat} {c : Char} (h : c ∈ decimal n) : c.isDigit :=
  Nat.isDigit_of_mem_toDigits (by decide) (by decide) h

theorem quote_not_mem_decimal (n : Nat) : '"' ∉ decimal n := by
  intro h
  exact absurd (isDigit_of_mem_decimal h) (by decide)

theorem quote_not_mem_kind (kind : Kind) : '"' ∉ kind.name := by
  cases kind <;> decide

theorem quote_not_mem_opcode (opcode : Opcode) : '"' ∉ opcode.name := by
  cases opcode <;> decide

namespace Markup

theorem attr_append_inj {key value value' rest rest' : Text} (hvalue : '"' ∉ value)
    (hvalue' : '"' ∉ value') (h : attr key value ++ rest = attr key value' ++ rest') :
    value = value' ∧ rest = rest' := by
  simp only [attr, List.append_assoc, List.append_cancel_left_eq] at h
  exact append_cons_inj hvalue hvalue' h

end Markup

open Markup

theorem Operand.element_inj {position : Nat} {operand operand' : Operand}
    (h : operand.element position = operand'.element position) : operand = operand' := by
  simp only [Operand.element, startTag, List.flatMap_cons, List.flatMap_nil, List.append_assoc,
    List.append_cancel_left_eq] at h
  obtain ⟨hkind, hrest⟩ := attr_append_inj (quote_not_mem_kind _) (quote_not_mem_kind _) h
  simp only [List.nil_append, List.append_cancel_left_eq] at hrest
  have hvalue : operand.value = operand'.value := List.append_cancel_right hrest
  have hkinds : operand.kind = operand'.kind :=
    Named.name_injective _ (Named.mem_all _) _ (Named.mem_all _) hkind
  cases operand
  cases operand'
  simp_all

theorem operandLines_cons (position : Nat) (operand : Operand) (operands : List Operand) :
    operandLines position (operand :: operands) =
      indent 2 (operand.element position) :: operandLines (position + 1) operands := by
  simp only [operandLines, List.zipIdx_cons, List.map_cons]

theorem operandLines_inj {position : Nat} {operands operands' : List Operand}
    (h : operandLines position operands = operandLines position operands') :
    operands = operands' := by
  induction operands generalizing position operands' with
  | nil =>
      cases operands' with
      | nil => rfl
      | cons operand' operands' =>
          rw [operandLines_cons] at h
          cases h
  | cons operand operands ih =>
      cases operands' with
      | nil =>
          rw [operandLines_cons] at h
          cases h
      | cons operand' operands' =>
          rw [operandLines_cons, operandLines_cons, List.cons.injEq] at h
          have hhead : operand = operand' := Operand.element_inj (List.append_cancel_left h.1)
          rw [hhead, ih h.2]

namespace Instruction

theorem startLine_inj {instruction instruction' : Instruction}
    (h : instruction.startLine = instruction'.startLine) :
    instruction.order = instruction'.order ∧ instruction.opcode = instruction'.opcode := by
  simp only [startLine, indent, startTag, List.flatMap_cons, List.flatMap_nil,
    List.append_assoc, List.append_cancel_left_eq] at h
  obtain ⟨horder, hrest⟩ :=
    attr_append_inj (quote_not_mem_decimal _) (quote_not_mem_decimal _) h
  obtain ⟨hopcode, -⟩ := attr_append_inj (quote_not_mem_opcode _) (quote_not_mem_opcode _) hrest
  refine ⟨decimal_injective horder, ?_⟩
  exact Named.name_injective _ (Named.mem_all _) _ (Named.mem_all _) hopcode

theorem endLine_not_mem_operandLines (instruction : Instruction) (position : Nat)
    (operands : List Operand) : instruction.endLine ∉ operandLines position operands := by
  intro hmem
  obtain ⟨⟨operand, i⟩, -, heq⟩ := List.mem_map.mp hmem
  have hfifth : some ' ' = (indent 1 (endTag "instruction".toList))[4]? :=
    congrArg (fun text : Text => text[4]?) heq
  exact absurd hfifth (by decide)

theorem lines_append_inj {instruction instruction' : Instruction} {rest rest' : List Text}
    (h : instruction.lines ++ rest = instruction'.lines ++ rest') :
    instruction = instruction' ∧ rest = rest' := by
  have hend : instruction'.endLine = instruction.endLine := rfl
  simp only [lines, List.append_assoc, List.cons_append, List.nil_append, List.cons.injEq,
    hend] at h
  obtain ⟨hstart, hlines⟩ := h
  obtain ⟨hoperands, hrest⟩ := append_cons_inj (endLine_not_mem_operandLines instruction 1 _)
    (endLine_not_mem_operandLines instruction 1 _) hlines
  obtain ⟨horder, hopcode⟩ := startLine_inj hstart
  have hsame := operandLines_inj hoperands
  obtain ⟨⟨opcode, operands⟩, order⟩ := instruction
  obtain ⟨⟨opcode', operands'⟩, order'⟩ := instruction'
  simp_all

end Instruction

namespace Program

theorem flatMap_lines_inj {instructions instructions' : List Instruction}
    (h : instructions.flatMap Instruction.lines ++ [endTag "program".toList] =
      instructions'.flatMap Instruction.lines ++ [endTag "program".toList]) :
    instructions = instructions' := by
  -- The root ends flush left, where no instruction starts.
  have hne : ∀ (instruction : Instruction) (rest : List Text),
      [endTag "program".toList] ≠ instruction.lines ++ rest := by
    intro instruction rest heq
    have hfirst : endTag "program".toList = instruction.startLine := (List.cons.inj heq).1
    have hhead : (endTag "program".toList).head? = some ' ' := congrArg List.head? hfirst
    exact absurd hhead (by decide)
  induction instructions generalizing instructions' with
  | nil =>
      cases instructions' with
      | nil => rfl
      | cons instruction' instructions' =>
          rw [List.flatMap_cons, List.append_assoc] at h
          exact absurd h (hne instruction' _)
  | cons instruction instructions ih =>
      cases instructions' with
      | nil =>
          rw [List.flatMap_cons, List.append_assoc] at h
          exact absurd h.symm (hne instruction _)
      | cons instruction' instructions' =>
          rw [List.flatMap_cons, List.flatMap_cons, List.append_assoc, List.append_assoc] at h
          obtain ⟨hhead, htail⟩ := Instruction.lines_append_inj h
          rw [hhead, ih htail]

theorem lines_injective : Function.Injective Program.lines := by
  rintro ⟨⟨instructions⟩⟩ ⟨⟨instructions'⟩⟩ h
  simp only [lines, List.append_assoc] at h
  have hsame := flatMap_lines_inj (List.append_cancel_left h)
  rw [hsame]

end Program

theorem flatMap_lineBytes (lines : List Text) :
    lines.flatMap lineBytes = toUtf8 (lines.flatMap (· ++ ['\n'])) := by
  rw [toUtf8, List.flatMap_assoc]
  rfl

theorem flatMap_lineFeed_inj {lines lines' : List Text} (hlines : ∀ line ∈ lines, '\n' ∉ line)
    (hlines' : ∀ line ∈ lines', '\n' ∉ line)
    (h : lines.flatMap (· ++ ['\n']) = lines'.flatMap (· ++ ['\n'])) : lines = lines' := by
  induction lines generalizing lines' with
  | nil =>
      cases lines' with
      | nil => rfl
      | cons line' lines' => simp at h
  | cons line lines ih =>
      cases lines' with
      | nil => simp at h
      | cons line' lines' =>
          simp only [List.flatMap_cons, List.append_assoc, List.singleton_append] at h
          obtain ⟨rfl, htail⟩ := append_cons_inj (hlines line List.mem_cons_self)
            (hlines' line' List.mem_cons_self) h
          rw [ih (fun l hl => hlines l (List.mem_cons_of_mem _ hl))
            (fun l hl => hlines' l (List.mem_cons_of_mem _ hl)) htail]

/-- The ASCII characters that leave a mark, and the blank. -/
def isPrintable (c : Char) : Bool := ' ' ≤ c && c ≤ '~'

def Printable (text : Text) : Prop := ∀ c ∈ text, isPrintable c

instance (text : Text) : Decidable (Printable text) :=
  inferInstanceAs (Decidable (∀ c ∈ text, isPrintable c))

theorem Printable.append {s t : Text} (hs : Printable s) (ht : Printable t) :
    Printable (s ++ t) := by
  intro c hc
  rcases List.mem_append.mp hc with hc | hc
  · exact hs c hc
  · exact ht c hc

theorem printable_decimal (n : Nat) : Printable (decimal n) := by
  intro c hc
  have hdigit := isDigit_of_mem_decimal hc
  rw [Grammar.isDigit_iff] at hdigit
  rw [isPrintable, Bool.and_eq_true, decide_eq_true_eq, decide_eq_true_eq]
  exact ⟨Std.le_trans (by decide) hdigit.1, Std.le_trans hdigit.2 (by decide)⟩

theorem printable_kind (kind : Kind) : Printable kind.name := by
  cases kind <;> decide

theorem printable_opcode (opcode : Opcode) : Printable opcode.name := by
  cases opcode <;> decide

theorem printable_attr {key value : Text} (hkey : Printable key) (hvalue : Printable value) :
    Printable (attr key value) := by
  have hblank : Printable " ".toList := by decide
  have hopen : Printable "=\"".toList := by decide
  have hclose : Printable "\"".toList := by decide
  exact (((hblank.append hkey).append hopen).append hvalue).append hclose

theorem printable_startTag {name : Text} {attrs : List (Text × Text)} (hname : Printable name)
    (hattrs : ∀ key value, (key, value) ∈ attrs → Printable key ∧ Printable value) :
    Printable (startTag name attrs) := by
  have hopen : Printable "<".toList := by decide
  have hclose : Printable ">".toList := by decide
  refine ((hopen.append hname).append ?_).append hclose
  intro c hc
  obtain ⟨⟨key, value⟩, hmem, hc⟩ := List.mem_flatMap.mp hc
  obtain ⟨hkey, hvalue⟩ := hattrs key value hmem
  exact printable_attr hkey hvalue c hc

theorem printable_endTag {name : Text} (hname : Printable name) : Printable (endTag name) := by
  have hopen : Printable "</".toList := by decide
  have hclose : Printable ">".toList := by decide
  exact (hopen.append hname).append hclose

theorem printable_indent {depth : Nat} {line : Text} (hline : Printable line) :
    Printable (indent depth line) := by
  refine Printable.append ?_ hline
  intro c hc
  rw [List.eq_of_mem_replicate hc]
  decide

theorem printable_argName (position : Nat) : Printable ("arg".toList ++ decimal position) := by
  have harg : Printable "arg".toList := by decide
  exact harg.append (printable_decimal position)

theorem Instruction.printable_startLine (instruction : Instruction) :
    Printable instruction.startLine := by
  apply printable_indent
  apply printable_startTag (by decide)
  intro key value hmem
  simp only [List.mem_cons, Prod.mk.injEq, List.not_mem_nil, or_false] at hmem
  rcases hmem with ⟨rfl, rfl⟩ | ⟨rfl, rfl⟩
  · exact ⟨by decide, printable_decimal _⟩
  · exact ⟨by decide, printable_opcode _⟩

theorem printable_or_mem_value {position : Nat} {operand : Operand} {c : Char}
    (h : c ∈ indent 2 (operand.element position)) : isPrintable c ∨ c ∈ operand.value := by
  have hstart : Printable (startTag ("arg".toList ++ decimal position)
      [("type".toList, operand.kind.name)]) := by
    apply printable_startTag (printable_argName position)
    intro key value hmem
    simp only [List.mem_singleton, Prod.mk.injEq] at hmem
    obtain ⟨rfl, rfl⟩ := hmem
    exact ⟨by decide, printable_kind _⟩
  simp only [indent, Operand.element, List.mem_append] at h
  rcases h with hblank | (hc | hc) | hc
  · rw [List.eq_of_mem_replicate hblank]
    exact .inl (by decide)
  · exact .inl (hstart c hc)
  · exact .inr hc
  · exact .inl (printable_endTag (printable_argName position) c hc)

theorem Program.printable_or_mem_value {program : Program} {line : Text} {c : Char}
    (hline : line ∈ program.lines) (hc : c ∈ line) :
    isPrintable c ∨ ∃ instruction ∈ program.instructions.toList,
      ∃ operand ∈ instruction.operands, c ∈ operand.value := by
  simp only [Program.lines, List.mem_append, List.mem_flatMap] at hline
  rcases hline with (hprologue | ⟨instruction, hinstruction, hline⟩) | hepilogue
  · have hall : ∀ line ∈ ({} : Program).prologue, Printable line := by decide
    exact .inl (hall line hprologue c hc)
  · simp only [Instruction.lines, List.cons_append, List.mem_cons, List.mem_append,
      List.not_mem_nil, or_false] at hline
    rcases hline with rfl | hline | rfl
    · exact .inl (instruction.printable_startLine c hc)
    · obtain ⟨⟨operand, i⟩, hmem, rfl⟩ := List.mem_map.mp hline
      have hoperand : operand ∈ instruction.operands := List.fst_mem_of_mem_zipIdx hmem
      rcases IppCode.printable_or_mem_value hc with hc | hc
      · exact .inl hc
      · exact .inr ⟨instruction, hinstruction, operand, hoperand, hc⟩
    · exact .inl (printable_indent (printable_endTag (by decide)) c hc)
  · have hall : ∀ line ∈ ({} : Program).epilogue, Printable line := by decide
    exact .inl (hall line hepilogue c hc)

theorem Program.lineFeed_not_mem_lines {program : Program}
    (h : ∀ instruction ∈ program.instructions.toList, ∀ operand ∈ instruction.operands,
      '\n' ∉ operand.value) : ∀ line ∈ program.lines, '\n' ∉ line := by
  intro line hline hmem
  rcases Program.printable_or_mem_value hline hmem with hprintable | ⟨i, hi, operand, ho, hvalue⟩
  · exact absurd hprintable (by decide)
  · exact h i hi operand ho hvalue

/-- Programs whose values hold no line feed have the same document only if they are the same. -/
theorem Program.document_inj {program program' : Program}
    (hvalues : ∀ instruction ∈ program.instructions.toList, ∀ operand ∈ instruction.operands,
      '\n' ∉ operand.value)
    (hvalues' : ∀ instruction ∈ program'.instructions.toList, ∀ operand ∈ instruction.operands,
      '\n' ∉ operand.value)
    (h : program.document = program'.document) : program = program' := by
  rw [Program.document, Program.document, flatMap_lineBytes, flatMap_lineBytes] at h
  have htext := toUtf8_injective h
  exact Program.lines_injective (flatMap_lineFeed_inj (Program.lineFeed_not_mem_lines hvalues)
    (Program.lineFeed_not_mem_lines hvalues') htext)

end IppCode
