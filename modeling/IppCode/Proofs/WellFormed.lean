import IppCode.Proofs.Clean
import IppCode.Proofs.Layout

namespace IppCode

open Markup Xml

theorem isNameChar_of_mem_decimal (n : Nat) : ∀ c ∈ decimal n, isNameChar c :=
  fun _ hc => isNameChar_of_isDigit (isDigit_of_mem_decimal hc)

theorem isNameChar_of_mem_kind (kind : Kind) : ∀ c ∈ kind.name, isNameChar c := by
  cases kind <;> decide

theorem isNameChar_of_mem_opcode (opcode : Opcode) : ∀ c ∈ opcode.name, isNameChar c := by
  cases opcode <;> decide

theorem name_argument (position : Nat) : Name ("arg".toList ++ decimal position) := by
  refine Name.intro (by decide) ?_
  intro c hc
  rcases List.mem_append.mp hc with hc | hc
  · have hletters : ∀ c ∈ ['r', 'g'], isNameChar c := by decide
    exact hletters c hc
  · exact isNameChar_of_mem_decimal position c hc

theorem equals_mark : Equals "=".toList := ⟨[], [], by decide, by decide, rfl⟩

theorem attributes_flatMap {attrs : List (Text × Text)} (hkeys : (attrs.map Prod.fst).Nodup)
    (hattrs : ∀ attr ∈ attrs, Name attr.1 ∧ ∀ c ∈ attr.2, isNameChar c) :
    Attributes (attrs.map Prod.fst) (attrs.flatMap fun (key, value) => attr key value) := by
  induction attrs with
  | nil => exact .nil
  | cons first attrs ih =>
      obtain ⟨key, value⟩ := first
      obtain ⟨hkey, hvalue⟩ := hattrs (key, value) List.mem_cons_self
      obtain ⟨hnew, hkeys⟩ := List.nodup_cons.mp hkeys
      have hquoted : Quoted AttValue ('"' :: value ++ ['"']) := by
        refine .intro (by decide) (not_mem_of_isNameChar hvalue (by decide)) ?_
        exact ⟨clean_of_isNameChar hvalue, not_mem_of_isNameChar hvalue (by decide)⟩
      have hrest := ih hkeys fun attr hattr => hattrs attr (List.mem_cons_of_mem _ hattr)
      have hspace : Space " ".toList := by decide
      have hcons := Attributes.cons hspace hkey equals_mark hquoted hrest hnew
      simpa [attr] using hcons

theorem startTag_startTag {name : Text} {attrs : List (Text × Text)} (hname : Name name)
    (hkeys : (attrs.map Prod.fst).Nodup)
    (hattrs : ∀ attr ∈ attrs, Name attr.1 ∧ ∀ c ∈ attr.2, isNameChar c) :
    StartTag name (startTag name attrs) := by
  have hnone : Blank [] := by decide
  have htag := StartTag.intro hname (attributes_flatMap hkeys hattrs) hnone
  rw [List.append_nil] at htag
  exact htag

theorem endTag_endTag {name : Text} (hname : Name name) : EndTag name (endTag name) := by
  have hnone : Blank [] := by decide
  have htag := EndTag.intro hname hnone
  rw [List.append_nil] at htag
  exact htag

theorem startTag_argument (position : Nat) (kind : Kind) :
    StartTag ("arg".toList ++ decimal position)
      (startTag ("arg".toList ++ decimal position) [("type".toList, kind.name)]) := by
  have hkeys : ["type".toList].Nodup := by decide
  have hkey : Name "type".toList := by decide
  refine startTag_startTag (name_argument position) ?_ ?_
  · exact hkeys
  · intro attr hattr
    rw [List.mem_singleton] at hattr
    rw [hattr]
    exact ⟨hkey, isNameChar_of_mem_kind kind⟩

theorem startTag_instruction (instruction : Instruction) :
    StartTag "instruction".toList (startTag "instruction".toList
      [("order".toList, decimal instruction.order),
        ("opcode".toList, instruction.opcode.name)]) := by
  have hkeys : ["order".toList, "opcode".toList].Nodup := by decide
  have horder : Name "order".toList := by decide
  have hopcode : Name "opcode".toList := by decide
  refine startTag_startTag (by decide) ?_ ?_
  · exact hkeys
  · intro attr hattr
    simp only [List.mem_cons, List.not_mem_nil, or_false] at hattr
    rcases hattr with rfl | rfl
    · exact ⟨horder, isNameChar_of_mem_decimal _⟩
    · exact ⟨hopcode, isNameChar_of_mem_opcode _⟩

theorem blank_replicate (n : Nat) : Blank (List.replicate n ' ') := by
  intro c hc
  rw [List.eq_of_mem_replicate hc]
  decide

section Content

variable {data : Text → Prop} (hblank : ∀ run, Blank run → data run)

include hblank

theorem elements_operandLines {operands : List Operand}
    (hvalues : ∀ operand ∈ operands, data operand.value) (position : Nat) (run : Text)
    (hrun : Blank run) {after : Text} (hafter : Blank after) :
    Elements data (run ++ ((operandLines position operands).flatMap (· ++ ['\n']) ++ after)) := by
  induction operands generalizing position run with
  | nil => exact .data (hblank _ (hrun.append hafter))
  | cons operand operands ih =>
      have hrest := ih (fun o ho => hvalues o (List.mem_cons_of_mem _ ho)) (position + 1)
        ['\n'] (by decide)
      have helement := Elements.element (hblank _ (hrun.append (blank_replicate (4 * 2))))
        (startTag_argument position operand.kind) (.data (hvalues operand List.mem_cons_self))
        (endTag_endTag (name_argument position)) hrest
      simpa only [operandLines_cons, List.flatMap_cons, indent, Operand.element,
        List.append_assoc] using helement

theorem elements_instructions {instructions : List Instruction}
    (hvalues : ∀ instruction ∈ instructions, ∀ operand ∈ instruction.operands, data operand.value)
    (run : Text) (hrun : Blank run) :
    Elements data (run ++ (instructions.flatMap Instruction.lines).flatMap (· ++ ['\n'])) := by
  induction instructions generalizing run with
  | nil => exact .data (hblank _ (hrun.append (by decide)))
  | cons instruction instructions ih =>
      have hrest := ih (fun i hi => hvalues i (List.mem_cons_of_mem _ hi)) ['\n']
        (by decide)
      have hinner := elements_operandLines hblank (hvalues instruction List.mem_cons_self) 1
        ['\n'] (by decide) (blank_replicate (4 * 1))
      have helement := Elements.element (hblank _ (hrun.append (blank_replicate (4 * 1))))
        (startTag_instruction instruction) hinner (endTag_endTag (by decide)) hrest
      simpa only [List.flatMap_cons, Instruction.lines, Instruction.startLine,
        Instruction.endLine, indent, List.append_assoc, List.cons_append, List.flatMap_append,
        List.flatMap_nil, List.append_nil, List.nil_append] using helement

end Content

theorem declaration_declaration : Declaration declaration := by
  have hone : Quoted Version ('"' :: "1.0".toList ++ ['"']) :=
    .intro (by decide) (by decide) ⟨"0".toList, by decide, by decide, by decide⟩
  have hutf8 : Quoted Encoding ('"' :: "UTF-8".toList ++ ['"']) :=
    .intro (by decide) (by decide) ⟨'U', "TF-8".toList, by decide, by decide, by decide⟩
  have hversion : Setting "version".toList Version " version=\"1.0\"".toList :=
    ⟨" ".toList, "=".toList, _, by decide, equals_mark, hone, by decide⟩
  have hencoding : Setting "encoding".toList Encoding " encoding=\"UTF-8\"".toList :=
    ⟨" ".toList, "=".toList, _, by decide, equals_mark, hutf8, by decide⟩
  exact .intro hversion (.inr hencoding) (.inl rfl) (by decide : Blank [])

namespace Program

/-- The characters of a document. -/
def text (program : Program) : Text := program.lines.flatMap (· ++ ['\n'])

theorem document_eq_toUtf8 (program : Program) : program.document = toUtf8 program.text :=
  flatMap_lineBytes program.lines

/-- What stands between the tags of the root. -/
def content (program : Program) : Text :=
  ['\n'] ++ (program.instructions.toList.flatMap Instruction.lines).flatMap (· ++ ['\n'])

def root (program : Program) : Text :=
  startTag "program".toList [("language".toList, program.language)] ++ program.content ++
    endTag "program".toList

theorem text_eq (program : Program) :
    program.text = declaration ++ ['\n'] ++ program.root ++ ['\n'] := by
  simp only [text, lines, prologue, epilogue, root, content, List.flatMap_append,
    List.flatMap_cons, List.flatMap_nil, List.append_assoc, List.append_nil]

theorem getLast?_document (program : Program) : program.document.getLast? = some lineFeed := by
  rw [document_eq_toUtf8, text_eq, toUtf8_append, List.getLast?_append]
  rfl

theorem startTag_program (program : Program) : StartTag "program".toList
    (startTag "program".toList [("language".toList, program.language)]) := by
  have hkeys : ["language".toList].Nodup := by decide
  have hattrs : ∀ attr ∈ [("language".toList, IppCode.language)],
      Name attr.1 ∧ ∀ c ∈ attr.2, isNameChar c := by decide
  exact startTag_startTag (by decide) hkeys hattrs

theorem endTag_program : EndTag "program".toList (endTag "program".toList) :=
  endTag_endTag (by decide)

theorem elements_content {data : Text → Prop} {program : Program}
    (hblank : ∀ run, Blank run → data run)
    (hvalues : ∀ instruction ∈ program.instructions.toList, ∀ operand ∈ instruction.operands,
      data operand.value) : Elements data program.content :=
  elements_instructions hblank hvalues ['\n'] (by decide)

theorem document_text {data : Text → Prop} {program : Program}
    (hcontent : Elements data program.content) : Document data program.text := by
  have hspace : Space ['\n'] := by decide
  have hfeed : Misc ['\n'] := .cons (.inl hspace) .nil
  rw [text_eq]
  exact .intro (.inr declaration_declaration) hfeed
    (.element program.startTag_program hcontent.content endTag_program) hfeed

theorem exists_eq_declared {program : Program}
    (hcontent : Elements (fun run => '<' ∉ run) program.content) :
    ∃ rest, program.text = "<?xml ".toList ++ rest ∧ OnlyTags ("?xml ".toList ++ rest) := by
  refine ⟨"version=\"1.0\" encoding=\"UTF-8\"?>\n".toList ++ (program.root ++ ['\n']), ?_, ?_⟩
  · have hsplit : declaration ++ ['\n'] =
        "<?xml ".toList ++ "version=\"1.0\" encoding=\"UTF-8\"?>\n".toList := by decide
    rw [text_eq, hsplit, List.append_assoc, List.append_assoc]
  · have hdeclared : OnlyTags
        ("?xml ".toList ++ "version=\"1.0\" encoding=\"UTF-8\"?>\n".toList) :=
      onlyTags_of_not_mem (by decide)
    have hroot : OnlyTags program.root :=
      (program.startTag_program.onlyTags.append hcontent.onlyTags).append endTag_program.onlyTags
    have hfeed : OnlyTags ['\n'] := onlyTags_of_not_mem (by decide)
    rw [← List.append_assoc]
    exact hdeclared.append (hroot.append hfeed)

theorem exists_eq_value {program : Program} {instruction : Instruction}
    (hinstruction : instruction ∈ program.instructions.toList) {operand : Operand}
    (hoperand : operand ∈ instruction.operands) :
    ∃ before after, program.text = before ++ (operand.value ++ '<' :: after) := by
  obtain ⟨i, hi⟩ := List.mem_iff_getElem?.mp hoperand
  have hline : indent 2 (operand.element (1 + i)) ∈ program.lines := by
    have hmem : indent 2 (operand.element (1 + i)) ∈ operandLines 1 instruction.operands :=
      List.mem_map.mpr ⟨(operand, 1 + i), List.mk_add_mem_zipIdx_iff_getElem?.mpr hi, rfl⟩
    simp only [lines, List.mem_append, List.mem_flatMap]
    refine .inl (.inr ⟨instruction, hinstruction, ?_⟩)
    exact List.mem_append_left _ (List.mem_cons_of_mem _ hmem)
  obtain ⟨front, behind, hsplit⟩ := List.append_of_mem hline
  have hend : ∀ name, endTag name = '<' :: ('/' :: name ++ ">".toList) := fun _ => rfl
  refine ⟨front.flatMap (· ++ ['\n']) ++ (List.replicate (4 * 2) ' ' ++
    startTag ("arg".toList ++ decimal (1 + i)) [("type".toList, operand.kind.name)]),
    '/' :: "arg".toList ++ decimal (1 + i) ++ ">".toList ++ '\n' :: behind.flatMap (· ++ ['\n']), ?_⟩
  simp only [text, hsplit, indent, Operand.element, hend, List.flatMap_append, List.flatMap_cons,
    List.append_assoc, List.cons_append, List.nil_append]

theorem nested_document {program : Program}
    (hvalues : ∀ instruction ∈ program.instructions.toList, ∀ operand ∈ instruction.operands,
      '<' ∉ operand.value) : Nested program.document := by
  refine ⟨program.text, program.document_eq_toUtf8, ?_⟩
  exact document_text (elements_content (fun _ hrun => hrun.not_mem) hvalues)

/-- A document is well-formed exactly when all its values are clean. -/
theorem wellFormed_document_iff {program : Program}
    (hvalues : ∀ instruction ∈ program.instructions.toList, ∀ operand ∈ instruction.operands,
      '<' ∉ operand.value ∧ '>' ∉ operand.value) :
    WellFormed program.document ↔ ∀ instruction ∈ program.instructions.toList,
      ∀ operand ∈ instruction.operands, Clean operand.value := by
  constructor
  · rintro ⟨text, hutf8, hdocument⟩ instruction hinstruction operand hoperand
    rw [document_eq_toUtf8] at hutf8
    obtain rfl := toUtf8_injective hutf8
    have hcontent : Elements (fun run => '<' ∉ run) program.content :=
      elements_content (fun _ hrun => hrun.not_mem) fun i hi o ho => (hvalues i hi o ho).1
    obtain ⟨rest, hrest, htags⟩ := exists_eq_declared hcontent
    obtain ⟨before, after, hvalue⟩ := exists_eq_value hinstruction hoperand
    rw [hrest] at hdocument
    have hclean := hdocument.clean htags
    rw [← hrest, hvalue] at hclean
    exact hclean.left
  · intro hclean
    refine ⟨program.text, program.document_eq_toUtf8, ?_⟩
    apply document_text
    refine elements_content (fun _ hrun => hrun.charData) ?_
    intro instruction hinstruction operand hoperand
    obtain ⟨hlt, hgt⟩ := hvalues instruction hinstruction operand hoperand
    exact (hclean instruction hinstruction operand hoperand).charData hlt hgt

end Program

namespace Source

theorem wellFormed_written_iff_of_program {source : Source} {program : Program}
    (h : source.program = .ok program) :
    WellFormed (source.convert {}).written ↔ ∀ instruction ∈ program.instructions.toList,
      ∀ operand ∈ instruction.operands, Clean operand.value := by
  rw [convert_of_program h]
  exact Program.wellFormed_document_iff
    fun _ hinstruction _ hoperand => bracket_not_mem_value h hinstruction hoperand

/-- The document of an accepted source has one root, its tags nest and match, and no value holds
a `<`. It is well-formed exactly when all its values are clean. -/
theorem nested_and_wellFormed_written_iff {source : Source}
    (h : (source.convert {}).failure = none) :
    ∃ program, source.program = .ok program ∧ Nested (source.convert {}).written ∧
      (∀ instruction ∈ program.instructions.toList, ∀ operand ∈ instruction.operands,
        '<' ∉ operand.value) ∧
      (WellFormed (source.convert {}).written ↔ ∀ instruction ∈ program.instructions.toList,
        ∀ operand ∈ instruction.operands, Clean operand.value) := by
  obtain ⟨program, hprogram⟩ := exists_program_of_convert h
  have hvalues : ∀ instruction ∈ program.instructions.toList, ∀ operand ∈ instruction.operands,
      '<' ∉ operand.value := fun _ hinstruction _ hoperand =>
    (bracket_not_mem_value hprogram hinstruction hoperand).1
  refine ⟨program, hprogram, ?_, hvalues, wellFormed_written_iff_of_program hprogram⟩
  rw [convert_of_program hprogram]
  exact Program.nested_document hvalues

theorem exists_wellFormed_written : ∃ source : Source, (source.convert {}).failure = none ∧
    WellFormed (source.convert {}).written := by
  have hknown : (⟨toUtf8 ".IPPcode22\nWRITE string@a<\n".toList, none⟩ : Source).program =
      .ok ⟨#[⟨⟨.write, [⟨.string, "a&lt;".toList⟩]⟩, 1⟩]⟩ := by decide
  have hrun : ((⟨toUtf8 ".IPPcode22\nWRITE string@a<\n".toList, none⟩ : Source).convert {}).failure =
      none := by decide
  obtain ⟨program, hprogram, -, -, hiff⟩ := nested_and_wellFormed_written_iff hrun
  obtain rfl := Except.ok.inj (hprogram.symm.trans hknown)
  refine ⟨_, hrun, hiff.mpr ?_⟩
  have hletter : Clean ['a'] := clean_of_legal (by decide) (by decide)
  have hreference : Reference ('&' :: "lt".toList ++ [';']) := .entity (by decide)
  have hentity : Clean "&lt;".toList :=
    ⟨by decide, followed_cons ⟨_, [], hreference, rfl⟩ (by decide)⟩
  intro instruction hinstruction operand hoperand
  obtain rfl := List.mem_singleton.mp hinstruction
  obtain rfl := List.mem_singleton.mp hoperand
  exact hletter.append hentity

theorem not_wellFormed_of_stray_ampersand :
    ((⟨toUtf8 ".IPPcode22\nLABEL &\n".toList, none⟩ : Source).convert {}).failure = none ∧
      ¬ WellFormed
        ((⟨toUtf8 ".IPPcode22\nLABEL &\n".toList, none⟩ : Source).convert {}).written := by
  refine ⟨by decide, ?_⟩
  have hknown : (⟨toUtf8 ".IPPcode22\nLABEL &\n".toList, none⟩ : Source).program =
      .ok ⟨#[⟨⟨.label, [⟨.label, ['&']⟩]⟩, 1⟩]⟩ := by decide
  rw [wellFormed_written_iff_of_program hknown]
  intro hclean
  have hvalue : Clean ['&'] :=
    hclean _ List.mem_cons_self ⟨.label, ['&']⟩ List.mem_cons_self
  exact not_completesReference_nil (hvalue.references [] [] rfl)

end Source

end IppCode
