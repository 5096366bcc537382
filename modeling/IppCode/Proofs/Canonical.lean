import IppCode.Listing
import IppCode.Proofs.Reading
import IppCode.Proofs.Signatures

/-!
Canonical statements: the name of the operation in upper case, and the angle brackets of
strings written as entities. An instruction written back as a statement is the canonical
form of the statement it was made of, and it makes that instruction again.
-/

namespace IppCode

/-- The tag of a string together with its mark. -/
def stringTag : Text := "string".toList ++ ['@']

/-- A string with its angle brackets as entities; any other token as it is. -/
def canonicalToken (token : Text) : Text :=
  if stringTag.isPrefixOf token then
    stringTag ++ (token.drop stringTag.length).flatMap Grammar.entity
  else
    token

/-- The statement in upper case, with its strings in canonical form. -/
def Statement.canonical (statement : Statement) : Statement :=
  ⟨statement.name.map Char.toUpper, statement.operands.map canonicalToken⟩

namespace Grammar

theorem flatMap_entity_of_not_mem {value : Text} (hlt : '<' ∉ value) (hgt : '>' ∉ value) :
    value.flatMap entity = value := by
  rw [← escapeEntities_eq_flatMap, escapeEntities_of_not_mem hlt hgt]

theorem entity_of_not_bracket {c : Char} (h : c ∉ ['<', '>']) : entity c = [c] := by
  simp only [List.mem_cons, List.not_mem_nil, or_false, not_or] at h
  rw [entity, if_neg h.1, if_neg h.2]

theorem mem_of_mem_entity {c d : Char} (h : d ∈ entity c) : d = c ∨ d ∈ "&lt;&gt;".toList := by
  unfold entity at h
  split at h
  · exact .inr (List.mem_append_left "&gt;".toList h)
  · split at h
    · exact .inr (List.mem_append_right "&lt;".toList h)
    · exact .inl (List.mem_singleton.mp h)

theorem bracket_not_mem_entity (c : Char) : '<' ∉ entity c ∧ '>' ∉ entity c := by
  unfold entity
  split
  · decide
  · split
    · decide
    · rename_i hlt hgt
      simp [Ne.symm hlt, Ne.symm hgt]

theorem bracket_not_mem_flatMap_entity (value : Text) :
    '<' ∉ value.flatMap entity ∧ '>' ∉ value.flatMap entity := by
  simp only [List.mem_flatMap, not_exists, not_and]
  exact ⟨fun c _ => (bracket_not_mem_entity c).1, fun c _ => (bracket_not_mem_entity c).2⟩

theorem flatMap_entity_idem (value : Text) :
    (value.flatMap entity).flatMap entity = value.flatMap entity := by
  obtain ⟨hlt, hgt⟩ := bracket_not_mem_flatMap_entity value
  exact flatMap_entity_of_not_mem hlt hgt

theorem Escaped.append {s t : Text} (hs : Escaped s) (ht : Escaped t) : Escaped (s ++ t) := by
  induction hs with
  | nil => exact ht
  | plain hc _ ih => exact .plain hc ih
  | escape ha hb hc hcode _ ih => exact .escape ha hb hc hcode ih

theorem escaped_of_not_mem {value : Text} (h : '\\' ∉ value) : Escaped value := by
  induction value with
  | nil => exact .nil
  | cons c rest ih =>
      simp only [List.mem_cons, not_or] at h
      exact .plain (Ne.symm h.1) (ih h.2)

theorem escaped_entity {c : Char} (h : c ≠ '\\') : Escaped (entity c) := by
  apply escaped_of_not_mem
  intro hmem
  rcases mem_of_mem_entity hmem with hsame | hadded
  · exact h hsame.symm
  · exact absurd hadded (by decide)

theorem entity_of_digit {c : Char} (h : Digit c) : entity c = [c] := by
  have hbracket : ∀ bracket ∈ ['<', '>'], ¬ bracket ≤ '9' := by decide
  apply entity_of_not_bracket
  exact fun hmem => hbracket c hmem h.2

theorem Escaped.flatMap_entity {value : Text} (h : Escaped value) :
    Escaped (value.flatMap entity) := by
  induction h with
  | nil => exact .nil
  | plain hc _ ih =>
      rw [List.flatMap_cons]
      exact (escaped_entity hc).append ih
  | escape ha hb hc hcode _ ih =>
      have hbackslash : entity '\\' = ['\\'] := by decide
      simp only [List.flatMap_cons, hbackslash, entity_of_digit ha, entity_of_digit hb,
        entity_of_digit hc]
      exact .escape ha hb hc hcode ih

theorem stringTag_append (rest : Text) : stringTag ++ rest = "string".toList ++ '@' :: rest :=
  List.append_assoc "string".toList ['@'] rest

theorem canonicalToken_string (value : Text) :
    canonicalToken ("string".toList ++ '@' :: value) =
      "string".toList ++ '@' :: value.flatMap entity := by
  have htagged : canonicalToken (stringTag ++ value) = stringTag ++ value.flatMap entity := by
    have hpre : stringTag.isPrefixOf (stringTag ++ value) := by
      rw [List.isPrefixOf_iff_prefix]
      exact List.prefix_append _ _
    rw [canonicalToken, if_pos hpre, List.drop_left]
  simpa only [stringTag_append] using htagged

theorem canonicalToken_of_cons_ne {c : Char} {rest : Text} (h : c ≠ 's') :
    canonicalToken (c :: rest) = c :: rest := by
  have hpre : ¬ stringTag.isPrefixOf (c :: rest) := by
    rw [List.isPrefixOf_iff_prefix]
    rintro ⟨tail, htail⟩
    have hhead : stringTag = 's' :: stringTag.tail := by decide
    rw [hhead, List.cons_append, List.cons.injEq] at htail
    exact h htail.1.symm
  rw [canonicalToken, if_neg hpre]

theorem canonicalToken_of_not_mem {token : Text} (h : tagMark ∉ token) :
    canonicalToken token = token := by
  have hpre : ¬ stringTag.isPrefixOf token := by
    rw [List.isPrefixOf_iff_prefix]
    intro hstart
    have hmark : tagMark ∈ stringTag := by decide
    exact h (hstart.subset hmark)
  rw [canonicalToken, if_neg hpre]

theorem canonicalToken_of_variable {token : Text} (h : Variable token) :
    canonicalToken token = token := by
  obtain ⟨hframe, -⟩ := h
  simp only [List.mem_cons, List.not_mem_nil, or_false] at hframe
  rcases hframe with rfl | rfl | rfl
  · exact canonicalToken_of_cons_ne (by decide)
  · exact canonicalToken_of_cons_ne (by decide)
  · exact canonicalToken_of_cons_ne (by decide)

theorem Denotes.token_eq {slot : Slot} {token : Text} {operand : Operand}
    (h : Denotes slot token operand) : operand.token = canonicalToken token := by
  cases h with
  | var h => exact (canonicalToken_of_variable h).symm
  | symbVar h => exact (canonicalToken_of_variable h).symm
  | label h => exact (canonicalToken_of_not_mem (mark_not_mem_of_identifier h)).symm
  | type h => exact (canonicalToken_of_not_mem (mark_not_mem_of_typeName h)).symm
  | int h => exact (canonicalToken_of_cons_ne (by decide)).symm
  | bool h => exact (canonicalToken_of_cons_ne (by decide)).symm
  | nil => decide
  | string h => exact (canonicalToken_string _).symm

theorem token_of_literal (kind : Kind) (tag value : Text)
    (hkind : kind ∈ [Kind.int, .bool, .string, .nil]) (htag : tag ∈ kind.tags) :
    Operand.token ⟨kind, value⟩ = tag ++ tagMark :: value := by
  rw [Kind.tags_of_literal kind hkind, List.mem_singleton] at htag
  subst htag
  simp only [List.mem_cons, List.not_mem_nil, or_false] at hkind
  rcases hkind with rfl | rfl | rfl | rfl <;> rfl

/-- The token an operand is written back as denotes it again. -/
theorem Denotes.token {slot : Slot} {token : Text} {operand : Operand}
    (h : Denotes slot token operand) : Denotes slot operand.token operand := by
  cases h with
  | var h => exact .var h
  | symbVar h => exact .symbVar h
  | label h => exact .label h
  | type h => exact .type h
  | @int value h =>
      rw [token_of_literal .int "int".toList value (by decide) (by decide)]
      exact .int h
  | @bool value h =>
      rw [token_of_literal .bool "bool".toList value (by decide) (by decide)]
      exact .bool h
  | nil =>
      rw [token_of_literal .nil "nil".toList "nil".toList (by decide) (by decide)]
      exact .nil
  | @string value h =>
      have hagain := Denotes.string h.flatMap_entity
      rw [flatMap_entity_idem] at hagain
      rw [token_of_literal .string "string".toList _ (by decide) (by decide)]
      exact hagain

theorem Fits.token {slots : List Slot} {tokens : List Text} {operands : List Operand}
    (h : Fits slots tokens operands) : Fits slots (operands.map Operand.token) operands := by
  induction h with
  | nil => exact .nil
  | cons hhead _ ih => exact .cons hhead.token ih

theorem Fits.token_eq {slots : List Slot} {tokens : List Text} {operands : List Operand}
    (h : Fits slots tokens operands) : operands.map Operand.token = tokens.map canonicalToken := by
  induction h with
  | nil => rfl
  | cons hhead _ ih => rw [List.map_cons, List.map_cons, hhead.token_eq, ih]

end Grammar

theorem Instruction.statement_eq_canonical {statement : Statement} {instruction : Instruction}
    (h : statement.operation = .ok instruction.toOperation) :
    instruction.statement = statement.canonical := by
  obtain ⟨⟨opcode, operands⟩, order⟩ := instruction
  obtain ⟨name, tokens⟩ := statement
  cases Grammar.operation_eq_ok_iff.mp h with
  | intro hrow hname hword hopcode hfits =>
      rw [← hopcode, Grammar.forall₂_sameLetter_iff (Grammar.name_not_lower opcode)] at hword
      simp only [Instruction.statement, Statement.canonical, hword, hfits.token_eq]

theorem Instruction.operation_statement {statement : Statement} {instruction : Instruction}
    (h : statement.operation = .ok instruction.toOperation) :
    instruction.statement.operation = .ok instruction.toOperation := by
  obtain ⟨⟨opcode, operands⟩, order⟩ := instruction
  rw [Grammar.operation_eq_ok_iff] at h ⊢
  cases h with
  | @intro names slots name word tokens _ _ hrow hname hword hopcode hfits =>
      refine .intro hrow hname ?_ hopcode hfits.token
      rw [Instruction.statement, hopcode]
      exact List.forall₂_same.mpr fun c _ => .inl rfl

theorem Assembles.map_statement {order : Nat} {rest : List Statement}
    {instructions : List Instruction} (h : Assembles order rest instructions) :
    instructions.map Instruction.statement = rest.map Statement.canonical := by
  induction h with
  | nil => rfl
  | cons hhead _ ih =>
      rw [List.map_cons, List.map_cons, ih, Instruction.statement_eq_canonical hhead]

/-- Instructions written back as statements are assembled again as they were. -/
theorem Assembles.reassemble {order : Nat} {rest : List Statement}
    {instructions : List Instruction} (h : Assembles order rest instructions) :
    Assembles order (instructions.map Instruction.statement) instructions := by
  induction h with
  | nil => exact .nil
  | @cons order _ operation _ _ hhead _ ih =>
      have hagain : (⟨operation, order⟩ : Instruction).statement.operation = .ok operation :=
        Instruction.operation_statement hhead
      exact .cons hagain ih

theorem Assembles.functional {order : Nat} {rest : List Statement}
    {instructions instructions' : List Instruction} (h : Assembles order rest instructions)
    (h' : Assembles order rest instructions') : instructions = instructions' := by
  induction h generalizing instructions' with
  | nil =>
      cases h'
      rfl
  | cons hhead _ ih =>
      cases h' with
      | cons hhead' htail' =>
          rw [hhead, Except.ok.injEq] at hhead'
          rw [hhead', ih htail']

end IppCode
