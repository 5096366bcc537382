import IppCode.Proofs.Signatures

namespace IppCode

namespace Grammar

/-- The names of the table, row by row. -/
def names : List String := table.flatMap Prod.fst

/-- The same word up to the case of ASCII letters. -/
def SameWord (word : Text) (name : String) : Prop := List.Forall₂ SameLetter word name.toList

/-- The rule that is entered for the opcode whose name a word is. -/
def RuleOf (word : Text) (rule : Rule) : Prop :=
  (∃ name ∈ names, SameWord word name ∧ rule.opcode.name = name.toList) ∧
    Rule.ofOpcode? rule.opcode = some rule

/-- A token is in the language of a slot. -/
def Belongs (slot : Slot) (token : Text) : Prop := ∃ operand, Denotes slot token operand

/-- The slot and the token at an index are the first of which the token does not belong to the
slot. -/
structure FirstMisfit (slots : List Slot) (tokens : List Text) (index : Nat) (slot : Slot)
    (token : Text) : Prop where
  slot_eq : slots[index]? = some slot
  token_eq : tokens[index]? = some token
  misfit : ¬ Belongs slot token
  least : ∀ earlier < index, ∀ slot token, slots[earlier]? = some slot →
    tokens[earlier]? = some token → Belongs slot token

/-- The answer to a name with tokens, where the next instruction would have the given order. -/
inductive Answers (order : Nat) (name : Text) (tokens : List Text) :
    Except Fault Instruction → Prop
  | unknown (hname : ∀ known ∈ names, ¬ SameWord name known) :
      Answers order name tokens (.error (.unknownOperation name))
  | arity {rule : Rule} (hrule : RuleOf name rule) (hcount : tokens.length ≠ rule.arity) :
      Answers order name tokens
        (.error (.mismatch (.arity rule.opcode rule.arity tokens.length)))
  | operand {rule : Rule} {index : Nat} {slot : Slot} {token : Text} (hrule : RuleOf name rule)
      (hcount : tokens.length = rule.arity)
      (hfirst : FirstMisfit rule.slots tokens index slot token) :
      Answers order name tokens
        (.error (.mismatch (.operand rule.opcode (index + 1) slot token)))
  | made {rule : Rule} {operands : List Operand} (hrule : RuleOf name rule)
      (hfits : Fits rule.slots tokens operands) :
      Answers order name tokens (.ok ⟨⟨rule.opcode, operands⟩, order⟩)

theorem exists_name (opcode : Opcode) : ∃ name ∈ names, opcode.name = name.toList := by
  obtain ⟨row, hrow, -, name, hname, hsame⟩ := exists_row opcode
  exact ⟨name, List.mem_flatMap.mpr ⟨row, hrow, hname⟩, hsame.symm⟩

theorem exists_opcode {name : String} (h : name ∈ names) :
    ∃ opcode : Opcode, opcode.name = name.toList := by
  obtain ⟨row, hrow, hname⟩ := List.mem_flatMap.mp h
  obtain ⟨opcode, -, hopcode, -⟩ := exists_opcode_of_mem_row row hrow name hname
  exact ⟨opcode, hopcode⟩

example : names.length = 33 ∧ names.Nodup := by decide

theorem ofSource?_eq_none_iff {word : Text} :
    Opcode.ofSource? word = none ↔ ∀ name ∈ names, ¬ SameWord word name := by
  rw [Option.eq_none_iff_forall_ne_some]
  constructor
  · intro h name hname hword
    obtain ⟨opcode, hopcode⟩ := exists_opcode hname
    apply h opcode
    rw [ofSource?_eq_some_iff, hopcode]
    exact hword
  · intro h opcode hopcode
    obtain ⟨name, hname, hsame⟩ := exists_name opcode
    rw [ofSource?_eq_some_iff, hsame] at hopcode
    exact h name hname hopcode

theorem ruleOf_iff {word : Text} {rule : Rule} :
    RuleOf word rule ↔ Rule.ofSource? word = some rule := by
  have hentered : Rule.ofOpcode? rule.opcode = some rule ↔
      rule.slots = rule.opcode.signature := by
    obtain ⟨opcode, slots⟩ := rule
    rw [Rule.ofOpcode?_eq, Option.some.injEq, Rule.mk.injEq]
    exact ⟨fun h => h.2.symm, fun h => ⟨rfl, h.symm⟩⟩
  rw [RuleOf, hentered, Rule.ofSource?_eq_some_iff, ofSource?_eq_some_iff]
  refine and_congr_left fun _ => ?_
  constructor
  · rintro ⟨name, -, hword, hsame⟩
    rw [hsame]
    exact hword
  · intro hword
    obtain ⟨name, hname, hsame⟩ := exists_name rule.opcode
    rw [hsame] at hword
    exact ⟨name, hname, hword, hsame⟩

theorem SameLetter.ascii {c d : Char} (h : SameLetter c d) (hd : d.toNat < 128) :
    c.toNat < 128 := by
  rcases h with rfl | ⟨⟨-, hz⟩, -⟩ | ⟨⟨-, hZ⟩, -⟩
  · exact hd
  · rw [Char.le_def, UInt32.le_iff_toNat_le] at hz
    change c.toNat ≤ 122 at hz
    omega
  · rw [Char.le_def, UInt32.le_iff_toNat_le] at hZ
    change c.toNat ≤ 90 at hZ
    omega

theorem SameWord.ascii {word : Text} {name : String} (h : SameWord word name)
    (hname : ∀ d ∈ name.toList, d.toNat < 128) : ∀ c ∈ word, c.toNat < 128 := by
  unfold SameWord at h
  generalize name.toList = letters at h hname
  induction h with
  | nil => simp
  | cons hhead _ ih =>
      obtain ⟨hd, hletters⟩ := List.forall_mem_cons.mp hname
      exact List.forall_mem_cons.mpr ⟨hhead.ascii hd, ih hletters⟩

theorem ofSource?_of_not_ascii {word : Text} {c : Char} (hc : c ∈ word) (hcode : 128 ≤ c.toNat) :
    Opcode.ofSource? word = none := by
  have hnames : ∀ name ∈ names, ∀ d ∈ name.toList, d.toNat < 128 := by decide
  rw [ofSource?_eq_none_iff]
  intro name hname hword
  have hascii := hword.ascii (hnames name hname) c hc
  omega

theorem belongs_iff {slot : Slot} {token : Text} :
    Belongs slot token ↔ slot.operand? token ≠ none := by
  rw [Belongs, Option.ne_none_iff_exists']
  simp only [operand?_eq_some_iff]

theorem firstMisfit_cons_iff {slots : List Slot} {tokens : List Text} {slot slot' : Slot}
    {token token' : Text} {index : Nat} :
    FirstMisfit (slot :: slots) (token :: tokens) index slot' token' ↔
      (index = 0 ∧ slot' = slot ∧ token' = token ∧ ¬ Belongs slot token) ∨
        ∃ later, index = later + 1 ∧ Belongs slot token ∧
          FirstMisfit slots tokens later slot' token' := by
  constructor
  · rintro ⟨hslot, htoken, hmisfit, hleast⟩
    cases index with
    | zero =>
        obtain ⟨rfl, rfl⟩ : slot = slot' ∧ token = token' :=
          ⟨Option.some.inj hslot, Option.some.inj htoken⟩
        exact .inl ⟨rfl, rfl, rfl, hmisfit⟩
    | succ later =>
        refine .inr ⟨later, rfl, hleast 0 (Nat.succ_pos later) slot token rfl rfl, ?_⟩
        refine ⟨hslot, htoken, hmisfit, ?_⟩
        intro earlier hearlier
        exact hleast (earlier + 1) (Nat.succ_lt_succ hearlier)
  · rintro (⟨rfl, rfl, rfl, hmisfit⟩ | ⟨later, rfl, hbelongs, hslot, htoken, hmisfit, hleast⟩)
    · exact ⟨rfl, rfl, hmisfit, fun earlier hearlier => absurd hearlier (Nat.not_lt_zero earlier)⟩
    · refine ⟨hslot, htoken, hmisfit, ?_⟩
      intro earlier hearlier slot'' token'' hslot'' htoken''
      cases earlier with
      | zero =>
          obtain ⟨rfl, rfl⟩ : slot = slot'' ∧ token = token'' :=
            ⟨Option.some.inj hslot'', Option.some.inj htoken''⟩
          exact hbelongs
      | succ earlier =>
          exact hleast earlier (Nat.lt_of_succ_lt_succ hearlier) slot'' token'' hslot'' htoken''

/-- Tokens are refused exactly at the first of them that does not belong to its slot. -/
theorem fit_eq_error_iff {opcode : Opcode} {position : Nat} {slots : List Slot}
    {tokens : List Text} {cause : Mismatch} (hlength : tokens.length = slots.length) :
    opcode.fit position (slots.zip tokens) = .error cause ↔
      ∃ index slot token, FirstMisfit slots tokens index slot token ∧
        cause = .operand opcode (position + index) slot token := by
  induction slots generalizing position tokens with
  | nil =>
      constructor
      · intro h
        cases h
      · rintro ⟨index, slot, token, hfirst, -⟩
        cases hfirst.slot_eq
  | cons slot slots ih =>
      cases tokens with
      | nil => cases hlength
      | cons token tokens =>
          rw [List.zip_cons_cons, Opcode.fit]
          simp only [firstMisfit_cons_iff]
          cases hoperand : slot.operand? token with
          | none =>
              have hmisfit : ¬ Belongs slot token := by simp [belongs_iff, hoperand]
              constructor
              · rintro ⟨⟩
                exact ⟨0, slot, token, .inl ⟨rfl, rfl, rfl, hmisfit⟩, rfl⟩
              · rintro ⟨index, _, _, ⟨rfl, rfl, rfl, -⟩ | ⟨_, _, hbelongs, -⟩, rfl⟩
                · rfl
                · exact absurd hbelongs hmisfit
          | some operand =>
              have hbelongs : Belongs slot token := by simp [belongs_iff, hoperand]
              have hcount : ∀ later, position + (later + 1) = position + 1 + later := by
                intro later
                omega
              constructor
              · intro h
                have hrest : opcode.fit (position + 1) (slots.zip tokens) = .error cause := by
                  dsimp only at h
                  split at h
                  · rename_i hcause
                    rw [hcause, h]
                  · cases h
                obtain ⟨later, slot', token', hfirst, rfl⟩ := (ih (Nat.succ.inj hlength)).mp hrest
                refine ⟨later + 1, slot', token', .inr ⟨later, rfl, hbelongs, hfirst⟩, ?_⟩
                rw [hcount later]
              · rintro ⟨_, slot', token', ⟨-, -, -, hmisfit⟩ | ⟨later, rfl, -, hfirst⟩, hcause⟩
                · exact absurd hbelongs hmisfit
                · rw [hcount later] at hcause
                  rw [(ih (Nat.succ.inj hlength)).mpr ⟨later, slot', token', hfirst, hcause⟩]

variable {name : Text} {tokens : List Text}

theorem operation_of_unknown (h : Rule.ofSource? name = none) :
    Statement.operation ⟨name, tokens⟩ = .error (.unknownOperation name) := by
  simp only [Statement.operation, h]

theorem operation_of_ruleOf {rule : Rule} (h : RuleOf name rule) :
    Statement.operation ⟨name, tokens⟩ =
      ((rule.operands tokens).map (Operation.mk rule.opcode)).mapError .mismatch := by
  simp only [Statement.operation, ruleOf_iff.mp h]
  cases rule.operands tokens with
  | error cause => rfl
  | ok operands => rfl

theorem operands_of_count_ne {rule : Rule} (hcount : tokens.length ≠ rule.arity) :
    rule.operands tokens = .error (.arity rule.opcode rule.arity tokens.length) := by
  rw [Rule.operands, if_neg hcount]

theorem operands_eq_error_iff {rule : Rule} (hcount : tokens.length = rule.arity)
    {cause : Mismatch} :
    rule.operands tokens = .error cause ↔
      ∃ index slot token, FirstMisfit rule.slots tokens index slot token ∧
        cause = .operand rule.opcode (index + 1) slot token := by
  rw [Rule.operands, if_pos hcount, fit_eq_error_iff hcount]
  simp only [Nat.add_comm 1]

theorem Answers.assemble_eq {order : Nat} {answer : Except Fault Instruction}
    (h : Answers order name tokens answer) :
    (Assembler.assemble ⟨order⟩ ⟨name, tokens⟩).1 = answer := by
  rw [Assembler.assemble]
  cases h with
  | unknown hname =>
      rw [operation_of_unknown (Rule.ofSource?_eq_none_iff.mpr (ofSource?_eq_none_iff.mpr hname))]
  | arity hrule hcount =>
      rw [operation_of_ruleOf hrule, operands_of_count_ne hcount]
      rfl
  | operand hrule hcount hfirst =>
      have hoperands := (operands_eq_error_iff hcount).mpr ⟨_, _, _, hfirst, rfl⟩
      rw [operation_of_ruleOf hrule, hoperands]
      rfl
  | made hrule hfits =>
      rw [operation_of_ruleOf hrule, operands_eq_ok_iff.mpr hfits]
      rfl

theorem answers_assemble (order : Nat) (name : Text) (tokens : List Text) :
    Answers order name tokens (Assembler.assemble ⟨order⟩ ⟨name, tokens⟩).1 := by
  rw [Assembler.assemble]
  cases hname : Rule.ofSource? name with
  | none =>
      rw [operation_of_unknown hname]
      exact .unknown (ofSource?_eq_none_iff.mp (Rule.ofSource?_eq_none_iff.mp hname))
  | some rule =>
      have hrule : RuleOf name rule := ruleOf_iff.mpr hname
      rw [operation_of_ruleOf hrule]
      by_cases hcount : tokens.length = rule.arity
      · cases hoperands : rule.operands tokens with
        | error cause =>
            obtain ⟨index, slot, token, hfirst, rfl⟩ :=
              (operands_eq_error_iff hcount).mp hoperands
            exact .operand hrule hcount hfirst
        | ok operands => exact .made hrule (operands_eq_ok_iff.mp hoperands)
      · rw [operands_of_count_ne hcount]
        exact .arity hrule hcount

end Grammar

/-- The answer of an assembler to a statement is the one that the grammar gives: an unknown name
is reported as it stands whatever follows it, then a wrong number of operands whatever they are,
then the first operand that does not fit, and otherwise the statement makes an instruction. A name
with a character outside ASCII is unknown, and a rule is found for every name that is known. -/
theorem Assembler.assemble_eq_iff_answers (assembler : Assembler) (name : Text)
    (tokens : List Text) :
    (∀ answer, (assembler.assemble ⟨name, tokens⟩).1 = answer ↔
        Grammar.Answers assembler.nextOrder name tokens answer) ∧
      (∀ c ∈ name, 128 ≤ c.toNat →
        (assembler.assemble ⟨name, tokens⟩).1 = .error (.unknownOperation name)) ∧
      (Rule.ofSource? name = none ↔ Opcode.ofSource? name = none) := by
  refine ⟨?_, ?_, Rule.ofSource?_eq_none_iff⟩
  · intro answer
    constructor
    · rintro rfl
      exact Grammar.answers_assemble assembler.nextOrder name tokens
    · exact Grammar.Answers.assemble_eq
  · intro c hc hcode
    apply Grammar.Answers.assemble_eq
    exact .unknown (Grammar.ofSource?_eq_none_iff.mp (Grammar.ofSource?_of_not_ascii hc hcode))

theorem Assembler.assemble_eq_answers_of_words :
    (({} : Assembler).assemble ⟨"ſub".toList, []⟩).1 = .error (.unknownOperation "ſub".toList) ∧
      Grammar.Answers 7 "sub".toList ["GF@x".toList, "1".toList, "y".toList]
        (.error (.mismatch (.operand .sub 2 .symb "1".toList))) := by
  obtain ⟨-, hunknown, -⟩ := assemble_eq_iff_answers {} "ſub".toList []
  obtain ⟨hanswer, -, -⟩ :=
    assemble_eq_iff_answers ⟨7⟩ "sub".toList ["GF@x".toList, "1".toList, "y".toList]
  exact ⟨hunknown 'ſ' (by decide) (by decide), (hanswer _).mp (by decide)⟩

end IppCode
