import IppCode.Operand

namespace IppCode.Grammar

def Letter (c : Char) : Prop := ('A' ≤ c ∧ c ≤ 'Z') ∨ ('a' ≤ c ∧ c ≤ 'z')

def Digit (c : Char) : Prop := '0' ≤ c ∧ c ≤ '9'

def Special (c : Char) : Prop := c ∈ ['_', '$', '&', '%', '*', '!', '?', '-']

/-- A letter or special character, followed by letters, digits and special characters. -/
inductive Identifier : Text → Prop
  | intro {head : Char} {tail : Text} (hhead : Letter head ∨ Special head)
      (htail : ∀ c ∈ tail, Letter c ∨ Digit c ∨ Special c) : Identifier (head :: tail)

/-- A frame, the mark and an identifier. -/
inductive Variable : Text → Prop
  | intro {frame name : Text} (hframe : frame ∈ ["LF".toList, "TF".toList, "GF".toList])
      (hname : Identifier name) : Variable (frame ++ '@' :: name)

/-- Digits, perhaps none, after at most one sign. -/
inductive Numeral : Text → Prop
  | intro (sign digits : Text) (hsign : sign ∈ ["".toList, "+".toList, "-".toList])
      (hdigits : ∀ c ∈ digits, Digit c) : Numeral (sign ++ digits)

def digitValue (c : Char) : Nat := c.toNat - '0'.toNat

/-- The number that three decimal digits spell. -/
def threeDigits (a b c : Char) : Nat := 100 * digitValue a + 10 * digitValue b + digitValue c

/-- Pieces that are each a character other than the backslash, or a backslash before three digits
that spell an admissible code. -/
inductive Escaped : Text → Prop
  | nil : Escaped []
  | plain {c : Char} {rest : Text} (hc : c ≠ '\\') (hrest : Escaped rest) : Escaped (c :: rest)
  | escape {a b c : Char} {rest : Text} (ha : Digit a) (hb : Digit b) (hc : Digit c)
      (hcode : threeDigits a b c ≤ 32 ∨ (35 ≤ threeDigits a b c ∧ threeDigits a b c ≤ 92))
      (hrest : Escaped rest) : Escaped ('\\' :: a :: b :: c :: rest)

/-- How a document writes a character of a string. -/
def entity (c : Char) : Text :=
  if c = '<' then "&lt;".toList else if c = '>' then "&gt;".toList else [c]

/-- What a token denotes in a slot: variables, labels and type names stand for themselves, a
literal loses its tag, and a string is written with entities. -/
inductive Denotes : Slot → Text → Operand → Prop
  | var {token : Text} (h : Variable token) : Denotes .var token ⟨.var, token⟩
  | label {token : Text} (h : Identifier token) : Denotes .label token ⟨.label, token⟩
  | type {token : Text} (h : token ∈ ["int".toList, "string".toList, "bool".toList]) :
      Denotes .type token ⟨.type, token⟩
  | symbVar {token : Text} (h : Variable token) : Denotes .symb token ⟨.var, token⟩
  | int {value : Text} (h : Numeral value) :
      Denotes .symb ("int".toList ++ '@' :: value) ⟨.int, value⟩
  | bool {value : Text} (h : value ∈ ["true".toList, "false".toList]) :
      Denotes .symb ("bool".toList ++ '@' :: value) ⟨.bool, value⟩
  | nil : Denotes .symb "nil@nil".toList ⟨.nil, "nil".toList⟩
  | string {value : Text} (h : Escaped value) :
      Denotes .symb ("string".toList ++ '@' :: value) ⟨.string, value.flatMap entity⟩

theorem isAlpha_iff {c : Char} : c.isAlpha ↔ Letter c := by
  change (decide ('A'.val ≤ c.val ∧ c.val ≤ 'Z'.val) ||
    decide ('a'.val ≤ c.val) && decide (c.val ≤ 'z'.val)) = true ↔ Letter c
  simp only [Letter, Char.le_def, Bool.or_eq_true, Bool.and_eq_true, decide_eq_true_eq]

theorem isDigit_iff {c : Char} : c.isDigit ↔ Digit c := by
  simp only [Char.isDigit, Digit, Char.le_def, Bool.and_eq_true, decide_eq_true_eq, ge_iff_le]

theorem mem_specials_iff {c : Char} : specials.contains c ↔ Special c := by
  have hspecials : specials = ['_', '-', '$', '&', '%', '*', '!', '?'] := by decide
  rw [List.contains_iff_mem, hspecials, Special]
  simp only [List.mem_cons, List.not_mem_nil, or_false]
  constructor
  · rintro (h | h | h | h | h | h | h | h) <;> simp [h]
  · rintro (h | h | h | h | h | h | h | h) <;> simp [h]

theorem isIdentifierHead_iff {c : Char} : isIdentifierHead c ↔ Letter c ∨ Special c := by
  rw [isIdentifierHead, Bool.or_eq_true, isAlpha_iff, mem_specials_iff]

theorem isIdentifierTail_iff {c : Char} :
    isIdentifierTail c ↔ Letter c ∨ Digit c ∨ Special c := by
  rw [isIdentifierTail, Char.isAlphanum, Bool.or_eq_true, Bool.or_eq_true, isAlpha_iff,
    isDigit_iff, mem_specials_iff, or_assoc]

theorem isIdentifier_iff {token : Text} : isIdentifier token ↔ Identifier token := by
  constructor
  · intro h
    cases token with
    | nil => simp [isIdentifier] at h
    | cons head tail =>
        simp only [isIdentifier, Bool.and_eq_true, List.all_eq_true] at h
        refine .intro (isIdentifierHead_iff.mp h.1) ?_
        intro c hc
        exact isIdentifierTail_iff.mp (h.2 c hc)
  · rintro ⟨hhead, htail⟩
    simp only [isIdentifier, Bool.and_eq_true, List.all_eq_true]
    refine ⟨isIdentifierHead_iff.mpr hhead, ?_⟩
    intro c hc
    exact isIdentifierTail_iff.mpr (htail c hc)

theorem all_isDigit_iff {digits : Text} : digits.all Char.isDigit ↔ ∀ c ∈ digits, Digit c := by
  simp only [List.all_eq_true, isDigit_iff]

theorem isNumeral_iff {value : Text} : isNumeral value ↔ Numeral value := by
  constructor
  · intro h
    unfold isNumeral at h
    split at h
    · exact .intro "+".toList _ (by decide) (all_isDigit_iff.mp h)
    · exact .intro "-".toList _ (by decide) (all_isDigit_iff.mp h)
    · exact .intro "".toList _ (by decide) (all_isDigit_iff.mp h)
  · rintro ⟨sign, digits, hsign, hdigits⟩
    have hall := all_isDigit_iff.mpr hdigits
    simp only [List.mem_cons, List.not_mem_nil, or_false] at hsign
    rcases hsign with rfl | rfl | rfl
    · change isNumeral digits
      unfold isNumeral
      split
      · simp [Char.isDigit] at hall
      · simp [Char.isDigit] at hall
      · exact hall
    · exact hall
    · exact hall

theorem isEscapeSequence_iff {a b c : Char} :
    isEscapeSequence a b c ↔ Digit a ∧ Digit b ∧ Digit c ∧
      (threeDigits a b c ≤ 32 ∨ (35 ≤ threeDigits a b c ∧ threeDigits a b c ≤ 92)) := by
  have hcode : Nat.ofDigitChars 10 [a, b, c] 0 = threeDigits a b c := by
    simp only [Nat.ofDigitChars_cons, Nat.ofDigitChars_nil, threeDigits, digitValue]
    omega
  simp only [isEscapeSequence, isEscapeCode, hcode, List.all_cons, List.all_nil, Bool.and_true,
    Bool.and_eq_true, Bool.or_eq_true, decide_eq_true_eq, isDigit_iff, and_assoc]

theorem isWellEscaped_iff {value : Text} : isWellEscaped value ↔ Escaped value := by
  constructor
  · intro h
    fun_induction isWellEscaped value with
    | case1 => exact .nil
    | case2 a b c rest ih =>
        rw [Bool.and_eq_true, isEscapeSequence_iff] at h
        obtain ⟨⟨ha, hb, hc, hcode⟩, hrest⟩ := h
        exact .escape ha hb hc hcode (ih hrest)
    | case3 c rest _ ih =>
        rw [Bool.and_eq_true, bne_iff_ne] at h
        exact .plain h.1 (ih h.2)
  · intro h
    induction h with
    | nil => rfl
    | plain hc hrest ih =>
        rw [isWellEscaped_cons_of_ne hc]
        exact ih
    | escape ha hb hc hcode hrest ih =>
        rw [isWellEscaped, Bool.and_eq_true, isEscapeSequence_iff]
        exact ⟨⟨ha, hb, hc, hcode⟩, ih⟩

theorem escapeEntities_eq_flatMap (value : Text) : escapeEntities value = value.flatMap entity := by
  unfold escapeEntities substitute
  rw [List.flatMap_assoc]
  congr 1
  funext c
  unfold entity
  split
  · decide
  · simp

theorem mark_not_mem_of_identifier {token : Text} (h : Identifier token) : tagMark ∉ token := by
  obtain ⟨hhead, htail⟩ := h
  intro hmem
  have hmark : ¬ isIdentifierTail tagMark := by decide
  rcases List.mem_cons.mp hmem with rfl | hmem
  · rw [← isIdentifierHead_iff] at hhead
    exact absurd hhead (by decide)
  · exact hmark (isIdentifierTail_iff.mpr (htail _ hmem))

theorem mark_not_mem_of_typeName {token : Text} (h : token ∈ typeNames) : tagMark ∉ token := by
  have hall : ∀ name ∈ typeNames, tagMark ∉ name := by decide
  exact hall token h

theorem isTagged_append {tag : Text} (htag : tagMark ∉ tag) (test : Text → Bool) (rest : Text) :
    isTagged [tag] test (tag ++ tagMark :: rest) = test rest := by
  simp [isTagged, cutAt?_append_cons htag]

theorem isTagged_singleton {tag token : Text} {test : Text → Bool} (h : isTagged [tag] test token) :
    ∃ rest, test rest ∧ token = tag ++ tagMark :: rest ∧ tagMark ∉ tag := by
  obtain ⟨tag', htag, rest, htest, htoken, hmark⟩ := isTagged_eq_true_iff.mp h
  rw [List.mem_singleton] at htag
  subst tag'
  exact ⟨rest, htest, htoken, hmark⟩

theorem accepts_var_iff {token : Text} : Kind.var.accepts token ↔ Variable token := by
  rw [Kind.accepts, isTagged_eq_true_iff]
  constructor
  · rintro ⟨frame, hframe, name, hname, rfl, -⟩
    exact .intro hframe (isIdentifier_iff.mp hname)
  · rintro ⟨hframe, hname⟩
    have hmark : ∀ frame ∈ frames, tagMark ∉ frame := by decide
    exact ⟨_, hframe, _, isIdentifier_iff.mpr hname, rfl, hmark _ hframe⟩

theorem valueOf_of_bare {kind : Kind} {token : Text} (hkind : kind ∈ [Kind.var, .label, .type])
    (h : kind.accepts token) : kind.valueOf token = token := by
  simp only [List.mem_cons, List.not_mem_nil, or_false] at hkind
  rcases hkind with rfl | rfl | rfl
  · rfl
  · exact payload_of_not_mem (mark_not_mem_of_identifier (isIdentifier_iff.mp h))
  · exact payload_of_not_mem (mark_not_mem_of_typeName (List.contains_iff_mem.mp h))

theorem verbatim?_eq {kind : Kind} {token : Text} (hkind : kind ∈ [Kind.var, .label, .type]) :
    Operand.verbatim? kind token =
      ([kind].find? (·.accepts token)).map (Operand.ofToken · token) := by
  unfold Operand.verbatim?
  split
  · rename_i h
    simp [h, Operand.ofToken, valueOf_of_bare hkind h]
  · rename_i h
    simp [h]

/-- Storing a token as it stands, as the slots for variables, labels and type names do, agrees with
the way in which symbols are stored. -/
theorem operand?_eq_ofToken (slot : Slot) (token : Text) :
    slot.operand? token = (slot.kindOf? token).map (Operand.ofToken · token) := by
  cases slot with
  | var => exact verbatim?_eq (by decide)
  | label => exact verbatim?_eq (by decide)
  | type => exact verbatim?_eq (by decide)
  | symb => rfl

theorem denotes_of_accepts {slot : Slot} {kind : Kind} {token : Text} (hkind : kind ∈ slot.kinds)
    (h : kind.accepts token) : Denotes slot token (Operand.ofToken kind token) := by
  cases slot with
  | var =>
      rw [Slot.kinds, List.mem_singleton] at hkind
      subst kind
      exact .var (accepts_var_iff.mp h)
  | label =>
      rw [Slot.kinds, List.mem_singleton] at hkind
      subst kind
      rw [Operand.ofToken, valueOf_of_bare (by decide) h]
      exact .label (isIdentifier_iff.mp h)
  | type =>
      rw [Slot.kinds, List.mem_singleton] at hkind
      subst kind
      rw [Operand.ofToken, valueOf_of_bare (by decide) h]
      exact .type (List.contains_iff_mem.mp h)
  | symb =>
      simp only [Slot.kinds, List.mem_cons, List.not_mem_nil, or_false] at hkind
      rcases hkind with rfl | rfl | rfl | rfl | rfl
      · exact .symbVar (accepts_var_iff.mp h)
      · obtain ⟨rest, hrest, rfl, hmark⟩ := isTagged_singleton h
        simp only [Operand.ofToken, Kind.valueOf, payload_append_cons hmark]
        exact .int (isNumeral_iff.mp hrest)
      · obtain ⟨rest, hrest, rfl, hmark⟩ := isTagged_singleton h
        simp only [Operand.ofToken, Kind.valueOf, payload_append_cons hmark]
        exact .bool (List.contains_iff_mem.mp hrest)
      · obtain ⟨rest, hrest, rfl, hmark⟩ := isTagged_singleton h
        simp only [Operand.ofToken, Kind.valueOf, payload_append_cons hmark,
          escapeEntities_eq_flatMap]
        exact .string (isWellEscaped_iff.mp hrest)
      · obtain ⟨rest, hrest, rfl, hmark⟩ := isTagged_singleton h
        have hnil : rest = "nil".toList := by simpa using hrest
        subst rest
        exact .nil

theorem exists_kind_of_denotes {slot : Slot} {token : Text} {operand : Operand}
    (h : Denotes slot token operand) :
    ∃ kind ∈ slot.kinds, kind.accepts token ∧ Operand.ofToken kind token = operand := by
  cases h with
  | var h => exact ⟨.var, by decide, accepts_var_iff.mpr h, rfl⟩
  | symbVar h => exact ⟨.var, by decide, accepts_var_iff.mpr h, rfl⟩
  | label h =>
      have haccepts : Kind.label.accepts token := isIdentifier_iff.mpr h
      exact ⟨.label, by decide, haccepts, congrArg _ (valueOf_of_bare (by decide) haccepts)⟩
  | type h =>
      have haccepts : Kind.type.accepts token := List.contains_iff_mem.mpr h
      exact ⟨.type, by decide, haccepts, congrArg _ (valueOf_of_bare (by decide) haccepts)⟩
  | @int value h =>
      have hmark : tagMark ∉ "int".toList := by decide
      refine ⟨.int, by decide, ?_, congrArg _ (payload_append_cons hmark)⟩
      exact (isTagged_append hmark _ value).trans (isNumeral_iff.mpr h)
  | @bool value h =>
      have hmark : tagMark ∉ "bool".toList := by decide
      refine ⟨.bool, by decide, ?_, congrArg _ (payload_append_cons hmark)⟩
      exact (isTagged_append hmark _ value).trans (List.contains_iff_mem.mpr h)
  | nil => exact ⟨.nil, by decide, by decide, by decide⟩
  | @string value h =>
      have hmark : tagMark ∉ "string".toList := by decide
      refine ⟨.string, by decide, ?_, ?_⟩
      · exact (isTagged_append hmark _ value).trans (isWellEscaped_iff.mpr h)
      · rw [← escapeEntities_eq_flatMap]
        exact congrArg (fun rest => Operand.mk .string (escapeEntities rest))
          (payload_append_cons hmark)

theorem tag_mem_of_accepts {kind : Kind} {token : Text} (hkind : kind ∈ Slot.symb.kinds)
    (h : kind.accepts token) :
    ∃ tag ∈ kind.tags, ∃ rest, cutAt? tagMark token = some (tag, rest) := by
  have htagged : ∃ test, isTagged kind.tags test token := by
    simp only [Slot.kinds, List.mem_cons, List.not_mem_nil, or_false] at hkind
    rcases hkind with rfl | rfl | rfl | rfl | rfl <;> exact ⟨_, h⟩
  obtain ⟨test, htest⟩ := htagged
  obtain ⟨tag, htag, rest, -, hsplit⟩ := isTagged_eq_true_iff.mp htest
  exact ⟨tag, htag, rest, cutAt?_eq_some_iff.mpr hsplit⟩

theorem accepts_unique {slot : Slot} {token : Text} {kind kind' : Kind}
    (hkind : kind ∈ slot.kinds) (hkind' : kind' ∈ slot.kinds) (h : kind.accepts token)
    (h' : kind'.accepts token) : kind = kind' := by
  have single : ∀ {only : Kind}, slot.kinds = [only] → kind = kind' := by
    intro only honly
    rw [honly, List.mem_singleton] at hkind hkind'
    rw [hkind, hkind']
  cases slot with
  | var => exact single rfl
  | label => exact single rfl
  | type => exact single rfl
  | symb =>
      obtain ⟨tag, htag, rest, hcut⟩ := tag_mem_of_accepts hkind h
      obtain ⟨tag', htag', rest', hcut'⟩ := tag_mem_of_accepts hkind' h'
      have hsame : tag' = tag := by
        rw [hcut] at hcut'
        simp only [Option.some.injEq, Prod.mk.injEq] at hcut'
        exact hcut'.1.symm
      have disjoint : ∀ kind ∈ Slot.symb.kinds, ∀ kind' ∈ Slot.symb.kinds,
          ∀ tag ∈ kind.tags, tag ∈ kind'.tags → kind = kind' := by decide
      exact disjoint kind hkind kind' hkind' tag htag (hsame ▸ htag')

theorem kindOf?_eq_some_iff {slot : Slot} {token : Text} {kind : Kind} :
    slot.kindOf? token = some kind ↔ kind ∈ slot.kinds ∧ kind.accepts token := by
  constructor
  · intro h
    exact ⟨Slot.kindOf?_mem_kinds h, Slot.accepts_of_kindOf? h⟩
  · rintro ⟨hkind, haccepts⟩
    have hsome : (slot.kindOf? token).isSome := Slot.kindOf?_isSome_iff.mpr ⟨kind, hkind, haccepts⟩
    obtain ⟨found, hfound⟩ := Option.isSome_iff_exists.mp hsome
    have hunique : found = kind := accepts_unique (Slot.kindOf?_mem_kinds hfound) hkind
      (Slot.accepts_of_kindOf? hfound) haccepts
    rw [hfound, hunique]

/-- A slot takes exactly the tokens of its language and stores what they denote there. -/
theorem operand?_eq_some_iff {slot : Slot} {token : Text} {operand : Operand} :
    slot.operand? token = some operand ↔ Denotes slot token operand := by
  rw [operand?_eq_ofToken, Option.map_eq_some_iff]
  constructor
  · rintro ⟨kind, hkind, rfl⟩
    exact denotes_of_accepts (Slot.kindOf?_mem_kinds hkind) (Slot.accepts_of_kindOf? hkind)
  · intro h
    obtain ⟨kind, hkind, haccepts, hoperand⟩ := exists_kind_of_denotes h
    exact ⟨kind, kindOf?_eq_some_iff.mpr ⟨hkind, haccepts⟩, hoperand⟩

end IppCode.Grammar
