namespace IppCode

/-- Tokens, names, values and messages are lists of characters. -/
abbrev Text := List Char

/-- A property of all characters of a text is decided by looking at these only. -/
instance {property : Char → Prop} [DecidablePred property] (text : Text) :
    Decidable (∀ c ∈ text, property c) :=
  List.decidableBAll property text

/-- The parts before and after the first separator, or nothing when there is no separator. -/
def cutAt? (sep : Char) (text : Text) : Option (Text × Text) :=
  match text.dropWhile (· != sep) with
  | [] => none
  | _ :: rest => some (text.takeWhile (· != sep), rest)

/-- Remove the last character if it is the given one. -/
def dropFinal (final : Char) (text : Text) : Text :=
  if text.getLast? = some final then text.dropLast else text

/-- The decimal numeral of a number, without leading zeros. -/
def decimal (n : Nat) : Text := Nat.toDigits 10 n

/-- A text between backquotes, as messages show user text. -/
def quoted (text : Text) : Text := "`".toList ++ text ++ "`".toList

theorem dropWhile_ne_append_cons {sep : Char} {before after : Text} (h : sep ∉ before) :
    (before ++ sep :: after).dropWhile (· != sep) = sep :: after := by
  induction before with
  | nil => simp
  | cons c rest ih =>
      simp only [List.mem_cons, not_or] at h
      simp [ih h.2, Ne.symm h.1]

theorem takeWhile_ne_append_cons {sep : Char} {before after : Text} (h : sep ∉ before) :
    (before ++ sep :: after).takeWhile (· != sep) = before := by
  induction before with
  | nil => simp
  | cons c rest ih =>
      simp only [List.mem_cons, not_or] at h
      simp [ih h.2, Ne.symm h.1]

theorem cutAt?_append_cons {sep : Char} {before after : Text} (h : sep ∉ before) :
    cutAt? sep (before ++ sep :: after) = some (before, after) := by
  simp only [cutAt?, dropWhile_ne_append_cons h, takeWhile_ne_append_cons h]

theorem cutAt?_eq_none_iff {sep : Char} {text : Text} : cutAt? sep text = none ↔ sep ∉ text := by
  induction text with
  | nil => simp [cutAt?]
  | cons c rest ih =>
      by_cases h : c = sep
      · simp [cutAt?, h]
      · have hne : sep ≠ c := fun e => h e.symm
        simp only [List.mem_cons, hne, false_or, ← ih]
        simp only [cutAt?, List.dropWhile_cons, bne_iff_ne, ne_eq, h, not_false_eq_true, ite_true]
        cases rest.dropWhile (· != sep) <;> simp

/-- A cut joins back to the text, and its first part is free of the separator. -/
theorem cutAt?_eq_some_iff {sep : Char} {text before after : Text} :
    cutAt? sep text = some (before, after) ↔ text = before ++ sep :: after ∧ sep ∉ before := by
  constructor
  · intro h
    have hmem : sep ∈ text := by
      by_cases hm : sep ∈ text
      · exact hm
      · simp [cutAt?_eq_none_iff.2 hm] at h
    obtain ⟨xs, ys, rfl, hx⟩ := List.eq_append_cons_of_mem hmem
    rw [cutAt?_append_cons hx] at h
    simp only [Option.some.injEq, Prod.mk.injEq] at h
    exact ⟨by rw [h.1, h.2], h.1 ▸ hx⟩
  · rintro ⟨rfl, h⟩
    exact cutAt?_append_cons h

end IppCode
