import IppCode.Proofs.Canonical
import IppCode.Proofs.EscapeScan
import Mathlib.Data.List.Infix

namespace IppCode.Grammar

/-- Text in which neither entity stands. -/
def EntityFree (text : Text) : Prop := ¬ "&lt;".toList <:+: text ∧ ¬ "&gt;".toList <:+: text

instance (text : Text) : Decidable (EntityFree text) :=
  inferInstanceAs (Decidable (¬ "&lt;".toList <:+: text ∧ ¬ "&gt;".toList <:+: text))

/-- A substitution cuts the text at every occurrence and joins the pieces by the replacement. -/
theorem substitute_eq_intercalate (target : Char) (replacement text : Text) :
    substitute target replacement text = replacement.intercalate (text.splitOn target) := by
  induction text with
  | nil => rfl
  | cons c text ih =>
      have hcons : substitute target replacement (c :: text) =
          (if c = target then replacement else [c]) ++ substitute target replacement text :=
        List.flatMap_cons
      have hpieces : text.splitOn target ≠ [] := List.splitOn_ne_nil target text
      rw [hcons, ih, List.splitOn_cons_eq_if_modifyHead]
      by_cases hc : c = target
      · rw [if_pos hc, if_pos (beq_iff_eq.mpr hc), List.intercalate_cons_of_ne_nil hpieces]
        rfl
      · obtain ⟨piece, pieces, hsplit⟩ := List.exists_cons_of_ne_nil hpieces
        rw [if_neg hc, if_neg (mt beq_iff_eq.mp hc), hsplit, List.modifyHead_cons,
          List.intercalate_cons_cons_left]
        rfl

section Front

variable {c bracket : Char} {text rest : Text}

theorem exists_entity_eq_of_bracket (h : bracket ∈ ['<', '>']) :
    ∃ name, entity bracket = '&' :: name ∧ '&' ∉ name := by
  simp only [List.mem_cons, List.not_mem_nil, or_false] at h
  rcases h with rfl | rfl
  · exact ⟨"lt;".toList, rfl, by decide⟩
  · exact ⟨"gt;".toList, rfl, by decide⟩

theorem entity_ne_nil (c : Char) : entity c ≠ [] := by
  by_cases hc : c ∈ ['<', '>']
  · obtain ⟨name, hname, -⟩ := exists_entity_eq_of_bracket hc
    rw [hname]
    exact List.cons_ne_nil '&' name
  · rw [entity_of_not_bracket hc]
    exact List.cons_ne_nil c []

/-- Any character but an ampersand at the front of a written text is the first of the text. -/
theorem exists_of_flatMap_entity_eq_cons (hc : c ≠ '&') (h : text.flatMap entity = c :: rest) :
    ∃ later, text = c :: later ∧ later.flatMap entity = rest := by
  cases text with
  | nil => cases h
  | cons first later =>
      have hplain : first ∉ ['<', '>'] := by
        intro hbracket
        obtain ⟨name, hname, -⟩ := exists_entity_eq_of_bracket hbracket
        rw [List.flatMap_cons, hname] at h
        exact hc (List.cons.inj h).1.symm
      rw [List.flatMap_cons, entity_of_not_bracket hplain] at h
      obtain ⟨rfl, hrest⟩ := List.cons.inj h
      exact ⟨later, rfl, hrest⟩

theorem exists_of_flatMap_entity_eq_append {word : Text} (hword : '&' ∉ word)
    (h : text.flatMap entity = word ++ rest) :
    ∃ later, text = word ++ later ∧ later.flatMap entity = rest := by
  induction word generalizing text with
  | nil => exact ⟨text, rfl, h⟩
  | cons c word ih =>
      rw [List.mem_cons, not_or] at hword
      obtain ⟨behind, rfl, hbehind⟩ := exists_of_flatMap_entity_eq_cons (Ne.symm hword.1) h
      obtain ⟨later, rfl, hlater⟩ := ih hword.2 hbehind
      exact ⟨later, rfl, hlater⟩

end Front

namespace EntityFree

variable {c bracket : Char} {text other rest : Text}

theorem not_infix (h : EntityFree text) (hbracket : bracket ∈ ['<', '>']) :
    ¬ entity bracket <:+: text := by
  simp only [List.mem_cons, List.not_mem_nil, or_false] at hbracket
  rcases hbracket with rfl | rfl
  · exact h.1
  · exact h.2

theorem tail (h : EntityFree (c :: text)) : EntityFree text :=
  ⟨fun hlt => h.1 (List.infix_cons hlt), fun hgt => h.2 (List.infix_cons hgt)⟩

theorem first_eq (h : EntityFree (c :: text)) (hbracket : bracket ∈ ['<', '>'])
    (hwritten : (c :: text).flatMap entity = entity bracket ++ rest) : c = bracket := by
  rw [List.flatMap_cons] at hwritten
  by_cases hc : c ∈ ['<', '>']
  · have hlength : ∀ c ∈ ['<', '>'], (entity c).length = 4 := by decide
    have hinjective : ∀ c ∈ ['<', '>'], ∀ d ∈ ['<', '>'], entity c = entity d → c = d := by decide
    apply hinjective c hc bracket hbracket
    exact List.append_inj_left hwritten ((hlength c hc).trans (hlength bracket hbracket).symm)
  · -- Otherwise the whole entity is spelled out in the text itself.
    obtain ⟨name, hname, hampersand⟩ := exists_entity_eq_of_bracket hbracket
    rw [entity_of_not_bracket hc, hname] at hwritten
    obtain ⟨rfl, hbehind⟩ := List.cons.inj hwritten
    obtain ⟨later, rfl, -⟩ := exists_of_flatMap_entity_eq_append hampersand hbehind
    refine absurd ?_ (h.not_infix hbracket)
    rw [hname]
    exact (List.prefix_append ('&' :: name) later).isInfix

theorem eq_of_flatMap_entity_eq (htext : EntityFree text) (hother : EntityFree other)
    (h : text.flatMap entity = other.flatMap entity) : text = other := by
  induction text generalizing other with
  | nil =>
      cases other with
      | nil => rfl
      | cons d other => simp [entity_ne_nil] at h
  | cons c text ih =>
      cases other with
      | nil => simp [entity_ne_nil] at h
      | cons d other =>
          obtain rfl : c = d := by
            by_cases hc : c ∈ ['<', '>']
            · exact (hother.first_eq hc h.symm).symm
            · by_cases hd : d ∈ ['<', '>']
              · exact htext.first_eq hd h
              · rw [List.flatMap_cons, List.flatMap_cons, entity_of_not_bracket hc,
                  entity_of_not_bracket hd] at h
                exact (List.cons.inj h).1
          rw [List.flatMap_cons, List.flatMap_cons] at h
          rw [ih htext.tail hother.tail (List.append_cancel_left h)]

-- Spelled out in the text, an entity is not told apart from the bracket it stands for.
example : escapeEntities "&lt;".toList = escapeEntities "<".toList := by decide

end EntityFree

theorem Coded.ampersand_not_mem {a b c : Char} (h : Coded a b c) : '&' ∉ [a, b, c] := by
  have hdigit : ¬ Digit '&' := by simp [Digit]
  obtain ⟨ha, hb, hc, -⟩ := h
  simp only [List.mem_cons, List.not_mem_nil, or_false]
  rintro (rfl | rfl | rfl)
  · exact hdigit ha
  · exact hdigit hb
  · exact hdigit hc

theorem isWellEscaped_of_flatMap_entity {text : Text} (h : isWellEscaped (text.flatMap entity)) :
    isWellEscaped text := by
  induction hlength : text.length using Nat.strong_induction_on generalizing text with
  | h n ih =>
      cases text with
      | nil => rfl
      | cons c text =>
          rw [List.flatMap_cons] at h
          by_cases hc : c = '\\'
          · subst hc
            obtain ⟨a, b, d, rest, htext, hcoded, hrest⟩ := isWellEscaped_backslash_iff.mp h
            -- Digits in the written text are digits of the text, so the sequence was there before.
            obtain ⟨later, rfl, rfl⟩ :=
              exists_of_flatMap_entity_eq_append hcoded.ampersand_not_mem htext
            refine isWellEscaped_backslash_iff.mpr ⟨a, b, d, later, rfl, hcoded, ?_⟩
            refine ih later.length ?_ hrest rfl
            simp only [← hlength, List.length_cons, List.length_append]
            omega
          · rw [isWellEscaped_append (isWellEscaped_iff.mpr (escaped_entity hc))] at h
            rw [isWellEscaped_cons_of_ne hc]
            exact ih text.length (by simp [← hlength]) h rfl

theorem isWellEscaped_flatMap_entity (text : Text) :
    isWellEscaped (text.flatMap entity) = isWellEscaped text := by
  apply Bool.eq_iff_iff.mpr
  constructor
  · exact isWellEscaped_of_flatMap_entity
  · intro h
    exact isWellEscaped_iff.mpr (isWellEscaped_iff.mp h).flatMap_entity

/-- Writing entities in two passes, each of which joins by the entity what it has cut at the
bracket, replaces the brackets all at once and leaves none. A second time it changes nothing, and
what stands side by side is written side by side. Texts without entities are written alike only if
they are equal, and the escape sequences of any text, sound or broken, are found so again. -/
theorem escapeEntities_replaces_brackets (text : Text) :
    escapeEntities text =
        "&gt;".toList.intercalate (("&lt;".toList.intercalate (text.splitOn '<')).splitOn '>') ∧
      escapeEntities text = text.flatMap entity ∧
      '<' ∉ escapeEntities text ∧ '>' ∉ escapeEntities text ∧
      escapeEntities (escapeEntities text) = escapeEntities text ∧
      (∀ other, escapeEntities (text ++ other) = escapeEntities text ++ escapeEntities other) ∧
      (EntityFree text → ∀ other, EntityFree other →
        (escapeEntities text = escapeEntities other ↔ text = other)) ∧
      isWellEscaped (escapeEntities text) = isWellEscaped text ∧
      scanEscapes (toUtf8 (escapeEntities text)) = scanEscapes (toUtf8 text) := by
  have hwritten := escapeEntities_eq_flatMap text
  obtain ⟨hlt, hgt⟩ : '<' ∉ escapeEntities text ∧ '>' ∉ escapeEntities text :=
    hwritten ▸ bracket_not_mem_flatMap_entity text
  have hescaped : isWellEscaped (escapeEntities text) = isWellEscaped text := by
    rw [hwritten, isWellEscaped_flatMap_entity]
  refine ⟨?_, hwritten, hlt, hgt, escapeEntities_of_not_mem hlt hgt, escapeEntities_append text,
    ?_, hescaped, ?_⟩
  · rw [escapeEntities, substitute_eq_intercalate, substitute_eq_intercalate]
  · intro htext other hother
    constructor
    · intro h
      rw [hwritten, escapeEntities_eq_flatMap] at h
      exact htext.eq_of_flatMap_entity_eq hother h
    · exact congrArg escapeEntities
  · rw [scanEscapes_toUtf8, scanEscapes_toUtf8, hescaped]

theorem escapeEntities_replaces_brackets_of_split_entity :
    EntityFree "&<lt;".toList ∧ EntityFree "&lt<;".toList ∧
      escapeEntities "&<lt;".toList ≠ escapeEntities "&lt<;".toList ∧
      ¬ scanEscapes (toUtf8 (escapeEntities "\\06<\\065".toList)) := by
  have hfree : EntityFree "&<lt;".toList := by decide
  have hfree' : EntityFree "&lt<;".toList := by decide
  obtain ⟨-, -, -, -, -, -, hinjective, -⟩ := escapeEntities_replaces_brackets "&<lt;".toList
  obtain ⟨-, -, -, -, -, -, -, hescaped, -⟩ :=
    escapeEntities_replaces_brackets "\\06<\\065".toList
  refine ⟨hfree, hfree', ?_, ?_⟩
  · intro h
    exact absurd ((hinjective hfree _ hfree').mp h) (by decide)
  · rw [scanEscapes_toUtf8, hescaped]
    decide

end IppCode.Grammar
