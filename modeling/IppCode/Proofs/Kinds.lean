import IppCode.Proofs.Words

namespace IppCode.Grammar

variable {token : Text} {kind kind' : Kind}

theorem mark_mem_of_accepts (hkind : kind ∈ Slot.symb.kinds) (h : kind.accepts token) :
    tagMark ∈ token := by
  obtain ⟨tag, -, rest, hcut⟩ := tag_mem_of_accepts hkind h
  rw [(cutAt?_eq_some_iff.mp hcut).1]
  exact List.mem_append_right tag List.mem_cons_self

theorem label_of_type (h : Kind.type.accepts token) : Kind.label.accepts token := by
  have hall : ∀ name ∈ typeNames, Kind.label.accepts name := by decide
  exact hall token (List.contains_iff_mem.mp h)

theorem mark_not_mem_of_label (h : Kind.label.accepts token) : tagMark ∉ token :=
  mark_not_mem_of_identifier (isIdentifier_iff.mp h)

theorem eq_of_accepts (hkind : kind ∈ Slot.symb.kinds ++ Slot.label.kinds)
    (hkind' : kind' ∈ Slot.symb.kinds ++ Slot.label.kinds) (h : kind.accepts token)
    (h' : kind'.accepts token) : kind = kind' := by
  have hlabel : ∀ {kind : Kind}, kind ∈ Slot.label.kinds → kind.accepts token →
      tagMark ∉ token := by
    intro kind hkind h
    rw [Slot.kinds, List.mem_singleton] at hkind
    subst hkind
    exact mark_not_mem_of_label h
  rcases List.mem_append.mp hkind with hsymb | hbare
  · rcases List.mem_append.mp hkind' with hsymb' | hbare'
    · exact accepts_unique hsymb hsymb' h h'
    · exact absurd (mark_mem_of_accepts hsymb h) (hlabel hbare' h')
  · rcases List.mem_append.mp hkind' with hsymb' | hbare'
    · exact absurd (mark_mem_of_accepts hsymb' h') (hlabel hbare h)
    · exact accepts_unique hbare hbare' h h'

theorem classify_eq_some_iff :
    classify token = some kind ↔ kind ∈ Slot.symb.kinds ∧ kind.accepts token :=
  kindOf?_eq_some_iff

theorem find?_accepts_eq_classify {order : List Kind} (horder : order.Perm Slot.symb.kinds) :
    order.find? (·.accepts token) = classify token := by
  have htried : ∀ found, order.find? (·.accepts token) = some found →
      found ∈ Slot.symb.kinds ∧ found.accepts token := by
    intro found hfound
    refine ⟨horder.mem_iff.mp (List.mem_of_find?_eq_some hfound), ?_⟩
    simpa using List.find?_some hfound
  apply Option.ext
  intro kind
  rw [classify_eq_some_iff]
  constructor
  · exact htried kind
  · rintro ⟨hkind, haccepts⟩
    have hsome : (order.find? (·.accepts token)).isSome :=
      List.find?_isSome.mpr ⟨kind, horder.mem_iff.mpr hkind, haccepts⟩
    obtain ⟨found, hfound⟩ := Option.isSome_iff_exists.mp hsome
    -- Whatever comes first in this order, it can only be the one kind that accepts the token.
    obtain ⟨hmem, haccepts'⟩ := htried found hfound
    rw [hfound, accepts_unique hmem hkind haccepts' haccepts]

theorem operand?_isSome_iff {slot : Slot} :
    (slot.operand? token).isSome ↔ ∃ kind ∈ slot.kinds, kind.accepts token := by
  rw [operand?_eq_ofToken, Option.isSome_map, Slot.kindOf?_isSome_iff]

theorem not_symb_of_bare {slot : Slot} (hslot : slot ∈ [Slot.label, Slot.type])
    (h : (slot.operand? token).isSome) : ¬ (Slot.symb.operand? token).isSome := by
  have hlabel : Kind.label.accepts token := by
    obtain ⟨kind, hkind, haccepts⟩ := operand?_isSome_iff.mp h
    rcases List.mem_cons.mp hslot with rfl | hslot
    · rw [Slot.kinds, List.mem_singleton] at hkind
      exact hkind ▸ haccepts
    · rw [List.mem_singleton] at hslot
      subst hslot
      rw [Slot.kinds, List.mem_singleton] at hkind
      exact label_of_type (hkind ▸ haccepts)
  intro hsymb
  obtain ⟨kind, hkind, haccepts⟩ := operand?_isSome_iff.mp hsymb
  exact mark_not_mem_of_label hlabel (mark_mem_of_accepts hkind haccepts)

theorem operand?_symb_of_var {operand : Operand} (h : Slot.var.operand? token = some operand) :
    operand = ⟨.var, token⟩ ∧ Slot.symb.operand? token = some operand := by
  rw [operand?_eq_some_iff] at h
  cases h with
  | var hvariable => exact ⟨rfl, operand?_eq_some_iff.mpr (.symbVar hvariable)⟩

/-- A token belongs to at most one of the five kinds of symbol and the labels, so that the kind
found for it is the one that accepts it, whatever the order of trial. A type name can stand as a
label. Labels and type names never fit where a symbol is expected, and a variable gives the same
operand there as in a slot of its own. -/
theorem kinds_apart (token : Text) :
    (∀ kind ∈ [Kind.var, .int, .bool, .string, .nil, .label],
      ∀ kind' ∈ [Kind.var, .int, .bool, .string, .nil, .label],
        kind.accepts token → kind'.accepts token → kind = kind') ∧
      (∀ kind, classify token = some kind ↔
        kind ∈ [Kind.var, .int, .bool, .string, .nil] ∧ kind.accepts token) ∧
      (∀ order : List Kind, order.Perm [.var, .int, .bool, .string, .nil] →
        order.find? (·.accepts token) = classify token) ∧
      ((classify token).isSome ↔
        ∃ kind ∈ [Kind.var, .int, .bool, .string, .nil], kind.accepts token) ∧
      (Kind.type.accepts token → Kind.label.accepts token) ∧
      (∀ slot ∈ [Slot.label, .type],
        ¬ ((slot.operand? token).isSome ∧ (Slot.symb.operand? token).isSome)) ∧
      ∀ operand, Slot.var.operand? token = some operand →
        operand = ⟨.var, token⟩ ∧ Slot.symb.operand? token = some operand := by
  refine ⟨?_, fun _ => classify_eq_some_iff, fun _ => find?_accepts_eq_classify,
    Slot.kindOf?_isSome_iff, label_of_type, ?_, fun _ => operand?_symb_of_var⟩
  · intro kind hkind kind' hkind' h h'
    exact eq_of_accepts hkind hkind' h h'
  · rintro slot hslot ⟨hbare, hsymb⟩
    exact not_symb_of_bare hslot hbare hsymb

theorem kinds_apart_of_tokens :
    Kind.string.accepts "string@int@1".toList ∧
      [Kind.nil, .string, .bool, .int, .var].find? (·.accepts "string@int@1".toList) =
        some .string ∧
      Kind.type.accepts "int".toList ∧ Kind.label.accepts "int".toList ∧
      Slot.var.operand? "GF@int".toList = some ⟨.var, "GF@int".toList⟩ ∧
      Slot.symb.operand? "GF@int".toList = some ⟨.var, "GF@int".toList⟩ := by
  obtain ⟨-, hclassify, horder, -⟩ := kinds_apart "string@int@1".toList
  obtain ⟨-, -, -, -, hlabel, -⟩ := kinds_apart "int".toList
  obtain ⟨-, -, -, -, -, -, hsymb⟩ := kinds_apart "GF@int".toList
  have hstring : Kind.string.accepts "string@int@1".toList := by decide
  have htype : Kind.type.accepts "int".toList := by decide
  have hvar : Slot.var.operand? "GF@int".toList = some ⟨.var, "GF@int".toList⟩ := by decide
  refine ⟨hstring, ?_, htype, hlabel htype, hvar, (hsymb _ hvar).2⟩
  rw [horder _ (by decide)]
  exact (hclassify .string).mpr ⟨by decide, hstring⟩

end IppCode.Grammar
