import IppCode.Proofs.Reading
import IppCode.Proofs.Signatures

namespace IppCode

/-- The words of a statement as they stand on its line. -/
def Statement.words (statement : Statement) : List Text := statement.name :: statement.operands

theorem Statement.words_injective : Function.Injective Statement.words := by
  rintro ⟨name, operands⟩ ⟨name', operands'⟩ h
  simp only [words, List.cons.injEq] at h
  rw [h.1, h.2]

theorem map_words_statements (texts : List Text) :
    (statements texts).map Statement.words = (texts.map Line.tokens).filter (· ≠ []) := by
  induction texts with
  | nil => rfl
  | cons text texts ih =>
      unfold statements at ih ⊢
      cases hline : Statement.ofLine? text with
      | none =>
          have htokens := Statement.ofLine?_eq_none_iff.mp hline
          rw [List.filterMap_cons_none hline, ih, List.map_cons, List.filter_cons_of_neg]
          simp [htokens]
      | some statement =>
          have htokens := Statement.ofLine?_eq_some_iff.mp hline
          rw [List.filterMap_cons_some hline, List.map_cons, ih, List.map_cons,
            List.filter_cons_of_pos]
          · rw [htokens, Statement.words]
          · simp [htokens]

theorem statements_eq_cons_iff {texts : List Text} {first : Statement} {later : List (List Text)} :
    (∃ rest, statements texts = first :: rest ∧ rest.map Statement.words = later) ↔
      (texts.map Line.tokens).filter (· ≠ []) = first.words :: later := by
  rw [← map_words_statements]
  constructor
  · rintro ⟨rest, hstatements, rfl⟩
    rw [hstatements, List.map_cons]
  · intro h
    obtain ⟨first', rest, hstatements, hfirst, hrest⟩ := List.map_eq_cons_iff.mp h
    rw [Statement.words_injective hfirst] at hstatements
    exact ⟨rest, hstatements, hrest⟩

theorem assembles_iff {order : Nat} {rest : List Statement} {instructions : List Instruction} :
    Assembles order rest instructions ↔
      instructions.map Instruction.order = List.range' order rest.length ∧
        List.Forall₂ (fun statement instruction =>
          statement.operation = .ok instruction.toOperation) rest instructions := by
  constructor
  · intro h
    induction h with
    | nil => exact ⟨rfl, .nil⟩
    | cons hhead _ ih =>
        refine ⟨?_, .cons hhead ih.2⟩
        rw [List.map_cons, ih.1, List.length_cons, List.range'_succ]
  · rintro ⟨horders, hmade⟩
    induction hmade generalizing order with
    | nil => exact .nil
    | @cons statement instruction rest instructions hhead _ ih =>
        rw [List.map_cons, List.length_cons, List.range'_succ, List.cons.injEq] at horders
        obtain ⟨operation, order'⟩ := instruction
        obtain ⟨rfl, htail⟩ := horders
        exact .cons hhead (ih htail)

/-- A source is accepted exactly when all of its lines are text, the first line with tokens is the
header, and every later line with tokens means an operation. Its program then lists these
operations in the order of the lines, numbered from one on. -/
theorem Source.program_eq_ok_iff (bytes : Bytes) (program : Program) :
    Source.program ⟨bytes, none⟩ = .ok program ↔
      ∃ (texts : List Text) (later : List (List Text)),
        Source.lines ⟨bytes, none⟩ = texts.map .ok ∧
        (texts.map Line.tokens).filter (· ≠ []) = [".IPPcode22".toList] :: later ∧
        program.language = "IPPcode22".toList ∧
        program.instructions.toList.map Instruction.order = List.range' 1 later.length ∧
        List.Forall₂ (fun tokens instruction => Grammar.Means tokens instruction.toOperation) later
          program.instructions.toList := by
  have hheader : header.words = [".IPPcode22".toList] := by decide
  rw [Source.program_eq_ok_iff_statements]
  constructor
  · rintro ⟨texts, rest, htexts, hstatements, hassembles⟩
    obtain ⟨horders, hmade⟩ := assembles_iff.mp hassembles
    refine ⟨texts, rest.map Statement.words, htexts, ?_, rfl, ?_, ?_⟩
    · rw [← hheader]
      exact statements_eq_cons_iff.mp ⟨rest, hstatements, rfl⟩
    · rw [horders, List.length_map]
    · rw [List.forall₂_map_left_iff]
      exact hmade.imp fun _ _ hoperation => Grammar.operation_eq_ok_iff.mp hoperation
  · rintro ⟨texts, later, htexts, htokens, -, horders, hmeans⟩
    rw [← hheader] at htokens
    obtain ⟨rest, hstatements, rfl⟩ := statements_eq_cons_iff.mpr htokens
    rw [List.length_map] at horders
    rw [List.forall₂_map_left_iff] at hmeans
    refine ⟨texts, rest, htexts, hstatements, assembles_iff.mpr ⟨horders, ?_⟩⟩
    exact hmeans.imp fun _ _ hoperation => Grammar.operation_eq_ok_iff.mpr hoperation

end IppCode
