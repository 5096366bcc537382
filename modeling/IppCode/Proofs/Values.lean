import IppCode.Proofs.Canonical

namespace IppCode

theorem mem_and_not_of_mem_splitOnP {α : Type} {test : α → Bool} {list piece : List α} {a : α}
    (hpiece : piece ∈ list.splitOnP test) (ha : a ∈ piece) : a ∈ list ∧ test a = false := by
  induction list generalizing piece with
  | nil =>
      rw [List.splitOnP_nil, List.mem_singleton] at hpiece
      rw [hpiece] at ha
      cases ha
  | cons b rest ih =>
      have htail : ∀ {piece}, piece ∈ rest.splitOnP test → a ∈ piece →
          a ∈ b :: rest ∧ test a = false := by
        intro piece hpiece ha
        obtain ⟨hmem, htest⟩ := ih hpiece ha
        exact ⟨List.mem_cons_of_mem b hmem, htest⟩
      rw [List.splitOnP_cons_eq_if_modifyHead] at hpiece
      split at hpiece
      · rcases List.mem_cons.mp hpiece with rfl | hpiece
        · cases ha
        · exact htail hpiece ha
      · rename_i hb
        obtain ⟨first, others, hsplit⟩ :=
          List.exists_cons_of_ne_nil (List.splitOnP_ne_nil test rest)
        rw [hsplit, List.modifyHead_cons, List.mem_cons] at hpiece
        rcases hpiece with rfl | hpiece
        · rcases List.mem_cons.mp ha with rfl | ha
          · exact ⟨List.mem_cons_self, by simpa using hb⟩
          · exact htail (hsplit ▸ List.mem_cons_self) ha
        · exact htail (hsplit ▸ List.mem_cons_of_mem first hpiece) ha

theorem Line.mem_of_mem_tokens {line token : Text} {c : Char} (htoken : token ∈ Line.tokens line)
    (hc : c ∈ token) : c ∈ line := by
  have hpiece : token ∈ (Line.code line).splitOnP Line.isBlank := (List.mem_filter.mp htoken).1
  have hcode : c ∈ Line.code line := (mem_and_not_of_mem_splitOnP hpiece hc).1
  have hbody : c ∈ Line.body line := (List.takeWhile_sublist _).subset hcode
  have hreverse : c ∈ line.reverse.dropWhile Line.isTerminator := List.mem_reverse.mp hbody
  exact List.mem_reverse.mp ((List.dropWhile_sublist _).subset hreverse)

theorem lineFeed_not_mem_pieces {bytes piece : Bytes} (h : piece ∈ pieces bytes) :
    lineFeed ∉ piece := by
  intro hmem
  have htest := (mem_and_not_of_mem_splitOnP h hmem).2
  simp at htest

theorem lineFeed_mem_toUtf8 {text : Text} (h : '\n' ∈ text) : lineFeed ∈ toUtf8 text := by
  have hbyte : lineFeed ∈ String.utf8EncodeChar '\n' := by decide
  exact List.mem_flatMap.mpr ⟨'\n', h, hbyte⟩

theorem lineFeed_not_mem_of_readLine {bytes : Bytes} {text : Text} (hbytes : lineFeed ∉ bytes)
    (h : readLine bytes = .ok text) : '\n' ∉ text := by
  unfold readLine at h
  split at h
  · rename_i decoded hdecoded
    cases h
    rw [ofUtf8?_eq_some_iff.mp hdecoded] at hbytes
    exact fun hmem => hbytes (lineFeed_mem_toUtf8 hmem)
  · cases h

theorem mem_of_mem_dropFinal {final c : Char} {text : Text} (h : c ∈ dropFinal final text) :
    c ∈ text := by
  unfold dropFinal at h
  split at h
  · exact (List.dropLast_sublist text).subset h
  · exact h

theorem Source.lineFeed_not_mem_line {source : Source} {text : Text}
    (h : .ok text ∈ source.lines) : '\n' ∉ text := by
  rcases List.mem_append.mp h with hterminated | hending
  · obtain ⟨piece, hpiece, hread⟩ := List.mem_map.mp hterminated
    have hbytes := lineFeed_not_mem_pieces ((List.dropLast_sublist _).subset hpiece)
    unfold readTerminatedLine at hread
    cases hline : readLine piece with
    | error cause => simp [hline, Except.map] at hread
    | ok line =>
        have htext : dropFinal '\r' line = text := by simpa [hline, Except.map] using hread
        subst htext
        exact fun hmem => lineFeed_not_mem_of_readLine hbytes hline (mem_of_mem_dropFinal hmem)
  · unfold Source.ending at hending
    split at hending
    · simp at hending
    · simp at hending
    · rename_i rest hne hrest
      have hlast : (pieces source.bytes).getLastD [] ∈ pieces source.bytes := by
        rw [List.getLastD_eq_getLast?, List.getLast?_eq_some_getLast (pieces_ne_nil _)]
        exact List.getLast_mem _
      have hread : readLine ((pieces source.bytes).getLastD []) = .ok text := by
        exact (List.mem_singleton.mp hending).symm
      exact lineFeed_not_mem_of_readLine (lineFeed_not_mem_pieces hlast) hread

namespace Grammar

theorem bracket_not_mem_identifier {token : Text} (h : Identifier token) :
    '<' ∉ token ∧ '>' ∉ token := by
  have hall : ∀ c ∈ token, isIdentifierTail c := by
    obtain ⟨hhead, htail⟩ := h
    intro c hc
    rw [isIdentifierTail_iff]
    rcases List.mem_cons.mp hc with rfl | hc
    · rcases hhead with hletter | hspecial
      · exact .inl hletter
      · exact .inr (.inr hspecial)
    · exact htail c hc
  exact ⟨fun hmem => absurd (hall _ hmem) (by decide), fun hmem => absurd (hall _ hmem) (by decide)⟩

theorem bracket_not_mem_variable {token : Text} (h : Variable token) :
    '<' ∉ token ∧ '>' ∉ token := by
  obtain ⟨hframe, hname⟩ := h
  have hframes : ∀ frame ∈ frames, '<' ∉ frame ∧ '>' ∉ frame := by decide
  obtain ⟨hlt, hgt⟩ := hframes _ hframe
  obtain ⟨hlt', hgt'⟩ := bracket_not_mem_identifier hname
  simp [hlt, hgt, hlt', hgt']

theorem bracket_not_mem_numeral {value : Text} (h : Numeral value) :
    '<' ∉ value ∧ '>' ∉ value := by
  obtain ⟨sign, digits, hsign, hdigits⟩ := h
  have hsigns : ∀ sign ∈ ["".toList, "+".toList, "-".toList], '<' ∉ sign ∧ '>' ∉ sign := by decide
  obtain ⟨hlt, hgt⟩ := hsigns sign hsign
  have hlt' : '<' ∉ digits := fun hmem => absurd (hdigits _ hmem).2 (by decide)
  have hgt' : '>' ∉ digits := fun hmem => absurd (hdigits _ hmem).2 (by decide)
  simp [hlt, hgt, hlt', hgt']

theorem Denotes.bracket_not_mem {slot : Slot} {token : Text} {operand : Operand}
    (h : Denotes slot token operand) : '<' ∉ operand.value ∧ '>' ∉ operand.value := by
  cases h with
  | var h => exact bracket_not_mem_variable h
  | symbVar h => exact bracket_not_mem_variable h
  | label h => exact bracket_not_mem_identifier h
  | type h =>
      have hnames : ∀ name ∈ typeNames, '<' ∉ name ∧ '>' ∉ name := by decide
      exact hnames _ h
  | int h => exact bracket_not_mem_numeral h
  | bool h =>
      have hvalues : ∀ value ∈ truthValues, '<' ∉ value ∧ '>' ∉ value := by decide
      exact hvalues _ h
  | nil => decide
  | string h => exact bracket_not_mem_flatMap_entity _

theorem lineFeed_not_mem_flatMap_entity {value : Text} (h : '\n' ∉ value) :
    '\n' ∉ value.flatMap entity := by
  intro hmem
  obtain ⟨c, hc, hentity⟩ := List.mem_flatMap.mp hmem
  rcases mem_of_mem_entity hentity with rfl | hadded
  · exact h hc
  · exact absurd hadded (by decide)

theorem Denotes.lineFeed_not_mem {slot : Slot} {token : Text} {operand : Operand}
    (h : Denotes slot token operand) (htoken : '\n' ∉ token) : '\n' ∉ operand.value := by
  have htail : ∀ {tag value : Text}, '\n' ∉ tag ++ '@' :: value → '\n' ∉ value := by
    intro tag value hnot hmem
    exact hnot (List.mem_append_right tag (List.mem_cons_of_mem '@' hmem))
  cases h with
  | var _ => exact htoken
  | symbVar _ => exact htoken
  | label _ => exact htoken
  | type _ => exact htoken
  | int _ => exact htail htoken
  | bool _ => exact htail htoken
  | nil => decide
  | string _ => exact lineFeed_not_mem_flatMap_entity (htail htoken)

theorem Fits.exists_denotes {slots : List Slot} {tokens : List Text} {operands : List Operand}
    (h : Fits slots tokens operands) {operand : Operand} (hoperand : operand ∈ operands) :
    ∃ slot, ∃ token ∈ tokens, Denotes slot token operand := by
  induction h with
  | nil => cases hoperand
  | cons hhead _ ih =>
      rcases List.mem_cons.mp hoperand with rfl | hoperand
      · exact ⟨_, _, List.mem_cons_self, hhead⟩
      · obtain ⟨slot, token, htoken, hdenotes⟩ := ih hoperand
        exact ⟨slot, token, List.mem_cons_of_mem _ htoken, hdenotes⟩

end Grammar

theorem Assembles.exists_statement {order : Nat} {rest : List Statement}
    {instructions : List Instruction} (h : Assembles order rest instructions)
    {instruction : Instruction} (hinstruction : instruction ∈ instructions) :
    ∃ statement ∈ rest, statement.operation = .ok instruction.toOperation := by
  induction h with
  | nil => cases hinstruction
  | cons hhead _ ih =>
      rcases List.mem_cons.mp hinstruction with rfl | hinstruction
      · exact ⟨_, List.mem_cons_self, hhead⟩
      · obtain ⟨statement, hstatement, hoperation⟩ := ih hinstruction
        exact ⟨statement, List.mem_cons_of_mem _ hstatement, hoperation⟩

namespace Source

theorem exists_denotes {source : Source} {program : Program} (h : source.program = .ok program)
    {instruction : Instruction} (hinstruction : instruction ∈ program.instructions.toList)
    {operand : Operand} (hoperand : operand ∈ instruction.operands) :
    ∃ text slot token, .ok text ∈ source.lines ∧ token ∈ Line.tokens text ∧
      Grammar.Denotes slot token operand := by
  obtain ⟨texts, rest, hlines, hstatements, hassembles⟩ := program_eq_ok_iff_statements.mp h
  obtain ⟨statement, hstatement, hoperation⟩ := hassembles.exists_statement hinstruction
  have hmem : statement ∈ statements texts := by
    rw [hstatements]
    exact List.mem_cons_of_mem header hstatement
  obtain ⟨text, htext, hline⟩ := List.mem_filterMap.mp hmem
  have htokens := Statement.ofLine?_eq_some_iff.mp hline
  obtain ⟨⟨opcode, operands⟩, order⟩ := instruction
  obtain ⟨name, tokens⟩ := statement
  cases Grammar.operation_eq_ok_iff.mp hoperation with
  | intro _ _ _ _ hfits =>
      obtain ⟨slot, token, htoken, hdenotes⟩ := hfits.exists_denotes hoperand
      refine ⟨text, slot, token, ?_, ?_, hdenotes⟩
      · rw [hlines]
        exact List.mem_map_of_mem htext
      · rw [htokens]
        exact List.mem_cons_of_mem name htoken

theorem bracket_not_mem_value {source : Source} {program : Program}
    (h : source.program = .ok program) {instruction : Instruction}
    (hinstruction : instruction ∈ program.instructions.toList) {operand : Operand}
    (hoperand : operand ∈ instruction.operands) : '<' ∉ operand.value ∧ '>' ∉ operand.value := by
  obtain ⟨_, _, _, -, -, hdenotes⟩ := exists_denotes h hinstruction hoperand
  exact hdenotes.bracket_not_mem

theorem lineFeed_not_mem_value {source : Source} {program : Program}
    (h : source.program = .ok program) {instruction : Instruction}
    (hinstruction : instruction ∈ program.instructions.toList) {operand : Operand}
    (hoperand : operand ∈ instruction.operands) : '\n' ∉ operand.value := by
  obtain ⟨text, slot, token, htext, htoken, hdenotes⟩ := exists_denotes h hinstruction hoperand
  apply hdenotes.lineFeed_not_mem
  intro hmem
  exact lineFeed_not_mem_line htext (Line.mem_of_mem_tokens htoken hmem)

end Source

end IppCode
