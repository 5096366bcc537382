import IppCode.Proofs.Earliest
import IppCode.Proofs.Layout
import Mathlib.Data.List.TakeWhile

namespace IppCode

theorem toNat_eq_of_mem_utf8EncodeChar {c : Char} {byte : UInt8}
    (h : byte ∈ String.utf8EncodeChar c) (hascii : byte.toNat < 128) :
    c.toNat = byte.toNat := by
  have hbyte : ∀ n, byte = UInt8.ofNat n → byte.toNat = n % 256 := by
    rintro n rfl
    exact UInt8.toNat_ofNat
  change c.val.toNat = byte.toNat
  simp only [String.utf8EncodeChar] at h
  split at h
  · have hn := hbyte _ (List.mem_singleton.mp h)
    omega
  · -- Every byte of a longer encoding has its highest bit set.
    exfalso
    split at h
    · simp only [List.mem_cons, List.not_mem_nil, or_false] at h
      rcases h with h | h <;> have hn := hbyte _ h <;> omega
    · split at h
      · simp only [List.mem_cons, List.not_mem_nil, or_false] at h
        rcases h with h | h | h <;> have hn := hbyte _ h <;> omega
      · simp only [List.mem_cons, List.not_mem_nil, or_false] at h
        rcases h with h | h | h | h <;> have hn := hbyte _ h <;> omega

theorem lineFeed_not_mem_toUtf8 {text : Text} (h : '\n' ∉ text) : lineFeed ∉ toUtf8 text := by
  intro hmem
  obtain ⟨c, hc, hbyte⟩ := List.mem_flatMap.mp hmem
  have hfeed : c.toNat = '\n'.toNat := toNat_eq_of_mem_utf8EncodeChar hbyte (by decide)
  exact h (Char.toNat_inj.mp hfeed ▸ hc)

theorem readTerminatedLine_toUtf8 {text : Text} (h : text.getLast? ≠ some '\r') :
    readTerminatedLine (toUtf8 text) = .ok text := by
  simp only [readTerminatedLine, readLine, ofUtf8?_toUtf8, Except.map, dropFinal, if_neg h]

theorem toUtf8_flatMap_lineFeed (texts : List Text) :
    toUtf8 (texts.flatMap (· ++ ['\n'])) = (texts.map toUtf8).flatMap (· ++ [lineFeed]) := by
  simp only [toUtf8, List.flatMap_assoc, List.flatMap_append, List.flatMap_map]
  rfl

theorem lineFeed_not_mem_map_toUtf8 {texts : List Text} (h : ∀ text ∈ texts, '\n' ∉ text) :
    ∀ line ∈ texts.map toUtf8, lineFeed ∉ line := by
  intro line hline
  obtain ⟨text, htext, rfl⟩ := List.mem_map.mp hline
  exact lineFeed_not_mem_toUtf8 (h text htext)

theorem Source.lines_toUtf8 {texts : List Text} (hfeed : ∀ text ∈ texts, '\n' ∉ text)
    (hreturn : ∀ text ∈ texts, text.getLast? ≠ some '\r') :
    Source.lines ⟨toUtf8 (texts.flatMap (· ++ ['\n'])), none⟩ = texts.map .ok := by
  have hlines := lines_flatMap_append (lineFeed_not_mem_map_toUtf8 hfeed) [] none
  rw [List.append_nil, lines_nil, List.append_nil, List.map_map] at hlines
  rw [toUtf8_flatMap_lineFeed, hlines]
  apply List.map_congr_left
  intro text htext
  exact readTerminatedLine_toUtf8 (hreturn text htext)

/-- What ends a word of a line. -/
def Line.separators : List Char := [' ', '\t', '#']

/-- A text that can stand as one word on a line. -/
structure IsWord (word : Text) : Prop where
  ne_nil : word ≠ []
  not_mem : ∀ c ∈ Line.separators, c ∉ word

theorem Line.isWord_of_mem_tokens {line token : Text} (htoken : token ∈ Line.tokens line) :
    IsWord token := by
  obtain ⟨hpiece, hne⟩ := List.mem_filter.mp htoken
  have hcode : ∀ c ∈ token, c ∈ Line.code line ∧ Line.isBlank c = false := fun c hc =>
    mem_and_not_of_mem_splitOnP hpiece hc
  refine ⟨by simpa using hne, ?_⟩
  intro c hc hmem
  simp only [Line.separators, List.mem_cons, List.not_mem_nil, or_false] at hc
  rcases hc with rfl | rfl | rfl
  · exact absurd (hcode _ hmem).2 (by decide)
  · exact absurd (hcode _ hmem).2 (by decide)
  · have hmark := List.mem_takeWhile_imp (hcode _ hmem).1
    exact absurd hmark (by decide)

theorem isWord_opcode (opcode : Opcode) : IsWord opcode.name := by
  constructor
  · cases opcode <;> decide
  · cases opcode <;> decide

theorem lineFeed_not_mem_opcode (opcode : Opcode) : '\n' ∉ opcode.name := by
  cases opcode <;> decide

theorem mem_of_mem_canonicalToken {c : Char} {token : Text} (h : c ∈ canonicalToken token) :
    c ∈ token ∨ c ∈ "&lt;&gt;".toList := by
  unfold canonicalToken at h
  split at h
  · rename_i hpre
    rcases List.mem_append.mp h with htag | hvalue
    · exact .inl ((List.isPrefixOf_iff_prefix.mp hpre).subset htag)
    · obtain ⟨d, hd, hentity⟩ := List.mem_flatMap.mp hvalue
      rcases Grammar.mem_of_mem_entity hentity with rfl | hadded
      · exact .inl (List.mem_of_mem_drop hd)
      · exact .inr hadded
  · exact .inl h

theorem IsWord.canonicalToken {token : Text} (h : IsWord token) :
    IsWord (canonicalToken token) := by
  constructor
  · unfold IppCode.canonicalToken
    split
    · exact List.append_ne_nil_of_left_ne_nil (by decide) _
    · exact h.ne_nil
  · intro c hc hmem
    have hentity : ∀ c ∈ Line.separators, c ∉ "&lt;&gt;".toList := by decide
    rcases mem_of_mem_canonicalToken hmem with htoken | hadded
    · exact h.not_mem c hc htoken
    · exact hentity c hc hadded

namespace Line

theorem body_append_of_not_terminator {c : Char} (h : isTerminator c = false) (line : Text) :
    body (line ++ [c]) = line ++ [c] := by
  simp [body, h]

theorem body_flatMap_blank (words : List Text) :
    body (words.flatMap (· ++ [' '])) = words.flatMap (· ++ [' ']) := by
  rcases List.eq_nil_or_concat words with rfl | ⟨words, word, rfl⟩
  · rfl
  · have hblank : (words.concat word).flatMap (· ++ [' ']) =
        (words.flatMap (· ++ [' ']) ++ word) ++ [' '] := by simp
    rw [hblank]
    exact body_append_of_not_terminator (by decide) _

theorem splitOnP_flatMap_blank {words : List Text} (h : ∀ word ∈ words, IsWord word) :
    (words.flatMap (· ++ [' '])).splitOnP isBlank = words ++ [[]] := by
  induction words with
  | nil => rfl
  | cons word words ih =>
      have hword := h word List.mem_cons_self
      have hpiece : ∀ c ∈ word, isBlank c = false := by
        intro c hc
        rw [Bool.eq_false_iff]
        intro hblank
        rw [isBlank, Bool.or_eq_true, beq_iff_eq, beq_iff_eq] at hblank
        rcases hblank with rfl | rfl
        · exact hword.not_mem _ (by decide) hc
        · exact hword.not_mem _ (by decide) hc
      have hsplit : (word :: words).flatMap (· ++ [' ']) =
          word ++ ' ' :: words.flatMap (· ++ [' ']) := by simp
      rw [hsplit, List.splitOnP_append_cons_of_forall_mem hpiece ' ' (by decide),
        ih fun w hw => h w (List.mem_cons_of_mem word hw), List.cons_append]

theorem tokens_flatMap_blank {words : List Text} (h : ∀ word ∈ words, IsWord word) :
    tokens (words.flatMap (· ++ [' '])) = words := by
  have hcode : code (words.flatMap (· ++ [' '])) = words.flatMap (· ++ [' ']) := by
    rw [code, body_flatMap_blank]
    apply List.takeWhile_eq_self_iff.mpr
    intro c hc
    obtain ⟨word, hword, hmem⟩ := List.mem_flatMap.mp hc
    rw [bne_iff_ne]
    rintro rfl
    rcases List.mem_append.mp hmem with hmem | hmem
    · exact (h word hword).not_mem _ (by decide) hmem
    · exact absurd hmem (by decide)
  have hkept : ∀ word ∈ words, (!word.isEmpty) = true := by
    intro word hword
    simpa using (h word hword).ne_nil
  rw [tokens, hcode, splitOnP_flatMap_blank h, List.filter_append, List.filter_eq_self.mpr hkept]
  exact List.append_nil words

end Line

namespace Grammar

theorem Fits.operand?_token {slots : List Slot} {tokens : List Text} {operands : List Operand}
    (h : Fits slots tokens operands) :
    List.Forall₂ (fun slot operand => slot.operand? operand.token = some operand) slots
      operands := by
  induction h with
  | nil => exact .nil
  | cons hhead _ ih => exact .cons (operand?_eq_some_iff.mpr hhead.token) ih

end Grammar

theorem Statement.ofLine?_line {statement : Statement}
    (h : ∀ word ∈ statement.words, IsWord word) :
    Statement.ofLine? statement.line = some statement := by
  rw [Statement.ofLine?_eq_some_iff]
  exact Line.tokens_flatMap_blank h

theorem Statement.lineFeed_not_mem_line {statement : Statement}
    (h : ∀ word ∈ statement.words, '\n' ∉ word) : '\n' ∉ statement.line := by
  intro hmem
  obtain ⟨word, hword, hfeed⟩ := List.mem_flatMap.mp hmem
  rcases List.mem_append.mp hfeed with hfeed | hfeed
  · exact h word hword hfeed
  · exact absurd hfeed (by decide)

theorem Statement.getLast?_line (statement : Statement) :
    statement.line.getLast? = some ' ' := by
  obtain ⟨words, word, hwords⟩ : ∃ words word, statement.words = words ++ [word] :=
    ⟨_, _, (List.dropLast_append_getLast (List.cons_ne_nil _ _)).symm⟩
  change (statement.words.flatMap (· ++ [' '])).getLast? = some ' '
  simp [hwords]

namespace Program

def listingLines (program : Program) : List Text :=
  header.name :: program.instructions.toList.map fun instruction => instruction.statement.line

theorem listing_eq (program : Program) :
    program.listing = program.listingLines.flatMap (· ++ ['\n']) := by
  simp [listing, listingLines, List.flatMap_map]

/-- Whatever an instruction of the program is printed as can stand as one word on a line. -/
def HasWords (program : Program) : Prop :=
  ∀ instruction ∈ program.instructions.toList, ∀ word ∈ instruction.statement.words,
    IsWord word ∧ '\n' ∉ word

theorem lines_listing {program : Program} (h : program.HasWords) :
    Source.lines ⟨toUtf8 program.listing, none⟩ = program.listingLines.map .ok := by
  rw [listing_eq]
  apply Source.lines_toUtf8
  · intro text htext
    rcases List.mem_cons.mp htext with rfl | htext
    · decide
    · obtain ⟨instruction, hinstruction, rfl⟩ := List.mem_map.mp htext
      apply Statement.lineFeed_not_mem_line
      exact fun word hword => (h instruction hinstruction word hword).2
  · intro text htext
    rcases List.mem_cons.mp htext with rfl | htext
    · decide
    · obtain ⟨instruction, -, rfl⟩ := List.mem_map.mp htext
      rw [Statement.getLast?_line]
      decide

theorem statements_listingLines {program : Program} (h : program.HasWords) :
    statements program.listingLines =
      header :: program.instructions.toList.map Instruction.statement := by
  have hheader : Statement.ofLine? header.name = some header := by decide
  have hbody : ∀ instruction ∈ program.instructions.toList,
      Statement.ofLine? instruction.statement.line = some instruction.statement := by
    intro instruction hinstruction
    apply Statement.ofLine?_line
    exact fun word hword => (h instruction hinstruction word hword).1
  rw [statements, listingLines, List.filterMap_cons_some hheader, List.filterMap_map]
  congr 1
  rw [← List.filterMap_eq_map]
  exact List.filterMap_congr hbody

end Program

namespace Source

theorem hasWords_of_program {source : Source} {program : Program}
    (h : source.program = .ok program) : program.HasWords := by
  intro instruction hinstruction word hword
  rcases List.mem_cons.mp hword with rfl | hword
  · exact ⟨isWord_opcode _, lineFeed_not_mem_opcode _⟩
  · obtain ⟨operand, hoperand, rfl⟩ := List.mem_map.mp hword
    obtain ⟨text, slot, token, htext, htoken, hdenotes⟩ := exists_denotes h hinstruction hoperand
    rw [hdenotes.token_eq]
    refine ⟨(Line.isWord_of_mem_tokens htoken).canonicalToken, fun hfeed => ?_⟩
    rcases mem_of_mem_canonicalToken hfeed with hfeed | hfeed
    · exact lineFeed_not_mem_line htext (Line.mem_of_mem_tokens htoken hfeed)
    · exact absurd hfeed (by decide)

theorem program_of_listing {source : Source} {program : Program}
    (h : source.program = .ok program) :
    Source.program ⟨toUtf8 program.listing, none⟩ = .ok program := by
  have hwords := hasWords_of_program h
  rw [program_eq_ok_iff_statements]
  refine ⟨program.listingLines, _, Program.lines_listing hwords,
    Program.statements_listingLines hwords, ?_⟩
  exact (assembles_body h).reassemble

theorem body_of_listing {source : Source} {program : Program}
    (h : source.program = .ok program) :
    Source.body ⟨toUtf8 program.listing, none⟩ = source.body.map Statement.canonical := by
  have hwords := hasWords_of_program h
  rw [body, texts_eq (Program.lines_listing hwords), Program.statements_listingLines hwords,
    List.tail_cons]
  exact (assembles_body h).map_statement

theorem operand?_token_of_program {source : Source} {program : Program}
    (h : source.program = .ok program) {instruction : Instruction}
    (hinstruction : instruction ∈ program.instructions.toList) :
    List.Forall₂ (fun slot operand => slot.operand? operand.token = some operand)
      instruction.opcode.signature instruction.operands := by
  obtain ⟨statement, -, hoperation⟩ := (assembles_body h).exists_statement hinstruction
  exact (Grammar.fits_of_operation hoperation).operand?_token

/-- The listing of an accepted program is a source of that program. Every token it writes gives
back the operand it was written for, and its statements are the canonical forms of those read,
which canonical form leaves as they are. -/
theorem program_listing_eq_ok {source : Source} {program : Program}
    (h : source.program = .ok program) :
    Source.program ⟨toUtf8 program.listing, none⟩ = .ok program ∧
      (∀ instruction ∈ program.instructions.toList,
        List.Forall₂ (fun slot operand => slot.operand? operand.token = some operand)
          instruction.opcode.signature instruction.operands) ∧
      Source.body ⟨toUtf8 program.listing, none⟩ = source.body.map Statement.canonical ∧
      (source.body.map Statement.canonical).map Statement.canonical =
        source.body.map Statement.canonical := by
  have hagain := program_of_listing h
  refine ⟨hagain, fun _ hinstruction => operand?_token_of_program h hinstruction,
    body_of_listing h, ?_⟩
  -- The listing is itself a source of the program, so it has the listing as its canonical form.
  rw [← body_of_listing h, ← body_of_listing hagain]

theorem exists_listing_of_layout :
    let source : Source := ⟨toUtf8 ".IPPcode22\nwrite string@a<b\rc\\035\r # d\n".toList, none⟩
    ∃ program, source.program = .ok program ∧
      program.listing = ".IPPcode22\nWRITE string@a&lt;b\rc\\035\r \n".toList ∧
      Source.program ⟨toUtf8 program.listing, none⟩ = .ok program := by
  intro source
  have hprogram : source.program =
      .ok ⟨#[⟨⟨.write, [⟨.string, "a&lt;b\rc\\035\r".toList⟩]⟩, 1⟩]⟩ := by decide
  exact ⟨_, hprogram, by decide, (program_listing_eq_ok hprogram).1⟩

end Source

end IppCode
