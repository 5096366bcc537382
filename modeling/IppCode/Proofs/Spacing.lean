import IppCode.Proofs.RoundTrip
import Mathlib.Data.List.DropRight

namespace IppCode.Line

/-- The last character, if there is one, is no terminator. -/
def Unterminated (line : Text) : Prop := ∀ c, line.getLast? = some c → c ≠ '\r' ∧ c ≠ '\n'

/-- A line without the longest run of terminators at its end. -/
structure BodyOf (line body : Text) : Prop where
  exists_end : ∃ terminators : Text, line = body ++ terminators ∧
    ∀ c ∈ terminators, c = '\r' ∨ c = '\n'
  longest : Unterminated body

/-- The part of a body before its first comment mark, all of it when there is none. -/
structure CodeOf (body code : Text) : Prop where
  before_mark : body = code ∨ ∃ comment, body = code ++ '#' :: comment
  mark_not_mem : '#' ∉ code

/-- Words in a code, with the blanks before the first of them and the blanks behind each. Only
before the first and behind the last word there may be none. -/
structure Spacing (code : Text) (words : List Text) (first : Text) (gaps : List Text) : Prop where
  code_eq : code = first ++ (words.zipWith (· ++ ·) gaps).flatten
  length_eq : gaps.length = words.length
  blank : ∀ gap ∈ first :: gaps, ∀ c ∈ gap, c = ' ' ∨ c = '\t'
  apart : ∀ gap ∈ gaps.dropLast, gap ≠ []
  word : ∀ word ∈ words, word ≠ [] ∧ ∀ c ∈ word, c ≠ ' ' ∧ c ≠ '\t'

theorem isTerminator_iff {c : Char} : isTerminator c ↔ c = '\r' ∨ c = '\n' := by
  simp [isTerminator]

theorem isBlank_iff {c : Char} : isBlank c ↔ c = ' ' ∨ c = '\t' := by
  simp [isBlank]

theorem isBlank_eq_false_iff {c : Char} : isBlank c = false ↔ c ≠ ' ' ∧ c ≠ '\t' := by
  simp [isBlank]

theorem bodyOf_body (line : Text) : BodyOf line (body line) := by
  have hbody : body line = line.rdropWhile isTerminator := rfl
  rw [hbody]
  refine ⟨⟨line.rtakeWhile isTerminator, ?_, ?_⟩, ?_⟩
  · rw [List.rdropWhile_append_rtakeWhile]
  · intro c hc
    exact isTerminator_iff.mp (List.mem_rtakeWhile_imp hc)
  · intro c hc
    obtain ⟨hne, rfl⟩ := List.mem_getLast?_eq_getLast hc
    have hlast := List.rdropWhile_last_not isTerminator line hne
    rwa [isTerminator_iff, not_or] at hlast

theorem body_append_terminators (line : Text) {terminators : Text}
    (h : ∀ c ∈ terminators, c = '\r' ∨ c = '\n') : body (line ++ terminators) = body line := by
  induction terminators generalizing line with
  | nil => rw [List.append_nil]
  | cons c terminators ih =>
      obtain ⟨hc, hrest⟩ := List.forall_mem_cons.mp h
      rw [List.append_cons, ih _ hrest, body_append_terminator (isTerminator_iff.mpr hc)]

theorem body_of_unterminated {line : Text} (h : Unterminated line) : body line = line := by
  rcases List.eq_nil_or_concat line with rfl | ⟨line, c, rfl⟩
  · rfl
  · rw [List.concat_eq_append] at h ⊢
    apply body_append_of_not_terminator
    rw [Bool.eq_false_iff, ne_eq, isTerminator_iff, not_or]
    exact h c List.getLast?_concat

theorem body_eq_iff {line text : Text} : body line = text ↔ BodyOf line text := by
  constructor
  · rintro rfl
    exact bodyOf_body line
  · rintro ⟨⟨terminators, rfl, hterminators⟩, hlongest⟩
    rw [body_append_terminators text hterminators, body_of_unterminated hlongest]

theorem takeWhile_eq_of_codeOf {body code : Text} (h : CodeOf body code) :
    body.takeWhile (· != commentMark) = code := by
  obtain ⟨rfl | ⟨comment, rfl⟩, hmark⟩ := h
  · apply List.takeWhile_eq_self_iff.mpr
    intro c hc
    rw [bne_iff_ne]
    rintro rfl
    exact hmark hc
  · exact takeWhile_ne_append_cons hmark

theorem exists_codeOf (body : Text) : ∃ code, CodeOf body code := by
  by_cases hmark : '#' ∈ body
  · obtain ⟨code, comment, rfl, hcode⟩ := List.eq_append_cons_of_mem hmark
    exact ⟨code, .inr ⟨comment, rfl⟩, hcode⟩
  · exact ⟨body, .inl rfl, hmark⟩

theorem code_eq_iff {line text : Text} :
    code line = text ↔ ∃ body, BodyOf line body ∧ CodeOf body text := by
  constructor
  · rintro rfl
    obtain ⟨text, hcode⟩ := exists_codeOf (body line)
    rw [code, takeWhile_eq_of_codeOf hcode]
    exact ⟨body line, bodyOf_body line, hcode⟩
  · rintro ⟨text', hbody, hcode⟩
    rw [code, body_eq_iff.mpr hbody, takeWhile_eq_of_codeOf hcode]

def words (code : Text) : List Text := (code.splitOnP isBlank).filter (!·.isEmpty)

theorem words_append_blank {c : Char} (h : isBlank c) (front rest : Text) :
    words (front ++ c :: rest) = words front ++ words rest := by
  rw [words, List.splitOnP_append_cons front rest h, List.filter_append]
  rfl

theorem words_of_word {word : Text} (hne : word ≠ []) (h : ∀ c ∈ word, isBlank c = false) :
    words word = [word] := by
  rw [words, List.splitOnP_eq_singleton h]
  simp [hne]

theorem words_append_of_blank {gap : Text} (h : ∀ c ∈ gap, isBlank c) (rest : Text) :
    words (gap ++ rest) = words rest := by
  induction gap with
  | nil => rfl
  | cons c gap ih =>
      obtain ⟨hc, hgap⟩ := List.forall_mem_cons.mp h
      exact (words_append_blank hc [] (gap ++ rest)).trans (ih hgap)

theorem words_word_append {word rest : Text} (hne : word ≠ [])
    (hword : ∀ c ∈ word, isBlank c = false) (hrest : ∀ c, rest.head? = some c → isBlank c) :
    words (word ++ rest) = word :: words rest := by
  cases rest with
  | nil =>
      rw [List.append_nil, words_of_word hne hword]
      rfl
  | cons c rest =>
      have hc := hrest c rfl
      rw [words_append_blank hc, words_of_word hne hword]
      exact congrArg (word :: ·) (words_append_blank hc [] rest).symm

namespace Spacing

variable {code first gap word : Text} {words gaps : List Text}

theorem tail (h : Spacing code (word :: words) first (gap :: gaps)) :
    Spacing (gap ++ (words.zipWith (· ++ ·) gaps).flatten) words gap gaps := by
  refine ⟨rfl, Nat.succ_injective h.length_eq, (List.forall_mem_cons.mp h.blank).2, ?_,
    (List.forall_mem_cons.mp h.word).2⟩
  intro other hother
  apply h.apart
  cases gaps with
  | nil => cases hother
  | cons next gaps => exact List.mem_cons_of_mem gap hother

theorem head?_blank (h : Spacing code (word :: words) first (gap :: gaps)) {c : Char}
    (hc : (gap ++ (words.zipWith (· ++ ·) gaps).flatten).head? = some c) : isBlank c := by
  cases gap with
  | cons b gap =>
      obtain rfl : b = c := Option.some.inj hc
      exact isBlank_iff.mpr (h.tail.blank _ List.mem_cons_self b List.mem_cons_self)
  | nil =>
      -- With no blank behind it the word is the last one.
      cases gaps with
      | nil =>
          rw [List.zipWith_nil_right] at hc
          cases hc
      | cons next gaps => exact absurd rfl (h.apart [] List.mem_cons_self)

theorem words_eq (h : Spacing code words first gaps) : Line.words code = words := by
  have hfirst : ∀ c ∈ first, isBlank c := fun c hc =>
    isBlank_iff.mpr (h.blank first List.mem_cons_self c hc)
  rw [h.code_eq, words_append_of_blank hfirst]
  induction words generalizing code first gaps with
  | nil => rfl
  | cons word words ih =>
      cases gaps with
      | nil => cases h.length_eq
      | cons gap gaps =>
          obtain ⟨⟨hne, hword⟩, -⟩ := List.forall_mem_cons.mp h.word
          have hgap : ∀ c ∈ gap, isBlank c := fun c hc =>
            isBlank_iff.mpr (h.tail.blank gap List.mem_cons_self c hc)
          have hletters : ∀ c ∈ word, isBlank c = false := fun c hc =>
            isBlank_eq_false_iff.mpr (hword c hc)
          rw [List.zipWith_cons_cons, List.flatten_cons, List.append_assoc,
            words_word_append hne hletters fun c hc => h.head?_blank hc,
            words_append_of_blank hgap, ih h.tail hgap]

theorem cons_blank {c : Char} (h : Spacing code words first gaps) (hc : c = ' ' ∨ c = '\t') :
    Spacing (c :: code) words (c :: first) gaps where
  code_eq := congrArg (c :: ·) h.code_eq
  length_eq := h.length_eq
  blank := by
    obtain ⟨hfirst, hgaps⟩ := List.forall_mem_cons.mp h.blank
    exact List.forall_mem_cons.mpr ⟨List.forall_mem_cons.mpr ⟨hc, hfirst⟩, hgaps⟩
  apart := h.apart
  word := h.word

/-- A character that is no blank makes a word of its own where a blank or nothing follows. -/
theorem cons_word {c : Char} (h : Spacing code words first gaps) (hc : c ≠ ' ' ∧ c ≠ '\t')
    (hfirst : first ≠ [] ∨ gaps = []) :
    Spacing (c :: code) ([c] :: words) [] (first :: gaps) where
  code_eq := congrArg (c :: ·) h.code_eq
  length_eq := congrArg (· + 1) h.length_eq
  blank := List.forall_mem_cons.mpr ⟨fun d hd => absurd hd List.not_mem_nil, h.blank⟩
  apart := by
    cases gaps with
    | nil => exact fun gap hgap => absurd hgap List.not_mem_nil
    | cons gap gaps =>
        have hne : first ≠ [] := hfirst.resolve_right (List.cons_ne_nil gap gaps)
        exact List.forall_mem_cons.mpr ⟨hne, h.apart⟩
  word := by
    refine List.forall_mem_cons.mpr ⟨⟨List.cons_ne_nil c [], ?_⟩, h.word⟩
    intro d hd
    rwa [List.mem_singleton.mp hd]

theorem cons_letter {c : Char} (h : Spacing code (word :: words) [] gaps)
    (hc : c ≠ ' ' ∧ c ≠ '\t') : Spacing (c :: code) ((c :: word) :: words) [] gaps where
  code_eq := by
    cases gaps with
    | nil => cases h.length_eq
    | cons gap gaps => exact congrArg (c :: ·) h.code_eq
  length_eq := h.length_eq
  blank := h.blank
  apart := h.apart
  word := by
    obtain ⟨⟨-, hword⟩, hwords⟩ := List.forall_mem_cons.mp h.word
    exact List.forall_mem_cons.mpr
      ⟨⟨List.cons_ne_nil c word, List.forall_mem_cons.mpr ⟨hc, hword⟩⟩, hwords⟩

end Spacing

theorem exists_spacing (code : Text) : ∃ words first gaps, Spacing code words first gaps := by
  induction code with
  | nil => exact ⟨[], [], [], rfl, rfl, by simp, by simp, by simp⟩
  | cons c code ih =>
      obtain ⟨words, first, gaps, h⟩ := ih
      by_cases hc : c = ' ' ∨ c = '\t'
      · exact ⟨words, c :: first, gaps, h.cons_blank hc⟩
      · rw [not_or] at hc
        cases first with
        | cons b first => exact ⟨_, _, _, h.cons_word hc (.inl (List.cons_ne_nil b first))⟩
        | nil =>
            cases words with
            | nil =>
                have hgaps : gaps = [] := List.eq_nil_of_length_eq_zero h.length_eq
                exact ⟨_, _, _, h.cons_word hc (.inr hgaps)⟩
            | cons word words => exact ⟨_, _, _, h.cons_letter hc⟩

theorem words_eq_iff {code : Text} {words : List Text} :
    Line.words code = words ↔ ∃ first gaps, Spacing code words first gaps := by
  constructor
  · rintro rfl
    obtain ⟨words, first, gaps, h⟩ := exists_spacing code
    rw [h.words_eq]
    exact ⟨first, gaps, h⟩
  · rintro ⟨first, gaps, h⟩
    exact h.words_eq

theorem CodeOf.append_comment {body code : Text} (h : CodeOf body code) (comment : Text) :
    CodeOf (body ++ '#' :: comment) code := by
  refine ⟨.inr ?_, h.mark_not_mem⟩
  rcases h.before_mark with rfl | ⟨earlier, rfl⟩
  · exact ⟨comment, rfl⟩
  · exact ⟨earlier ++ '#' :: comment, by simp⟩

theorem exists_bodyOf_append_comment (line comment : Text) :
    ∃ comment', BodyOf (line ++ '#' :: comment) (line ++ '#' :: comment') := by
  obtain ⟨⟨terminators, hend, hterminators⟩, hlongest⟩ := bodyOf_body ('#' :: comment)
  cases hbody : body ('#' :: comment) with
  | nil =>
      rw [hbody, List.nil_append] at hend
      exact absurd (hterminators '#' (hend ▸ List.mem_cons_self)) (by decide)
  | cons c comment' =>
      rw [hbody, List.cons_append, List.cons.injEq] at hend
      obtain ⟨rfl, rfl⟩ := hend
      refine ⟨comment', ⟨terminators, by simp, hterminators⟩, ?_⟩
      intro c hc
      rw [List.getLast?_append_of_ne_nil line (List.cons_ne_nil '#' comment'), ← hbody] at hc
      exact hlongest c hc

theorem code_append_comment {line : Text} (h : Unterminated line) (comment : Text) :
    code (line ++ '#' :: comment) = code line := by
  obtain ⟨text, hcode⟩ := exists_codeOf line
  obtain ⟨comment', hbody⟩ := exists_bodyOf_append_comment line comment
  have hline : BodyOf line line := body_eq_iff.mp (body_of_unterminated h)
  rw [code_eq_iff.mpr ⟨line, hline, hcode⟩]
  exact code_eq_iff.mpr ⟨_, hbody, hcode.append_comment comment'⟩

/-- Texts are the tokens of a line exactly when the code of the line is made of them, with blanks
between them and perhaps before and behind them. So none of them holds a blank or the mark of a
comment, written out with one blank behind each they are read back, and a comment behind a line
without terminators makes no difference. -/
theorem tokens_eq_iff_spacing (line : Text) (words : List Text) :
    (tokens line = words ↔ ∃ body code first gaps,
      BodyOf line body ∧ CodeOf body code ∧ Spacing code words first gaps) ∧
    (tokens line = words →
      (∀ word ∈ words, ∀ c ∈ separators, c ∉ word) ∧
        tokens (words.flatMap (· ++ [' '])) = words) ∧
    (Unterminated line → ∀ comment, tokens (line ++ '#' :: comment) = tokens line) := by
  have htokens : tokens line = words ↔ ∃ first gaps, Spacing (code line) words first gaps :=
    words_eq_iff
  refine ⟨?_, ?_, ?_⟩
  · rw [htokens]
    constructor
    · rintro ⟨first, gaps, hspacing⟩
      obtain ⟨body, hbody, hcode⟩ := code_eq_iff.mp (Eq.refl (code line))
      exact ⟨body, code line, first, gaps, hbody, hcode, hspacing⟩
    · rintro ⟨body, text, first, gaps, hbody, hcode, hspacing⟩
      rw [code_eq_iff.mpr ⟨body, hbody, hcode⟩]
      exact ⟨first, gaps, hspacing⟩
  · rintro rfl
    exact ⟨fun word hword => (isWord_of_mem_tokens hword).not_mem,
      tokens_flatMap_blank fun word hword => isWord_of_mem_tokens hword⟩
  · intro hlast comment
    rw [tokens, tokens, code_append_comment hlast]

theorem tokens_eq_iff_spacing_of_returns :
    let line : Text := " \tWRITE  a\rb\r\t".toList
    let words : List Text := ["WRITE".toList, "a\rb\r".toList]
    (∃ body code first gaps,
      BodyOf line body ∧ CodeOf body code ∧ Spacing code words first gaps) ∧
      tokens (words.flatMap (· ++ [' '])) = words ∧
      tokens (line ++ '#' :: " #\r\n".toList) = words := by
  intro line words
  have htokens : tokens line = words := by decide
  have hlast : Unterminated line := by
    intro c hc
    obtain rfl : '\t' = c := Option.some.inj hc
    decide
  obtain ⟨hspacing, hread, hcomment⟩ := tokens_eq_iff_spacing line words
  exact ⟨hspacing.mp htokens, (hread htokens).2, (hcomment hlast _).trans htokens⟩

end IppCode.Line
