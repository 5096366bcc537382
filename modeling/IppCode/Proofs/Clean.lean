import IppCode.Proofs.Words
import IppCode.Proofs.Xml

namespace IppCode.Xml

theorem inRanges_of_mem {ranges : List (Nat × Nat)} {low high n : Nat}
    (hmem : (low, high) ∈ ranges) (hlow : low ≤ n) (hhigh : n ≤ high) : inRanges ranges n := by
  rw [inRanges, List.any_eq_true]
  exact ⟨(low, high), hmem, by simp [hlow, hhigh]⟩

theorem isNameChar_of_isDigit {c : Char} (h : c.isDigit) : isNameChar c := by
  have hdigit : '0' ≤ c ∧ c ≤ '9' := Grammar.isDigit_iff.mp h
  have hmem : (0x30, 0x39) ∈ nameRanges := by decide
  exact inRanges_of_mem hmem hdigit.1 hdigit.2

theorem isNameChar_of_isAlpha {c : Char} (h : c.isAlpha) : isNameChar c := by
  rcases Grammar.isAlpha_iff.mp h with hupper | hlower
  · have hmem : (0x41, 0x5A) ∈ nameRanges := by decide
    exact inRanges_of_mem hmem hupper.1 hupper.2
  · have hmem : (0x61, 0x7A) ∈ nameRanges := by decide
    exact inRanges_of_mem hmem hlower.1 hlower.2

theorem isNameChar_of_isNameStart {c : Char} (h : isNameStart c) : isNameChar c := by
  rw [isNameStart, inRanges] at h
  rw [isNameChar, inRanges, nameRanges, List.any_append, h, Bool.true_or]

theorem isChar_of_isNameChar {c : Char} (h : isNameChar c) : isChar c := by
  have hcovered : ∀ range ∈ nameRanges, ∃ range' ∈ charRanges,
      range'.1 ≤ range.1 ∧ range.2 ≤ range'.2 := by decide
  rw [isNameChar, inRanges, List.any_eq_true] at h
  obtain ⟨range, hmem, hin⟩ := h
  obtain ⟨range', hmem', hlow, hhigh⟩ := hcovered range hmem
  rw [Bool.and_eq_true, decide_eq_true_eq, decide_eq_true_eq] at hin
  exact inRanges_of_mem hmem' (Nat.le_trans hlow hin.1) (Nat.le_trans hin.2 hhigh)

theorem not_mem_of_isNameChar {text : Text} {c : Char} (h : ∀ c ∈ text, isNameChar c)
    (hc : isNameChar c = false) : c ∉ text := by
  intro hmem
  rw [h c hmem] at hc
  cases hc

theorem Name.isNameChar {name : Text} (h : Name name) : ∀ c ∈ name, isNameChar c := by
  obtain ⟨hhead, htail⟩ := h
  intro c hc
  rcases List.mem_cons.mp hc with rfl | hc
  · exact isNameChar_of_isNameStart hhead
  · exact htail c hc

theorem isSpace_iff {c : Char} : isSpace c ↔ c ∈ [' ', '\t', '\r', '\n'] := by
  simp [isSpace, or_assoc]

section Followed

variable {mark : Char} {good : Text → Prop} {s t : Text}

theorem followed_of_not_mem (h : mark ∉ s) : Followed mark good s := by
  rintro before after rfl
  exact absurd (List.mem_append_right before List.mem_cons_self) h

theorem followed_cons (hgood : good s) (h : mark ∉ s) : Followed mark good (mark :: s) := by
  intro before after heq
  cases before with
  | nil =>
      obtain ⟨-, rfl⟩ := List.cons.inj heq
      exact hgood
  | cons _ before =>
      obtain ⟨-, rfl⟩ := List.cons.inj heq
      exact absurd (List.mem_append_right before List.mem_cons_self) h

theorem Followed.append (hgood : ∀ after more, good after → good (after ++ more))
    (hs : Followed mark good s) (ht : Followed mark good t) : Followed mark good (s ++ t) := by
  intro before after h
  rcases List.append_eq_append_iff.mp h with ⟨middle, rfl, hmiddle⟩ | ⟨middle, hbefore, hmiddle⟩
  · exact ht middle after hmiddle
  · cases middle with
    | nil => exact ht [] after hmiddle.symm
    | cons c middle =>
        obtain ⟨rfl, rfl⟩ := List.cons.inj hmiddle
        exact hgood middle t (hs before middle hbefore)

theorem Followed.right (h : Followed mark good (s ++ t)) : Followed mark good t := by
  rintro before after rfl
  exact h (s ++ before) after (List.append_assoc s before _).symm

end Followed

theorem CompletesReference.append (after more : Text) (h : CompletesReference after) :
    CompletesReference (after ++ more) := by
  obtain ⟨reference, rest, hreference, heq⟩ := h
  refine ⟨reference, rest ++ more, hreference, ?_⟩
  rw [← List.cons_append, heq, List.append_assoc]

theorem not_completesReference_nil : ¬ CompletesReference [] := by
  rintro ⟨reference, rest, hreference, heq⟩
  cases hreference <;> simp at heq

theorem Reference.not_mem {reference : Text} (h : Reference reference) : '<' ∉ reference := by
  cases h with
  | entity hname =>
      have hnames : ∀ name ∈ ["lt".toList, "gt".toList, "amp".toList, "quot".toList, "apos".toList],
          '<' ∉ '&' :: name ++ [';'] := by decide
      exact hnames _ hname
  | decimal _ hdigits _ =>
      have hnot : '<' ∉ _ := fun hmem => absurd (hdigits '<' hmem) (by decide)
      simp [hnot]
  | hexadecimal _ hdigits _ =>
      have hnot : '<' ∉ _ := fun hmem => absurd (hdigits '<' hmem) (by decide)
      simp [hnot]

theorem CompletesReference.left {after more : Text}
    (h : CompletesReference (after ++ '<' :: more)) : CompletesReference after := by
  obtain ⟨reference, rest, hreference, heq⟩ := h
  rw [← List.cons_append] at heq
  rcases List.append_eq_append_iff.mp heq with ⟨middle, hmiddle, hrest⟩ | ⟨middle, hmiddle, -⟩
  · cases middle with
    | nil =>
        rw [List.append_nil] at hmiddle
        exact ⟨reference, [], hreference, by rw [hmiddle, List.append_nil]⟩
    | cons c middle =>
        obtain ⟨rfl, -⟩ := List.cons.inj hrest
        rw [hmiddle] at hreference
        exact absurd (List.mem_append_right _ List.mem_cons_self) hreference.not_mem
  · exact ⟨reference, middle, hreference, hmiddle⟩

theorem Clean.append {s t : Text} (hs : Clean s) (ht : Clean t) : Clean (s ++ t) := by
  refine ⟨?_, hs.references.append CompletesReference.append ht.references⟩
  intro c hc
  rcases List.mem_append.mp hc with hc | hc
  · exact hs.legal c hc
  · exact ht.legal c hc

theorem Clean.left {before value after : Text} (h : Clean (before ++ (value ++ '<' :: after))) :
    Clean value := by
  refine ⟨?_, ?_⟩
  · intro c hc
    exact h.legal c (List.mem_append_right before (List.mem_append_left _ hc))
  · rintro front rest rfl
    rw [List.append_assoc] at h
    exact (h.references.right front (rest ++ '<' :: after) rfl).left

theorem clean_of_legal {text : Text} (hlegal : ∀ c ∈ text, isChar c) (hmark : '&' ∉ text) :
    Clean text :=
  ⟨hlegal, followed_of_not_mem hmark⟩

theorem clean_of_isNameChar {text : Text} (h : ∀ c ∈ text, isNameChar c) : Clean text :=
  clean_of_legal (fun c hc => isChar_of_isNameChar (h c hc)) (not_mem_of_isNameChar h (by decide))

theorem Name.clean {name : Text} (h : Name name) : Clean name := clean_of_isNameChar h.isNameChar

theorem Blank.clean {text : Text} (h : Blank text) : Clean text := by
  have hspaces : ∀ c ∈ [' ', '\t', '\r', '\n'], isChar c ∧ c ≠ '&' := by decide
  have hall : ∀ c ∈ text, isChar c ∧ c ≠ '&' := fun c hc => hspaces c (isSpace_iff.mp (h c hc))
  exact clean_of_legal (fun c hc => (hall c hc).1) (fun hmem => (hall _ hmem).2 rfl)

theorem Equals.clean {text : Text} (h : Equals text) : Clean text := by
  obtain ⟨before, after, hbefore, hafter, rfl⟩ := h
  have hmark : Clean ['='] := clean_of_legal (by decide) (by decide)
  exact hbefore.clean.append (hmark.append hafter.clean)

theorem Quoted.clean {value : Text → Prop} {text : Text} (h : Quoted value text)
    (hclean : ∀ text, value text → Clean text) : Clean text := by
  obtain ⟨hquote, -, hvalue⟩ := h
  have hquotes : ∀ quote ∈ ['"', '\''], isChar quote ∧ quote ≠ '&' := by decide
  obtain ⟨hlegal, hne⟩ := hquotes _ hquote
  have hmark : Clean [_] := clean_of_legal (by simpa using hlegal) (by simpa using hne.symm)
  exact hmark.append ((hclean _ hvalue).append hmark)

theorem Attributes.clean {names : List Text} {text : Text} (h : Attributes names text) :
    Clean text := by
  induction h with
  | nil => exact clean_of_legal (by decide) (by decide)
  | cons hspace hname hequals hvalue _ _ ih =>
      have hquoted := hvalue.clean fun _ => AttValue.toClean
      exact (((hspace.2.clean.append hname.clean).append hequals.clean).append hquoted).append ih

theorem StartTag.clean {name text : Text} (h : StartTag name text) : Clean text := by
  obtain ⟨hname, hattrs, hspace⟩ := h
  have hopen : Clean ['<'] := clean_of_legal (by decide) (by decide)
  have hclose : Clean ['>'] := clean_of_legal (by decide) (by decide)
  exact (((hopen.append hname.clean).append hattrs.clean).append hspace.clean).append hclose

theorem EndTag.clean {name text : Text} (h : EndTag name text) : Clean text := by
  obtain ⟨hname, hspace⟩ := h
  have hopen : Clean ['<', '/'] := clean_of_legal (by decide) (by decide)
  have hclose : Clean ['>'] := clean_of_legal (by decide) (by decide)
  exact ((hopen.append hname.clean).append hspace.clean).append hclose

theorem EmptyTag.clean {text : Text} (h : EmptyTag text) : Clean text := by
  obtain ⟨hname, hattrs, hspace⟩ := h
  have hopen : Clean ['<'] := clean_of_legal (by decide) (by decide)
  have hclose : Clean ['/', '>'] := clean_of_legal (by decide) (by decide)
  exact (((hopen.append hname.clean).append hattrs.clean).append hspace.clean).append hclose

theorem Version.clean {text : Text} (h : Version text) : Clean text := by
  obtain ⟨digits, -, hdigits, rfl⟩ := h
  have hstart : Clean "1.".toList := clean_of_isNameChar (by decide)
  exact hstart.append (clean_of_isNameChar fun c hc => isNameChar_of_isDigit (hdigits c hc))

theorem Encoding.clean {text : Text} (h : Encoding text) : Clean text := by
  obtain ⟨head, tail, hhead, htail, rfl⟩ := h
  apply clean_of_isNameChar
  intro c hc
  rcases List.mem_cons.mp hc with rfl | hc
  · exact isNameChar_of_isAlpha hhead
  · rcases htail c hc with halphanum | rfl | rfl | rfl
    · rcases Bool.or_eq_true_iff.mp halphanum with halpha | hdigit
      · exact isNameChar_of_isAlpha halpha
      · exact isNameChar_of_isDigit hdigit
    · decide
    · decide
    · decide

theorem Setting.clean {key text : Text} {value : Text → Prop} (h : Setting key value text)
    (hkey : Clean key) (hclean : ∀ text, value text → Clean text) : Clean text := by
  obtain ⟨space, equals, quoted, hspace, hequals, hquoted, rfl⟩ := h
  exact ((hspace.2.clean.append hkey).append hequals.clean).append (hquoted.clean hclean)

theorem Declaration.clean {text : Text} (h : Declaration text) : Clean text := by
  obtain ⟨hversion, hencoding, hstandalone, hspace⟩ := h
  have hnil : Clean [] := clean_of_legal (by decide) (by decide)
  have hopen : Clean "<?xml".toList := clean_of_legal (by decide) (by decide)
  have hclose : Clean "?>".toList := clean_of_legal (by decide) (by decide)
  refine ((((hopen.append ?_).append ?_).append ?_).append hspace.clean).append hclose
  · exact hversion.clean (clean_of_isNameChar (by decide)) fun _ => Version.clean
  · rcases hencoding with rfl | hencoding
    · exact hnil
    · exact hencoding.clean (clean_of_isNameChar (by decide)) fun _ => Encoding.clean
  · rcases hstandalone with rfl | hstandalone
    · exact hnil
    · have hanswers : ∀ answer ∈ ["yes".toList, "no".toList], ∀ c ∈ answer, isNameChar c := by
        decide
      exact hstandalone.clean (clean_of_isNameChar (by decide))
        fun answer hanswer => clean_of_isNameChar (hanswers answer hanswer)

/-- Every `<` opens a tag, and so no comment, no section and no processing instruction. -/
def OnlyTags (text : Text) : Prop :=
  Followed '<' (fun after => ∃ c rest, after = c :: rest ∧ c ≠ '!' ∧ c ≠ '?') text

theorem OnlyTags.second {c : Char} {text : Text} (h : OnlyTags ('<' :: c :: text)) :
    c ≠ '!' ∧ c ≠ '?' := by
  obtain ⟨c', rest, heq, hne⟩ := h [] (c :: text) rfl
  obtain ⟨rfl, -⟩ := List.cons.inj heq
  exact hne

theorem Comment.not_onlyTags {text tail : Text} (h : Comment text) : ¬ OnlyTags (text ++ tail) := by
  obtain ⟨-, -⟩ := h
  exact fun htags => htags.second.1 rfl

theorem Section.not_onlyTags {text tail : Text} (h : Section text) : ¬ OnlyTags (text ++ tail) := by
  obtain ⟨-, -⟩ := h
  exact fun htags => htags.second.1 rfl

theorem Instruction.not_onlyTags {text tail : Text} (h : Instruction text) :
    ¬ OnlyTags (text ++ tail) := by
  obtain ⟨-, -, -, -, -⟩ := h
  exact fun htags => htags.second.2 rfl

theorem Misc.clean {text tail : Text} (h : Misc text) (htags : OnlyTags (text ++ tail)) :
    Clean text := by
  induction h with
  | nil => exact clean_of_legal (by decide) (by decide)
  | cons hitem _ ih =>
      rw [List.append_assoc] at htags
      have hrest := ih htags.right
      rcases hitem with hspace | hcomment | hinstruction
      · exact hspace.2.clean.append hrest
      · exact absurd htags hcomment.not_onlyTags
      · exact absurd htags hinstruction.not_onlyTags

theorem Content.clean {text tail : Text} (h : Content CharData text)
    (htags : OnlyTags (text ++ tail)) : Clean text := by
  induction h generalizing tail with
  | data hrun => exact hrun.toClean
  | item hrun hitem _ ih =>
      simp only [List.append_assoc] at htags
      have hrest := ih htags.right.right
      rcases hitem with hempty | hcomment | hsection | hinstruction
      · exact (hrun.toClean.append hempty.clean).append hrest
      · exact absurd htags.right hcomment.not_onlyTags
      · exact absurd htags.right hsection.not_onlyTags
      · exact absurd htags.right hinstruction.not_onlyTags
  | element hrun hstart _ hclose _ ihinner ihrest =>
      simp only [List.append_assoc] at htags
      have hinner := ihinner htags.right.right
      have hrest := ihrest htags.right.right.right.right
      exact (((hrun.toClean.append hstart.clean).append hinner).append hclose.clean).append hrest

theorem Root.clean {text tail : Text} (h : Root CharData text) (htags : OnlyTags (text ++ tail)) :
    Clean text := by
  cases h with
  | empty htag => exact htag.clean
  | element hstart hinner hclose =>
      simp only [List.append_assoc] at htags
      exact (hstart.clean.append (hinner.clean htags.right)).append hclose.clean

theorem eq_of_append_cons {test : Char → Bool} {s t rest rest' : Text} {c c' : Char}
    (hs : ∀ c ∈ s, test c) (ht : ∀ c ∈ t, test c) (hc : test c = false) (hc' : test c' = false)
    (h : s ++ c :: rest = t ++ c' :: rest') : s = t := by
  have htaken := congrArg (List.takeWhile test) h
  rwa [List.takeWhile_append_of_pos hs, List.takeWhile_append_of_pos ht,
    List.takeWhile_cons_of_neg (by simp [hc]), List.takeWhile_cons_of_neg (by simp [hc']),
    List.append_nil, List.append_nil] at htaken

theorem isNameChar_of_isSpace {c : Char} (h : isSpace c) : isNameChar c = false := by
  have hspaces : ∀ c ∈ [' ', '\t', '\r', '\n'], isNameChar c = false := by decide
  exact hspaces c (isSpace_iff.mp h)

theorem Instruction.append_ne {text tail rest : Text} (h : Instruction text) :
    text ++ tail ≠ "<?xml ".toList ++ rest := by
  intro heq
  obtain ⟨htarget, hreserved, -, hspace, -⟩ := h
  rename_i target text
  have hbehind : ∃ c behind, isNameChar c = false ∧ text ++ ['?', '>'] ++ tail = c :: behind := by
    rcases hspace with rfl | ⟨space, more, ⟨hne, hblank⟩, rfl⟩
    · exact ⟨'?', _, by decide, rfl⟩
    · obtain ⟨c, space, rfl⟩ := List.exists_cons_of_ne_nil hne
      exact ⟨c, _, isNameChar_of_isSpace (hblank c List.mem_cons_self), rfl⟩
  obtain ⟨c, behind, hc, hbehind⟩ := hbehind
  have hwords : target ++ c :: behind = "xml".toList ++ ' ' :: rest := by
    have htail := congrArg (List.drop 2) heq
    simpa [← hbehind] using htail
  have hxml : target = "xml".toList :=
    eq_of_append_cons htarget.isNameChar (by decide) hc (by decide) hwords
  exact hreserved (by rw [hxml]; decide)

theorem Root.exists_cons {data : Text → Prop} {text : Text} (h : Root data text) :
    ∃ c rest, isNameStart c ∧ text = '<' :: c :: rest := by
  cases h with
  | empty htag =>
      obtain ⟨⟨hhead, -⟩, -, -⟩ := htag
      exact ⟨_, _, hhead, rfl⟩
  | element hstart _ _ =>
      obtain ⟨⟨hhead, -⟩, -, -⟩ := hstart
      exact ⟨_, _, hhead, rfl⟩

theorem Misc.append_ne {data : Text → Prop} {before root after rest : Text} (hbefore : Misc before)
    (hroot : Root data root) : before ++ root ++ after ≠ "<?xml ".toList ++ rest := by
  intro heq
  cases hbefore with
  | nil =>
      obtain ⟨c, tail, hc, rfl⟩ := hroot.exists_cons
      have hsecond : c = '?' := (List.cons.inj (List.cons.inj heq).2).1
      exact absurd (hsecond ▸ hc) (by decide)
  | cons hitem _ =>
      rcases hitem with ⟨hne, hblank⟩ | hcomment | hinstruction
      · obtain ⟨c, space, rfl⟩ := List.exists_cons_of_ne_nil hne
        have hfirst : c = '<' := (List.cons.inj heq).1
        exact absurd (hfirst ▸ hblank c List.mem_cons_self) (by decide)
      · obtain ⟨-, -⟩ := hcomment
        have hsecond : '!' = '?' := (List.cons.inj (List.cons.inj heq).2).1
        exact absurd hsecond (by decide)
      · rw [List.append_assoc, List.append_assoc] at heq
        exact hinstruction.append_ne heq

/-- A well-formed document with a declaration, and with nothing but tags behind it, is clean
throughout. -/
theorem Document.clean {rest : Text} (h : Document CharData ("<?xml ".toList ++ rest))
    (htags : OnlyTags ("?xml ".toList ++ rest)) : Clean ("<?xml ".toList ++ rest) := by
  generalize htext : "<?xml ".toList ++ rest = text at h
  obtain ⟨hdeclaration, hbefore, hroot, hafter⟩ := h
  rename_i declaration before root after
  rcases hdeclaration with rfl | hdeclaration
  · exact absurd htext.symm (hbefore.append_ne hroot)
  · obtain ⟨declared, hdeclared⟩ : ∃ declared, declaration = '<' :: declared := by
      obtain ⟨-, -, -, -⟩ := hdeclaration
      exact ⟨_, rfl⟩
    rw [hdeclared, List.append_assoc, List.append_assoc] at htext
    have htail : "?xml ".toList ++ rest = declared ++ (before ++ (root ++ after)) :=
      (List.cons.inj htext).2
    have hbehind : OnlyTags (declared ++ (before ++ (root ++ after))) := htail ▸ htags
    have hlast : OnlyTags (after ++ []) := by
      rw [List.append_nil]
      exact hbehind.right.right.right
    exact ((hdeclaration.clean.append (hbefore.clean hbehind.right)).append
      (hroot.clean hbehind.right.right)).append (hafter.clean hlast)

theorem OnlyTags.append {s t : Text} (hs : OnlyTags s) (ht : OnlyTags t) : OnlyTags (s ++ t) := by
  refine Followed.append ?_ hs ht
  rintro after more ⟨c, rest, rfl, hne⟩
  exact ⟨c, rest ++ more, rfl, hne⟩

theorem onlyTags_of_not_mem {text : Text} (h : '<' ∉ text) : OnlyTags text := followed_of_not_mem h

theorem onlyTags_cons {c : Char} {text : Text} (hc : c ≠ '!' ∧ c ≠ '?') (h : '<' ∉ c :: text) :
    OnlyTags ('<' :: c :: text) :=
  followed_cons ⟨c, text, rfl, hc⟩ h

theorem Blank.not_mem {text : Text} (h : Blank text) : '<' ∉ text := by
  intro hmem
  exact absurd (h _ hmem) (by decide)

theorem Blank.append {s t : Text} (hs : Blank s) (ht : Blank t) : Blank (s ++ t) := by
  intro c hc
  rcases List.mem_append.mp hc with hc | hc
  · exact hs c hc
  · exact ht c hc

theorem Clean.charData {text : Text} (h : Clean text) (hlt : '<' ∉ text) (hgt : '>' ∉ text) :
    CharData text := by
  refine ⟨h, hlt, ?_⟩
  intro hwithin
  have hmem : '>' ∈ "]]>".toList := by decide
  exact hgt (hwithin.subset hmem)

theorem Blank.charData {text : Text} (h : Blank text) : CharData text := by
  apply h.clean.charData h.not_mem
  intro hmem
  exact absurd (h _ hmem) (by decide)

theorem Name.not_mem {name : Text} (h : Name name) : '<' ∉ name :=
  not_mem_of_isNameChar h.isNameChar (by decide)

theorem Attributes.not_mem {names : List Text} {text : Text} (h : Attributes names text) :
    '<' ∉ text := by
  induction h with
  | nil => exact List.not_mem_nil
  | cons hspace hname hequals hvalue _ _ ih =>
      obtain ⟨before, after, hbefore, hafter, rfl⟩ := hequals
      obtain ⟨hquote, -, hvalue⟩ := hvalue
      have hquotes : ∀ quote ∈ ['"', '\''], '<' ≠ quote := by decide
      simp [hspace.2.not_mem, hname.not_mem, hbefore.not_mem, hafter.not_mem, hvalue.no_tag, ih,
        hquotes _ hquote]

theorem StartTag.onlyTags {name text : Text} (h : StartTag name text) : OnlyTags text := by
  obtain ⟨⟨hhead, htail⟩, hattrs, hspace⟩ := h
  rename_i head tail
  have hname : '<' ∉ head :: tail := Name.not_mem ⟨hhead, htail⟩
  have hne : head ≠ '!' ∧ head ≠ '?' := by
    constructor
    · rintro rfl
      exact absurd hhead (by decide)
    · rintro rfl
      exact absurd hhead (by decide)
  apply onlyTags_cons hne
  simp only [List.mem_cons, not_or] at hname ⊢
  simp [hname, hattrs.not_mem, hspace.not_mem]

theorem EndTag.onlyTags {name text : Text} (h : EndTag name text) : OnlyTags text := by
  obtain ⟨hname, hspace⟩ := h
  apply onlyTags_cons (by decide)
  simp [hname.not_mem, hspace.not_mem]

/-- Content of nothing but elements and the data between them. -/
inductive Elements (data : Text → Prop) : Text → Prop
  | data {run : Text} (hrun : data run) : Elements data run
  | element {run name start inner close rest : Text} (hrun : data run)
      (hstart : StartTag name start) (hinner : Elements data inner) (hclose : EndTag name close)
      (hrest : Elements data rest) : Elements data (run ++ start ++ inner ++ close ++ rest)

theorem Elements.content {data : Text → Prop} {text : Text} (h : Elements data text) :
    Content data text := by
  induction h with
  | data hrun => exact .data hrun
  | element hrun hstart _ hclose _ ihinner ihrest =>
      exact .element hrun hstart ihinner hclose ihrest

theorem Elements.onlyTags {text : Text} (h : Elements (fun run => '<' ∉ run) text) :
    OnlyTags text := by
  induction h with
  | data hrun => exact onlyTags_of_not_mem hrun
  | element hrun hstart _ hclose _ ihinner ihrest =>
      exact ((((onlyTags_of_not_mem hrun).append hstart.onlyTags).append ihinner).append
        hclose.onlyTags).append ihrest

end IppCode.Xml
