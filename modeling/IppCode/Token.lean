import IppCode.Escape
import IppCode.Kind

namespace IppCode

/-- The characters other than letters and digits that identifiers are made of. -/
def specials : List Char := "_-$&%*!?".toList

def isIdentifierHead (c : Char) : Bool := c.isAlpha || specials.contains c

def isIdentifierTail (c : Char) : Bool := c.isAlphanum || specials.contains c

/-- A letter or special character, followed by letters, digits and special characters. -/
def isIdentifier : Text → Bool
  | [] => false
  | c :: rest => isIdentifierHead c && rest.all isIdentifierTail

/-- Digits, perhaps none, after at most one sign. -/
def isNumeral : Text → Bool
  | '+' :: digits => digits.all Char.isDigit
  | '-' :: digits => digits.all Char.isDigit
  | digits => digits.all Char.isDigit

/-- The local, temporary and global frame. -/
def frames : List Text := ["LF".toList, "TF".toList, "GF".toList]

def truthValues : List Text := ["true".toList, "false".toList]

def typeNames : List Text := ["int".toList, "string".toList, "bool".toList]

/-- What stands between the tag of a token and its payload. -/
def tagMark : Char := '@'

/-- A token with one of the given tags and a payload that passes the test. -/
def isTagged (tags : List Text) (test : Text → Bool) (token : Text) : Bool :=
  match cutAt? tagMark token with
  | some (tag, payload) => tags.contains tag && test payload
  | none => false

/-- The part of a token behind its tag, or all of it when it carries none. -/
def payload (token : Text) : Text :=
  match cutAt? tagMark token with
  | some (_, rest) => rest
  | none => token

namespace Kind

/-- What can stand before the mark in a token of a kind. Labels and type names have no mark. -/
def tags : Kind → List Text
  | var => frames
  | int => ["int".toList]
  | bool => ["bool".toList]
  | string => ["string".toList]
  | nil => ["nil".toList]
  | label | type => []

def accepts : Kind → Text → Bool
  | var => isTagged var.tags isIdentifier
  | int => isTagged int.tags isNumeral
  | bool => isTagged bool.tags truthValues.contains
  | string => isTagged string.tags isWellEscaped
  | nil => isTagged nil.tags (· == "nil".toList)
  | label => isIdentifier
  | type => typeNames.contains

/-- A document names the kind of a literal by the tag that a source gives it. -/
theorem tags_of_literal : ∀ kind ∈ [int, bool, string, nil], kind.tags = [kind.name] := by
  decide

end Kind

theorem isTagged_eq_true_iff {tags : List Text} {test : Text → Bool} {token : Text} :
    isTagged tags test token ↔
      ∃ tag ∈ tags, ∃ rest, test rest ∧ token = tag ++ tagMark :: rest ∧ tagMark ∉ tag := by
  unfold isTagged
  cases h : cutAt? tagMark token with
  | none =>
      have absent := cutAt?_eq_none_iff.1 h
      simp only [Bool.false_eq_true, false_iff]
      rintro ⟨tag, _, rest, _, rfl, _⟩
      simp at absent
  | some parts =>
      obtain ⟨tag, rest⟩ := parts
      simp only [Bool.and_eq_true, List.contains_iff_mem]
      constructor
      · rintro ⟨htag, htest⟩
        exact ⟨tag, htag, rest, htest, cutAt?_eq_some_iff.1 h⟩
      · rintro ⟨tag', htag, rest', htest, hsplit⟩
        rw [cutAt?_eq_some_iff.2 hsplit] at h
        simp only [Option.some.injEq, Prod.mk.injEq] at h
        exact ⟨h.1 ▸ htag, h.2 ▸ htest⟩

@[simp] theorem payload_append_cons {tag rest : Text} (h : tagMark ∉ tag) :
    payload (tag ++ tagMark :: rest) = rest := by
  simp [payload, cutAt?_append_cons h]

theorem payload_of_not_mem {token : Text} (h : tagMark ∉ token) : payload token = token := by
  simp [payload, cutAt?_eq_none_iff.2 h]

end IppCode
