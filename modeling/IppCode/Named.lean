import IppCode.Text

namespace IppCode

/-- A finite family listed in a fixed order, each member under a name of its own. -/
class Named (α : Type) where
  /-- All members, in the order in which messages list them. -/
  all : List α
  name : α → Text
  mem_all : ∀ a, a ∈ all
  name_injective : ∀ a ∈ all, ∀ b ∈ all, name a = name b → a = b

variable {α : Type} [Named α]

def ofName? (text : Text) : Option α := Named.all.find? (Named.name · = text)

structure UnknownName (α : Type) where
  text : Text

/-- Names the offending text and lists what would have been accepted. -/
def UnknownName.message (unknown : UnknownName α) : Text :=
  "unknown variant ".toList ++ quoted unknown.text ++ ", expected one of ".toList ++
    ", ".toList.intercalate ((Named.all : List α).map (quoted ∘ Named.name))

/-- Look up a name, keeping the text that is no name for the message. -/
def parseName (text : Text) : Except (UnknownName α) α :=
  match ofName? text with
  | some a => .ok a
  | none => .error ⟨text⟩

theorem ofName?_eq_some_iff {text : Text} {a : α} :
    ofName? text = some a ↔ Named.name a = text := by
  constructor
  · intro h
    simpa using List.find?_some h
  · intro h
    cases found : ofName? (α := α) text with
    | none =>
        have := List.find?_eq_none.1 found a (Named.mem_all a)
        simp [h] at this
    | some b =>
        have hb : Named.name b = text := by simpa using List.find?_some found
        rw [Named.name_injective a (Named.mem_all a) b (Named.mem_all b) (h.trans hb.symm)]

@[simp] theorem ofName?_name (a : α) : ofName? (Named.name a) = some a := ofName?_eq_some_iff.2 rfl

end IppCode
