import IppCode.Utf8

/-!
The grammar of XML 1.0 documents without a document type declaration, production by
production, over texts. What may stand between the tags is a parameter: with `CharData`
the grammar gives the well-formed documents, with a weaker condition their skeleton.
-/

namespace IppCode.Xml

def inRanges (ranges : List (Nat × Nat)) (n : Nat) : Bool :=
  ranges.any fun (low, high) => low ≤ n && n ≤ high

def charRanges : List (Nat × Nat) :=
  [(0x9, 0xA), (0xD, 0xD), (0x20, 0xD7FF), (0xE000, 0xFFFD), (0x10000, 0x10FFFF)]

def nameStartRanges : List (Nat × Nat) :=
  [(0x3A, 0x3A), (0x41, 0x5A), (0x5F, 0x5F), (0x61, 0x7A), (0xC0, 0xD6), (0xD8, 0xF6),
    (0xF8, 0x2FF), (0x370, 0x37D), (0x37F, 0x1FFF), (0x200C, 0x200D), (0x2070, 0x218F),
    (0x2C00, 0x2FEF), (0x3001, 0xD7FF), (0xF900, 0xFDCF), (0xFDF0, 0xFFFD), (0x10000, 0xEFFFF)]

def nameRanges : List (Nat × Nat) :=
  nameStartRanges ++
    [(0x2D, 0x2E), (0x30, 0x39), (0xB7, 0xB7), (0x300, 0x36F), (0x203F, 0x2040)]

/-- The characters a document may hold. -/
def isChar (c : Char) : Bool := inRanges charRanges c.toNat

def isSpace (c : Char) : Bool := c == ' ' || c == '\t' || c == '\r' || c == '\n'

def isNameStart (c : Char) : Bool := inRanges nameStartRanges c.toNat

def isNameChar (c : Char) : Bool := inRanges nameRanges c.toNat

/-- White space, perhaps none. -/
def Blank (text : Text) : Prop := ∀ c ∈ text, isSpace c

def Space (text : Text) : Prop := text ≠ [] ∧ Blank text

inductive Name : Text → Prop
  | intro {head : Char} {tail : Text} (hhead : isNameStart head)
      (htail : ∀ c ∈ tail, isNameChar c) : Name (head :: tail)

instance (text : Text) : Decidable (Blank text) :=
  inferInstanceAs (Decidable (∀ c ∈ text, isSpace c))

instance (text : Text) : Decidable (Space text) :=
  inferInstanceAs (Decidable (text ≠ [] ∧ Blank text))

instance (text : Text) : Decidable (Name text) :=
  match text with
  | [] => isFalse nofun
  | head :: tail =>
      decidable_of_iff (isNameStart head ∧ ∀ c ∈ tail, isNameChar c)
        ⟨fun h => ⟨h.1, h.2⟩, fun ⟨hhead, htail⟩ => ⟨hhead, htail⟩⟩

def hexValue (digits : Text) : Nat :=
  digits.foldl (fun value c => 16 * value +
    (if c.isDigit then c.toNat - '0'.toNat else c.toUpper.toNat - 'A'.toNat + 10)) 0

def isHexDigit (c : Char) : Bool :=
  c.isDigit || ('a' ≤ c && c ≤ 'f') || ('A' ≤ c && c ≤ 'F')

/-- A reference to one of the five entities every document has, or to a character by its code. -/
inductive Reference : Text → Prop
  | entity {name : Text} (hname : name ∈
      ["lt".toList, "gt".toList, "amp".toList, "quot".toList, "apos".toList]) :
      Reference ('&' :: name ++ [';'])
  | decimal {digits : Text} (hne : digits ≠ []) (hdigits : ∀ c ∈ digits, c.isDigit)
      (hcode : inRanges charRanges (Nat.ofDigitChars 10 digits 0)) :
      Reference ('&' :: '#' :: digits ++ [';'])
  | hexadecimal {digits : Text} (hne : digits ≠ []) (hdigits : ∀ c ∈ digits, isHexDigit c)
      (hcode : inRanges charRanges (hexValue digits)) :
      Reference ('&' :: '#' :: 'x' :: digits ++ [';'])

/-- Every occurrence of a mark is followed as it should be. -/
def Followed (mark : Char) (good : Text → Prop) (text : Text) : Prop :=
  ∀ before after, text = before ++ mark :: after → good after

/-- What has to follow an ampersand: the rest of a complete reference. -/
def CompletesReference (after : Text) : Prop :=
  ∃ reference rest, Reference reference ∧ '&' :: after = reference ++ rest

/-- Every character may stand in a document, and every ampersand begins a complete reference. -/
structure Clean (text : Text) : Prop where
  legal : ∀ c ∈ text, isChar c
  references : Followed '&' CompletesReference text

/-- Character data together with the references in it. A reference holds no further ampersand,
so that to ask for one at every ampersand is to ask for a sequence of both. -/
structure CharData (text : Text) : Prop extends Clean text where
  no_tag : '<' ∉ text
  no_section_end : ¬ "]]>".toList <:+: text

def Equals (text : Text) : Prop :=
  ∃ before after, Blank before ∧ Blank after ∧ text = before ++ '=' :: after

/-- A value in quotes of either kind. -/
inductive Quoted (value : Text → Prop) : Text → Prop
  | intro {quote : Char} {text : Text} (hquote : quote ∈ ['"', '\'']) (hne : quote ∉ text)
      (hvalue : value text) : Quoted value (quote :: text ++ [quote])

structure AttValue (text : Text) : Prop extends Clean text where
  no_tag : '<' ∉ text

/-- Attributes with the list of their names, no name twice. -/
inductive Attributes : List Text → Text → Prop
  | nil : Attributes [] []
  | cons {space name equals value rest : Text} {names : List Text} (hspace : Space space)
      (hname : Name name) (hequals : Equals equals) (hvalue : Quoted AttValue value)
      (hrest : Attributes names rest) (hnew : name ∉ names) :
      Attributes (name :: names) (space ++ name ++ equals ++ value ++ rest)

inductive StartTag (name : Text) : Text → Prop
  | intro {names : List Text} {attrs space : Text} (hname : Name name)
      (hattrs : Attributes names attrs) (hspace : Blank space) :
      StartTag name ('<' :: name ++ attrs ++ space ++ ['>'])

inductive EndTag (name : Text) : Text → Prop
  | intro {space : Text} (hname : Name name) (hspace : Blank space) :
      EndTag name ('<' :: '/' :: name ++ space ++ ['>'])

inductive EmptyTag : Text → Prop
  | intro {name attrs space : Text} {names : List Text} (hname : Name name)
      (hattrs : Attributes names attrs) (hspace : Blank space) :
      EmptyTag ('<' :: name ++ attrs ++ space ++ ['/', '>'])

inductive Comment : Text → Prop
  | intro {text : Text} (hlegal : ∀ c ∈ text, isChar c)
      (hdashes : ¬ "--".toList <:+: text ++ ['-']) :
      Comment ('<' :: '!' :: '-' :: '-' :: text ++ ['-', '-', '>'])

inductive Section : Text → Prop
  | intro {text : Text} (hlegal : ∀ c ∈ text, isChar c) (hclose : ¬ "]]>".toList <:+: text) :
      Section ('<' :: '!' :: "[CDATA[".toList ++ text ++ "]]>".toList)

/-- A processing instruction, whose target is any name but `xml`. -/
inductive Instruction : Text → Prop
  | intro {target text : Text} (htarget : Name target)
      (hreserved : target.map Char.toLower ≠ "xml".toList) (hlegal : ∀ c ∈ text, isChar c)
      (hspace : text = [] ∨ ∃ space rest, Space space ∧ text = space ++ rest)
      (hclose : ¬ "?>".toList <:+: text) :
      Instruction ('<' :: '?' :: target ++ text ++ ['?', '>'])

inductive Content (data : Text → Prop) : Text → Prop
  | data {run : Text} (hrun : data run) : Content data run
  | item {run item rest : Text} (hrun : data run)
      (hitem : EmptyTag item ∨ Comment item ∨ Section item ∨ Instruction item)
      (hrest : Content data rest) : Content data (run ++ item ++ rest)
  | element {run name start inner close rest : Text} (hrun : data run)
      (hstart : StartTag name start) (hinner : Content data inner) (hclose : EndTag name close)
      (hrest : Content data rest) : Content data (run ++ start ++ inner ++ close ++ rest)

inductive Root (data : Text → Prop) : Text → Prop
  | empty {text : Text} (htag : EmptyTag text) : Root data text
  | element {name start inner close : Text} (hstart : StartTag name start)
      (hinner : Content data inner) (hclose : EndTag name close) :
      Root data (start ++ inner ++ close)

/-- What may stand before and behind the root. -/
inductive Misc : Text → Prop
  | nil : Misc []
  | cons {item rest : Text} (hitem : Space item ∨ Comment item ∨ Instruction item)
      (hrest : Misc rest) : Misc (item ++ rest)

def Version (text : Text) : Prop :=
  ∃ digits, digits ≠ [] ∧ (∀ c ∈ digits, c.isDigit) ∧ text = "1.".toList ++ digits

def Encoding (text : Text) : Prop :=
  ∃ head tail, head.isAlpha ∧
    (∀ c ∈ tail, c.isAlphanum ∨ c = '.' ∨ c = '_' ∨ c = '-') ∧ text = head :: tail

/-- A key with a value in the declaration of a document. -/
def Setting (key : Text) (value : Text → Prop) (text : Text) : Prop :=
  ∃ space equals quoted, Space space ∧ Equals equals ∧ Quoted value quoted ∧
    text = space ++ key ++ equals ++ quoted

inductive Declaration : Text → Prop
  | intro {version encoding standalone space : Text}
      (hversion : Setting "version".toList Version version)
      (hencoding : encoding = [] ∨ Setting "encoding".toList Encoding encoding)
      (hstandalone : standalone = [] ∨
        Setting "standalone".toList (· ∈ ["yes".toList, "no".toList]) standalone)
      (hspace : Blank space) :
      Declaration ("<?xml".toList ++ version ++ encoding ++ standalone ++ space ++ "?>".toList)

inductive Document (data : Text → Prop) : Text → Prop
  | intro {declaration before root after : Text}
      (hdeclaration : declaration = [] ∨ Declaration declaration) (hbefore : Misc before)
      (hroot : Root data root) (hafter : Misc after) :
      Document data (declaration ++ before ++ root ++ after)

/-- Bytes that carry a well-formed document. -/
def WellFormed (bytes : Bytes) : Prop := ∃ text, bytes = toUtf8 text ∧ Document CharData text

/-- Bytes that carry a document with one root, whose tags nest and match and whose text between
the tags holds no further `<`. -/
def Nested (bytes : Bytes) : Prop :=
  ∃ text, bytes = toUtf8 text ∧ Document (fun run => '<' ∉ run) text

end IppCode.Xml
