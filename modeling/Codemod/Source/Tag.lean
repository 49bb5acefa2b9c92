import Codemod.Source.Found
import Codemod.Text.Word

/-! Markup tags inside a source: where an element of a given name opens and closes, and the
attributes of an opening tag. -/
namespace Codemod.Source
open Text

/-- A tag cannot follow a word, a dollar sign, a dot, or a closed bracket: there, `<` compares or
begins type arguments. -/
def endsOperand (c : Char) : Bool := isIdentifier c || c == '.' || c == ')' || c == ']'

def openingTag (name : List Char) : Recogniser Unit := fun behind cs =>
  if behind.any endsOperand then none
  else match after? ('<' :: name) cs with
    | some (c :: _) => if isBlank c || c == '/' || c == '>' then some ((), name.length + 1) else none
    | _ => none

def closingTag (name : List Char) : Recogniser Unit := fun _ cs =>
  match after? ('<' :: '/' :: name) cs with
  | some rest => if (trimLeft rest).head? == some '>' then some ((), name.length + 2) else none
  | none => none

/-- An attribute of an opening tag; the value keeps its quotes or braces. -/
structure Attribute where
  name : List Char
  value : Option (List Char)
  start : Nat
  stop : Nat
  deriving DecidableEq, Repr

structure OpeningTag where
  name : List Char
  start : Nat
  nameEnd : Nat
  stop : Nat
  attributes : List Attribute
  deriving DecidableEq, Repr

def isAttributeChar (c : Char) : Bool := isIdentifier c || c == ':' || c == '.' || c == '-'

/-- The length of the attribute value at the head of a text. A quoted value runs to the next quote,
whatever stands between; a braced one to its matching brace. -/
def valueLength? : List Char → Option Nat
  | [] => none
  | c :: rest =>
    if isQuote c then (rest.idxOf? c).map (· + 2)
    else if c = '{' then (bracketExtent? '{' rest).map (· + 1)
    else none

/-- The attribute whose name begins with `c` at offset `pos`, `rest` being what follows. A name
with an equals sign but without a proper value spoils the tag. -/
def readAttribute? (pos : Nat) (c : Char) (rest : List Char) : Option Attribute :=
  let tail := rest.takeWhile isAttributeChar
  let rest := rest.drop tail.length
  let gap := (rest.takeWhile isBlank).length
  let named (value : Option (List Char)) (length : Nat) : Attribute :=
    ⟨c :: tail, value, pos, pos + 1 + tail.length + length⟩
  match rest.drop gap with
  | '=' :: rest =>
    let inner := (rest.takeWhile isBlank).length
    let rest := rest.drop inner
    (valueLength? rest).map fun n => named (some (rest.take n)) (gap + 1 + inner + n)
  | _ => some (named none 0)

/-- The attributes from offset `pos` on, and the offset after the end of the tag. A braced item that
is no attribute, as a spread, is passed over. -/
def attributesFrom (pos : Nat) (cs : List Char) : Option (List Attribute × Nat) :=
  let gap := (cs.takeWhile isBlank).length
  match _h : cs.drop gap with
  | [] => none
  | c :: rest =>
    if c = '>' then some ([], pos + gap + 1)
    else if c = '/' && rest.head? == some '>' then some ([], pos + gap + 2)
    else if c = '{' then
      match bracketExtent? '{' rest with
      | none => none
      | some n => attributesFrom (pos + gap + 1 + n) (rest.drop n)
    else if isNameStart c then
      match readAttribute? (pos + gap) c rest with
      | none => none
      | some a =>
        (attributesFrom a.stop (rest.drop (a.stop - (pos + gap + 1)))).map fun (as, stop) =>
          (a :: as, stop)
    else none
termination_by cs.length
decreasing_by
  all_goals
    have h := congrArg List.length _h
    simp only [List.length_drop, List.length_cons] at h ⊢
    omega

/-- The opening tag of an element whose `<` stands at offset `start`. -/
def openingTagAt? (text name : List Char) (start : Nat) : Option OpeningTag :=
  let nameEnd := start + 1 + name.length
  (attributesFrom nameEnd (text.drop nameEnd)).map fun (attributes, stop) =>
    ⟨name, start, nameEnd, stop, attributes⟩

/-- The opening tags of the elements called `name`, outside literals and comments. -/
def openingTags (text name : List Char) : List OpeningTag :=
  (liveFound (openingTag name) text).filterMap fun f => openingTagAt? text name f.start

end Codemod.Source
