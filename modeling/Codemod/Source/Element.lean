import Codemod.Source.Splice
import Codemod.Source.Tag

/-! Edits of markup elements: renaming them, dropping an attribute, and turning an attribute that
names a component into one that holds an element. -/
namespace Codemod.Source
open Text

/-- Renames the opening and closing tags of `old` elements that are live in the text. -/
def renameElement (text old new : List Char) : List Char :=
  if old.isEmpty || new.isEmpty || old == new then text
  else
    let inert := marks text
    let rename (r : Recogniser Unit) (lead : List Char) : List Edit :=
      (found r text).filterMap fun f =>
        if inert[f.start]? == some .live then some ⟨f.start, f.stop, lead ++ new⟩ else none
    splice text (rename (openingTag old) ['<'] ++ rename (closingTag old) ['<', '/'])

/-- The range of an attribute together with the blanks before it. -/
def attributeRange (text : List Char) (tag : OpeningTag) (a : Attribute) : Nat × Nat :=
  let lead := between tag.nameEnd a.start text
  (a.start - (lead.reverse.takeWhile isBlank).length, a.stop)

/-- Drops the attribute `attr`, with its value, from every opening tag of `tag`. -/
def removeAttribute (text tag attr : List Char) : List Char :=
  if tag.isEmpty || attr.isEmpty then text
  else splice text <| (openingTags text tag).flatMap fun t =>
    (t.attributes.filter (·.name == attr)).map fun a =>
      let (start, stop) := attributeRange text t a
      ⟨start, stop, []⟩

/-- A name, or names joined by dots. -/
def isMemberExpression (cs : List Char) : Bool :=
  (pieces (· == '.') cs).all fun
    | [] => false
    | c :: rest => isNameStart c && rest.all isIdentifier

def namedComponent? (a : Attribute) : Option (List Char) :=
  match a.value with
  | some ('{' :: rest) =>
    let inner := trim rest.dropLast
    if isMemberExpression inner then some inner else none
  | _ => none

/-- Writes `old={C}` as `new={<C />}` on the elements called `tag`, where `C` names a component and
the element has no attribute `new` of its own. -/
def convertAttribute (text tag old new : List Char) : List Char :=
  if tag.isEmpty || old.isEmpty || new.isEmpty then text
  else splice text <| (openingTags text tag).flatMap fun t =>
    if old != new && t.attributes.any (·.name == new) then []
    else (t.attributes.filter (·.name == old)).filterMap fun a =>
      (namedComponent? a).map fun component =>
        ⟨a.start, a.stop, new ++ "=\x7b<".toList ++ component ++ " />\x7d".toList⟩

end Codemod.Source
