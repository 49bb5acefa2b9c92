import Codemod.Source.Found
import Codemod.Text.Word

/-! Import declarations that take names from a module, as a source writes them: reading them from
the text and writing them back in the shape they had. -/
namespace Codemod.Source
open Text

/-- One name of a brace list, `[type ]imported[ as bound]`. -/
structure Specifier where
  imported : List Char
  /-- The name it has in this file. -/
  bound : List Char
  typeOnly : Bool
  deriving DecidableEq, Repr

structure ImportDecl where
  indent : List Char
  /-- The word `type` and the blanks after it, when the whole declaration imports types. -/
  typeWord : List Char
  defaultName : Option (List Char)
  /-- The `* as name` item. -/
  allNames : Option (List Char)
  named : Option (List Specifier)
  /-- The brace list as written; its layout is kept when the list is written anew. -/
  braces : List Char
  module : List Char
  quote : Char
  semicolon : Bool
  deriving DecidableEq, Repr

def asWord : List Char := " as ".toList

/-- Reads one item of a brace list, whatever blanks it holds. -/
def Specifier.ofText? (text : List Char) : Option Specifier :=
  let token := joinWith [' '] (words text)
  if token.isEmpty then none
  else
    let (typeOnly, token) := match after? "type ".toList token with
      | some rest => (true, trim rest)
      | none => (false, token)
    match splitAt? asWord token with
    | some (imported, bound) => some ⟨trim imported, trim bound, typeOnly⟩
    | none => some ⟨token, token, typeOnly⟩

def Specifier.render (s : Specifier) : List Char :=
  (if s.typeOnly then "type ".toList else []) ++ s.imported ++
    if s.bound = s.imported then [] else asWord ++ s.bound

def isBrace (c : Char) : Bool := c == '{' || c == '}'

def specifiers (braces : List Char) : List Specifier :=
  let inner := ((braces.dropWhile isBrace).reverse.dropWhile isBrace).reverse
  (pieces (· == ',') inner).filterMap Specifier.ofText?

/-- The brace list of an import clause: from the first opening brace to the last closing one, or to
the end of the clause when none follows. -/
def bracesOf (clause : List Char) : Option (List Char × List Char) :=
  (clause.idxOf? '{').map fun start =>
    let rest := clause.drop start
    let tail := rest.reverse.dropWhile (· != '}')
    (clause.take start, if tail.isEmpty then rest else tail.reverse)

/-- The `from`, the quoted module name and its length at the head of a text. -/
def fromModule? (cs : List Char) : Option (Char × List Char × Nat) :=
  match after? "from".toList (trimLeft cs) with
  | none => none
  | some rest =>
    match trimLeft rest with
    | [] => none
    | q :: rest =>
      let name := rest.takeWhile fun c => !isQuote c && c != '\n'
      let rest := rest.drop name.length
      if isQuote q && !name.isEmpty && rest.head? == some q then
        some (q, name, cs.length - (rest.length - 1))
      else none

/-- The clause before the first `from` with a module name, and what `fromModule?` reads there. A
clause holds neither quotes nor semicolons. -/
def clause? (cs : List Char) : Option (List Char × Char × List Char × Nat) :=
  match fromModule? cs with
  | some (q, name, n) => some ([], q, name, n)
  | none =>
    match cs with
    | [] => none
    | c :: rest =>
      if c == ';' || isQuote c then none
      else (clause? rest).map fun (clause, q, name, n) => (c :: clause, q, name, n + 1)

def isSpaceOrTab (c : Char) : Bool := c == ' ' || c == '\t'

/-- The text after a word and the blanks it needs behind it, with the length of both. -/
def wordWithBlanks? (word cs : List Char) : Option (Nat × List Char) :=
  (after? word cs).bind fun rest =>
    let gap := (rest.takeWhile isBlank).length
    if gap = 0 then none else some (word.length + gap, rest.drop gap)

/-- The items before the brace list: a name, or `* as name`. -/
def ImportDecl.withHead (d : ImportDecl) (head : List Char) : ImportDecl :=
  ((pieces (· == ',') head).map trim).foldl (fun d item =>
    match item with
    | [] => d
    | '*' :: _ => { d with allNames := some item }
    | _ => { d with defaultName := some item }) d

/-- An import declaration that begins a line, with its semicolon. -/
def importDecl : Recogniser ImportDecl := fun behind cs =>
  if behind.any (· != '\n') then none
  else
    let indent := cs.takeWhile isSpaceOrTab
    match wordWithBlanks? "import".toList (cs.drop indent.length) with
    | none => none
    | some (importLength, rest) =>
      let (typeLength, rest) := (wordWithBlanks? "type".toList rest).getD (0, rest)
      let typeWord := (cs.drop (indent.length + importLength)).take typeLength
      (clause? rest).map fun (clause, quote, module, n) =>
        let clause := trim clause
        let tail := rest.drop n
        let gap := (tail.takeWhile isSpaceOrTab).length
        let semicolon := (tail.drop gap).head? == some ';'
        let length := indent.length + importLength + typeLength + n +
          (if semicolon then gap + 1 else 0)
        let bare : ImportDecl := ⟨indent, typeWord, none, none, none, [], module, quote, semicolon⟩
        let decl := match bracesOf clause with
          | some (head, braces) =>
            ({ bare with named := some (specifiers braces), braces }).withHead head
          | none => bare.withHead clause
        (decl, length)

/-- The import declarations of a text, wherever a line begins with one. -/
def imports (text : List Char) : List (Found ImportDecl) := found importDecl text

/-- A brace list with the given items in the layout of an earlier one. -/
def renderBraces (items : List Specifier) (braces indent : List Char) : List Char :=
  let inner := (braces.drop 1).dropLast
  let texts := items.map Specifier.render
  if inner.contains '\n' then
    let itemIndent := match (lines inner).find? fun l => !(trim l).isEmpty with
      | some line => line.takeWhile isBlank
      | none => indent ++ [' ', ' ']
    let last := if (trimRight inner).getLast? == some ',' then [','] else []
    "\x7b\n".toList ++ itemIndent ++ joinWith (",\n".toList ++ itemIndent) texts ++ last ++
      '\n' :: indent ++ ['}']
  else
    let pad := if inner.isEmpty || inner.head? == some ' ' then [' '] else []
    '{' :: pad ++ joinWith ", ".toList texts ++ pad ++ ['}']

/-- The declaration with the given items in its brace list; an empty list is left out. -/
def ImportDecl.render (d : ImportDecl) (named : List Specifier) : List Char :=
  let items := d.defaultName.toList ++ d.allNames.toList ++
    if named.isEmpty then [] else [renderBraces named d.braces d.indent]
  d.indent ++ "import ".toList ++ d.typeWord ++ joinWith ", ".toList items ++ " from ".toList ++
    d.quote :: d.module ++ d.quote :: if d.semicolon then [';'] else []

end Codemod.Source
