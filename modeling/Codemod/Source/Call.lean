import Codemod.Source.Found
import Codemod.Source.Splice
import Codemod.Text.Word

/-! Call expressions: cutting an argument list at its commas, and editing every call of a name. -/
namespace Codemod.Source
open Text

/-- What is done to a call. -/
inductive CallAction where
  | rename
  | insertArgument
  | dropArgument
  | wrapArgument
  deriving DecidableEq, Repr

/-- One edit of a call; an edit that lacks a part it needs does nothing. -/
structure CallEdit where
  action : CallAction
  index : Option Int
  value : Option String
  deriving DecidableEq, Repr

/-- A called name with its arguments. -/
structure Call where
  name : List Char
  arguments : List (List Char)
  deriving DecidableEq, Repr

/-- Pieces of an argument list, cut at the commas outside literals and brackets. `depth` counts the
brackets open at this level, `frames` those of a literal being passed over; a literal that does not
end reaches to the end of the list. -/
def argumentPieces (depth : Int) (frames : List Frame) : List Char → List (List Char)
  | [] => [[]]
  | c :: rest =>
    let extend (pieces : List (List Char)) : List (List Char) :=
      match pieces with
      | [] => [[c]]
      | p :: ps => (c :: p) :: ps
    if frames.isEmpty then
      match quoteFrames c rest with
      | [] =>
        if (closer? c).isSome then extend (argumentPieces (depth + 1) [] rest)
        else if isCloser c then extend (argumentPieces (depth - 1) [] rest)
        else if c = ',' && depth = 0 then [] :: argumentPieces depth [] rest
        else extend (argumentPieces depth [] rest)
      | inner => extend (argumentPieces depth inner rest)
    else
      match step frames c rest with
      | none => [c :: rest]
      | some next => extend (argumentPieces depth next rest)

def splitArguments (inner : List Char) : List (List Char) :=
  ((argumentPieces 0 [] inner).map trim).filter (!·.isEmpty)

def CallEdit.apply (call : Call) (e : CallEdit) : Call :=
  let args := call.arguments
  let value := e.value.map String.toList
  match e.action with
  | .rename =>
    match value with
    | some (c :: cs) => { call with name := c :: cs }
    | _ => call
  | .insertArgument =>
    match value with
    | none => call
    | some v =>
      let i := match e.index with
        | none => args.length
        | some i => min i.toNat args.length
      { call with arguments := args.take i ++ v :: args.drop i }
  | .dropArgument =>
    match e.index with
    | some (.ofNat i) => { call with arguments := args.eraseIdx i }
    | _ => call
  | .wrapArgument =>
    match e.index, value with
    | some (.ofNat i), some (c :: cs) =>
      { call with arguments := args.modify i fun a => c :: cs ++ '(' :: a ++ [')'] }
    | _, _ => call

/-- The name of a call with the blanks before its opening parenthesis. -/
def calledName (name : List Char) : Recogniser (List Char) := fun behind cs =>
  if behind.any fun c => isIdentifier c || c == '.' then none
  else match after? name cs with
    | none => none
    | some rest =>
      let gap := rest.takeWhile isBlank
      if (rest.drop gap.length).head? == some '(' then
        some (gap, name.length + gap.length + 1)
      else none

/-- How far before a name the word `function` may begin to be seen. -/
def functionWindow : Nat := 20

/-- Whether reversed text, from `used` characters before a name on, begins with the word `function`
inside the window. -/
def functionWordBehind (used : Nat) (reversed : List Char) : Bool :=
  used + 8 ≤ functionWindow &&
    match after? "noitcnuf".toList reversed with
    | none => false
    | some rest => !rest.head?.any isWord

/-- Whether the text before a name ends in the word `function`, with a star or without: then the name
is declared there and not called. -/
def declaresFunction (before : List Char) : Bool :=
  let reversed := before.reverse
  let gap := (reversed.takeWhile isBlank).length
  let rest := reversed.drop gap
  functionWordBehind gap rest || (match rest with
    | '*' :: rest =>
      let inner := (rest.takeWhile isBlank).length
      functionWordBehind (gap + 1 + inner) (rest.drop inner)
    | _ => false)

/-- The replacement of one call, when the edits change it. A call whose parentheses do not match is
left alone, and arguments that stay the same keep their layout. -/
def editCallAt? (text callee : List Char) (edits : List CallEdit) (f : Found (List Char)) :
    Option Edit :=
  if declaresFunction (text.take f.start) then none
  else
    let rest := text.drop f.stop
    match bracketExtent? '(' rest with
    | none => none
    | some n =>
      let inner := rest.take (n - 1)
      let call : Call := ⟨callee, splitArguments inner⟩
      let edited := edits.foldl CallEdit.apply call
      if edited = call then none
      else
        let args := if edited.arguments = call.arguments then inner
          else joinWith ", ".toList edited.arguments
        some ⟨f.start, f.stop + n, edited.name ++ f.value ++ '(' :: args ++ [')']⟩

/-- Applies the edits, in order, to every call of `callee`. -/
def rewriteCall (text callee : List Char) (edits : List CallEdit) : List Char :=
  if callee.isEmpty || edits.isEmpty then text
  else splice text ((found (calledName callee) text).filterMap (editCallAt? text callee edits))

end Codemod.Source
