import Codemod.Path

/-! Options on a command line: `--name value`, `--name=value`, and one letter behind a single dash, where
several that take no value may share the dash and a value may follow without a blank. -/
namespace Codemod.Command

/-- An option that may be given. -/
structure Flag where
  name : String
  letter : Option Char := none
  takesValue : Bool := true
  deriving DecidableEq, Repr

/-- Options as they were given, with their values. -/
abbrev Given := List (String × Option String)

/-- The value of an option; of several the last one. -/
def Given.value? (g : Given) (name : String) : Option String :=
  (g.reverse.find? fun f => f.1 == name).bind (·.2)

def Given.has (g : Given) (name : String) : Bool := g.any (·.1 == name)

/-- What one argument gives, and the option that wants the next argument for its value. -/
structure Reading where
  given : Given := []
  wanting : Option String := none
  deriving DecidableEq, Repr

/-- An argument behind two dashes: a name, and perhaps its value. -/
def readName (flags : List Flag) (arg : List Char) : Option Reading :=
  let name := arg.takeWhile (· != '=')
  match flags.find? (·.name == String.ofList name), arg.drop name.length with
  | none, _ => none
  | some f, [] =>
    some (if f.takesValue then ⟨[], some f.name⟩ else ⟨[(f.name, none)], none⟩)
  | some f, _ :: value =>
    if f.takesValue then some ⟨[(f.name, some (String.ofList value))], none⟩ else none

/-- The letters behind one dash. What is left behind one that takes a value is its value. -/
def readLetters (flags : List Flag) : List Char → Option Reading
  | [] => some {}
  | c :: rest => do
    let f ← flags.find? (·.letter == some c)
    if !f.takesValue then
      let more ← readLetters flags rest
      return { more with given := (f.name, none) :: more.given }
    else if rest.isEmpty then return ⟨[], some f.name⟩
    else return ⟨[(f.name, some (String.ofList rest))], none⟩

def readFlag (flags : List Flag) (arg : List Char) : Option Reading :=
  match arg with
  | '-' :: '-' :: name => readName flags name
  | _ :: letters => readLetters flags letters
  | [] => none

def isFlag (arg : List Char) : Bool := arg.head? == some '-' && arg.length > 1

/-- The options at the head of some arguments and all that follows them, or with `everywhere` those
between other arguments too. Two dashes alone end the options. -/
def readFlags (flags : List Flag) (everywhere : Bool) : List String → Option (Given × List String)
  | [] => some ([], [])
  | arg :: rest =>
    if arg == "--" then some ([], rest)
    else if isFlag arg.toList then
      match readFlag flags arg.toList with
      | none => none
      | some ⟨given, none⟩ =>
        (readFlags flags everywhere rest).map fun (more, others) => (given ++ more, others)
      | some ⟨given, some name⟩ =>
        match rest with
        | [] => none
        | value :: rest =>
          (readFlags flags everywhere rest).map fun (more, others) =>
            (given ++ (name, some value) :: more, others)
    else if everywhere then
      (readFlags flags everywhere rest).map fun (given, others) => (given, arg :: others)
    else some ([], arg :: rest)

end Codemod.Command
