import Codemod.Yaml.Timestamp
import Codemod.Number.Reader

/-! Tags, and the tags that plain scalars have by the way they are written. -/
namespace Codemod.Yaml

inductive Tag where
  | null
  | bool
  | int
  | float
  | timestamp
  | str
  | seq
  | map
  | set
  | omap
  | pairs
  | merge
  | value
  /-- A tag that no data has. -/
  | other (name : String)
  deriving DecidableEq, Repr

namespace Tag

def base : String := "tag:yaml.org,2002:"

def named : List (String × Tag) :=
  [("null", .null), ("bool", .bool), ("int", .int), ("float", .float), ("timestamp", .timestamp),
   ("str", .str), ("seq", .seq), ("map", .map), ("set", .set), ("omap", .omap), ("pairs", .pairs),
   ("merge", .merge), ("value", .value)]

def ofString (s : String) : Tag :=
  ((named.find? fun t => base ++ t.1 == s).map (·.2)).getD (.other s)

def text : Tag → String
  | .other name => name
  | t => base ++ ((named.find? (·.2 == t)).map (·.1)).getD ""

def isDigitOrGap (c : Char) : Bool := c.isDigit || c == '_'

def unsigned (cs : List Char) : List Char :=
  match cs with
  | '+' :: rest | '-' :: rest => rest
  | cs => cs

/-- A run of characters that satisfy `p`, not empty. -/
def isRun (p : Char → Bool) (cs : List Char) : Bool := !cs.isEmpty && cs.all p

/-- Digits and underscores, a digit first. -/
def isCount (cs : List Char) : Bool := cs.head?.any Char.isDigit && cs.all isDigitOrGap

def isSixtieth : List Char → Bool
  | [a] => a.isDigit
  | [a, b] => '0' ≤ a && a ≤ '5' && b.isDigit
  | _ => false

/-- Numbers to the base sixty, with colons between the digits. -/
def isSexagesimal (cs : List Char) : Bool :=
  match Text.pieces (· == ':') cs with
  | first :: second :: rest => isCount first && (second :: rest).all isSixtieth
  | _ => false

def isInt (cs : List Char) : Bool :=
  match unsigned cs with
  | ['0'] => true
  | '0' :: 'b' :: ds => isRun (fun c => c == '0' || c == '1' || c == '_') ds
  | '0' :: 'x' :: ds => isRun (fun c => (hexDigit c) || c == '_') ds
  | '0' :: ds => isRun (fun c => ('0' ≤ c && c ≤ '7') || c == '_') ds
  | cs => isCount cs || isSexagesimal cs
where
  hexDigit (c : Char) : Bool := c.isDigit || ('a' ≤ c && c ≤ 'f') || ('A' ≤ c && c ≤ 'F')

/-- Nothing, or an exponent with a sign. -/
def isExponent : List Char → Bool
  | [] => true
  | e :: s :: ds => (e == 'e' || e == 'E') && (s == '+' || s == '-') && isRun Char.isDigit ds
  | _ => false

def isFraction (cs : List Char) : Bool := isExponent (cs.dropWhile isDigitOrGap)

def isFloat (cs : List Char) : Bool :=
  let number := unsigned cs
  let whole := number.takeWhile (· != '.')
  match number.drop whole.length with
  | [] => false
  | _ :: fraction =>
    if whole.isEmpty then
      ["inf", "Inf", "INF"].contains (String.ofList fraction) ||
        (number.length == cs.length && (["nan", "NaN", "NAN"].contains (String.ofList fraction) ||
          (fraction.head?.any Char.isDigit && isFraction fraction)))
    else (isCount whole && isFraction fraction) ||
      (isSexagesimal whole && fraction.all isDigitOrGap)

def truths : List (List String × Bool) :=
  [(["yes", "Yes", "YES", "true", "True", "TRUE", "on", "On", "ON"], true),
   (["no", "No", "NO", "false", "False", "FALSE", "off", "Off", "OFF"], false)]

def ofPlain (text : String) : Tag :=
  let cs := text.toList
  if truths.any (·.1.contains text) then .bool
  else if isFloat cs then .float
  else if isInt cs then .int
  else if text == "<<" then .merge
  else if ["", "~", "null", "Null", "NULL"].contains text then .null
  else if (Timestamp.read? cs).isSome then .timestamp
  else if text == "=" then .value
  else .str

end Tag
end Codemod.Yaml
