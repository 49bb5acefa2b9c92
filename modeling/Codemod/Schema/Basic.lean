import Codemod.Json.Basic
import Codemod.Number.Double

/-! Schemas: descriptions of JSON values that can be sent along with a request for one. A record has
exactly the fields it lists. -/
namespace Codemod

inductive Schema where
  | text
  | integer
  | number
  | null
  | words (options : List String)
  | list (item : Schema)
  | anyOf (options : List Schema)
  | record (fields : List (String × Schema))
  deriving Repr

namespace Schema

def optional (s : Schema) : Schema := .anyOf [s, .null]

mutual

def toJson : Schema → Json
  | .text => .obj [("type", .str "string")]
  | .integer => .obj [("type", .str "integer")]
  | .number => .obj [("type", .str "number")]
  | .null => .obj [("type", .str "null")]
  | .words options => .obj [("type", .str "string"), ("enum", Json.strings options)]
  | .list item => .obj [("type", .str "array"), ("items", toJson item)]
  | .anyOf options => .obj [("anyOf", .arr (optionsToJson options))]
  | .record fields =>
    .obj [("type", .str "object"), ("additionalProperties", .bool false),
      ("properties", .obj (fieldsToJson fields)), ("required", Json.strings (fields.map (·.1)))]

def optionsToJson : List Schema → List Json
  | [] => []
  | s :: rest => toJson s :: optionsToJson rest

def fieldsToJson : List (String × Schema) → List (String × Json)
  | [] => []
  | (name, s) :: rest => (name, toJson s) :: fieldsToJson rest

end

mutual

/-- Whether a value is as a schema says. A whole number may be written with a fraction of zeros. -/
def accepts (v : Json) : Schema → Bool
  | .text => match v with
    | .str _ => true
    | _ => false
  | .integer => match v with
    | .int _ => true
    | .float x => (Number.truncate? x).any fun n => Number.ofInt n == x
    | _ => false
  | .number => match v with
    | .int _ | .float _ => true
    | _ => false
  | .null => match v with
    | .null => true
    | _ => false
  | .words options => match v with
    | .str s => options.contains s
    | _ => false
  | .list item => match v with
    | .arr items => items.all fun v => accepts v item
    | _ => false
  | .anyOf options => acceptsAny v options
  | .record fields => match v with
    | .obj given => given.all (fun f => fields.any (·.1 == f.1)) && acceptsFields given fields
    | _ => false

def acceptsAny (v : Json) : List Schema → Bool
  | [] => false
  | s :: rest => accepts v s || acceptsAny v rest

/-- Whether every field is given, each as its schema says. -/
def acceptsFields (given : List (String × Json)) : List (String × Schema) → Bool
  | [] => true
  | (name, s) :: rest =>
    (match Json.get? given name with
      | some v => accepts v s
      | none => false) && acceptsFields given rest

end

end Schema
end Codemod
