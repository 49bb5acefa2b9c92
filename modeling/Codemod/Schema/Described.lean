import Codemod.Json.Basic
import Codemod.Json.Printer
import Codemod.Text.Blank

/-! Schemas with titles and descriptions, written for every record from a list of its fields. -/
namespace Codemod.Schema

/-! # Closing a schema

Every object in a schema that is given as JSON gets to have all the fields it lists, and no others. -/

def isObject (fields : List (String × Json)) : Bool := Json.get? fields "type" == some (.str "object")

/-- The names that have to be there: those already listed, then the properties that are not. -/
def allRequired (listed : Option Json) (properties : List (String × Json)) : Json :=
  let names := properties.map fun p => Json.str p.1
  match listed with
  | some (.arr old) => .arr (old ++ names.filter fun n => !old.contains n)
  | _ => .arr names

/-- The fields of an object schema, with the two that close it. -/
def close (fields : List (String × Json)) : List (String × Json) :=
  if isObject fields then
    let fields := Json.set "additionalProperties" (.bool false) fields
    match Json.get? fields "properties" with
    | some (.obj properties) =>
      Json.set "required" (allRequired (Json.get? fields "required") properties) fields
    | _ => fields
  else fields

mutual

/-- The schema with all objects in it closed. Names of properties are no keywords of the schema. -/
def closed : Json → Json
  | .obj fields => .obj (close (closedFields (isObject fields) fields))
  | .arr items => .arr (closedItems items)
  | v => v

def closedItems : List Json → List Json
  | [] => []
  | v :: rest => closed v :: closedItems rest

/-- Closes the values of the fields; the properties themselves only inside an object schema. -/
def closedFields (inObject : Bool) : List (String × Json) → List (String × Json)
  | [] => []
  | (name, v) :: rest =>
    (name, if name = "properties" then (if inObject then closedProperties v else v) else closed v) ::
      closedFields inObject rest

def closedProperties : Json → Json
  | .obj properties => .obj (closedEach properties)
  | v => v

def closedEach : List (String × Json) → List (String × Json)
  | [] => []
  | (name, v) :: rest => (name, closed v) :: closedEach rest

end

/-! # Titles and descriptions -/

/-- The values of a field. -/
inductive Shape where
  | text
  | integer
  | natural
  | word (w : String)
  | words (options : List String)
  | optional (s : Shape)
  | list (s : Shape)
  | named (record : String)

/-- Whether a field has to be there, and what stands in for it when it is not. -/
inductive Presence where
  | needed
  | filled
  | default (v : Json)

structure Field where
  name : String
  shape : Shape
  presence : Presence := .needed

/-- A record, by its name, what it is for, and its fields. -/
structure Description where
  name : String
  text : String
  fields : List Field

/-- A name as a title: its first letter large and the others small. -/
def title (name : String) : String :=
  match name.toList with
  | [] => ""
  | c :: cs => String.ofList (c.toUpper :: Text.lowerAscii cs)

def Shape.parts : Shape → List (String × Json)
  | .text => [("type", .str "string")]
  | .integer => [("type", .str "integer")]
  | .natural => [("minimum", .int 0), ("type", .str "integer")]
  | .word w => [("const", .str w), ("type", .str "string")]
  | .words options => [("enum", Json.strings options), ("type", .str "string")]
  | .optional s => [("anyOf", .arr [.obj s.parts, .obj [("type", .str "null")]])]
  | .list s => [("items", .obj s.parts), ("type", .str "array")]
  | .named name => [("$ref", .str s!"#/$defs/{name}")]

def Presence.parts : Presence → List (String × Json)
  | .default v => [("default", v)]
  | _ => []

/-- The schema of a field. A record has its title where it is described. -/
def Field.toJson (f : Field) : Json :=
  let titled := match f.shape with
    | .named _ => []
    | _ => [("title", Json.str (title f.name))]
  .obj (Json.sortFields (f.shape.parts ++ f.presence.parts ++ titled))

def Field.isNeeded (f : Field) : Bool := match f.presence with
  | .needed => true
  | _ => false

def Description.toJson (d : Description) : Json :=
  let needed := (d.fields.filter Field.isNeeded).map Field.name
  .obj ([("additionalProperties", .bool false), ("description", .str d.text),
    ("properties", .obj (d.fields.map fun f => (f.name, f.toJson)))] ++
    (if needed.isEmpty then [] else [("required", Json.strings needed)]) ++
    [("title", .str d.name), ("type", .str "object")])

/-- Descriptions that others refer to, by name. -/
def definitions (ds : List Description) : List (String × Json) :=
  if ds.isEmpty then []
  else [("$defs", .obj (Json.sortFields (ds.map fun d => (d.name, d.toJson))))]

/-- The closed schema of a record, together with the records it refers to. -/
def Description.schema (d : Description) (others : List Description) : Json :=
  match d.toJson with
  | .obj fields => closed (.obj (definitions others ++ fields))
  | v => v

/-- The closed schema of a choice between records, told apart by their `kind`. -/
def choice (kinds : List (String × Description)) (others : List Description) : Json :=
  let place (d : Description) : Json := .str s!"#/$defs/{d.name}"
  closed (.obj (definitions (kinds.map (·.2) ++ others) ++
    [("discriminator", .obj [
      ("mapping", .obj (Json.sortFields (kinds.map fun (k, d) => (k, place d)))),
      ("propertyName", .str "kind")]),
     ("oneOf", .arr (kinds.map fun (_, d) => .obj [("$ref", place d)]))]))

end Codemod.Schema
