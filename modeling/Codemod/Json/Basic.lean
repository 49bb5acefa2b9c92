/-! JSON values. Fields keep their order, whole numbers are exact, and a number with a fraction or an
exponent is a double. -/
namespace Codemod

inductive Json where
  | null
  | bool (b : Bool)
  | int (n : Int)
  | float (x : Float)
  | str (s : String)
  | arr (items : List Json)
  | obj (fields : List (String × Json))
  deriving Inhabited, Repr, BEq

namespace Json

def get? (fields : List (String × α)) (name : String) : Option α :=
  (fields.find? (·.1 == name)).map (·.2)

/-- Sets a field: in its place when it is there, and behind the others when it is new. -/
def set (name : String) (value : α) : List (String × α) → List (String × α)
  | [] => [(name, value)]
  | (key, old) :: fields =>
    if key = name then (name, value) :: fields else (key, old) :: set name value fields

theorem get?_set_self (fields : List (String × α)) (name : String) (value : α) :
    get? (set name value fields) name = some value := by
  induction fields with
  | nil => simp [set, get?]
  | cons f fields ih =>
    unfold set
    split
    · simp [get?]
    · next h => simpa [get?, h] using ih

theorem get?_set_of_ne {name other : String} (h : name ≠ other) (fields : List (String × α))
    (value : α) : get? (set name value fields) other = get? fields other := by
  induction fields with
  | nil => simp [set, get?, h]
  | cons f fields ih =>
    unfold set
    split
    · next hk => simp [get?, h, hk]
    · simp only [get?, List.find?_cons] at ih ⊢
      split <;> simp_all

def erase (name : String) (fields : List (String × α)) : List (String × α) :=
  fields.filter (·.1 != name)

theorem get?_erase_self (fields : List (String × α)) (name : String) :
    get? (erase name fields) name = none := by
  simp [get?, erase, List.find?_eq_none]

theorem get?_erase_of_ne {name other : String} (h : name ≠ other) (fields : List (String × α)) :
    get? (erase name fields) other = get? fields other := by
  unfold get? erase
  rw [List.find?_filter]
  refine congrArg _ (congrArg (List.find? · fields) (funext fun f => ?_))
  by_cases hf : f.1 = other
  · simp [hf, Ne.symm h]
  · simp [hf]

/-- A field of an object; nothing for other values. -/
def field? (name : String) : Json → Option Json
  | .obj fields => get? fields name
  | _ => none

def str? : Json → Option String
  | .str s => some s
  | _ => none

def ofOption (f : α → Json) : Option α → Json
  | none => .null
  | some a => f a

def strings (texts : List String) : Json := .arr (texts.map .str)

end Json
end Codemod
