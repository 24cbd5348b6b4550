/-
# JSON values

Whole numbers are kept exactly and apart from doubles, and an object keeps its
keys in the order in which they first came.

Key definitions: `Json`, `Json.field?`, `Json.depth`, `Json.isTrue`.
-/
import NumericAnswer.Json.Fields
import NumericAnswer.Text.Basic

namespace NumericAnswer

/-- A JSON value. -/
inductive Json where
  | null
  | bool (b : Bool)
  | integer (i : Int)
  | float (x : Float)
  | string (s : Text)
  | array (items : List Json)
  | object (fields : List (Text × Json))
  deriving Inhabited

namespace Json

/-- The value of a key of an object. -/
def field? (key : Text) : Json → Option Json
  | object fields => fields.lookup key
  | _ => none

/-- An object with keys given as strings. -/
def ofFields (fields : List (String × Json)) : Json :=
  object (fields.map fun field => (field.1.toList, field.2))

def ofString (s : String) : Json :=
  string s.toList

mutual

/-- How many values stand inside one another, the outermost included. -/
def depth : Json → Nat
  | array items => depthItems items + 1
  | object fields => depthFields fields + 1
  | _ => 1

def depthItems : List Json → Nat
  | [] => 0
  | item :: items => max (depth item) (depthItems items)

def depthFields : List (Text × Json) → Nat
  | [] => 0
  | (_, value) :: fields => max (depth value) (depthFields fields)

end

/-- The name of the type of a value in fault messages. -/
def typeName : Json → String
  | null => "NoneType"
  | bool _ => "bool"
  | integer _ => "int"
  | float _ => "float"
  | string _ => "str"
  | array _ => "list"
  | object _ => "dict"

/-- The value is true, or the number 1. -/
def isTrue : Json → Bool
  | bool b => b
  | integer i => i = 1
  | float x => x == 1
  | _ => false

end Json
end NumericAnswer
