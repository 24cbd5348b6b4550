/-
# Settings

Settings are values of any type under keys. The built-in defaults come first;
a settings file, if it holds an object or a list of entries, overrides them
and adds keys of its own.

Key definitions: `Setting`, `SettingKey`, `Settings`, `Settings.default`,
`Settings.overlay`, `Settings.get`, `Settings.find`.
-/
import NumericAnswer.Json.Writer
import NumericAnswer.Settings.Fault

namespace NumericAnswer

/-- The settings that the library uses. -/
inductive Setting where
  | significantDigits
  | integerTolerance
  | fractionMaxDenominator
  | answerTolerance
  | darkMode
  | copyAfterEvaluate
  | debug
  deriving DecidableEq, Repr

namespace Setting

def all : List Setting :=
  [significantDigits, integerTolerance, fractionMaxDenominator, answerTolerance, darkMode,
   copyAfterEvaluate, debug]

def name : Setting → String
  | significantDigits => "significant_digits"
  | integerTolerance => "integer_tolerance"
  | fractionMaxDenominator => "fraction_max_denominator"
  | answerTolerance => "answer_tolerance"
  | darkMode => "darkmode"
  | copyAfterEvaluate => "copy_after_evaluate"
  | debug => "debug"

def default : Setting → Json
  | significantDigits => .integer 10
  | integerTolerance => .float 1e-10
  | fractionMaxDenominator => .integer 100
  | answerTolerance => .float 1e-9
  | darkMode | copyAfterEvaluate | debug => .bool false

end Setting

/-- A key is a name, or any other single value. -/
inductive SettingKey where
  | name (text : Text)
  | null
  | bool (b : Bool)
  | integer (i : Int)
  | float (x : Float)

/-- What makes two keys the same: numbers count by their value, and so do the
truth values, as 0 and 1. -/
inductive SettingKey.Identity where
  | name (text : Text)
  | null
  | number (r : Rat)
  | infinity (negative : Bool)
  | nan
  deriving DecidableEq

namespace SettingKey

def identity : SettingKey → Identity
  | name text => .name text
  | null => .null
  | bool b => .number (if b then 1 else 0)
  | integer i => .number i
  | float x =>
    match Binary.ofFloat? x with
    | some b => .number b.toRat
    | none => if x.isNaN then .nan else .infinity (x < 0)

instance : BEq SettingKey where
  beq a b := decide (a.identity = b.identity)

instance : EquivBEq SettingKey where
  rfl := decide_eq_true rfl
  symm h := decide_eq_true (of_decide_eq_true h).symm
  trans h₁ h₂ := decide_eq_true ((of_decide_eq_true h₁).trans (of_decide_eq_true h₂))

/-- A key as a name. -/
def text : SettingKey → Text
  | name text => text
  | null => "null".toList
  | bool b => Json.boolText b
  | integer i => integerText i
  | float x => Json.numberText x

/-- The key that a value is, if it is a single one. -/
def ofJson : Json → Except SettingsFault SettingKey
  | .string s => .ok (name s)
  | .null => .ok null
  | .bool b => .ok (bool b)
  | .integer i => .ok (integer i)
  | .float x => .ok (float x)
  | value => .error (.unhashableKey value.typeName)

end SettingKey

abbrev Settings := Fields SettingKey Json

namespace Settings

def default : Settings :=
  Setting.all.map fun s => (.name s.name.toList, s.default)

/-- The parts of an item of a list of entries. -/
def itemParts? : Json → Option (List Json)
  | .string s => some (s.map fun c => .string [c])
  | .array items => some items
  | .object fields => some (fields.map fun field => .string field.1)
  | _ => none

/-- The entry that an item is. It has two parts, the first one a key. -/
def entryOf (item : Json) (index : Nat) : Except SettingsFault (SettingKey × Json) :=
  match itemParts? item with
  | none => .error (.notEntry index)
  | some [key, value] => (SettingKey.ofJson key).map fun key => (key, value)
  | some parts => .error (.entryLength index parts.length)

/-- The entries of the items from `index` on. -/
def entriesFrom (index : Nat) : List Json → Except SettingsFault (List (SettingKey × Json))
  | [] => .ok []
  | item :: items => do
    let entry ← entryOf item index
    let entries ← entriesFrom (index + 1) items
    .ok (entry :: entries)

/-- The entries that a value has: those of an object, or of a list or text of
entries. -/
def entries : Json → Except SettingsFault (List (SettingKey × Json))
  | .object fields => .ok (fields.map fun field => (.name field.1, field.2))
  | .array items => entriesFrom 0 items
  | .string s => entriesFrom 0 (s.map fun c => .string [c])
  | value => .error (.notIterable value.typeName)

/-- The defaults with a value's entries over them. -/
def overlay (value : Json) : Except SettingsFault Settings :=
  (entries value).map fun entries => Fields.putAll entries default

/-- The value of a setting. -/
def get (settings : Settings) (s : Setting) : Json :=
  (settings.lookup (.name s.name.toList)).getD s.default

/-- The value under a name; a name that is nowhere has none. -/
def find (settings : Settings) (name : Text) : Json :=
  ((settings.lookup (.name name)).orElse fun _ => default.lookup (.name name)).getD .null

def toJson (settings : Settings) : Json :=
  .object (settings.map fun entry => (entry.1.text, entry.2))

end Settings
end NumericAnswer
