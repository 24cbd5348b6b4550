/-
# What requests read of the settings

Whatever is asked of the library, it has its result without the settings or
from one look-up: what it looks up after that comes from the same snapshot.

Key definitions: `Query`, `Query.access`, `Request`, `Request.query`.
Key theorems: `Query.access_bind`, `Request.access_eq`.
-/
import NumericAnswer.Answer.Verdict
import NumericAnswer.Preview.Lines

namespace NumericAnswer

/-- A result that needs no settings, or one that depends on them. -/
inductive Query (α : Type) where
  | settled (result : Except SettingsFault α)
  | lookup (result : Settings → Except SettingsFault α)

namespace Query

variable {α β : Type}

/-- The result if the file means `content`, or is faulty. -/
def answer (content : Except SettingsFault Settings) : Query α → Except SettingsFault α
  | settled result => result
  | lookup result => content.bind result

/-- The look-up, under the current settings. -/
def access : Query α → Access α
  | settled result => Access.ofExcept result
  | lookup result => do Access.ofExcept (result (← Access.settings))

/-- The settings are looked up. -/
def isLookup : Query α → Bool
  | settled _ => false
  | lookup _ => true

def bind (q : Query α) (next : α → Query β) : Query β :=
  match q with
  | settled (.ok a) => next a
  | settled (.error f) => settled (.error f)
  | lookup result => lookup fun s => (result s).bind fun a => (next a).answer (.ok s)

def map (f : α → β) (q : Query α) : Query β :=
  q.bind fun a => settled (.ok (f a))

theorem answer_lookup (settings : Settings) (result : Settings → Except SettingsFault α) :
    (lookup result).answer (.ok settings) = result settings := rfl

theorem answer_bind (q : Query α) (next : α → Query β) (settings : Settings) :
    (q.bind next).answer (.ok settings) =
      (q.answer (.ok settings)).bind fun a => (next a).answer (.ok settings) := by
  cases q with
  | settled result => cases result <;> rfl
  | lookup result => rfl

theorem answer_map (f : α → β) (q : Query α) (settings : Settings) :
    (q.map f).answer (.ok settings) = (q.answer (.ok settings)).map f := by
  rw [map, answer_bind]
  cases q.answer (.ok settings) <;> rfl

theorem access_lookup (result : Settings → Except SettingsFault α) (store : Store) :
    (lookup result).access store = (store.read.1.bind result, store.read.2) := by
  show ((Access.settings >>= fun s => Access.ofExcept (result s) : Access α) store) = _
  simp only [Access.settings, Bind.bind, ExceptT.bind, ExceptT.mk, ExceptT.bindCont, StateT.bind]
  rcases store.read with ⟨content, store'⟩
  cases content <;> rfl

theorem bind_apply (x : Access α) (next : α → Access β) (store : Store) :
    (x >>= next) store = match x store with
      | (.ok a, store') => next a store'
      | (.error f, store') => (.error f, store') := by
  simp only [Bind.bind, ExceptT.bind, ExceptT.mk, ExceptT.bindCont, StateT.bind]
  rcases x store with ⟨result, store'⟩
  cases result <;> rfl

theorem access_eq (q : Query α) (store : Store) : q.access store =
    (q.answer store.read.1, if q.isLookup then store.read.2 else store) := by
  cases q with
  | settled result => rfl
  | lookup result => exact access_lookup result store

/-- What has been looked up is what the next look-up finds. -/
theorem access_of_snapshot {store : Store} {settings : Settings}
    (h : store.snapshot = some settings) (q : Query α) :
    q.access store = (q.answer (.ok settings), store) := by
  have hread : store.read = (.ok settings, store) := by
    rw [Store.read, h]
  rw [access_eq, hread, ite_self]

/-- Two look-ups, one after the other, are one. -/
theorem access_bind (q : Query α) (next : α → Query β) :
    (q.bind next).access = q.access >>= fun a => (next a).access := by
  funext store
  rw [bind_apply]
  cases q with
  | settled result => cases result <;> rfl
  | lookup result =>
    rw [access_lookup, bind, access_lookup]
    rcases hread : store.read with ⟨content, store'⟩
    cases content with
    | error f => rfl
    | ok settings =>
      have hsnapshot := Store.read_snapshot hread
      show ((result settings).bind _, store') = match (result settings, store') with
        | (.ok a, store') => (next a).access store'
        | (.error f, store') => (.error f, store')
      cases result settings with
      | error f => rfl
      | ok a => exact (access_of_snapshot hsnapshot (next a)).symm

theorem access_map (f : α → β) (q : Query α) :
    (q.map f).access = do return f (← q.access) :=
  access_bind q _

end Query

/-! ### Requests -/

/-- What may be asked. -/
inductive Request where
  | load (name : Text)
  | all
  | format (digits : Option Json) (x : Float)
  | describe (x : Float)
  | compare (tolerance : Option Float) (user expected : Float)
  | verify (type : QuestionType) (user expected : Text)
  | preview (text : Text)

/-- What is answered. -/
inductive Answer where
  | value (value : Json)
  | settings (settings : Settings)
  | text (text : Text)
  | hint (hint : Option Text)
  | truth (holds : Bool)
  | verdict (verdict : Verdict)
  | lines (lines : PreviewLines)

namespace Request

def formatQuery (digits : Option Json) (x : Float) : Query Text :=
  (Query.settled (digits.forM fun digits => (Display.placesOf digits).map fun _ => ())).bind fun _ =>
    .lookup fun s => Display.text s digits x

def describeQuery (x : Float) : Query (Option Text) :=
  match Binary.ofFloat? x with
  | none => .settled (.ok none)
  | some b => .lookup fun s => Display.finiteHint s x b

def compareQuery (tolerance : Option Float) (user expected : Float) : Query Bool :=
  match tolerance with
  | some tolerance => .settled (.ok (numbersMatch tolerance user expected))
  | none =>
    (Query.lookup fun s => (s.get .answerTolerance).factor).map fun tolerance =>
      numbersMatch tolerance user expected

theorem access_formatQuery (digits : Option Json) (x : Float) :
    (formatQuery digits x).access = Access.displayText digits x :=
  Query.access_bind _ _

theorem access_describeQuery (x : Float) : (describeQuery x).access = Access.hint x := by
  unfold describeQuery Access.hint
  cases Binary.ofFloat? x <;> rfl

theorem access_compareQuery (tolerance : Option Float) (user expected : Float) :
    (compareQuery tolerance user expected).access =
      Access.numbersMatch tolerance user expected := by
  cases tolerance with
  | some tolerance => rfl
  | none =>
    rw [compareQuery, Query.access_map]
    exact bind_assoc ..

variable [MathLibrary]

def valueQuery (user expected : Text) : Query Verdict :=
  if unblanked user = unblanked expected then
    .settled (.ok ⟨true, .exact, none, .texts user expected⟩)
  else
    match Outcome.ofText user, Outcome.ofText expected with
    | .success userValue userExpression, .success expectedValue expectedExpression =>
      (compareQuery none userValue expectedValue).map fun correct => numericVerdict correct
        (.values user expected userExpression expectedExpression userValue expectedValue)
    | _, _ => .settled (.ok ⟨false, .exact, some .incorrect, .texts user expected⟩)

def verifyQuery (type : QuestionType) (user expected : Text) : Query Verdict :=
  if (cleaned user).isEmpty then .settled (.ok ⟨false, .exact, some .emptyAnswer, .nothing⟩)
  else if type = .choice then .settled (.ok (choiceVerdict (cleaned user) (cleaned expected)))
  else valueQuery (cleaned user) (cleaned expected)

def previewQuery (text : Text) : Query PreviewLines :=
  if isAllBlank text then .settled (.ok .blank)
  else
    match Outcome.ofText text with
    | .failure fault expression => .settled (.ok (.ofFault fault expression))
    | .success value expression =>
      (formatQuery none value).bind fun shown =>
        (describeQuery value).map fun hint => .ofValue value expression shown hint

theorem access_valueQuery (user expected : Text) :
    (valueQuery user expected).access = Access.valueVerdict user expected := by
  unfold valueQuery Access.valueVerdict
  by_cases h : unblanked user = unblanked expected
  · rw [if_pos h, if_pos h]
    rfl
  · rw [if_neg h, if_neg h]
    rcases Outcome.ofText user with ⟨userValue, userExpression⟩ | _ <;>
      rcases Outcome.ofText expected with ⟨expectedValue, expectedExpression⟩ | _ <;> try rfl
    rw [Query.access_map, access_compareQuery]

theorem access_verifyQuery (type : QuestionType) (user expected : Text) :
    (verifyQuery type user expected).access = Access.verdict type user expected := by
  unfold verifyQuery Access.verdict
  by_cases hempty : (cleaned user).isEmpty
  · rw [if_pos hempty, if_pos hempty]
    rfl
  · rw [if_neg hempty, if_neg hempty]
    by_cases htype : type = .choice
    · rw [if_pos htype, if_pos htype]
      rfl
    · rw [if_neg htype, if_neg htype, access_valueQuery]

theorem access_previewQuery (text : Text) :
    (previewQuery text).access = Access.previewLines text := by
  unfold previewQuery Access.previewLines
  by_cases hblank : isAllBlank text
  · rw [if_pos hblank, if_pos hblank]
    rfl
  · rw [if_neg hblank, if_neg hblank]
    cases Outcome.ofText text with
    | failure fault expression => rfl
    | success value expression =>
      simp only [Query.access_bind, Query.access_map, access_formatQuery, access_describeQuery]

/-- A request to the library. -/
def access : Request → Access Answer
  | load name => return .value (← Access.load name)
  | all => return .settings (← Access.settings)
  | format digits x => return .text (← Access.displayText digits x)
  | describe x => return .hint (← Access.hint x)
  | compare tolerance user expected =>
    return .truth (← Access.numbersMatch tolerance user expected)
  | verify type user expected => return .verdict (← Access.verdict type user expected)
  | preview text => return .lines (← Access.previewLines text)

/-- What a request reads of the settings. -/
def query : Request → Query Answer
  | load name => .lookup fun s => .ok (.value (s.find name))
  | all => .lookup fun s => .ok (.settings s)
  | format digits x => (formatQuery digits x).map .text
  | describe x => (describeQuery x).map .hint
  | compare tolerance user expected => (compareQuery tolerance user expected).map .truth
  | verify type user expected => (verifyQuery type user expected).map .verdict
  | preview text => (previewQuery text).map .lines

/-- Every request is one look-up, or none. -/
theorem access_eq (r : Request) : r.access = r.query.access := by
  cases r with
  | load name => exact bind_assoc ..
  | all => rfl
  | format digits x => rw [query, Query.access_map, access_formatQuery, access]
  | describe x => rw [query, Query.access_map, access_describeQuery, access]
  | compare tolerance user expected => rw [query, Query.access_map, access_compareQuery, access]
  | verify type user expected => rw [query, Query.access_map, access_verifyQuery, access]
  | preview text => rw [query, Query.access_map, access_previewQuery, access]

end Request
end NumericAnswer
