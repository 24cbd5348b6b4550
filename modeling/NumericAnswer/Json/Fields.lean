/-
# Fields in the order they were added

A list of keys with values, each key once. A new value for a key takes the
place of the old one; a new key goes to the end.

Key definitions: `Fields`, `Fields.put`, `Fields.putAll`.
Key theorems: `Fields.lookup_put`, `Fields.lookup_put_of_ne`,
`Fields.keys_put_of_mem`.
-/

namespace NumericAnswer

abbrev Fields (κ β : Type) := List (κ × β)

namespace Fields

variable {κ β : Type} [BEq κ]

/-- Sets the value of a key. -/
def put (key : κ) (value : β) : Fields κ β → Fields κ β
  | [] => [(key, value)]
  | (k, v) :: rest => if key == k then (k, value) :: rest else (k, v) :: put key value rest

/-- Sets the values of keys one after the other. -/
def putAll (entries : List (κ × β)) (fields : Fields κ β) : Fields κ β :=
  entries.foldl (fun fields entry => put entry.1 entry.2 fields) fields

theorem lookup_put [ReflBEq κ] (key : κ) (value : β) :
    ∀ fields : Fields κ β, (put key value fields).lookup key = some value
  | [] => by simp [put]
  | (k, v) :: rest => by
    cases h : key == k
    · simp [put, h, List.lookup_cons, lookup_put key value rest]
    · simp [put, h, List.lookup_cons]

/-- The other keys keep their values. -/
theorem lookup_put_of_ne [EquivBEq κ] {key other : κ} (value : β) (h : (other == key) = false) :
    ∀ fields : Fields κ β, (put key value fields).lookup other = fields.lookup other
  | [] => by simp [put, List.lookup_cons, h]
  | (k, v) :: rest => by
    cases hk : key == k
    · simp only [put, hk, Bool.false_eq_true, if_false, List.lookup_cons,
        lookup_put_of_ne value h rest]
    · have : (other == k) = false := by
        cases ho : other == k
        · rfl
        · have := BEq.trans ho (BEq.symm hk)
          simp [h] at this
      simp [put, hk, List.lookup_cons, this]

/-- A known key keeps its place. -/
theorem keys_put_of_mem {key : κ} (value : β) :
    ∀ {fields : Fields κ β}, (fields.any fun field => key == field.1) = true →
      (put key value fields).map Prod.fst = fields.map Prod.fst
  | [], h => by simp at h
  | (k, v) :: rest, h => by
    cases hk : key == k
    · have hm : (rest.any fun field => key == field.1) = true := by simpa [hk] using h
      simp [put, hk, keys_put_of_mem value hm]
    · simp [put, hk]

end Fields
end NumericAnswer
