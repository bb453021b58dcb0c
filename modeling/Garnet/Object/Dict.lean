/-!
# Dictionaries in order of insertion

A name keeps the place of its first insertion when its value is replaced.
-/

namespace Garnet

/-- Names with their values; every name occurs once. -/
structure Dict (α : Type) where
  entries : List (String × α) := []

namespace Dict

variable {α : Type}

instance : Inhabited (Dict α) := ⟨{}⟩

def get? (d : Dict α) (name : String) : Option α := d.entries.lookup name

def contains (d : Dict α) (name : String) : Bool := (d.get? name).isSome

def keys (d : Dict α) : List String := d.entries.map (·.1)

/-- Replaces the value of a name in place, or adds the name at the end. -/
def put (name : String) (value : α) : List (String × α) → List (String × α)
  | [] => [(name, value)]
  | (n, v) :: rest => if n == name then (n, value) :: rest else (n, v) :: put name value rest

def insert (d : Dict α) (name : String) (value : α) : Dict α := ⟨put name value d.entries⟩

theorem lookup_put (name n : String) (value : α) (es : List (String × α)) :
    (put name value es).lookup n = if n = name then some value else es.lookup n := by
  induction es with
  | nil =>
    by_cases h : n = name
    · simp [put, h]
    · simp [put, h, List.lookup_cons, beq_false_of_ne h]
  | cons e es ih =>
    obtain ⟨m, v⟩ := e
    by_cases hm : m = name
    · subst hm
      by_cases h : n = m
      · simp [put, h]
      · simp [put, h, List.lookup_cons, beq_false_of_ne h]
    · by_cases h : n = m
      · subst h
        simp [put, hm]
      · simp [put, hm, List.lookup_cons, beq_false_of_ne h, ih]

@[simp] theorem get?_insert (d : Dict α) (name n : String) (value : α) :
    (d.insert name value).get? n = if n = name then some value else d.get? n :=
  lookup_put name n value d.entries

end Dict

end Garnet
