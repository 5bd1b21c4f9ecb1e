/-!
# Serialised values

The values that trees are written to and read from: null, truth values, decimal numbers, texts,
arrays and objects. How such a value is spelled as a text is left to whoever stores it.
-/

namespace PegGrammar

/-- A serialised value. -/
inductive Data where
  /-- The absent value. -/
  | null
  /-- A truth value. -/
  | bool (value : Bool)
  /-- The number `mantissa / 10 ^ places`, as it was spelled: `2.0` has one place. -/
  | number (mantissa : Int) (places : Nat)
  /-- A text. -/
  | text (value : String)
  /-- An array. -/
  | array (items : List Data)
  /-- An object with its fields. -/
  | object (fields : List (String × Data))
  deriving Inhabited

namespace Data

/-- A natural number as a value. -/
def ofNat (n : Nat) : Data := .number n 0

/-- The value of the field of that name. -/
def field? (name : String) : List (String × Data) → Option Data
  | [] => none
  | (key, value) :: fields => if key = name then some value else field? name fields

/-- A field is smaller than the object that holds it. -/
theorem sizeOf_field?_lt {name : String} {fields : List (String × Data)} {value : Data}
    (h : field? name fields = some value) : sizeOf value < sizeOf fields := by
  induction fields with
  | nil => simp [field?] at h
  | cons head fields ih =>
    obtain ⟨key, inner⟩ := head
    simp only [field?] at h
    split at h
    · cases h
      simp only [List.cons.sizeOf_spec, Prod.mk.sizeOf_spec]
      omega
    · have := ih h
      simp only [List.cons.sizeOf_spec]
      omega

end Data

end PegGrammar
