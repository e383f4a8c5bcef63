import Mathlib.Data.List.TakeWhile
import FractalSQL.Lib.JsonValue

/-!
# Validity under a JSON Schema

The keywords `type`, `properties`, `items`, `required` and `additionalProperties: false` of a
schema document; other keywords are annotations. An integer is a number without a fractional
part, however it is written.
-/
namespace FractalSQL.Lib

/-! ### Numbers -/

/-- The exponent that follows a number, `none` if what follows is none. -/
def exponentOf (text : Bytes) : Option ℤ :=
  match text with
  | [] => some 0
  | e :: rest =>
    let neg := rest.head? = some 45
    let ds := if rest.head? = some 45 ∨ rest.head? = some 43 then rest.tail else rest
    if (e = 101 ∨ e = 69) ∧ ds ≠ [] ∧ ds.all isDigit then
      some (if neg then -digitsValue ds else digitsValue ds)
    else none

/-- A number without its sign, as `m * 10 ^ e`. -/
def decimalParts (text : Bytes) : Option (ℕ × ℤ) :=
  let text := if text.head? = some 45 then text.tail else text
  let whole := text.takeWhile isDigit
  let rest := text.dropWhile isDigit
  let frac := if rest.head? = some 46 then rest.tail.takeWhile isDigit else []
  let rest := if rest.head? = some 46 then rest.tail.dropWhile isDigit else rest
  if whole = [] then none
  else (exponentOf rest).map fun e => (digitsValue (whole ++ frac), e - frac.length)

/-- The number is an integer. -/
def Integral (text : Bytes) : Prop :=
  ∃ p ∈ decimalParts text, 0 ≤ p.2 ∨ 10 ^ p.2.natAbs ∣ p.1

instance (text : Bytes) : Decidable (Integral text) :=
  match h : decimalParts text with
  | none => isFalse fun ⟨p, hp, _⟩ => by
    rw [h] at hp
    cases hp
  | some p =>
    decidable_of_iff (0 ≤ p.2 ∨ 10 ^ p.2.natAbs ∣ p.1) ⟨fun hp => ⟨p, h, hp⟩, fun ⟨q, hq, hdvd⟩ => by
      rw [h] at hq
      cases hq
      exact hdvd⟩

/-- A string of digits is an integer. -/
theorem integral_digits {ds : Bytes} (hne : ds ≠ []) (h : ds.all isDigit = true) : Integral ds := by
  have hdigits := List.all_eq_true.mp h
  have hhead : ds.head? ≠ some 45 := by
    intro hhead
    have hmem : 45 ∈ ds := List.mem_of_head? hhead
    exact absurd (hdigits 45 hmem) (by decide)
  have htake : ds.takeWhile isDigit = ds := List.takeWhile_eq_self_iff.mpr hdigits
  have hdrop : ds.dropWhile isDigit = [] := List.dropWhile_eq_nil_iff.mpr hdigits
  refine ⟨(digitsValue ds, 0), ?_, .inl le_rfl⟩
  simp [decimalParts, hhead, htake, hdrop, hne, exponentOf]

theorem integral_neg_digits {ds : Bytes} (hne : ds ≠ []) (h : ds.all isDigit = true) : Integral (45 :: ds) := by
  have hdigits := List.all_eq_true.mp h
  have htake : ds.takeWhile isDigit = ds := List.takeWhile_eq_self_iff.mpr hdigits
  have hdrop : ds.dropWhile isDigit = [] := List.dropWhile_eq_nil_iff.mpr hdigits
  refine ⟨(digitsValue ds, 0), ?_, .inl le_rfl⟩
  simp [decimalParts, htake, hdrop, hne, exponentOf]

example : Integral (ascii "1.50e1") ∧ ¬ Integral (ascii "1.5") ∧ ¬ Integral (ascii "15e-1") := by decide

/-! ### Types -/

inductive SchemaType where
  | string
  | integer
  | number
  | boolean
  | object
  | array
  | null
deriving DecidableEq

def SchemaType.name : SchemaType → String
  | string => "string"
  | integer => "integer"
  | number => "number"
  | boolean => "boolean"
  | object => "object"
  | array => "array"
  | null => "null"

theorem SchemaType.name_injective {s t : SchemaType} (h : ascii s.name = ascii t.name) : s = t := by
  revert h
  cases s <;> cases t <;> decide

namespace JsonValue

/-- The elements of an array. -/
def items : JsonValue → List JsonValue
  | array items => items
  | _ => []

/-- The members of an object. -/
def members : JsonValue → List (Bytes × JsonValue)
  | object ms => ms
  | _ => []

def HasType : SchemaType → JsonValue → Prop
  | .string, string _ => True
  | .integer, number text => Integral text
  | .number, number _ => True
  | .boolean, bool _ => True
  | .object, object _ => True
  | .array, array _ => True
  | .null, null => True
  | _, _ => False

/-! ### Lookup -/

theorem find_obj_self (name : String) (v : JsonValue) (ms : List (String × JsonValue)) :
    (obj ((name, v) :: ms)).find (ascii name) = some v := by
  simp [obj, find]

theorem find_obj_of_ne {name : String} {key : Bytes} (h : ascii name ≠ key) (v : JsonValue)
    (ms : List (String × JsonValue)) : (obj ((name, v) :: ms)).find key = (obj ms).find key := by
  simp [obj, find, h]

theorem find_obj_nil (key : Bytes) : (obj []).find key = none := rfl

theorem find_erase (key name : Bytes) (j : JsonValue) :
    (j.erase key).find name = if name = key then none else j.find name := by
  cases j with
  | object ms =>
    by_cases h : name = key
    · subst h
      simp [erase, find, List.find?_filter]
    · simp only [erase, find, List.find?_filter, if_neg h]
      congr 2
      funext m
      by_cases hm : m.1 = name
      · simp [hm, h]
      · simp [hm]
  | _ => simp [erase, find]

theorem isObject_erase (key : Bytes) (j : JsonValue) : (j.erase key).isObject = j.isObject := by
  cases j <;> rfl

/-! ### Schemas -/

/-- A `type` keyword: a name, or a list of names. -/
def TypeKeyword (keyword v : JsonValue) : Prop :=
  ∃ t : SchemaType, v.HasType t ∧ (keyword.asString = some (ascii t.name) ∨
    ∃ name ∈ keyword.items, name.asString = some (ascii t.name))

theorem typeKeyword_text {t : SchemaType} {v : JsonValue} : TypeKeyword (text t.name) v ↔ v.HasType t := by
  constructor
  · rintro ⟨s, hs, hname | ⟨_, hmem, _⟩⟩
    · rwa [SchemaType.name_injective (Option.some.inj hname)]
    · exact absurd hmem List.not_mem_nil
  · exact fun h => ⟨t, h, .inl rfl⟩

theorem typeKeyword_pair {s t : SchemaType} {v : JsonValue} :
    TypeKeyword (array [text s.name, text t.name]) v ↔ v.HasType s ∨ v.HasType t := by
  constructor
  · rintro ⟨u, hu, hname | ⟨name, hmem, hname⟩⟩
    · cases hname
    · rcases List.mem_cons.mp hmem with rfl | hmem
      · exact .inl (SchemaType.name_injective (Option.some.inj hname) ▸ hu)
      · obtain rfl := List.mem_singleton.mp hmem
        exact .inr (SchemaType.name_injective (Option.some.inj hname) ▸ hu)
  · rintro (h | h)
    · exact ⟨s, h, .inr ⟨text s.name, by simp [items], rfl⟩⟩
    · exact ⟨t, h, .inr ⟨text t.name, by simp [items], rfl⟩⟩

theorem sizeOf_find_lt {j v : JsonValue} {key : Bytes} (h : j.find key = some v) : sizeOf v < sizeOf j := by
  cases j with
  | object ms =>
    obtain ⟨m, hm, rfl⟩ := Option.map_eq_some_iff.mp h
    have hmem := List.sizeOf_lt_of_mem (List.mem_of_find?_eq_some hm)
    have hpair : sizeOf m = 1 + sizeOf m.1 + sizeOf m.2 := rfl
    simp only [object.sizeOf_spec]
    omega
  | _ => cases h

/-- The value is valid under the schema. -/
def Valid (schema v : JsonValue) : Prop :=
  (∀ keyword, schema.find (ascii "type") = some keyword → TypeKeyword keyword v) ∧
  (∀ props, schema.find (ascii "properties") = some props →
    ∀ name sub, props.find name = some sub → ∀ x, v.find name = some x → Valid sub x) ∧
  (∀ sub, schema.find (ascii "items") = some sub → ∀ x ∈ v.items, Valid sub x) ∧
  (∀ names, schema.find (ascii "required") = some names → v.isObject = true →
    ∀ name, string name ∈ names.items → v.find name ≠ none) ∧
  (schema.find (ascii "additionalProperties") = some (bool false) →
    ∀ m ∈ v.members, ∃ props, schema.find (ascii "properties") = some props ∧ props.find m.1 ≠ none)
termination_by sizeOf schema
decreasing_by
  · rename_i hprops hsub _
    exact (sizeOf_find_lt hsub).trans (sizeOf_find_lt hprops)
  · rename_i hsub _
    exact sizeOf_find_lt hsub

end JsonValue

end FractalSQL.Lib
