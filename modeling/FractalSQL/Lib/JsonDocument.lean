import FractalSQL.Lib.JsonReader

/-!
# The document of a JSON text

What a library makes of the tree of a text: strings and names are decoded, and of the members
with one name the last one stays.
-/
namespace FractalSQL.Lib.JsonGrammar
open Json

mutual

/-- Every string and name, and every number, is such. -/
def Tree.every (str num : Bytes → Bool) : Tree → Bool
  | .scalar lex => num lex
  | .str raw => str raw
  | .arr _ ts => everyItem str num ts
  | .obj _ ms => everyMember str num ms

def everyItem (str num : Bytes → Bool) : List Tree → Bool
  | [] => true
  | t :: ts => t.every str num && everyItem str num ts

def everyMember (str num : Bytes → Bool) : List (Bytes × Tree) → Bool
  | [] => true
  | (key, t) :: ms => (str key && t.every str num) && everyMember str num ms

end

/-- The string spells well-formed text: no half of a surrogate pair stands alone. -/
def spelled (raw : Bytes) : Bool := isUtf8 (decoded raw)

mutual

def Tree.document : Tree → JsonValue
  | .scalar lex =>
    if lex = ascii "null" then .null
    else if lex = ascii "true" then .bool true
    else if lex = ascii "false" then .bool false
    else .number lex
  | .str raw => .string (decoded raw)
  | .arr _ ts => .array (documentItems ts)
  | .obj _ ms => documentMembers (.object []) ms

def documentItems : List Tree → List JsonValue
  | [] => []
  | t :: ts => t.document :: documentItems ts

/-- Each member overwrites what stands under its name. -/
def documentMembers (j : JsonValue) : List (Bytes × Tree) → JsonValue
  | [] => j
  | (key, t) :: ms => documentMembers (j.set (decoded key) t.document) ms

end

/-- The values of the members whose name is spelled so, in order. -/
def named (name : Bytes) (ms : List (Bytes × Tree)) : List Tree := (ms.filter fun m => decoded m.1 = name).map Prod.snd

theorem named_cons_self {name key : Bytes} (h : decoded key = name) (t : Tree) (ms : List (Bytes × Tree)) :
    named name ((key, t) :: ms) = t :: named name ms := by
  simp [named, h]

theorem named_cons_ne {name key : Bytes} (h : decoded key ≠ name) (t : Tree) (ms : List (Bytes × Tree)) :
    named name ((key, t) :: ms) = named name ms := by
  simp [named, h]

theorem isObject_documentMembers {j : JsonValue} (h : j.isObject = true) (ms : List (Bytes × Tree)) :
    (documentMembers j ms).isObject = true := by
  induction ms generalizing j with
  | nil => exact h
  | cons m ms ih => exact ih ((JsonValue.isObject_set ..).trans h)

/-- The last member with a name is the one that is found. -/
theorem find_documentMembers {j : JsonValue} (h : j.isObject = true) (name : Bytes) (ms : List (Bytes × Tree)) :
    (documentMembers j ms).find name = (((named name ms).getLast?).map Tree.document).or (j.find name) := by
  induction ms generalizing j with
  | nil => rfl
  | cons m ms ih =>
    obtain ⟨key, t⟩ := m
    have hset : (j.set (decoded key) t.document).isObject = true := (JsonValue.isObject_set ..).trans h
    rw [documentMembers, ih hset]
    by_cases hkey : decoded key = name
    · rw [named_cons_self hkey, hkey, JsonValue.find_set_self h, List.getLast?_cons]
      cases (named name ms).getLast? <;> rfl
    · rw [named_cons_ne hkey, JsonValue.find_set_of_ne _ _ (Ne.symm hkey)]

theorem utf8_set {j v : JsonValue} (hj : j.utf8 = true) (hv : v.utf8 = true) {key : Bytes} (hkey : isUtf8 key = true) :
    (j.set key v).utf8 = true := by
  cases j with
  | object ms =>
    rw [JsonValue.utf8, JsonValue.utf8Members_iff] at hj
    rw [JsonValue.set, JsonValue.utf8, JsonValue.utf8Members_iff]
    rintro m hm
    rcases List.mem_cons.mp hm with rfl | hm
    · exact ⟨hkey, hv⟩
    · exact hj m (List.mem_of_mem_filter hm)
  | _ => exact hj

mutual

/-- A tree whose strings are well spelled is a document of UTF-8. -/
theorem Tree.utf8_document {num : Bytes → Bool} : (t : Tree) → t.every spelled num = true → t.document.utf8 = true
  | .scalar lex, _ => by
    rw [Tree.document]
    split_ifs <;> rfl
  | .str _, h => h
  | .arr _ ts, h => utf8_documentItems ts h
  | .obj _ ms, h => utf8_documentMembers (j := .object []) rfl ms h

theorem utf8_documentItems {num : Bytes → Bool} : (ts : List Tree) → everyItem spelled num ts = true →
    JsonValue.utf8Items (documentItems ts) = true
  | [], _ => rfl
  | t :: ts, h => by
    obtain ⟨ht, hts⟩ := Bool.and_eq_true_iff.mp h
    rw [documentItems, JsonValue.utf8Items, Tree.utf8_document t ht, utf8_documentItems ts hts]
    rfl

theorem utf8_documentMembers {num : Bytes → Bool} {j : JsonValue} (hj : j.utf8 = true) : (ms : List (Bytes × Tree)) →
    everyMember spelled num ms = true → (documentMembers j ms).utf8 = true
  | [], _ => hj
  | (key, t) :: ms, h => by
    obtain ⟨hmember, hms⟩ := Bool.and_eq_true_iff.mp h
    obtain ⟨hkey, ht⟩ := Bool.and_eq_true_iff.mp hmember
    exact utf8_documentMembers (utf8_set hj (Tree.utf8_document t ht) hkey) ms hms

end

/-- The trees that a library reads: well spelled, and with numbers that fit. -/
def readFitting (fits : Bytes → Bool) (s : Bytes) : Option Tree := (readJson s).filter (Tree.every spelled fits)

/-- The library reads by the grammar. -/
def Reads (lib : JsonLibrary) (fits : Bytes → Bool) : Prop :=
  ∀ s, lib.parse s = (readFitting fits s).map Tree.document

theorem readFitting_nil (fits : Bytes → Bool) : (readFitting fits []).map Tree.document = none := rfl

/-- What is read by the grammar is of UTF-8. -/
theorem utf8_readFitting {fits : Bytes → Bool} {s : Bytes} {j : JsonValue}
    (h : (readFitting fits s).map Tree.document = some j) : j.utf8 = true := by
  obtain ⟨t, ht, rfl⟩ := Option.map_eq_some_iff.mp h
  exact t.utf8_document (Option.filter_eq_some_iff.mp ht).2

theorem written_isSome (j : JsonValue) : (if j.utf8 then some (ascii "\x7b\x7d") else none).isSome = j.utf8 := by
  split_ifs with h <;> simp [h]

theorem utf8_written {j : JsonValue} {text : Bytes}
    (h : (if j.utf8 then some (ascii "\x7b\x7d") else none) = some text) : isUtf8 text = true := by
  split_ifs at h
  exact Option.some.inj h ▸ isUtf8_literal (by decide)

/-- A library that reads by the grammar; what it writes is not looked at. -/
def grammarLibrary (fits : Bytes → Bool) : JsonLibrary where
  parse s := (readFitting fits s).map Tree.document
  parse_nil := readFitting_nil fits
  parse_utf8 h := utf8_readFitting h
  dump j := if j.utf8 then some (ascii "\x7b\x7d") else none
  dump_isSome := written_isSome
  dump_utf8 := utf8_written

theorem grammarLibrary_reads (fits : Bytes → Bool) : Reads (grammarLibrary fits) fits := fun _ => rfl

end FractalSQL.Lib.JsonGrammar
