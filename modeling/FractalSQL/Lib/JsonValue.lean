import FractalSQL.Lib.Text

/-!
# JSON values

A parsed document: its members are looked up, set and erased by name. The library that
reads and writes the documents takes and gives well-formed UTF-8 only.
-/
namespace FractalSQL.Lib

inductive JsonValue where
  | null
  | bool (b : Bool)
  | number (text : Bytes)
  | string (s : Bytes)
  | array (items : List JsonValue)
  | object (members : List (Bytes × JsonValue))

/-- The ranges of the bytes after the first byte of a sequence: nothing overlong, no
surrogate, nothing past the last code point. -/
def following (b : UInt8) : Option (List (UInt8 × UInt8)) :=
  if b < 128 then some []
  else if b < 194 then none
  else if b < 224 then some [(128, 191)]
  else if b = 224 then some [(160, 191), (128, 191)]
  else if b = 237 then some [(128, 159), (128, 191)]
  else if b < 240 then some [(128, 191), (128, 191)]
  else if b = 240 then some [(144, 191), (128, 191), (128, 191)]
  else if b < 244 then some [(128, 191), (128, 191), (128, 191)]
  else if b = 244 then some [(128, 143), (128, 191), (128, 191)]
  else none

def utf8From : List (UInt8 × UInt8) → Bytes → Bool
  | [], [] => true
  | _ :: _, [] => false
  | [], b :: s => (following b).any fun ranges => utf8From ranges s
  | (lo, hi) :: ranges, b :: s => decide (lo ≤ b ∧ b ≤ hi) && utf8From ranges s

def isUtf8 (s : Bytes) : Bool := utf8From [] s

theorem isUtf8_of_ascii {s : Bytes} (h : ∀ b ∈ s, b < 128) : isUtf8 s = true := by
  induction s with
  | nil => rfl
  | cons b s ih =>
    have hb : following b = some [] := by rw [following, if_pos (h b (List.mem_cons_self ..))]
    rw [isUtf8, utf8From, hb]
    exact ih fun c hc => h c (List.mem_cons_of_mem _ hc)

theorem isUtf8_ascii {s : String} (h : (s.toList.all fun c => c.toNat < 128) = true) : isUtf8 (ascii s) = true := by
  apply isUtf8_of_ascii
  intro b hb
  obtain ⟨c, hc, rfl⟩ := List.mem_map.mp hb
  have hlt : c.toNat < 128 := of_decide_eq_true (List.all_eq_true.mp h c hc)
  rw [UInt8.lt_iff_toNat_lt, UInt8.toNat_ofNat']
  change c.toNat % 256 < 128
  omega

/-- A literal is its characters. -/
theorem all_literal {p : Char → Bool} {cs : List Char} (h : cs.all p = true) : (String.ofList cs).toList.all p = true := by
  rwa [String.toList_ofList]

theorem all_append {p : Char → Bool} {s t : String} (hs : s.toList.all p = true) (ht : t.toList.all p = true) :
    (s ++ t).toList.all p = true := by
  rw [String.toList_append, List.all_append, hs, ht, Bool.and_self]

theorem isUtf8_literal {cs : List Char} (h : (cs.all fun c => c.toNat < 128) = true) :
    isUtf8 (ascii (String.ofList cs)) = true := isUtf8_ascii (all_literal h)

/-- The ranges of the bytes inside a longer character. -/
theorem following_range {b : UInt8} {ranges : List (UInt8 × UInt8)} (h : following b = some ranges) :
    ∀ r ∈ ranges, 128 ≤ r.1 ∧ r.2 ≤ 191 := by
  have hall : ∀ b : UInt8, ((following b).all fun ranges => ranges.all fun r => decide (128 ≤ r.1 ∧ r.2 ≤ 191)) = true :=
    forall_byte (by decide +kernel)
  have hb := hall b
  rw [h, Option.all_some, List.all_eq_true] at hb
  exact fun r hr => of_decide_eq_true (hb r hr)

theorem following_le {b : UInt8} {ranges : List (UInt8 × UInt8)} (h : following b = some ranges) :
    ∀ r ∈ ranges, 128 ≤ r.1 := fun r hr => (following_range h r hr).1

/-- A byte inside a longer character. -/
def Inside (b : UInt8) : Prop := 128 ≤ b ∧ b ≤ 191

instance (b : UInt8) : Decidable (Inside b) := inferInstanceAs (Decidable (_ ∧ _))

theorem following_inside {b : UInt8} {ranges : List (UInt8 × UInt8)} (h : following b = some ranges) :
    ∀ r ∈ ranges, ∀ c, r.1 ≤ c → c ≤ r.2 → Inside c := by
  intro r hr c hlo hhi
  obtain ⟨hfirst, hlast⟩ := following_range h r hr
  exact ⟨UInt8.le_trans hfirst hlo, UInt8.le_trans hhi hlast⟩

/-- What follows a whole text is read from the start. -/
theorem utf8From_append {ranges : List (UInt8 × UInt8)} {s : Bytes} (h : utf8From ranges s = true) (t : Bytes) :
    utf8From ranges (s ++ t) = utf8From [] t := by
  induction s generalizing ranges with
  | nil =>
    cases ranges with
    | nil => rfl
    | cons r ranges => cases h
  | cons b s ih =>
    cases ranges with
    | nil =>
      rw [utf8From] at h
      cases hb : following b with
      | none => simp [hb] at h
      | some ranges =>
        rw [hb] at h
        rw [List.cons_append, utf8From, hb]
        exact ih h
    | cons r ranges =>
      obtain ⟨hb, hs⟩ := Bool.and_eq_true_iff.mp h
      rw [List.cons_append, utf8From, hb, Bool.true_and]
      exact ih hs

theorem isUtf8_append {s : Bytes} (h : isUtf8 s = true) (t : Bytes) : isUtf8 (s ++ t) = isUtf8 t := utf8From_append h t

/-- The first byte of a character comes after a whole text only. -/
theorem utf8From_of_append {ranges : List (UInt8 × UInt8)} (hranges : ∀ r ∈ ranges, ∀ c, r.1 ≤ c → c ≤ r.2 → Inside c)
    {c : UInt8} (hc : ¬ Inside c) {s t : Bytes} (h : utf8From ranges (s ++ c :: t) = true) : utf8From ranges s = true := by
  induction s generalizing ranges with
  | nil =>
    cases ranges with
    | nil => rfl
    | cons r ranges =>
      obtain ⟨hr, -⟩ := Bool.and_eq_true_iff.mp h
      obtain ⟨hlo, hhi⟩ := of_decide_eq_true hr
      exact absurd (hranges r (List.mem_cons_self ..) c hlo hhi) hc
  | cons b s ih =>
    cases ranges with
    | nil =>
      rw [List.cons_append, utf8From] at h
      cases hb : following b with
      | none => simp [hb] at h
      | some ranges =>
        rw [hb] at h
        rw [utf8From, hb]
        exact ih (following_inside hb) h
    | cons r ranges =>
      obtain ⟨hr, hs⟩ := Bool.and_eq_true_iff.mp h
      rw [utf8From, hr, Bool.true_and]
      exact ih (fun q hq => hranges q (List.mem_cons_of_mem _ hq)) hs

theorem isUtf8_of_cut {c : UInt8} (hc : ¬ Inside c) {s t : Bytes} (h : isUtf8 (s ++ c :: t) = true) : isUtf8 s = true :=
  utf8From_of_append (fun _ hr => nomatch List.not_mem_nil hr) hc h

theorem isUtf8_of_append {c : UInt8} (hc : c < 128) {s t : Bytes} (h : isUtf8 (s ++ c :: t) = true) : isUtf8 s = true :=
  isUtf8_of_cut (fun hin => absurd hc (UInt8.not_lt.mpr hin.1)) h

theorem isUtf8_cons {c : UInt8} (hc : c < 128) (t : Bytes) : isUtf8 (c :: t) = isUtf8 t :=
  isUtf8_append (isUtf8_of_ascii (List.forall_mem_singleton.mpr hc)) t

theorem isUtf8_append_cons {c : UInt8} (hc : c < 128) (s t : Bytes) :
    isUtf8 (s ++ c :: t) = (isUtf8 s && isUtf8 t) := by
  cases hs : isUtf8 s with
  | true => rw [isUtf8_append hs, isUtf8_cons hc, Bool.true_and]
  | false =>
    rw [Bool.false_and, ← Bool.not_eq_true]
    intro h
    rw [isUtf8_of_append hc h] at hs
    cases hs

theorem isUtf8_append_ascii {w : Bytes} (hw : ∀ b ∈ w, b < 128) (s : Bytes) : isUtf8 (s ++ w) = isUtf8 s := by
  cases w with
  | nil => rw [List.append_nil]
  | cons c w =>
    have hrest : isUtf8 w = true := isUtf8_of_ascii fun b hb => hw b (List.mem_cons_of_mem c hb)
    rw [isUtf8_append_cons (hw c (List.mem_cons_self ..)), hrest, Bool.and_true]

theorem hexDigit_lt : ∀ n < 16, hexDigit n < 128 := by decide

theorem isUtf8_hexEncode (s : Bytes) : isUtf8 (hexEncode s) = true := by
  apply isUtf8_of_ascii
  induction s with
  | nil => exact nofun
  | cons b s ih =>
    have hb : b.toNat < 256 := b.toNat_lt
    simp only [hexEncode, List.mem_cons, forall_eq_or_imp]
    exact ⟨hexDigit_lt _ (by omega), hexDigit_lt _ (by omega), ih⟩

namespace JsonValue

def int : ℤ → JsonValue
  | .ofNat n => number (decimal n)
  | .negSucc n => number (45 :: decimal (n + 1))

/-- An object from its members. -/
def obj (members : List (String × JsonValue)) : JsonValue := object (members.map fun m => (ascii m.1, m.2))

def text (s : String) : JsonValue := string (ascii s)

def find (key : Bytes) : JsonValue → Option JsonValue
  | object ms => (ms.find? fun m => m.1 = key).map Prod.snd
  | _ => none

/-- `j[key] = v`; what is not an object stays as it is. -/
def set (j : JsonValue) (key : Bytes) (v : JsonValue) : JsonValue :=
  match j with
  | object ms => object ((key, v) :: ms.filter fun m => m.1 ≠ key)
  | j => j

def erase (key : Bytes) : JsonValue → JsonValue
  | object ms => object (ms.filter fun m => m.1 ≠ key)
  | j => j

def isObject : JsonValue → Bool
  | object _ => true
  | _ => false

def isNull : JsonValue → Bool
  | null => true
  | _ => false

def asString : JsonValue → Option Bytes
  | string s => some s
  | _ => none

def asBool : JsonValue → Option Bool
  | bool b => some b
  | _ => none

/-- A member that is a string. -/
def stringMember (key : Bytes) (j : JsonValue) : Option Bytes := (j.find key).bind asString

/-- A member that is an object. -/
def objectMember (key : Bytes) (j : JsonValue) : Option JsonValue := (j.find key).filter isObject

mutual

/-- Every string and every name of a member is UTF-8. -/
def utf8 : JsonValue → Bool
  | string s => isUtf8 s
  | array items => utf8Items items
  | object members => utf8Members members
  | _ => true

def utf8Items : List JsonValue → Bool
  | [] => true
  | j :: items => utf8 j && utf8Items items

def utf8Members : List (Bytes × JsonValue) → Bool
  | [] => true
  | (key, j) :: members => isUtf8 key && utf8 j && utf8Members members

end

theorem find_set_self {j : JsonValue} (h : j.isObject = true) (key : Bytes) (v : JsonValue) :
    (j.set key v).find key = some v := by
  cases j with
  | object ms => simp [set, find]
  | _ => cases h

theorem find_set_of_ne {key other : Bytes} (j v : JsonValue) (h : other ≠ key) :
    (j.set key v).find other = j.find other := by
  cases j with
  | object ms =>
    simp only [set, find, List.find?_cons, decide_eq_false (Ne.symm h), List.find?_filter]
    congr 2
    funext m
    by_cases hm : m.1 = other
    · simp [hm, h]
    · simp [hm]
  | _ => rfl

theorem isObject_set (j v : JsonValue) (key : Bytes) : (j.set key v).isObject = j.isObject := by
  cases j <;> rfl

theorem utf8_int (z : ℤ) : (int z).utf8 = true := by
  cases z <;> rfl

theorem utf8Members_iff (ms : List (Bytes × JsonValue)) :
    utf8Members ms = true ↔ ∀ m ∈ ms, isUtf8 m.1 = true ∧ m.2.utf8 = true := by
  induction ms with
  | nil => simp [utf8Members]
  | cons m ms ih => simp [utf8Members, ih]

theorem utf8_find {key : Bytes} {j v : JsonValue} (hj : j.utf8 = true) (h : j.find key = some v) : v.utf8 = true := by
  cases j with
  | object ms =>
    obtain ⟨m, hm, rfl⟩ := Option.map_eq_some_iff.mp h
    rw [utf8, utf8Members_iff] at hj
    exact (hj m (List.mem_of_find?_eq_some hm)).2
  | _ => cases h

theorem isUtf8_stringMember {j : JsonValue} (hj : j.utf8 = true) (key : Bytes) :
    isUtf8 ((j.stringMember key).getD []) = true := by
  cases hs : j.stringMember key with
  | none => rfl
  | some s =>
    obtain ⟨v, hv, hstring⟩ := Option.bind_eq_some_iff.mp hs
    cases v <;> cases hstring
    exact utf8_find hj hv

end JsonValue

/-- `nlohmann::json`: `parse` fails on what is no document, `dump` throws where a string is
not UTF-8. -/
structure JsonLibrary where
  parse : Bytes → Option JsonValue
  parse_nil : parse [] = none
  parse_utf8 : ∀ {text j}, parse text = some j → j.utf8 = true
  dump : JsonValue → Option Bytes
  dump_isSome : ∀ j, (dump j).isSome = j.utf8
  dump_utf8 : ∀ {j text}, dump j = some text → isUtf8 text = true

/-- A library that knows some documents. -/
def JsonLibrary.documents (docs : List (Bytes × JsonValue)) (hdocs : (docs.all fun d => d.2.utf8) = true) :
    JsonLibrary where
  parse s := if s = [] then none else (docs.find? fun d => d.1 = s).map Prod.snd
  parse_nil := if_pos rfl
  parse_utf8 h := by
    split_ifs at h
    obtain ⟨d, hd, rfl⟩ := Option.map_eq_some_iff.mp h
    exact List.all_eq_true.mp hdocs d (List.mem_of_find?_eq_some hd)
  dump j := if j.utf8 then some (ascii "\x7b\x7d") else none
  dump_isSome j := by split_ifs with h <;> simp [h]
  dump_utf8 h := by
    split_ifs at h
    exact Option.some.inj h ▸ isUtf8_literal (by decide)

theorem JsonLibrary.documents_parse {docs : List (Bytes × JsonValue)} {hdocs : (docs.all fun d => d.2.utf8) = true}
    {s : Bytes} {j : JsonValue} (hne : s ≠ []) (hfind : docs.find? (fun d => d.1 = s) = some (s, j)) :
    (documents docs hdocs).parse s = some j := by
  simp only [documents]
  rw [if_neg hne, hfind, Option.map_some]

end FractalSQL.Lib
