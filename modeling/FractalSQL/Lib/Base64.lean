import Mathlib.Tactic

/-!
# Groups of three bytes as four characters

A codec over any alphabet of 64 characters and a padding that is none of them. What is encoded is
decoded again, and the length of the text is that of the groups.
-/
namespace FractalSQL.Lib

/-- 64 different characters and one more. -/
structure Alphabet (σ : Type*) where
  chars : List σ
  length_eq : chars.length = 64
  nodup : chars.Nodup
  pad : σ
  pad_notMem : pad ∉ chars

namespace Alphabet

variable {σ : Type*} (A : Alphabet σ)

theorem mod_lt (v : ℕ) : v % 64 < A.chars.length := by
  rw [A.length_eq]
  exact Nat.mod_lt v (by decide)

/-- The character of the low six bits. -/
def char (v : ℕ) : σ := A.chars.get ⟨v % 64, A.mod_lt v⟩

theorem char_mem (v : ℕ) : A.char v ∈ A.chars := List.get_mem ..

def encode : List UInt8 → List σ
  | [] => []
  | [a] => [A.char (a.toNat / 4), A.char (a.toNat * 16), A.pad, A.pad]
  | [a, b] =>
    [A.char (a.toNat / 4), A.char (a.toNat * 16 + b.toNat / 16), A.char (b.toNat * 4), A.pad]
  | a :: b :: c :: data =>
    A.char (a.toNat / 4) :: A.char (a.toNat * 16 + b.toNat / 16) :: A.char (b.toNat * 4 + c.toNat / 64) ::
      A.char c.toNat :: encode data

section Decode
variable [DecidableEq σ]

/-- The six bits of a character. -/
def value (c : σ) : Option ℕ := if c ∈ A.chars then some (A.chars.idxOf c) else none

/-- The bytes of a group whose last characters may be padding. -/
def group (w x y z : σ) : Option (List UInt8) :=
  match A.value w, A.value x, A.value y, A.value z with
  | some w, some x, some y, some z =>
    some [UInt8.ofNat (w * 4 + x / 16), UInt8.ofNat (x * 16 + y / 4), UInt8.ofNat (y * 64 + z)]
  | some w, some x, some y, none =>
    if z = A.pad then some [UInt8.ofNat (w * 4 + x / 16), UInt8.ofNat (x * 16 + y / 4)] else none
  | some w, some x, none, none => if y = A.pad ∧ z = A.pad then some [UInt8.ofNat (w * 4 + x / 16)] else none
  | _, _, _, _ => none

/-- Only the last group may be padded. -/
def decode : List σ → Option (List UInt8)
  | [] => some []
  | w :: x :: y :: z :: text =>
    match A.group w x y z with
    | none => none
    | some bytes => if bytes.length = 3 ∨ text = [] then (decode text).map (bytes ++ ·) else none
  | _ => none

variable {A}

theorem value_char (v : ℕ) : A.value (A.char v) = some (v % 64) := by
  rw [value, if_pos (A.char_mem v)]
  exact congrArg some (A.nodup.idxOf_getElem (v % 64) (A.mod_lt v))

theorem value_pad : A.value A.pad = none := if_neg A.pad_notMem

theorem ofNat_eq {a : UInt8} {n : ℕ} (h : n % 256 = a.toNat) : UInt8.ofNat n = a := by
  apply UInt8.toNat_inj.mp
  rw [UInt8.toNat_ofNat', ← h]

theorem decode_encode (data : List UInt8) : A.decode (A.encode data) = some data := by
  induction data using encode.induct with
  | case1 => rfl
  | case2 a =>
    have ha := a.toNat_lt
    have hfirst : UInt8.ofNat (a.toNat / 4 % 64 * 4 + a.toNat * 16 % 64 / 16) = a := ofNat_eq (by omega)
    rw [encode, decode, group, value_char, value_char, value_pad]
    dsimp only
    rw [if_pos ⟨rfl, rfl⟩]
    simp [decode, hfirst]
  | case3 a b =>
    have ha := a.toNat_lt
    have hb := b.toNat_lt
    have hfirst : UInt8.ofNat (a.toNat / 4 % 64 * 4 + (a.toNat * 16 + b.toNat / 16) % 64 / 16) = a := ofNat_eq (by omega)
    have hsecond : UInt8.ofNat ((a.toNat * 16 + b.toNat / 16) % 64 * 16 + b.toNat * 4 % 64 / 4) = b := ofNat_eq (by omega)
    rw [encode, decode, group, value_char, value_char, value_char, value_pad]
    dsimp only
    rw [if_pos rfl]
    simp [decode, hfirst, hsecond]
  | case4 a b c data ih =>
    have ha := a.toNat_lt
    have hb := b.toNat_lt
    have hc := c.toNat_lt
    have hfirst : UInt8.ofNat (a.toNat / 4 % 64 * 4 + (a.toNat * 16 + b.toNat / 16) % 64 / 16) = a := ofNat_eq (by omega)
    have hsecond : UInt8.ofNat ((a.toNat * 16 + b.toNat / 16) % 64 * 16 + (b.toNat * 4 + c.toNat / 64) % 64 / 4) = b :=
      ofNat_eq (by omega)
    have hthird : UInt8.ofNat ((b.toNat * 4 + c.toNat / 64) % 64 * 64 + c.toNat % 64) = c := ofNat_eq (by omega)
    rw [encode, decode, group, value_char, value_char, value_char, value_char]
    dsimp only
    rw [if_pos (.inl rfl), ih, hfirst, hsecond, hthird]
    rfl

end Decode

theorem encode_length (data : List UInt8) : (A.encode data).length = (data.length + 2) / 3 * 4 := by
  induction data using encode.induct with
  | case1 => rfl
  | case2 a => simp [encode]
  | case3 a b => simp [encode]
  | case4 a b c data ih =>
    rw [encode, List.length_cons, List.length_cons, List.length_cons, List.length_cons, ih, List.length_cons,
      List.length_cons, List.length_cons]
    omega

/-- A text is made of the characters and the padding. -/
theorem mem_encode {data : List UInt8} {c : σ} (h : c ∈ A.encode data) : c ∈ A.chars ∨ c = A.pad := by
  have hchar := A.char_mem
  induction data using encode.induct with
  | case1 => cases h
  | case2 a =>
    simp only [encode, List.mem_cons, List.not_mem_nil, or_false] at h
    rcases h with rfl | rfl | h | h
    · exact .inl (hchar _)
    · exact .inl (hchar _)
    · exact .inr h
    · exact .inr h
  | case3 a b =>
    simp only [encode, List.mem_cons, List.not_mem_nil, or_false] at h
    rcases h with rfl | rfl | rfl | h
    · exact .inl (hchar _)
    · exact .inl (hchar _)
    · exact .inl (hchar _)
    · exact .inr h
  | case4 a b c' data ih =>
    simp only [encode, List.mem_cons] at h
    rcases h with rfl | rfl | rfl | rfl | h
    · exact .inl (hchar _)
    · exact .inl (hchar _)
    · exact .inl (hchar _)
    · exact .inl (hchar _)
    · exact ih h

end Alphabet
end FractalSQL.Lib
