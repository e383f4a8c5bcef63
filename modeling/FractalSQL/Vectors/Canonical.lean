import FractalSQL.Lib.Text

/-!
# Canonical vectors

A vector of float32 patterns travels as the lowercase hexadecimal text of its bytes: a dimension,
a zero field and the patterns, all little-endian.
-/
namespace FractalSQL.Vectors
open Lib

/-! ### Encoding and decoding -/

/-- `FSQL_VEC_MAX_DIM` and `FSQL_VEC_HDRSZ`. -/
def maxDim : ℕ := 32767
def hdrSz : ℕ := 4

/-- The exponent of the pattern is not all ones. -/
def isFinite (bits : UInt32) : Bool := bits.toNat / 2 ^ 23 % 256 ≠ 255

/-- `le_float_put` of every element. -/
def floatBytes (v : List UInt32) : Bytes := v.flatMap fun f => leBytes 4 f.toNat

def canonicalBytes (v : List UInt32) : Bytes := leBytes 2 v.length ++ (leBytes 2 0 ++ floatBytes v)

/-- `format_canonical_hex`, where the buffer can be had. -/
def formatCanonicalHex (v : List UInt32) : Option Bytes :=
  if v.length < 1 ∨ maxDim < v.length then none else some (hexEncode (canonicalBytes v))

def le16Get (p : Bytes) : ℕ := leValue (p.take 2)

def leFloatGet (p : Bytes) : UInt32 := UInt32.ofNat (leValue (p.take 4))

/-- `le_float_get` at every fourth byte. -/
def floatsOf : ℕ → Bytes → List UInt32
  | 0, _ => []
  | dim + 1, p => leFloatGet p :: floatsOf dim (p.drop 4)

/-- False without a message, false with the message about an element, or true with the vector. -/
inductive Decoded where
  | refused
  | notFinite (i : ℕ)
  | vector (v : List UInt32)
deriving DecidableEq

/-- `decode_canonical_hex`, where the buffers can be had. -/
def decodeCanonicalHex (s : Bytes) : Decoded :=
  if s = [] ∨ s.length % 2 ≠ 0 then .refused
  else if s.length / 2 < hdrSz then .refused
  else
    match hexDecode (s.length / 2) s with
    | none => .refused
    | some (bytes, _) =>
      let dim := le16Get bytes
      if dim < 1 ∨ maxDim < dim ∨ le16Get (bytes.drop 2) ≠ 0 ∨ bytes.length ≠ hdrSz + dim * 4 then .refused
      else
        let fv := floatsOf dim (bytes.drop hdrSz)
        match fv.findIdx? fun f => !isFinite f with
        | some i => .notFinite i
        | none => .vector fv

/-! ### The bytes -/

@[simp] theorem floatBytes_cons (f : UInt32) (v : List UInt32) : floatBytes (f :: v) = leBytes 4 f.toNat ++ floatBytes v := rfl

theorem floatBytes_length (v : List UInt32) : (floatBytes v).length = 4 * v.length := by
  induction v with
  | nil => rfl
  | cons f v ih =>
    rw [floatBytes_cons, List.length_append, leBytes_length, ih, List.length_cons]
    omega

theorem canonicalBytes_length (v : List UInt32) : (canonicalBytes v).length = hdrSz + v.length * 4 := by
  simp only [canonicalBytes, List.length_append, leBytes_length, floatBytes_length, hdrSz]
  omega

theorem floatsOf_floatBytes (v : List UInt32) : floatsOf v.length (floatBytes v) = v := by
  induction v with
  | nil => rfl
  | cons f v ih =>
    have hlen := leBytes_length 4 f.toNat
    rw [floatBytes_cons, List.length_cons, floatsOf, leFloatGet, List.take_left' hlen, List.drop_left' hlen, ih,
      uint32_leBytes]

/-- Every four bytes are a pattern. -/
theorem exists_floats {dim : ℕ} {p : Bytes} (h : p.length = 4 * dim) : ∃ v, v.length = dim ∧ floatBytes v = p := by
  induction dim generalizing p with
  | zero => exact ⟨[], rfl, (List.length_eq_zero_iff.mp h).symm⟩
  | succ dim ih =>
    obtain ⟨b, rest, rfl⟩ := exists_block 4 p (by omega)
    rw [List.length_append, b.property] at h
    obtain ⟨v, hv, hrest⟩ := ih (by omega : rest.length = 4 * dim)
    refine ⟨UInt32.ofNat (leValue b.val) :: v, by rw [List.length_cons, hv], ?_⟩
    rw [floatBytes_cons, leBytes_uint32, hrest]

theorem le16Get_canonicalBytes {v : List UInt32} (hdim : v.length < 65536) :
    le16Get (canonicalBytes v) = v.length ∧ le16Get ((canonicalBytes v).drop 2) = 0 := by
  constructor
  · rw [le16Get, canonicalBytes, List.take_left' (leBytes_length 2 _), leValue_leBytes (by omega)]
  · rw [le16Get, canonicalBytes, List.drop_left' (leBytes_length 2 _), List.take_left' (leBytes_length 2 _),
      leValue_leBytes (by omega)]

theorem drop_canonicalBytes (v : List UInt32) : (canonicalBytes v).drop hdrSz = floatBytes v := by
  rw [canonicalBytes, ← List.append_assoc]
  exact List.drop_left' (by simp [hdrSz])

/-- The text of the bytes has the length that the decoder asks for, and decodes to them. -/
theorem canonical_text (v : List UInt32) :
    ¬ (hexEncode (canonicalBytes v) = [] ∨ (hexEncode (canonicalBytes v)).length % 2 ≠ 0) ∧
      (hexEncode (canonicalBytes v)).length / 2 = (canonicalBytes v).length ∧
      hexDecode (canonicalBytes v).length (hexEncode (canonicalBytes v)) = some (canonicalBytes v, []) := by
  have hlen := hexEncode_length (canonicalBytes v)
  have hpos := canonicalBytes_length v
  rw [hdrSz] at hpos
  refine ⟨?_, by omega, ?_⟩
  · rw [not_or, not_not]
    refine ⟨fun hnil => ?_, by omega⟩
    rw [hnil, List.length_nil] at hlen
    omega
  · have h := hexDecode_hexEncode (canonicalBytes v) []
    rwa [List.append_nil] at h

/-- What the decoder does with a canonical text: it is refused for its dimension or an element only. -/
theorem decode_canonical {v : List UInt32} (hpos : 1 ≤ v.length) (hdim : v.length < 65536) :
    decodeCanonicalHex (hexEncode (canonicalBytes v)) =
      if maxDim < v.length then .refused
      else match v.findIdx? fun f => !isFinite f with
        | some i => .notFinite i
        | none => .vector v := by
  obtain ⟨hnonempty, hhalf, hdecode⟩ := canonical_text v
  obtain ⟨hget, hreserved⟩ := le16Get_canonicalBytes hdim
  have hlen := canonicalBytes_length v
  unfold decodeCanonicalHex
  rw [if_neg hnonempty, hhalf, if_neg (by omega), hdecode]
  dsimp only
  rw [hget, hreserved, drop_canonicalBytes, floatsOf_floatBytes, hlen]
  by_cases hmax : maxDim < v.length
  · rw [if_pos (.inr (.inl hmax)), if_pos hmax]
  · rw [if_neg hmax, if_neg (by omega)]

end FractalSQL.Vectors
