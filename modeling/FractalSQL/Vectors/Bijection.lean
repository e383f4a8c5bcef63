import FractalSQL.Vectors.Canonical

/-!
# The canonical texts

Which texts the decoder takes, read from their digits alone, and that it takes each back to the
vector the encoder has it from.
-/
namespace FractalSQL.Vectors
open Lib

/-! ### The digits of a text -/

/-- The byte that the digits at `2 * i` spell. -/
def byteAt (s : Bytes) (i : ℕ) : ℕ :=
  16 * (hexValue (s.getD (2 * i) 0)).getD 0 + (hexValue (s.getD (2 * i + 1) 0)).getD 0

/-- Four of them, little-endian. -/
def wordAt (s : Bytes) (i : ℕ) : ℕ :=
  byteAt s i + 256 * (byteAt s (i + 1) + 256 * (byteAt s (i + 2) + 256 * byteAt s (i + 3)))

/-- Digits of either case, as many as the dimension in the header says, with a zero field behind it and
no infinity or NaN in the payload. -/
structure CanonicalText (s : Bytes) (dim : ℕ) : Prop where
  digits : ∀ c ∈ s, (hexValue c).isSome = true
  length : s.length = 8 + 8 * dim
  pos : 1 ≤ dim
  small : dim ≤ 32767
  header : byteAt s 0 + 256 * byteAt s 1 = dim
  reserved : byteAt s 2 = 0 ∧ byteAt s 3 = 0
  finite : ∀ i < dim, isFinite (UInt32.ofNat (wordAt s (4 + 4 * i))) = true

variable {s bs : Bytes} {v : List UInt32}

theorem byteAt_eq (h : s.map asciiLower = hexEncode bs) (i : ℕ) : byteAt s i = (bs.getD i 0).toNat := by
  induction bs generalizing s i with
  | nil =>
    rw [List.map_eq_nil_iff.mp h]
    rfl
  | cons b bs ih =>
    have hb := b.toNat_lt
    rcases s with - | ⟨hi, - | ⟨lo, s⟩⟩
    · cases h
    · cases (List.cons.inj h).2
    · rw [List.map_cons, List.map_cons, hexEncode, List.cons.injEq, List.cons.injEq] at h
      obtain ⟨hhi, hlo, hrest⟩ := h
      cases i with
      | zero =>
        have hhi' : hexValue hi = some (b.toNat / 16) := by
          rw [← hexValue_asciiLower, hhi, hexValue_hexDigit _ (by omega)]
        have hlo' : hexValue lo = some (b.toNat % 16) := by
          rw [← hexValue_asciiLower, hlo, hexValue_hexDigit _ (by omega)]
        change 16 * (hexValue hi).getD 0 + (hexValue lo).getD 0 = b.toNat
        rw [hhi', hlo', Option.getD_some, Option.getD_some]
        omega
      | succ i => exact ih hrest i

theorem floatBytes_getD {k : ℕ} (h : k < v.length) (j : ℕ) (hj : j < 4) :
    (floatBytes v).getD (4 * k + j) 0 = (leBytes 4 v[k].toNat).getD j 0 := by
  induction v generalizing k with
  | nil => exact absurd h (Nat.not_lt_zero k)
  | cons f v ih =>
    cases k with
    | zero => interval_cases j <;> rfl
    | succ k =>
      rw [show 4 * (k + 1) + j = 4 * k + j + 1 + 1 + 1 + 1 by omega]
      exact ih (Nat.lt_of_succ_lt_succ h)

/-- The words behind the header are the patterns. -/
theorem wordAt_eq (h : s.map asciiLower = hexEncode (canonicalBytes v)) {k : ℕ} (hk : k < v.length) :
    wordAt s (4 + 4 * k) = v[k].toNat := by
  have hbyte (j : ℕ) (hj : j < 4) : byteAt s (4 + 4 * k + j) = ((leBytes 4 v[k].toNat).getD j 0).toNat := by
    rw [byteAt_eq h, ← floatBytes_getD hk j hj, show 4 + 4 * k + j = 4 * k + j + 1 + 1 + 1 + 1 by omega]
    rfl
  have hn : v[k].toNat < 2 ^ 32 := v[k].toNat_lt
  rw [wordAt, ← Nat.add_zero (4 + 4 * k), hbyte 0 (by decide), hbyte 1 (by decide), hbyte 2 (by decide), hbyte 3 (by decide)]
  simp only [leBytes, List.getD_cons_zero, List.getD_cons_succ, UInt8.toNat_ofNat']
  omega

/-! ### What is accepted -/

/-- Bytes with such a header are those of a vector. -/
theorem exists_canonicalBytes {dim : ℕ} (hlen : bs.length = hdrSz + dim * 4) (hdim : le16Get bs = dim)
    (hreserved : le16Get (bs.drop 2) = 0) : ∃ v, v.length = dim ∧ canonicalBytes v = bs := by
  rw [hdrSz] at hlen
  rcases bs with - | ⟨b₀, - | ⟨b₁, - | ⟨b₂, - | ⟨b₃, p⟩⟩⟩⟩
  iterate 4
    simp only [List.length_nil, List.length_cons] at hlen
    omega
  have hlow : b₀.toNat + 256 * (b₁.toNat + 256 * 0) = dim := hdim
  have hzero : b₂.toNat + 256 * (b₃.toNat + 256 * 0) = 0 := hreserved
  have hb₀ := b₀.toNat_lt
  have hb₁ := b₁.toNat_lt
  simp only [List.length_cons] at hlen
  obtain ⟨v, hv, rfl⟩ := exists_floats (show p.length = 4 * dim by omega)
  have h₀ : UInt8.ofNat v.length = b₀ := by
    rw [← UInt8.toNat_inj, UInt8.toNat_ofNat']
    omega
  have h₁ : UInt8.ofNat (v.length / 256) = b₁ := by
    rw [← UInt8.toNat_inj, UInt8.toNat_ofNat']
    omega
  have h₂ : 0 = b₂ := UInt8.toNat_inj.mp (by change 0 = b₂.toNat; omega)
  have h₃ : 0 = b₃ := UInt8.toNat_inj.mp (by change 0 = b₃.toNat; omega)
  refine ⟨v, hv, ?_⟩
  change UInt8.ofNat v.length :: UInt8.ofNat (v.length / 256) :: 0 :: 0 :: floatBytes v = _
  rw [h₀, h₁, ← h₂, ← h₃]

theorem floatsOf_canonicalBytes (v : List UInt32) : floatsOf v.length ((canonicalBytes v).drop hdrSz) = v := floatsOf_floatBytes v

/-- The case of the digits does not matter. -/
theorem decode_lower (h : s.map asciiLower = hexEncode bs) : decodeCanonicalHex s = decodeCanonicalHex (hexEncode bs) := by
  have hlen : s.length = 2 * bs.length := by
    rw [← hexEncode_length, ← h, List.length_map]
  have hnil : s = [] ↔ hexEncode bs = [] := by
    rw [← h, List.map_eq_nil_iff]
  have hhalf : 2 * bs.length / 2 = bs.length := by omega
  unfold decodeCanonicalHex
  rw [hexEncode_length, hlen, hhalf, hexDecode_iff.mpr h, hexDecode_iff.mpr (map_asciiLower_hexEncode bs)]
  simp only [hnil]

/-- The decoder takes a text exactly when it is a canonical one, in either case. -/
theorem decode_iff : decodeCanonicalHex s = .vector v ↔
    s.map asciiLower = hexEncode (canonicalBytes v) ∧ 1 ≤ v.length ∧ v.length ≤ maxDim ∧ ∀ f ∈ v, isFinite f = true := by
  constructor
  · intro h
    unfold decodeCanonicalHex at h
    split_ifs at h with hempty hshort
    cases hdecode : hexDecode (s.length / 2) s with
    | none =>
      rw [hdecode] at h
      cases h
    | some p =>
      obtain ⟨bytes, rest⟩ := p
      obtain ⟨hbytes, hrest⟩ := hexDecode_length hdecode
      rw [hdecode] at h
      dsimp only at h
      split_ifs at h with hheader
      cases hfind : (floatsOf (le16Get bytes) (bytes.drop hdrSz)).findIdx? fun f => !isFinite f with
      | some i =>
        rw [hfind] at h
        cases h
      | none =>
        rw [hfind] at h
        cases h
        rw [not_or, not_not] at hempty
        have hnil : rest = [] := List.length_eq_zero_iff.mp (by omega)
        rw [hnil, ← hbytes, hexDecode_iff] at hdecode
        simp only [not_or, not_lt, not_not] at hheader
        obtain ⟨hpos, hmax, hreserved, htotal⟩ := hheader
        obtain ⟨v, hv, rfl⟩ := exists_canonicalBytes htotal rfl hreserved
        rw [← hv, floatsOf_canonicalBytes] at hfind ⊢
        refine ⟨hdecode, by omega, by omega, fun f hf => ?_⟩
        simpa using List.findIdx?_eq_none_iff.mp hfind f hf
  · rintro ⟨htext, hpos, hmax, hfinite⟩
    have hfind : (v.findIdx? fun f => !isFinite f) = none :=
      List.findIdx?_eq_none_iff.mpr fun f hf => by rw [hfinite f hf]; rfl
    have hwidth : v.length < 65536 := by
      rw [maxDim] at hmax
      omega
    rw [decode_lower htext, decode_canonical hpos hwidth, if_neg (Nat.not_lt.mpr hmax), hfind]

theorem canonicalText_iff {dim : ℕ} : CanonicalText s dim ↔
    ∃ v, v.length = dim ∧ decodeCanonicalHex s = .vector v := by
  constructor
  · intro h
    obtain ⟨bs, hbs, htext⟩ := exists_hexEncode (show s.length = 2 * (4 + 4 * dim) by rw [h.length]; omega) h.digits
    have hget (p : Bytes) : le16Get p = (p.getD 0 0).toNat + 256 * (p.getD 1 0).toNat := by
      rcases p with - | ⟨b, - | ⟨b', p⟩⟩ <;> rfl
    have hdrop (j : ℕ) : (bs.drop 2).getD j 0 = bs.getD (2 + j) 0 := by
      rw [List.getD_eq_getElem?_getD, List.getD_eq_getElem?_getD, List.getElem?_drop]
    have htotal : bs.length = hdrSz + dim * 4 := by
      rw [hbs, hdrSz]
      omega
    obtain ⟨v, rfl, rfl⟩ := exists_canonicalBytes htotal
      (by rw [hget, ← byteAt_eq htext, ← byteAt_eq htext, h.header])
      (by rw [hget, hdrop, hdrop, ← byteAt_eq htext, ← byteAt_eq htext, h.reserved.1, h.reserved.2])
    refine ⟨v, rfl, decode_iff.mpr ⟨htext, h.pos, h.small, fun f hf => ?_⟩⟩
    obtain ⟨k, hk, rfl⟩ := List.getElem_of_mem hf
    have hword := h.finite k hk
    rwa [wordAt_eq htext hk, UInt32.ofNat_toNat] at hword
  · rintro ⟨v, rfl, hdecode⟩
    obtain ⟨htext, hpos, hmax, hfinite⟩ := decode_iff.mp hdecode
    have hlen : s.length = 2 * (hdrSz + v.length * 4) := by
      rw [← canonicalBytes_length, ← hexEncode_length, ← htext, List.length_map]
    rw [hdrSz] at hlen
    have hlow : byteAt s 0 = v.length % 256 := (byteAt_eq htext 0).trans UInt8.toNat_ofNat'
    have hhigh : byteAt s 1 = v.length / 256 % 256 := (byteAt_eq htext 1).trans UInt8.toNat_ofNat'
    refine ⟨fun c hc => ?_, by omega, hpos, hmax, ?_, ⟨byteAt_eq htext 2, byteAt_eq htext 3⟩, fun i hi => ?_⟩
    · rw [← hexValue_asciiLower]
      exact hexValue_isSome_of_mem (htext ▸ List.mem_map_of_mem hc)
    · rw [maxDim] at hmax
      rw [hlow, hhigh]
      omega
    · rw [wordAt_eq htext hi, UInt32.ofNat_toNat]
      exact hfinite _ (List.getElem_mem hi)

/-- The decoder inverts the encoder, and takes exactly the canonical texts; encoding what it takes gives the
text in lower case. -/
theorem canonical_bijection :
    (∀ v : List UInt32, 1 ≤ v.length → v.length ≤ 32767 → (∀ f ∈ v, isFinite f = true) →
      ∃ s, formatCanonicalHex v = some s ∧ decodeCanonicalHex s = .vector v) ∧
    ∀ s, ((∃ v, decodeCanonicalHex s = .vector v) ↔ ∃ dim, CanonicalText s dim) ∧
      ∀ v, decodeCanonicalHex s = .vector v → formatCanonicalHex v = some (s.map asciiLower) := by
  have hformat {v : List UInt32} (hpos : 1 ≤ v.length) (hmax : v.length ≤ maxDim) :
      formatCanonicalHex v = some (hexEncode (canonicalBytes v)) := if_neg (by omega)
  refine ⟨fun v hpos hmax hfinite => ⟨_, hformat hpos hmax, ?_⟩, fun s => ⟨⟨?_, ?_⟩, fun v hdecode => ?_⟩⟩
  · exact decode_iff.mpr ⟨map_asciiLower_hexEncode _, hpos, hmax, hfinite⟩
  · rintro ⟨v, hdecode⟩
    exact ⟨_, canonicalText_iff.mpr ⟨v, rfl, hdecode⟩⟩
  · rintro ⟨dim, htext⟩
    obtain ⟨v, -, hdecode⟩ := canonicalText_iff.mp htext
    exact ⟨v, hdecode⟩
  · obtain ⟨htext, hpos, hmax, -⟩ := decode_iff.mp hdecode
    rw [hformat hpos hmax, htext]

end FractalSQL.Vectors
