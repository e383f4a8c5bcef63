import FractalSQL.Lib.JsonGrammar
import FractalSQL.Vectors.Canonical

/-!
# Canonical vectors among JSON texts

A result of the database is parsed as JSON unless it looks like a canonical vector, which many
numbers do. The test accepts the texts of the encoder, up to its dimension limit, and no others.
-/
namespace FractalSQL.Mcp.VectorText
open Lib Vectors

/-! ### The recogniser -/

def isLowerHex (c : UInt8) : Bool := (48 ≤ c ∧ c ≤ 57) ∨ (97 ≤ c ∧ c ≤ 102)

def nib (c : UInt8) : ℕ := if c ≤ 57 then c.toNat - 48 else c.toNat - 87

def hexByte (s : Bytes) (i : ℕ) : ℕ := 16 * nib (s.getD i 0) + nib (s.getD (i + 1) 0)

def looksLikeCanonicalVectorHex (s : Bytes) : Bool :=
  if s.length < 16 ∨ s.length % 8 ≠ 0 then false
  else if !s.all isLowerHex then false
  else
    let dim := hexByte s 0 + 256 * hexByte s 2
    if dim < 1 then false
    else if hexByte s 4 ≠ 0 ∨ hexByte s 6 ≠ 0 then false
    else s.length = 8 + 8 * dim

/-- `Db::parseJsonOrValue` on a C string, or on a null pointer. -/
def parseJsonOrValue (lib : JsonLibrary) : Option Bytes → JsonValue
  | none => .null
  | some s =>
    if looksLikeCanonicalVectorHex s then .string s
    else match lib.parse s with
      | some j => j
      | none => .object [(ascii "value", .string s)]

/-! ### Lowercase digits -/

theorem lowerHex_digit : ∀ n < 16, isLowerHex (hexDigit n) = true ∧ nib (hexDigit n) = n := by decide

/-- The digits of a byte. -/
theorem byte_digits (b : UInt8) : b.toNat / 16 < 16 ∧ b.toNat % 16 < 16 := by
  have hb := b.toNat_lt
  omega

theorem hexEncode_lower (bs : Bytes) : (hexEncode bs).all isLowerHex = true := by
  induction bs with
  | nil => rfl
  | cons b bs ih =>
    obtain ⟨hhigh, hlow⟩ := byte_digits b
    rw [hexEncode, List.all_cons, List.all_cons, (lowerHex_digit _ hhigh).1, (lowerHex_digit _ hlow).1, ih]
    rfl

theorem digit_of_lowerHex {c : UInt8} (h : isLowerHex c = true) : nib c < 16 ∧ hexDigit (nib c) = c := by
  have hrange := of_decide_eq_true h
  simp only [UInt8.le_iff_toNat_le, UInt8.reduceToNat] at hrange
  unfold nib
  simp only [UInt8.le_iff_toNat_le, UInt8.reduceToNat]
  split
  · refine ⟨by omega, ?_⟩
    rw [hexDigit, if_pos (by omega), ← UInt8.toNat_inj, UInt8.toNat_ofNat']
    omega
  · refine ⟨by omega, ?_⟩
    rw [hexDigit, if_neg (by omega), ← UInt8.toNat_inj, UInt8.toNat_ofNat']
    omega

/-- A text of lowercase digits spells bytes. -/
theorem exists_bytes {w : ℕ} {s : Bytes} (hlen : s.length = 2 * w) (h : ∀ c ∈ s, isLowerHex c = true) :
    ∃ bs, bs.length = w ∧ hexEncode bs = s := by
  induction w generalizing s with
  | zero => exact ⟨[], rfl, (List.length_eq_zero_iff.mp hlen).symm⟩
  | succ w ih =>
    rcases s with - | ⟨hi, - | ⟨lo, s⟩⟩
    · simp only [List.length_nil] at hlen
      omega
    · simp only [List.length_cons, List.length_nil] at hlen
      omega
    · simp only [List.length_cons] at hlen
      rw [List.forall_mem_cons, List.forall_mem_cons] at h
      obtain ⟨hhi, hlo, hrest⟩ := h
      obtain ⟨bs, hbs, rfl⟩ := ih (by omega) hrest
      obtain ⟨hhi16, hhi⟩ := digit_of_lowerHex hhi
      obtain ⟨hlo16, hlo⟩ := digit_of_lowerHex hlo
      have hbyte : (UInt8.ofNat (16 * nib hi + nib lo)).toNat = 16 * nib hi + nib lo := by
        rw [UInt8.toNat_ofNat']
        omega
      refine ⟨UInt8.ofNat (16 * nib hi + nib lo) :: bs, by rw [List.length_cons, hbs], ?_⟩
      rw [hexEncode, hbyte, show (16 * nib hi + nib lo) / 16 = nib hi by omega,
        show (16 * nib hi + nib lo) % 16 = nib lo by omega, hhi, hlo]

/-- The recogniser reads the bytes of the header. -/
theorem hexByte_hexEncode (b : UInt8) (bs s : Bytes) {i : ℕ} (h : s.drop i = hexEncode (b :: bs)) : hexByte s i = b.toNat := by
  obtain ⟨hhigh, hlow⟩ := byte_digits b
  have hget (k : ℕ) : s.getD (i + k) 0 = (s.drop i).getD k 0 := by
    rw [List.getD_eq_getElem?_getD, List.getD_eq_getElem?_getD, List.getElem?_drop]
  have h0 := hget 0
  have h1 := hget 1
  rw [h, hexEncode] at h0 h1
  rw [hexByte, ← Nat.add_zero i, h0, Nat.add_zero, h1, List.getD_cons_zero, List.getD_cons_succ, List.getD_cons_zero,
    (lowerHex_digit _ hhigh).2, (lowerHex_digit _ hlow).2]
  omega

theorem header_bytes (b₀ b₁ b₂ b₃ : UInt8) (bs : Bytes) :
    hexByte (hexEncode (b₀ :: b₁ :: b₂ :: b₃ :: bs)) 0 = b₀.toNat ∧ hexByte (hexEncode (b₀ :: b₁ :: b₂ :: b₃ :: bs)) 2 = b₁.toNat ∧
      hexByte (hexEncode (b₀ :: b₁ :: b₂ :: b₃ :: bs)) 4 = b₂.toNat ∧ hexByte (hexEncode (b₀ :: b₁ :: b₂ :: b₃ :: bs)) 6 = b₃.toNat :=
  ⟨hexByte_hexEncode _ _ _ rfl, hexByte_hexEncode _ _ _ rfl, hexByte_hexEncode _ _ _ rfl, hexByte_hexEncode _ _ _ rfl⟩

/-! ### What is recognised -/

theorem canonicalBytes_cons (v : List UInt32) :
    canonicalBytes v = UInt8.ofNat v.length :: UInt8.ofNat (v.length / 256) :: 0 :: 0 :: floatBytes v := rfl

theorem looksLike_canonical {v : List UInt32} (hpos : 1 ≤ v.length) (hdim : v.length < 65536) :
    looksLikeCanonicalVectorHex (hexEncode (canonicalBytes v)) = true := by
  have hlen : (hexEncode (canonicalBytes v)).length = 8 + 8 * v.length := by
    rw [hexEncode_length, canonicalBytes_length, hdrSz]
    omega
  obtain ⟨h0, h2, h4, h6⟩ := header_bytes (UInt8.ofNat v.length) (UInt8.ofNat (v.length / 256)) 0 0 (floatBytes v)
  rw [← canonicalBytes_cons] at h0 h2 h4 h6
  have hvalue : hexByte (hexEncode (canonicalBytes v)) 0 + 256 * hexByte (hexEncode (canonicalBytes v)) 2 = v.length := by
    rw [h0, h2, UInt8.toNat_ofNat', UInt8.toNat_ofNat']
    omega
  unfold looksLikeCanonicalVectorHex
  dsimp only
  rw [if_neg (by omega), hexEncode_lower, if_neg (by decide), hvalue, if_neg (by omega), h4, h6, if_neg (by decide)]
  exact decide_eq_true hlen

theorem canonical_of_looksLike {s : Bytes} (h : looksLikeCanonicalVectorHex s = true) :
    ∃ v, 1 ≤ v.length ∧ v.length < 65536 ∧ s = hexEncode (canonicalBytes v) := by
  unfold looksLikeCanonicalVectorHex at h
  split at h
  · cases h
  · rename_i hlen
    split at h
    · cases h
    · rename_i hlower
      rw [Bool.not_eq_true', Bool.not_eq_false, List.all_eq_true] at hlower
      obtain ⟨bs, hbs, rfl⟩ := exists_bytes (show s.length = 2 * (s.length / 2) by omega) hlower
      have hfour : 4 ≤ bs.length := by omega
      rcases bs with - | ⟨b₀, - | ⟨b₁, - | ⟨b₂, - | ⟨b₃, p⟩⟩⟩⟩
      iterate 4 exact absurd hfour (by simp)
      · obtain ⟨h0, h2, h4, h6⟩ := header_bytes b₀ b₁ b₂ b₃ p
        dsimp only at h
        rw [h0, h2, h4, h6] at h
        split at h
        · cases h
        · rename_i hdim
          split at h
          · cases h
          · rename_i hreserved
            have htotal := of_decide_eq_true h
            rw [hexEncode_length] at htotal
            simp only [List.length_cons] at htotal
            have hb₀ := b₀.toNat_lt
            have hb₁ := b₁.toNat_lt
            obtain ⟨v, hv, rfl⟩ := exists_floats (show p.length = 4 * (b₀.toNat + 256 * b₁.toNat) by omega)
            rw [not_or, not_not, not_not] at hreserved
            refine ⟨v, by omega, by omega, ?_⟩
            have hlow : UInt8.ofNat v.length = b₀ := by
              rw [← UInt8.toNat_inj, UInt8.toNat_ofNat']
              omega
            have hhigh : UInt8.ofNat (v.length / 256) = b₁ := by
              rw [← UInt8.toNat_inj, UInt8.toNat_ofNat']
              omega
            have hz₂ : b₂ = 0 := UInt8.toNat_inj.mp hreserved.1
            have hz₃ : b₃ = 0 := UInt8.toNat_inj.mp hreserved.2
            rw [canonicalBytes_cons, hlow, hhigh, hz₂, hz₃]

/-! ### The boundary -/

/-- The encoder's texts come back as they are; a number that comes back as a string is the
text of a vector, which the decoder takes unless an element is not finite or there are too many. -/
theorem canonical_survives (lib : JsonLibrary)
    (hnumber : ∀ text lex s, JsonGrammar.JsonText text (.scalar lex) → JsonGrammar.IsNumber lex →
      lib.parse text ≠ some (.string s)) :
    (∀ v : List UInt32, 1 ≤ v.length → v.length ≤ 32767 → (∀ f ∈ v, isFinite f = true) →
      ∃ text, formatCanonicalHex v = some text ∧ parseJsonOrValue lib (some text) = .string text) ∧
    ∀ text lex s, JsonGrammar.JsonText text (.scalar lex) → JsonGrammar.IsNumber lex →
      parseJsonOrValue lib (some text) = .string s →
      ∃ v, text = hexEncode (canonicalBytes v) ∧
        (decodeCanonicalHex text = .vector v ∨
          (∃ i f, v[i]? = some f ∧ isFinite f = false ∧ decodeCanonicalHex text = .notFinite i) ∨
          32767 < v.length ∧ decodeCanonicalHex text = .refused) := by
  constructor
  · intro v hpos hdim hfinite
    refine ⟨hexEncode (canonicalBytes v), if_neg ?_, if_pos (looksLike_canonical hpos (by omega))⟩
    unfold maxDim
    omega
  · intro text lex s htext hlex hparse
    rw [parseJsonOrValue] at hparse
    split at hparse
    · rename_i hlooks
      obtain ⟨v, hpos, hdim, rfl⟩ := canonical_of_looksLike hlooks
      refine ⟨v, rfl, ?_⟩
      rw [decode_canonical hpos hdim]
      split
      · rename_i hmax
        exact .inr (.inr ⟨hmax, rfl⟩)
      · split
        · rename_i i hfind
          obtain ⟨hi, hbad, -⟩ := List.findIdx?_eq_some_iff_getElem.mp hfind
          exact .inr (.inl ⟨i, v[i], List.getElem?_eq_getElem hi, by simpa using hbad, rfl⟩)
        · exact .inl rfl
    · split at hparse
      · rename_i j hj
        rw [hparse] at hj
        exact absurd hj (hnumber text lex s htext hlex)
      · cases hparse

/-- The zero vector with 16 elements: 136 digits that are a number, too. -/
def zeros : Bytes := ascii "1000" ++ List.replicate 132 48

/-- A library that reads these digits as the number they are. -/
def digitLibrary : JsonLibrary := .documents [(zeros, .number zeros)] rfl

theorem digitLibrary_number {text s : Bytes} : digitLibrary.parse text ≠ some (.string s) := by
  change (if text = [] then none else ([(zeros, JsonValue.number zeros)].find? fun d => d.1 = text).map Prod.snd) ≠ _
  intro h
  split_ifs at h
  obtain ⟨d, hd, hstring⟩ := Option.map_eq_some_iff.mp h
  rw [List.mem_singleton.mp (List.mem_of_find?_eq_some hd)] at hstring
  cases hstring

theorem canonical_survives_zeros :
    digitLibrary.parse zeros = some (.number zeros) ∧ parseJsonOrValue digitLibrary (some zeros) = .string zeros := by
  obtain ⟨text, htext, hparse⟩ := (canonical_survives digitLibrary fun _ _ _ _ _ => digitLibrary_number).1
    (List.replicate 16 0) (by decide) (by decide) (fun f hf => by rw [List.eq_of_mem_replicate hf]; rfl)
  have hzeros : formatCanonicalHex (List.replicate 16 0) = some zeros := by decide
  rw [hzeros] at htext
  rw [← Option.some.inj htext] at hparse
  exact ⟨rfl, hparse⟩

end FractalSQL.Mcp.VectorText
