import FractalSQL.Lib.Calendar
import FractalSQL.Vectors.Load
import Mathlib.Data.List.GetD

/-!
# Texts with both forms

A text vector of hexadecimal digits spells one number, so the canonical vector it could be taken for
has one element. The patterns of numbers are monotone, and none of these has a pattern that the
same digits spell.
-/
namespace FractalSQL.Vectors
open Lib

/-! ### Narrowed patterns -/

/-- The pattern that a number has after both roundings, where exponents are not bounded. -/
def narrowed (q : ℚ) : ℕ := binary32.encode (binary64.decode (binary64.encode q))

theorem narrowed_mono {q r : ℚ} (hq : 0 ≤ q) (h : q ≤ r) : narrowed q ≤ narrowed r :=
  binary32.encode_mono (binary64.decode_nonneg _) (binary64.decode_mono (binary64.encode_mono hq h))

theorem narrow_finite {q : ℚ} (hbound : binary64.encode q < binary64.infinity)
    (hfinite : isFinite (narrow (binary64.round false q)) = true) :
    (narrow (binary64.round false q)).toNat = narrowed q ∧ narrowed q < binary32.infinity := by
  have hround : binary64.round false q = ⟨false, binary64.encode q⟩ := by
    rw [BinaryFormat.round, min_eq_left hbound.le]
  have hnarrow : narrow (binary64.round false q) = UInt32.ofNat (min (narrowed q) binary32.infinity) := by
    rw [hround, narrow, BinaryFormat.convert, if_pos hbound]
    simp only [BinaryFormat.round, Bool.false_eq_true, if_false, zero_add]
    rfl
  have hnat : (narrow (binary64.round false q)).toNat = min (narrowed q) binary32.infinity := by
    rw [hnarrow, UInt32.toNat_ofNat']
    have hinf : binary32.infinity = 255 * 2 ^ 23 := rfl
    omega
  have hlt : narrowed q < binary32.infinity := by
    by_contra hle
    rw [isFinite, hnat, min_eq_right (Nat.not_lt.mp hle)] at hfinite
    exact absurd hfinite (by decide)
  exact ⟨by rw [hnat, min_eq_left hlt.le], hlt⟩

/-! ### The digits of a canonical vector with one element -/

/-- What the value of a hexadecimal digit says about its byte. -/
theorem hexValue_byte (c : UInt8) :
    (hexValue c).getD 0 < 16 ∧
    ((hexValue c).isSome = true → (hexValue c).getD 0 = 0 → c = 48) ∧
    ((hexValue c).getD 0 = 1 → c = 49) ∧
    (isDigit c = true → (hexValue c).getD 0 = c.toNat - 48 ∧ c.toNat - 48 ≤ 9) ∧
    (asciiLower c = 101 → (hexValue c).getD 0 = 14) := by
  refine forall_byte (p := fun c => (hexValue c).getD 0 < 16 ∧
    ((hexValue c).isSome = true → (hexValue c).getD 0 = 0 → c = 48) ∧
    ((hexValue c).getD 0 = 1 → c = 49) ∧
    (isDigit c = true → (hexValue c).getD 0 = c.toNat - 48 ∧ c.toNat - 48 ≤ 9) ∧
    (asciiLower c = 101 → (hexValue c).getD 0 = 14)) ?_ c
  decide +kernel

theorem hexValue_lt (c : UInt8) : (hexValue c).getD 0 < 16 := (hexValue_byte c).1

theorem digit_of_value_zero {c : UInt8} (h : (hexValue c).isSome = true) (hzero : (hexValue c).getD 0 = 0) : c = 48 :=
  (hexValue_byte c).2.1 h hzero

theorem digit_of_value_one {c : UInt8} (hone : (hexValue c).getD 0 = 1) : c = 49 := (hexValue_byte c).2.2.1 hone

theorem hexValue_digit {c : UInt8} (h : isDigit c = true) : (hexValue c).getD 0 = c.toNat - 48 ∧ c.toNat - 48 ≤ 9 :=
  (hexValue_byte c).2.2.2.1 h

theorem hexValue_e {c : UInt8} (h : asciiLower c = 101) : (hexValue c).getD 0 = 14 := (hexValue_byte c).2.2.2.2 h

theorem byteAt_lt (s : Bytes) (i : ℕ) : byteAt s i < 256 := by
  have hhigh := hexValue_lt (s.getD (2 * i) 0)
  have hlow := hexValue_lt (s.getD (2 * i + 1) 0)
  rw [byteAt]
  omega

/-- It begins with the digits of its header. -/
theorem header_one {s : Bytes} (h : CanonicalText s 1) : ∃ p, s = ascii "01000000" ++ p ∧ p.length = 8 := by
  have hlen := h.length
  obtain ⟨b, p, rfl⟩ := exists_block 8 s (by omega)
  obtain ⟨hd, hhd⟩ := b
  rw [List.length_append, hhd] at hlen
  refine ⟨p, ?_, by omega⟩
  rcases hd with - | ⟨a, - | ⟨b, - | ⟨c, - | ⟨d, - | ⟨e, - | ⟨f, - | ⟨g, - | ⟨i, - | ⟨j, t⟩⟩⟩⟩⟩⟩⟩⟩⟩ <;>
    simp only [List.length_cons, List.length_nil] at hhd
  all_goals try omega
  have hdig := h.digits
  simp only [List.cons_append, List.nil_append, List.forall_mem_cons] at hdig
  obtain ⟨ha, hb, hc, hd, he, hf, hg, hi, -⟩ := hdig
  have hheader : 16 * (hexValue a).getD 0 + (hexValue b).getD 0 + 256 * (16 * (hexValue c).getD 0 + (hexValue d).getD 0) = 1 := h.header
  have hres₁ : 16 * (hexValue e).getD 0 + (hexValue f).getD 0 = 0 := h.reserved.1
  have hres₂ : 16 * (hexValue g).getD 0 + (hexValue i).getD 0 = 0 := h.reserved.2
  rw [digit_of_value_zero ha (by omega), digit_of_value_one (c := b) (by omega), digit_of_value_zero hc (by omega),
    digit_of_value_zero hd (by omega), digit_of_value_zero he (by omega), digit_of_value_zero hf (by omega),
    digit_of_value_zero hg (by omega), digit_of_value_zero hi (by omega)]
  rfl

section
variable {s : Bytes} {q : ℚ} {w : ℕ}

theorem wordAt_bytes (s : Bytes) : wordAt s 4 / 65536 % 256 = byteAt s 6 ∧ wordAt s 4 / 16777216 = byteAt s 7 := by
  have h4 := byteAt_lt s 4
  have h5 := byteAt_lt s 5
  have h6 := byteAt_lt s 6
  have hword : wordAt s 4 = byteAt s 4 + 256 * (byteAt s 5 + 256 * (byteAt s 6 + 256 * byteAt s 7)) := rfl
  omega

/-- Sixteen digits are a number near ten to the fourteenth, whose pattern has a letter among its digits. -/
theorem not_digits (htext : CanonicalText s 1) (hds : ∀ d ∈ s, isDigit d = true) : wordAt s 4 ≠ narrowed (digitsValue s) := by
  intro hword
  obtain ⟨p, rfl, hp⟩ := header_one htext
  have hpart : digitsValue p < 10 ^ p.length := digitsValue_lt p fun d hd => hds d (List.mem_append_right _ hd)
  have hhead : digitsValue (ascii "01000000") = 1000000 := by decide
  have hvalue : digitsValue (ascii "01000000" ++ p) = 10 ^ 14 + digitsValue p := by
    rw [digitsValue_append, hhead, hp]
    norm_num
  have hlow : narrowed (10 ^ 14) ≤ narrowed (digitsValue (ascii "01000000" ++ p)) := by
    refine narrowed_mono (by positivity) ?_
    rw [hvalue]
    exact_mod_cast Nat.le_add_right (10 ^ 14) _
  have hhigh : narrowed (digitsValue (ascii "01000000" ++ p)) ≤ narrowed (10 ^ 14 + 10 ^ 8) := by
    refine narrowed_mono (by positivity) ?_
    rw [hvalue]
    rw [hp] at hpart
    exact_mod_cast Nat.add_le_add_left hpart.le (10 ^ 14)
  have hlowest : narrowed (10 ^ 14) = 0x56B5E621 := by decide +kernel
  have hhighest : narrowed (10 ^ 14 + 10 ^ 8) = 0x56B5E62D := by decide +kernel
  rw [hlowest, ← hword] at hlow
  rw [hhighest, ← hword] at hhigh
  have hbyte := (wordAt_bytes (ascii "01000000" ++ p)).1
  have hsix : byteAt (ascii "01000000" ++ p) 6 = 16 * (hexValue ((ascii "01000000" ++ p).getD 12 0)).getD 0 +
      (hexValue ((ascii "01000000" ++ p).getD 13 0)).getD 0 := rfl
  have hdigit : isDigit ((ascii "01000000" ++ p).getD 12 0) = true := by
    rw [List.getD_append_right _ _ _ _ (by decide)]
    rw [List.getD_eq_getElem _ _ (by change 4 < p.length; omega)]
    exact hds _ (List.mem_append_right _ (List.getElem_mem _))
  have hten := hexValue_digit hdigit
  have hlast := hexValue_lt ((ascii "01000000" ++ p).getD 13 0)
  omega

/-- The last two bytes of a text of sixteen. -/
theorem byteAt_seven {pre : Bytes} {y x : UInt8} (hpre : pre.length = 14) :
    byteAt (pre ++ [y, x]) 7 = 16 * (hexValue y).getD 0 + (hexValue x).getD 0 := by
  rw [byteAt, List.getD_append_right pre _ _ _ (by omega), List.getD_append_right pre _ _ _ (by omega), hpre]
  rfl

/-- In front of the exponent stands the header at least. -/
theorem mantissa_large (htext : CanonicalText s 1) {int ds : Bytes} {e : UInt8} (hs : s = int ++ e :: ds) (he : asciiLower e = 101)
    (hint : ∀ d ∈ int, isDigit d = true) : 10 ^ 6 ≤ digitsValue int := by
  obtain ⟨p, hp, -⟩ := header_one htext
  have hletter : isDigit e = false := by
    refine forall_byte (p := fun e => asciiLower e = 101 → isDigit e = false) ?_ e he
    decide +kernel
  have hint' : s.takeWhile isDigit = int := by
    rw [hs]
    exact takeWhile_digits hint (by rintro c ⟨⟩; exact hletter)
  have hhead : s.takeWhile isDigit = ascii "01000000" ++ p.takeWhile isDigit := by
    rw [hp, List.takeWhile_append_of_pos]
    exact List.all_eq_true.mp (by decide)
  rw [← hint', hhead]
  calc 10 ^ 6 = 1 * digitsValue (ascii "01000000") := by decide
    _ ≤ 10 ^ (p.takeWhile isDigit).length * digitsValue (ascii "01000000") := Nat.mul_le_mul_right _ (Nat.one_le_pow _ _ (by decide))
    _ ≤ _ := digitsValue_append_le _ _

/-- An exponent of one digit makes the sign bit; a longer one is a number far above its pattern, or above all. -/
theorem not_exponent (htext : CanonicalText s 1) {int ds : Bytes} {e : UInt8} (hs : s = int ++ e :: ds) (he : asciiLower e = 101)
    (hint : ∀ d ∈ int, isDigit d = true) (hne : ds ≠ []) (hds : ∀ d ∈ ds, isDigit d = true)
    (hfinite : narrowed (digitsValue int * 10 ^ digitsValue ds) < binary32.infinity) :
    wordAt s 4 ≠ narrowed (digitsValue int * 10 ^ digitsValue ds) := by
  intro hword
  have hinf : binary32.infinity = 255 * 2 ^ 23 := rfl
  have hbyte := (wordAt_bytes s).2
  have hlen : s.length = 16 := htext.length
  rcases List.eq_nil_or_concat' ds with rfl | ⟨ds, x, rfl⟩
  · exact absurd rfl hne
  rcases List.eq_nil_or_concat' ds with rfl | ⟨ds, y, rfl⟩
  · have hlast : s = int ++ [e, x] := hs
    have hpre : int.length = 14 := by
      rw [hlast, List.length_append] at hlen
      simpa using hlen
    rw [hlast, byteAt_seven hpre, hexValue_e he, ← hlast] at hbyte
    omega
  · have hlast : s = (int ++ e :: ds) ++ [y, x] := by
      rw [hs]
      simp
    have hpre : (int ++ e :: ds).length = 14 := by
      rw [hlast, List.length_append] at hlen
      simpa using hlen
    have hy := hexValue_digit (hds y (by simp))
    have hx := hexValue_digit (hds x (by simp))
    have hseven := byteAt_seven (y := y) (x := x) hpre
    rw [← hlast, hy.1, hx.1] at hseven
    -- the last two characters are the last byte, and a part of the exponent
    have hexp : 10 * (y.toNat - 48) + (x.toNat - 48) ≤ digitsValue (ds ++ [y] ++ [x]) := by
      have hone (b : UInt8) : digitsValue [b] = b.toNat - 48 := by simp [digitsValue]
      simp only [digitsValue_append, hone, List.length_singleton, pow_one]
      omega
    have hlarge (k : ℕ) (hk : k ≤ digitsValue (ds ++ [y] ++ [x])) :
        narrowed (10 ^ (6 + k)) ≤ narrowed (digitsValue int * 10 ^ digitsValue (ds ++ [y] ++ [x])) := by
      refine narrowed_mono (by positivity) ?_
      have hmul := Nat.mul_le_mul (mantissa_large htext hs he hint) (Nat.pow_le_pow_right (show 0 < 10 by decide) hk)
      rw [← pow_add] at hmul
      exact_mod_cast hmul
    have hsix := hlarge 0 (Nat.zero_le _)
    have hmillion : narrowed (10 ^ (6 + 0)) = 0x49742400 := by decide +kernel
    rw [hmillion, ← hword] at hsix
    have hhuge : 49 ≤ digitsValue (ds ++ [y] ++ [x]) → binary32.infinity ≤ narrowed (digitsValue int * 10 ^ digitsValue (ds ++ [y] ++ [x])) :=
      fun hk => (show binary32.infinity ≤ narrowed (10 ^ (6 + 49)) by decide +kernel).trans (hlarge 49 hk)
    have hall : 49 ≤ digitsValue (ds ++ [y] ++ [x]) := by omega
    exact absurd hfinite (Nat.not_lt.mpr (hhuge hall))

end

/-! ### Text vectors -/

/-- A text vector within the limit whose elements are finite. -/
structure TextVector (underflow : ℚ → Bool) (s : Bytes) (dv : List Signed) : Prop where
  parsed : parseVectorCsv underflow s = .ok dv
  small : dv.length ≤ 32767
  finite : ∀ x ∈ dv, isFinite (narrow x) = true

/-- A text that can be both forms never reads as its elements. -/
theorem not_both {underflow : ℚ → Bool} {s : Bytes} {dv : List Signed} (h : TextVector underflow s dv)
    (hlooks : looksLikeCanonicalHex s = true) : decodeCanonicalHex s ≠ .vector (dv.map narrow) := by
  intro hdecode
  have hhex : ∀ c ∈ s, isHexDigit c = true := by
    unfold looksLikeCanonicalHex at hlooks
    split_ifs at hlooks
    exact List.all_eq_true.mp hlooks
  obtain ⟨q, hspell, rfl, hbound⟩ := parse_hex hhex h.parsed
  obtain ⟨hword, hfinite⟩ := narrow_finite hbound (h.finite _ (List.mem_singleton_self _))
  have htext : CanonicalText s 1 := canonicalText_iff.mpr ⟨_, rfl, hdecode⟩
  have hpattern : wordAt s 4 = narrowed q := (wordAt_eq (decode_iff.mp hdecode).1 (k := 0) Nat.one_pos).trans hword
  cases hspell with
  | digits hne hds => exact not_digits htext hds hpattern
  | exponent hint he hne hds => exact not_exponent htext rfl he hint hne hds hfinite hpattern

/-- A text vector is loaded as its elements exactly when it does not look like a canonical vector of the right shape. -/
theorem text_vector_loaded_iff (underflow : ℚ → Bool) (s : Bytes) (dv : List Signed) (h : TextVector underflow s dv) :
    loadVector underflow s = .ok (dv.map narrow) ↔
      ¬ (looksLikeCanonicalHex s = true ∧ canonicalHexShape s.length = true) := by
  constructor
  · rintro hload ⟨hlooks, hshape⟩
    exact not_both h hlooks (loadVector_canonical hlooks hshape hload)
  · intro hno
    rw [loadVector_text hno]
    exact loadText_of_finite h.parsed h.small h.finite

/-- The number one. -/
def one64 : Signed := ⟨false, 1023 * 2 ^ 52⟩

theorem one_text : TextVector (fun _ => true) (ascii "[1]") [one64] where
  parsed := by decide +kernel
  small := by decide
  finite := by decide +kernel

theorem one_loaded : loadVector (fun _ => true) (ascii "[1]") = .ok ([one64].map narrow) :=
  (text_vector_loaded_iff _ _ _ one_text).mpr (by decide)

/-- A number of sixteen digits is taken for a canonical vector. -/
theorem digits_taken : ¬ ∀ underflow s dv, TextVector underflow s dv → loadVector underflow s = .ok (dv.map narrow) := by
  intro hall
  have hparsed : parseVectorCsv (fun _ => true) (ascii "0100000000000000") = .ok [⟨false, 0x42D6BCC41E900000⟩] := by decide +kernel
  have htext : TextVector (fun _ => true) (ascii "0100000000000000") [⟨false, 0x42D6BCC41E900000⟩] :=
    ⟨hparsed, by decide, by decide +kernel⟩
  have hload := hall _ _ _ htext
  have hzero : loadVector (fun _ => true) (ascii "0100000000000000") = .ok [0] := by decide +kernel
  rw [hzero] at hload
  exact absurd hload (by decide +kernel)

end FractalSQL.Vectors
