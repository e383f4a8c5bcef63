import FractalSQL.Vectors.Bijection
import FractalSQL.Vectors.Parse

/-!
# The two forms of a vector

`load_vector` tries the canonical form first. A text of hexadecimal digits alone can be both: it is a
text vector of one number, digits or digits with an exponent, and it is taken for a canonical one
when its length allows that. Then it is never read as the number that it spells.
-/
namespace FractalSQL.Vectors
open Lib

/-! ### Loading -/

def looksLikeCanonicalHex (s : Bytes) : Bool :=
  if s.length < hdrSz * 2 ∨ s.length % 2 ≠ 0 then false else s.all isHexDigit

def canonicalHexShape (slen : ℕ) : Bool := slen ≥ 16 ∧ slen % 8 = 0

/-- The pattern of a number that is narrowed to float32. -/
def narrow (x : Signed) : UInt32 :=
  let y := binary64.convert binary32 x
  UInt32.ofNat ((if y.neg then 2 ^ 31 else 0) + y.mag)

def loadText (underflow : ℚ → Bool) (s : Bytes) : Except Bytes (List UInt32) :=
  match parseVectorCsv underflow s with
  | .error e => .error e
  | .ok dv =>
    if maxDim < dv.length then
      .error (ascii "fractal_vector: dimension " ++ decimal dv.length ++ ascii " exceeds maximum " ++ decimal maxDim)
    else
      let fv := dv.map narrow
      match fv.findIdx? fun f => !isFinite f with
      | some i =>
        .error (ascii "fractal_vector: element " ++ decimal i ++ ascii " is not a finite number (NaN or infinity)")
      | none => .ok fv

/-- `load_vector`, with a buffer for the message. -/
def loadVector (underflow : ℚ → Bool) (s : Bytes) : Except Bytes (List UInt32) :=
  if looksLikeCanonicalHex s then
    match decodeCanonicalHex s with
    | .vector v => .ok v
    | .notFinite i =>
      if canonicalHexShape s.length then
        .error (ascii "fractal_vector: canonical vector element " ++ decimal i ++
          ascii " is not a finite number (NaN or infinity)")
      else loadText underflow s
    | .refused =>
      if canonicalHexShape s.length then
        .error (ascii "fractal_vector: malformed canonical vector (the header's dimension does not agree with the payload length)")
      else loadText underflow s
  else loadText underflow s

/-! ### Texts that are no canonical vector -/

theorem loadText_of_finite {underflow : ℚ → Bool} {s : Bytes} {dv : List Signed} (h : parseVectorCsv underflow s = .ok dv)
    (hdim : dv.length ≤ maxDim) (hfinite : ∀ x ∈ dv, isFinite (narrow x) = true) :
    loadText underflow s = .ok (dv.map narrow) := by
  have hfind : ((dv.map narrow).findIdx? fun f => !isFinite f) = none := by
    rw [List.findIdx?_eq_none_iff, List.forall_mem_map]
    intro x hx
    rw [hfinite x hx]
    rfl
  rw [loadText, h]
  dsimp only
  rw [if_neg (Nat.not_lt.mpr hdim), hfind]

/-- A canonical vector has the shape of one. -/
theorem shape_of_decode {s : Bytes} {v : List UInt32} (h : decodeCanonicalHex s = .vector v) : canonicalHexShape s.length = true := by
  obtain ⟨-, htext⟩ : 1 ≤ v.length ∧ CanonicalText s v.length := by
    have htext := canonicalText_iff.mpr ⟨v, rfl, h⟩
    exact ⟨htext.pos, htext⟩
  have hlen := htext.length
  have hpos := htext.pos
  rw [canonicalHexShape]
  simp only [decide_eq_true_eq]
  omega

/-- What does not look like a canonical vector, or has not the shape of one, is read as text. -/
theorem loadVector_text {underflow : ℚ → Bool} {s : Bytes}
    (h : ¬ (looksLikeCanonicalHex s = true ∧ canonicalHexShape s.length = true)) : loadVector underflow s = loadText underflow s := by
  unfold loadVector
  by_cases hlooks : looksLikeCanonicalHex s = true
  · have hshape : ¬ canonicalHexShape s.length = true := fun hshape => h ⟨hlooks, hshape⟩
    rw [if_pos hlooks]
    cases hdecode : decodeCanonicalHex s with
    | vector v => exact absurd (shape_of_decode hdecode) hshape
    | notFinite i => exact if_neg hshape
    | refused => exact if_neg hshape
  · rw [if_neg hlooks]

/-- What has both is read as a canonical vector or refused. -/
theorem loadVector_canonical {underflow : ℚ → Bool} {s : Bytes} {v : List UInt32} (hlooks : looksLikeCanonicalHex s = true)
    (hshape : canonicalHexShape s.length = true) (h : loadVector underflow s = .ok v) : decodeCanonicalHex s = .vector v := by
  unfold loadVector at h
  rw [if_pos hlooks] at h
  cases hdecode : decodeCanonicalHex s with
  | vector v' =>
    rw [hdecode] at h
    cases h
    rfl
  | notFinite i =>
    rw [hdecode] at h
    dsimp only at h
    rw [if_pos hshape] at h
    cases h
  | refused =>
    rw [hdecode] at h
    dsimp only at h
    rw [if_pos hshape] at h
    cases h

/-! ### Numbers that are hexadecimal digits -/

theorem hexDigit_facts {c : UInt8} (h : isHexDigit c = true) :
    isSpace c = false ∧ isFiller c = false ∧ c ≠ 0 ∧ c ≠ 43 ∧ c ≠ 45 ∧ c ≠ 46 ∧ asciiLower c ≠ 120 ∧ asciiLower c ≠ 105 ∧
      asciiLower c ≠ 110 := by
  have hno : c ∉ ([32, 9, 10, 11, 12, 13, 44, 91, 93, 0, 43, 45, 46] : Bytes) := notMem_of_class (by decide) h
  have hspace : isSpace c = false := by
    rw [← Bool.not_eq_true]
    exact fun hs => hno (List.mem_append_left _ (mem_of_isSpace hs))
  have hletter {d : UInt8} (hd : hexValue d = none) : asciiLower c ≠ d := by
    intro hc
    rw [isHexDigit, ← hexValue_asciiLower, hc, hd] at h
    cases h
  simp only [List.mem_cons, not_or] at hno
  obtain ⟨h32, h9, h10, -, -, h13, h44, h91, h93, h0, h43, h45, h46, -⟩ := hno
  have hfiller : isFiller c = false := by simp [isFiller, isBlank, h32, h9, h10, h13, h44, h91, h93]
  exact ⟨hspace, hfiller, h0, h43, h45, h46, hletter (by decide), hletter (by decide), hletter (by decide)⟩

section
variable {s : Bytes} (h : ∀ c ∈ s, isHexDigit c = true)
include h

theorem dropWhile_hex {p : UInt8 → Bool} (hp : ∀ c, isHexDigit c = true → p c = false) : s.dropWhile p = s := by
  cases s with
  | nil => rfl
  | cons c s => rw [List.dropWhile_cons_of_neg (by simp [hp c (h c (List.mem_cons_self ..))])]

theorem signOf_hex : signOf s = (false, s) := by
  cases s with
  | nil => rfl
  | cons c s =>
    obtain ⟨-, -, -, h43, h45, -⟩ := hexDigit_facts (h c (List.mem_cons_self ..))
    exact signOf.eq_3 _ (by simpa using h45) (by simpa using h43)

theorem scanHexadecimal_hex : scanHexadecimal s = none := by
  unfold scanHexadecimal
  split
  · rename_i x t
    have hx := hexDigit_facts (h x (List.mem_cons_of_mem _ (List.mem_cons_self ..)))
    exact if_neg hx.2.2.2.2.2.2.1
  · rfl

theorem dropWord_hex {w : UInt8} {word : Bytes} (hw : w = 105 ∨ w = 110) : dropWord (w :: word) s = none := by
  cases s with
  | nil => rfl
  | cons c s =>
    obtain ⟨-, -, -, -, -, -, -, h105, h110⟩ := hexDigit_facts (h c (List.mem_cons_self ..))
    refine if_neg fun hc => ?_
    rcases hw with rfl | rfl
    · exact h105 hc
    · exact h110 hc

/-- Only decimal numbers are hexadecimal digits alone. -/
theorem strtod_hex (underflow : ℚ → Bool) :
    strtod underflow s = (scanDecimal s).map fun r =>
      ⟨binary64.round false r.1, (Magnitude.finite r.1).outOfRange underflow, r.2⟩ := by
  have hspace := dropWhile_hex h (p := isSpace) fun c hc => (hexDigit_facts hc).1
  have hinfinity : dropWord (ascii "infinity") s = none := dropWord_hex h (.inl rfl)
  have hinf : dropWord (ascii "inf") s = none := dropWord_hex h (.inl rfl)
  have hnan : dropWord (ascii "nan") s = none := dropWord_hex h (.inr rfl)
  simp only [strtod, hspace, signOf_hex h, scanMagnitude, scanHexadecimal_hex h, hinfinity, hinf, hnan, Option.none_or,
    Option.map_none, Option.or_none, Option.map_map, Function.comp_def]
  rfl

theorem scanMantissa_hex : scanMantissa isDigit s =
    if s.takeWhile isDigit = [] then none else some ⟨s.takeWhile isDigit, [], s.dropWhile isDigit⟩ := by
  have hpoint : pointDigits isDigit (s.dropWhile isDigit) = ([], s.dropWhile isDigit) := by
    refine pointDigits.eq_2 _ _ fun t ht => ?_
    have hmem : (46 : UInt8) ∈ s := (List.dropWhile_suffix isDigit).subset (by rw [ht]; exact List.mem_cons_self ..)
    exact absurd (h 46 hmem) (by decide)
  simp only [scanMantissa, hpoint, List.append_nil]

/-- A letter begins no number. -/
theorem strtod_letter {underflow : ℚ → Bool} (hhead : ∀ c ∈ s.head?, isDigit c = false) : strtod underflow s = none := by
  have htake : s.takeWhile isDigit = [] := by
    cases s with
    | nil => rfl
    | cons c s => rw [List.takeWhile_cons_of_neg (by simp [hhead c rfl])]
  rw [strtod_hex h, scanDecimal, scanRatio, scanMantissa_hex h, if_pos htake]
  rfl

end

/-! ### What such a text spells -/

/-- Digits, or digits with an exponent. -/
inductive Spelling : Bytes → ℚ → Prop where
  | digits {ds : Bytes} (hne : ds ≠ []) (hds : ∀ d ∈ ds, isDigit d = true) : Spelling ds (digitsValue ds)
  | exponent {int ds : Bytes} {e : UInt8} (hint : ∀ d ∈ int, isDigit d = true) (he : asciiLower e = 101) (hne : ds ≠ [])
      (hds : ∀ d ∈ ds, isDigit d = true) : Spelling (int ++ e :: ds) (digitsValue int * 10 ^ digitsValue ds)

theorem Spelling.ne_nil {s : Bytes} {q : ℚ} (h : Spelling s q) : s ≠ [] := by
  cases h with
  | digits hne => exact hne
  | exponent => simp

theorem digit_mem_takeWhile (s : Bytes) : ∀ d ∈ s.takeWhile isDigit, isDigit d = true := fun _ hd => List.mem_takeWhile_imp hd

/-- What is read of hexadecimal digits is spelled by what is read, and no digit follows. -/
theorem scanDecimal_spelling {s : Bytes} (h : ∀ c ∈ s, isHexDigit c = true) {q : ℚ} {rest : Bytes}
    (hscan : scanDecimal s = some (q, rest)) :
    ∃ lex, s = lex ++ rest ∧ Spelling lex q ∧ ∀ c ∈ rest.head?, isDigit c = false := by
  rw [scanDecimal, scanRatio, scanMantissa_hex h] at hscan
  split_ifs at hscan with hempty
  · cases hscan
  have hsplit := List.takeWhile_append_dropWhile (p := isDigit) (l := s)
  have hint := digit_mem_takeWhile s
  have hhead := head_dropWhile isDigit s
  have htail : ∀ c ∈ s.dropWhile isDigit, isHexDigit c = true := fun c hc => h c ((List.dropWhile_suffix isDigit).subset hc)
  generalize s.takeWhile isDigit = int at *
  generalize s.dropWhile isDigit = after at *
  have hplain : decimalRatio int [] 0 = digitsValue int := by
    rw [decimalRatio, List.append_nil, List.length_nil, Nat.cast_zero, sub_zero, zpow_zero, mul_one]
  cases after with
  | nil =>
    obtain ⟨rfl, rfl⟩ := Prod.mk.inj (Option.some.inj hscan)
    rw [List.append_nil] at hsplit
    refine ⟨s, (List.append_nil s).symm, ?_, by rintro c ⟨⟩⟩
    rw [← hsplit]
    exact hplain ▸ .digits hempty hint
  | cons c t =>
    have hsign := signOf_hex fun d hd => htail d (List.mem_cons_of_mem _ hd)
    by_cases hexp : asciiLower c = 101 ∧ t.takeWhile isDigit ≠ []
    · have hpart : exponentPart 101 (c :: t) = ((digitsValue (t.takeWhile isDigit) : ℤ), t.dropWhile isDigit) := by
        simp only [exponentPart, hsign, if_pos hexp, Bool.false_eq_true, if_false]
      simp only [Option.map_some, hpart] at hscan
      obtain ⟨rfl, rfl⟩ := Prod.mk.inj (Option.some.inj hscan)
      refine ⟨int ++ c :: t.takeWhile isDigit, ?_, ?_, head_dropWhile isDigit t⟩
      · rw [← hsplit, List.append_assoc, List.cons_append, List.takeWhile_append_dropWhile]
      · have hvalue : decimalRatio int [] (digitsValue (t.takeWhile isDigit)) =
            digitsValue int * 10 ^ digitsValue (t.takeWhile isDigit) := by
          rw [decimalRatio, List.append_nil, List.length_nil, Nat.cast_zero, sub_zero, zpow_natCast]
        exact hvalue ▸ .exponent hint hexp.1 hexp.2 (digit_mem_takeWhile t)
    · have hpart : exponentPart 101 (c :: t) = (0, c :: t) := by
        simp only [exponentPart, hsign, if_neg hexp]
      simp only [Option.map_some, hpart] at hscan
      obtain ⟨rfl, rfl⟩ := Prod.mk.inj (Option.some.inj hscan)
      exact ⟨int, hsplit.symm, hplain ▸ .digits hempty hint, hhead⟩

/-- A text vector of hexadecimal digits has one element, the number that the whole text spells. -/
theorem parse_hex {underflow : ℚ → Bool} {s : Bytes} {dv : List Signed} (h : ∀ c ∈ s, isHexDigit c = true)
    (hparse : parseVectorCsv underflow s = .ok dv) :
    ∃ q, Spelling s q ∧ dv = [binary64.round false q] ∧ binary64.encode q < binary64.infinity := by
  have hcopy : cCopy s = s := List.takeWhile_eq_self_iff.mpr fun c hc => by simpa using (hexDigit_facts (h c hc)).2.2.1
  unfold parseVectorCsv at hparse
  rw [hcopy] at hparse
  cases hlen : s.length with
  | zero =>
    rw [hlen] at hparse
    cases hparse
  | succ fuel =>
    have hfiller := dropWhile_hex h (p := isFiller) fun c hc => (hexDigit_facts hc).2.1
    have hne : s ≠ [] := List.length_pos_iff.mp (by omega)
    rw [hlen, parseElements, hfiller] at hparse
    simp only [if_neg hne, strtod_hex h] at hparse
    cases hscan : scanDecimal s with
    | none =>
      rw [hscan] at hparse
      cases hparse
    | some r =>
      obtain ⟨q, rest⟩ := r
      obtain ⟨lex, hs, hspell, hhead⟩ := scanDecimal_spelling h hscan
      rw [hscan] at hparse
      simp only [Option.map_some] at hparse
      by_cases hrange : (Magnitude.finite q).outOfRange underflow = true
      · simp only [hrange, if_true] at hparse
        cases hparse
      have hbound : binary64.encode q < binary64.infinity := by
        by_contra hle
        refine hrange ?_
        simp only [Magnitude.outOfRange, decide_eq_true_eq]
        exact .inl (Nat.not_lt.mp hle)
      have hfinite : binary64.finite (binary64.round false q) = true :=
        decide_eq_true ((min_le_left _ _).trans_lt hbound)
      simp only [hrange, hfinite, Bool.false_eq_true, if_false, Bool.not_true, show ¬ (0 = maxElems) by decide] at hparse
      have hhex : ∀ c ∈ rest, isHexDigit c = true := fun c hc => h c (by rw [hs]; exact List.mem_append_right _ hc)
      by_cases hrest : rest = []
      · subst hrest
        have hnil : parseElements underflow fuel 1 [] = .ok [] := by cases fuel <;> rfl
        rw [zero_add, hnil] at hparse
        rw [List.append_nil] at hs
        cases hparse
        exact ⟨q, hs ▸ hspell, rfl, hbound⟩
      · -- what follows begins with a letter
        have hletter : strtod underflow rest = none := strtod_letter hhex hhead
        have hskip := dropWhile_hex hhex (p := isFiller) fun c hc => (hexDigit_facts hc).2.1
        have hfuel : fuel ≠ 0 := by
          have hsum := congrArg List.length hs
          have hlex := List.length_pos_iff.mpr hspell.ne_nil
          have hmore := List.length_pos_iff.mpr hrest
          rw [List.length_append] at hsum
          omega
        obtain ⟨fuel, rfl⟩ := Nat.exists_eq_succ_of_ne_zero hfuel
        rw [zero_add, parseElements, hskip] at hparse
        simp only [if_neg hrest, hletter] at hparse
        cases hparse

end FractalSQL.Vectors
