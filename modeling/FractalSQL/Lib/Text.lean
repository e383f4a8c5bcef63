import FractalSQL.Lib.Bytes

/-!
# Decimal and hexadecimal text

Numbers rendered as `printf` renders them and read back as the C library reads
them: leading white space and a sign are skipped, the longest run of digits is
taken, the value saturates at the bounds of the result type.
-/
namespace FractalSQL.Lib

/-- The bytes of an ASCII literal. -/
def ascii (s : String) : Bytes := s.toList.map (fun c => UInt8.ofNat c.toNat)

/-- The bytes of a literal are those of its characters. A text is evaluated from these; the
literal itself would be encoded and decoded again. -/
theorem ascii_ofList (cs : List Char) : ascii (String.ofList cs) = cs.map fun c => UInt8.ofNat c.toNat := by
  rw [ascii, String.toList_ofList]

theorem length_literal {cs : List Char} {n : ℕ} (h : cs.length ≤ n) : (String.ofList cs).toList.length ≤ n := by
  rwa [String.toList_ofList]

/-- What follows a literal at the front of the text, if it is there. -/
def dropLit (lit text : Bytes) : Option Bytes :=
  if lit.isPrefixOf text then some (text.drop lit.length) else none

@[simp] theorem dropLit_append (lit text : Bytes) : dropLit lit (lit ++ text) = some text := by
  simp [dropLit]

theorem dropLit_length {lit text rest : Bytes} (h : dropLit lit text = some rest) :
    rest.length + lit.length = text.length := by
  unfold dropLit at h
  split at h
  · rename_i hp
    obtain ⟨t, rfl⟩ := List.isPrefixOf_iff_prefix.mp hp
    obtain rfl := Option.some.inj h
    simp [Nat.add_comm]
  · cases h

/-! ### Decimal digits -/

def isDigit (b : UInt8) : Bool := 48 ≤ b ∧ b ≤ 57

def digit (n : ℕ) : UInt8 := UInt8.ofNat (48 + n)

/-- The decimal digits of `n`, most significant first. -/
def decimal (n : ℕ) : Bytes :=
  if n < 10 then [digit n] else decimal (n / 10) ++ [digit (n % 10)]

/-- The number a run of digits spells. -/
def digitsValue (ds : Bytes) : ℕ := ds.foldl (fun v d => 10 * v + (d.toNat - 48)) 0

theorem digit_toNat {n : ℕ} (h : n < 10) : (digit n).toNat = 48 + n := by
  rw [digit, UInt8.toNat_ofNat']
  omega

theorem isDigit_digit {n : ℕ} (h : n < 10) : isDigit (digit n) = true := by
  have hd := digit_toNat h
  simp only [isDigit, UInt8.le_iff_toNat_le, hd, decide_eq_true_eq]
  constructor
  · change 48 ≤ 48 + n; omega
  · change 48 + n ≤ 57; omega

theorem decimal_ne_nil (n : ℕ) : decimal n ≠ [] := by
  rw [decimal]
  split <;> simp

theorem decimal_isDigit (n : ℕ) : ∀ d ∈ decimal n, isDigit d = true := by
  induction n using Nat.strong_induction_on with
  | _ n ih =>
    rw [decimal]
    split
    · rename_i h
      simpa using isDigit_digit h
    · rename_i h
      intro d hd
      rw [List.mem_append, List.mem_singleton] at hd
      rcases hd with hd | rfl
      · exact ih (n / 10) (by omega) d hd
      · exact isDigit_digit (Nat.mod_lt _ (by norm_num))

theorem digitsValue_decimal (n : ℕ) : digitsValue (decimal n) = n := by
  induction n using Nat.strong_induction_on with
  | _ n ih =>
    rw [decimal]
    split
    · rename_i h
      simp [digitsValue, digit_toNat h]
    · rename_i h
      have hq : digitsValue (decimal (n / 10)) = n / 10 := ih (n / 10) (by omega)
      rw [digitsValue, List.foldl_append, ← digitsValue, hq]
      simp only [List.foldl_cons, List.foldl_nil, digit_toNat (Nat.mod_lt n (by norm_num))]
      omega

theorem decimal_length_le {n w : ℕ} (h : n < 10 ^ (w + 1)) : (decimal n).length ≤ w + 1 := by
  induction w generalizing n with
  | zero =>
    rw [decimal, if_pos (by simpa using h)]
    simp
  | succ w ih =>
    rw [decimal]
    split
    · simp
    · have hq : n / 10 < 10 ^ (w + 1) := by
        rw [pow_succ] at h
        exact Nat.div_lt_of_lt_mul (by omega)
      have := ih hq
      simp
      omega

/-- A rendering of a signed number. -/
def decimalInt (z : ℤ) : Bytes := if z < 0 then 45 :: decimal z.natAbs else decimal z.natAbs

/-! ### The C library's number reader -/

def isSpace (b : UInt8) : Bool := b = 32 ∨ (9 ≤ b ∧ b ≤ 13)

theorem mem_of_isSpace {b : UInt8} (h : isSpace b = true) : b ∈ ([32, 9, 10, 11, 12, 13] : Bytes) := by
  simp only [isSpace, decide_eq_true_eq, UInt8.le_iff_toNat_le, UInt8.reduceToNat] at h
  rcases h with rfl | ⟨hlo, hhi⟩
  · exact List.mem_cons_self
  · have hb : b = UInt8.ofNat b.toNat := UInt8.ofNat_toNat.symm
    interval_cases b.toNat <;> simp [hb]

def signOf : Bytes → Bool × Bytes
  | 45 :: text => (true, text)
  | 43 :: text => (false, text)
  | text => (false, text)

/-- `strtol` and `strtoll` in base ten for a result type with bounds `lo` and
`hi`: `none` when no digit is there (`end == p`), else the saturated value and
the text after the digits. -/
def strtoInt (lo hi : ℤ) (text : Bytes) : Option (ℤ × Bytes) :=
  let (neg, text) := signOf (text.dropWhile isSpace)
  let ds := text.takeWhile isDigit
  if ds = [] then none
  else some (max lo (min hi (if neg then -(digitsValue ds : ℤ) else digitsValue ds)),
    text.dropWhile isDigit)

theorem takeWhile_digits {ds rest : Bytes} (hd : ∀ d ∈ ds, isDigit d = true)
    (hr : ∀ b ∈ rest.head?, isDigit b = false) : (ds ++ rest).takeWhile isDigit = ds := by
  rw [List.takeWhile_append_of_pos hd]
  cases rest with
  | nil => simp
  | cons b rest => simp [hr b (by simp)]

theorem dropWhile_digits {ds rest : Bytes} (hd : ∀ d ∈ ds, isDigit d = true)
    (hr : ∀ b ∈ rest.head?, isDigit b = false) : (ds ++ rest).dropWhile isDigit = rest := by
  rw [List.dropWhile_append_of_pos hd]
  cases rest with
  | nil => simp
  | cons b rest => simp [hr b (by simp)]

/-- A run of digits is not mistaken for white space or a sign. -/
theorem signOf_digits {ds rest : Bytes} (hne : ds ≠ []) (hd : ∀ d ∈ ds, isDigit d = true) :
    signOf ((ds ++ rest).dropWhile isSpace) = (false, ds ++ rest) := by
  cases ds with
  | nil => exact absurd rfl hne
  | cons d ds =>
    have hdig := hd d (by simp)
    have hb : 48 ≤ d.toNat ∧ d.toNat ≤ 57 := by
      simpa [isDigit, UInt8.le_iff_toNat_le] using hdig
    have hsp : isSpace d = false := by
      simp only [isSpace, UInt8.le_iff_toNat_le, ← UInt8.toNat_inj, decide_eq_false_iff_not]
      change ¬ (d.toNat = 32 ∨ 9 ≤ d.toNat ∧ d.toNat ≤ 13)
      omega
    have h45 : d ≠ 45 := by rintro rfl; simp at hb
    have h43 : d ≠ 43 := by rintro rfl; simp at hb
    rw [List.cons_append, List.dropWhile_cons, hsp, if_neg (by simp), signOf.eq_def]
    split
    · rename_i heq
      exact absurd (List.cons.inj heq).1 h45
    · rename_i heq
      exact absurd (List.cons.inj heq).1 h43
    · rfl

/-- A rendered number is read back, up to the first byte that is no digit. -/
theorem strtoInt_decimal {lo hi : ℤ} {n : ℕ} {rest : Bytes} (hlo : lo ≤ n) (hhi : (n : ℤ) ≤ hi)
    (hr : ∀ b ∈ rest.head?, isDigit b = false) :
    strtoInt lo hi (decimal n ++ rest) = some ((n : ℤ), rest) := by
  have hd := decimal_isDigit n
  simp only [strtoInt, signOf_digits (decimal_ne_nil n) hd, takeWhile_digits hd hr,
    dropWhile_digits hd hr, decimal_ne_nil, if_false, Bool.false_eq_true, digitsValue_decimal]
  rw [min_eq_right hhi, max_eq_right hlo]

theorem foldl_digits_le (v w : ℕ) (h : v ≤ w) (ds : Bytes) :
    ds.foldl (fun v d => 10 * v + (d.toNat - 48)) v ≤ ds.foldl (fun v d => 10 * v + (d.toNat - 48)) w := by
  induction ds generalizing v w with
  | nil => exact h
  | cons d ds ih => exact ih _ _ (Nat.add_le_add_right (Nat.mul_le_mul_left 10 h) _)

/-- Every further digit multiplies the value by ten at least. -/
theorem digitsValue_append_le (ds es : Bytes) : 10 ^ es.length * digitsValue ds ≤ digitsValue (ds ++ es) := by
  rw [digitsValue, digitsValue, List.foldl_append]
  generalize ds.foldl (fun v d => 10 * v + (d.toNat - 48)) 0 = v
  induction es generalizing v with
  | nil => simp
  | cons e es ih =>
    calc 10 ^ (e :: es).length * v = 10 ^ es.length * (10 * v) := by
          rw [List.length_cons, pow_succ]
          ring
      _ ≤ es.foldl (fun v d => 10 * v + (d.toNat - 48)) (10 * v) := ih _
      _ ≤ es.foldl (fun v d => 10 * v + (d.toNat - 48)) (10 * v + (e.toNat - 48)) :=
          foldl_digits_le _ _ (Nat.le_add_right _ _) es

/-- A text that is a number and nothing behind it: white space, a sign and digits. -/
theorem strtoInt_all {lo hi n : ℤ} {text : Bytes} (h : strtoInt lo hi text = some (n, [])) :
    ∃ neg ds, signOf (text.dropWhile isSpace) = (neg, ds) ∧ ds ≠ [] ∧ (∀ d ∈ ds, isDigit d = true) ∧
      n = max lo (min hi (if neg = true then -(digitsValue ds : ℤ) else digitsValue ds)) := by
  rcases hsign : signOf (text.dropWhile isSpace) with ⟨neg, ds⟩
  rw [strtoInt, hsign] at h
  dsimp only at h
  by_cases hne : ds.takeWhile isDigit = []
  · rw [if_pos hne] at h
    exact absurd h nofun
  rw [if_neg hne, Option.some.injEq, Prod.mk.injEq] at h
  have hall : ds.takeWhile isDigit = ds := by
    have happ := List.takeWhile_append_dropWhile (p := isDigit) (l := ds)
    rwa [h.2, List.append_nil] at happ
  rw [hall] at hne h
  refine ⟨neg, ds, rfl, hne, fun d hd => ?_, h.1.symm⟩
  rw [← hall] at hd
  exact List.all_eq_true.mp List.all_takeWhile d hd

theorem signOf_append {text rest : Bytes} {neg : Bool} {ds : Bytes} (h : signOf text = (neg, ds)) (hne : ds ≠ []) :
    signOf (text ++ rest) = (neg, ds ++ rest) := by
  have hcons : text ≠ [] := by
    rintro rfl
    exact hne (Prod.mk.inj h).2.symm
  obtain ⟨b, text, rfl⟩ := List.exists_cons_of_ne_nil hcons
  by_cases h45 : b = 45
  · subst h45
    obtain ⟨rfl, rfl⟩ := Prod.mk.inj h
    rfl
  by_cases h43 : b = 43
  · subst h43
    obtain ⟨rfl, rfl⟩ := Prod.mk.inj h
    rfl
  have hplain (text : Bytes) : signOf (b :: text) = (false, b :: text) := by
    rw [signOf.eq_def]
    split
    · rename_i heq
      exact absurd (List.cons.inj heq).1 h45
    · rename_i heq
      exact absurd (List.cons.inj heq).1 h43
    · rfl
  rw [hplain] at h
  obtain ⟨rfl, rfl⟩ := Prod.mk.inj h
  exact hplain (text ++ rest)

/-- The reading of a positive number is lost with the last of its digits. -/
theorem strtoInt_cut {lo hi n : ℤ} {text rest : Bytes} (h : strtoInt lo hi (text ++ rest) = some (n, []))
    (hrest : rest ≠ []) (hlo : lo < n) (hpos : 0 < n) (hhi : n < hi) : strtoInt lo hi text ≠ some (n, []) := by
  intro hcut
  obtain ⟨neg, ds, hsign, hne, -, hn⟩ := strtoInt_all hcut
  obtain ⟨neg', ds', hsign', -, -, hn'⟩ := strtoInt_all h
  have htext : text.dropWhile isSpace ≠ [] := by
    intro hnil
    rw [hnil] at hsign
    exact hne (Prod.mk.inj hsign).2.symm
  rw [List.dropWhile_append, if_neg (by simpa using htext), signOf_append hsign hne] at hsign'
  obtain ⟨rfl, rfl⟩ := Prod.mk.inj hsign'
  have hlen : 1 ≤ rest.length := List.length_pos_iff.mpr hrest
  have hten : 10 * digitsValue ds ≤ digitsValue (ds ++ rest) :=
    calc 10 * digitsValue ds ≤ 10 ^ rest.length * digitsValue ds :=
          Nat.mul_le_mul_right _ (Nat.le_self_pow (by omega) 10)
      _ ≤ digitsValue (ds ++ rest) := digitsValue_append_le ds rest
  cases neg with
  | true =>
    simp only [if_true] at hn
    omega
  | false =>
    simp only [Bool.false_eq_true, if_false] at hn hn'
    omega

theorem signOf_length (text : Bytes) : (signOf text).2.length ≤ text.length := by
  unfold signOf
  split <;> simp

theorem strtoInt_length {lo hi v : ℤ} {text rest : Bytes}
    (h : strtoInt lo hi text = some (v, rest)) : rest.length < text.length := by
  simp only [strtoInt] at h
  split at h
  · cases h
  · rename_i hne
    obtain ⟨-, rfl⟩ := Prod.mk.inj (Option.some.inj h)
    have h1 : (text.dropWhile isSpace).length ≤ text.length :=
      (List.dropWhile_sublist _).length_le
    have h2 := signOf_length (text.dropWhile isSpace)
    have h3 := congrArg List.length
      (List.takeWhile_append_dropWhile (p := isDigit) (l := (signOf (text.dropWhile isSpace)).2))
    have h4 := List.length_pos_of_ne_nil hne
    rw [List.length_append] at h3
    omega

/-! ### Hexadecimal -/

def hexDigit (n : ℕ) : UInt8 := if n < 10 then UInt8.ofNat (48 + n) else UInt8.ofNat (87 + n)

def hexEncode : Bytes → Bytes
  | [] => []
  | b :: bs => hexDigit (b.toNat / 16) :: hexDigit (b.toNat % 16) :: hexEncode bs

def hexValue (b : UInt8) : Option ℕ :=
  if 48 ≤ b ∧ b ≤ 57 then some (b.toNat - 48)
  else if 97 ≤ b ∧ b ≤ 102 then some (b.toNat - 87)
  else if 65 ≤ b ∧ b ≤ 70 then some (b.toNat - 55)
  else none

/-- Read `w` bytes from pairs of hexadecimal digits. -/
def hexDecode : (w : ℕ) → Bytes → Option (Bytes × Bytes)
  | 0, text => some ([], text)
  | w + 1, hi :: lo :: text => do
    let h ← hexValue hi
    let l ← hexValue lo
    let (bs, rest) ← hexDecode w text
    return (UInt8.ofNat (16 * h + l) :: bs, rest)
  | _ + 1, _ => none

theorem hexValue_hexDigit : ∀ n < 16, hexValue (hexDigit n) = some n := by decide

theorem hexDecode_hexEncode (bs rest : Bytes) :
    hexDecode bs.length (hexEncode bs ++ rest) = some (bs, rest) := by
  induction bs with
  | nil => rfl
  | cons b bs ih =>
    have hb := b.toNat_lt
    have hbyte : UInt8.ofNat (16 * (b.toNat / 16) + b.toNat % 16) = b := by
      rw [Nat.div_add_mod]
      exact UInt8.ofNat_toNat
    simp only [List.length_cons, hexEncode, List.cons_append, hexDecode,
      hexValue_hexDigit (b.toNat / 16) (by omega), hexValue_hexDigit (b.toNat % 16) (by omega),
      ih, Option.bind_eq_bind, Option.bind_some, hbyte]
    rfl

theorem hexEncode_length (bs : Bytes) : (hexEncode bs).length = 2 * bs.length := by
  induction bs with
  | nil => rfl
  | cons b bs ih => simp [hexEncode, ih]; omega

theorem hexDecode_length {w : ℕ} {text bs rest : Bytes} (h : hexDecode w text = some (bs, rest)) :
    bs.length = w ∧ rest.length + 2 * w = text.length := by
  induction w generalizing text bs with
  | zero => cases h; simp
  | succ w ih =>
    match text, h with
    | hi :: lo :: text, h =>
      simp only [hexDecode, Option.bind_eq_bind, Option.bind_eq_some_iff, Prod.exists] at h
      obtain ⟨h1, _, h2, _, bs', rest', hrec, heq⟩ := h
      cases heq
      obtain ⟨h3, h4⟩ := ih hrec
      refine ⟨by rw [List.length_cons, h3], ?_⟩
      simp only [List.length_cons]
      omega

theorem hexEncode_injective : Function.Injective hexEncode := by
  intro a b h
  have ha := hexDecode_hexEncode a []
  have hb := hexDecode_hexEncode b []
  have hlen : a.length = b.length := by
    have hlen := congrArg List.length h
    rw [hexEncode_length, hexEncode_length] at hlen
    omega
  rw [h, hlen, hb] at ha
  exact (Prod.mk.inj (Option.some.inj ha)).1.symm

/-- `tolower` of a byte. -/
def asciiLower (b : UInt8) : UInt8 := if 65 ≤ b ∧ b ≤ 90 then b + 32 else b

theorem asciiLower_toNat (b : UInt8) :
    (asciiLower b).toNat = if 65 ≤ b.toNat ∧ b.toNat ≤ 90 then b.toNat + 32 else b.toNat := by
  simp only [asciiLower, UInt8.le_iff_toNat_le, UInt8.reduceToNat]
  split
  · rw [UInt8.toNat_add]
    change (b.toNat + 32) % 256 = b.toNat + 32
    omega
  · rfl

/-- A digit means what it means in lower case. -/
theorem hexValue_asciiLower (b : UInt8) : hexValue (asciiLower b) = hexValue b := by
  refine forall_byte (p := fun b => hexValue (asciiLower b) = hexValue b) ?_ b
  decide +kernel

theorem hexDigit_of_hexValue {b : UInt8} {n : ℕ} (h : hexValue b = some n) : n < 16 ∧ hexDigit n = asciiLower b := by
  simp only [hexValue, UInt8.le_iff_toNat_le, UInt8.reduceToNat] at h
  rw [← UInt8.toNat_inj, asciiLower_toNat, hexDigit]
  split_ifs at h with hdec hlow hup <;> cases h
  · refine ⟨by omega, ?_⟩
    rw [if_pos (by omega), if_neg (by omega), UInt8.toNat_ofNat']
    omega
  · refine ⟨by omega, ?_⟩
    rw [if_neg (by omega), if_neg (by omega), UInt8.toNat_ofNat']
    omega
  · refine ⟨by omega, ?_⟩
    rw [if_neg (by omega), if_pos (by omega), UInt8.toNat_ofNat']
    omega

/-- Digits of either case decode exactly when they are those of the bytes in lower case. -/
theorem hexDecode_iff {bs s : Bytes} : hexDecode bs.length s = some (bs, []) ↔ s.map asciiLower = hexEncode bs := by
  induction bs generalizing s with
  | nil => simp [hexDecode, hexEncode]
  | cons b bs ih =>
    have hb := b.toNat_lt
    rcases s with - | ⟨hi, - | ⟨lo, s⟩⟩
    · simp [hexDecode, hexEncode]
    · simp [hexDecode, hexEncode]
    · rw [List.map_cons, List.map_cons, hexEncode, List.cons.injEq, List.cons.injEq, ← ih, List.length_cons]
      simp only [hexDecode, Option.bind_eq_bind, Option.bind_eq_some_iff, Prod.exists, Option.pure_def, Option.some.injEq,
        Prod.mk.injEq, List.cons.injEq]
      constructor
      · rintro ⟨h, hh, l, hl, bs', rest, hrec, ⟨hbyte, rfl⟩, rfl⟩
        obtain ⟨hh16, hhi⟩ := hexDigit_of_hexValue hh
        obtain ⟨hl16, hlo⟩ := hexDigit_of_hexValue hl
        rw [← UInt8.toNat_inj, UInt8.toNat_ofNat'] at hbyte
        refine ⟨?_, ?_, hrec⟩
        · rw [← hhi]
          congr 1
          omega
        · rw [← hlo]
          congr 1
          omega
      · rintro ⟨hhi, hlo, hrec⟩
        have hh : hexValue hi = some (b.toNat / 16) := by
          rw [← hexValue_asciiLower, hhi, hexValue_hexDigit _ (by omega)]
        have hl : hexValue lo = some (b.toNat % 16) := by
          rw [← hexValue_asciiLower, hlo, hexValue_hexDigit _ (by omega)]
        refine ⟨_, hh, _, hl, bs, [], hrec, ⟨?_, rfl⟩, rfl⟩
        rw [Nat.div_add_mod]
        exact UInt8.ofNat_toNat

theorem map_asciiLower_hexEncode (bs : Bytes) : (hexEncode bs).map asciiLower = hexEncode bs := by
  have hback := hexDecode_hexEncode bs []
  rw [List.append_nil] at hback
  exact hexDecode_iff.mp hback

theorem hexValue_isSome_of_mem {c : UInt8} {bs : Bytes} (h : c ∈ hexEncode bs) : (hexValue c).isSome = true := by
  induction bs with
  | nil => cases h
  | cons b bs ih =>
    have hb := b.toNat_lt
    rw [hexEncode, List.mem_cons, List.mem_cons] at h
    rcases h with rfl | rfl | h
    · rw [hexValue_hexDigit _ (by omega)]
      rfl
    · rw [hexValue_hexDigit _ (by omega)]
      rfl
    · exact ih h

/-- Pairs of digits are the digits of bytes. -/
theorem exists_hexEncode {w : ℕ} {s : Bytes} (hlen : s.length = 2 * w) (h : ∀ c ∈ s, (hexValue c).isSome = true) :
    ∃ bs, bs.length = w ∧ s.map asciiLower = hexEncode bs := by
  induction w generalizing s with
  | zero => exact ⟨[], rfl, by rw [List.length_eq_zero_iff.mp hlen]; rfl⟩
  | succ w ih =>
    rcases s with - | ⟨hi, - | ⟨lo, s⟩⟩
    · simp only [List.length_nil] at hlen
      omega
    · simp only [List.length_cons, List.length_nil] at hlen
      omega
    · simp only [List.length_cons] at hlen
      rw [List.forall_mem_cons, List.forall_mem_cons] at h
      obtain ⟨m, hm⟩ := Option.isSome_iff_exists.mp h.1
      obtain ⟨n, hn⟩ := Option.isSome_iff_exists.mp h.2.1
      obtain ⟨hm16, hhi⟩ := hexDigit_of_hexValue hm
      obtain ⟨hn16, hlo⟩ := hexDigit_of_hexValue hn
      obtain ⟨bs, hbs, hs⟩ := ih (by omega) h.2.2
      have hbyte : (UInt8.ofNat (16 * m + n)).toNat = 16 * m + n := by
        rw [UInt8.toNat_ofNat']
        omega
      refine ⟨UInt8.ofNat (16 * m + n) :: bs, by rw [List.length_cons, hbs], ?_⟩
      rw [hexEncode, hbyte, show (16 * m + n) / 16 = m by omega, show (16 * m + n) % 16 = n by omega, hhi, hlo, ← hs,
        List.map_cons, List.map_cons]

/-- The same with the width in the type. -/
def hexBlock (w : ℕ) (text : Bytes) : Option (Block w × Bytes) :=
  match h : hexDecode w text with
  | none => none
  | some (bs, rest) => some (⟨bs, (hexDecode_length h).1⟩, rest)

theorem hexBlock_hexEncode {w : ℕ} (b : Block w) (rest : Bytes) :
    hexBlock w (hexEncode b.val ++ rest) = some (b, rest) := by
  obtain ⟨bs, rfl⟩ := b
  have hd := hexDecode_hexEncode bs rest
  unfold hexBlock
  split
  · rename_i h
    cases hd.symm.trans h
  · rename_i h
    cases hd.symm.trans h
    rfl

theorem hexBlock_length {w : ℕ} {text rest : Bytes} {b : Block w}
    (h : hexBlock w text = some (b, rest)) : rest.length ≤ text.length := by
  unfold hexBlock at h
  split at h
  · cases h
  · rename_i hd
    cases h
    have := (hexDecode_length hd).2
    omega

end FractalSQL.Lib
