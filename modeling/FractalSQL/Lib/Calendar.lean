import FractalSQL.Lib.Text

/-!
# Instants from calendar text

Seconds since 1970 of a UTC date and time, what `sscanf` makes of such a text, and the two
ISO-8601 forms of it.
-/
namespace FractalSQL.Lib

def isLeap (y : ℤ) : Bool := (y % 4 = 0 ∧ y % 100 ≠ 0) ∨ y % 400 = 0

def daysOfMonth (y : ℤ) (m : ℕ) : ℕ :=
  if m = 2 then (if isLeap y then 29 else 28) else if m = 4 ∨ m = 6 ∨ m = 9 ∨ m = 11 then 30 else 31

/-- The days of the proleptic calendar before that year. -/
def daysBeforeYear (y : ℤ) : ℤ := 365 * (y - 1) + (y - 1) / 4 - (y - 1) / 100 + (y - 1) / 400

def daysBeforeMonth (y : ℤ) (m : ℕ) : ℕ := ((List.range m).drop 1).foldl (fun n k => n + daysOfMonth y k) 0

/-- `std::tm`, with the year and the month as they are written. -/
structure Tm where
  year : ℤ
  mon : ℤ
  mday : ℤ
  hour : ℤ := 0
  min : ℤ := 0
  sec : ℤ := 0

/-- `timegm` of a month between 1 and 12; the other fields may be out of their ranges. -/
def timegm (t : Tm) : ℤ :=
  86400 * (daysBeforeYear t.year - daysBeforeYear 1970 + daysBeforeMonth t.year t.mon.toNat + (t.mday - 1)) +
    3600 * t.hour + 60 * t.min + t.sec

/-! ### The texts -/

def literal (c : UInt8) : Bytes → Option Bytes
  | b :: rest => if b = c then some rest else none
  | [] => none

/-- `sscanf` with a `%d` before each of the literal bytes and one after them: the numbers
that are converted. -/
def sscanf : Bytes → Bytes → List ℤ
  | [], text => ((strtoInt (-2 ^ 31) (2 ^ 31 - 1) text).map Prod.fst).toList
  | c :: seps, text =>
    match strtoInt (-2 ^ 31) (2 ^ 31 - 1) text with
    | none => []
    | some (v, rest) => v :: (literal c rest).elim [] (sscanf seps)

/-- A number of exactly `w` digits. -/
def fixedDigits (w : ℕ) (text : Bytes) : Option (ℕ × Bytes) :=
  if w ≤ text.length ∧ (text.take w).all isDigit then some (digitsValue (text.take w), text.drop w) else none

/-- `HH:MM:SS`, after a literal byte each. -/
def isoTime (text : Bytes) : Option ((ℕ × ℕ × ℕ) × Bytes) := do
  let (h, rest) ← (literal 84 text).bind (fixedDigits 2)
  let (mi, rest) ← (literal 58 rest).bind (fixedDigits 2)
  let (se, rest) ← (literal 58 rest).bind (fixedDigits 2)
  some ((h, mi, se), rest)

def isoDate (text : Bytes) : Option ((ℕ × ℕ × ℕ) × Bytes) := do
  let (y, rest) ← fixedDigits 4 text
  let (mo, rest) ← (literal 45 rest).bind (fixedDigits 2)
  let (d, rest) ← (literal 45 rest).bind (fixedDigits 2)
  some ((y, mo, d), rest)

def validDate (y mo d : ℕ) : Bool := 1970 ≤ y && 1 ≤ mo && mo ≤ 12 && 1 ≤ d && d ≤ daysOfMonth y mo

/-- `YYYY-MM-DD` or `YYYY-MM-DDTHH:MM:SSZ`, of a day and a time that exist. -/
def isoInstant (text : Bytes) : Option ℤ := do
  let ((y, mo, d), rest) ← isoDate text
  if !validDate y mo d then none
  else if rest = [] then some (timegm ⟨y, mo, d, 0, 0, 0⟩)
  else
    let ((h, mi, se), rest) ← isoTime rest
    if rest = [90] ∧ h < 24 ∧ mi < 60 ∧ se < 60 then some (timegm ⟨y, mo, d, h, mi, se⟩) else none

/-! ### The forms are read back -/

theorem daysOfMonth_le (y : ℤ) (m : ℕ) : daysOfMonth y m ≤ 31 := by
  unfold daysOfMonth
  split_ifs <;> omega

theorem digitsValue_lt (ds : Bytes) (h : ∀ d ∈ ds, isDigit d = true) : digitsValue ds < 10 ^ ds.length := by
  induction ds using List.reverseRecOn with
  | nil => simp [digitsValue]
  | append_singleton ds d ih =>
    have hlt := ih fun b hb => h b (List.mem_append_left _ hb)
    have hd := h d (by simp)
    have hb : d.toNat ≤ 57 := by
      simp only [isDigit, UInt8.le_iff_toNat_le, decide_eq_true_eq] at hd
      exact hd.2
    simp only [digitsValue, List.foldl_append, List.foldl_cons, List.foldl_nil, List.length_append, List.length_singleton,
      pow_succ] at hlt ⊢
    omega

theorem fixedDigits_eq {w n : ℕ} {text rest : Bytes} (h : fixedDigits w text = some (n, rest)) :
    ∃ ds, text = ds ++ rest ∧ ds.length = w ∧ (∀ d ∈ ds, isDigit d = true) ∧ digitsValue ds = n := by
  unfold fixedDigits at h
  split_ifs at h with hc
  obtain ⟨rfl, rfl⟩ := Prod.mk.inj (Option.some.inj h)
  exact ⟨text.take w, (List.take_append_drop w text).symm, by simp [hc.1], List.all_eq_true.mp hc.2, rfl⟩

theorem literal_eq {c : UInt8} {text rest : Bytes} (h : literal c text = some rest) : text = c :: rest := by
  cases text with
  | nil => cases h
  | cons b text =>
    rw [literal] at h
    split_ifs at h with hb
    rw [hb, Option.some.inj h]

theorem fixedDigits_noNul {w n : ℕ} {text rest : Bytes} (h : fixedDigits w text = some (n, rest)) (hr : 0 ∉ rest) :
    0 ∉ text := by
  obtain ⟨ds, rfl, -, hd, -⟩ := fixedDigits_eq h
  intro hmem
  obtain hmem | hmem := List.mem_append.mp hmem
  · cases hd 0 hmem
  · exact hr hmem

/-- A number with its width is read by `%d`, up to the byte after it. -/
theorem strtoInt_fixedDigits {w n : ℕ} {text rest : Bytes} (hw : 0 < w) (hw' : w ≤ 9)
    (h : fixedDigits w text = some (n, rest)) (hr : ∀ b ∈ rest.head?, isDigit b = false) :
    strtoInt (-2 ^ 31) (2 ^ 31 - 1) text = some ((n : ℤ), rest) := by
  obtain ⟨ds, rfl, hlen, hd, rfl⟩ := fixedDigits_eq h
  have hne : ds ≠ [] := by
    rintro rfl
    exact absurd hlen (by simp; omega)
  have hlt := digitsValue_lt ds hd
  have hpow : 10 ^ ds.length ≤ 10 ^ 9 := Nat.pow_le_pow_right (by omega) (hlen ▸ hw')
  simp only [strtoInt, signOf_digits hne hd, takeWhile_digits hd hr, dropWhile_digits hd hr, hne, if_false,
    Bool.false_eq_true]
  rw [min_eq_right (by omega), max_eq_right (by omega)]

/-- A number between two literal bytes of the form. -/
theorem sscanf_cons {w n : ℕ} {c : UInt8} {text rest : Bytes} (hw : 0 < w) (hw' : w ≤ 9)
    (h : fixedDigits w text = some (n, rest)) (hr : ∀ b ∈ rest.head?, isDigit b = false) (seps : Bytes) :
    sscanf (c :: seps) text = (n : ℤ) :: (literal c rest).elim [] (sscanf seps) := by
  rw [sscanf, strtoInt_fixedDigits hw hw' h hr]

theorem head_of_literal {c : UInt8} {text rest : Bytes} (h : literal c text = some rest) (hc : isDigit c = false) :
    ∀ b ∈ text.head?, isDigit b = false := by
  rw [literal_eq h]
  simpa using hc

/-- The separators of `%d-%d-%dT%d:%d:%d`. -/
def dateSeps : Bytes := [45, 45, 84, 58, 58]

theorem sscanf_isoDate {y mo d : ℕ} {text rest : Bytes} (h : isoDate text = some ((y, mo, d), rest))
    (hr : ∀ b ∈ rest.head?, isDigit b = false) (hnul : 0 ∉ rest) :
    10 ≤ text.length ∧ 0 ∉ text ∧
      sscanf dateSeps text = (y : ℤ) :: (mo : ℤ) :: (d : ℤ) :: (literal 84 rest).elim [] (sscanf [58, 58]) := by
  simp only [isoDate, Option.bind_eq_bind, Option.bind_eq_some_iff, Prod.exists, Option.some.injEq, Prod.mk.injEq] at h
  obtain ⟨y, r₁, hy, mo, r₂, ⟨t₁, hl₁, hmo⟩, d, r₃, ⟨t₂, hl₂, hd⟩, ⟨rfl, rfl, rfl⟩, rfl⟩ := h
  have h45 : isDigit 45 = false := by decide
  refine ⟨?_, ?_, ?_⟩
  · obtain ⟨ds, rfl, hlen, -⟩ := fixedDigits_eq hy
    obtain rfl := literal_eq hl₁
    obtain ⟨ds', rfl, hlen', -⟩ := fixedDigits_eq hmo
    obtain rfl := literal_eq hl₂
    obtain ⟨ds'', rfl, hlen'', -⟩ := fixedDigits_eq hd
    simp only [List.length_append, List.length_cons]
    omega
  · apply fixedDigits_noNul hy
    rw [literal_eq hl₁]
    refine List.not_mem_cons_of_ne_of_not_mem (by decide) (fixedDigits_noNul hmo ?_)
    rw [literal_eq hl₂]
    exact List.not_mem_cons_of_ne_of_not_mem (by decide) (fixedDigits_noNul hd hnul)
  · rw [dateSeps, sscanf_cons (by omega) (by omega) hy (head_of_literal hl₁ h45), hl₁, Option.elim_some,
      sscanf_cons (by omega) (by omega) hmo (head_of_literal hl₂ h45), hl₂, Option.elim_some,
      sscanf_cons (by omega) (by omega) hd hr]

theorem sscanf_isoTime {h mi se : ℕ} {text : Bytes} (htime : isoTime text = some ((h, mi, se), [90])) :
    (∀ b ∈ text.head?, isDigit b = false) ∧ 0 ∉ text ∧
      (literal 84 text).elim [] (sscanf [58, 58]) = [(h : ℤ), (mi : ℤ), (se : ℤ)] := by
  simp only [isoTime, Option.bind_eq_bind, Option.bind_eq_some_iff, Prod.exists, Option.some.injEq, Prod.mk.injEq] at htime
  obtain ⟨h, r₁, ⟨t₀, hl₀, hh⟩, mi, r₂, ⟨t₁, hl₁, hmi⟩, se, r₃, ⟨t₂, hl₂, hse⟩, ⟨rfl, rfl, rfl⟩, rfl⟩ := htime
  have h58 : isDigit 58 = false := by decide
  have h90 : ∀ b ∈ List.head? [90], isDigit b = false := by
    rintro b ⟨⟩
    decide
  refine ⟨head_of_literal hl₀ (by decide), ?_, ?_⟩
  · rw [literal_eq hl₀]
    refine List.not_mem_cons_of_ne_of_not_mem (by decide) (fixedDigits_noNul hh ?_)
    rw [literal_eq hl₁]
    refine List.not_mem_cons_of_ne_of_not_mem (by decide) (fixedDigits_noNul hmi ?_)
    rw [literal_eq hl₂]
    exact List.not_mem_cons_of_ne_of_not_mem (by decide) (fixedDigits_noNul hse (by decide))
  · rw [hl₀, Option.elim_some, sscanf_cons (by omega) (by omega) hh (head_of_literal hl₁ h58), hl₁, Option.elim_some,
      sscanf_cons (by omega) (by omega) hmi (head_of_literal hl₂ h58), hl₂, Option.elim_some, sscanf,
      strtoInt_fixedDigits (by omega) (by omega) hse h90]
    rfl

/-- What `sscanf` reads of the two forms, whose day and time exist. -/
theorem sscanf_isoInstant {text : Bytes} {t : ℤ} (h : isoInstant text = some t) :
    10 ≤ text.length ∧ 0 ∉ text ∧ ∃ (y mo d : ℕ) (more : List ℤ),
      sscanf dateSeps text = (y : ℤ) :: (mo : ℤ) :: (d : ℤ) :: more ∧ 1970 ≤ y ∧ 1 ≤ mo ∧ mo ≤ 12 ∧ 1 ≤ d ∧ d ≤ 31 ∧
        t = timegm ⟨y, mo, d, more.getD 0 0, more.getD 1 0, more.getD 2 0⟩ := by
  simp only [isoInstant, Option.bind_eq_bind, Option.bind_eq_some_iff, Prod.exists] at h
  obtain ⟨y, mo, d, rest, hdate, h⟩ := h
  split_ifs at h with hvalid hnil
  · subst hnil
    have hv : validDate y mo d = true := by simpa using hvalid
    simp only [validDate, Bool.and_eq_true, decide_eq_true_eq] at hv
    have hle := daysOfMonth_le y mo
    obtain ⟨hlen, hnul, hscan⟩ := sscanf_isoDate hdate nofun nofun
    exact ⟨hlen, hnul, y, mo, d, [], hscan, by omega, by omega, by omega, by omega, by omega, (Option.some.inj h).symm⟩
  · have hv : validDate y mo d = true := by simpa using hvalid
    simp only [validDate, Bool.and_eq_true, decide_eq_true_eq] at hv
    have hle := daysOfMonth_le y mo
    obtain ⟨⟨⟨hh, mi, se⟩, rest'⟩, htime, h⟩ := Option.bind_eq_some_iff.mp h
    split_ifs at h with htail
    obtain ⟨rfl, -⟩ := htail
    obtain ⟨hhead, hnul', hscan'⟩ := sscanf_isoTime htime
    obtain ⟨hlen, hnul, hscan⟩ := sscanf_isoDate hdate hhead hnul'
    rw [hscan'] at hscan
    exact ⟨hlen, hnul, y, mo, d, _, hscan, by omega, by omega, by omega, by omega, by omega, (Option.some.inj h).symm⟩

end FractalSQL.Lib
