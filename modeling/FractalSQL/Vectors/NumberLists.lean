import FractalSQL.Lib.GrowBuffer
import FractalSQL.Vectors.Numbers

/-!
# Lists of numbers

`parse_vector_csv` and `parse_index_csv` are one loop over a growing buffer. They read a copy of the
source as a C string, so what stands behind a zero byte is not looked at; apart from this and from a
negative zero among indices they accept exactly the lists of numbers.
-/
namespace FractalSQL.Vectors
open Lib

/-! ### The loop -/

inductive Outcome (α : Type) where
  | done (a : α)
  | refused (message : Bytes)
  /-- A write behind the end of a buffer. -/
  | outside

/-- The loop: `element` reads a number where one should stand, `full` refuses a further one. -/
def readList {α : Type} (element : Bytes → Except Bytes (α × Bytes)) (full : ℕ → Option Bytes) :
    ℕ → GrowBuffer α → Bytes → Outcome (GrowBuffer α)
  | 0, v, _ => .done v
  | fuel + 1, v, p =>
    let p := p.dropWhile isFiller
    if p = [] then .done v
    else
      match element p with
      | .error e => .refused e
      | .ok (d, rest) =>
        match full v.used with
        | some e => .refused e
        | none =>
          match v.push d with
          | none => .outside
          | some v => readList element full fuel v rest

/-- A number of a vector. -/
def vectorElement (underflow : ℚ → Bool) (p : Bytes) : Except Bytes (Signed × Bytes) :=
  match strtod underflow p with
  | none => .error (ascii "fractalsql: invalid number near '" ++ p.take 20 ++ ascii "'")
  | some r =>
    if r.outOfRange then .error (ascii "fractalsql: value out of range")
    else if !binary64.finite r.value then .error (ascii "fractalsql: non-finite vector element")
    else .ok (r.value, r.rest)

def vectorFull (n : ℕ) : Option Bytes :=
  if n = maxElems then some (ascii "fractalsql: vector exceeds 1048576 elements") else none

/-- `parse_vector_csv`, with its buffer. -/
def parseVector (underflow : ℚ → Bool) (src : Bytes) : Outcome (List Signed) :=
  match readList (vectorElement underflow) vectorFull (cCopy src).length (.alloc 16) (cCopy src) with
  | .done v =>
    if v.used = 0 then .refused (ascii "fractalsql: vector must have at least one element") else .done v.contents
  | .refused e => .refused e
  | .outside => .outside

/-- A number as `strtoll` reads it: white space, a sign and digits. -/
def scanInteger (s : Bytes) : Option (ℤ × Bytes) :=
  let t := signOf (s.dropWhile isSpace)
  let ds := t.2.takeWhile isDigit
  if ds = [] then none else some (if t.1 then -(digitsValue ds : ℤ) else digitsValue ds, t.2.dropWhile isDigit)

def llongMin : ℤ := -2 ^ 63

def llongMax : ℤ := 2 ^ 63 - 1

structure Strtoll where
  value : ℤ
  outOfRange : Bool
  rest : Bytes

/-- `strtoll` in base ten: `none` when there is no number (`end == p`). -/
def strtoll (s : Bytes) : Option Strtoll :=
  (scanInteger s).map fun r => ⟨max llongMin (min llongMax r.1), r.1 < llongMin ∨ llongMax < r.1, r.2⟩

/-- An index. -/
def indexElement (p : Bytes) : Except Bytes (ℕ × Bytes) :=
  if p.head? = some 45 then
    .error (ascii "fractalsql: index must be non-negative near '" ++ p.take 20 ++ ascii "'")
  else
    match strtoll p with
    | none => .error (ascii "fractalsql: invalid index near '" ++ p.take 20 ++ ascii "'")
    | some r =>
      if r.outOfRange ∨ r.value < 0 then
        .error (ascii "fractalsql: index out of range near '" ++ p.take 20 ++ ascii "'")
      else .ok (r.value.toNat, r.rest)

/-- `parse_index_csv`. -/
def parseIndexCsv (src : Bytes) : Outcome (List ℕ) :=
  match readList indexElement (fun _ => none) (cCopy src).length (.alloc 16) (cCopy src) with
  | .done v => .done v.contents
  | .refused e => .refused e
  | .outside => .outside

/-! ### Lists of tokens -/

/-- Separators and tokens, where every token is the one that is recognised behind the separators. -/
inductive Splits {α : Type} (token : Bytes → Option (α × Bytes)) : Bytes → List α → Prop where
  | nil {w : Bytes} (hw : ∀ b ∈ w, isFiller b = true) : Splits token w []
  | cons {w s rest : Bytes} {b : UInt8} {v : α} {vs : List α} (hw : ∀ b ∈ w, isFiller b = true)
    (hb : isFiller b = false) (h : token (b :: s) = some (v, rest)) (hrest : Splits token rest vs) :
    Splits token (w ++ b :: s) (v :: vs)

/-- The number tokens of a vector: those that are finite. -/
def vectorToken (underflow : ℚ → Bool) (s : Bytes) : Option (Signed × Bytes) :=
  ((strtod underflow s).filter fun r => !r.outOfRange && binary64.finite r.value).map fun r => (r.value, r.rest)

/-- The number tokens of a list of indices: those from 0 to 2^63 - 1. -/
def indexToken (s : Bytes) : Option (ℕ × Bytes) :=
  ((scanInteger s).filter fun r => 0 ≤ r.1 ∧ r.1 ≤ llongMax).map fun r => (r.1.toNat, r.2)

/-- The same without those that begin with a minus sign. -/
def plainToken (s : Bytes) : Option (ℕ × Bytes) := if s.head? = some 45 then none else indexToken s

section
variable {α : Type} {token : Bytes → Option (α × Bytes)}

theorem splits_of_filler {w : Bytes} (hw : ∀ b ∈ w, isFiller b = true) {vs : List α} : Splits token w vs ↔ vs = [] := by
  constructor
  · intro h
    cases h with
    | nil => rfl
    | @cons w s rest b v vs hw' hb htoken hrest =>
      rw [hw b (List.mem_append_right _ (List.mem_cons_self ..))] at hb
      cases hb
  · rintro rfl
    exact .nil hw

/-- One token, and those of what it leaves. -/
theorem splits_iff {p : Bytes} (hp : p.dropWhile isFiller ≠ []) {vs : List α} :
    Splits token p vs ↔ ∃ v rest ws, token (p.dropWhile isFiller) = some (v, rest) ∧ vs = v :: ws ∧ Splits token rest ws := by
  constructor
  · intro h
    cases h with
    | nil hw => exact absurd (List.dropWhile_eq_nil_iff.mpr hw) hp
    | @cons w s rest b v ws hw hb htoken hrest =>
      rw [List.dropWhile_append_of_pos hw, List.dropWhile_cons_of_neg (by simp [hb])]
      exact ⟨v, rest, ws, htoken, rfl, hrest⟩
  · rintro ⟨v, rest, ws, htoken, rfl, hrest⟩
    have hsplit := List.takeWhile_append_dropWhile (p := isFiller) (l := p)
    have hhead := head_dropWhile isFiller p
    obtain ⟨b, s, hs⟩ := List.exists_cons_of_ne_nil hp
    rw [hs] at hsplit hhead htoken
    rw [← hsplit]
    exact .cons (fun b hb => List.mem_takeWhile_imp hb) (hhead b rfl) htoken hrest

theorem Splits.mono {token' : Bytes → Option (α × Bytes)} (h : ∀ s r, token s = some r → token' s = some r) {p : Bytes}
    {vs : List α} (hp : Splits token p vs) : Splits token' p vs := by
  induction hp with
  | nil hw => exact .nil hw
  | cons hw hb htoken hrest ih => exact .cons hw hb (h _ _ htoken) ih

/-- Where a token does not end behind a zero byte, no text with one splits. -/
theorem nul_of_splits (htoken : ∀ s v rest, token s = some (v, rest) → 0 ∈ s → 0 ∈ rest) {p : Bytes} {vs : List α}
    (h : Splits token p vs) : 0 ∉ p := by
  induction h with
  | nil hw =>
    intro hmem
    have hzero := hw 0 hmem
    cases hzero
  | @cons w s rest b v vs hw hb h hrest ih =>
    rw [List.mem_append, not_or]
    constructor
    · intro hmem
      have hzero := hw 0 hmem
      cases hzero
    · exact fun hmem => ih (htoken _ _ _ h hmem)

end

/-! ### What the loop reads -/

section
variable {α : Type} {element : Bytes → Except Bytes (α × Bytes)} {full : ℕ → Option Bytes}

/-- What is read are the tokens, one after the other. -/
theorem splits_of_readList {fuel : ℕ} {v v' : GrowBuffer α} {xs : List α} {p : Bytes}
    (hshort : ∀ p d rest, element p = .ok (d, rest) → rest.length < p.length) (hfuel : p.length ≤ fuel) (hv : v.Holds xs)
    (hpos : 0 < v.cells.length) (h : readList element full fuel v p = .done v') :
    ∃ ws, Splits (fun s => (element s).toOption) p ws ∧ (∀ k < ws.length, full (xs.length + k) = none) ∧ v'.Holds (xs ++ ws) := by
  induction fuel generalizing v xs p with
  | zero =>
    obtain rfl := List.length_eq_zero_iff.mp (Nat.le_zero.mp hfuel)
    cases h
    refine ⟨[], .nil nofun, nofun, ?_⟩
    rwa [List.append_nil]
  | succ fuel ih =>
    rw [readList] at h
    by_cases hp : p.dropWhile isFiller = []
    · simp only [if_pos hp] at h
      cases h
      refine ⟨[], .nil (List.dropWhile_eq_nil_iff.mp hp), nofun, ?_⟩
      rwa [List.append_nil]
    · simp only [if_neg hp] at h
      cases helem : element (p.dropWhile isFiller) with
      | error e =>
        rw [helem] at h
        cases h
      | ok r =>
        obtain ⟨d, rest⟩ := r
        rw [helem] at h
        dsimp only at h
        cases hfull : full v.used with
        | some e =>
          rw [hfull] at h
          cases h
        | none =>
          obtain ⟨b, hpush, hholds, hcells⟩ := hv.push hpos d
          rw [hfull, hpush] at h
          dsimp only at h
          have hrest := (hshort _ d rest helem).trans_le (dropWhile_length_le isFiller p)
          obtain ⟨ws, hsplits, hroom, hdone⟩ := ih (by omega) hholds hcells h
          rw [hv.used] at hfull
          refine ⟨d :: ws, (splits_iff hp).mpr ⟨d, rest, ws, by rw [helem]; rfl, rfl, hsplits⟩, ?_, ?_⟩
          · intro k hk
            cases k with
            | zero => exact hfull
            | succ k =>
              rw [← hroom k (by simpa using hk), List.length_append, List.length_singleton, Nat.add_right_comm, Nat.add_assoc]
          · rwa [List.append_assoc, List.singleton_append] at hdone

/-- A list of tokens for which there is room is read. -/
theorem readList_of_splits {fuel : ℕ} {v : GrowBuffer α} {xs ws : List α} {p : Bytes}
    (hshort : ∀ p d rest, element p = .ok (d, rest) → rest.length < p.length) (hfuel : p.length ≤ fuel) (hv : v.Holds xs)
    (hpos : 0 < v.cells.length) (h : Splits (fun s => (element s).toOption) p ws)
    (hroom : ∀ k < ws.length, full (xs.length + k) = none) :
    ∃ v', readList element full fuel v p = .done v' ∧ v'.Holds (xs ++ ws) := by
  induction fuel generalizing v xs ws p with
  | zero =>
    obtain rfl := List.length_eq_zero_iff.mp (Nat.le_zero.mp hfuel)
    obtain rfl := (splits_of_filler (List.forall_mem_nil _)).mp h
    exact ⟨v, rfl, by rwa [List.append_nil]⟩
  | succ fuel ih =>
    rw [readList]
    by_cases hp : p.dropWhile isFiller = []
    · obtain rfl := (splits_of_filler (List.dropWhile_eq_nil_iff.mp hp)).mp h
      exact ⟨v, if_pos hp, by rwa [List.append_nil]⟩
    · obtain ⟨d, rest, ws, htoken, rfl, hsplits⟩ := (splits_iff hp).mp h
      have helem : element (p.dropWhile isFiller) = .ok (d, rest) := by
        cases helem : element (p.dropWhile isFiller) with
        | error e => rw [helem] at htoken; cases htoken
        | ok r => rw [helem] at htoken; exact congrArg _ (Option.some.inj htoken)
      have hrest := (hshort _ d rest helem).trans_le (dropWhile_length_le isFiller p)
      have hfull := hroom 0 (Nat.succ_pos _)
      rw [Nat.add_zero, ← hv.used] at hfull
      obtain ⟨b, hpush, hholds, hcells⟩ := hv.push hpos d
      simp only [if_neg hp, helem, hfull, hpush]
      obtain ⟨v', hdone, hall⟩ := ih (by omega) hholds hcells hsplits fun k hk => by
        rw [List.length_append, List.length_singleton, Nat.add_assoc, Nat.add_comm 1 k]
        exact hroom (k + 1) (Nat.succ_lt_succ hk)
      exact ⟨v', hdone, by rwa [List.append_assoc, List.singleton_append] at hall⟩

end

/-! ### The elements -/

section
variable {underflow : ℚ → Bool}

theorem vectorElement_eq (underflow : ℚ → Bool) : (fun s => (vectorElement underflow s).toOption) = vectorToken underflow := by
  funext s
  rw [vectorElement, vectorToken]
  cases strtod underflow s with
  | none => rfl
  | some r =>
    dsimp only
    rw [Option.filter_some]
    cases hrange : r.outOfRange <;> cases hfinite : binary64.finite r.value <;> rfl

theorem indexElement_eq : (fun s => (indexElement s).toOption) = plainToken := by
  funext s
  rw [indexElement, plainToken]
  by_cases hminus : s.head? = some 45
  · rw [if_pos hminus, if_pos hminus]
    rfl
  rw [if_neg hminus, if_neg hminus, strtoll, indexToken]
  cases scanInteger s with
  | none => rfl
  | some r =>
    have hmin : llongMin = -9223372036854775808 := rfl
    have hmax : llongMax = 9223372036854775807 := rfl
    rw [Option.map_some, Option.filter_some]
    dsimp only
    simp only [decide_eq_true_eq]
    by_cases hin : 0 ≤ r.1 ∧ r.1 ≤ llongMax
    · rw [if_neg (by omega), if_pos hin]
      have hvalue : max llongMin (min llongMax r.1) = r.1 := by omega
      rw [hvalue]
      rfl
    · rw [if_pos (by omega), if_neg hin]
      rfl

theorem vectorToken_eq_some {s : Bytes} {v : Signed} {rest : Bytes} (h : vectorToken underflow s = some (v, rest)) :
    ∃ r, strtod underflow s = some r ∧ r.rest = rest := by
  obtain ⟨r, hr, heq⟩ := Option.map_eq_some_iff.mp h
  exact ⟨r, (Option.filter_eq_some_iff.mp hr).1, (Prod.mk.inj heq).2⟩

theorem indexToken_eq_some {s : Bytes} {v : ℕ} {rest : Bytes} (h : indexToken s = some (v, rest)) :
    ∃ z, scanInteger s = some (z, rest) := by
  obtain ⟨r, hr, heq⟩ := Option.map_eq_some_iff.mp h
  rw [← (Prod.mk.inj heq).2]
  exact ⟨r.1, (Option.filter_eq_some_iff.mp hr).1⟩

theorem plainToken_le {s : Bytes} {r : ℕ × Bytes} (h : plainToken s = some r) : indexToken s = some r := by
  rw [plainToken] at h
  split_ifs at h
  exact h

theorem scanInteger_eq_some {s rest : Bytes} {z : ℤ} (h : scanInteger s = some (z, rest)) :
    (signOf (s.dropWhile isSpace)).2.takeWhile isDigit ≠ [] ∧ (signOf (s.dropWhile isSpace)).2.dropWhile isDigit = rest := by
  simp only [scanInteger] at h
  by_cases hne : (signOf (s.dropWhile isSpace)).2.takeWhile isDigit = []
  · rw [if_pos hne] at h
    cases h
  · rw [if_neg hne] at h
    exact ⟨hne, (Prod.mk.inj (Option.some.inj h)).2⟩

theorem scanInteger_length {s rest : Bytes} {z : ℤ} (h : scanInteger s = some (z, rest)) : rest.length < s.length := by
  have hdrop := dropWhile_length_le isSpace s
  have hsign := signOf_length (s.dropWhile isSpace)
  have hsplit := congrArg List.length
    (List.takeWhile_append_dropWhile (p := isDigit) (l := (signOf (s.dropWhile isSpace)).2))
  obtain ⟨hne, rfl⟩ := scanInteger_eq_some h
  have hpos := List.length_pos_iff.mpr hne
  rw [List.length_append] at hsplit
  omega

theorem vectorElement_length {p rest : Bytes} {d : Signed} (h : vectorElement underflow p = .ok (d, rest)) :
    rest.length < p.length := by
  have htoken : vectorToken underflow p = some (d, rest) := by
    rw [← congrFun (vectorElement_eq underflow) p, h]
    rfl
  obtain ⟨r, hr, rfl⟩ := vectorToken_eq_some htoken
  exact strtod_length hr

theorem indexElement_length {p rest : Bytes} {d : ℕ} (h : indexElement p = .ok (d, rest)) : rest.length < p.length := by
  have htoken : plainToken p = some (d, rest) := by
    rw [← congrFun indexElement_eq p, h]
    rfl
  obtain ⟨z, hz⟩ := indexToken_eq_some (plainToken_le htoken)
  exact scanInteger_length hz

/-! ### Zero bytes -/

theorem mem_dropWhile {p : UInt8 → Bool} {c : UInt8} (hc : p c = false) {s : Bytes} (h : c ∈ s) : c ∈ s.dropWhile p := by
  rw [← List.takeWhile_append_dropWhile (p := p) (l := s), List.mem_append] at h
  rcases h with h | h
  · rw [List.mem_takeWhile_imp h] at hc
    cases hc
  · exact h

theorem mem_signOf {s : Bytes} (h : 0 ∈ s) : 0 ∈ (signOf s).2 := by
  unfold signOf
  split
  · exact (List.mem_cons.mp h).resolve_left (by decide)
  · exact (List.mem_cons.mp h).resolve_left (by decide)
  · exact h

theorem indexToken_nul {s : Bytes} {v : ℕ} {rest : Bytes} (h : indexToken s = some (v, rest)) (hnul : 0 ∈ s) : 0 ∈ rest := by
  obtain ⟨z, hz⟩ := indexToken_eq_some h
  obtain ⟨-, rfl⟩ := scanInteger_eq_some hz
  exact mem_dropWhile rfl (mem_signOf (mem_dropWhile rfl hnul))

theorem vectorToken_nul {s : Bytes} {v : Signed} {rest : Bytes} (h : vectorToken underflow s = some (v, rest)) (hnul : 0 ∈ s) :
    0 ∈ rest := by
  obtain ⟨r, hr, rfl⟩ := vectorToken_eq_some h
  obtain ⟨a, b, rfl⟩ := List.append_of_mem hnul
  rw [strtod_stop (by decide) (.inl (by decide))] at hr
  obtain ⟨r', -, rfl⟩ := Option.map_eq_some_iff.mp hr
  exact List.mem_append_right _ (List.mem_cons_self ..)

theorem cCopy_of_nulFree {s : Bytes} (h : 0 ∉ s) : cCopy s = s := by
  refine List.takeWhile_eq_self_iff.mpr fun c hc => ?_
  have hne : c ≠ 0 := fun hzero => h (hzero ▸ hc)
  simpa using hne

/-! ### The parsers -/

theorem room_iff {n : ℕ} : (∀ k < n, vectorFull (0 + k) = none) ↔ n ≤ maxElems := by
  constructor
  · intro h
    by_contra hlt
    have hfull := h maxElems (by omega)
    rw [Nat.zero_add, vectorFull, if_pos rfl] at hfull
    cases hfull
  · intro h k hk
    rw [Nat.zero_add, vectorFull, if_neg (by omega)]

/-- Vectors are the splittings into finite numbers, of the text up to its first zero byte. -/
theorem parseVector_iff {src : Bytes} {vs : List Signed} : parseVector underflow src = .done vs ↔
    Splits (vectorToken underflow) (cCopy src) vs ∧ 1 ≤ vs.length ∧ vs.length ≤ maxElems := by
  have hstart : (GrowBuffer.alloc 16 : GrowBuffer Signed).Holds [] := GrowBuffer.holds_alloc 16
  have hcells : 0 < (GrowBuffer.alloc 16 : GrowBuffer Signed).cells.length := Nat.succ_pos _
  have hshort : ∀ p d rest, vectorElement underflow p = .ok (d, rest) → rest.length < p.length := fun _ _ _ => vectorElement_length
  rw [parseVector]
  constructor
  · intro h
    cases hread : readList (vectorElement underflow) vectorFull (cCopy src).length (.alloc 16) (cCopy src) with
    | refused e => rw [hread] at h; cases h
    | outside => rw [hread] at h; cases h
    | done v =>
      obtain ⟨ws, hsplits, hroom, hholds⟩ := splits_of_readList hshort le_rfl hstart hcells hread
      rw [hread] at h
      dsimp only at h
      split_ifs at h with hempty
      cases h
      rw [hholds.contents, List.nil_append]
      rw [hholds.used, List.nil_append] at hempty
      rw [vectorElement_eq] at hsplits
      exact ⟨hsplits, Nat.pos_of_ne_zero hempty, room_iff.mp hroom⟩
  · rintro ⟨hsplits, hpos, hmax⟩
    rw [← vectorElement_eq] at hsplits
    obtain ⟨v, hread, hholds⟩ := readList_of_splits hshort le_rfl hstart hcells hsplits (room_iff.mpr hmax)
    rw [hread]
    dsimp only
    rw [hholds.used, hholds.contents, List.nil_append, if_neg (by omega)]

/-- Lists of indices are the splittings into indices without a minus sign. -/
theorem parseIndexCsv_iff {src : Bytes} {vs : List ℕ} : parseIndexCsv src = .done vs ↔ Splits plainToken (cCopy src) vs := by
  have hstart : (GrowBuffer.alloc 16 : GrowBuffer ℕ).Holds [] := GrowBuffer.holds_alloc 16
  have hcells : 0 < (GrowBuffer.alloc 16 : GrowBuffer ℕ).cells.length := Nat.succ_pos _
  have hshort : ∀ p d rest, indexElement p = .ok (d, rest) → rest.length < p.length := fun _ _ _ => indexElement_length
  rw [parseIndexCsv]
  constructor
  · intro h
    cases hread : readList indexElement (fun _ => none) (cCopy src).length (.alloc 16) (cCopy src) with
    | refused e => rw [hread] at h; cases h
    | outside => rw [hread] at h; cases h
    | done v =>
      obtain ⟨ws, hsplits, -, hholds⟩ := splits_of_readList hshort le_rfl hstart hcells hread
      rw [hread] at h
      cases h
      rw [hholds.contents, List.nil_append]
      rwa [indexElement_eq] at hsplits
  · intro hsplits
    rw [← indexElement_eq] at hsplits
    obtain ⟨v, hread, hholds⟩ :=
      @readList_of_splits ℕ indexElement (fun _ => none) _ _ _ _ _ hshort le_rfl hstart hcells hsplits fun _ _ => rfl
    rw [hread]
    dsimp only
    rw [hholds.contents, List.nil_append]

/-- The loop over the buffer reads what the loop over the elements reads. -/
theorem readList_parseElements (underflow : ℚ → Bool) (fuel : ℕ) {v : GrowBuffer Signed} {xs : List Signed} (p : Bytes)
    (hv : v.Holds xs) (hpos : 0 < v.cells.length) :
    match parseElements underflow fuel xs.length p with
    | .error e => readList (vectorElement underflow) vectorFull fuel v p = .refused e
    | .ok ws => ∃ v', readList (vectorElement underflow) vectorFull fuel v p = .done v' ∧ v'.Holds (xs ++ ws) := by
  induction fuel generalizing v xs p with
  | zero => exact ⟨v, rfl, by rwa [List.append_nil]⟩
  | succ fuel ih =>
    rw [parseElements, readList]
    by_cases hp : p.dropWhile isFiller = []
    · simp only [if_pos hp]
      exact ⟨v, rfl, by rwa [List.append_nil]⟩
    · simp only [if_neg hp, vectorElement]
      cases strtod underflow (p.dropWhile isFiller) with
      | none => rfl
      | some r =>
        dsimp only
        by_cases hrange : r.outOfRange = true
        · rw [if_pos hrange, if_pos hrange]
        by_cases hfinite : (!binary64.finite r.value) = true
        · rw [if_neg hrange, if_neg hrange, if_pos hfinite, if_pos hfinite]
        by_cases hfull : xs.length = maxElems
        · rw [if_neg hrange, if_neg hrange, if_neg hfinite, if_neg hfinite, if_pos hfull]
          simp only [vectorFull, hv.used, if_pos hfull]
        obtain ⟨b, hpush, hholds, hcells⟩ := hv.push hpos r.value
        rw [if_neg hrange, if_neg hrange, if_neg hfinite, if_neg hfinite, if_neg hfull]
        simp only [vectorFull, hv.used, if_neg hfull, hpush]
        have hmore := ih r.rest hholds hcells
        rw [List.length_append, List.length_singleton] at hmore
        cases hrest : parseElements underflow fuel (xs.length + 1) r.rest with
        | error e =>
          rw [hrest] at hmore
          exact hmore
        | ok ws =>
          rw [hrest] at hmore
          obtain ⟨v', hdone, hall⟩ := hmore
          exact ⟨v', hdone, by rwa [List.append_assoc, List.singleton_append] at hall⟩

/-- The buffer holds the vector that `parseVectorCsv` reads. -/
theorem parseVector_eq (underflow : ℚ → Bool) (src : Bytes) : parseVector underflow src =
    match parseVectorCsv underflow src with
    | .error e => .refused e
    | .ok vs => .done vs := by
  have hread := readList_parseElements underflow (cCopy src).length (cCopy src) (GrowBuffer.holds_alloc 16) (Nat.succ_pos _)
  rw [List.length_nil] at hread
  rw [parseVector, parseVectorCsv]
  cases helem : parseElements underflow (cCopy src).length 0 (cCopy src) with
  | error e =>
    rw [helem] at hread
    dsimp only at hread ⊢
    rw [hread]
  | ok vs =>
    rw [helem] at hread
    obtain ⟨v, hdone, hholds⟩ := hread
    rw [List.nil_append] at hholds
    rw [hdone]
    dsimp only
    rw [hholds.used, hholds.contents]
    cases vs with
    | nil => rfl
    | cons v vs => rfl

/-! ### The whole input -/

/-- An index list is read exactly when the whole source is one. -/
def IndicesConsumed (src : Bytes) : Prop := ∀ vs, parseIndexCsv src = .done vs ↔ Splits indexToken src vs

/-- A vector is read exactly when the whole source is one. -/
def VectorConsumed (underflow : ℚ → Bool) (src : Bytes) : Prop := ∀ vs, parseVector underflow src = .done vs ↔
  Splits (vectorToken underflow) src vs ∧ 1 ≤ vs.length ∧ vs.length ≤ maxElems

/-- No zero with a minus sign stands in the source, and no list stands in front of a zero byte. -/
def IndicesClean (src : Bytes) : Prop :=
  (∀ vs, Splits indexToken src vs → Splits plainToken src vs) ∧ (0 ∈ src → ∀ vs, ¬ Splits plainToken (cCopy src) vs)

/-- No vector stands in front of a zero byte. -/
def VectorClean (underflow : ℚ → Bool) (src : Bytes) : Prop :=
  0 ∈ src → ∀ vs, ¬ (Splits (vectorToken underflow) (cCopy src) vs ∧ 1 ≤ vs.length ∧ vs.length ≤ maxElems)

/-- The parsers consume the whole input exactly when nothing that they accept stands in front of a zero byte, and no
index is a negative zero. -/
theorem lists_consumed_iff (underflow : ℚ → Bool) (src : Bytes) :
    (IndicesConsumed src ↔ IndicesClean src) ∧ (VectorConsumed underflow src ↔ VectorClean underflow src) := by
  constructor
  · simp only [IndicesConsumed, IndicesClean, parseIndexCsv_iff]
    by_cases hnul : 0 ∈ src
    · have hnone (vs : List ℕ) : ¬ Splits indexToken src vs := fun h => nul_of_splits (fun _ _ _ => indexToken_nul) h hnul
      constructor
      · intro h
        exact ⟨fun vs hvs => absurd hvs (hnone vs), fun _ vs hvs => hnone vs ((h vs).mp hvs)⟩
      · rintro ⟨-, h⟩ vs
        exact ⟨fun hvs => absurd hvs (h hnul vs), fun hvs => absurd hvs (hnone vs)⟩
    · rw [cCopy_of_nulFree hnul]
      constructor
      · intro h
        exact ⟨fun vs hvs => (h vs).mpr hvs, fun hmem => absurd hmem hnul⟩
      · rintro ⟨h, -⟩ vs
        exact ⟨Splits.mono fun _ _ => plainToken_le, h vs⟩
  · simp only [VectorConsumed, VectorClean, parseVector_iff]
    by_cases hnul : 0 ∈ src
    · have hnone (vs : List Signed) : ¬ Splits (vectorToken underflow) src vs := fun h =>
        nul_of_splits (fun _ _ _ => vectorToken_nul) h hnul
      constructor
      · intro h _ vs hvs
        exact hnone vs ((h vs).mp hvs).1
      · intro h vs
        exact ⟨fun hvs => absurd hvs (h hnul vs), fun hvs => absurd hvs.1 (hnone vs)⟩
    · rw [cCopy_of_nulFree hnul]
      exact ⟨fun _ hmem => absurd hmem hnul, fun _ _ => Iff.rfl⟩

end

/-- A list in front of a zero byte is taken for the whole. -/
theorem zero_byte_ends_list : (parseIndexCsv (ascii "1" ++ 0 :: ascii "x") = .done [1] ∧ ¬ IndicesConsumed (ascii "1" ++ 0 :: ascii "x")) ∧
    ¬ VectorConsumed (fun _ => true) (ascii "1" ++ 0 :: ascii "x") := by
  have hindex : parseIndexCsv (ascii "1" ++ 0 :: ascii "x") = .done [1] := rfl
  have hnul : 0 ∈ ascii "1" ++ 0 :: ascii "x" := by decide
  refine ⟨⟨hindex, fun h => ?_⟩, fun h => ?_⟩
  · exact nul_of_splits (fun _ _ _ => indexToken_nul) ((h [1]).mp hindex) hnul
  · have hvector : parseVector (fun _ => true) (ascii "1" ++ 0 :: ascii "x") = .done [⟨false, 1023 * 2 ^ 52⟩] := by
      rw [parseVector_iff]
      refine ⟨.cons (w := []) (s := []) (b := 49) (List.forall_mem_nil _) rfl ?_ (.nil (List.forall_mem_nil _)), ?_⟩
      · decide +kernel
      · decide
    exact nul_of_splits (fun _ _ _ => vectorToken_nul) ((h _).mp hvector).1 hnul

/-- Minus zero is an index that is refused. -/
theorem minus_zero_refused : ¬ IndicesConsumed (ascii "-0") := by
  intro h
  have hsplits : Splits indexToken (ascii "-0") [0] := .cons (w := []) (List.forall_mem_nil _) rfl rfl (.nil (List.forall_mem_nil _))
  cases (h [0]).mpr hsplits

end FractalSQL.Vectors
