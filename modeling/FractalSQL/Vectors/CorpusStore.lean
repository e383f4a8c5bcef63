import FractalSQL.Vectors.NumberLists
import FractalSQL.Vectors.Spellings

/-!
# The memory of a corpus

`parse_corpus` copies every row into an array that it reallocates for twice as many rows when it is
full. Sizes are numbers of the type `size_t`, whose largest one is `sizeMax`: products are computed
modulo `sizeMax + 1`, and `mul_ok` refuses those that do not fit.
-/
namespace FractalSQL.Vectors
open Lib

/-! ### The array -/

/-- `mul_ok`. -/
def mulOk (sizeMax a b c : ℕ) : Bool :=
  if a ≠ 0 ∧ sizeMax / a < b then false
  else if c ≠ 0 ∧ sizeMax / c < a * b % (sizeMax + 1) then false
  else true

/-- The local variables of `parse_corpus`. -/
structure CorpusState where
  store : GrowBuffer Signed
  capRows : ℕ
  nRows : ℕ
  dim : ℕ

/-- What the server does at every section: whether an interrupt is pending, the error of `parse_vector_csv` when it is stopped
or gets no memory, and whether the array cannot be reallocated. -/
structure Resources where
  interrupted : ℕ → Bool
  rowStops : ℕ → Option Bytes
  reallocFails : ℕ → Bool

/-- No interrupt, and memory for everything. -/
def Resources.quiet : Resources where
  interrupted _ := false
  rowStops _ := none
  reallocFails _ := false

def tooLarge : Bytes := ascii "fractalsql: corpus is too large to index"

/-- The array with room for one more row, and its number of rows. -/
def growStore (sizeMax : ℕ) (fails : Bool) (st : CorpusState) (dim : ℕ) : Except Bytes (GrowBuffer Signed × ℕ) :=
  if st.nRows = st.capRows then
    let ncap := if st.capRows = 0 then 16 else st.capRows * 2 % (sizeMax + 1)
    if ncap < st.capRows ∨ mulOk sizeMax ncap dim 8 = false then .error tooLarge
    else if fails then .error (ascii "fractalsql: oom growing corpus")
    else .ok (st.store.realloc (ncap * dim * 8 % (sizeMax + 1) / 8), ncap)
  else .ok (st.store, st.capRows)

/-- One row: a refusal, or the state with the row behind the others. -/
def addRow (sizeMax : ℕ) (fails : Bool) (st : CorpusState) (row : List Signed) : Outcome CorpusState :=
  let dim := if st.dim = 0 then row.length else st.dim
  if row.length ≠ dim then
    .refused (ascii "fractalsql: corpus row " ++ decimal st.nRows ++ ascii " has dim " ++ decimal row.length ++
      ascii ", expected " ++ decimal dim)
  else
    match growStore sizeMax fails st dim with
    | .error e => .refused e
    | .ok (store, cap) =>
      match store.copyAt (st.nRows * dim % (sizeMax + 1)) (dim * 8 % (sizeMax + 1) / 8) row with
      | none => .outside
      | some store => .done ⟨store, cap, (st.nRows + 1) % (sizeMax + 1), dim⟩

/-- The loop over the sections, from the `k`th on. -/
def addRows (underflow : ℚ → Bool) (res : Resources) (sizeMax : ℕ) : ℕ → CorpusState → List Bytes → Outcome CorpusState
  | _, st, [] => .done st
  | k, st, s :: rest =>
    if res.interrupted k then .refused (ascii "fractalsql: interrupted")
    else if trimRow s = [] then addRows underflow res sizeMax (k + 1) st rest
    else
      match res.rowStops k, parseVector underflow (trimRow s) with
      | some e, _ => .refused e
      | none, .refused e => .refused e
      | none, .outside => .outside
      | none, .done row =>
        match addRow sizeMax (res.reallocFails k) st row with
        | .refused e => .refused e
        | .outside => .outside
        | .done st => addRows underflow res sizeMax (k + 1) st rest

/-- What is written through the pointers of the caller. -/
structure CorpusOut where
  array : List Signed
  nRows : ℕ
  dim : ℕ

/-- `parse_corpus` with its array: how it ends, and what the caller's variables are then. -/
def parseCorpusInto (underflow : ℚ → Bool) (res : Resources) (sizeMax : ℕ) (src : Bytes) (expectedDim : ℕ) (out : CorpusOut) :
    Outcome Unit × CorpusOut :=
  let s := src.dropWhile isBlank
  if (corpusBody s).all isBlankOrBracket then (.done (), ⟨[], 0, expectedDim⟩)
  else
    match addRows underflow res sizeMax 0 ⟨.alloc 0, 0, 0, expectedDim⟩ (cutSections (inBrackets s) [] (corpusBody s)) with
    | .done st => (.done (), ⟨st.store.contents, st.nRows, st.dim⟩)
    | .refused e => (.refused e, out)
    | .outside => (.outside, out)

/-! ### Capacities -/

/-- The rows that there is room for when `n` have been added. -/
def capacity : ℕ → ℕ
  | 0 => 0
  | n + 1 => if n = capacity n then (if capacity n = 0 then 16 else capacity n * 2) else capacity n

theorem capacity_succ_le (n : ℕ) : capacity n ≤ capacity (n + 1) := by
  rw [capacity]
  split_ifs <;> omega

theorem capacity_mono {n k : ℕ} (h : n ≤ k) : capacity n ≤ capacity k := by
  induction h with
  | refl => exact le_rfl
  | step _ ih => exact ih.trans (capacity_succ_le _)

theorem le_capacity (n : ℕ) : n ≤ capacity n := by
  induction n with
  | zero => exact le_rfl
  | succ n ih =>
    rw [capacity]
    split_ifs <;> omega

theorem capacity_pos (n : ℕ) : capacity (n + 1) ≠ 0 := by
  have hle := le_capacity (n + 1)
  omega

/-- The guard computes without wrapping. -/
theorem mulOk_iff {sizeMax a b c : ℕ} (ha : 0 < a) (hc : 0 < c) (hb : 0 < b) : mulOk sizeMax a b c = true ↔ a * b * c ≤ sizeMax := by
  rw [mulOk]
  by_cases hab : sizeMax < a * b
  · have hdiv : sizeMax / a < b := (Nat.div_lt_iff_lt_mul ha).mpr (by rwa [Nat.mul_comm])
    rw [if_pos ⟨ha.ne', hdiv⟩]
    have hle : a * b ≤ a * b * c := Nat.le_mul_of_pos_right _ hc
    constructor
    · nofun
    · intro h
      omega
  · have hdiv : ¬ sizeMax / a < b := by
      rw [Nat.div_lt_iff_lt_mul ha, Nat.mul_comm]
      exact hab
    rw [if_neg fun h => hdiv h.2, Nat.mod_eq_of_lt (by omega)]
    by_cases habc : sizeMax < a * b * c
    · rw [if_pos ⟨hc.ne', (Nat.div_lt_iff_lt_mul hc).mpr habc⟩]
      constructor
      · nofun
      · intro h
        omega
    · rw [if_neg fun h => habc ((Nat.div_lt_iff_lt_mul hc).mp h.2)]
      exact iff_of_true rfl (by omega)

/-! ### One row -/

/-- The array holds the rows one after the other, and has the size that the variables say. -/
structure StoreHolds (sizeMax : ℕ) (st : CorpusState) (rows : List (List Signed)) : Prop where
  holds : st.store.Holds rows.flatten
  cells : st.store.cells.length = st.capRows * st.dim
  size : st.capRows * st.dim * 8 ≤ sizeMax
  cap : st.capRows = capacity rows.length
  count : st.nRows = rows.length
  lengths : ∀ row ∈ rows, row.length = st.dim
  dim : rows ≠ [] → st.dim ≠ 0

section
variable {sizeMax : ℕ} {st : CorpusState} {rows : List (List Signed)}

theorem storeHolds_initial (sizeMax dim : ℕ) : StoreHolds sizeMax ⟨.alloc 0, 0, 0, dim⟩ [] where
  holds := GrowBuffer.holds_alloc 0
  cells := (Nat.zero_mul dim).symm
  size := by simp
  cap := rfl
  count := rfl
  lengths := List.forall_mem_nil _
  dim h := absurd rfl h

theorem StoreHolds.length (h : StoreHolds sizeMax st rows) : rows.flatten.length = rows.length * st.dim := by
  have hlengths : rows.map List.length = List.replicate rows.length st.dim := by
    rw [List.eq_replicate_iff, List.length_map]
    exact ⟨rfl, List.forall_mem_map.mpr h.lengths⟩
  rw [List.length_flatten, hlengths, List.sum_replicate, smul_eq_mul]

/-- An array of a new size, which is computed without wrapping. -/
theorem realloc_spec {b : GrowBuffer Signed} {xs : List Signed} (h : b.Holds xs) {n dim : ℕ} (hsize : n * dim * 8 ≤ sizeMax)
    (hxs : xs.length ≤ n * dim) : (b.realloc (n * dim * 8 % (sizeMax + 1) / 8)).Holds xs ∧
      (b.realloc (n * dim * 8 % (sizeMax + 1) / 8)).cells.length = n * dim := by
  have hbytes : n * dim * 8 % (sizeMax + 1) / 8 = n * dim := by
    rw [Nat.mod_eq_of_lt (Nat.lt_succ_of_le hsize), Nat.mul_div_cancel _ (by decide)]
  rw [hbytes]
  exact ⟨h.realloc hxs, GrowBuffer.realloc_length _ _⟩

/-- The array gets room for one more row exactly when its new size fits. -/
theorem growStore_spec (h : StoreHolds sizeMax st rows) {dim : ℕ} (hdim : 0 < dim) (hsame : rows ≠ [] → dim = st.dim) :
    (capacity (rows.length + 1) * dim * 8 ≤ sizeMax → ∃ store,
      growStore sizeMax false st dim = .ok (store, capacity (rows.length + 1)) ∧
      store.Holds rows.flatten ∧ store.cells.length = capacity (rows.length + 1) * dim) ∧
    (¬ capacity (rows.length + 1) * dim * 8 ≤ sizeMax → growStore sizeMax false st dim = .error tooLarge) := by
  rw [growStore, h.count, h.cap]
  by_cases hfull : rows.length = capacity rows.length
  · rw [if_pos hfull]
    by_cases hzero : capacity rows.length = 0
    · -- the first allocation
      have hrows : rows = [] := List.length_eq_zero_iff.mp (hfull.trans hzero)
      have hnext : capacity (rows.length + 1) = 16 := by rw [capacity, if_pos hfull, if_pos hzero]
      rw [hnext]
      simp only [hzero, if_true, Nat.not_lt_zero, false_or]
      have hguard : mulOk sizeMax 16 dim 8 = true ↔ 16 * dim * 8 ≤ sizeMax := mulOk_iff (by decide) (by decide) hdim
      constructor
      · intro hsize
        rw [if_neg (by simp [hguard.mpr hsize])]
        obtain ⟨hholds, hcells⟩ := realloc_spec h.holds hsize (by rw [hrows]; exact Nat.zero_le _)
        exact ⟨_, rfl, hholds, hcells⟩
      · intro hsize
        rw [if_pos (Bool.eq_false_iff.mpr fun hok => hsize (hguard.mp hok))]
    · have hrows : rows ≠ [] := by
        rintro rfl
        exact hzero rfl
      have hdimeq := hsame hrows
      have hnext : capacity (rows.length + 1) = capacity rows.length * 2 := by rw [capacity, if_pos hfull, if_neg hzero]
      have hcap : capacity rows.length ≤ sizeMax := by
        have hsize := h.size
        rw [h.cap, ← hdimeq] at hsize
        calc capacity rows.length ≤ capacity rows.length * dim := Nat.le_mul_of_pos_right _ hdim
          _ ≤ capacity rows.length * dim * 8 := Nat.le_mul_of_pos_right _ (by decide)
          _ ≤ sizeMax := hsize
      rw [hnext]
      simp only [if_neg hzero]
      have hguard : mulOk sizeMax (capacity rows.length * 2) dim 8 = true ↔ capacity rows.length * 2 * dim * 8 ≤ sizeMax :=
        mulOk_iff (by omega) (by decide) hdim
      constructor
      · intro hsize
        have hlt : capacity rows.length * 2 ≤ sizeMax :=
          calc capacity rows.length * 2 ≤ capacity rows.length * 2 * dim := Nat.le_mul_of_pos_right _ hdim
            _ ≤ capacity rows.length * 2 * dim * 8 := Nat.le_mul_of_pos_right _ (by decide)
            _ ≤ sizeMax := hsize
        have hmod : capacity rows.length * 2 % (sizeMax + 1) = capacity rows.length * 2 := Nat.mod_eq_of_lt (by omega)
        have hgrows : ¬ (capacity rows.length * 2 < capacity rows.length ∨
            mulOk sizeMax (capacity rows.length * 2) dim 8 = false) := by
          rintro (hless | hno)
          · omega
          · rw [hguard.mpr hsize] at hno
            cases hno
        have hroom : rows.flatten.length ≤ capacity rows.length * 2 * dim := by
          rw [h.length, ← hdimeq]
          exact Nat.mul_le_mul_right _ (by omega)
        obtain ⟨hholds, hcells⟩ := realloc_spec h.holds hsize hroom
        rw [hmod, if_neg hgrows]
        exact ⟨_, rfl, hholds, hcells⟩
      · intro hsize
        refine if_pos ?_
        by_cases hwrap : sizeMax < capacity rows.length * 2
        · left
          rw [Nat.mod_eq_sub_mod (by omega), Nat.mod_eq_of_lt (by omega)]
          omega
        · right
          rw [Nat.mod_eq_of_lt (by omega)]
          exact Bool.eq_false_iff.mpr fun hok => hsize (hguard.mp hok)
  · rw [if_neg hfull]
    have hrows : rows ≠ [] := by
      rintro rfl
      exact hfull rfl
    have hnext : capacity (rows.length + 1) = capacity rows.length := by rw [capacity, if_neg hfull]
    have hsize := h.size
    have hcells := h.cells
    rw [h.cap, ← hsame hrows] at hsize hcells
    rw [hnext]
    exact ⟨fun _ => ⟨st.store, rfl, h.holds, hcells⟩, fun hno => absurd hsize hno⟩

/-- A row of the right length is added, and the copy stays in the array, or the array is too large. -/
theorem addRow_spec (h : StoreHolds sizeMax st rows) {row : List Signed} (hne : row ≠ [])
    (hlen : row.length = if st.dim = 0 then row.length else st.dim) :
    (capacity (rows.length + 1) * row.length * 8 ≤ sizeMax → ∃ st', addRow sizeMax false st row = .done st' ∧
      StoreHolds sizeMax st' (rows ++ [row]) ∧ st'.dim = row.length) ∧
    (¬ capacity (rows.length + 1) * row.length * 8 ≤ sizeMax → addRow sizeMax false st row = .refused tooLarge) := by
  have hpos : 0 < row.length := List.length_pos_iff.mpr hne
  have hsame : rows ≠ [] → row.length = st.dim := fun hrows => by rwa [if_neg (h.dim hrows)] at hlen
  obtain ⟨hfits, hrefused⟩ := growStore_spec h hpos hsame
  rw [addRow, ← hlen]
  simp only [ne_eq, not_true_eq_false, if_false]
  refine ⟨fun hsize => ?_, fun hsize => by rw [hrefused hsize]⟩
  obtain ⟨store, hgrow, hholds, hcells⟩ := hfits hsize
  have hcap := le_capacity (rows.length + 1)
  have hflat : rows.flatten.length = rows.length * row.length := by
    by_cases hrows : rows = []
    · rw [hrows]
      simp
    · rw [h.length, hsame hrows]
  have hroom : (rows.length + 1) * row.length ≤ capacity (rows.length + 1) * row.length := Nat.mul_le_mul_right _ hcap
  rw [Nat.succ_mul] at hroom
  have hone : row.length ≤ capacity (rows.length + 1) * row.length := by omega
  have hoffset : st.nRows * row.length % (sizeMax + 1) = store.used := by
    rw [h.count, hholds.used, hflat, Nat.mod_eq_of_lt (by omega)]
  have hcount : row.length * 8 % (sizeMax + 1) / 8 = row.length := by
    rw [Nat.mod_eq_of_lt (by omega), Nat.mul_div_cancel _ (by decide)]
  have hrowsmax : rows.length + 1 ≤ sizeMax := by
    have hle : capacity (rows.length + 1) ≤ capacity (rows.length + 1) * row.length := Nat.le_mul_of_pos_right _ hpos
    omega
  have hfit : rows.flatten.length + row.length ≤ store.cells.length := by
    rw [hflat, hcells]
    exact hroom
  obtain ⟨store', hstore, hholds', hcells'⟩ := hholds.store hfit
  rw [hgrow]
  dsimp only
  rw [hoffset, hcount, GrowBuffer.copyAt_eq_store, hstore]
  refine ⟨_, rfl, ?_, rfl⟩
  exact {
    holds := by rwa [List.flatten_append, List.flatten_singleton]
    cells := hcells'.trans hcells
    size := hsize
    cap := by rw [List.length_append, List.length_singleton]
    count := by
      dsimp only
      rw [h.count, Nat.mod_eq_of_lt (by omega), List.length_append, List.length_singleton]
    lengths := by
      rw [List.forall_mem_append, List.forall_mem_singleton]
      refine ⟨fun r hr => ?_, rfl⟩
      rw [h.lengths r hr, hsame (List.ne_nil_of_mem hr)]
    dim := fun _ => hpos.ne' }

theorem growStore_resources (sizeMax : ℕ) (fails : Bool) (st : CorpusState) (dim : ℕ) :
    growStore sizeMax fails st dim = growStore sizeMax false st dim ∨ ∃ e, growStore sizeMax fails st dim = .error e := by
  rw [growStore, growStore]
  by_cases hfull : st.nRows = st.capRows
  · rw [if_pos hfull, if_pos hfull]
    generalize (if st.capRows = 0 then 16 else st.capRows * 2 % (sizeMax + 1)) = ncap
    by_cases hsize : ncap < st.capRows ∨ mulOk sizeMax ncap dim 8 = false
    · exact .inr ⟨tooLarge, if_pos hsize⟩
    · cases fails with
      | false => exact .inl rfl
      | true => exact .inr ⟨_, if_neg hsize⟩
  · rw [if_neg hfull]
    exact .inl (if_neg hfull).symm

theorem addRow_resources (sizeMax : ℕ) (fails : Bool) (st : CorpusState) (row : List Signed) :
    addRow sizeMax fails st row = addRow sizeMax false st row ∨ ∃ e, addRow sizeMax fails st row = .refused e := by
  rw [addRow, addRow]
  generalize (if st.dim = 0 then row.length else st.dim) = dim
  by_cases hlen : row.length ≠ dim
  · exact .inr ⟨_, if_pos hlen⟩
  · simp only [if_neg hlen]
    rcases growStore_resources sizeMax fails st dim with h | ⟨e, h⟩
    · rw [h]
      exact .inl rfl
    · rw [h]
      exact .inr ⟨e, rfl⟩

end

/-! ### The loop -/

section
variable {underflow : ℚ → Bool} {sizeMax : ℕ}

theorem parseVectorCsv_ne_nil {s : Bytes} {row : List Signed} (h : parseVectorCsv underflow s = .ok row) : row ≠ [] := by
  rw [parseVectorCsv] at h
  split at h
  · cases h
  · cases h
  · rename_i hne heq
    cases h
    exact hne

/-- How the loop over the array ends when the rows are read so. -/
def Ends (sizeMax : ℕ) (rows : List (List Signed)) (result : Outcome CorpusState) : Except Bytes Corpus → Prop
  | .error e => result = .refused e ∨ result = .refused tooLarge
  | .ok c =>
    (capacity (rows.length + c.rows.length) * c.dim * 8 ≤ sizeMax →
      ∃ st, result = .done st ∧ StoreHolds sizeMax st (rows ++ c.rows) ∧ st.dim = c.dim) ∧
    (¬ capacity (rows.length + c.rows.length) * c.dim * 8 ≤ sizeMax → result = .refused tooLarge)

theorem Ends.cons {rows : List (List Signed)} {row : List Signed} {result : Outcome CorpusState} {r : Except Bytes Corpus}
    (h : Ends sizeMax (rows ++ [row]) result r) :
    Ends sizeMax rows result (r.map fun c => { c with rows := row :: c.rows }) := by
  cases r with
  | error e => exact h
  | ok c =>
    have hlen : (rows ++ [row]).length + c.rows.length = rows.length + (row :: c.rows).length := by
      rw [List.length_append, List.length_singleton, List.length_cons]
      omega
    have hrows : rows ++ [row] ++ c.rows = rows ++ row :: c.rows := by rw [List.append_assoc, List.singleton_append]
    rw [Ends, hlen, hrows] at h
    exact h

/-- An array that is too large for some rows is so for more. -/
theorem Ends.too_large {rows : List (List Signed)} {row : List Signed} {result : Outcome CorpusState} {ss : List Bytes} {n : ℕ}
    (hresult : result = .refused tooLarge) (hrow : row ≠ []) (hsize : ¬ capacity (rows.length + 1) * row.length * 8 ≤ sizeMax) :
    Ends sizeMax rows result ((parseRows underflow n row.length ss).map fun c => { c with rows := row :: c.rows }) := by
  have hdim : row.length ≠ 0 := (List.length_pos_iff.mpr hrow).ne'
  cases hread : parseRows underflow n row.length ss with
  | error e => exact .inr hresult
  | ok c =>
    have hcdim := ((parseRows_iff hdim).mp hread).1
    refine ⟨fun hfits => absurd ?_ hsize, fun _ => hresult⟩
    have hmono : capacity (rows.length + 1) ≤ capacity (rows.length + (row :: c.rows).length) :=
      capacity_mono (by rw [List.length_cons]; omega)
    calc capacity (rows.length + 1) * row.length * 8 ≤ capacity (rows.length + (row :: c.rows).length) * row.length * 8 :=
          Nat.mul_le_mul_right _ (Nat.mul_le_mul_right _ hmono)
      _ ≤ sizeMax := by rwa [← hcdim]

theorem addRows_quiet_cons (underflow : ℚ → Bool) (sizeMax k : ℕ) (st : CorpusState) (s : Bytes) (ss : List Bytes) :
    addRows underflow .quiet sizeMax k st (s :: ss) =
      if trimRow s = [] then addRows underflow .quiet sizeMax (k + 1) st ss
      else
        match parseVector underflow (trimRow s) with
        | .refused e => .refused e
        | .outside => .outside
        | .done row =>
          match addRow sizeMax false st row with
          | .refused e => .refused e
          | .outside => .outside
          | .done st => addRows underflow .quiet sizeMax (k + 1) st ss := by
  rw [addRows, Resources.quiet, if_neg Bool.false_ne_true]
  cases parseVector underflow (trimRow s) <;> rfl

/-- The array holds the rows that are read, or it is too large for them. -/
theorem addRows_spec {st : CorpusState} {rows : List (List Signed)} (h : StoreHolds sizeMax st rows) (k : ℕ) (ss : List Bytes) :
    Ends sizeMax rows (addRows underflow .quiet sizeMax k st ss) (parseRows underflow rows.length st.dim ss) := by
  induction ss generalizing k st rows with
  | nil =>
    refine ⟨fun _ => ⟨st, rfl, ?_, rfl⟩, fun hno => absurd ?_ hno⟩
    · rwa [List.append_nil]
    · have hsize := h.size
      rwa [h.cap] at hsize
  | cons s ss ih =>
    rw [addRows_quiet_cons, parseRows]
    by_cases hs : trimRow s = []
    · rw [if_pos hs, if_pos hs]
      exact ih h (k + 1)
    rw [if_neg hs, if_neg hs, parseVector_eq]
    cases hparse : parseVectorCsv underflow (trimRow s) with
    | error e => exact .inl rfl
    | ok row =>
      have hne := parseVectorCsv_ne_nil hparse
      dsimp only
      by_cases hlen : row.length = if st.dim = 0 then row.length else st.dim
      · obtain ⟨hfits, hrefused⟩ := addRow_spec h hne hlen
        rw [← hlen, if_neg (not_not.mpr rfl)]
        by_cases hsize : capacity (rows.length + 1) * row.length * 8 ≤ sizeMax
        · obtain ⟨st', hadd, hholds, hdim⟩ := hfits hsize
          have hmore := ih hholds (k + 1)
          rw [List.length_append, List.length_singleton, hdim] at hmore
          rw [hadd]
          exact hmore.cons
        · rw [hrefused hsize]
          exact .too_large rfl hne hsize
      · rw [if_pos hlen, addRow]
        simp only [ne_eq, hlen, not_false_eq_true, if_true, h.count]
        exact .inl rfl

/-- An interrupt or a lack of memory only adds refusals. -/
theorem addRows_resources (underflow : ℚ → Bool) (res : Resources) (sizeMax k : ℕ) (st : CorpusState) (ss : List Bytes) :
    addRows underflow res sizeMax k st ss = addRows underflow .quiet sizeMax k st ss ∨
      ∃ e, addRows underflow res sizeMax k st ss = .refused e := by
  induction ss generalizing k st with
  | nil => exact .inl rfl
  | cons s ss ih =>
    rw [addRows_quiet_cons, addRows]
    by_cases hpoll : res.interrupted k = true
    · exact .inr ⟨_, if_pos hpoll⟩
    rw [if_neg hpoll]
    by_cases hs : trimRow s = []
    · rw [if_pos hs, if_pos hs]
      exact ih (k + 1) st
    rw [if_neg hs, if_neg hs]
    cases res.rowStops k with
    | some e => exact .inr ⟨e, rfl⟩
    | none =>
      cases parseVector underflow (trimRow s) with
      | refused e => exact .inl rfl
      | outside => exact .inl rfl
      | done row =>
        rcases addRow_resources sizeMax (res.reallocFails k) st row with hadd | ⟨e, hadd⟩
        · dsimp only
          rw [hadd]
          cases addRow sizeMax false st row with
          | refused e => exact .inl rfl
          | outside => exact .inl rfl
          | done st => exact ih (k + 1) st
        · right
          dsimp only
          rw [hadd]
          exact ⟨e, rfl⟩

theorem parseCorpusInto_resources (underflow : ℚ → Bool) (res : Resources) (sizeMax : ℕ) (src : Bytes) (expectedDim : ℕ) (out : CorpusOut) :
    parseCorpusInto underflow res sizeMax src expectedDim out = parseCorpusInto underflow .quiet sizeMax src expectedDim out ∨
      ∃ e, parseCorpusInto underflow res sizeMax src expectedDim out = (.refused e, out) := by
  simp only [parseCorpusInto]
  split_ifs with hblank
  · exact .inl rfl
  · rcases addRows_resources underflow res sizeMax 0 ⟨.alloc 0, 0, 0, expectedDim⟩
      (cutSections (inBrackets (src.dropWhile isBlank)) [] (corpusBody (src.dropWhile isBlank))) with h | ⟨e, h⟩
    · rw [h]
      exact .inl rfl
    · rw [h]
      exact .inr ⟨e, rfl⟩

/-- `parse_corpus` with its array reads what the rows are read as, unless the array is too large. -/
theorem parseCorpusInto_spec (underflow : ℚ → Bool) (sizeMax : ℕ) (src : Bytes) (expectedDim : ℕ) (out : CorpusOut) :
    match parseCorpus underflow src expectedDim with
    | .error e => parseCorpusInto underflow .quiet sizeMax src expectedDim out = (.refused e, out) ∨
        parseCorpusInto underflow .quiet sizeMax src expectedDim out = (.refused tooLarge, out)
    | .ok c => (capacity c.rows.length * c.dim * 8 ≤ sizeMax →
          parseCorpusInto underflow .quiet sizeMax src expectedDim out = (.done (), ⟨c.rows.flatten, c.rows.length, c.dim⟩)) ∧
        (¬ capacity c.rows.length * c.dim * 8 ≤ sizeMax →
          parseCorpusInto underflow .quiet sizeMax src expectedDim out = (.refused tooLarge, out)) := by
  rw [parseCorpus]
  simp only [parseCorpusInto]
  by_cases hblank : (corpusBody (src.dropWhile isBlank)).all isBlankOrBracket = true
  · simp only [if_pos hblank]
    refine ⟨fun _ => rfl, fun hno => absurd ?_ hno⟩
    simp [capacity]
  · simp only [if_neg hblank]
    generalize cutSections (inBrackets (src.dropWhile isBlank)) [] (corpusBody (src.dropWhile isBlank)) = ss
    have hends : Ends sizeMax [] (addRows underflow .quiet sizeMax 0 ⟨.alloc 0, 0, 0, expectedDim⟩ ss) (parseRows underflow 0 expectedDim ss) :=
      addRows_spec (storeHolds_initial sizeMax expectedDim) 0 ss
    cases hread : parseRows underflow 0 expectedDim ss with
    | error e =>
      rw [hread] at hends
      rcases hends with hrefused | hrefused
      · left
        rw [hrefused]
      · right
        rw [hrefused]
    | ok c =>
      rw [hread, Ends, List.length_nil, Nat.zero_add] at hends
      constructor
      · intro hsize
        obtain ⟨st, hdone, hholds, hdim⟩ := hends.1 hsize
        rw [hdone]
        dsimp only
        rw [hholds.holds.contents, hholds.count, hdim, List.nil_append]
      · intro hsize
        rw [hends.2 hsize]

/-- Every spelling of some rows is read as these rows, one after the other; on any source the copies stay in the array, and
a refusal leaves the caller's variables as they were. -/
theorem corpus_spellings (underflow : ℚ → Bool) (sizeMax : ℕ) :
    (∀ rows src dim expectedDim out, CorpusSpelling underflow rows src → (∀ row ∈ rows, row.length = dim) → dim ≤ maxElems →
      capacity rows.length * dim * 8 ≤ sizeMax → expectedDim = 0 ∨ expectedDim = dim →
      parseCorpusInto underflow .quiet sizeMax src expectedDim out =
        (.done (), ⟨rows.flatten, rows.length, if rows = [] then expectedDim else dim⟩)) ∧
    ∀ res src expectedDim out, (parseCorpusInto underflow res sizeMax src expectedDim out).1 ≠ .outside ∧
      ∀ e, (parseCorpusInto underflow res sizeMax src expectedDim out).1 = .refused e →
        (parseCorpusInto underflow res sizeMax src expectedDim out).2 = out := by
  constructor
  · intro rows src dim expectedDim out hspelling hall hmax hsize hexpected
    have hspec := parseCorpusInto_spec underflow sizeMax src expectedDim out
    rw [parseCorpus_spelling hspelling hall hmax hexpected] at hspec
    refine hspec.1 ?_
    split_ifs with hrows
    · rw [hrows]
      simp [capacity]
    · exact hsize
  · intro res src expectedDim out
    rcases parseCorpusInto_resources underflow res sizeMax src expectedDim out with hquiet | ⟨e, hrefused⟩
    · rw [hquiet]
      have hspec := parseCorpusInto_spec underflow sizeMax src expectedDim out
      cases hread : parseCorpus underflow src expectedDim with
      | error e =>
        rw [hread] at hspec
        rcases hspec with h | h <;> (rw [h]; exact ⟨nofun, fun _ _ => rfl⟩)
      | ok c =>
        rw [hread] at hspec
        by_cases hsize : capacity c.rows.length * c.dim * 8 ≤ sizeMax
        · rw [hspec.1 hsize]
          exact ⟨nofun, nofun⟩
        · rw [hspec.2 hsize]
          exact ⟨nofun, fun _ _ => rfl⟩
    · rw [hrefused]
      exact ⟨nofun, fun _ _ => rfl⟩

/-! ### Rows that are too long -/

theorem elements_too_many {fuel n : ℕ} {p : Bytes} {vs : List Signed} (h : numbers underflow isFiller p = some vs)
    (hn : n ≤ maxElems) (hmax : maxElems < n + vs.length) (hfuel : p.length ≤ fuel) :
    ∃ e, parseElements underflow fuel n p = .error e := by
  induction fuel generalizing n p vs with
  | zero =>
    rw [List.length_eq_zero_iff.mp (Nat.le_zero.mp hfuel)] at h
    cases h
    exact absurd hmax (by rw [List.length_nil]; omega)
  | succ fuel ih =>
    rw [numbers_eq] at h
    rw [parseElements]
    by_cases hdrop : p.dropWhile isFiller = []
    · rw [if_pos hdrop] at h
      cases h
      exact absurd hmax (by rw [List.length_nil]; omega)
    · rw [if_neg hdrop] at h
      obtain ⟨r, hstr, hr⟩ := Option.bind_eq_some_iff.mp h
      split_ifs at hr with hbad
      obtain ⟨ws, hws, rfl⟩ := Option.map_eq_some_iff.mp hr
      rw [Bool.or_eq_true, not_or] at hbad
      rw [List.length_cons] at hmax
      have hrest := (strtod_length hstr).trans_le (dropWhile_length_le isFiller p)
      simp only [if_neg hdrop, hstr]
      rw [if_neg hbad.1, if_neg hbad.2]
      by_cases hfull : n = maxElems
      · exact ⟨_, if_pos hfull⟩
      · obtain ⟨e, he⟩ := ih hws (n := n + 1) (by omega) (by omega) (by omega)
        rw [if_neg hfull, he]
        exact ⟨e, rfl⟩

/-- A row of more elements than a vector may have. -/
theorem parse_too_many {s : Bytes} {row : List Signed} (h : numbers underflow isFiller s = some row) (hnul : 0 ∉ s)
    (hmax : maxElems < row.length) : ∃ e, parseVectorCsv underflow s = .error e := by
  obtain ⟨e, he⟩ := elements_too_many h (Nat.zero_le _) (by rwa [Nat.zero_add]) le_rfl
  rw [parseVectorCsv, cCopy_of_nulFree hnul, he]
  exact ⟨e, rfl⟩

/-- A corpus of one row, which is too long. -/
theorem long_row_refused {row : List Signed} {t : Bytes} (h : RowText underflow row t) (hmax : maxElems < row.length)
    (expectedDim : ℕ) : ∃ e, parseCorpus underflow t expectedDim = .error e := by
  have htexts : RowTexts (RowText underflow) 59 [row] t := .last h
  have hdrop := (rowText_isForm.blank row t h).2
  have hinner := htexts.inner rowText_isForm
  have hbody : corpusBody (t.dropWhile isBlank) = t.dropWhile isBlank := by
    rw [corpusBody, hinner, if_neg Bool.false_ne_true]
  have hcut : cutSections false [] (t.dropWhile isBlank ++ []) = cutSections false ([] ++ t.dropWhile isBlank) [] :=
    cutSections_pass (rowText_isForm.semicolon row _ hdrop) (fun h => absurd h Bool.false_ne_true) [] []
  rw [List.append_nil, List.nil_append, cutSections] at hcut
  have hnumbers := (numbers_trimmed (t.dropWhile isBlank)).trans hdrop.numbers
  have hpresent : trimRow (t.dropWhile isBlank) ≠ [] := by
    intro hnil
    rw [hnil] at hnumbers
    exact h.ne_nil (Option.some.inj hnumbers).symm
  obtain ⟨e, he⟩ := parse_too_many hnumbers (fun hmem => rowText_isForm.nul row _ hdrop (mem_trimRow hmem)) hmax
  rw [parseCorpus]
  simp only [hbody, if_neg ((htexts.dropWhile rowText_isForm).not_blank rowText_isForm), hinner, hcut, parseRows,
    if_neg hpresent, he]
  exact ⟨e, rfl⟩

end

def one : Signed := ⟨false, 1023 * 2 ^ 52⟩

theorem one_isToken : IsToken (fun _ => true) (ascii "1") one where
  reads := by
    have hread : (strtod (fun _ => true) (ascii "1")).map (fun r => (r.value, r.outOfRange, r.rest)) = some (one, false, []) := by
      decide +kernel
    obtain ⟨⟨value, outOfRange, rest⟩, hr, heq⟩ := Option.map_eq_some_iff.mp hread
    obtain ⟨rfl, rfl, rfl⟩ : value = one ∧ outOfRange = false ∧ rest = [] := by simpa using heq
    exact hr
  finite := by decide +kernel
  begins := by decide +kernel

/-- So many ones, and one more. -/
def onesText : ℕ → Bytes
  | 0 => ascii "1"
  | n + 1 => ascii "1" ++ 44 :: onesText n

theorem onesText_row (n : ℕ) : RowText (fun _ => true) (List.replicate (n + 1) one) (onesText n) := by
  have hnone : Blanks [] := List.forall_mem_nil _
  induction n with
  | zero => exact .last hnone one_isToken hnone
  | succ n ih => exact .more hnone one_isToken hnone ih

/-- Two rows of one number. -/
theorem two_rows_read : parseCorpusInto (fun _ => true) .quiet 65535 (ascii "[[1],[1]]") 0 ⟨[], 7, 7⟩ = (.done (), ⟨[one, one], 2, 1⟩) := by
  have hnone : Blanks [] := List.forall_mem_nil _
  have hrow : RowArray (fun _ => true) [one] (ascii "[1]") := .mk hnone (.last hnone one_isToken hnone) hnone
  have hspelling : CorpusSpelling (fun _ => true) [[one], [one]] (ascii "[[1],[1]]") :=
    .nested hnone (.more hrow (.last hrow)) hnone
  have hall : ∀ row ∈ [[one], [one]], row.length = 1 := by decide
  exact (corpus_spellings (fun _ => true) 65535).1 _ _ 1 0 _ hspelling hall (by decide) (by decide) (.inl rfl)

theorem onesText_refused {n : ℕ} (hn : maxElems < n + 1) (res : Resources) (sizeMax expectedDim : ℕ) (out : CorpusOut) :
    (parseCorpusInto (fun _ => true) res sizeMax (onesText n) expectedDim out).1 ≠ .done () := by
  have hlong : maxElems < (List.replicate (n + 1) one).length := by rwa [List.length_replicate]
  obtain ⟨e, he⟩ := long_row_refused (onesText_row n) hlong expectedDim
  rcases parseCorpusInto_resources (fun _ => true) res sizeMax (onesText n) expectedDim out with hquiet | ⟨e', hrefused⟩
  · have hspec := parseCorpusInto_spec (fun _ => true) sizeMax (onesText n) expectedDim out
    rw [he] at hspec
    rw [hquiet]
    rcases hspec with h | h <;> (rw [h]; exact nofun)
  · rw [hrefused]
    exact nofun

theorem onesText_spelling (n : ℕ) : CorpusSpelling (fun _ => true) [List.replicate (n + 1) one] (onesText n) :=
  .plain (.last (onesText_row n))

/-- A list of one row of 1048577 numbers. -/
theorem long_list_refused : CorpusSpelling (fun _ => true) [List.replicate (maxElems + 1) one] (onesText maxElems) ∧
    ∀ res sizeMax expectedDim out,
      (parseCorpusInto (fun _ => true) res sizeMax (onesText maxElems) expectedDim out).1 ≠ .done () :=
  ⟨onesText_spelling maxElems, onesText_refused (Nat.lt_succ_self maxElems)⟩

end FractalSQL.Vectors
