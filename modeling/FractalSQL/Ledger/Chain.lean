import FractalSQL.Ledger.Walkers

/-!
# What the walkers compute on a framed file

A file whose records are all complete is the concatenation of their encodings,
up to a tail too short to hold a kind field. On such a file each walker is a
fold over the records, and the full walk finds no fault exactly when the
records of its kind are sound and hash-linked from the genesis sentinel.
-/
namespace FractalSQL.Ledger
open Lib

/-- The complete records at the start of a stream. -/
def recordsOf (fp : Bytes) : List Record :=
  match h : nextRecord fp with
  | .record r rest =>
    have := nextRecord_rest_lt h
    r :: recordsOf rest
  | _ => []
termination_by fp.length

theorem recordsOf_eq (fp : Bytes) : recordsOf fp = match nextRecord fp with
      | .record r rest => r :: recordsOf rest
      | _ => [] := by
  rw [recordsOf]
  split <;> simp [*]

@[simp] theorem recordsOf_nil : recordsOf [] = [] := by
  rw [recordsOf_eq, nextRecord_eq_eof.mpr (by simp)]

def kindRecords (k : UInt32) (rs : List Record) : List Record := rs.filter (fun r => r.kind = k)

@[simp] theorem kindRecords_nil (k : UInt32) : kindRecords k [] = [] := rfl

theorem kindRecords_cons (k : UInt32) (r : Record) (rs : List Record) :
    kindRecords k (r :: rs) = if r.kind = k then r :: kindRecords k rs else kindRecords k rs := by
  by_cases h : r.kind = k <;> simp [kindRecords, h]

@[simp] theorem kindRecords_append (k : UInt32) (rs ss : List Record) :
    kindRecords k (rs ++ ss) = kindRecords k rs ++ kindRecords k ss := List.filter_append ..

theorem kindRecords_length_le (k : UInt32) (rs : List Record) :
    (kindRecords k rs).length ≤ rs.length := List.length_filter_le ..

/-- All records read whole, with at most three stray bytes after them. -/
structure Framed (fp : Bytes) (rs : List Record) (tail : Bytes) : Prop where
  bytes : fp = encodeAll rs ++ tail
  fits : ∀ r ∈ rs, r.Fits
  tailShort : tail.length < 4

theorem framed_encodeAll {rs : List Record} (hfit : ∀ r ∈ rs, r.Fits) :
    Framed (encodeAll rs) rs [] := ⟨by simp, hfit, by simp⟩

theorem recordsOf_append {rs : List Record} (hfit : ∀ r ∈ rs, r.Fits) (tail : Bytes) :
    recordsOf (encodeAll rs ++ tail) = rs ++ recordsOf tail := by
  induction rs with
  | nil => rfl
  | cons r rs ih =>
    rw [encodeAll_cons, List.append_assoc, recordsOf_eq,
      nextRecord_encode r (hfit r (by simp))]
    exact congrArg (r :: ·) (ih (fun s hs => hfit s (by simp [hs])))

theorem Framed.records_eq {fp tail : Bytes} {rs : List Record} (h : Framed fp rs tail) :
    recordsOf fp = rs := by
  have htail : recordsOf tail = [] := by
    rw [recordsOf_eq, nextRecord_eq_eof.mpr h.tailShort]
  rw [h.bytes, recordsOf_append h.fits, htail, List.append_nil]

/-! ### The scan -/

theorem scanLoop_append {rs : List Record} (hfit : ∀ r ∈ rs, r.Fits) (want : UInt32)
    (tail : Bytes) (acc : ScanResult) :
    scanLoop want (encodeAll rs ++ tail) acc = scanLoop want tail (rs.foldl (ScanResult.see want) acc) := by
  induction rs generalizing acc with
  | nil => rfl
  | cons r rs ih =>
    rw [encodeAll_cons, List.append_assoc, scanLoop_eq,
      nextRecord_encode r (hfit r (by simp))]
    exact ih (fun s hs => hfit s (by simp [hs])) _

theorem scanLoop_eof {fp : Bytes} (h : fp.length < 4) (want : UInt32) (acc : ScanResult) :
    scanLoop want fp acc = some acc := by
  rw [scanLoop_eq, nextRecord_eq_eof.mpr h]

/-- The scan's outputs on a list of records: the last two of the wanted kind
and the two record counts. -/
theorem foldl_see (want : UInt32) (rs : List Record) :
    rs.foldl (ScanResult.see want) {} =
      { latest := (kindRecords want rs).getLast?,
        prior := (kindRecords want rs).dropLast.getLast?,
        records := rs.length, kindRecords := (kindRecords want rs).length } := by
  induction rs using List.reverseRecOn with
  | nil => rfl
  | append_singleton rs r ih =>
    rw [List.foldl_append, ih]
    by_cases hk : r.kind = want
    · simp [ScanResult.see, kindRecords_cons, hk]
    · simp [ScanResult.see, kindRecords_cons, hk]

theorem Framed.scan {fp tail : Bytes} {rs : List Record} (h : Framed fp rs tail) (want : UInt32) :
    ledgerScanLatestTwo want fp = some
      { latest := (kindRecords want rs).getLast?,
        prior := (kindRecords want rs).dropLast.getLast?,
        records := rs.length, kindRecords := (kindRecords want rs).length } := by
  rw [ledgerScanLatestTwo, h.bytes, scanLoop_append h.fits, scanLoop_eof h.tailShort, foldl_see]

/-! ### The repair -/

theorem repairLoop_append {rs : List Record} (hfit : ∀ r ∈ rs, r.Fits) (tail : Bytes) (offset : ℕ) :
    repairLoop (encodeAll rs ++ tail) offset = repairLoop tail (offset + (encodeAll rs).length) := by
  induction rs generalizing offset with
  | nil => rfl
  | cons r rs ih =>
    rw [encodeAll_cons, List.append_assoc, repairLoop_eq,
      nextRecord_encode r (hfit r (by simp))]
    simp only [ih (fun s hs => hfit s (by simp [hs])), List.length_append]
    congr 1
    omega

/-! ### The full walk -/

section Verify
variable (crypto : Crypto) (key : Option Bytes)

/-- What the walk checks of one record by itself: with a key its MAC is there
and is the right one, and its entry hash is the digest of what it says. -/
@[mk_iff] structure Record.Sound (r : Record) : Prop where
  keyed : ∀ k ∈ key, r.hasMac ≠ 0 ∧ crypto.hmacSha256 k r.blob = r.mac
  digest : crypto.sha256 r.preimage = r.entryHash

instance (r : Record) : Decidable (r.Sound crypto key) :=
  decidable_of_iff _ (Record.sound_iff crypto key r).symm

theorem recordFault_eq_none {g : Hash} {r : Record} :
    recordFault crypto key g r = none ↔ r.Sound crypto key ∧ r.prevHash = g := by
  unfold recordFault
  cases key with
  | none =>
    by_cases hd : crypto.sha256 r.preimage = r.entryHash <;> by_cases hp : r.prevHash = g <;>
      simp [hd, hp, Record.sound_iff]
  | some k =>
    by_cases hm : r.hasMac = 0 <;> by_cases hh : crypto.hmacSha256 k r.blob = r.mac <;>
      by_cases hd : crypto.sha256 r.preimage = r.entryHash <;>
        simp [hm, hh, hd, Record.sound_iff]

/-- The records of kind `k`, sound and linked from `g`. -/
@[mk_iff] structure ChainFrom (k : UInt32) (g : Hash) (rs : List Record) : Prop where
  sound : ∀ r ∈ kindRecords k rs, r.Sound crypto key
  linked : Linked Record.prevHash Record.entryHash g (kindRecords k rs)

variable {crypto key}

theorem chainFrom_nil (k : UInt32) (g : Hash) : ChainFrom crypto key k g [] :=
  ⟨by simp, by simp⟩

theorem chainFrom_cons {k : UInt32} {g : Hash} {r : Record} {rs : List Record} :
    ChainFrom crypto key k g (r :: rs) ↔
      if r.kind = k then recordFault crypto key g r = none ∧ ChainFrom crypto key k r.entryHash rs
      else ChainFrom crypto key k g rs := by
  rw [recordFault_eq_none]
  by_cases hk : r.kind = k
  · simp only [chainFrom_iff, kindRecords_cons, hk, if_true, List.forall_mem_cons, linked_cons]
    tauto
  · simp only [chainFrom_iff, kindRecords_cons, hk, if_false]

/-- The chain end of kind `k`: what its next record has to link to. -/
def chainEnd (k : UInt32) (g : Hash) (rs : List Record) : Hash :=
  endHash Record.entryHash g (kindRecords k rs)

/-- A sound chain is walked to its end, counting its records. -/
theorem verifyLoop_append {rs : List Record} (hfit : ∀ r ∈ rs, r.Fits) {k : UInt32} {g : Hash}
    (hc : ChainFrom crypto key k g rs) (tail : Bytes) (n seen : ℕ) :
    verifyLoop crypto key k (encodeAll rs ++ tail) n seen g =
      verifyLoop crypto key k tail (n + (kindRecords k rs).length) (seen + rs.length)
        (chainEnd k g rs) := by
  induction rs generalizing g n seen with
  | nil => rfl
  | cons r rs ih =>
    have hfit' : ∀ s ∈ rs, s.Fits := fun s hs => hfit s (by simp [hs])
    rw [chainFrom_cons] at hc
    rw [encodeAll_cons, List.append_assoc, verifyLoop_eq,
      nextRecord_encode r (hfit r (by simp))]
    by_cases hk : r.kind = k
    · simp only [hk, if_true] at hc
      simp only [hk, ne_eq, not_true, if_false, hc.1, ih hfit' hc.2, kindRecords_cons, if_true,
        List.length_cons, chainEnd, endHash_cons]
      congr 1 <;> omega
    · simp only [hk, if_false] at hc
      simp only [hk, ne_eq, not_false_eq_true, if_true, ih hfit' hc, kindRecords_cons, if_false,
        List.length_cons, chainEnd]
      congr 1
      omega

theorem verifyLoop_eof {fp : Bytes} (h : fp.length < 4) (k : UInt32) (n seen : ℕ) (g : Hash) :
    verifyLoop crypto key k fp n seen g = ⟨n, none⟩ := by
  rw [verifyLoop_eq, nextRecord_eq_eof.mpr h]

theorem Framed.verifyWalk_eq {fp tail : Bytes} {rs : List Record} (h : Framed fp rs tail)
    {k : UInt32} (hc : ChainFrom crypto key k zeroHash rs) :
    verifyWalk crypto key k fp = ⟨(kindRecords k rs).length, none⟩ := by
  rw [verifyWalk, h.bytes, verifyLoop_append h.fits hc, verifyLoop_eof h.tailShort, Nat.zero_add]

/-- A walk that finds no fault has read a framed file with a sound chain. -/
theorem verifyLoop_clean {k : UInt32} {fp : Bytes} {n seen : ℕ} {g : Hash}
    (h : (verifyLoop crypto key k fp n seen g).fault = none) :
    ∃ rs tail, Framed fp rs tail ∧ ChainFrom crypto key k g rs := by
  -- The induction is the walk's own: on the bytes that remain.
  induction hlen : fp.length using Nat.strong_induction_on generalizing fp n seen g with
  | _ len ih =>
    rw [verifyLoop_eq] at h
    cases hr : nextRecord fp with
    | eof => exact ⟨[], fp, ⟨rfl, by simp, nextRecord_eq_eof.mp hr⟩, chainFrom_nil k g⟩
    | shortHeader => simp [hr] at h
    | lengthOutOfRange => simp [hr] at h
    | shortBlob => simp [hr] at h
    | record r rest =>
      have hlt : rest.length < len := hlen ▸ nextRecord_rest_lt hr
      obtain ⟨hfit, rfl⟩ := nextRecord_eq_record hr
      have hextend {rs tail} (hf : Framed rest rs tail) : Framed (r.encode ++ rest) (r :: rs) tail :=
        ⟨by rw [hf.bytes, encodeAll_cons, List.append_assoc],
          List.forall_mem_cons.mpr ⟨hfit, hf.fits⟩, hf.tailShort⟩
      simp only [hr] at h
      by_cases hk : r.kind = k
      · simp only [hk, ne_eq, not_true, if_false] at h
        cases hfault : recordFault crypto key g r with
        | some f => simp [hfault] at h
        | none =>
          simp only [hfault] at h
          obtain ⟨rs, tail, hf, hc⟩ := ih _ hlt h rfl
          exact ⟨r :: rs, tail, hextend hf, chainFrom_cons.mpr (by simp [hk, hfault, hc])⟩
      · simp only [hk, ne_eq, not_false_eq_true, if_true] at h
        obtain ⟨rs, tail, hf, hc⟩ := ih _ hlt h rfl
        exact ⟨r :: rs, tail, hextend hf, chainFrom_cons.mpr (by simp [hk, hc])⟩

/-- The full walk finds no fault exactly on a framed file with a sound chain,
and then it has counted that chain. -/
theorem verifyWalk_clean_iff {k : UInt32} {fp : Bytes} :
    (verifyWalk crypto key k fp).fault = none ↔
      ∃ rs tail, Framed fp rs tail ∧ ChainFrom crypto key k zeroHash rs := by
  constructor
  · exact verifyLoop_clean
  · rintro ⟨rs, tail, hf, hc⟩
    rw [hf.verifyWalk_eq hc]

end Verify

end FractalSQL.Ledger
