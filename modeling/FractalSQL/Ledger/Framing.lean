import FractalSQL.Ledger.Agreement

/-!
# The three walkers on any file

Every ledger file is its complete records followed by a rest at which the
walkers stop: at most three bytes, which all of them take for the end of the
file, or a record that does not read whole. There the scan fails, the repair
cuts, and the full walk, unless it stopped earlier at a fault of the chain,
reports that record. A walk that finds nothing wrong leaves nothing for the
check of the newest record to refuse.
-/
namespace FractalSQL.Ledger
open Lib

/-- The faults of a record that does not read whole. -/
def ChainFault.framing : ChainFault → Bool
  | .truncatedRecord | .lengthOutOfRange | .truncatedBlob => true
  | .noMac | .hmacMismatch | .entryHashMismatch | .linkBreak => false

/-- What the full walk says of a record that does not read whole. -/
def NextRecord.framingFault : NextRecord → Option ChainFault
  | .eof | .record _ _ => none
  | .shortHeader => some .truncatedRecord
  | .lengthOutOfRange => some .lengthOutOfRange
  | .shortBlob => some .truncatedBlob

theorem NextRecord.framing_of_fault {next : NextRecord} {f : ChainFault} (h : next.framingFault = some f) :
    f.framing = true := by
  cases next with
  | eof => cases h
  | record => cases h
  | shortHeader =>
    cases h
    rfl
  | lengthOutOfRange =>
    cases h
    rfl
  | shortBlob =>
    cases h
    rfl

theorem recordFault_framing {crypto : Crypto} {key : Option Bytes} {g : Hash} {r : Record} {f : ChainFault}
    (h : recordFault crypto key g r = some f) : f.framing = false := by
  unfold recordFault at h
  split at h
  · cases h
    rfl
  split at h
  · cases h
    rfl
  split at h
  · cases h
    rfl
  split at h
  · cases h
    rfl
  · cases h

/-! ### The complete records and the rest -/

/-- The bytes behind the complete records. -/
def restOf (fp : Bytes) : Bytes := fp.drop (encodeAll (recordsOf fp)).length

/-- The fault of the first record that does not read whole. -/
def tornFault (fp : Bytes) : Option ChainFault := (nextRecord (restOf fp)).framingFault

theorem recordsOf_split (fp : Bytes) :
    (∀ r ∈ recordsOf fp, r.Fits) ∧ ∃ rest, fp = encodeAll (recordsOf fp) ++ rest ∧ recordsOf rest = [] := by
  induction hlen : fp.length using Nat.strong_induction_on generalizing fp with
  | _ len ih =>
    cases hr : nextRecord fp with
    | record r tail =>
      have hcons : recordsOf fp = r :: recordsOf tail := by
        rw [recordsOf_eq, hr]
      obtain ⟨hfit, hfp⟩ := nextRecord_eq_record hr
      obtain ⟨hfits, rest, htail, hrest⟩ := ih tail.length (hlen ▸ nextRecord_rest_lt hr) tail rfl
      rw [hcons]
      refine ⟨List.forall_mem_cons.mpr ⟨hfit, hfits⟩, rest, ?_, hrest⟩
      rw [encodeAll_cons, List.append_assoc, ← htail]
      exact hfp
    | _ =>
      have hnil : recordsOf fp = [] := by
        rw [recordsOf_eq, hr]
      rw [hnil]
      exact ⟨by simp, fp, rfl, hnil⟩

theorem recordsOf_fits (fp : Bytes) : ∀ r ∈ recordsOf fp, r.Fits := (recordsOf_split fp).1

theorem recordsOf_restOf (fp : Bytes) :
    fp = encodeAll (recordsOf fp) ++ restOf fp ∧ recordsOf (restOf fp) = [] := by
  obtain ⟨-, rest, hfp, hrest⟩ := recordsOf_split fp
  have heq : restOf fp = rest := by
    rw [restOf]
    conv_lhs =>
      arg 2
      rw [hfp]
    exact List.drop_left
  rw [heq]
  exact ⟨hfp, hrest⟩

/-! ### The walkers where they stop -/

section Stop
variable {rest : Bytes} (h : recordsOf rest = [])

include h in
theorem nextRecord_of_no_records (r : Record) (tail : Bytes) : nextRecord rest ≠ .record r tail := by
  intro hr
  rw [recordsOf_eq, hr] at h
  cases h

include h in
theorem scanLoop_stop (want : UInt32) (acc : ScanResult) :
    scanLoop want rest acc = if (nextRecord rest).framingFault = none then some acc else none := by
  have hno := nextRecord_of_no_records h
  rw [scanLoop_eq]
  cases hr : nextRecord rest with
  | record r tail => exact absurd hr (hno r tail)
  | _ => simp [NextRecord.framingFault]

include h in
theorem repairLoop_stop (offset : ℕ) :
    repairLoop rest offset = (nextRecord rest).framingFault.map fun _ => offset := by
  have hno := nextRecord_of_no_records h
  rw [repairLoop_eq]
  cases hr : nextRecord rest with
  | record r tail => exact absurd hr (hno r tail)
  | _ => simp [NextRecord.framingFault]

include h in
theorem verifyLoop_stop (crypto : Crypto) (key : Option Bytes) (k : UInt32) (n seen : ℕ) (g : Hash) :
    verifyLoop crypto key k rest n seen g =
      ⟨n, (nextRecord rest).framingFault.map fun f => (seen + 1, f)⟩ := by
  have hno := nextRecord_of_no_records h
  rw [verifyLoop_eq]
  cases hr : nextRecord rest with
  | record r tail => exact absurd hr (hno r tail)
  | _ => simp [NextRecord.framingFault]

end Stop

/-! ### The walkers on a whole file -/

theorem ledgerScanLatestTwo_eq (k : UInt32) (fp : Bytes) :
    ledgerScanLatestTwo k fp = if tornFault fp = none then some (scanOf k (recordsOf fp)) else none := by
  obtain ⟨hfp, hrest⟩ := recordsOf_restOf fp
  have hloop := scanLoop_append (recordsOf_fits fp) k (restOf fp) {}
  rw [← hfp, foldl_see, scanLoop_stop hrest] at hloop
  exact hloop

theorem repairLoop_whole (fp : Bytes) (offset : ℕ) :
    repairLoop fp offset = (tornFault fp).map fun _ => offset + (encodeAll (recordsOf fp)).length := by
  obtain ⟨hfp, hrest⟩ := recordsOf_restOf fp
  have hloop := repairLoop_append (recordsOf_fits fp) (restOf fp) offset
  rw [← hfp, repairLoop_stop hrest] at hloop
  exact hloop

section Verify
variable {crypto : Crypto} {key : Option Bytes}

theorem verifyWalk_of_chain {k : UInt32} {fp : Bytes} (hc : ChainFrom crypto key k zeroHash (recordsOf fp)) :
    (verifyWalk crypto key k fp).fault = (tornFault fp).map fun f => ((recordsOf fp).length + 1, f) := by
  obtain ⟨hfp, hrest⟩ := recordsOf_restOf fp
  have hloop := verifyLoop_append (recordsOf_fits fp) hc (restOf fp) 0 0
  rw [← hfp, verifyLoop_stop hrest] at hloop
  rw [verifyWalk, hloop]
  simp only [Nat.zero_add]
  rfl

/-- A chain fault ends the walk before it gets to the rest. -/
theorem verifyLoop_broken {rs : List Record} (hfit : ∀ r ∈ rs, r.Fits) {k : UInt32} {g : Hash}
    (hc : ¬ ChainFrom crypto key k g rs) (tail : Bytes) (n seen : ℕ) :
    ∃ id f, (verifyLoop crypto key k (encodeAll rs ++ tail) n seen g).fault = some (id, f) ∧
      f.framing = false := by
  induction rs generalizing g n seen with
  | nil => exact absurd (chainFrom_nil k g) hc
  | cons r rs ih =>
    have hfit' : ∀ s ∈ rs, s.Fits := fun s hs => hfit s (by simp [hs])
    rw [chainFrom_cons] at hc
    rw [encodeAll_cons, List.append_assoc, verifyLoop_eq, nextRecord_encode r (hfit r (by simp))]
    by_cases hk : r.kind = k
    · simp only [hk, ne_eq, not_true, if_false]
      rw [if_pos hk] at hc
      cases hfault : recordFault crypto key g r with
      | some f => exact ⟨seen + 1, f, rfl, recordFault_framing hfault⟩
      | none => exact ih hfit' (fun hrest => hc ⟨hfault, hrest⟩) (n + 1) (seen + 1)
    · simp only [hk, ne_eq, not_false_eq_true, if_true]
      rw [if_neg hk] at hc
      exact ih hfit' hc n (seen + 1)

theorem verifyWalk_of_broken {k : UInt32} {fp : Bytes}
    (hc : ¬ ChainFrom crypto key k zeroHash (recordsOf fp)) :
    ∃ id f, (verifyWalk crypto key k fp).fault = some (id, f) ∧ f.framing = false := by
  have hloop := verifyLoop_broken (recordsOf_fits fp) hc (restOf fp) 0 0
  rw [← (recordsOf_restOf fp).1] at hloop
  exact hloop

end Verify

/-! ### The repaired file -/

theorem restOf_ne_nil {fp : Bytes} {f : ChainFault} (h : tornFault fp = some f) : restOf fp ≠ [] := by
  intro hnil
  have heof : nextRecord [] = .eof := nextRecord_eq_eof.mpr (by simp)
  rw [tornFault, hnil, heof] at h
  cases h

theorem ledgerRepairTornTail_eq (fp : Bytes) :
    ledgerRepairTornTail (ledgerHeader ++ fp) =
      if tornFault fp = none then ledgerHeader ++ fp else ledgerHeader ++ encodeAll (recordsOf fp) := by
  rw [ledgerRepairTornTail, drop_ledgerHeader, repairLoop_whole]
  cases hf : tornFault fp with
  | none => rfl
  | some f =>
    have hsplit : ledgerHeader ++ fp = (ledgerHeader ++ encodeAll (recordsOf fp)) ++ restOf fp := by
      rw [List.append_assoc, ← (recordsOf_restOf fp).1]
    rw [if_neg (by simp)]
    simp only [Option.map_some]
    rw [hsplit, ← List.length_append, List.take_left]

theorem recordsOf_encodeAll (fp : Bytes) : recordsOf (encodeAll (recordsOf fp)) = recordsOf fp :=
  (framed_encodeAll (recordsOf_fits fp)).records_eq

/-! ### Agreement -/

/-- `ledger_repair_torn_tail` makes the file shorter. -/
def Truncates (fp : Bytes) : Prop :=
  (ledgerRepairTornTail (ledgerHeader ++ fp)).length < (ledgerHeader ++ fp).length

theorem truncates_iff (fp : Bytes) : Truncates fp ↔ tornFault fp ≠ none := by
  rw [Truncates, ledgerRepairTornTail_eq]
  cases hf : tornFault fp with
  | none => simp
  | some f =>
    have hpos := List.length_pos_of_ne_nil (restOf_ne_nil hf)
    have hlen := congrArg List.length (recordsOf_restOf fp).1
    rw [List.length_append] at hlen
    simp only [reduceCtorEq, if_false, List.length_append, ne_eq, not_false_eq_true, iff_true]
    omega

/-- `fractal_ledger_verify` reports that record `id` of the file does not read whole. -/
def ReportsTorn (env : LedgerEnv) (files : LedgerFiles) (k : UInt32) (id : ℕ) : Prop :=
  ∃ f : ChainFault, f.framing = true ∧ fractalLedgerVerify env files k = .failed id (.chain f)

/-- Where record `id` of a file starts, counting the records of every kind from 1. -/
def recordStart (fp : Bytes) (id : ℕ) : ℕ :=
  ledgerHeader.length + (encodeAll ((recordsOf fp).take (id - 1))).length

/-- A chain fault is reported only by the walk. -/
theorem walkReport_chain_iff (env : LedgerEnv) (files : LedgerFiles) (k : UInt32) (walk : WalkResult) (id : ℕ)
    (f : ChainFault) : walkReport env files k walk = .failed id (.chain f) ↔ walk.fault = some (id, f) := by
  unfold walkReport
  cases walk.fault with
  | some p =>
    cases p
    simp
  | none =>
    cases ledgerHeadCheck env.crypto env.key files.head (toInt32 k.toNat) with
    | some fault => simp
    | none =>
      by_cases hrows : (walk.rows : ℤ) < ledgerHeadGet files.head k
      · simp [if_pos hrows]
      · simp [if_neg hrows]

theorem reportsTorn_iff (env : LedgerEnv) (files : LedgerFiles) (fp : Bytes) (k : UInt32) (id : ℕ) :
    ReportsTorn env { files with ledger := some (ledgerHeader ++ fp) } k id ↔
      tornFault fp ≠ none ∧ ChainFrom env.crypto env.key k zeroHash (recordsOf fp) ∧
        id = (recordsOf fp).length + 1 := by
  have hreport (f : ChainFault) :
      fractalLedgerVerify env { files with ledger := some (ledgerHeader ++ fp) } k = .failed id (.chain f) ↔
        (verifyWalk env.crypto env.key k fp).fault = some (id, f) := by
    simp only [fractalLedgerVerify, ledgerOpenForRead_header]
    exact walkReport_chain_iff ..
  simp only [ReportsTorn, hreport]
  by_cases hc : ChainFrom env.crypto env.key k zeroHash (recordsOf fp)
  · rw [verifyWalk_of_chain hc]
    cases hf : tornFault fp with
    | none => simp
    | some f =>
      have hframing := NextRecord.framing_of_fault hf
      simp only [Option.map_some, Option.some.injEq, Prod.mk.injEq]
      constructor
      · rintro ⟨f', -, rfl, -⟩
        exact ⟨Option.some_ne_none f, hc, rfl⟩
      · rintro ⟨-, -, rfl⟩
        exact ⟨f, hframing, rfl, rfl⟩
  · obtain ⟨id', f', hfault, hframing⟩ := verifyWalk_of_broken hc
    rw [hfault]
    constructor
    · rintro ⟨f, hf, heq⟩
      cases heq
      rw [hframing] at hf
      cases hf
    · rintro ⟨-, hc', -⟩
      exact absurd hc' hc

/-- On every file with a good header and for every kind, the scan fails, the repair cuts, and
the full walk of a kind whose chain is sound up to there reports a record that does not read
whole, all three together. The cut is where the reported record starts, and it leaves a file
that scans, with exactly the records in front of the cut. -/
theorem walkers_agree (env : LedgerEnv) (files : LedgerFiles) (fp : Bytes) (k : UInt32) :
    (ledgerScanLatestTwo k fp = none ↔ Truncates fp) ∧
    ((∃ id, ReportsTorn env { files with ledger := some (ledgerHeader ++ fp) } k id) ↔
      ledgerScanLatestTwo k fp = none ∧ ChainFrom env.crypto env.key k zeroHash (recordsOf fp)) ∧
    (∀ id, ReportsTorn env { files with ledger := some (ledgerHeader ++ fp) } k id →
      id = (recordsOf fp).length + 1 ∧ repairLoop fp ledgerHeader.length = some (recordStart fp id) ∧
        ledgerRepairTornTail (ledgerHeader ++ fp) = (ledgerHeader ++ fp).take (recordStart fp id)) ∧
    (Truncates fp →
      ledgerRepairTornTail (ledgerHeader ++ fp) = ledgerHeader ++ encodeAll (recordsOf fp) ∧
      recordsOf (encodeAll (recordsOf fp)) = recordsOf fp ∧
      ledgerScanLatestTwo k (encodeAll (recordsOf fp)) = some (scanOf k (recordsOf fp))) := by
  have hscan : ledgerScanLatestTwo k fp = none ↔ tornFault fp ≠ none := by
    rw [ledgerScanLatestTwo_eq]
    by_cases hf : tornFault fp = none <;> simp [hf]
  refine ⟨hscan.trans (truncates_iff fp).symm, ?_, fun id hid => ?_, fun hcut => ⟨?_, recordsOf_encodeAll fp, ?_⟩⟩
  · simp only [reportsTorn_iff, hscan]
    constructor
    · rintro ⟨id, hf, hc, -⟩
      exact ⟨hf, hc⟩
    · rintro ⟨hf, hc⟩
      exact ⟨_, hf, hc, rfl⟩
  · obtain ⟨hf, -, rfl⟩ := (reportsTorn_iff env files fp k id).mp hid
    obtain ⟨f, hf⟩ := Option.ne_none_iff_exists'.mp hf
    have hstart : recordStart fp ((recordsOf fp).length + 1) =
        ledgerHeader.length + (encodeAll (recordsOf fp)).length := by
      rw [recordStart, Nat.add_sub_cancel, List.take_length]
    have hrepair : repairLoop fp ledgerHeader.length = some (recordStart fp ((recordsOf fp).length + 1)) := by
      rw [repairLoop_whole, hf, hstart]
      rfl
    refine ⟨rfl, hrepair, ?_⟩
    simp only [ledgerRepairTornTail, drop_ledgerHeader, hrepair]
  · rw [ledgerRepairTornTail_eq, if_neg ((truncates_iff fp).mp hcut)]
  · exact (framed_encodeAll (recordsOf_fits fp)).scan k

/-! ### The check of the newest record -/

/-- A ledger the full walk verifies is one the load-time check lets through. -/
theorem verified_ledger_loads (env : LedgerEnv) (files : LedgerFiles) (k : UInt32) (rows : ℕ)
    (h : fractalLedgerVerify env files k = .verified rows) : ledgerVerifyLatestFile env files k = .ok := by
  cases hopen : ledgerOpenForRead files.ledger with
  | missing => simp only [ledgerVerifyLatestFile, hopen]
  | badHeader =>
    simp only [fractalLedgerVerify, hopen] at h
    cases h
  | records fp =>
    simp only [fractalLedgerVerify, hopen, walkReport] at h
    cases hfault : (verifyWalk env.crypto env.key k fp).fault with
    | some p =>
      rw [hfault] at h
      cases h
    | none =>
      obtain ⟨rs, tail, hframed, hchain⟩ := verifyWalk_clean_iff.mp hfault
      exact hframed.verifyLatest hopen hchain

theorem one_byte_fits (b : UInt8) : [b].length ≤ maxBlobBytes := by
  rw [List.length_singleton]
  decide

/-- A chain of kind 1 under a key, with a record of kind 2 in between and two stray bytes
behind it. -/
def interleaved : List Record :=
  let first := nextEntry (sampleEnv (some [7])) [] 1 [4] (one_byte_fits 4) 0
  let other := nextEntry (sampleEnv (some [7])) [first] 2 [8] (one_byte_fits 8) 0
  [first, other, nextEntry (sampleEnv (some [7])) [first, other] 1 [6] (one_byte_fits 6) 3]

theorem interleaved_chain (k : UInt32) :
    ChainFrom (sampleEnv (some [7])).crypto (sampleEnv (some [7])).key k zeroHash interleaved :=
  nextEntry_chain (nextEntry_chain (nextEntry_chain (chainFrom_nil k zeroHash) 1 _ 0) 2 _ 0) 1 _ 3

theorem interleaved_framed : Framed (encodeAll interleaved ++ [1, 0]) interleaved [1, 0] := by
  refine ⟨rfl, ?_, by decide⟩
  simp only [interleaved, List.forall_mem_cons]
  exact ⟨nextEntry_fits .., nextEntry_fits .., nextEntry_fits .., by simp⟩

theorem verified_ledger_loads_interleaved :
    ledgerVerifyLatestFile (sampleEnv (some [7]))
      { ledger := some (ledgerHeader ++ (encodeAll interleaved ++ [1, 0])) } 1 = .ok := by
  apply verified_ledger_loads _ _ _ (kindRecords 1 interleaved).length
  simp only [fractalLedgerVerify, ledgerOpenForRead_header, walkReport,
    interleaved_framed.verifyWalk_eq (interleaved_chain 1)]
  rfl

end FractalSQL.Ledger
