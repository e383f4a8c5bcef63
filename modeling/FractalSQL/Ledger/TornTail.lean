import FractalSQL.Ledger.Agreement

/-!
# Recovery from a torn append

A crash in the middle of an append leaves the complete records followed by a
strict prefix of one more. The next append scans the file first. A tail of four
bytes or more fails the scan and is cut off; a tail of one to three bytes reads
as a clean end of file, so it stays in the file and the new record is written
after it.
-/
namespace FractalSQL.Ledger
open Lib

/-- What the writer's scan leaves of a torn tail. -/
def keptTail (torn : Bytes) : Bytes := if torn.length < 4 then torn else []

section Scan
variable {rs : List Record} {r : Record} {torn : Bytes}

theorem scanLoop_torn (hfit : ∀ r ∈ rs, r.Fits) (hr : r.Fits) (hp : torn <+: r.encode)
    (hlt : torn.length < r.encode.length) (h4 : 4 ≤ torn.length) (kind : UInt32) :
    ledgerScanLatestTwo kind (encodeAll rs ++ torn) = none := by
  rw [ledgerScanLatestTwo, scanLoop_append hfit, scanLoop_eq]
  rcases nextRecord_torn r hr hp hlt h4 with h | h <;> rw [h]

theorem repairLoop_torn (hfit : ∀ r ∈ rs, r.Fits) (hr : r.Fits) (hp : torn <+: r.encode)
    (hlt : torn.length < r.encode.length) (h4 : 4 ≤ torn.length) (offset : ℕ) :
    repairLoop (encodeAll rs ++ torn) offset = some (offset + (encodeAll rs).length) := by
  rw [repairLoop_append hfit, repairLoop_eq]
  rcases nextRecord_torn r hr hp hlt h4 with h | h <;> rw [h]

/-- A noticed tear is cut off and the records before it are scanned. -/
theorem scanForAppend_torn (hfit : ∀ r ∈ rs, r.Fits) (hr : r.Fits) (hp : torn <+: r.encode)
    (hlt : torn.length < r.encode.length) (h4 : 4 ≤ torn.length) (kind : UInt32) :
    scanForAppend kind (ledgerHeader ++ (encodeAll rs ++ torn)) =
      (ledgerHeader ++ encodeAll rs, some (scanOf kind rs)) := by
  have hrepair : ledgerRepairTornTail (ledgerHeader ++ (encodeAll rs ++ torn)) =
      ledgerHeader ++ encodeAll rs := by
    simp only [ledgerRepairTornTail, drop_ledgerHeader, repairLoop_torn hfit hr hp hlt h4]
    rw [← List.append_assoc, ← List.length_append, List.take_left]
  have hrescan := (framed_encodeAll hfit).scan kind
  simp only [scanForAppend, drop_ledgerHeader, scanLoop_torn hfit hr hp hlt h4, hrepair, hrescan,
    scanOf]

theorem scanForAppend_tail (hfit : ∀ r ∈ rs, r.Fits) (hr : r.Fits) (hp : torn <+: r.encode)
    (hlt : torn.length < r.encode.length) (kind : UInt32) :
    scanForAppend kind (ledgerHeader ++ (encodeAll rs ++ torn)) =
      (ledgerHeader ++ (encodeAll rs ++ keptTail torn), some (scanOf kind rs)) := by
  unfold keptTail
  split
  · rename_i hshort
    exact scanForAppend_framed ⟨rfl, hfit, hshort⟩ kind
  · rename_i hlong
    rw [List.append_nil]
    exact scanForAppend_torn hfit hr hp hlt (Nat.le_of_not_lt hlong) kind

end Scan

/-- What the next append is to do on a torn ledger: succeed, leave exactly the
complete records and its own, and leave every chain sound. -/
def Recovers (env : LedgerEnv) (files : LedgerFiles) (rs : List Record) (kind : ℤ) (payload : Bytes)
    (now : Int64) : Prop :=
  (ledgerWriteEntry env files kind payload now).1 = .ok ∧
    ∃ new : Record, new.kind = UInt32.ofNat kind.toNat ∧ new.blob = payload ∧
      (ledgerWriteEntry env files kind payload now).2.ledger =
        some (ledgerHeader ++ encodeAll (rs ++ [new])) ∧
      ∀ k : UInt32, 1 ≤ k.toNat → k.toNat ≤ maxKind →
        (verifyWalk env.crypto env.key k (encodeAll (rs ++ [new]))).fault = none

/-- The ledger has reached the size `FRACTALSQL_LEDGER_MAX_BYTES` allows. -/
def LedgerFull (env : LedgerEnv) (file : Bytes) : Prop :=
  0 < ledgerCap env.maxBytes ∧ ledgerCap env.maxBytes ≤ file.length

section Recovery
variable {env : LedgerEnv} {files : LedgerFiles} {rs : List Record} {r : Record} {torn : Bytes}
  {kind : ℤ} {payload : Bytes}

theorem openLedger_header {fp : Bytes} (hroom : ¬ LedgerFull env (ledgerHeader ++ fp)) :
    openLedger (ledgerCap env.maxBytes) (some (ledgerHeader ++ fp)) = some (ledgerHeader ++ fp) := by
  unfold LedgerFull at hroom
  rw [openLedger, if_neg hroom, if_neg (by simp [ledgerHeader]), if_pos (by simp)]

/-- A full ledger is refused. -/
theorem ledgerWriteEntry_full {file : Bytes} (hfile : files.ledger = some file)
    (hfull : LedgerFull env file) (now : Int64) :
    (ledgerWriteEntry env files kind payload now).1 = .storage := by
  have hopen : openLedger (ledgerCap env.maxBytes) files.ledger = none := by
    rw [hfile]
    exact if_pos hfull
  simp only [ledgerWriteEntry, hopen]
  split
  · rfl
  · split <;> rfl

/-- The next append on a torn ledger that is not full. -/
theorem ledgerWriteEntry_torn (hfit : ∀ s ∈ rs, s.Fits) (hr : r.Fits) (hp : torn <+: r.encode)
    (hlt : torn.length < r.encode.length)
    (hfile : files.ledger = some (ledgerHeader ++ (encodeAll rs ++ torn))) (h1 : 1 ≤ kind)
    (h16 : kind ≤ maxKind) (hlen : payload.length ≤ maxBlobBytes) (now : Int64)
    (hroom : ¬ LedgerFull env (ledgerHeader ++ (encodeAll rs ++ torn))) :
    ∃ new : Record, new = nextEntry env rs (UInt32.ofNat kind.toNat) payload hlen now ∧
      ((ledgerWriteEntry env files kind payload now).1 = .ok ↔
        9 + ((encodeAll rs).length + (keptTail torn).length) + (116 + payload.length) ≤ offMax) ∧
      ((ledgerWriteEntry env files kind payload now).1 = .ok →
        (ledgerWriteEntry env files kind payload now).2.ledger =
          some (ledgerHeader ++ (encodeAll rs ++ (keptTail torn ++ new.encode)))) := by
  have hopen : openLedger (ledgerCap env.maxBytes) files.ledger =
      some (ledgerHeader ++ (encodeAll rs ++ torn)) := by
    rw [hfile]
    exact openLedger_header hroom
  have hwrite := ledgerWriteEntry_scanned h1 h16 hlen now hopen
    (scanForAppend_tail hfit hr hp hlt (UInt32.ofNat kind.toNat))
  have hsize : (ledgerHeader ++ (encodeAll rs ++ keptTail torn)).length +
      (nextEntry env rs (UInt32.ofNat kind.toNat) payload hlen now).encode.length =
        9 + ((encodeAll rs).length + (keptTail torn).length) + (116 + payload.length) := by
    rw [Record.encode_length, List.length_append, List.length_append, ledgerHeader_length]
    rfl
  rw [hsize] at hwrite
  refine ⟨_, rfl, ?_⟩
  rw [hwrite]
  split
  · rename_i hbig
    have hrc : Rc.storage ≠ Rc.ok := by decide
    exact ⟨⟨fun h => absurd h hrc, fun h => absurd hbig (Nat.not_lt.mpr h)⟩, fun h => absurd h hrc⟩
  · rename_i hfits
    exact ⟨⟨fun _ => Nat.le_of_not_lt hfits, fun _ => rfl⟩, fun _ => by simp⟩

theorem encode_length_of_blob {new : Record} (hb : new.blob = payload) :
    new.encode.length = 116 + payload.length := by
  rw [new.encode_length, hb]

/-- One to three torn bytes stay in the file, so it is longer than it may be. -/
theorem not_recovers_short (hfit : ∀ s ∈ rs, s.Fits) (hr : r.Fits) (hp : torn <+: r.encode)
    (hlt : torn.length < r.encode.length)
    (hfile : files.ledger = some (ledgerHeader ++ (encodeAll rs ++ torn))) (h1 : 1 ≤ kind)
    (h16 : kind ≤ maxKind) (hlen : payload.length ≤ maxBlobBytes) (now : Int64)
    (hpos : 1 ≤ torn.length) (h3 : torn.length ≤ 3) : ¬ Recovers env files rs kind payload now := by
  rintro ⟨hok, new, -, hblob, hledger, -⟩
  by_cases hfull : LedgerFull env (ledgerHeader ++ (encodeAll rs ++ torn))
  · rw [ledgerWriteEntry_full hfile hfull] at hok
    cases hok
  · obtain ⟨entry, hentry, -, hleft⟩ :=
      ledgerWriteEntry_torn hfit hr hp hlt hfile h1 h16 hlen now hfull
    rw [hleft hok, keptTail, if_pos (by omega), Option.some.injEq] at hledger
    have hsize := congrArg List.length hledger
    have hlen1 : entry.encode.length = 116 + payload.length := encode_length_of_blob (by rw [hentry]; rfl)
    simp only [List.length_append, encodeAll_append, encodeAll_cons, encodeAll_nil,
      List.length_nil, encode_length_of_blob hblob, hlen1] at hsize
    omega

end Recovery

/-- The next append recovers from a tear exactly when the ledger is not full, the
new record still fits in it, and the torn bytes are not one, two or three of the
kind field. -/
theorem torn_append_recovers_iff (env : LedgerEnv) (files : LedgerFiles) (rs : List Record)
    (hvalid : ChainHolds env (some (ledgerHeader ++ encodeAll rs)) rs) (r : Record) (hr : r.Fits)
    (torn : Bytes) (hp : torn <+: r.encode) (hlt : torn.length < r.encode.length)
    (hfile : files.ledger = some (ledgerHeader ++ (encodeAll rs ++ torn))) (kind : ℤ) (h1 : 1 ≤ kind)
    (h16 : kind ≤ maxKind) (payload : Bytes) (hlen : payload.length ≤ maxBlobBytes) (now : Int64) :
    Recovers env files rs kind payload now ↔
      ¬ (1 ≤ torn.length ∧ torn.length ≤ 3) ∧
        ¬ LedgerFull env (ledgerHeader ++ (encodeAll rs ++ torn)) ∧
        9 + (encodeAll rs).length + (116 + payload.length) ≤ offMax := by
  constructor
  · intro h
    have hlong : ¬ (1 ≤ torn.length ∧ torn.length ≤ 3) := fun ⟨hpos, h3⟩ =>
      not_recovers_short hvalid.fits hr hp hlt hfile h1 h16 hlen now hpos h3 h
    have hroom : ¬ LedgerFull env (ledgerHeader ++ (encodeAll rs ++ torn)) := by
      intro hfull
      have hok := h.1
      rw [ledgerWriteEntry_full hfile hfull] at hok
      cases hok
    obtain ⟨_, _, hok, _⟩ := ledgerWriteEntry_torn hvalid.fits hr hp hlt hfile h1 h16 hlen now hroom
    have hoff := hok.mp h.1
    exact ⟨hlong, hroom, by omega⟩
  · rintro ⟨hlong, hroom, hoff⟩
    obtain ⟨new, hnew, hok, hleft⟩ :=
      ledgerWriteEntry_torn hvalid.fits hr hp hlt hfile h1 h16 hlen now hroom
    have htail : keptTail torn = [] := by
      unfold keptTail
      split
      · exact List.length_eq_zero_iff.mp (by omega)
      · rfl
    have hdone := hok.mpr (by rw [htail, List.length_nil]; omega)
    refine ⟨hdone, new, by rw [hnew]; rfl, by rw [hnew]; rfl, ?_, fun k hk1 hk16 => ?_⟩
    · rw [hleft hdone, htail]
      simp
    · have hchain := nextEntry_chain (hvalid.chains k hk1 hk16) (UInt32.ofNat kind.toNat) hlen now
      rw [← hnew] at hchain
      refine verifyWalk_clean_iff.mpr ⟨_, [], framed_encodeAll ?_, hchain⟩
      intro s hs
      rcases List.mem_append.mp hs with hs | hs
      · exact hvalid.fits s hs
      · rw [List.mem_singleton.mp hs, hnew]
        exact nextEntry_fits rs _ hlen now

/-- A record of kind 1, to tear. -/
def sampleRecord : Record := newRecord (sampleEnv none) 1 [9] (by decide) zeroHash 0

theorem sample_chainHolds : ChainHolds (sampleEnv none) (some (ledgerHeader ++ encodeAll [])) [] :=
  ⟨.written [], by simp, by simp [ledgerHeader, offMax], fun k _ _ => chainFrom_nil k zeroHash⟩

theorem sample_not_full (torn : Bytes) (h : torn.length < 100) :
    ¬ LedgerFull (sampleEnv none) (ledgerHeader ++ (encodeAll [] ++ torn)) := by
  simp [LedgerFull, ledgerCap, sampleEnv, ledgerHeader]
  omega

theorem torn_append_recovers_four_bytes :
    Recovers (sampleEnv none) { ledger := some (ledgerHeader ++ (encodeAll [] ++ [1, 0, 0, 0])) } []
      1 [] 0 :=
  (torn_append_recovers_iff (sampleEnv none) _ [] sample_chainHolds sampleRecord (by decide)
    [1, 0, 0, 0] (by decide) (by decide) rfl 1 (by decide) (by decide) [] (by decide) 0).mpr
    ⟨by decide, sample_not_full _ (by decide), by decide⟩

/-- One torn byte is not noticed. -/
theorem torn_byte_not_recovered :
    [1] <+: sampleRecord.encode ∧
      ChainHolds (sampleEnv none) (some (ledgerHeader ++ encodeAll [])) [] ∧
      ¬ Recovers (sampleEnv none) { ledger := some (ledgerHeader ++ (encodeAll [] ++ [1])) } [] 1 [] 0 :=
  ⟨by decide, sample_chainHolds, not_recovers_short (by simp) (r := sampleRecord) (by decide)
    (by decide) (by decide) rfl (by decide) (by decide) (by decide) 0 (by decide) (by decide)⟩

end FractalSQL.Ledger
