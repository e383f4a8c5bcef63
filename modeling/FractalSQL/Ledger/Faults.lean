import FractalSQL.Ledger.TornTail

/-!
# Appends whose file operations fail

`ledger_write_entry` with every file operation able to fail. A write that stops leaves
some of its bytes, a read that fails ends the walk it belongs to, and an append that the
caller is told has failed may have left its whole record. As long as no tear of one to
three bytes is left, no header is torn and the repair reads what is there, no record
that was acknowledged is lost, and the next append that nothing keeps from working
works.
-/
namespace FractalSQL.Ledger
open Lib

/-- What can go wrong in `ledger_repair_torn_tail` short of the end of its walk. -/
inductive RepairFault where
  /-- The file is not opened, and there is nothing to repair. -/
  | notOpened
  /-- The header is not read, a buffer is not allocated, or the file is not truncated. -/
  | gaveUp
  /-- The record behind the first `i` cannot be read. -/
  | unread (i : ℕ)
deriving DecidableEq

/-- What fails in one call. A read that fails is given with the number of records in
front of it, a write with the number of bytes it leaves. -/
structure Faults where
  openRw : Bool := false
  create : Bool := false
  size : Bool := false
  seek : Bool := false
  headerRead : Bool := false
  header : Option ℕ := none
  scan : Option ℕ := none
  repair : Option RepairFault := none
  reopen : Bool := false
  rescan : Option ℕ := none
  digest : Bool := false
  append : Bool := false
  record : Option ℕ := none
  head : Bool := false
  mirror : Bool := false
deriving DecidableEq

/-- `ledger_write_header` at the start of the file and its flush. -/
def writeHeader (f : Faults) (file : Bytes) : Bool × Option Bytes :=
  match f.header with
  | some n => (false, some (ledgerHeader.take n ++ file.drop (min n ledgerHeader.length)))
  | none => (true, some (ledgerHeader ++ file.drop ledgerHeader.length))

/-- The file that `ledger_write_entry` goes on to scan, or the one it leaves. A file
that is not opened is created, which leaves what is in it. -/
def openLedgerWith (f : Faults) (cap : ℤ) (file : Option Bytes) : Bool × Option Bytes :=
  match if f.openRw then none else file with
  | none => if f.create then (false, file) else writeHeader f (file.getD [])
  | some bs =>
    if f.size = false ∧ 0 < cap ∧ cap ≤ bs.length then (false, file)
    else if f.seek then (false, file)
    else if f.size = false ∧ bs = [] then writeHeader f bs
    else if f.headerRead then (false, file)
    else (ledgerHeader.isPrefixOf bs, file)

/-- A scan that fails at a record, or at the end behind the last one. -/
def scanWith (unread : Option ℕ) (kind : UInt32) (fp : Bytes) : Option ScanResult :=
  if ∃ i ∈ unread, i ≤ (recordsOf fp).length then none else ledgerScanLatestTwo kind fp

/-- `ledger_repair_torn_tail`: whether it reports a file that can be scanned, and the
file. -/
def repairWith (fault : Option RepairFault) (file : Bytes) : Bool × Bytes :=
  match fault with
  | some .notOpened => (true, file)
  | some .gaveUp => (false, file)
  | some (.unread i) =>
    let rs := recordsOf (file.drop ledgerHeader.length)
    if i ≤ rs.length then (true, file.take (ledgerHeader.length + (encodeAll (rs.take i)).length))
    else (true, ledgerRepairTornTail file)
  | none => (true, ledgerRepairTornTail file)

/-- The scan of the writer, with its repair and its second try. -/
def scanForAppendWith (f : Faults) (kind : UInt32) (file : Bytes) : Bytes × Option ScanResult :=
  match scanWith f.scan kind (file.drop ledgerHeader.length) with
  | some scan => (file, some scan)
  | none =>
    match repairWith f.repair file with
    | (false, file) => (file, none)
    | (true, file) =>
      if f.reopen then (file, none) else (file, scanWith f.rescan kind (file.drop ledgerHeader.length))

section Env
variable (env : LedgerEnv)

/-- The append of a record to a file that was scanned. A record that is not written,
flushed and synced to its end may be there in part or whole. -/
def appendWith (f : Faults) (files : LedgerFiles) (kind : ℤ) (file : Bytes) (r : Record) (scan : ScanResult) :
    Rc × LedgerFiles :=
  if f.digest ∨ f.append then (.storage, { files with ledger := some file })
  else if offMax < file.length + r.encode.length then (.storage, { files with ledger := some file })
  else match f.record with
    | some n => (.storage, { files with ledger := some (file ++ r.encode.take n) })
    | none => (.ok,
        { ledger := some (file ++ r.encode)
          head := if f.head then files.head
            else ledgerHeadUpdate env.crypto env.key files.head kind scan.kindRecords
          csv := if f.mirror then files.csv else ledgerCsvAppend files.csv r scan.records })

/-- `ledger_write_entry`. -/
def ledgerWriteEntryWith (f : Faults) (files : LedgerFiles) (kind : ℤ) (payload : Bytes) (now : Int64) :
    Rc × LedgerFiles :=
  if kind < 1 ∨ (maxKind : ℤ) < kind then (.storage, files)
  else if hlen : payload.length ≤ maxBlobBytes then
    match openLedgerWith f (ledgerCap env.maxBytes) files.ledger with
    | (false, file) => (.storage, { files with ledger := file })
    | (true, file) =>
      match scanForAppendWith f (UInt32.ofNat kind.toNat) (file.getD []) with
      | (file, none) => (.storage, { files with ledger := some file })
      | (file, some scan) =>
        appendWith env f files kind file
          (newRecord env (UInt32.ofNat kind.toNat) payload hlen (entryHashOf scan.latest) now) scan
  else (.storage, files)

/-! ### Without a fault -/

theorem scanWith_none (kind : UInt32) (fp : Bytes) : scanWith none kind fp = ledgerScanLatestTwo kind fp := by
  rw [scanWith, if_neg]
  rintro ⟨i, hi, -⟩
  cases hi

theorem scanForAppendWith_quiet (kind : UInt32) (file : Bytes) : scanForAppendWith {} kind file = scanForAppend kind file := by
  rw [scanForAppendWith, scanWith_none, scanForAppend]
  cases ledgerScanLatestTwo kind (file.drop ledgerHeader.length) with
  | some scan => rfl
  | none => simp [repairWith, scanWith_none]

theorem openLedgerWith_quiet (cap : ℤ) (file : Option Bytes) :
    openLedgerWith {} cap file = ((openLedger cap file).isSome, (openLedger cap file).or file) := by
  cases file with
  | none => rfl
  | some bs =>
    simp only [openLedgerWith, openLedger, writeHeader, Bool.false_eq_true, if_false, true_and]
    by_cases hfull : 0 < cap ∧ cap ≤ bs.length
    · simp [hfull]
    · by_cases hempty : bs = []
      · subst hempty
        rw [if_neg hfull, if_neg hfull]
        rfl
      · by_cases hfront : ledgerHeader.isPrefixOf bs
        · simp [hfull, hempty, hfront]
        · simp [hfull, hempty, hfront]

/-- With no fault it is the writer as it was. -/
theorem ledgerWriteEntryWith_quiet (files : LedgerFiles) (kind : ℤ) (payload : Bytes) (now : Int64) :
    ledgerWriteEntryWith env {} files kind payload now = ledgerWriteEntry env files kind payload now := by
  rw [ledgerWriteEntryWith, ledgerWriteEntry]
  by_cases hrange : kind < 1 ∨ (maxKind : ℤ) < kind
  · rw [if_pos hrange, if_pos hrange]
  rw [if_neg hrange, if_neg hrange]
  by_cases hlen : payload.length ≤ maxBlobBytes
  · rw [dif_pos hlen, dif_pos hlen, openLedgerWith_quiet]
    cases hopen : openLedger (ledgerCap env.maxBytes) files.ledger with
    | none => rfl
    | some file =>
      simp only [Option.isSome_some, Option.some_or, Option.getD_some, scanForAppendWith_quiet]
      rcases scanForAppend (UInt32.ofNat kind.toNat) file with ⟨file, _ | scan⟩
      · rfl
      · simp [appendWith]
  · rw [dif_neg hlen, dif_neg hlen]

end Env

/-! ### What a failing call leaves -/

/-- The faults that the next call can undo. -/
structure Faults.Clean (f : Faults) : Prop where
  header : ∀ n ∈ f.header, n = 0 ∨ ledgerHeader.length ≤ n
  repair : ∀ i, f.repair ≠ some (.unread i)
  record : ∀ n ∈ f.record, n = 0 ∨ 4 ≤ n

/-- Nothing, or so much of a record that the next scan notices it. -/
def Tear (tail : Bytes) : Prop :=
  tail = [] ∨ ∃ r : Record, r.Fits ∧ tail <+: r.encode ∧ tail.length < r.encode.length ∧ 4 ≤ tail.length

/-- A ledger file that holds the records `rs` and perhaps a tear. -/
inductive FileTorn : Option Bytes → List Record → Prop
  | missing : FileTorn none []
  | empty : FileTorn (some []) []
  | written (rs : List Record) {tail : Bytes} : Tear tail → FileTorn (some (ledgerHeader ++ (encodeAll rs ++ tail))) rs

/-- A ledger whose records are sound, and whose head claims no more of them. -/
structure Recoverable (env : LedgerEnv) (files : LedgerFiles) (rs : List Record) : Prop where
  file : FileTorn files.ledger rs
  fits : ∀ r ∈ rs, r.Fits
  size : (files.ledger.getD []).length ≤ offMax
  chains : ∀ k : UInt32, 1 ≤ k.toNat → k.toNat ≤ maxKind → ChainFrom env.crypto env.key k zeroHash rs
  head : ∃ recs, HeadHolds env.crypto env.key files.head recs ∧
    ∀ k : UInt32, 1 ≤ k.toNat → k.toNat ≤ maxKind → headRows recs k.toNat ≤ (kindRecords k rs).length

theorem tear_nil : Tear [] := .inl rfl

theorem FileHolds.torn {file : Option Bytes} {rs : List Record} (h : FileHolds file rs) : FileTorn file rs := by
  cases h with
  | missing => exact .missing
  | empty => exact .empty
  | written rs =>
    have hwritten := FileTorn.written rs tear_nil
    rwa [List.append_nil] at hwritten

theorem LedgerHolds.recoverable {env : LedgerEnv} {files : LedgerFiles} {rs : List Record} (h : LedgerHolds env files rs) :
    Recoverable env files rs :=
  ⟨h.chain.file.torn, h.chain.fits, h.chain.size, h.chain.chains, h.head⟩

section Steps
variable {rs : List Record} {tail : Bytes} {f : Faults}

/-- The header is written over itself, or into a file that has none. -/
theorem writeHeader_torn {file : Option Bytes} (h : FileTorn file rs) (hf : f.Clean) :
    FileTorn (writeHeader f (file.getD [])).2 rs ∧
      ((writeHeader f (file.getD [])).1 = true → ∃ tail, Tear tail ∧
        (writeHeader f (file.getD [])).2 = some (ledgerHeader ++ (encodeAll rs ++ tail))) := by
  cases hheader : f.header with
  | none =>
    simp only [writeHeader, hheader]
    cases h with
    | missing => exact ⟨.written [] tear_nil, fun _ => ⟨[], tear_nil, rfl⟩⟩
    | empty => exact ⟨.written [] tear_nil, fun _ => ⟨[], tear_nil, rfl⟩⟩
    | written rs htear =>
      rw [Option.getD_some, drop_ledgerHeader]
      exact ⟨.written rs htear, fun _ => ⟨_, htear, rfl⟩⟩
  | some n =>
    simp only [writeHeader, hheader]
    refine ⟨?_, by simp⟩
    rcases hf.header n hheader with rfl | hn
    · rw [List.take_zero, List.nil_append, Nat.zero_min, List.drop_zero]
      cases h with
      | missing => exact .empty
      | empty => exact .empty
      | written rs htear => exact .written rs htear
    · rw [List.take_of_length_le hn, min_eq_right hn]
      cases h with
      | missing => exact .written [] tear_nil
      | empty => exact .written [] tear_nil
      | written rs htear =>
        rw [Option.getD_some, drop_ledgerHeader]
        exact .written rs htear

/-- What is opened holds the records that were there. -/
theorem openLedgerWith_torn {file : Option Bytes} (h : FileTorn file rs) (hf : f.Clean) (cap : ℤ) :
    FileTorn (openLedgerWith f cap file).2 rs ∧
      ((openLedgerWith f cap file).1 = true → ∃ tail, Tear tail ∧
        (openLedgerWith f cap file).2 = some (ledgerHeader ++ (encodeAll rs ++ tail))) := by
  have hwrite := writeHeader_torn h hf
  rw [openLedgerWith]
  cases hopen : if f.openRw then none else file with
  | none =>
    by_cases hcreate : f.create
    · simpa [hcreate] using h
    · simpa [hcreate] using hwrite
  | some bs =>
    have hfile : file = some bs := by
      by_cases hrw : f.openRw
      · simp [hrw] at hopen
      · simpa [hrw] using hopen
    subst hfile
    simp only
    split_ifs with hfull hseek hempty hread
    · exact ⟨h, by simp⟩
    · exact ⟨h, by simp⟩
    · exact hwrite
    · exact ⟨h, by simp⟩
    · refine ⟨h, fun hfront => ?_⟩
      cases h with
      | empty => cases hfront
      | written rs htear => exact ⟨_, htear, rfl⟩

/-- A scan that comes to its end has read the records, and there is no tear. -/
theorem scanWith_eq_some (hfit : ∀ r ∈ rs, r.Fits) (htear : Tear tail) {unread : Option ℕ} {kind : UInt32} {scan : ScanResult}
    (h : scanWith unread kind (encodeAll rs ++ tail) = some scan) : tail = [] ∧ scan = scanOf kind rs := by
  rw [scanWith] at h
  split_ifs at h
  rcases htear with rfl | ⟨r, hr, hp, hlt, h4⟩
  · rw [List.append_nil, (framed_encodeAll hfit).scan kind] at h
    exact ⟨rfl, (Option.some.inj h).symm⟩
  · rw [scanLoop_torn hfit hr hp hlt h4] at h
    cases h

/-- The repair cuts the tear off or leaves the file. -/
theorem repairWith_torn (hfit : ∀ r ∈ rs, r.Fits) (htear : Tear tail) (hf : f.Clean) :
    ∃ tail', Tear tail' ∧ tail'.length ≤ tail.length ∧
      (repairWith f.repair (ledgerHeader ++ (encodeAll rs ++ tail))).2 = ledgerHeader ++ (encodeAll rs ++ tail') := by
  have hrepair : ledgerRepairTornTail (ledgerHeader ++ (encodeAll rs ++ tail)) = ledgerHeader ++ (encodeAll rs ++ []) := by
    rcases htear with rfl | ⟨r, hr, hp, hlt, h4⟩
    · rw [ledgerRepairTornTail, drop_ledgerHeader, repairLoop_append hfit, repairLoop_eq, nextRecord_eq_eof.mpr (by simp)]
    · simp only [ledgerRepairTornTail, drop_ledgerHeader, repairLoop_torn hfit hr hp hlt h4]
      rw [← List.append_assoc, ← List.length_append, List.take_left, List.append_nil]
  cases hfault : f.repair with
  | none => exact ⟨[], tear_nil, Nat.zero_le _, hrepair⟩
  | some fault =>
    cases fault with
    | notOpened => exact ⟨tail, htear, le_rfl, rfl⟩
    | gaveUp => exact ⟨tail, htear, le_rfl, rfl⟩
    | unread i => exact absurd hfault (hf.repair i)

/-- The scan of the writer leaves the records, and has read them all when it goes on. -/
theorem scanForAppendWith_torn (hfit : ∀ r ∈ rs, r.Fits) (htear : Tear tail) (hf : f.Clean) (kind : UInt32) :
    ∃ tail', Tear tail' ∧ tail'.length ≤ tail.length ∧
      (scanForAppendWith f kind (ledgerHeader ++ (encodeAll rs ++ tail))).1 = ledgerHeader ++ (encodeAll rs ++ tail') ∧
      ∀ scan, (scanForAppendWith f kind (ledgerHeader ++ (encodeAll rs ++ tail))).2 = some scan →
        tail' = [] ∧ scan = scanOf kind rs := by
  rw [scanForAppendWith, drop_ledgerHeader]
  cases hscan : scanWith f.scan kind (encodeAll rs ++ tail) with
  | some scan =>
    refine ⟨tail, htear, le_rfl, rfl, ?_⟩
    rintro _ ⟨⟩
    exact scanWith_eq_some hfit htear hscan
  | none =>
    obtain ⟨tail', htear', hlen, hfile⟩ := repairWith_torn hfit htear hf
    rcases hrun : repairWith f.repair (ledgerHeader ++ (encodeAll rs ++ tail)) with ⟨ok, file⟩
    rw [hrun] at hfile
    obtain rfl : file = _ := hfile
    refine ⟨tail', htear', hlen, ?_, ?_⟩
    · cases ok
      · rfl
      · simp only
        split_ifs <;> rfl
    · intro scan h
      cases ok
      · cases h
      · simp only at h
        split_ifs at h
        rw [drop_ledgerHeader] at h
        exact scanWith_eq_some hfit htear' h

end Steps

/-! ### One call -/

section Runs
variable {env : LedgerEnv} {files : LedgerFiles} {rs : List Record} {f : Faults}

/-- A ledger with another file, whose records are the same. -/
theorem Recoverable.withFile (h : Recoverable env files rs) {file : Option Bytes} (hfile : FileTorn file rs)
    (hsize : (file.getD []).length ≤ offMax) : Recoverable env { files with ledger := file } rs :=
  ⟨hfile, h.fits, hsize, h.chains, h.head⟩

/-- A ledger with one record more, and a head that knows of it or does not. -/
theorem Recoverable.grow (h : Recoverable env files rs) {kind : ℤ} (h1 : 1 ≤ kind) (h16 : kind ≤ maxKind)
    {payload : Bytes} (hlen : payload.length ≤ maxBlobBytes) (now : Int64) {files' : LedgerFiles} {r : Record}
    (hr : r = nextEntry env rs (UInt32.ofNat kind.toNat) payload hlen now)
    (hfile : files'.ledger = some (ledgerHeader ++ encodeAll (rs ++ [r])))
    (hsize : (ledgerHeader ++ encodeAll (rs ++ [r])).length ≤ offMax)
    (hhead : files'.head = files.head ∨
      files'.head = ledgerHeadUpdate env.crypto env.key files.head kind (kindRecords (UInt32.ofNat kind.toNat) rs).length) :
    Recoverable env files' (rs ++ [r]) := by
  have hkind : r.kind = UInt32.ofNat kind.toNat := by
    rw [hr]
    rfl
  have hcount : ((kindRecords r.kind rs).length : ℤ) + 1 ≤ longMax := by
    have hge := encodeAll_length_ge (rs ++ [r])
    have hle := kindRecords_length_le r.kind rs
    rw [List.length_append] at hsize
    rw [List.length_append, List.length_singleton] at hge
    unfold longMax
    unfold offMax at hsize
    omega
  obtain ⟨recs, hholds, hrows⟩ := h.head
  constructor
  · rw [hfile, ← List.append_nil (encodeAll (rs ++ [r]))]
    exact .written _ tear_nil
  · intro s hs
    rcases List.mem_append.mp hs with hs | hs
    · exact h.fits s hs
    · rw [List.mem_singleton.mp hs, hr]
      exact nextEntry_fits rs _ hlen now
  · rw [hfile]
    exact hsize
  · intro k hk1 hk16
    rw [hr]
    exact nextEntry_chain (h.chains k hk1 hk16) _ hlen now
  · rcases hhead with hhead | hhead
    · refine ⟨recs, hhead ▸ hholds, fun k hk1 hk16 => ?_⟩
      have hold := hrows k hk1 hk16
      rw [kindRecords_append, List.length_append]
      omega
    · rw [hhead, ← hkind]
      exact headRows_append hholds hrows h1 h16 hkind hcount

/-- What an append to a scanned file leaves. -/
theorem Recoverable.append (h : Recoverable env files rs) (hf : f.Clean) {kind : ℤ} (h1 : 1 ≤ kind) (h16 : kind ≤ maxKind)
    {payload : Bytes} (hlen : payload.length ≤ maxBlobBytes) (now : Int64) {r : Record}
    (hr : r = nextEntry env rs (UInt32.ofNat kind.toNat) payload hlen now)
    (hsize : (ledgerHeader ++ encodeAll rs).length ≤ offMax) {out : Rc × LedgerFiles}
    (hout : out = appendWith env f files kind (ledgerHeader ++ encodeAll rs) r (scanOf (UInt32.ofNat kind.toNat) rs)) :
    ∃ ss, Recoverable env out.2 (rs ++ ss) ∧
      (out.1 ≠ .ok ∨ ss = [r] ∧ out.2.ledger = some (ledgerHeader ++ encodeAll (rs ++ [r]))) := by
  have hwhole : FileTorn (some (ledgerHeader ++ encodeAll rs)) rs := (FileHolds.written rs).torn
  have hkept := h.withFile hwhole hsize
  have hfits : r.Fits := by
    rw [hr]
    exact nextEntry_fits rs _ hlen now
  have hgrown : ledgerHeader ++ encodeAll rs ++ r.encode = ledgerHeader ++ encodeAll (rs ++ [r]) := by simp
  rw [hout, appendWith]
  by_cases hfail : f.digest ∨ f.append
  · rw [if_pos hfail]
    exact ⟨[], by rwa [List.append_nil], .inl (by simp)⟩
  by_cases hbig : offMax < (ledgerHeader ++ encodeAll rs).length + r.encode.length
  · rw [if_neg hfail, if_pos hbig]
    exact ⟨[], by rwa [List.append_nil], .inl (by simp)⟩
  rw [if_neg hfail, if_neg hbig]
  have hroom : (ledgerHeader ++ encodeAll (rs ++ [r])).length ≤ offMax := by
    rw [← hgrown, List.length_append]
    omega
  cases hrecord : f.record with
  | none =>
    refine ⟨[r], ?_, .inr ⟨rfl, congrArg some hgrown⟩⟩
    apply h.grow h1 h16 hlen now hr (congrArg some hgrown) hroom
    by_cases hhead : f.head
    · left
      exact if_pos hhead
    · right
      exact if_neg hhead
  | some n =>
    by_cases hall : r.encode.length ≤ n
    · have hfile : some (ledgerHeader ++ encodeAll rs ++ r.encode.take n) = some (ledgerHeader ++ encodeAll (rs ++ [r])) := by
        rw [List.take_of_length_le hall, hgrown]
      exact ⟨[r], h.grow h1 h16 hlen now hr hfile hroom (.inl rfl), .inl (by simp)⟩
    · have htear : Tear (r.encode.take n) := by
        rcases hf.record n hrecord with rfl | hn
        · exact .inl List.take_zero
        · have hcut : (r.encode.take n).length = n := by
            rw [List.length_take]
            omega
          exact .inr ⟨r, hfits, List.take_prefix n r.encode, by omega, by omega⟩
      refine ⟨[], ?_, .inl (by simp)⟩
      rw [List.append_nil, List.append_assoc]
      apply h.withFile (.written rs htear)
      have hcut : (r.encode.take n).length ≤ r.encode.length := by
        rw [List.length_take]
        omega
      rw [Option.getD_some, ← List.append_assoc, List.length_append]
      rw [← hgrown, List.length_append] at hroom
      omega

/-- The file that is opened is no longer than the one there was, or than a header. -/
theorem openLedgerWith_size {file : Option Bytes} (hsize : (file.getD []).length ≤ offMax) (cap : ℤ) :
    ((openLedgerWith f cap file).2.getD []).length ≤ offMax := by
  have hheader : ledgerHeader.length ≤ offMax := by decide
  have hwrite (bs : Bytes) (hbs : bs.length ≤ offMax) : ((writeHeader f bs).2.getD []).length ≤ offMax := by
    rw [writeHeader]
    cases f.header with
    | none =>
      simp only [Option.getD_some, List.length_append, List.length_drop]
      omega
    | some n =>
      simp only [Option.getD_some, List.length_append, List.length_take, List.length_drop]
      omega
  rw [openLedgerWith]
  cases hopen : if f.openRw then none else file with
  | none =>
    simp only
    split_ifs
    · exact hsize
    · exact hwrite _ hsize
  | some bs =>
    have hfile : file = some bs := by
      by_cases hrw : f.openRw
      · simp [hrw] at hopen
      · simpa [hrw] using hopen
    rw [hfile, Option.getD_some] at hsize
    simp only [hfile]
    split_ifs <;> first | exact hsize | exact hwrite bs hsize

/-- One call keeps the records and adds its own when it reports success. -/
theorem Recoverable.write (h : Recoverable env files rs) (hf : f.Clean) (c : WriteCall) {out : Rc × LedgerFiles}
    (hout : out = ledgerWriteEntryWith env f files c.kind c.payload c.now) :
    ∃ ss, Recoverable env out.2 (rs ++ ss) ∧ (out.1 ≠ .ok ∨ ∃ r : Record, ss = [r] ∧ (r.kind.toNat : ℤ) = c.kind ∧
      r.blob = c.payload ∧ out.2.ledger = some (ledgerHeader ++ encodeAll (rs ++ [r]))) := by
  rw [hout, ledgerWriteEntryWith]
  by_cases hrange : c.kind < 1 ∨ (maxKind : ℤ) < c.kind
  · rw [if_pos hrange]
    exact ⟨[], by rwa [List.append_nil], .inl (by simp)⟩
  rw [if_neg hrange]
  by_cases hlen : c.payload.length ≤ maxBlobBytes
  swap
  · rw [dif_neg hlen]
    exact ⟨[], by rwa [List.append_nil], .inl (by simp)⟩
  rw [dif_pos hlen]
  have h1 : 1 ≤ c.kind := by omega
  have h16 : c.kind ≤ maxKind := by omega
  obtain ⟨hleft, hgoes⟩ := openLedgerWith_torn h.file hf (ledgerCap env.maxBytes)
  have hsize := openLedgerWith_size (f := f) h.size (ledgerCap env.maxBytes)
  rcases hopen : openLedgerWith f (ledgerCap env.maxBytes) files.ledger with ⟨_ | _, file⟩
  · rw [hopen] at hleft hsize
    exact ⟨[], by rw [List.append_nil]; exact h.withFile hleft hsize, .inl (by simp)⟩
  rw [hopen] at hgoes hsize
  obtain ⟨tail, htear, rfl⟩ := hgoes rfl
  obtain ⟨tail', htear', hshorter, hfile, hread⟩ :=
    scanForAppendWith_torn h.fits htear hf (UInt32.ofNat c.kind.toNat)
  simp only [Option.getD_some] at hsize ⊢
  rcases hscan : scanForAppendWith f (UInt32.ofNat c.kind.toNat) (ledgerHeader ++ (encodeAll rs ++ tail)) with ⟨file, scan⟩
  rw [hscan] at hfile hread
  obtain rfl : file = _ := hfile
  have hsize' : (ledgerHeader ++ (encodeAll rs ++ tail')).length ≤ offMax := by
    rw [List.length_append, List.length_append] at hsize ⊢
    omega
  cases scan with
  | none => exact ⟨[], by rw [List.append_nil]; exact h.withFile (.written rs htear') hsize', .inl (by simp)⟩
  | some scan =>
    obtain ⟨rfl, rfl⟩ := hread scan rfl
    rw [List.append_nil] at hsize' ⊢
    simp only [latest_entryHash]
    obtain ⟨ss, hnext, hdone⟩ := h.append hf h1 h16 hlen c.now rfl hsize' rfl
    refine ⟨ss, hnext, hdone.imp id ?_⟩
    rintro ⟨rfl, hledger⟩
    exact ⟨_, rfl, toNat_kind h1 h16, rfl, hledger⟩

end Runs

/-! ### Runs -/

/-- The files after a sequence of calls, each with its faults. -/
def runWith (env : LedgerEnv) (files : LedgerFiles) : List (Faults × WriteCall) → LedgerFiles
  | [] => files
  | (f, c) :: calls => runWith env (ledgerWriteEntryWith env f files c.kind c.payload c.now).2 calls

/-- The calls that were answered `FSQL_OK`. -/
def acknowledged (env : LedgerEnv) (files : LedgerFiles) : List (Faults × WriteCall) → List WriteCall
  | [] => []
  | (f, c) :: calls =>
    let out := ledgerWriteEntryWith env f files c.kind c.payload c.now
    if out.1 = .ok then c :: acknowledged env out.2 calls else acknowledged env out.2 calls

/-- The records that can be read from the ledger file. -/
def LedgerFiles.records (files : LedgerFiles) : List Record :=
  recordsOf ((files.ledger.getD []).drop ledgerHeader.length)

section Runs
variable {env : LedgerEnv} {files : LedgerFiles} {rs : List Record}

theorem Recoverable.run (h : Recoverable env files rs) {calls : List (Faults × WriteCall)}
    (hclean : ∀ c ∈ calls, c.1.Clean) :
    ∃ ss, Recoverable env (runWith env files calls) (rs ++ ss) ∧
      ((acknowledged env files calls).map fun c => (c.kind, c.payload)).Sublist
        (ss.map fun r => ((r.kind.toNat : ℤ), r.blob)) := by
  induction calls generalizing files rs with
  | nil => exact ⟨[], by rwa [List.append_nil], .slnil⟩
  | cons call calls ih =>
    obtain ⟨f, c⟩ := call
    obtain ⟨hf, hrest⟩ := List.forall_mem_cons.mp hclean
    obtain ⟨ss, hnext, hdone⟩ := h.write hf c rfl
    obtain ⟨ss', hfinal, hsub⟩ := ih hnext hrest
    rw [List.append_assoc] at hfinal
    refine ⟨ss ++ ss', hfinal, ?_⟩
    rw [acknowledged, List.map_append]
    split_ifs with hok
    · obtain ⟨r, rfl, hkind, hblob, -⟩ := hdone.resolve_left fun hne => hne hok
      rw [List.map_cons, List.map_singleton, hkind, hblob]
      exact hsub.cons_cons _
    · exact hsub.trans (List.sublist_append_right ..)

/-- A tear is not read as a record. -/
theorem Tear.recordsOf_eq {tail : Bytes} (h : Tear tail) : recordsOf tail = [] := by
  rcases h with rfl | ⟨r, hr, hp, hlt, h4⟩
  · exact recordsOf_nil
  · rw [Ledger.recordsOf_eq]
    rcases nextRecord_torn r hr hp hlt h4 with h | h <;> rw [h]

theorem Recoverable.records_eq (h : Recoverable env files rs) : files.records = rs := by
  obtain ⟨ledger, head, csv⟩ := files
  rw [LedgerFiles.records]
  have hfile := h.file
  cases hfile with
  | missing => exact recordsOf_nil
  | empty => exact recordsOf_nil
  | written rs htear =>
    rw [Option.getD_some, drop_ledgerHeader, recordsOf_append h.fits, htear.recordsOf_eq, List.append_nil]

/-- A ledger without a tear is healthy. -/
theorem Recoverable.holds (h : Recoverable env files rs) (hfile : FileHolds files.ledger rs) : LedgerHolds env files rs :=
  ⟨⟨hfile, h.fits, h.size, h.chains⟩, h.head⟩

/-- The next call with no fault works, if the ledger has room for its record. -/
theorem Recoverable.next_ok (h : Recoverable env files rs) {kind : ℤ} (h1 : 1 ≤ kind) (h16 : kind ≤ maxKind)
    {payload : Bytes} (hlen : payload.length ≤ maxBlobBytes) (now : Int64)
    (hcap : openLedger (ledgerCap env.maxBytes) files.ledger ≠ none)
    (hoff : 9 + (encodeAll rs).length + (116 + payload.length) ≤ offMax) :
    (ledgerWriteEntry env files kind payload now).1 = .ok := by
  cases hledger : files.ledger with
  | none =>
    have hfile : FileHolds files.ledger rs := by
      have := h.file
      rw [hledger] at this ⊢
      cases this
      exact .missing
    exact (h.holds hfile).chain.write_ok h1 h16 hlen now hcap hoff
  | some bs =>
    have htorn := h.file
    rw [hledger] at htorn
    cases htorn with
    | empty => exact (h.holds (hledger ▸ .empty)).chain.write_ok h1 h16 hlen now hcap hoff
    | written rs htear =>
      rcases htear with rfl | ⟨r, hr, hp, hlt, h4⟩
      · have hfile : FileHolds files.ledger rs := by
          rw [hledger, List.append_nil]
          exact .written rs
        exact (h.holds hfile).chain.write_ok h1 h16 hlen now hcap hoff
      · rename_i tail
        have hroom : ¬ LedgerFull env (ledgerHeader ++ (encodeAll rs ++ tail)) := by
          intro hfull
          apply hcap
          rw [hledger]
          exact if_pos hfull
        obtain ⟨_, _, hok, _⟩ := ledgerWriteEntry_torn h.fits hr hp hlt hledger h1 h16 hlen now hroom
        rw [hok, keptTail, if_neg (by omega), List.length_nil]
        omega

/-- What a run of faulty calls leaves: the records there were and others, among them
those of the acknowledged calls in their order; and a ledger that a call without a fault
appends to, if there is room, so that every chain is verified and its payload is read. -/
def Kept (env : LedgerEnv) (files : LedgerFiles) (rs : List Record) (calls : List (Faults × WriteCall)) : Prop :=
  ∃ ss, (runWith env files calls).records = rs ++ ss ∧
    ((acknowledged env files calls).map fun c => (c.kind, c.payload)).Sublist
      (ss.map fun r => ((r.kind.toNat : ℤ), r.blob)) ∧
    ∀ c : WriteCall, 1 ≤ c.kind → c.kind ≤ maxKind → c.payload.length ≤ maxBlobBytes →
      openLedger (ledgerCap env.maxBytes) (runWith env files calls).ledger ≠ none →
      9 + (encodeAll (rs ++ ss)).length + (116 + c.payload.length) ≤ offMax →
      let out := ledgerWriteEntry env (runWith env files calls) c.kind c.payload c.now
      out.1 = .ok ∧ ledgerReadEntry out.2 c.kind = .ok c.payload ∧
        ∃ r : Record, r.blob = c.payload ∧ out.2.records = rs ++ ss ++ [r] ∧
          ∀ k : UInt32, 1 ≤ k.toNat → k.toNat ≤ maxKind →
            fractalLedgerVerify env out.2 k = .verified (kindRecords k (rs ++ ss ++ [r])).length

theorem quiet_clean : Faults.Clean {} := ⟨by simp, by simp, by simp⟩

/-- No acknowledged record is lost to a failing call, and the ledger goes on after it. -/
theorem acknowledged_records_kept (h : LedgerHolds env files rs) {calls : List (Faults × WriteCall)}
    (hclean : ∀ c ∈ calls, c.1.Clean) : Kept env files rs calls := by
  obtain ⟨ss, hfinal, hsub⟩ := h.recoverable.run hclean
  refine ⟨ss, hfinal.records_eq, hsub, ?_⟩
  intro c h1 h16 hlen hcap hoff out
  have hok : out.1 = .ok := hfinal.next_ok h1 h16 hlen c.now hcap hoff
  have hquiet : out = ledgerWriteEntryWith env {} (runWith env files calls) c.kind c.payload c.now :=
    (ledgerWriteEntryWith_quiet env ..).symm
  obtain ⟨ts, hnext, hdone⟩ := hfinal.write quiet_clean c hquiet
  obtain ⟨r, rfl, hkind, hblob, hledger⟩ := hdone.resolve_left fun hne => hne hok
  have hholds := hnext.holds (hledger ▸ .written _)
  have hne : out.2.ledger ≠ some [] := by
    rw [hledger]
    simp [ledgerHeader]
  refine ⟨hok, ?_, r, hblob, hnext.records_eq, ?_⟩
  · have hkind' : UInt32.ofNat c.kind.toNat = r.kind := by
      apply UInt32.toNat_inj.mp
      have := toNat_kind h1 h16
      omega
    rw [hholds.chain.read hne h1 h16, hkind', kindRecords_append, kindRecords_cons, if_pos rfl, kindRecords_nil,
      List.map_append, List.map_singleton, hblob, newestPayload, List.getLast?_concat]
  · intro k hk1 hk16
    obtain ⟨recs, hh, hle⟩ := hholds.head
    rcases hholds.chain.verify hne hh hk1 hk16 with ⟨-, hverified⟩ | ⟨hlt, -⟩
    · exact hverified
    · exact absurd (hle k hk1 hk16) (not_le.mpr hlt)

/-- An append that stops after forty bytes, and one that works. -/
def tornCalls : List (Faults × WriteCall) := [({ record := some 40 }, ⟨1, [5], 0⟩), ({}, ⟨2, [8], 0⟩)]

theorem acknowledged_records_kept_torn : Kept (sampleEnv none) {} [] tornCalls := by
  apply acknowledged_records_kept (ledgerHolds_fresh (.inl rfl))
  intro c hc
  rcases List.mem_pair.mp hc with rfl | rfl
  · exact ⟨by simp, by simp, by simp⟩
  · exact quiet_clean

end Runs

/-! ### What is not undone -/

section TornHeader
variable (env : LedgerEnv)

theorem openLedger_tornHeader (cap : ℤ) {n : ℕ} (hpos : 0 < n) (hlt : n < ledgerHeader.length) :
    openLedger cap (some (ledgerHeader.take n)) = none := by
  have hlen : (ledgerHeader.take n).length = n := by
    rw [List.length_take]
    omega
  have hne : ledgerHeader.take n ≠ [] := by
    intro hnil
    rw [hnil] at hlen
    exact hpos.ne hlen
  have hfront : ledgerHeader.isPrefixOf (ledgerHeader.take n) = false := by
    by_contra htrue
    have hle := (List.isPrefixOf_iff_prefix.mp (Bool.of_not_eq_false htrue)).length_le
    omega
  rw [openLedger]
  split_ifs with hcap hfound
  · rfl
  · rw [hfront] at hfound
    cases hfound
  · rfl

/-- No append gets past a header that was cut off. -/
theorem appendAll_tornHeader (files : LedgerFiles) {n : ℕ} (hpos : 0 < n) (hlt : n < ledgerHeader.length)
    (hfile : files.ledger = some (ledgerHeader.take n)) (calls : List WriteCall) :
    appendAll env files calls = files ∧ appended env files calls = [] := by
  have hstep (c : WriteCall) : ledgerWriteEntry env files c.kind c.payload c.now = (.storage, files) := by
    rw [ledgerWriteEntry, hfile, openLedger_tornHeader _ hpos hlt]
    split_ifs <;> rfl
  induction calls with
  | nil => exact ⟨rfl, rfl⟩
  | cons c calls ih =>
    rw [appendAll, appended, hstep]
    exact ih

/-- A first append whose header write stops after one to eight bytes leaves a ledger that
nothing is ever appended to: every later call is refused, and the file stays as it is. -/
theorem torn_header_stays {n : ℕ} (hpos : 0 < n) (hlt : n < ledgerHeader.length) {c : WriteCall} (h1 : 1 ≤ c.kind)
    (h16 : c.kind ≤ maxKind) (hlen : c.payload.length ≤ maxBlobBytes) (calls : List WriteCall) :
    let files := (ledgerWriteEntryWith env { header := some n } {} c.kind c.payload c.now).2
    files.ledger = some (ledgerHeader.take n) ∧ appendAll env files calls = files ∧ appended env files calls = [] := by
  have hleft : (ledgerWriteEntryWith env { header := some n } {} c.kind c.payload c.now).2.ledger =
      some (ledgerHeader.take n) := by
    rw [ledgerWriteEntryWith, if_neg (by omega), dif_pos hlen]
    simp [openLedgerWith, writeHeader]
  exact ⟨hleft, appendAll_tornHeader env _ hpos hlt hleft calls⟩

theorem torn_header_stays_one_byte :
    let files := (ledgerWriteEntryWith (sampleEnv none) { header := some 1 } {} 1 [5] 0).2
    files.ledger = some [0x46] ∧ appendAll (sampleEnv none) files [⟨1, [6], 0⟩] = files ∧
      appended (sampleEnv none) files [⟨1, [6], 0⟩] = [] :=
  torn_header_stays (sampleEnv none) (c := ⟨1, [5], 0⟩) (by decide) (by decide) (by decide) (by decide)
    (by decide) [⟨1, [6], 0⟩]

end TornHeader

end FractalSQL.Ledger
