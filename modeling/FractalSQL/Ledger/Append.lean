import FractalSQL.Ledger.Store
import FractalSQL.Ledger.HeadUpdate

/-!
# One append to a ledger whose records are all complete

The writer's scan finds the end of the wanted chain, and the record it builds is
sound and names that end. So every chain of the file stays sound and linked: the
written kind's by one record, the others untouched.
-/
namespace FractalSQL.Ledger
open Lib

/-! ### The scan before the append -/

theorem ledgerHeader_length : ledgerHeader.length = 9 := rfl

theorem drop_ledgerHeader (fp : Bytes) : (ledgerHeader ++ fp).drop ledgerHeader.length = fp :=
  List.drop_left

theorem ledgerOpenForRead_header (fp : Bytes) :
    ledgerOpenForRead (some (ledgerHeader ++ fp)) = .records fp := by
  simp only [ledgerOpenForRead, dropLit_append]

/-- What the scan reports on a list of records. -/
def scanOf (kind : UInt32) (rs : List Record) : ScanResult where
  latest := (kindRecords kind rs).getLast?
  prior := (kindRecords kind rs).dropLast.getLast?
  records := rs.length
  kindRecords := (kindRecords kind rs).length

theorem scanForAppend_framed {fp tail : Bytes} {rs : List Record} (h : Framed fp rs tail)
    (kind : UInt32) :
    scanForAppend kind (ledgerHeader ++ fp) = (ledgerHeader ++ fp, some (scanOf kind rs)) := by
  simp only [scanForAppend, drop_ledgerHeader, h.scan kind, scanOf]

/-- The hash of the newest record of a kind is its chain's end. -/
theorem latest_entryHash (kind : UInt32) (rs : List Record) :
    entryHashOf (scanOf kind rs).latest = chainEnd kind zeroHash rs := by
  simp only [scanOf, chainEnd]
  rcases List.eq_nil_or_concat' (kindRecords kind rs) with h | ⟨ss, r, h⟩
  · simp [h, entryHashOf]
  · simp [h, entryHashOf]

/-! ### The record that is appended -/

section Env
variable {env : LedgerEnv}

theorem newRecord_sound (kind : UInt32) (payload : Bytes) (hlen : payload.length ≤ maxBlobBytes)
    (prev : Hash) (now : Int64) :
    (newRecord env kind payload hlen prev now).Sound env.crypto env.key := by
  constructor
  · intro k hk
    obtain hk : env.key = some k := hk
    simp [newRecord, hk]
  · cases hk : env.key with
    | none => simp [newRecord, Record.preimage, hk]
    | some k => simp [newRecord, Record.preimage, hk]

/-- Appending a sound record that names its chain's end keeps every chain. -/
theorem chainFrom_concat {rs : List Record} {r : Record} {k : UInt32}
    (hc : ChainFrom env.crypto env.key k zeroHash rs) (hs : r.Sound env.crypto env.key)
    (hprev : r.prevHash = chainEnd r.kind zeroHash rs) :
    ChainFrom env.crypto env.key k zeroHash (rs ++ [r]) := by
  by_cases hk : r.kind = k
  · subst hk
    constructor
    · simpa [kindRecords_cons, or_imp, forall_and] using ⟨hc.sound, hs⟩
    · rw [kindRecords_append, kindRecords_cons, if_pos rfl, kindRecords_nil, linked_concat]
      exact ⟨hc.linked, hprev⟩
  · have hsame : kindRecords k (rs ++ [r]) = kindRecords k rs := by
      simp [kindRecords_cons, hk]
    exact ⟨hsame ▸ hc.sound, hsame ▸ hc.linked⟩

/-- The record the writer appends to the records `rs`. -/
def nextEntry (env : LedgerEnv) (rs : List Record) (kind : UInt32) (payload : Bytes)
    (hlen : payload.length ≤ maxBlobBytes) (now : Int64) : Record :=
  newRecord env kind payload hlen (chainEnd kind zeroHash rs) now

theorem nextEntry_fits (rs : List Record) (kind : UInt32) {payload : Bytes}
    (hlen : payload.length ≤ maxBlobBytes) (now : Int64) :
    (nextEntry env rs kind payload hlen now).Fits := hlen

theorem nextEntry_chain {rs : List Record} {k : UInt32}
    (hc : ChainFrom env.crypto env.key k zeroHash rs) (kind : UInt32) {payload : Bytes}
    (hlen : payload.length ≤ maxBlobBytes) (now : Int64) :
    ChainFrom env.crypto env.key k zeroHash (rs ++ [nextEntry env rs kind payload hlen now]) :=
  chainFrom_concat hc (newRecord_sound ..) rfl

/-- The writer after its scan, on a file that is left holding the records `rs`. -/
theorem ledgerWriteEntry_scanned {files : LedgerFiles} {kind : ℤ} {payload file : Bytes}
    {rs : List Record} {opened : Bytes} (h1 : 1 ≤ kind) (h16 : kind ≤ maxKind)
    (hlen : payload.length ≤ maxBlobBytes) (now : Int64)
    (hopen : openLedger (ledgerCap env.maxBytes) files.ledger = some opened)
    (hscan : scanForAppend (UInt32.ofNat kind.toNat) opened =
      (file, some (scanOf (UInt32.ofNat kind.toNat) rs))) :
    ledgerWriteEntry env files kind payload now =
      if offMax < file.length +
          (nextEntry env rs (UInt32.ofNat kind.toNat) payload hlen now).encode.length then
        (.storage, { files with ledger := some file })
      else (.ok,
        { ledger := some (file ++ (nextEntry env rs (UInt32.ofNat kind.toNat) payload hlen now).encode)
          head := ledgerHeadUpdate env.crypto env.key files.head kind
            (kindRecords (UInt32.ofNat kind.toNat) rs).length
          csv := ledgerCsvAppend files.csv
            (nextEntry env rs (UInt32.ofNat kind.toNat) payload hlen now) rs.length }) := by
  have hrange : ¬ (kind < 1 ∨ (maxKind : ℤ) < kind) := by omega
  simp only [ledgerWriteEntry, if_neg hrange, dif_pos hlen, hopen, hscan, latest_entryHash]
  rfl

end Env

/-! ### Ledgers with sound chains -/

/-- A ledger file that holds exactly the records `rs`: one that was never
written to has none. -/
inductive FileHolds : Option Bytes → List Record → Prop
  | missing : FileHolds none []
  | empty : FileHolds (some []) []
  | written (rs : List Record) : FileHolds (some (ledgerHeader ++ encodeAll rs)) rs

/-- The chain file of a healthy ledger. -/
structure ChainHolds (env : LedgerEnv) (ledger : Option Bytes) (rs : List Record) : Prop where
  file : FileHolds ledger rs
  fits : ∀ r ∈ rs, r.Fits
  size : (ledger.getD []).length ≤ offMax
  chains : ∀ k : UInt32, 1 ≤ k.toNat → k.toNat ≤ maxKind →
    ChainFrom env.crypto env.key k zeroHash rs

theorem toNat_kind {kind : ℤ} (h1 : 1 ≤ kind) (h16 : kind ≤ maxKind) :
    ((UInt32.ofNat kind.toNat).toNat : ℤ) = kind := by
  unfold maxKind at h16
  rw [UInt32.toNat_ofNat_of_lt' (by change _ < 2 ^ 32; omega)]
  omega

section Env
variable {env : LedgerEnv}

/-- The record counts of a file fit the types they are counted in. -/
theorem ChainHolds.count_le {ledger : Option Bytes} {rs : List Record}
    (h : ChainHolds env ledger rs) (k : UInt32) : ((kindRecords k rs).length : ℤ) ≤ longMax := by
  have hk := kindRecords_length_le k rs
  have hrs : rs.length ≤ offMax := by
    cases h.file with
    | missing => simp
    | empty => simp
    | written =>
      have hsize := h.size
      have hge := encodeAll_length_ge rs
      rw [Option.getD_some, List.length_append] at hsize
      omega
  unfold longMax
  unfold offMax at hrs
  omega

/-- What the writer opens on a healthy ledger: it refuses it for its size, or
goes on with all its records. -/
theorem ChainHolds.openLedger_eq {ledger : Option Bytes} {rs : List Record}
    (h : ChainHolds env ledger rs) (cap : ℤ) :
    openLedger cap ledger = none ∨ openLedger cap ledger = some (ledgerHeader ++ encodeAll rs) := by
  cases h.file with
  | missing => exact .inr rfl
  | empty =>
    right
    rw [openLedger, if_neg (by simp)]
    rfl
  | written =>
    simp only [openLedger]
    split
    · exact .inl rfl
    · right
      rw [if_neg (by simp [ledgerHeader]), if_pos (by simp)]

/-- One call of the writer on a healthy ledger: it is refused and nothing
changes, or one record is added and the ledger stays healthy. -/
theorem ChainHolds.write {files : LedgerFiles} {rs : List Record}
    (h : ChainHolds env files.ledger rs) (kind : ℤ) (payload : Bytes) (now : Int64) :
    ((ledgerWriteEntry env files kind payload now).1 ≠ .ok ∧
        (ledgerWriteEntry env files kind payload now).2 = files) ∨
      ∃ r : Record, (ledgerWriteEntry env files kind payload now).1 = .ok ∧
        1 ≤ kind ∧ kind ≤ maxKind ∧ r.kind = UInt32.ofNat kind.toNat ∧ r.blob = payload ∧
        (ledgerWriteEntry env files kind payload now).2.ledger =
          some (ledgerHeader ++ encodeAll (rs ++ [r])) ∧
        (ledgerWriteEntry env files kind payload now).2.head =
          ledgerHeadUpdate env.crypto env.key files.head kind (kindRecords r.kind rs).length ∧
        ChainHolds env (ledgerWriteEntry env files kind payload now).2.ledger (rs ++ [r]) := by
  by_cases hrange : kind < 1 ∨ (maxKind : ℤ) < kind
  · exact .inl (by simp [ledgerWriteEntry, hrange])
  by_cases hlen : payload.length ≤ maxBlobBytes
  swap
  · exact .inl (by simp [ledgerWriteEntry, hrange, hlen])
  rcases h.openLedger_eq (ledgerCap env.maxBytes) with hopen | hopen
  · exact .inl (by simp [ledgerWriteEntry, hrange, hlen, hopen])
  have h1 : 1 ≤ kind := by omega
  have h16 : kind ≤ maxKind := by omega
  have hscan := scanForAppend_framed (framed_encodeAll h.fits) (UInt32.ofNat kind.toNat)
  rw [ledgerWriteEntry_scanned h1 h16 hlen now hopen hscan]
  split
  · -- The file would outgrow its offsets, so it holds more than a header.
    rename_i hbig
    left
    refine ⟨by simp, ?_⟩
    have hfresh : rs ≠ [] := by
      rintro rfl
      rw [Record.encode_length] at hbig
      have hpay : (nextEntry env [] (UInt32.ofNat kind.toNat) payload hlen now).blob.length ≤
        maxBlobBytes := hlen
      simp [ledgerHeader, offMax, maxBlobBytes] at hbig hpay
      omega
    obtain ⟨ledger, head, csv⟩ := files
    cases h.file with
    | missing => exact absurd rfl hfresh
    | empty => exact absurd rfl hfresh
    | written => rfl
  · rename_i hroom
    right
    refine ⟨nextEntry env rs (UInt32.ofNat kind.toNat) payload hlen now, rfl, h1, h16, rfl, rfl,
      by simp, rfl, ?_⟩
    refine ⟨?_, ?_, ?_, fun k hk1 hk16 => nextEntry_chain (h.chains k hk1 hk16) _ hlen now⟩
    · simpa using FileHolds.written
        (rs ++ [nextEntry env rs (UInt32.ofNat kind.toNat) payload hlen now])
    · intro r hr
      rcases List.mem_append.mp hr with hr | hr
      · exact h.fits r hr
      · rw [List.mem_singleton.mp hr]
        exact nextEntry_fits rs _ hlen now
    · simpa [Nat.add_assoc] using Nat.le_of_not_lt hroom

/-- A call with a known kind and a payload within the ceiling is refused only
for the size of the file. -/
theorem ChainHolds.write_ok {files : LedgerFiles} {rs : List Record}
    (h : ChainHolds env files.ledger rs) {kind : ℤ} (h1 : 1 ≤ kind) (h16 : kind ≤ maxKind)
    {payload : Bytes} (hlen : payload.length ≤ maxBlobBytes) (now : Int64)
    (hcap : openLedger (ledgerCap env.maxBytes) files.ledger ≠ none)
    (hoff : 9 + (encodeAll rs).length + (116 + payload.length) ≤ offMax) :
    (ledgerWriteEntry env files kind payload now).1 = .ok := by
  have hopen := (h.openLedger_eq (ledgerCap env.maxBytes)).resolve_left hcap
  have hscan := scanForAppend_framed (framed_encodeAll h.fits) (UInt32.ofNat kind.toNat)
  rw [ledgerWriteEntry_scanned h1 h16 hlen now hopen hscan, if_neg]
  rw [Record.encode_length, List.length_append, ledgerHeader_length, Nat.not_lt]
  exact hoff

/-! ### Reading a healthy ledger -/

theorem ChainHolds.verify {files : LedgerFiles} {rs : List Record}
    (h : ChainHolds env files.ledger rs) (hne : files.ledger ≠ some []) {recs : List HeadRec}
    (hh : HeadHolds env.crypto env.key files.head recs) {k : UInt32} (h1 : 1 ≤ k.toNat)
    (h16 : k.toNat ≤ maxKind) :
    (headRows recs k.toNat ≤ (kindRecords k rs).length ∧
        fractalLedgerVerify env files k = .verified (kindRecords k rs).length) ∨
      ((kindRecords k rs).length < headRows recs k.toNat ∧
        ∃ id reason, fractalLedgerVerify env files k = .failed id reason) := by
  have hget := ledgerHeadGet_eq hh.read h1 h16
  cases hf : files.ledger with
  | none =>
    have hrs : rs = [] := by
      have := h.file
      rw [hf] at this
      cases this
      rfl
    subst hrs
    by_cases hpos : 0 < headRows recs k.toNat
    · exact .inr ⟨by simpa using hpos, 0, .missing, by
        simp [fractalLedgerVerify, hf, ledgerOpenForRead, hget, hpos]⟩
    · exact .inl ⟨by simpa using hpos, by
        simp [fractalLedgerVerify, hf, ledgerOpenForRead, hget, hpos]⟩
  | some bs =>
    have hbs : bs = ledgerHeader ++ encodeAll rs := by
      have := h.file
      rw [hf] at this
      cases this with
      | empty => exact absurd hf hne
      | written => rfl
    subst hbs
    have hwalk := (framed_encodeAll h.fits).verifyWalk_eq (h.chains k h1 h16)
    have hint : toInt32 k.toNat = k.toNat := by
      apply toInt32_eq (by omega)
      unfold maxKind at h16
      omega
    have hcheck := hh.check (by omega : (1 : ℤ) ≤ k.toNat) (by omega)
    have hreport : fractalLedgerVerify env files k =
        if ((kindRecords k rs).length : ℤ) < headRows recs k.toNat then
          .failed ((kindRecords k rs).length + 1) .fewerRows
        else .verified (kindRecords k rs).length := by
      simp only [fractalLedgerVerify, hf, ledgerOpenForRead_header, walkReport, hwalk, hint, hcheck,
        hget]
    by_cases hlt : ((kindRecords k rs).length : ℤ) < headRows recs k.toNat
    · exact .inr ⟨hlt, _, _, hreport.trans (if_pos hlt)⟩
    · exact .inl ⟨not_lt.mp hlt, hreport.trans (if_neg hlt)⟩

theorem ChainHolds.ledgerOpenForRead_eq {ledger : Option Bytes} {rs : List Record}
    (h : ChainHolds env ledger rs) (hne : ledger ≠ some []) :
    (ledgerOpenForRead ledger = .missing ∧ rs = []) ∨
      ledgerOpenForRead ledger = .records (encodeAll rs) := by
  cases h.file with
  | missing => exact .inl ⟨rfl, rfl⟩
  | empty => exact absurd rfl hne
  | written => exact .inr (ledgerOpenForRead_header _)

/-- The newest record of a chain and its link pass the load-time check. -/
theorem Framed.verifyLatest {files : LedgerFiles} {fp tail : Bytes} {rs : List Record} {k : UInt32}
    (h : Framed fp rs tail) (hopen : ledgerOpenForRead files.ledger = .records fp)
    (hc : ChainFrom env.crypto env.key k zeroHash rs) : ledgerVerifyLatestFile env files k = .ok := by
  simp only [ledgerVerifyLatestFile, hopen, h.scan k]
  rcases List.eq_nil_or_concat' (kindRecords k rs) with hnil | ⟨ss, r, hlast⟩
  · simp [hnil]
  · obtain ⟨hkeyed, hdigest⟩ := hc.sound r (by simp [hlast])
    have hlink := hc.linked
    rw [hlast, linked_concat] at hlink
    have hprior : entryHashOf ss.getLast? = endHash Record.entryHash zeroHash ss := by
      rcases List.eq_nil_or_concat' ss with rfl | ⟨ss', p, rfl⟩
      · rfl
      · simp [entryHashOf]
    have hmac : ¬ (env.key.isSome ∧ r.hasMac = 0) := by
      rintro ⟨hsome, hzero⟩
      obtain ⟨key, hkey⟩ := Option.isSome_iff_exists.mp hsome
      exact (hkeyed key hkey).1 hzero
    have hhmac : ∀ key, env.key = some key → env.crypto.hmacSha256 key r.blob = r.mac :=
      fun key hkey => (hkeyed key hkey).2
    simpa [hlast, hmac, hdigest, hprior, hlink.2] using hhmac

theorem ChainHolds.verifyLatest {files : LedgerFiles} {rs : List Record}
    (h : ChainHolds env files.ledger rs) (hne : files.ledger ≠ some []) {k : UInt32}
    (h1 : 1 ≤ k.toNat) (h16 : k.toNat ≤ maxKind) : ledgerVerifyLatestFile env files k = .ok := by
  rcases h.ledgerOpenForRead_eq hne with ⟨hopen, -⟩ | hopen
  · simp [ledgerVerifyLatestFile, hopen]
  · exact (framed_encodeAll h.fits).verifyLatest hopen (h.chains k h1 h16)

/-- The answer of a read to the payloads of a kind, oldest first. -/
def newestPayload (payloads : List Bytes) : Except Rc Bytes :=
  match payloads.getLast? with
  | some payload => .ok payload
  | none => .error .unavailable

/-- A read returns the newest payload of the kind. -/
theorem ChainHolds.read {files : LedgerFiles} {rs : List Record}
    (h : ChainHolds env files.ledger rs) (hne : files.ledger ≠ some []) {kind : ℤ}
    (h1 : 1 ≤ kind) (h16 : kind ≤ maxKind) :
    ledgerReadEntry files kind =
      newestPayload ((kindRecords (UInt32.ofNat kind.toNat) rs).map Record.blob) := by
  have hrange : ¬ (kind < 1 ∨ (maxKind : ℤ) < kind) := by omega
  rcases h.ledgerOpenForRead_eq hne with ⟨hopen, rfl⟩ | hopen
  · simp [ledgerReadEntry, hrange, hopen, newestPayload]
  · simp only [ledgerReadEntry, if_neg hrange, hopen, (framed_encodeAll h.fits).scan]
    rcases List.eq_nil_or_concat' (kindRecords (UInt32.ofNat kind.toNat) rs) with
      hnil | ⟨ss, r, hlast⟩
    · simp [hnil, newestPayload]
    · simp [hlast, newestPayload]

end Env

end FractalSQL.Ledger
