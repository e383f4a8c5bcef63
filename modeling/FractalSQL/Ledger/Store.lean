import FractalSQL.Ledger.HeadText
import FractalSQL.Ledger.Mirror
import FractalSQL.Ledger.Chain

/-!
# Appending to the ledger and reading it back

The ledger on disk is three files: the chain, the head and the mirror. Every
operation runs under one process lock, so it is a function from the files to
its result and the files it leaves. File operations succeed, except that no
file grows past what an `off_t` can address.
-/
namespace FractalSQL.Ledger
open Lib

/-- `FSQL_OK`, `FSQL_ESTORAGE`, `FSQL_ESTORAGE_UNAVAILABLE`, `FSQL_ESTORAGE_INTEGRITY`. -/
inductive Rc where
  | ok
  | storage
  | unavailable
  | integrity
deriving DecidableEq

/-- The contents of the ledger's files, `none` where there is no file. -/
structure LedgerFiles where
  ledger : Option Bytes := none
  head : Option Bytes := none
  csv : Option Bytes := none
deriving DecidableEq

/-- What a ledger call reads from the process: the digests, the ledger key and
the value of `FRACTALSQL_LEDGER_MAX_BYTES`. -/
structure LedgerEnv where
  crypto : Crypto
  key : Option Bytes
  maxBytes : Option Bytes

/-- The largest offset of a file. -/
def offMax : ℕ := 2 ^ 63 - 1

/-- The size past which appends are refused; 0 is no bound, and a value that is
no number is ignored. -/
def ledgerCap (maxBytes : Option Bytes) : ℤ :=
  match maxBytes with
  | none => 1073741824
  | some mx =>
    match strtoInt longMin longMax mx with
    | some (v, []) => if 0 ≤ v then v else 1073741824
    | _ => 1073741824

/-- The outcomes of `ledger_open_for_read`. -/
inductive OpenRead where
  | missing
  | badHeader
  | records (fp : Bytes)
deriving DecidableEq

def ledgerOpenForRead (file : Option Bytes) : OpenRead :=
  match file with
  | none => .missing
  | some bs =>
    match dropLit ledgerHeader bs with
    | none => .badHeader
    | some fp => .records fp

/-! ### The writer -/

/-- The file `ledger_write_entry` scans: a missing or empty one gets its header,
a full one or one with another header is refused. -/
def openLedger (cap : ℤ) (file : Option Bytes) : Option Bytes :=
  match file with
  | none => some ledgerHeader
  | some bs =>
    if 0 < cap ∧ cap ≤ bs.length then none
    else if bs = [] then some ledgerHeader
    else if ledgerHeader.isPrefixOf bs then some bs
    else none

/-- `ledger_repair_torn_tail` on a file whose header was just checked. -/
def ledgerRepairTornTail (file : Bytes) : Bytes :=
  match repairLoop (file.drop ledgerHeader.length) ledgerHeader.length with
  | none => file
  | some tornAt => file.take tornAt

/-- The scan of the writer: when it fails the file is repaired and scanned once
more. -/
def scanForAppend (kind : UInt32) (file : Bytes) : Bytes × Option ScanResult :=
  match ledgerScanLatestTwo kind (file.drop ledgerHeader.length) with
  | some scan => (file, some scan)
  | none =>
    let repaired := ledgerRepairTornTail file
    (repaired, ledgerScanLatestTwo kind (repaired.drop ledgerHeader.length))

/-- The hash a record after `r` links to: the zero sentinel when there is none. -/
def entryHashOf (r : Option Record) : Hash :=
  match r with
  | some r => r.entryHash
  | none => zeroHash

section Env
variable (env : LedgerEnv)

/-- The record `ledger_write_entry` builds, chained to `prev`. -/
def newRecord (kind : UInt32) (payload : Bytes) (hlen : payload.length ≤ maxBlobBytes) (prev : Hash)
    (now : Int64) : Record where
  kind := kind
  hasMac := if env.key.isSome then 1 else 0
  isSealed := 0
  reserved := Block.zero 2
  mac := match env.key with
    | some k => env.crypto.hmacSha256 k payload
    | none => zeroHash
  prevHash := prev
  entryHash := env.crypto.sha256 (prev.val ++ (payload ++ match env.key with
    | some k => (env.crypto.hmacSha256 k payload).val
    | none => []))
  updated := now
  blob := payload
  lengthFits := lt_of_le_maxBlobBytes hlen

/-- `ledger_write_entry`. -/
def ledgerWriteEntry (files : LedgerFiles) (kind : ℤ) (payload : Bytes) (now : Int64) :
    Rc × LedgerFiles :=
  if kind < 1 ∨ (maxKind : ℤ) < kind then (.storage, files)
  else if hlen : payload.length ≤ maxBlobBytes then
    match openLedger (ledgerCap env.maxBytes) files.ledger with
    | none => (.storage, files)
    | some file =>
      match scanForAppend (UInt32.ofNat kind.toNat) file with
      | (file, none) => (.storage, { files with ledger := some file })
      | (file, some scan) =>
        let r := newRecord env (UInt32.ofNat kind.toNat) payload hlen (entryHashOf scan.latest) now
        if offMax < file.length + r.encode.length then (.storage, { files with ledger := some file })
        else (.ok,
          { ledger := some (file ++ r.encode)
            head := ledgerHeadUpdate env.crypto env.key files.head kind scan.kindRecords
            csv := ledgerCsvAppend files.csv r scan.records })
  else (.storage, files)

/-! ### The readers -/

/-- `ledger_read_entry`: the payload of the newest record of a kind. -/
def ledgerReadEntry (files : LedgerFiles) (kind : ℤ) : Except Rc Bytes :=
  if kind < 1 ∨ (maxKind : ℤ) < kind then .error .storage
  else match ledgerOpenForRead files.ledger with
    | .missing => .error .unavailable
    | .badHeader => .error .storage
    | .records fp =>
      match ledgerScanLatestTwo (UInt32.ofNat kind.toNat) fp with
      | none => .error .storage
      | some scan =>
        match scan.latest with
        | none => .error .unavailable
        | some r => .ok r.blob

/-- `ledger_verify_latest_file`: the newest record of a kind and its link. -/
def ledgerVerifyLatestFile (files : LedgerFiles) (kind : UInt32) : Rc :=
  match ledgerOpenForRead files.ledger with
  | .missing => .ok
  | .badHeader => .integrity
  | .records fp =>
    match ledgerScanLatestTwo kind fp with
    | none => .integrity
    | some scan =>
      match scan.latest with
      | none => .ok
      | some r =>
        if env.key.isSome ∧ r.hasMac = 0 then .integrity
        else if ∃ k ∈ env.key, env.crypto.hmacSha256 k r.blob ≠ r.mac then .integrity
        else if env.crypto.sha256 r.preimage ≠ r.entryHash then .integrity
        else if r.prevHash ≠ entryHashOf scan.prior then .integrity
        else .ok

/-- Why `fractal_ledger_verify` refuses a ledger. -/
inductive VerifyFault where
  | missing
  | badHeader
  | chain (f : ChainFault)
  | head (f : HeadFault)
  | fewerRows
deriving DecidableEq

def VerifyFault.text : VerifyFault → String
  | .missing => "ledger file is missing but rows were recorded (wiped or replaced)"
  | .badHeader => "bad ledger file header"
  | .chain f => f.text
  | .head f => f.text
  | .fewerRows => "chain holds fewer rows than were recorded (rows removed, or the ledger was replaced)"

/-- The JSON document of `fractal_ledger_verify`. -/
inductive VerifyReport where
  | verified (rows : ℕ)
  | failed (firstFailureId : ℕ) (reason : VerifyFault)
deriving DecidableEq

def VerifyReport.text : VerifyReport → String
  | .verified rows => "\x7b\"ok\":true,\"rows_verified\":" ++ toString rows ++ "\x7d"
  | .failed id reason =>
    "\x7b\"ok\":false,\"first_failure_id\":" ++ toString id ++ ",\"reason\":\"" ++ reason.text ++ "\"\x7d"

/-- The verdict on a chain that was walked: its own fault comes first, then the
head record's, then a row count below the recorded one. -/
def walkReport (files : LedgerFiles) (kind : UInt32) (walk : WalkResult) : VerifyReport :=
  match walk.fault with
  | some (id, f) => .failed id (.chain f)
  | none =>
    match ledgerHeadCheck env.crypto env.key files.head (toInt32 kind.toNat) with
    | some f => .failed 0 (.head f)
    | none =>
      if (walk.rows : ℤ) < ledgerHeadGet files.head kind then .failed (walk.rows + 1) .fewerRows
      else .verified walk.rows

/-- `fractal_ledger_verify`. -/
def fractalLedgerVerify (files : LedgerFiles) (kind : UInt32) : VerifyReport :=
  match ledgerOpenForRead files.ledger with
  | .missing => if 0 < ledgerHeadGet files.head kind then .failed 0 .missing else .verified 0
  | .badHeader => .failed 0 .badHeader
  | .records fp => walkReport env files kind (verifyWalk env.crypto env.key kind fp)

end Env

end FractalSQL.Ledger
