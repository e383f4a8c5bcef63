import FractalSQL.Ledger.Record
import FractalSQL.Lib.HashChain

/-!
# The three walkers of the ledger file

`ledger_scan_latest_two`, `ledger_repair_torn_tail` and the loop of
`fractal_ledger_verify` each walk the records after the nine-byte file header.
Every walker is given the remaining bytes of the stream. SHA-256 and HMAC are
abstract functions.
-/
namespace FractalSQL.Ledger
open Lib

/-- The two keyed and unkeyed digests the ledger uses. -/
structure Crypto where
  sha256 : Bytes → Hash
  hmacSha256 : Bytes → Bytes → Hash

/-- Every complete record consumes bytes, so the walkers stop. -/
theorem nextRecord_rest_lt {fp rest : Bytes} {r : Record} (h : nextRecord fp = .record r rest) :
    rest.length < fp.length := by
  obtain ⟨_, rfl⟩ := nextRecord_eq_record h
  rw [List.length_append, r.encode_length]
  omega

/-- The output parameters of `ledger_scan_latest_two`. -/
structure ScanResult where
  latest : Option Record := none
  prior : Option Record := none
  records : ℕ := 0
  kindRecords : ℕ := 0
deriving DecidableEq

def ScanResult.see (want : UInt32) (acc : ScanResult) (r : Record) : ScanResult :=
  if r.kind = want then
    { latest := some r, prior := acc.latest, records := acc.records + 1,
      kindRecords := acc.kindRecords + 1 }
  else { acc with records := acc.records + 1 }

def scanLoop (want : UInt32) (fp : Bytes) (acc : ScanResult) : Option ScanResult :=
  match h : nextRecord fp with
  | .eof => some acc
  | .record r rest =>
    have := nextRecord_rest_lt h
    scanLoop want rest (acc.see want r)
  | _ => none
termination_by fp.length

theorem scanLoop_eq (want : UInt32) (fp : Bytes) (acc : ScanResult) :
    scanLoop want fp acc = match nextRecord fp with
      | .eof => some acc
      | .record r rest => scanLoop want rest (acc.see want r)
      | _ => none := by
  rw [scanLoop]
  split <;> simp [*]

/-- `none` is the -1 of a corrupt or truncated file. -/
def ledgerScanLatestTwo (want : UInt32) (fp : Bytes) : Option ScanResult := scanLoop want fp {}

/-- Where `ledger_repair_torn_tail` cuts: the offset of the first record that
does not read whole, given the offset of the remaining bytes. -/
def repairLoop (fp : Bytes) (offset : ℕ) : Option ℕ :=
  match h : nextRecord fp with
  | .eof => none
  | .record _ rest =>
    have := nextRecord_rest_lt h
    repairLoop rest (offset + (fp.length - rest.length))
  | _ => some offset
termination_by fp.length

theorem repairLoop_eq (fp : Bytes) (offset : ℕ) :
    repairLoop fp offset = match nextRecord fp with
      | .eof => none
      | .record _ rest => repairLoop rest (offset + (fp.length - rest.length))
      | _ => some offset := by
  rw [repairLoop]
  split <;> simp [*]

/-- Why the full walk refuses a chain. -/
inductive ChainFault where
  | truncatedRecord
  | lengthOutOfRange
  | truncatedBlob
  | noMac
  | hmacMismatch
  | entryHashMismatch
  | linkBreak
deriving DecidableEq

def ChainFault.text : ChainFault → String
  | .truncatedRecord => "truncated or corrupt record"
  | .lengthOutOfRange => "record blob length out of range"
  | .truncatedBlob => "truncated blob"
  | .noMac => "row has no MAC but a ledger key is configured"
  | .hmacMismatch => "HMAC mismatch"
  | .entryHashMismatch => "entry_hash mismatch (structural tamper)"
  | .linkBreak => "chain-link break (prev_hash does not match predecessor -- row rewritten, reordered, or deleted)"

/-- The string a record's `entry_hash` digests: `prev || blob`, then the MAC
when the record says it has one. -/
def Record.preimage (r : Record) : Bytes :=
  r.prevHash.val ++ (r.blob ++ if r.hasMac ≠ 0 then r.mac.val else [])

section Verify
variable (crypto : Crypto) (key : Option Bytes)

/-- The checks one record of the walked kind passes through, in their order. -/
def recordFault (prevExpected : Hash) (r : Record) : Option ChainFault :=
  if key.isSome ∧ r.hasMac = 0 then some .noMac
  else if ∃ k ∈ key, crypto.hmacSha256 k r.blob ≠ r.mac then some .hmacMismatch
  else if crypto.sha256 r.preimage ≠ r.entryHash then some .entryHashMismatch
  else if r.prevHash ≠ prevExpected then some .linkBreak
  else none

/-- The record counter of the walk and, when it stopped early, the number of the
offending record in the file and the reason. -/
structure WalkResult where
  rows : ℕ
  fault : Option (ℕ × ChainFault)
deriving DecidableEq

/-- `n` counts the records of the walked kind, `seen` those of every kind. -/
def verifyLoop (kind : UInt32) (fp : Bytes) (n seen : ℕ) (prevExpected : Hash) : WalkResult :=
  match h : nextRecord fp with
  | .eof => ⟨n, none⟩
  | .shortHeader => ⟨n, some (seen + 1, .truncatedRecord)⟩
  | .lengthOutOfRange => ⟨n, some (seen + 1, .lengthOutOfRange)⟩
  | .shortBlob => ⟨n, some (seen + 1, .truncatedBlob)⟩
  | .record r rest =>
    have := nextRecord_rest_lt h
    if r.kind ≠ kind then verifyLoop kind rest n (seen + 1) prevExpected
    else match recordFault crypto key prevExpected r with
      | some f => ⟨n + 1, some (seen + 1, f)⟩
      | none => verifyLoop kind rest (n + 1) (seen + 1) r.entryHash
termination_by fp.length

theorem verifyLoop_eq (kind : UInt32) (fp : Bytes) (n seen : ℕ) (g : Hash) :
    verifyLoop crypto key kind fp n seen g = match nextRecord fp with
      | .eof => ⟨n, none⟩
      | .shortHeader => ⟨n, some (seen + 1, .truncatedRecord)⟩
      | .lengthOutOfRange => ⟨n, some (seen + 1, .lengthOutOfRange)⟩
      | .shortBlob => ⟨n, some (seen + 1, .truncatedBlob)⟩
      | .record r rest =>
        if r.kind ≠ kind then verifyLoop crypto key kind rest n (seen + 1) g
        else match recordFault crypto key g r with
          | some f => ⟨n + 1, some (seen + 1, f)⟩
          | none => verifyLoop crypto key kind rest (n + 1) (seen + 1) r.entryHash := by
  rw [verifyLoop]
  split <;> simp only [*]

def verifyWalk (kind : UInt32) (fp : Bytes) : WalkResult := verifyLoop crypto key kind fp 0 0 zeroHash

end Verify

end FractalSQL.Ledger
