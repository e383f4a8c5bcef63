import FractalSQL.Ledger.Walkers
import FractalSQL.Lib.Text

/-!
# The CSV mirror

Every append to the chain also appends one text row to a mirror file. The
mirror is a read surface: no function of the ledger reads it back except to
count its lines.
-/
namespace FractalSQL.Ledger
open Lib

/-- `b64_alphabet`. -/
def b64Alphabet : Bytes :=
  ascii "ABCDEFGHIJKLMNOPQRSTUVWXYZabcdefghijklmnopqrstuvwxyz0123456789+/"

/-- The character of the low six bits of `v`. -/
def b64Char (v : ℕ) : UInt8 := b64Alphabet.getD (v % 64) 0

/-- `ledger_b64_encode`: groups of three bytes, the last one padded with `=`. -/
def ledgerB64Encode : Bytes → Bytes
  | [] => []
  | [a] =>
    let v := a.toNat * 65536
    [b64Char (v / 262144), b64Char (v / 4096), 61, 61]
  | [a, b] =>
    let v := a.toNat * 65536 + b.toNat * 256
    [b64Char (v / 262144), b64Char (v / 4096), b64Char (v / 64), 61]
  | a :: b :: c :: data =>
    let v := a.toNat * 65536 + b.toNat * 256 + c.toNat
    b64Char (v / 262144) :: b64Char (v / 4096) :: b64Char (v / 64) :: b64Char v ::
      ledgerB64Encode data

/-- `ledger_csv_next_id`: one more than the lines of the mirror. -/
def ledgerCsvNextId (csv : Option Bytes) : ℕ := (csv.getD []).count 10 + 1

/-- The row of a record; `sealed` is the constant 0. -/
def csvRow (id : ℕ) (r : Record) : Bytes :=
  decimal id ++ (44 :: decimal r.kind.toNat ++ (44 :: ledgerB64Encode r.blob ++
    (44 :: (if r.hasMac ≠ 0 then hexEncode r.mac.val else []) ++
      (44 :: hexEncode r.prevHash.val ++ (44 :: hexEncode r.entryHash.val ++
        (ascii ",0," ++ (decimalInt r.updated.toInt ++ [10])))))))

/-- `ledger_csv_append`: the id is the record's position in the chain, with the
mirror's own line count as a floor. -/
def ledgerCsvAppend (csv : Option Bytes) (r : Record) (chainRecords : ℕ) : Option Bytes :=
  let nextId := if ledgerCsvNextId csv > chainRecords + 1 then ledgerCsvNextId csv else chainRecords + 1
  some (csv.getD [] ++ csvRow nextId r)

end FractalSQL.Ledger
