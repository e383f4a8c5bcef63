import FractalSQL.Ledger.Walkers
import FractalSQL.Lib.Text

/-!
# The head file

A text file beside the ledger with one record per chain kind: how many rows the
chain had, and a MAC over that count when a ledger key is configured. It is read
line by line with `fgets` on a 512-byte buffer and rewritten as a whole.
-/
namespace FractalSQL.Ledger
open Lib

/-- `ledger_head_rec_t`; the MAC is there exactly when `has_mac` is set. -/
structure HeadRec where
  kind : ℤ
  rows : ℤ
  mac : Option Hash
deriving DecidableEq

/-- `LEDGER_HEAD_MAX_RECS`. -/
def headMaxRecs : ℕ := maxKind + 1

def longMax : ℤ := 2 ^ 63 - 1
def longMin : ℤ := -2 ^ 63

/-- The conversion of a `long` to an `int`. -/
def toInt32 (z : ℤ) : ℤ := z.bmod (2 ^ 32)

def isBlank (b : UInt8) : Bool := b = 32 ∨ b = 9

def atLineEnd : Bytes → Bool
  | [] => true
  | b :: _ => b = 10 ∨ b = 13

def startsWithDigit : Bytes → Bool
  | [] => false
  | b :: _ => isDigit b

/-- One `name=value` field of a head record. -/
def headField (p : Bytes) (rec : HeadRec) : Option (HeadRec × Bytes) :=
  match dropLit (ascii "kind=") p with
  | some t => (strtoInt longMin longMax t).map fun (v, rest) => ({ rec with kind := toInt32 v }, rest)
  | none =>
    match dropLit (ascii "rows=") p with
    | some t => (strtoInt longMin longMax t).map fun (v, rest) => ({ rec with rows := v }, rest)
    | none =>
      match dropLit (ascii "mac=") p with
      | some t => (hexBlock 32 t).map fun (m, rest) => ({ rec with mac := some m }, rest)
      | none => none

theorem headField_length {p rest : Bytes} {rec rec' : HeadRec}
    (h : headField p rec = some (rec', rest)) : rest.length < p.length := by
  have hlit {lit t : Bytes} (hl : dropLit lit p = some t) := dropLit_length hl
  unfold headField at h
  split at h
  · rename_i t hl
    obtain ⟨⟨v, r⟩, hv, heq⟩ := Option.map_eq_some_iff.mp h
    cases heq
    have h1 := strtoInt_length hv
    have h2 := hlit hl
    omega
  · split at h
    · rename_i t hl
      obtain ⟨⟨v, r⟩, hv, heq⟩ := Option.map_eq_some_iff.mp h
      cases heq
      have h1 := strtoInt_length hv
      have h2 := hlit hl
      omega
    · split at h
      · rename_i t hl
        obtain ⟨⟨m, r⟩, hm, heq⟩ := Option.map_eq_some_iff.mp h
        cases heq
        have h1 := hexBlock_length hm
        have h2 := hlit hl
        have h3 : (ascii "mac=").length = 4 := by decide
        omega
      · cases h

/-- The field loop of `ledger_head_parse`: fields in any order, the last one of
a name wins, an unknown field refuses the line. -/
def headFields (p : Bytes) (rec : HeadRec) : Option HeadRec :=
  if atLineEnd (p.dropWhile isBlank) then
    if 0 ≤ rec.kind ∧ 0 ≤ rec.rows then some rec else none
  else match h : headField (p.dropWhile isBlank) rec with
    | none => none
    | some (rec', rest) =>
      have : rest.length < p.length :=
        (headField_length h).trans_le (List.dropWhile_sublist _).length_le
      headFields rest rec'
termination_by p.length

theorem headFields_eq (p : Bytes) (rec : HeadRec) :
    headFields p rec = if atLineEnd (p.dropWhile isBlank) then
        if 0 ≤ rec.kind ∧ 0 ≤ rec.rows then some rec else none
      else match headField (p.dropWhile isBlank) rec with
        | none => none
        | some (rec', rest) => headFields rest rec' := by
  rw [headFields]
  split
  · rfl
  · split <;> simp [*]

/-- The bare `<kind> <count>` pair older builds wrote. No sign can be there, so
the count is not negative, but the kind is not checked after its conversion. -/
def headLegacy (p : Bytes) : Option HeadRec := do
  let (k, p) ← strtoInt longMin longMax p
  let p := p.dropWhile isBlank
  if startsWithDigit p then
    let (c, p) ← strtoInt longMin longMax p
    if atLineEnd (p.dropWhile isBlank) then some ⟨toInt32 k, c, none⟩ else none
  else none

def ledgerHeadParse (line : Bytes) : Option HeadRec :=
  let p := line.dropWhile isBlank
  if startsWithDigit p then headLegacy p else headFields p ⟨-1, -1, none⟩

/-- One `fgets` into a buffer with room for `room` characters. -/
def fgets : ℕ → Bytes → Bytes × Bytes
  | 0, fp => ([], fp)
  | _ + 1, [] => ([], [])
  | room + 1, b :: fp =>
    if b = 10 then ([b], fp)
    else let (line, rest) := fgets room fp; (b :: line, rest)

theorem fgets_length (room : ℕ) (fp : Bytes) : (fgets room fp).2.length ≤ fp.length := by
  induction room generalizing fp with
  | zero => simp [fgets]
  | succ room ih =>
    cases fp with
    | nil => simp [fgets]
    | cons b fp =>
      simp only [fgets]
      split
      · simp
      · have := ih fp
        simp
        omega

theorem fgets_rest_lt (room : ℕ) {fp : Bytes} (hfp : fp ≠ []) :
    (fgets (room + 1) fp).2.length < fp.length := by
  cases fp with
  | nil => exact absurd rfl hfp
  | cons b fp =>
    simp only [fgets]
    split
    · simp
    · have := fgets_length room fp
      simp
      omega

/-- A line the reader skips: blank, or a comment. -/
def skippedLine (line : Bytes) : Bool :=
  atLineEnd (line.dropWhile isBlank) ∨ (line.dropWhile isBlank).head? = some 35

/-- The read loop of `ledger_head_read` with `slots` records of room left. A line
is a C string: what `fgets` stored, up to the first NUL. -/
def headReadLoop (slots : ℕ) (fp : Bytes) : Option (List HeadRec) :=
  if h : fp = [] ∨ slots = 0 then some []
  else
    have := fgets_rest_lt 510 (fun hn => h (.inl hn))
    let line := (fgets 511 fp).1.takeWhile (· ≠ 0)
    if skippedLine line then headReadLoop slots (fgets 511 fp).2
    else match ledgerHeadParse line with
      | none => none
      | some rec => (headReadLoop (slots - 1) (fgets 511 fp).2).map (rec :: ·)
termination_by fp.length

/-- `none` is the -1 of a head file that does not parse; a missing file reads as
no records. -/
def ledgerHeadRead (head : Option Bytes) : Option (List HeadRec) :=
  match head with
  | none => some []
  | some fp => headReadLoop headMaxRecs fp

/-- The text a head record's MAC covers. -/
def headMacText (kind rows : ℤ) : Bytes :=
  ascii "kind=" ++ (decimalInt kind ++ (ascii " rows=" ++ decimalInt rows))

def HeadRec.macField (r : HeadRec) : Bytes :=
  match r.mac with
  | some m => ascii " mac=" ++ hexEncode m.val
  | none => []

def HeadRec.line (r : HeadRec) : Bytes := headMacText r.kind r.rows ++ (r.macField ++ [10])

/-- `ledger_head_write`: the new contents, renamed over the old file. -/
def ledgerHeadWrite (recs : List HeadRec) : Bytes := recs.flatMap HeadRec.line

section Keyed
variable (crypto : Crypto) (key : Option Bytes)

def ledgerHeadMac (k : Bytes) (kind rows : ℤ) : Hash := crypto.hmacSha256 k (headMacText kind rows)

/-- The record of a kind after one more append to a chain that held `chainRows`
rows: the recorded count or the chain's new length, whichever is larger. -/
def HeadRec.bump (chainRows : ℕ) (r : HeadRec) : HeadRec :=
  let rows := if (chainRows : ℤ) + 1 > r.rows then (chainRows : ℤ) + 1 else r.rows
  { r with rows, mac := key.map fun k => ledgerHeadMac crypto k r.kind rows }

/-- Change the first record of `kind`, or report that there is none. -/
def modifyKind (kind : ℤ) (f : HeadRec → HeadRec) : List HeadRec → Option (List HeadRec)
  | [] => none
  | r :: rs => if r.kind = kind then some (f r :: rs) else (modifyKind kind f rs).map (r :: ·)

/-- `ledger_head_update`: a head file that does not parse is replaced, a full one
is left alone. -/
def ledgerHeadUpdate (head : Option Bytes) (kind : ℤ) (chainRows : ℕ) : Option Bytes :=
  let recs := (ledgerHeadRead head).getD []
  match modifyKind kind (HeadRec.bump crypto key chainRows) recs with
  | some recs => some (ledgerHeadWrite recs)
  | none =>
    if headMaxRecs ≤ recs.length then head
    else some (ledgerHeadWrite (recs ++ [HeadRec.bump crypto key chainRows ⟨kind, 0, none⟩]))

/-- Why `ledger_head_check` refuses a head record. -/
inductive HeadFault where
  | corrupt
  | noMac
  | macMismatch
deriving DecidableEq

def HeadFault.text : HeadFault → String
  | .corrupt => "the head file is corrupt or was edited by hand"
  | .noMac => "the head record has no MAC (it was written before the ledger key was set)"
  | .macMismatch => "the head record's MAC does not match its contents (the head was edited by hand)"

def headRecOf (kind : ℤ) (recs : List HeadRec) : Option HeadRec := recs.find? (fun r => r.kind = kind)

def ledgerHeadCheck (head : Option Bytes) (kind : ℤ) : Option HeadFault :=
  match ledgerHeadRead head with
  | none => some .corrupt
  | some recs =>
    match headRecOf kind recs, key with
    | none, _ => none
    | some _, none => none
    | some r, some k =>
      match r.mac with
      | none => some .noMac
      | some m => if ledgerHeadMac crypto k r.kind r.rows = m then none else some .macMismatch

end Keyed

/-- `ledger_head_get`: the recorded high-water row count of a kind, 0 when none. -/
def ledgerHeadGet (head : Option Bytes) (kind : UInt32) : ℤ :=
  if kind.toNat < 1 ∨ maxKind < kind.toNat then 0
  else match ledgerHeadRead head with
    | none => 0
    | some recs =>
      match headRecOf kind.toNat recs with
      | some r => r.rows
      | none => 0

end FractalSQL.Ledger
