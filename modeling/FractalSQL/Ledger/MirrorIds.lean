import FractalSQL.Ledger.Framing
import FractalSQL.Lib.Lines

/-!
# The ids of the mirror

A row's id is one more than the larger of two counts: the records of the chain and
the lines of the mirror. A run of appends whose rows may be lost, in between which
the chain file may be cut anywhere, hands out increasing ids exactly as long as one
of the counts has reached the last id whenever a row is written.
-/
namespace FractalSQL.Ledger
open Lib

/-! ### Rows -/

/-- A row without its newline. -/
def csvBody (id : ℕ) (r : Record) : Bytes :=
  decimal id ++ (44 :: decimal r.kind.toNat ++ (44 :: ledgerB64Encode r.blob ++
    (44 :: (if r.hasMac ≠ 0 then hexEncode r.mac.val else []) ++
      (44 :: hexEncode r.prevHash.val ++ (44 :: hexEncode r.entryHash.val ++
        (ascii ",0," ++ decimalInt r.updated.toInt))))))

theorem csvRow_eq (id : ℕ) (r : Record) : csvRow id r = csvBody id r ++ [10] := by
  simp only [csvRow, csvBody, List.append_assoc, List.cons_append]

theorem b64Char_ge (v : ℕ) : 32 ≤ b64Char v := by
  have hall : (List.range 64).all fun i => 32 ≤ b64Alphabet.getD i 0 := by
    rw [b64Alphabet, ascii_ofList]
    decide
  have hv := List.all_eq_true.mp hall (v % 64) (List.mem_range.mpr (Nat.mod_lt v (by norm_num)))
  exact of_decide_eq_true hv

theorem ledgerB64Encode_ge (data : Bytes) : ∀ b ∈ ledgerB64Encode data, 32 ≤ b := by
  have hpad : (32 : UInt8) ≤ 61 := by decide
  induction data using ledgerB64Encode.induct with
  | case1 => exact nofun
  | case2 a => simp [ledgerB64Encode, b64Char_ge, hpad]
  | case3 a b => simp [ledgerB64Encode, b64Char_ge, hpad]
  | case4 a b c data ih =>
    simp only [ledgerB64Encode, List.forall_mem_cons]
    exact ⟨b64Char_ge _, b64Char_ge _, b64Char_ge _, b64Char_ge _, ih⟩

theorem newline_not_mem {text : Bytes} (h : ∀ b ∈ text, 32 ≤ b) : 10 ∉ text :=
  fun hmem => absurd (h 10 hmem) (by decide)

theorem newline_not_mem_csvBody (id : ℕ) (r : Record) : 10 ∉ csvBody id r := by
  have hdigits (n : ℕ) : 10 ∉ decimal n := newline_not_mem fun b hb => isDigit_ge (decimal_isDigit n b hb)
  have hhex (bs : Bytes) : 10 ∉ hexEncode bs := newline_not_mem (hexEncode_ge bs)
  have hblob : 10 ∉ ledgerB64Encode r.blob := newline_not_mem (ledgerB64Encode_ge r.blob)
  have htime : 10 ∉ decimalInt r.updated.toInt := newline_not_mem (decimalInt_ge _)
  have hcomma : (10 : UInt8) ∉ ascii ",0," := by decide
  have hmac : 10 ∉ (if r.hasMac ≠ 0 then hexEncode r.mac.val else []) := by
    split
    · exact hhex _
    · exact nofun
  simp only [csvBody, List.mem_append, List.mem_cons, hdigits, hhex, hblob, htime, hcomma, hmac, or_false]
  decide

/-- The id column of a row. -/
def rowId (row : Bytes) : ℕ := digitsValue (row.takeWhile isDigit)

theorem rowId_csvBody (id : ℕ) (r : Record) : rowId (csvBody id r) = id := by
  rw [rowId, csvBody, takeWhile_digits (decimal_isDigit id) (by simp [isDigit]), digitsValue_decimal]

/-! ### The mirror -/

/-- The lines of a mirror. -/
def mirrorRows (csv : Option Bytes) : List Bytes := ((csv.getD []).splitOn 10).dropLast

def mirrorIds (csv : Option Bytes) : List ℕ := (mirrorRows csv).map rowId

/-- A mirror that ends with a whole line, if it is not empty. -/
def WholeLines (csv : Option Bytes) : Prop := ∃ rows, csv.getD [] = unlines 10 rows ∧ ∀ row ∈ rows, 10 ∉ row

theorem wholeLines_none : WholeLines none := ⟨[], rfl, nofun⟩

theorem mirrorRows_unlines {csv : Option Bytes} {rows : List Bytes} (h : csv.getD [] = unlines 10 rows)
    (hrows : ∀ row ∈ rows, 10 ∉ row) : mirrorRows csv = rows := by
  rw [mirrorRows, h, splitOn_unlines hrows, List.dropLast_concat]

/-- The id that a row gets. -/
def nextId (csv : Option Bytes) (chainRecords : ℕ) : ℕ := max (mirrorRows csv).length chainRecords + 1

/-- An append adds one line. -/
theorem WholeLines.append_row {csv : Option Bytes} (h : WholeLines csv) (r : Record) (chainRecords : ℕ) :
    WholeLines (ledgerCsvAppend csv r chainRecords) ∧
      mirrorRows (ledgerCsvAppend csv r chainRecords) = mirrorRows csv ++ [csvBody (nextId csv chainRecords) r] := by
  obtain ⟨rows, hcsv, hrows⟩ := h
  have hlines : mirrorRows csv = rows := mirrorRows_unlines hcsv hrows
  have hid : ledgerCsvAppend csv r chainRecords =
      some (csv.getD [] ++ csvRow (nextId csv chainRecords) r) := by
    simp only [ledgerCsvAppend, ledgerCsvNextId, hcsv, count_unlines hrows, nextId, hlines]
    grind
  have hadded : (ledgerCsvAppend csv r chainRecords).getD [] =
      unlines 10 (rows ++ [csvBody (nextId csv chainRecords) r]) := by
    rw [hid, Option.getD_some, csvRow_eq, unlines_concat, hcsv]
  have hall : ∀ row ∈ rows ++ [csvBody (nextId csv chainRecords) r], 10 ∉ row := by
    intro row hrow
    rcases List.mem_append.mp hrow with hrow | hrow
    · exact hrows row hrow
    · rw [List.mem_singleton.mp hrow]
      exact newline_not_mem_csvBody _ r
  rw [mirrorRows_unlines hadded hall, hlines]
  exact ⟨⟨_, hadded, hall⟩, rfl⟩

theorem WholeLines.append {csv : Option Bytes} (h : WholeLines csv) (r : Record) (chainRecords : ℕ) :
    WholeLines (ledgerCsvAppend csv r chainRecords) ∧
      mirrorIds (ledgerCsvAppend csv r chainRecords) = mirrorIds csv ++ [nextId csv chainRecords] := by
  obtain ⟨hwhole, hrows⟩ := h.append_row r chainRecords
  refine ⟨hwhole, ?_⟩
  rw [mirrorIds, hrows, List.map_append, mirrorIds, List.map_singleton, rowId_csvBody]

/-! ### The record count of the writer -/

/-- The complete records of a ledger file. -/
def chainRecords (ledger : Option Bytes) : ℕ :=
  (recordsOf ((ledger.getD []).drop ledgerHeader.length)).length

theorem openLedger_records {cap : ℤ} {ledger : Option Bytes} {file : Bytes} (h : openLedger cap ledger = some file) :
    ∃ fp, file = ledgerHeader ++ fp ∧ (recordsOf fp).length = chainRecords ledger := by
  have hfresh : ledgerHeader = ledgerHeader ++ [] := (List.append_nil _).symm
  have hempty : ([] : Bytes).drop ledgerHeader.length = [] := rfl
  cases ledger with
  | none =>
    refine ⟨[], ?_, by rw [chainRecords, Option.getD_none, hempty]⟩
    rw [← hfresh]
    exact (Option.some.inj h).symm
  | some bs =>
    simp only [openLedger] at h
    split at h
    · cases h
    split at h
    · rename_i hbs
      refine ⟨[], ?_, by rw [chainRecords, Option.getD_some, hbs, hempty]⟩
      rw [← hfresh]
      exact (Option.some.inj h).symm
    split at h
    · rename_i hheader
      obtain ⟨fp, rfl⟩ := List.isPrefixOf_iff_prefix.mp hheader
      refine ⟨fp, (Option.some.inj h).symm, ?_⟩
      rw [chainRecords, Option.getD_some, drop_ledgerHeader]
    · cases h

/-- Whether or not the file needs a repair, the scan counts its complete records. -/
theorem scanForAppend_records {kind : UInt32} {fp file : Bytes} {scan : ScanResult}
    (h : scanForAppend kind (ledgerHeader ++ fp) = (file, some scan)) : scan.records = (recordsOf fp).length := by
  simp only [scanForAppend, drop_ledgerHeader, ledgerScanLatestTwo_eq, ledgerRepairTornTail_eq] at h
  by_cases hf : tornFault fp = none
  · simp only [hf, if_true, Prod.mk.injEq, Option.some.injEq] at h
    rw [← h.2]
    rfl
  · simp only [hf, if_false, drop_ledgerHeader, recordsOf_encodeAll, Prod.mk.injEq] at h
    obtain ⟨-, hscan⟩ := h
    split at hscan
    · rw [← Option.some.inj hscan]
      rfl
    · cases hscan

/-- What an append does to the mirror. -/
theorem ledgerWriteEntry_csv (env : LedgerEnv) (files : LedgerFiles) (kind : ℤ) (payload : Bytes) (now : Int64) :
    ((ledgerWriteEntry env files kind payload now).1 ≠ .ok ∧
        (ledgerWriteEntry env files kind payload now).2.csv = files.csv) ∨
      (ledgerWriteEntry env files kind payload now).1 = .ok ∧
        ∃ r, (ledgerWriteEntry env files kind payload now).2.csv =
          ledgerCsvAppend files.csv r (chainRecords files.ledger) := by
  have hrc : Rc.storage ≠ Rc.ok := nofun
  by_cases hrange : kind < 1 ∨ (maxKind : ℤ) < kind
  · simp only [ledgerWriteEntry, if_pos hrange]
    exact .inl ⟨hrc, trivial⟩
  by_cases hlen : payload.length ≤ maxBlobBytes
  swap
  · simp only [ledgerWriteEntry, if_neg hrange, dif_neg hlen]
    exact .inl ⟨hrc, trivial⟩
  cases hopen : openLedger (ledgerCap env.maxBytes) files.ledger with
  | none =>
    simp only [ledgerWriteEntry, if_neg hrange, dif_pos hlen, hopen]
    exact .inl ⟨hrc, trivial⟩
  | some file =>
    obtain ⟨fp, rfl, hcount⟩ := openLedger_records hopen
    rcases hscan : scanForAppend (UInt32.ofNat kind.toNat) (ledgerHeader ++ fp) with ⟨left, none | scan⟩
    · simp only [ledgerWriteEntry, if_neg hrange, dif_pos hlen, hopen, hscan]
      exact .inl ⟨hrc, trivial⟩
    · have hrecords := (scanForAppend_records hscan).trans hcount
      simp only [ledgerWriteEntry, if_neg hrange, dif_pos hlen, hopen, hscan, hrecords]
      split
      · exact .inl ⟨hrc, rfl⟩
      · exact .inr ⟨rfl, _, rfl⟩

/-! ### Runs -/

/-- What happens to a ledger: an append, whose row reaches the mirror or not, and a cut of the
chain file. -/
inductive LedgerStep where
  | append (kind : ℤ) (payload : Bytes) (now : Int64) (mirrored : Bool)
  | cut (kept : ℕ)

section Run
variable (env : LedgerEnv)

def LedgerStep.apply (files : LedgerFiles) : LedgerStep → LedgerFiles
  | .append kind payload now mirrored =>
    let after := (ledgerWriteEntry env files kind payload now).2
    if mirrored then after else { after with csv := files.csv }
  | .cut kept => { files with ledger := files.ledger.map (·.take kept) }

def runLedger : LedgerFiles → List LedgerStep → LedgerFiles
  | files, [] => files
  | files, s :: steps => runLedger (s.apply env files) steps

/-- A row is written. -/
def LedgerStep.WritesRow (files : LedgerFiles) : LedgerStep → Prop
  | .append kind payload now mirrored =>
    mirrored = true ∧ (ledgerWriteEntry env files kind payload now).1 = .ok
  | .cut _ => False

/-- The mirror has as many lines, or the chain as many records, as the last id says. -/
def Caught (files : LedgerFiles) : Prop :=
  ∀ id ∈ (mirrorIds files.csv).getLast?, id ≤ (mirrorRows files.csv).length ∨ id ≤ chainRecords files.ledger

/-- Wherever a row is written, one of the counts has caught up with the ids. -/
def CaughtUp : LedgerFiles → List LedgerStep → Prop
  | _, [] => True
  | files, s :: steps => (s.WritesRow env files → Caught files) ∧ CaughtUp (s.apply env files) steps

variable {env}

/-- A step leaves the ids alone, or adds the next one. -/
theorem LedgerStep.apply_ids {files : LedgerFiles} (h : WholeLines files.csv) (s : LedgerStep) :
    WholeLines (s.apply env files).csv ∧
      ((¬ s.WritesRow env files ∧ mirrorIds (s.apply env files).csv = mirrorIds files.csv) ∨
        s.WritesRow env files ∧ mirrorIds (s.apply env files).csv =
          mirrorIds files.csv ++ [nextId files.csv (chainRecords files.ledger)]) := by
  cases s with
  | cut kept => exact ⟨h, .inl ⟨id, rfl⟩⟩
  | append kind payload now mirrored =>
    cases mirrored with
    | false => exact ⟨h, .inl ⟨fun hw => Bool.false_ne_true hw.1, rfl⟩⟩
    | true =>
      rcases ledgerWriteEntry_csv env files kind payload now with ⟨hrc, hcsv⟩ | ⟨hrc, r, hcsv⟩
      · simp only [apply, if_true, hcsv]
        exact ⟨h, .inl ⟨fun hw => hrc hw.2, trivial⟩⟩
      · obtain ⟨hwhole, hids⟩ := h.append r (chainRecords files.ledger)
        simp only [apply, if_true, hcsv]
        exact ⟨hwhole, .inr ⟨⟨rfl, hrc⟩, hids⟩⟩

/-- The next id is above the earlier ones when one of the counts has caught up. -/
theorem increasing_concat_iff (files : LedgerFiles) :
    (mirrorIds files.csv ++ [nextId files.csv (chainRecords files.ledger)]).Pairwise (· < ·) ↔
      (mirrorIds files.csv).Pairwise (· < ·) ∧ Caught files := by
  have hlast (id : ℕ) : id < nextId files.csv (chainRecords files.ledger) ↔
      id ≤ (mirrorRows files.csv).length ∨ id ≤ chainRecords files.ledger := by
    rw [nextId, Nat.lt_succ_iff, le_max_iff]
  rw [List.pairwise_append, Caught]
  simp only [List.pairwise_singleton, List.mem_singleton, forall_eq, hlast, true_and]
  refine and_congr_right fun hids => ⟨fun hall id hid => hall id (List.mem_of_getLast? hid), fun hid i hi => ?_⟩
  rcases List.eq_nil_or_concat' (mirrorIds files.csv) with hnil | ⟨earlier, last, hconcat⟩
  · rw [hnil] at hi
    cases hi
  · rw [hconcat] at hi hid hids
    have hlast := hid last (by simp)
    rcases List.mem_append.mp hi with hi | hi
    · have hlt := (List.pairwise_append.mp hids).2.2 i hi last (by simp)
      exact hlast.imp (fun h => by omega) fun h => by omega
    · rw [List.mem_singleton.mp hi]
      exact hlast

theorem runLedger_ids {files : LedgerFiles} (h : WholeLines files.csv) (steps : List LedgerStep) :
    (mirrorIds (runLedger env files steps).csv).Pairwise (· < ·) ↔
      (mirrorIds files.csv).Pairwise (· < ·) ∧ CaughtUp env files steps := by
  induction steps generalizing files with
  | nil => exact (and_iff_left trivial).symm
  | cons s steps ih =>
    obtain ⟨hwhole, hstep⟩ := s.apply_ids h
    rw [runLedger, ih hwhole, CaughtUp]
    rcases hstep with ⟨hno, hids⟩ | ⟨hrow, hids⟩
    · rw [hids]
      simp only [hno, false_implies, true_and]
    · rw [hids, increasing_concat_iff, and_assoc]
      simp only [hrow, forall_const]

end Run

/-- Two rows are lost, the third gets id 3, and then the chain loses its last record. -/
def lostTip : List LedgerStep :=
  [.append 1 [] 0 false, .append 1 [] 0 false, .append 1 [] 0 true, .cut (9 + 2 * 116), .append 1 [] 0 true]

end FractalSQL.Ledger
