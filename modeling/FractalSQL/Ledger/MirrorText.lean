import FractalSQL.Ledger.MirrorIds
import FractalSQL.Lib.Base64

/-!
# The mirror read back

The table `fractalsql_ledger` cuts a line of the mirror at its commas and the query decodes the
base64 of the blob. Every line that the writer appends is read back as the record at the tip of the
chain, whatever happens to the chain file before or after it, and as long as nothing is cut off the
chain the id of a line is the position of its record.
-/
namespace FractalSQL.Ledger
open Lib

/-! ### The base64 column -/

theorem length_b64Alphabet : b64Alphabet.length = 64 := by
  rw [b64Alphabet, ascii_ofList]
  rfl

theorem nodup_b64Alphabet : b64Alphabet.Nodup := by
  have hcodes : b64Alphabet.map UInt8.toNat =
      List.range' 65 26 ++ List.range' 97 26 ++ List.range' 48 10 ++ [43, 47] := by
    rw [b64Alphabet, ascii_ofList]
    decide
  have hrange (s n : ℕ) : (List.range' s n).Nodup := List.nodup_range' ..
  have hsigns : [43, 47].Nodup := by decide
  apply List.Nodup.of_map UInt8.toNat
  rw [hcodes]
  refine (((hrange _ _).append (hrange _ _) ?_).append (hrange _ _) ?_).append hsigns ?_
  all_goals
    intro n hl hr
    simp only [List.mem_append, List.mem_range'_1, List.mem_cons, List.not_mem_nil, or_false] at hl hr
    omega

theorem equals_not_mem_b64Alphabet : (61 : UInt8) ∉ b64Alphabet := by
  rw [b64Alphabet, ascii_ofList]
  decide

theorem comma_not_mem_b64Alphabet : (44 : UInt8) ∉ b64Alphabet := by
  rw [b64Alphabet, ascii_ofList]
  decide

/-- The alphabet of `ledger_b64_encode`. -/
def ledgerAlphabet : Alphabet UInt8 where
  chars := b64Alphabet
  length_eq := length_b64Alphabet
  nodup := nodup_b64Alphabet
  pad := 61
  pad_notMem := equals_not_mem_b64Alphabet

theorem ledgerAlphabet_char (v : ℕ) : ledgerAlphabet.char v = b64Char v := by
  have hlt : v % 64 < b64Alphabet.length := ledgerAlphabet.mod_lt v
  rw [b64Char, List.getD_eq_getElem?_getD, List.getElem?_eq_getElem hlt, Option.getD_some, Alphabet.char,
    List.get_eq_getElem]
  rfl

theorem b64Char_mod {v w : ℕ} (h : v % 64 = w % 64) : b64Char v = b64Char w := by
  rw [b64Char, b64Char, h]

/-- The shifts of a group's 24 bits pick the same characters. -/
theorem ledgerB64Encode_eq (data : Bytes) : ledgerB64Encode data = ledgerAlphabet.encode data := by
  induction data using ledgerB64Encode.induct with
  | case1 => rfl
  | case2 a =>
    simp only [ledgerB64Encode, Alphabet.encode, ledgerAlphabet_char]
    rw [b64Char_mod (w := a.toNat / 4) (by omega), b64Char_mod (v := a.toNat * 65536 / 4096) (w := a.toNat * 16) (by omega)]
    rfl
  | case3 a b =>
    have hb := b.toNat_lt
    simp only [ledgerB64Encode, Alphabet.encode, ledgerAlphabet_char]
    rw [b64Char_mod (w := a.toNat / 4) (by omega),
      b64Char_mod (v := (a.toNat * 65536 + b.toNat * 256) / 4096) (w := a.toNat * 16 + b.toNat / 16) (by omega),
      b64Char_mod (v := (a.toNat * 65536 + b.toNat * 256) / 64) (w := b.toNat * 4) (by omega)]
    rfl
  | case4 a b c data ih =>
    have hb := b.toNat_lt
    have hc := c.toNat_lt
    simp only [ledgerB64Encode, Alphabet.encode, ledgerAlphabet_char]
    rw [ih, b64Char_mod (w := a.toNat / 4) (by omega),
      b64Char_mod (v := (a.toNat * 65536 + b.toNat * 256 + c.toNat) / 4096) (w := a.toNat * 16 + b.toNat / 16) (by omega),
      b64Char_mod (v := (a.toNat * 65536 + b.toNat * 256 + c.toNat) / 64) (w := b.toNat * 4 + c.toNat / 64) (by omega),
      b64Char_mod (v := a.toNat * 65536 + b.toNat * 256 + c.toNat) (w := c.toNat) (by omega)]

/-! ### The columns -/

/-- A row of the table, its blob decoded. -/
structure LedgerRow where
  id : ℕ
  kind : ℕ
  blob : Bytes
  mac : Option Bytes
  prevHash : Bytes
  entryHash : Bytes
  isSealed : ℕ
  updated : ℤ
deriving DecidableEq

def readNumber (text : Bytes) : Option ℕ :=
  if text ≠ [] ∧ text.all isDigit then some (digitsValue text) else none

def readSigned : Bytes → Option ℤ
  | 45 :: text => (readNumber text).map fun n : ℕ => -(n : ℤ)
  | text => (readNumber text).map fun n : ℕ => (n : ℤ)

/-- A hash column, all of it hex digits. -/
def readHash (text : Bytes) : Option Bytes :=
  match hexDecode 32 text with
  | some (hash, []) => some hash
  | _ => none

/-- The MAC column is empty where no key was set. -/
def readMac (text : Bytes) : Option (Option Bytes) := if text = [] then some none else (readHash text).map some

def readRow (row : Bytes) : Option LedgerRow :=
  match row.splitOn 44 with
  | [id, kind, blob, mac, prevHash, entryHash, isSealed, updated] => do
    let id ← readNumber id
    let kind ← readNumber kind
    let blob ← ledgerAlphabet.decode blob
    let mac ← readMac mac
    let prevHash ← readHash prevHash
    let entryHash ← readHash entryHash
    let isSealed ← readNumber isSealed
    let updated ← readSigned updated
    return ⟨id, kind, blob, mac, prevHash, entryHash, isSealed, updated⟩
  | _ => none

/-- The row of a record. -/
def LedgerRow.of (id : ℕ) (r : Record) : LedgerRow where
  id := id
  kind := r.kind.toNat
  blob := r.blob
  mac := if r.hasMac ≠ 0 then some r.mac.val else none
  prevHash := r.prevHash.val
  entryHash := r.entryHash.val
  isSealed := 0
  updated := r.updated.toInt

/-! ### Each column is read back -/

theorem readNumber_decimal (n : ℕ) : readNumber (decimal n) = some n := by
  have hdigits : (decimal n).all isDigit := List.all_eq_true.mpr (decimal_isDigit n)
  rw [readNumber, if_pos ⟨decimal_ne_nil n, hdigits⟩, digitsValue_decimal]

theorem readSigned_decimalInt (z : ℤ) : readSigned (decimalInt z) = some z := by
  rw [decimalInt]
  split
  · rename_i hneg
    rw [readSigned, readNumber_decimal, Option.map_some, Int.ofNat_natAbs_of_nonpos hneg.le, neg_neg]
  · rename_i hpos
    have hfirst : ∀ text, decimal z.natAbs ≠ 45 :: text := by
      intro text heq
      have hdigit := decimal_isDigit z.natAbs 45 (heq ▸ List.mem_cons_self ..)
      cases hdigit
    rw [readSigned.eq_2 _ hfirst, readNumber_decimal, Option.map_some, Int.natAbs_of_nonneg (not_lt.mp hpos)]

theorem readHash_hexEncode (h : Hash) : readHash (hexEncode h.val) = some h.val := by
  have hread := hexDecode_hexEncode h.val []
  rw [List.append_nil, h.property] at hread
  rw [readHash, hread]

theorem readMac_mac (r : Record) : readMac (if r.hasMac ≠ 0 then hexEncode r.mac.val else []) =
    some (if r.hasMac ≠ 0 then some r.mac.val else none) := by
  split
  · have hne : hexEncode r.mac.val ≠ [] := by
      apply List.ne_nil_of_length_pos
      rw [hexEncode_length, r.mac.property]
      decide
    rw [readMac, if_neg hne, readHash_hexEncode]
    rfl
  · exact if_pos rfl

/-! ### No column has a comma in it -/

theorem comma_not_mem_decimal (n : ℕ) : 44 ∉ decimal n := by
  intro hmem
  cases decimal_isDigit n 44 hmem

theorem comma_not_mem_decimalInt (z : ℤ) : 44 ∉ decimalInt z := by
  rw [decimalInt]
  split
  · apply List.not_mem_cons_of_ne_of_not_mem
    · decide
    · exact comma_not_mem_decimal _
  · exact comma_not_mem_decimal _

theorem comma_not_mem_hexEncode (bs : Bytes) : 44 ∉ hexEncode bs := by
  have hdigit : ∀ n < 16, 44 ≠ hexDigit n := by decide
  induction bs with
  | nil => exact List.not_mem_nil
  | cons b bs ih =>
    have hb := b.toNat_lt
    rw [hexEncode]
    apply List.not_mem_cons_of_ne_of_not_mem (hdigit _ (by omega))
    exact List.not_mem_cons_of_ne_of_not_mem (hdigit _ (by omega)) ih

theorem comma_not_mem_blob (data : Bytes) : 44 ∉ ledgerB64Encode data := by
  rw [ledgerB64Encode_eq]
  intro hmem
  rcases ledgerAlphabet.mem_encode hmem with h | h
  · exact comma_not_mem_b64Alphabet h
  · cases h

theorem comma_not_mem_mac (r : Record) : 44 ∉ (if r.hasMac ≠ 0 then hexEncode r.mac.val else []) := by
  split
  · exact comma_not_mem_hexEncode _
  · exact List.not_mem_nil

theorem splitOn_csvBody (id : ℕ) (r : Record) : (csvBody id r).splitOn 44 =
    [decimal id, decimal r.kind.toNat, ledgerB64Encode r.blob, if r.hasMac ≠ 0 then hexEncode r.mac.val else [],
      hexEncode r.prevHash.val, hexEncode r.entryHash.val, decimal 0, decimalInt r.updated.toInt] := by
  have hsealed : ascii ",0," = 44 :: (decimal 0 ++ [44]) := by
    rw [decimal]
    decide
  rw [csvBody, hsealed]
  simp only [List.cons_append, List.append_assoc, List.nil_append]
  rw [List.splitOn_append_cons_self_of_not_mem (comma_not_mem_decimal id),
    List.splitOn_append_cons_self_of_not_mem (comma_not_mem_decimal _),
    List.splitOn_append_cons_self_of_not_mem (comma_not_mem_blob _),
    List.splitOn_append_cons_self_of_not_mem (comma_not_mem_mac r),
    List.splitOn_append_cons_self_of_not_mem (comma_not_mem_hexEncode _),
    List.splitOn_append_cons_self_of_not_mem (comma_not_mem_hexEncode _),
    List.splitOn_append_cons_self_of_not_mem (comma_not_mem_decimal 0),
    List.splitOn_eq_singleton (comma_not_mem_decimalInt _)]

/-- A line is read back as the id and the record that it was written from. -/
theorem readRow_csvBody (id : ℕ) (r : Record) : readRow (csvBody id r) = some (LedgerRow.of id r) := by
  have hblob : ledgerAlphabet.decode (ledgerB64Encode r.blob) = some r.blob := by
    rw [ledgerB64Encode_eq]
    exact Alphabet.decode_encode _
  rw [readRow, splitOn_csvBody]
  simp only [readNumber_decimal, hblob, readMac_mac, readHash_hexEncode, readSigned_decimalInt, Option.bind_eq_bind,
    Option.bind_some]
  rfl

/-! ### The record of a call -/

section Env
variable (env : LedgerEnv)

/-- The record that `ledger_write_entry` builds, when it gets to writing it. -/
def writtenRecord (files : LedgerFiles) (kind : ℤ) (payload : Bytes) (now : Int64) : Option Record :=
  if kind < 1 ∨ (maxKind : ℤ) < kind then none
  else if hlen : payload.length ≤ maxBlobBytes then
    match openLedger (ledgerCap env.maxBytes) files.ledger with
    | none => none
    | some file =>
      match scanForAppend (UInt32.ofNat kind.toNat) file with
      | (_, none) => none
      | (file, some scan) =>
        let r := newRecord env (UInt32.ofNat kind.toNat) payload hlen (entryHashOf scan.latest) now
        if offMax < file.length + r.encode.length then none else some r
  else none

/-- A call that writes no record returns an error and leaves the mirror. Otherwise the record ends
the chain file and is the new line of the mirror. -/
theorem writtenRecord_spec (files : LedgerFiles) (kind : ℤ) (payload : Bytes) (now : Int64) :
    match writtenRecord env files kind payload now with
    | none => (ledgerWriteEntry env files kind payload now).1 ≠ .ok ∧
        (ledgerWriteEntry env files kind payload now).2.csv = files.csv
    | some r => (ledgerWriteEntry env files kind payload now).1 = .ok ∧
        (∃ file, (ledgerWriteEntry env files kind payload now).2.ledger = some (file ++ r.encode)) ∧
        (ledgerWriteEntry env files kind payload now).2.csv =
          ledgerCsvAppend files.csv r (chainRecords files.ledger) := by
  have hrc : Rc.storage ≠ Rc.ok := nofun
  by_cases hrange : kind < 1 ∨ (maxKind : ℤ) < kind
  · simp only [writtenRecord, ledgerWriteEntry, if_pos hrange]
    exact ⟨hrc, trivial⟩
  by_cases hlen : payload.length ≤ maxBlobBytes
  swap
  · simp only [writtenRecord, ledgerWriteEntry, if_neg hrange, dif_neg hlen]
    exact ⟨hrc, trivial⟩
  cases hopen : openLedger (ledgerCap env.maxBytes) files.ledger with
  | none =>
    simp only [writtenRecord, ledgerWriteEntry, if_neg hrange, dif_pos hlen, hopen]
    exact ⟨hrc, trivial⟩
  | some file =>
    obtain ⟨fp, rfl, hcount⟩ := openLedger_records hopen
    rcases hscan : scanForAppend (UInt32.ofNat kind.toNat) (ledgerHeader ++ fp) with ⟨left, none | scan⟩
    · simp only [writtenRecord, ledgerWriteEntry, if_neg hrange, dif_pos hlen, hopen, hscan]
      exact ⟨hrc, trivial⟩
    · have hrecords := (scanForAppend_records hscan).trans hcount
      simp only [writtenRecord, ledgerWriteEntry, if_neg hrange, dif_pos hlen, hopen, hscan, hrecords]
      by_cases hbig : offMax < left.length +
          (newRecord env (UInt32.ofNat kind.toNat) payload hlen (entryHashOf scan.latest) now).encode.length
      · simp only [if_pos hbig]
        exact ⟨hrc, trivial⟩
      · simp only [if_neg hbig]
        exact ⟨trivial, ⟨left, rfl⟩, trivial⟩

/-! ### Whole runs -/

/-- The rows that a run gets to the mirror, with the ids that they had then. -/
def mirroredRows : LedgerFiles → List LedgerStep → List LedgerRow
  | _, [] => []
  | files, .append kind payload now true :: steps =>
    (writtenRecord env files kind payload now).toList.map (LedgerRow.of (nextId files.csv (chainRecords files.ledger))) ++
      mirroredRows ((LedgerStep.append kind payload now true).apply env files) steps
  | files, s :: steps => mirroredRows (s.apply env files) steps

theorem LedgerStep.apply_rows {files : LedgerFiles} (h : WholeLines files.csv) (s : LedgerStep) :
    WholeLines (s.apply env files).csv ∧
      (mirrorRows (s.apply env files).csv).map readRow =
        (mirrorRows files.csv).map readRow ++ (mirroredRows env files [s]).map some := by
  cases s with
  | cut kept => exact ⟨h, (List.append_nil _).symm⟩
  | append kind payload now mirrored =>
    cases mirrored with
    | false => exact ⟨h, (List.append_nil _).symm⟩
    | true =>
      have hspec := writtenRecord_spec env files kind payload now
      rw [mirroredRows]
      cases hr : writtenRecord env files kind payload now with
      | none =>
        rw [hr] at hspec
        simp only [apply, if_true, hspec.2]
        exact ⟨h, (List.append_nil _).symm⟩
      | some r =>
        rw [hr] at hspec
        obtain ⟨hwhole, hrows⟩ := h.append_row r (chainRecords files.ledger)
        simp only [apply, if_true, hspec.2.2]
        refine ⟨hwhole, ?_⟩
        rw [hrows, List.map_append, List.map_singleton, readRow_csvBody]
        rfl

theorem mirroredRows_cons (files : LedgerFiles) (s : LedgerStep) (steps : List LedgerStep) :
    mirroredRows env files (s :: steps) = mirroredRows env files [s] ++ mirroredRows env (s.apply env files) steps := by
  cases s with
  | cut kept => rfl
  | append kind payload now mirrored =>
    cases mirrored with
    | false => rfl
    | true =>
      rw [mirroredRows, mirroredRows, mirroredRows, List.append_nil]

theorem runLedger_rows {files : LedgerFiles} (h : WholeLines files.csv) (steps : List LedgerStep) :
    WholeLines (runLedger env files steps).csv ∧
      (mirrorRows (runLedger env files steps).csv).map readRow =
        (mirrorRows files.csv).map readRow ++ (mirroredRows env files steps).map some := by
  induction steps generalizing files with
  | nil => exact ⟨h, (List.append_nil _).symm⟩
  | cons s steps ih =>
    obtain ⟨hwhole, hstep⟩ := s.apply_rows env h
    obtain ⟨hlast, hrun⟩ := ih hwhole
    refine ⟨hlast, ?_⟩
    rw [runLedger, hrun, hstep, mirroredRows_cons env _ s steps, List.map_append, List.append_assoc]

end Env

/-- Whatever the chain file holds, and whatever is cut off it between the calls, the mirror that
starts with the run reads back line by line as the records that were appended, in their order. -/
theorem mirror_reads_back (env : LedgerEnv) (files : LedgerFiles) (steps : List LedgerStep) :
    (mirrorRows (runLedger env { files with csv := none } steps).csv).map readRow =
      (mirroredRows env { files with csv := none } steps).map some := by
  have hnone : mirrorRows none = [] := rfl
  have hstart : WholeLines ({ files with csv := none } : LedgerFiles).csv := wholeLines_none
  obtain ⟨-, hrows⟩ := runLedger_rows env hstart steps
  rw [hrows, hnone]
  rfl

/-! ### The mirror of a chain that is never cut -/

section Uncut
variable (env : LedgerEnv)

/-- One call on a file that holds `rs` and nothing else. -/
theorem FileHolds.write {files : LedgerFiles} {rs : List Record} (h : FileHolds files.ledger rs)
    (hfits : ∀ r ∈ rs, r.Fits) (kind : ℤ) (payload : Bytes) (now : Int64) :
    (FileHolds (ledgerWriteEntry env files kind payload now).2.ledger rs ∧
        (ledgerWriteEntry env files kind payload now).2.csv = files.csv) ∨
      ∃ r : Record, r.Fits ∧ FileHolds (ledgerWriteEntry env files kind payload now).2.ledger (rs ++ [r]) ∧
        (ledgerWriteEntry env files kind payload now).2.csv = ledgerCsvAppend files.csv r rs.length := by
  by_cases hrange : kind < 1 ∨ (maxKind : ℤ) < kind
  · simp only [ledgerWriteEntry, if_pos hrange]
    exact .inl ⟨h, trivial⟩
  by_cases hlen : payload.length ≤ maxBlobBytes
  swap
  · simp only [ledgerWriteEntry, if_neg hrange, dif_neg hlen]
    exact .inl ⟨h, trivial⟩
  cases hopen : openLedger (ledgerCap env.maxBytes) files.ledger with
  | none =>
    simp only [ledgerWriteEntry, if_neg hrange, dif_pos hlen, hopen]
    exact .inl ⟨h, trivial⟩
  | some file =>
    have hfile : file = ledgerHeader ++ encodeAll rs := by
      cases hledger : files.ledger with
      | none =>
        rw [hledger] at h hopen
        cases h
        rw [encodeAll_nil, List.append_nil]
        exact (Option.some.inj hopen).symm
      | some bs =>
        rw [hledger] at h hopen
        cases h with
        | empty =>
          simp only [openLedger] at hopen
          split at hopen
          · cases hopen
          · rw [encodeAll_nil, List.append_nil]
            exact (Option.some.inj hopen).symm
        | written =>
          simp only [openLedger] at hopen
          split at hopen
          · cases hopen
          · rw [if_neg (by simp [ledgerHeader]), if_pos (by simp)] at hopen
            exact (Option.some.inj hopen).symm
    subst hfile
    have hscan := scanForAppend_framed (framed_encodeAll hfits) (UInt32.ofNat kind.toNat)
    have h1 : 1 ≤ kind := by omega
    have h16 : kind ≤ maxKind := by omega
    rw [ledgerWriteEntry_scanned h1 h16 hlen now hopen hscan]
    split
    · exact .inl ⟨.written rs, rfl⟩
    · right
      refine ⟨nextEntry env rs (UInt32.ofNat kind.toNat) payload hlen now, nextEntry_fits rs _ hlen now, ?_, rfl⟩
      simpa using FileHolds.written (rs ++ [nextEntry env rs (UInt32.ofNat kind.toNat) payload hlen now])

/-- Each line is the record at the position that its id says. -/
structure Numbered (files : LedgerFiles) (rs : List Record) : Prop where
  file : FileHolds files.ledger rs
  fits : ∀ r ∈ rs, r.Fits
  whole : WholeLines files.csv
  lines_le : (mirrorRows files.csv).length ≤ rs.length
  row : ∀ row ∈ mirrorRows files.csv, ∃ i r, rs[i]? = some r ∧ readRow row = some (LedgerRow.of (i + 1) r)

/-- A record more, with its line or without. -/
theorem Numbered.append {files : LedgerFiles} {rs : List Record} (h : Numbered files rs) (kind : ℤ) (payload : Bytes)
    (now : Int64) (mirrored : Bool) :
    ∃ ss, Numbered ((LedgerStep.append kind payload now mirrored).apply env files) (rs ++ ss) := by
  rcases h.file.write env h.fits kind payload now with ⟨hfile, hcsv⟩ | ⟨r, hr, hfile, hcsv⟩
  · have hsame : ((LedgerStep.append kind payload now mirrored).apply env files).csv = files.csv := by
      cases mirrored with
      | false => rfl
      | true => exact hcsv
    have hledger : ((LedgerStep.append kind payload now mirrored).apply env files).ledger =
        (ledgerWriteEntry env files kind payload now).2.ledger := by
      cases mirrored with
      | false => rfl
      | true => rfl
    refine ⟨[], ?_⟩
    rw [List.append_nil]
    exact ⟨hledger ▸ hfile, h.fits, hsame ▸ h.whole, hsame ▸ h.lines_le, hsame ▸ h.row⟩
  · have hfits : ∀ s ∈ rs ++ [r], s.Fits := by
      intro s hs
      rcases List.mem_append.mp hs with hs | hs
      · exact h.fits s hs
      · exact List.mem_singleton.mp hs ▸ hr
    have hkept : ∀ row ∈ mirrorRows files.csv, ∃ i s, (rs ++ [r])[i]? = some s ∧
        readRow row = some (LedgerRow.of (i + 1) s) := by
      intro row hrow
      obtain ⟨i, s, hs, hread⟩ := h.row row hrow
      have hlt := (List.getElem?_eq_some_iff.mp hs).1
      exact ⟨i, s, (List.getElem?_append_left hlt).trans hs, hread⟩
    refine ⟨[r], ?_⟩
    cases mirrored with
    | false =>
      have hmore : (mirrorRows files.csv).length ≤ (rs ++ [r]).length := by
        rw [List.length_append]
        exact h.lines_le.trans (Nat.le_add_right ..)
      exact ⟨hfile, hfits, h.whole, hmore, hkept⟩
    | true =>
      obtain ⟨hwhole, hrows⟩ := h.whole.append_row r rs.length
      have hnext : nextId files.csv rs.length = rs.length + 1 := by
        rw [nextId, max_eq_right h.lines_le]
      rw [hnext] at hrows
      have hadded : ((LedgerStep.append kind payload now true).apply env files).csv =
          ledgerCsvAppend files.csv r rs.length := hcsv
      refine ⟨hfile, hfits, hadded ▸ hwhole, ?_, ?_⟩
      · rw [hadded, hrows, List.length_append, List.length_append]
        exact Nat.add_le_add_right h.lines_le 1
      · rw [hadded, hrows]
        intro row hrow
        rcases List.mem_append.mp hrow with hrow | hrow
        · exact hkept row hrow
        · rw [List.mem_singleton.mp hrow]
          exact ⟨rs.length, r, List.getElem?_concat_length, readRow_csvBody ..⟩

theorem Numbered.run {files : LedgerFiles} {rs : List Record} (h : Numbered files rs) (steps : List LedgerStep)
    (huncut : ∀ s ∈ steps, ∀ kept, s ≠ .cut kept) :
    ∃ ss, Numbered (runLedger env files steps) (rs ++ ss) := by
  induction steps generalizing files rs with
  | nil =>
    refine ⟨[], ?_⟩
    rwa [List.append_nil]
  | cons s steps ih =>
    cases s with
    | cut kept => exact absurd rfl (huncut (.cut kept) (List.mem_cons_self ..) kept)
    | append kind payload now mirrored =>
      obtain ⟨ss, hnext⟩ := h.append env kind payload now mirrored
      obtain ⟨ts, hlast⟩ := ih hnext fun s hs => huncut s (List.mem_cons_of_mem _ hs)
      refine ⟨ss ++ ts, ?_⟩
      rwa [← List.append_assoc]

end Uncut

/-- Over a chain file that is never cut, with rows lost or not, the mirror that starts with the run
never disagrees with the chain: a line with id `i` reads back as the chain's record number `i`. -/
theorem mirror_rows_are_chain_records (env : LedgerEnv) (files : LedgerFiles) (rs : List Record)
    (h : FileHolds files.ledger rs) (hfits : ∀ r ∈ rs, r.Fits) (steps : List LedgerStep)
    (huncut : ∀ s ∈ steps, ∀ kept, s ≠ .cut kept) :
    ∃ ss, FileHolds (runLedger env { files with csv := none } steps).ledger (rs ++ ss) ∧
      ∀ row ∈ mirrorRows (runLedger env { files with csv := none } steps).csv, ∃ i r,
        (rs ++ ss)[i]? = some r ∧ readRow row = some (LedgerRow.of (i + 1) r) := by
  have hempty : mirrorRows none = [] := rfl
  have hstart : Numbered { files with csv := none } rs := by
    refine ⟨h, hfits, wholeLines_none, ?_, ?_⟩
    · rw [hempty]
      exact Nat.zero_le _
    · rw [hempty]
      intro row hrow
      cases hrow
  obtain ⟨ss, hlast⟩ := hstart.run env steps huncut
  exact ⟨ss, hlast.file, hlast.row⟩

/-- Two appends, the row of the first one lost. -/
theorem mirror_rows_are_chain_records_lost_row :
    ∃ ss, FileHolds (runLedger (sampleEnv (some [7])) {} [.append 1 [1] 0 false, .append 2 [2] (-5) true]).ledger ss ∧
      ∀ row ∈ mirrorRows (runLedger (sampleEnv (some [7])) {} [.append 1 [1] 0 false, .append 2 [2] (-5) true]).csv,
        ∃ i r, ss[i]? = some r ∧ readRow row = some (LedgerRow.of (i + 1) r) := by
  have huncut : ∀ s ∈ [LedgerStep.append 1 [1] 0 false, LedgerStep.append 2 [2] (-5) true],
      ∀ kept, s ≠ LedgerStep.cut kept := by
    intro s hs kept heq
    subst heq
    simp at hs
  exact mirror_rows_are_chain_records (sampleEnv (some [7])) {} [] .missing (fun r hr => by cases hr)
    [.append 1 [1] 0 false, .append 2 [2] (-5) true] huncut

end FractalSQL.Ledger
