import FractalSQL.Lib.Bytes

/-!
# The on-disk record of the ledger file

A ledger file is a nine-byte file header followed by records. A record is a
fixed 116-byte header and a variable blob, and the records of all kinds share
one file. Integers are written in host order, little-endian on every platform
the extension ships for. Allocations are taken to succeed throughout.
-/
namespace FractalSQL.Ledger
open Lib

/-- A 32-byte SHA-256 or HMAC-SHA256 value. -/
abbrev Hash := Block 32

/-- The genesis sentinel: the `prev_hash` of the first record of a kind. -/
def zeroHash : Hash := Block.zero 32

/-- `LEDGER_MAGIC` followed by `LEDGER_VERSION`. -/
def ledgerHeader : Bytes := [0x46, 0x53, 0x51, 0x4C, 0x4C, 0x44, 0x47, 0x52, 1]

/-- `LEDGER_MAX_BLOB_BYTES`, the ceiling both the writer and the readers enforce. -/
def maxBlobBytes : ℕ := 64 * 1024 * 1024

theorem lt_of_le_maxBlobBytes {n : ℕ} (h : n ≤ maxBlobBytes) : n < 2 ^ 32 := by
  unfold maxBlobBytes at h
  omega

/-- `LEDGER_MAX_KIND`. -/
def maxKind : ℕ := 16

/-- One record as it stands in the file. The length field is not stored
separately: it is the blob's own length, which must fit its four bytes. -/
structure Record where
  kind : UInt32
  hasMac : UInt8
  isSealed : UInt8
  reserved : Block 2
  mac : Hash
  prevHash : Hash
  entryHash : Hash
  updated : Int64
  blob : Bytes
  lengthFits : blob.length < 2 ^ 32
deriving DecidableEq

/-- The bytes `ledger_write_entry` hands to `fwrite`, field by field. -/
def Record.encode (r : Record) : Bytes :=
  leBytes 4 r.kind.toNat ++ (leBytes 4 r.blob.length ++ (r.hasMac :: r.isSealed ::
    (r.reserved.val ++ (r.mac.val ++ (r.prevHash.val ++ (r.entryHash.val ++
      (leBytes 8 r.updated.toUInt64.toNat ++ r.blob)))))))

def encodeAll (rs : List Record) : Bytes := rs.flatMap Record.encode

@[simp] theorem encodeAll_nil : encodeAll [] = [] := rfl

@[simp] theorem encodeAll_cons (r : Record) (rs : List Record) :
    encodeAll (r :: rs) = r.encode ++ encodeAll rs := rfl

@[simp] theorem encodeAll_append (rs ss : List Record) :
    encodeAll (rs ++ ss) = encodeAll rs ++ encodeAll ss := List.flatMap_append

theorem Record.encode_length (r : Record) : r.encode.length = 116 + r.blob.length := by
  simp [encode]
  omega

theorem encodeAll_length_ge (rs : List Record) : 116 * rs.length ≤ (encodeAll rs).length := by
  induction rs with
  | nil => simp
  | cons r rs ih =>
    rw [encodeAll_cons, List.length_append, r.encode_length, List.length_cons]
    omega

/-- The fixed-size fields of a record, with the blob length as claimed. -/
structure RecordHeader where
  kind : UInt32
  blobLen : ℕ
  hasMac : UInt8
  isSealed : UInt8
  reserved : Block 2
  mac : Hash
  prevHash : Hash
  entryHash : Hash
  updated : Int64

/-- The three results of `ledger_read_record_header`: 1, 0 and -1. -/
inductive HeaderRead where
  | complete (h : RecordHeader) (rest : Bytes)
  | eof
  | short

def readHeaderFields (kind : UInt32) (fp : Bytes) : Option (RecordHeader × Bytes) := do
  let (blen, fp) ← takeExact 4 fp
  let (flags, fp) ← takeExact 2 fp
  let (reserved, fp) ← takeExact 2 fp
  let (mac, fp) ← takeExact 32 fp
  let (prev, fp) ← takeExact 32 fp
  let (hash, fp) ← takeExact 32 fp
  let (updated, fp) ← takeExact 8 fp
  return ({ kind, blobLen := leValue blen.val, hasMac := flags.val.headD 0,
            isSealed := flags.val.getD 1 0, reserved, mac, prevHash := prev,
            entryHash := hash, updated := (UInt64.ofNat (leValue updated.val)).toInt64 }, fp)

/-- A short read of the kind field alone is reported as a clean end of file:
`feof` is set whether none or one to three of its bytes were there. -/
def ledgerReadRecordHeader (fp : Bytes) : HeaderRead :=
  match takeExact 4 fp with
  | none => .eof
  | some (kind, fp) =>
    match readHeaderFields (UInt32.ofNat (leValue kind.val)) fp with
    | none => .short
    | some (h, rest) => .complete h rest

/-- What one turn of a walker's loop reads: the end of the file, a record that
cannot be read (and why), or a record and the bytes after it. -/
inductive NextRecord where
  | eof
  | shortHeader
  | lengthOutOfRange
  | shortBlob
  | record (r : Record) (rest : Bytes)

/-- The header, the length check and the blob read that open every turn of the
three walkers (`ledger_scan_latest_two`, `ledger_repair_torn_tail` and
`fractal_ledger_verify`), which spell it out in the same order. -/
def nextRecord (fp : Bytes) : NextRecord :=
  match ledgerReadRecordHeader fp with
  | .eof => .eof
  | .short => .shortHeader
  | .complete h rest =>
    if hl : maxBlobBytes < h.blobLen then .lengthOutOfRange
    else match takeExact h.blobLen rest with
      | none => .shortBlob
      | some (blob, rest) =>
        .record { kind := h.kind, hasMac := h.hasMac, isSealed := h.isSealed,
                  reserved := h.reserved, mac := h.mac, prevHash := h.prevHash,
                  entryHash := h.entryHash, updated := h.updated, blob := blob.val,
                  lengthFits := by
                    rw [blob.property]
                    exact lt_of_le_maxBlobBytes (Nat.le_of_not_lt hl) } rest

/-- The bytes a record header was read from, after its kind field. -/
def RecordHeader.encodeFields (h : RecordHeader) : Bytes :=
  leBytes 4 h.blobLen ++ (h.hasMac :: h.isSealed :: (h.reserved.val ++ (h.mac.val ++
    (h.prevHash.val ++ (h.entryHash.val ++ leBytes 8 h.updated.toUInt64.toNat)))))

theorem RecordHeader.encodeFields_length (h : RecordHeader) : h.encodeFields.length = 112 := by
  simp [encodeFields]

theorem flags_eq (b : Block 2) : b.val = [b.val.headD 0, b.val.getD 1 0] := by
  obtain ⟨bs, hb⟩ := b
  match bs, hb with
  | [x, y], _ => rfl

/-- Reading back the fields that were written gives the same header. -/
theorem readHeaderFields_encode (h : RecordHeader) (hl : h.blobLen < 2 ^ 32) (rest : Bytes) :
    readHeaderFields h.kind (h.encodeFields ++ rest) = some (h, rest) := by
  have hblen : leValue (leBytes 4 h.blobLen) = h.blobLen := leValue_leBytes (by simpa using hl)
  have htime : (UInt64.ofNat (leValue (leBytes 8 h.updated.toUInt64.toNat))).toInt64 = h.updated := by
    rw [uint64_leBytes]
    simp
  have h1 := takeExact_append (leBlock 4 h.blobLen)
  have h2 := takeExact_append (⟨[h.hasMac, h.isSealed], rfl⟩ : Block 2)
  have h3 := takeExact_append (leBlock 8 h.updated.toUInt64.toNat)
  simp only [leBlock_val, List.cons_append, List.nil_append] at h1 h2 h3
  simp only [readHeaderFields, RecordHeader.encodeFields, List.append_assoc, List.cons_append,
    Option.bind_eq_bind, h1, h2, h3, Option.bind_some, takeExact_append, leBlock_val, hblen, htime,
    List.headD_cons, List.getD_cons_succ, List.getD_cons_zero]
  rfl

/-- Whatever was read as a header is the rendering of that header. -/
theorem readHeaderFields_eq_some {k : UInt32} {fp rest : Bytes} {h : RecordHeader}
    (hr : readHeaderFields k fp = some (h, rest)) :
    h.kind = k ∧ h.blobLen < 2 ^ 32 ∧ fp = h.encodeFields ++ rest := by
  simp only [readHeaderFields, Option.bind_eq_bind, Option.bind_eq_some_iff, Prod.exists,
    takeExact_eq_some, Option.pure_def, Option.some.injEq, Prod.mk.injEq] at hr
  obtain ⟨blen, f1, rfl, flags, f2, rfl, reserved, f3, rfl, mac, f4, rfl, prev, f5, rfl,
    hash, f6, rfl, updated, f7, rfl, rfl, rfl⟩ := hr
  have hlt : leValue blen.val < 2 ^ 32 := by simpa using leValue_lt blen.val
  have hb : leBytes 4 (leValue blen.val) = blen.val := congrArg Subtype.val (leBlock_leValue blen)
  refine ⟨rfl, hlt, ?_⟩
  have hf := flags_eq flags
  simp only [RecordHeader.encodeFields, hb, UInt64.toUInt64_toInt64, leBytes_uint64,
    List.append_assoc, List.cons_append]
  conv_lhs => rw [hf]
  rfl

theorem readHeaderFields_eq_none {k : UInt32} {fp : Bytes} :
    readHeaderFields k fp = none ↔ fp.length < 112 := by
  constructor
  · intro hn
    by_contra hlen
    obtain ⟨b1, f1, rfl⟩ := exists_block 4 fp (by omega)
    obtain ⟨b2, f2, rfl⟩ := exists_block 2 f1 (by simp only [List.length_append, Block.length_val] at hlen; omega)
    obtain ⟨b3, f3, rfl⟩ := exists_block 2 f2 (by simp only [List.length_append, Block.length_val] at hlen; omega)
    obtain ⟨b4, f4, rfl⟩ := exists_block 32 f3 (by simp only [List.length_append, Block.length_val] at hlen; omega)
    obtain ⟨b5, f5, rfl⟩ := exists_block 32 f4 (by simp only [List.length_append, Block.length_val] at hlen; omega)
    obtain ⟨b6, f6, rfl⟩ := exists_block 32 f5 (by simp only [List.length_append, Block.length_val] at hlen; omega)
    obtain ⟨b7, f7, rfl⟩ := exists_block 8 f6 (by simp only [List.length_append, Block.length_val] at hlen; omega)
    simp only [readHeaderFields, takeExact_append, Option.bind_eq_bind, Option.bind_some] at hn
    cases hn
  · intro hlen
    cases hr : readHeaderFields k fp with
    | none => rfl
    | some p =>
      obtain ⟨h, rest⟩ := p
      obtain ⟨_, _, rfl⟩ := readHeaderFields_eq_some hr
      rw [List.length_append, RecordHeader.encodeFields_length] at hlen
      omega

def Record.header (r : Record) : RecordHeader where
  kind := r.kind
  blobLen := r.blob.length
  hasMac := r.hasMac
  isSealed := r.isSealed
  reserved := r.reserved
  mac := r.mac
  prevHash := r.prevHash
  entryHash := r.entryHash
  updated := r.updated

theorem Record.encode_eq (r : Record) :
    r.encode = leBytes 4 r.kind.toNat ++ (r.header.encodeFields ++ r.blob) := by
  simp [encode, RecordHeader.encodeFields, header]

theorem ledgerReadRecordHeader_encode (h : RecordHeader) (hl : h.blobLen < 2 ^ 32) (rest : Bytes) :
    ledgerReadRecordHeader (leBytes 4 h.kind.toNat ++ (h.encodeFields ++ rest)) =
      .complete h rest := by
  have hk := takeExact_append (leBlock 4 h.kind.toNat) (h.encodeFields ++ rest)
  rw [leBlock_val] at hk
  simp only [ledgerReadRecordHeader, hk, leBlock_val, uint32_leBytes, readHeaderFields_encode h hl]

theorem ledgerReadRecordHeader_complete {fp rest : Bytes} {h : RecordHeader}
    (hr : ledgerReadRecordHeader fp = .complete h rest) :
    h.blobLen < 2 ^ 32 ∧ fp = leBytes 4 h.kind.toNat ++ (h.encodeFields ++ rest) := by
  unfold ledgerReadRecordHeader at hr
  split at hr
  · cases hr
  · rename_i kind fp' hk
    split at hr
    · cases hr
    · rename_i h' rest' hf
      cases hr
      obtain ⟨hkind, hl, rfl⟩ := readHeaderFields_eq_some hf
      rw [takeExact_eq_some] at hk
      rw [hkind, leBytes_uint32]
      exact ⟨hl, hk⟩

theorem ledgerReadRecordHeader_eof {fp : Bytes} :
    ledgerReadRecordHeader fp = .eof ↔ fp.length < 4 := by
  rw [← takeExact_eq_none]
  unfold ledgerReadRecordHeader
  split
  · simp [*]
  · split <;> simp [*]

theorem ledgerReadRecordHeader_short {fp : Bytes} :
    ledgerReadRecordHeader fp = .short ↔ 4 ≤ fp.length ∧ fp.length < 116 := by
  unfold ledgerReadRecordHeader
  split
  · rename_i hk
    rw [takeExact_eq_none] at hk
    simp only [reduceCtorEq, false_iff]
    omega
  · rename_i kind fp' hk
    rw [takeExact_eq_some] at hk
    subst hk
    split
    · rename_i hf
      rw [readHeaderFields_eq_none] at hf
      simp
      omega
    · rename_i h rest hf
      have hlen : ¬ fp'.length < 112 := by
        rw [← readHeaderFields_eq_none, hf]
        simp
      simp
      omega

/-- A record the readers accept: its blob is within the ceiling. -/
def Record.Fits (r : Record) : Prop := r.blob.length ≤ maxBlobBytes

instance (r : Record) : Decidable r.Fits := inferInstanceAs (Decidable (_ ≤ _))

/-- A complete record is read back whole, whatever follows it. -/
theorem nextRecord_encode (r : Record) (hr : r.Fits) (rest : Bytes) :
    nextRecord (r.encode ++ rest) = .record r rest := by
  have hh := ledgerReadRecordHeader_encode r.header r.lengthFits (r.blob ++ rest)
  have hb : takeExact r.header.blobLen (r.blob ++ rest) = some (⟨r.blob, rfl⟩, rest) :=
    takeExact_append (⟨r.blob, rfl⟩ : Block r.blob.length) rest
  have hle : ¬ maxBlobBytes < r.header.blobLen := Nat.not_lt.mpr hr
  rw [r.encode_eq]
  simp only [List.append_assoc, nextRecord]
  rw [show r.kind = r.header.kind from rfl, hh]
  simp only [dif_neg hle, hb]
  rfl

/-- Only the bytes of a complete record are read as that record. -/
theorem nextRecord_eq_record {fp rest : Bytes} {r : Record} (h : nextRecord fp = .record r rest) :
    r.Fits ∧ fp = r.encode ++ rest := by
  unfold nextRecord at h
  split at h
  · cases h
  · cases h
  · rename_i hd tail hh
    split at h
    · cases h
    · rename_i hle
      split at h
      · cases h
      · rename_i blob rest' hb
        cases h
        obtain ⟨_, rfl⟩ := ledgerReadRecordHeader_complete hh
        rw [takeExact_eq_some] at hb
        subst hb
        refine ⟨by rw [Record.Fits, blob.property]; omega, ?_⟩
        rw [Record.encode_eq]
        simp [Record.header, RecordHeader.encodeFields]

theorem nextRecord_eq_eof {fp : Bytes} : nextRecord fp = .eof ↔ fp.length < 4 := by
  rw [← ledgerReadRecordHeader_eof]
  unfold nextRecord
  split
  · simp [*]
  · simp [*]
  · split
    · simp [*]
    · split <;> simp [*]

/-- A torn record of four bytes or more is noticed: its header or its blob
reads short. -/
theorem nextRecord_torn (r : Record) (hr : r.Fits) {torn : Bytes}
    (hp : torn <+: r.encode) (hlt : torn.length < r.encode.length) (h4 : 4 ≤ torn.length) :
    nextRecord torn = .shortHeader ∨ nextRecord torn = .shortBlob := by
  by_cases hlen : torn.length < 116
  · left
    simp only [nextRecord, ledgerReadRecordHeader_short.mpr ⟨h4, hlen⟩]
  · right
    -- The header is whole, so the tear is inside the blob.
    have hhead : (leBytes 4 r.kind.toNat ++ r.header.encodeFields).length = 116 := by
      simp [RecordHeader.encodeFields_length]
    rw [r.encode_eq, ← List.append_assoc] at hp
    obtain ⟨part, rfl⟩ : leBytes 4 r.kind.toNat ++ r.header.encodeFields <+: torn :=
      List.prefix_of_prefix_length_le (List.prefix_append _ _) hp (by omega)
    rw [List.prefix_append_right_inj] at hp
    have hpart : part.length < r.blob.length := by
      rw [r.encode_length, List.length_append, hhead] at hlt
      omega
    have hshort : takeExact r.header.blobLen part = none := takeExact_eq_none.mpr hpart
    have hle : ¬ maxBlobBytes < r.header.blobLen := Nat.not_lt.mpr hr
    have hh := ledgerReadRecordHeader_encode r.header r.lengthFits part
    rw [List.append_assoc]
    simp only [nextRecord]
    rw [show r.kind = r.header.kind from rfl, hh]
    simp only [dif_neg hle, hshort]

end FractalSQL.Ledger
