import FractalSQL.Ledger.Agreement

/-!
# What the chain binds

Under a digest that is injective on the strings it is applied to. With a ledger
key the tip's hash fixes every payload and MAC before it. A record as such is not
fixed: the digested string has no delimiters and leaves out the timestamp, so a
change to one record goes unseen exactly when that string and the two hashes are
kept.
-/
namespace FractalSQL.Ledger
open Lib

section Walk
variable {env : LedgerEnv} {files : LedgerFiles} {k : UInt32} {fp : Bytes}

/-- A report that names no chain fault comes from a clean walk. -/
theorem walk_clean_of_report (hopen : ledgerOpenForRead files.ledger = .records fp)
    (h : ∀ id f, fractalLedgerVerify env files k ≠ .failed id (.chain f)) :
    (verifyWalk env.crypto env.key k fp).fault = none := by
  cases hf : (verifyWalk env.crypto env.key k fp).fault with
  | none => rfl
  | some p =>
    obtain ⟨id, f⟩ := p
    refine absurd ?_ (h id f)
    simp only [fractalLedgerVerify, hopen, walkReport, hf]

/-- The records of a cleanly walked file, and their chain. -/
theorem chain_of_walk_clean (h : (verifyWalk env.crypto env.key k fp).fault = none) :
    ∃ tail, Framed fp (recordsOf fp) tail ∧
      ChainFrom env.crypto env.key k zeroHash (recordsOf fp) := by
  obtain ⟨rs, tail, hframe, hchain⟩ := verifyWalk_clean_iff.mp h
  rw [hframe.records_eq]
  exact ⟨tail, hframe, hchain⟩

end Walk

/-! ### Binding under a key -/

/-- With its MAC present, the digested string has one parse. -/
theorem preimage_inj {r s : Record} (hr : r.hasMac ≠ 0) (hs : s.hasMac ≠ 0)
    (h : r.preimage = s.preimage) :
    r.prevHash = s.prevHash ∧ (r.blob, r.mac) = (s.blob, s.mac) := by
  simp only [Record.preimage, if_pos hr, if_pos hs] at h
  obtain ⟨hprev, hrest⟩ := List.append_inj h (by simp)
  obtain ⟨hblob, hmac⟩ := List.append_inj' hrest (by simp)
  exact ⟨Subtype.ext hprev, by rw [hblob, Subtype.ext hmac]⟩

/-- Two ledgers verified under a key whose chains of one kind end in the same
hash carry the same payloads and MACs in that chain. -/
theorem chain_binding (env : LedgerEnv) (key : Bytes) (hkey : env.key = some key) (k : UInt32)
    (filesA filesB : LedgerFiles) (fpA fpB : Bytes)
    (hopenA : ledgerOpenForRead filesA.ledger = .records fpA)
    (hopenB : ledgerOpenForRead filesB.ledger = .records fpB)
    (hokA : ∀ id f, fractalLedgerVerify env filesA k ≠ .failed id (.chain f))
    (hokB : ∀ id f, fractalLedgerVerify env filesB k ≠ .failed id (.chain f))
    (tipA tipB : Record) (hlastA : (kindRecords k (recordsOf fpA)).getLast? = some tipA)
    (hlastB : (kindRecords k (recordsOf fpB)).getLast? = some tipB)
    (htip : tipA.entryHash = tipB.entryHash)
    (hinj : ∀ r ∈ kindRecords k (recordsOf fpA), ∀ s ∈ kindRecords k (recordsOf fpB),
      env.crypto.sha256 r.preimage = env.crypto.sha256 s.preimage → r.preimage = s.preimage)
    (hzero : ∀ r ∈ kindRecords k (recordsOf fpA) ++ kindRecords k (recordsOf fpB),
      env.crypto.sha256 r.preimage ≠ zeroHash) :
    (kindRecords k (recordsOf fpA)).map (fun r => (r.blob, r.mac)) =
      (kindRecords k (recordsOf fpB)).map (fun r => (r.blob, r.mac)) := by
  obtain ⟨_, _, hcA⟩ := chain_of_walk_clean (walk_clean_of_report hopenA hokA)
  obtain ⟨_, _, hcB⟩ := chain_of_walk_clean (walk_clean_of_report hopenB hokB)
  have hend {rs : List Record} {tip : Record} (h : rs.getLast? = some tip) :
      endHash Record.entryHash zeroHash rs = tip.entryHash := by
    obtain ⟨ss, rfl⟩ := List.getLast?_eq_some_iff.mp h
    simp
  refine linked_binding Record.prevHash Record.entryHash Record.preimage (fun r => (r.blob, r.mac))
    env.crypto.sha256 hinj ?_ ?_ ?_ hcA.linked hcB.linked ?_
  · intro r hr s hs hpre
    exact preimage_inj ((hcA.sound r hr).keyed key hkey).1 ((hcB.sound s hs).keyed key hkey).1 hpre
  · intro r hr
    exact ⟨(hcA.sound r hr).digest.symm, hzero r (List.mem_append_left _ hr)⟩
  · intro s hs
    exact ⟨(hcB.sound s hs).digest.symm, hzero s (List.mem_append_right _ hs)⟩
  · rw [hend hlastA, hend hlastB, htip]

/-- Two ledgers with the same chain of kind 1, once with a record of another kind
in between. -/
def sampleMixed : LedgerFiles :=
  appendAll (sampleEnv (some [7])) {} [⟨1, [5], 0⟩, ⟨2, [8], 0⟩, ⟨1, [6], 3⟩]

def samplePlain : LedgerFiles := appendAll (sampleEnv (some [7])) {} [⟨1, [5], 1⟩, ⟨1, [6], 2⟩]

def bodyOf (files : LedgerFiles) : Bytes := (files.ledger.getD []).drop ledgerHeader.length

def tipOf (files : LedgerFiles) : Record :=
  (kindRecords 1 (recordsOf (bodyOf files))).getLastD
    (newRecord (sampleEnv none) 1 [] (by decide) zeroHash 0)

theorem chain_binding_sample :
    (kindRecords 1 (recordsOf (bodyOf sampleMixed))).map (fun r => (r.blob, r.mac)) =
      (kindRecords 1 (recordsOf (bodyOf samplePlain))).map (fun r => (r.blob, r.mac)) := by
  have hA : fractalLedgerVerify (sampleEnv (some [7])) sampleMixed 1 = .verified 2 := by
    decide +kernel
  have hB : fractalLedgerVerify (sampleEnv (some [7])) samplePlain 1 = .verified 2 := by
    decide +kernel
  exact chain_binding (sampleEnv (some [7])) [7] rfl 1 sampleMixed samplePlain _ _
    (by decide +kernel) (by decide +kernel) (by rw [hA]; simp) (by rw [hB]; simp)
    (tipOf sampleMixed) (tipOf samplePlain) (by decide +kernel) (by decide +kernel)
    (by decide +kernel) (by decide +kernel) (by decide +kernel)

/-! ### A change to one record -/

/-- The hash of the newest record of a kind. -/
def tipHash (files : LedgerFiles) (k : UInt32) : Option Hash :=
  match ledgerOpenForRead files.ledger with
  | .records fp => (ledgerScanLatestTwo k fp).bind (fun scan => scan.latest.map Record.entryHash)
  | _ => none

/-- The change from one ledger to the other shows in the verdict or in the tip. -/
def ChangeDetected (env : LedgerEnv) (files files' : LedgerFiles) (k : UInt32) : Prop :=
  (∀ n, fractalLedgerVerify env files' k ≠ .verified n) ∨ tipHash files' k ≠ tipHash files k

/-- A replacement of `r` that leaves what is digested and both hashes alone and,
with a key, carries the right MAC of its own payload. -/
structure Unseen (env : LedgerEnv) (r r' : Record) : Prop where
  fits : r'.Fits
  prevHash : r'.prevHash = r.prevHash
  entryHash : r'.entryHash = r.entryHash
  preimage : r'.preimage = r.preimage
  keyed : ∀ key ∈ env.key, r'.hasMac ≠ 0 ∧ env.crypto.hmacSha256 key r'.blob = r'.mac

section Change
variable {env : LedgerEnv} {k : UInt32} {before after : List Record} {r r' : Record}

theorem kindRecords_middle (hr : r.kind = k) :
    kindRecords k (before ++ r :: after) = kindRecords k before ++ r :: kindRecords k after := by
  rw [kindRecords_append, kindRecords_cons, if_pos hr]

/-- Replacing a record keeps the chain and its end exactly when it is unseen. -/
theorem chainFrom_replace_iff (hr : r.kind = k) (hr' : r'.kind = k) (hfit : r'.Fits)
    (hc : ChainFrom env.crypto env.key k zeroHash (before ++ r :: after))
    (hinj : env.crypto.sha256 r'.preimage = env.crypto.sha256 r.preimage → r'.preimage = r.preimage) :
    (ChainFrom env.crypto env.key k zeroHash (before ++ r' :: after) ∧
        chainEnd k zeroHash (before ++ r' :: after) = chainEnd k zeroHash (before ++ r :: after)) ↔
      Unseen env r r' := by
  have hsound := hc.sound
  have hlinked := hc.linked
  rw [kindRecords_middle hr] at hsound hlinked
  have hrsound := hsound r (by simp)
  have hlink := linked_replace_iff Record.prevHash Record.entryHash r' hlinked
  rw [chainFrom_iff, chainEnd, chainEnd, kindRecords_middle hr, kindRecords_middle hr']
  constructor
  · rintro ⟨⟨hs, hl⟩, hend⟩
    obtain ⟨hp, hh⟩ := hlink.mp ⟨hl, hend⟩
    obtain ⟨hkeyed, hdigest⟩ := hs r' (by simp)
    exact ⟨hfit, hp, hh, hinj (by rw [hdigest, hh, hrsound.digest]), hkeyed⟩
  · intro h
    obtain ⟨hl, hend⟩ := hlink.mpr ⟨h.prevHash, h.entryHash⟩
    refine ⟨⟨fun s hs => ?_, hl⟩, hend⟩
    rcases List.mem_append.mp hs with hs | hs
    · exact hsound s (by simp [hs])
    · rcases List.mem_cons.mp hs with rfl | hs
      · exact ⟨h.keyed, by rw [h.preimage, hrsound.digest, h.entryHash]⟩
      · exact hsound s (by simp [hs])

/-- A record with a payload over the ceiling stops the walk. -/
theorem nextRecord_oversize (hbig : ¬ r.Fits) (rest : Bytes) :
    nextRecord (r.encode ++ rest) = .lengthOutOfRange := by
  have hh := ledgerReadRecordHeader_encode r.header r.lengthFits (r.blob ++ rest)
  have hlt : maxBlobBytes < r.header.blobLen := Nat.lt_of_not_le hbig
  rw [r.encode_eq]
  simp only [List.append_assoc, nextRecord]
  rw [show r.kind = r.header.kind from rfl, hh]
  simp only [dif_pos hlt]

/-- So a ledger with such a record in it does not verify. -/
theorem verify_oversize {files : LedgerFiles} {tail : Bytes} (hbig : ¬ r'.Fits)
    (hfit : ∀ s ∈ before, s.Fits) (hc : ChainFrom env.crypto env.key k zeroHash before)
    (hfile : files.ledger = some (ledgerHeader ++ (encodeAll (before ++ r' :: after) ++ tail)))
    (n : ℕ) : fractalLedgerVerify env files k ≠ .verified n := by
  have hwalk : (verifyWalk env.crypto env.key k (encodeAll (before ++ r' :: after) ++ tail)).fault =
      some (before.length + 1, .lengthOutOfRange) := by
    rw [verifyWalk, encodeAll_append, List.append_assoc, verifyLoop_append hfit hc, encodeAll_cons,
      List.append_assoc, verifyLoop_eq, nextRecord_oversize hbig]
    simp
  simp only [fractalLedgerVerify, hfile, ledgerOpenForRead_header, walkReport, hwalk]
  simp

theorem chainFrom_append_left {rs ss : List Record} {g : Hash}
    (hc : ChainFrom env.crypto env.key k g (rs ++ ss)) : ChainFrom env.crypto env.key k g rs := by
  have hsound := hc.sound
  have hlinked := hc.linked
  rw [kindRecords_append] at hsound hlinked
  exact ⟨fun r hr => hsound r (List.mem_append_left _ hr), ((linked_append ..).mp hlinked).1⟩

theorem tipHash_framed {files : LedgerFiles} {fp tail : Bytes} {rs : List Record}
    (hfile : files.ledger = some (ledgerHeader ++ fp)) (h : Framed fp rs tail)
    (hne : kindRecords k rs ≠ []) : tipHash files k = some (chainEnd k zeroHash rs) := by
  simp only [tipHash, hfile, ledgerOpenForRead_header, h.scan k, Option.bind_some, chainEnd]
  rcases List.eq_nil_or_concat' (kindRecords k rs) with hnil | ⟨ss, s, hs⟩
  · exact absurd hnil hne
  · simp [hs]

/-- The verdict on a framed file, when the head file is in order and claims as
many rows as it has. -/
theorem verify_framed_iff {files : LedgerFiles} {fp tail : Bytes} {rs : List Record}
    (hfile : files.ledger = some (ledgerHeader ++ fp)) (h : Framed fp rs tail)
    (hhead : ledgerHeadCheck env.crypto env.key files.head (toInt32 k.toNat) = none)
    (hrows : ¬ (((kindRecords k rs).length : ℤ) < ledgerHeadGet files.head k)) :
    (∃ n, fractalLedgerVerify env files k = .verified n) ↔
      ChainFrom env.crypto env.key k zeroHash rs := by
  simp only [fractalLedgerVerify, hfile, ledgerOpenForRead_header, walkReport]
  constructor
  · rintro ⟨n, hn⟩
    cases hf : (verifyWalk env.crypto env.key k fp).fault with
    | none =>
      obtain ⟨_, _, hc⟩ := chain_of_walk_clean hf
      rwa [h.records_eq] at hc
    | some p => simp [hf] at hn
  · intro hc
    rw [h.verifyWalk_eq hc]
    exact ⟨(kindRecords k rs).length, by simp only [hhead, if_neg hrows]⟩

/-- What a positive verdict says of the head file. -/
theorem head_of_verified {files : LedgerFiles} {fp tail : Bytes} {rs : List Record} {n : ℕ}
    (hfile : files.ledger = some (ledgerHeader ++ fp)) (h : Framed fp rs tail)
    (hok : fractalLedgerVerify env files k = .verified n) :
    ledgerHeadCheck env.crypto env.key files.head (toInt32 k.toNat) = none ∧
      ¬ (((kindRecords k rs).length : ℤ) < ledgerHeadGet files.head k) ∧
      ChainFrom env.crypto env.key k zeroHash rs := by
  have hopen : ledgerOpenForRead files.ledger = .records fp := by
    rw [hfile]
    exact ledgerOpenForRead_header fp
  have hclean : (verifyWalk env.crypto env.key k fp).fault = none :=
    walk_clean_of_report hopen (by rw [hok]; simp)
  obtain ⟨_, _, hc⟩ := chain_of_walk_clean hclean
  rw [h.records_eq] at hc
  simp only [fractalLedgerVerify, hopen, walkReport, h.verifyWalk_eq hc] at hok
  split at hok
  · cases hok
  · rename_i hcheck
    split at hok
    · cases hok
    · rename_i hrows
      exact ⟨hcheck, hrows, hc⟩

end Change

/-- On a verified ledger, replacing one record of a kind by another of that kind
is detected exactly when it is not an unseen change. -/
theorem change_detected_iff (env : LedgerEnv) (files : LedgerFiles) (k : UInt32) (n : ℕ)
    (before after : List Record) (r r' : Record) (tail : Bytes)
    (hfits : ∀ s ∈ before ++ r :: after, s.Fits) (htail : tail.length < 4)
    (hfile : files.ledger = some (ledgerHeader ++ (encodeAll (before ++ r :: after) ++ tail)))
    (hok : fractalLedgerVerify env files k = .verified n) (hr : r.kind = k) (hr' : r'.kind = k)
    (hinj : env.crypto.sha256 r'.preimage = env.crypto.sha256 r.preimage → r'.preimage = r.preimage) :
    ChangeDetected env files
        { files with ledger := some (ledgerHeader ++ (encodeAll (before ++ r' :: after) ++ tail)) } k ↔
      ¬ Unseen env r r' := by
  have hframe : Framed (encodeAll (before ++ r :: after) ++ tail) (before ++ r :: after) tail :=
    ⟨rfl, hfits, htail⟩
  obtain ⟨hhead, hrows, hc⟩ := head_of_verified hfile hframe hok
  by_cases hfit : r'.Fits
  swap
  · -- The changed record is too long to be read at all.
    have hbefore : ∀ s ∈ before, s.Fits := fun s hs => hfits s (by simp [hs])
    refine iff_of_true (.inl fun m => ?_) (fun h => hfit h.fits)
    exact verify_oversize hfit hbefore (chainFrom_append_left hc) rfl m
  have hfits' : ∀ s ∈ before ++ r' :: after, s.Fits := by
    intro s hs
    rcases List.mem_append.mp hs with hs | hs
    · exact hfits s (by simp [hs])
    · rcases List.mem_cons.mp hs with rfl | hs
      · exact hfit
      · exact hfits s (by simp [hs])
  have hframe' : Framed (encodeAll (before ++ r' :: after) ++ tail) (before ++ r' :: after) tail :=
    ⟨rfl, hfits', htail⟩
  have hcount : (kindRecords k (before ++ r' :: after)).length =
      (kindRecords k (before ++ r :: after)).length := by
    simp [kindRecords_middle hr, kindRecords_middle hr']
  have hverdict : (∃ m, fractalLedgerVerify env
      { files with ledger := some (ledgerHeader ++ (encodeAll (before ++ r' :: after) ++ tail)) } k =
        .verified m) ↔ ChainFrom env.crypto env.key k zeroHash (before ++ r' :: after) :=
    verify_framed_iff rfl hframe' hhead (by rw [hcount]; exact hrows)
  rw [ChangeDetected, ← not_exists, hverdict, tipHash_framed rfl hframe' (by simp [kindRecords_middle hr']),
    tipHash_framed hfile hframe (by simp [kindRecords_middle hr]), ne_eq, Option.some.injEq,
    ← not_and_or, chainFrom_replace_iff hr hr' hfit hc hinj]

/-- A record written under a key. -/
def keyedRecord : Record := newRecord (sampleEnv (some [7])) 1 [5] (by decide) zeroHash 0

/-- The same with another payload. -/
def rewrittenRecord : Record := { keyedRecord with blob := [6], lengthFits := by decide }

/-- The same with its MAC moved to the end of the payload and the flag cleared. -/
def shiftedRecord : Record :=
  { keyedRecord with
    hasMac := 0
    mac := zeroHash
    blob := keyedRecord.blob ++ keyedRecord.mac.val
    lengthFits := by decide }

def oneRecordLedger (r : Record) : LedgerFiles :=
  { ledger := some (ledgerHeader ++ (encodeAll ([] ++ r :: []) ++ [])) }

theorem rewritten_record_detected :
    ChangeDetected (sampleEnv (some [7])) (oneRecordLedger keyedRecord)
      (oneRecordLedger rewrittenRecord) 1 := by
  refine (change_detected_iff (sampleEnv (some [7])) (oneRecordLedger keyedRecord) 1 1 [] []
    keyedRecord rewrittenRecord [] (by decide) (by decide) rfl (by decide +kernel) rfl rfl
    (by decide +kernel)).mpr ?_
  intro h
  exact absurd h.preimage (by decide +kernel)

/-- A new timestamp goes unseen under the key, and without one so does a MAC moved
into the payload. -/
theorem changed_records_not_detected :
    fractalLedgerVerify (sampleEnv (some [7])) (oneRecordLedger keyedRecord) 1 = .verified 1 ∧
      ¬ ChangeDetected (sampleEnv (some [7])) (oneRecordLedger keyedRecord)
        (oneRecordLedger { keyedRecord with updated := 1 }) 1 ∧
      fractalLedgerVerify (sampleEnv none) (oneRecordLedger keyedRecord) 1 = .verified 1 ∧
      shiftedRecord.blob ≠ keyedRecord.blob ∧
      ¬ ChangeDetected (sampleEnv none) (oneRecordLedger keyedRecord) (oneRecordLedger shiftedRecord) 1 := by
  have htime : fractalLedgerVerify (sampleEnv (some [7]))
      (oneRecordLedger { keyedRecord with updated := 1 }) 1 = .verified 1 := by decide +kernel
  have hshift : fractalLedgerVerify (sampleEnv none) (oneRecordLedger shiftedRecord) 1 =
      .verified 1 := by decide +kernel
  refine ⟨by decide +kernel, ?_, by decide +kernel, by decide +kernel, ?_⟩
  · rintro (h | h)
    · exact h 1 htime
    · exact h (by decide +kernel)
  · rintro (h | h)
    · exact h 1 hshift
    · exact h (by decide +kernel)

end FractalSQL.Ledger
