import FractalSQL.Digest.Binding
import FractalSQL.Ledger.Binding

/-!
# The ledger over the real digests

The digests of the ledger are those of `fractalsql_hmac.h`, which return on all that the
writer and the walkers give them. The hash of the newest record fixes the payloads and
the tags before it, as far as the compression function has no collision on the records.
-/
namespace FractalSQL.Digest
open Lib Lib.Iterated Ledger

/-- `fsql_sha256` and `fsql_hmac_sha256`. -/
def ledgerCrypto : Crypto where
  sha256 := digest fsqlSha256K
  hmacSha256 key m := ⟨Hmac.hmac (hash fsqlSha256K) 64 key m, hash_length fsqlSha256K _⟩

theorem fsqlHmacSha256_eq {key m : Bytes} (ctx : Ctx) (hkey : key.length < 2 ^ 32) (hm : m.length < 2 ^ 32) :
    fsqlHmacSha256 ctx key m = some (ledgerCrypto.hmacSha256 key m) := by
  apply Option.map_injective Subtype.val_injective
  rw [fsqlHmacSha256, hmacSha256_eq, if_pos ⟨hkey, hm⟩]
  rfl

theorem preimage_length_lt {r : Record} (h : r.Fits) : r.preimage.length < 2 ^ 32 := by
  have hblob : r.blob.length ≤ maxBlobBytes := h
  have htag : (if r.hasMac ≠ 0 then r.mac.val else []).length ≤ 32 := by
    split_ifs
    · rw [Block.length_val]
    · exact Nat.zero_le 32
  rw [Record.preimage, List.length_append, List.length_append, Block.length_val]
  unfold maxBlobBytes at hblob
  omega

/-- The code comes back with both digests of a record. -/
theorem record_digests {r : Record} (h : r.Fits) {key : Bytes} (hkey : key.length < 2 ^ 32) (ctx ctx' : Ctx) :
    fsqlSha256 ctx r.preimage = some (ledgerCrypto.sha256 r.preimage) ∧
      fsqlHmacSha256 ctx' key r.blob = some (ledgerCrypto.hmacSha256 key r.blob) := by
  constructor
  · rw [fsqlSha256_eq, if_pos (preimage_length_lt h)]
    rfl
  · exact fsqlHmacSha256_eq ctx' hkey r.lengthFits

/-- No collision on the records of two lists, and none of them with the digest that
stands before the first record. -/
structure CleanPair (rs ss : List Record) : Prop where
  compressed : ∀ r ∈ rs, ∀ s ∈ ss,
    NoCollision (transform fsqlSha256K) (compressed fsqlSha256K r.preimage) (compressed fsqlSha256K s.preimage)
  nonzero : ∀ r ∈ rs ++ ss, digest fsqlSha256K r.preimage ≠ zeroHash

theorem CleanPair.take {rs ss : List Record} (h : CleanPair rs ss) (n : ℕ) : CleanPair (rs.take n) ss := by
  constructor
  · intro r hr
    exact h.compressed r (List.mem_of_mem_take hr)
  · intro r hr
    apply h.nonzero
    rcases List.mem_append.mp hr with hr | hr
    · exact List.mem_append_left _ (List.mem_of_mem_take hr)
    · exact List.mem_append_right _ hr

theorem mem_of_mem_kindRecords {k : UInt32} {rs : List Record} {r : Record} (h : r ∈ kindRecords k rs) : r ∈ rs :=
  (List.mem_filter.mp h).1

/-- The records of one kind, as the full walk wants them. -/
structure SoundChain (env : LedgerEnv) (rs : List Record) : Prop where
  fits : ∀ r ∈ rs, r.Fits
  sound : ∀ r ∈ rs, r.Sound env.crypto env.key
  linked : Linked Record.prevHash Record.entryHash zeroHash rs

theorem SoundChain.of_chainFrom {env : LedgerEnv} {k : UInt32} {rs : List Record} (hfits : ∀ r ∈ rs, r.Fits)
    (h : ChainFrom env.crypto env.key k zeroHash rs) : SoundChain env (kindRecords k rs) :=
  ⟨fun r hr => hfits r (mem_of_mem_kindRecords hr), h.sound, h.linked⟩

theorem SoundChain.take {env : LedgerEnv} {rs : List Record} (h : SoundChain env rs) (n : ℕ) : SoundChain env (rs.take n) := by
  have hlinked := h.linked
  rw [← List.take_append_drop n rs, linked_append] at hlinked
  exact ⟨fun r hr => h.fits r (List.mem_of_mem_take hr), fun r hr => h.sound r (List.mem_of_mem_take hr), hlinked.1⟩

/-- Two chains under a key that end in one hash hold the same payloads and tags. -/
theorem SoundChain.payloads_eq {env : LedgerEnv} (hreal : env.crypto = ledgerCrypto) {key : Bytes} (hkey : env.key = some key)
    {rs ss : List Record} (hrs : SoundChain env rs) (hss : SoundChain env ss) (hclean : CleanPair rs ss)
    (hend : endHash Record.entryHash zeroHash rs = endHash Record.entryHash zeroHash ss) :
    rs.map (fun r => (r.blob, r.mac)) = ss.map (fun r => (r.blob, r.mac)) := by
  apply linked_binding Record.prevHash Record.entryHash Record.preimage (fun r => (r.blob, r.mac)) (digest fsqlSha256K)
    _ _ _ _ hrs.linked hss.linked hend
  · intro r hr s hs hsame
    have hlen := preimage_length_lt (hrs.fits r hr)
    have hlen' := preimage_length_lt (hss.fits s hs)
    exact eq_of_digest_eq fsqlSha256K (by omega) (by omega) (hclean.compressed r hr s hs) hsame
  · intro r hr s hs hpre
    exact preimage_inj ((hrs.sound r hr).keyed key hkey).1 ((hss.sound s hs).keyed key hkey).1 hpre
  · intro r hr
    have hdigest := (hrs.sound r hr).digest
    rw [hreal] at hdigest
    exact ⟨hdigest.symm, hclean.nonzero r (List.mem_append_left _ hr)⟩
  · intro s hs
    have hdigest := (hss.sound s hs).digest
    rw [hreal] at hdigest
    exact ⟨hdigest.symm, hclean.nonzero s (List.mem_append_right _ hs)⟩

/-- Two ledgers that the full walk finds sound under a key, and whose newest records of
a kind have one hash, hold the same payloads and tags of that kind. -/
theorem payloads_eq_of_tip_eq {env : LedgerEnv} (hreal : env.crypto = ledgerCrypto) {key : Bytes} (hkey : env.key = some key)
    {k : UInt32} {fp fp' : Bytes} (hwalk : (verifyWalk env.crypto env.key k fp).fault = none)
    (hwalk' : (verifyWalk env.crypto env.key k fp').fault = none)
    (hclean : CleanPair (kindRecords k (recordsOf fp)) (kindRecords k (recordsOf fp')))
    (htip : chainEnd k zeroHash (recordsOf fp) = chainEnd k zeroHash (recordsOf fp')) :
    (kindRecords k (recordsOf fp)).map (fun r => (r.blob, r.mac)) =
      (kindRecords k (recordsOf fp')).map (fun r => (r.blob, r.mac)) := by
  obtain ⟨_, hframe, hchain⟩ := chain_of_walk_clean hwalk
  obtain ⟨_, hframe', hchain'⟩ := chain_of_walk_clean hwalk'
  exact (SoundChain.of_chainFrom hframe.fits hchain).payloads_eq hreal hkey (.of_chainFrom hframe'.fits hchain') hclean htip

def realEnv : LedgerEnv := ⟨ledgerCrypto, some [7], none⟩

theorem five_fits : [(5 : UInt8)].length ≤ maxBlobBytes := by
  rw [List.length_singleton]
  decide

theorem eight_fits : [(8 : UInt8)].length ≤ maxBlobBytes := by
  rw [List.length_singleton]
  decide

/-- One record of kind 1, and the same with a record of kind 2 behind it. -/
def firstEntry : Record := nextEntry realEnv [] 1 [5] five_fits 0

def otherEntry : Record := nextEntry realEnv [firstEntry] 2 [8] eight_fits 0

theorem inner_steps_first : Steps (transform fsqlSha256K) initialState
    [0x31 :: List.replicate 63 0x36, [5, 0x80] ++ List.replicate 60 0 ++ [2, 8]]
    [⟨0xd25f4423, 0xa4d066e1, 0x5d68b3d8, 0x6ce0868d, 0x07cba1b2, 0xf3d1cffc, 0x33d06a7d, 0xcca47e06⟩,
      ⟨0xd0166a2c, 0x71bd789d, 0x39eebd9e, 0xc53cad93, 0xc2c8c03c, 0x9a0fedc3, 0x058c1c3e, 0xfd28fc19⟩] := by
  refine .cons ?_ (.cons ?_ (.nil _))
  all_goals
    rw [transform, schedule_eq]
    decide +kernel

/-- What is hashed to the tag of the first record. -/
def firstTag : State := ⟨0x42eda9e1, 0x44b311a5, 0xdf7fb3eb, 0xbe7e983d, 0x877757fe, 0x875cc791, 0x70279c24, 0xae692ae6⟩

theorem outer_steps_first : Steps (transform fsqlSha256K) initialState
    [0x5b :: List.replicate 63 0x5c,
      (output ⟨0xd0166a2c, 0x71bd789d, 0x39eebd9e, 0xc53cad93, 0xc2c8c03c, 0x9a0fedc3, 0x058c1c3e, 0xfd28fc19⟩).val ++
        0x80 :: List.replicate 29 0 ++ [3, 0]]
    [⟨0xdb2abf27, 0x8688cbd5, 0xe0eb5029, 0xff67b104, 0x201c2400, 0x10c7d2e1, 0x06140a18, 0x52f9edac⟩, firstTag] := by
  refine .cons ?_ (.cons ?_ (.nil _))
  all_goals
    rw [transform, schedule_eq]
    decide +kernel

theorem firstEntry_mac : firstEntry.mac.val = (output firstTag).val :=
  (tag_of_steps fsqlSha256K [7] [5] (by decide +kernel) inner_steps_first rfl (by decide +kernel) outer_steps_first rfl).1

theorem firstEntry_preimage : firstEntry.preimage = List.replicate 32 0 ++ 5 :: (output firstTag).val := by
  rw [← firstEntry_mac]
  rfl

theorem firstEntry_blocks : blocksOf 64 (padded firstEntry.preimage) =
    [List.replicate 32 0 ++ 5 :: (output firstTag).val.take 31,
      (output firstTag).val.drop 31 ++ 0x80 :: List.replicate 60 0 ++ [2, 8]] := by
  rw [firstEntry_preimage]
  decide +kernel

theorem preimage_steps_first : Steps (transform fsqlSha256K) initialState
    [List.replicate 32 0 ++ 5 :: (output firstTag).val.take 31,
      (output firstTag).val.drop 31 ++ 0x80 :: List.replicate 60 0 ++ [2, 8]]
    [⟨0x07cc431c, 0x077ba416, 0x3ba4268c, 0x9aa16ffe, 0x6f4382bf, 0x412b976a, 0x2c27f835, 0xeb708537⟩,
      ⟨0xe363123e, 0xb7928f48, 0x8e7335a6, 0x50921dbf, 0x323fd33a, 0xb289d6ff, 0x0c7e6055, 0x152dd712⟩] := by
  refine .cons ?_ (.cons ?_ (.nil _))
  all_goals
    rw [transform, schedule_eq]
    decide +kernel

theorem entries_framed : Framed (encodeAll [firstEntry]) [firstEntry] [] ∧
    Framed (encodeAll [firstEntry, otherEntry]) [firstEntry, otherEntry] [] := by
  have hfits : firstEntry.Fits := nextEntry_fits [] 1 (by decide) 0
  have hfits' : otherEntry.Fits := nextEntry_fits [firstEntry] 2 (by decide) 0
  exact ⟨framed_encodeAll (by simpa using hfits), framed_encodeAll (by simpa using ⟨hfits, hfits'⟩)⟩

theorem payloads_eq_of_tip_eq_entries :
    (kindRecords 1 (recordsOf (encodeAll [firstEntry]))).map (fun r => (r.blob, r.mac)) =
      (kindRecords 1 (recordsOf (encodeAll [firstEntry, otherEntry]))).map (fun r => (r.blob, r.mac)) := by
  obtain ⟨hframe, hframe'⟩ := entries_framed
  have hchain : ChainFrom realEnv.crypto realEnv.key 1 zeroHash [firstEntry] :=
    nextEntry_chain (chainFrom_nil 1 zeroHash) 1 (by decide) 0
  have hchain' : ChainFrom realEnv.crypto realEnv.key 1 zeroHash [firstEntry, otherEntry] :=
    nextEntry_chain hchain 2 (by decide) 0
  have hkind : kindRecords 1 (recordsOf (encodeAll [firstEntry])) = [firstEntry] := by
    rw [hframe.records_eq]
    rfl
  have hkind' : kindRecords 1 (recordsOf (encodeAll [firstEntry, otherEntry])) = [firstEntry] := by
    rw [hframe'.records_eq]
    rfl
  apply payloads_eq_of_tip_eq (show realEnv.crypto = ledgerCrypto from rfl) (show realEnv.key = some [7] from rfl)
  · rw [hframe.verifyWalk_eq hchain]
  · rw [hframe'.verifyWalk_eq hchain']
  · rw [hkind, hkind']
    constructor
    · intro r hr s hs
      obtain rfl := List.mem_singleton.mp hr
      obtain rfl := List.mem_singleton.mp hs
      apply noCollision_self _ id
      simp only [id, compressed_of_steps fsqlSha256K firstEntry_blocks preimage_steps_first]
      decide
    · intro r hr
      obtain rfl : r = firstEntry := by simpa using hr
      intro hzero
      have hfirst : hash fsqlSha256K firstEntry.preimage = zeroHash.val := congrArg Subtype.val hzero
      rw [hash_of_steps fsqlSha256K firstEntry_blocks preimage_steps_first rfl] at hfirst
      exact absurd hfirst (by decide)
  · rw [chainEnd, hkind, chainEnd, hkind']

end FractalSQL.Digest
