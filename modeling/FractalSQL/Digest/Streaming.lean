import FractalSQL.Digest.Sha256

/-!
# What the contexts compute

The digest of a message is the fold of the compression function over the blocks of the
padded message. A context that was fed some pieces holds the stream over their
concatenation, whatever was in its memory before, and what it is finished to is the
digest. The update returns just when the piece is shorter than 2^32 bytes.
-/
namespace FractalSQL.Digest
open Lib Lib.Iterated

/-! ### Bytes in place -/

theorem take_succ_set {α : Type*} {xs : List α} {i : ℕ} (h : i < xs.length) (x : α) :
    (xs.set i x).take (i + 1) = xs.take i ++ [x] := by
  rw [List.set_eq_take_append_cons_drop, if_pos h, List.take_append, List.take_take]
  simp [h.le]

theorem setByte_take {w i : ℕ} (data : Block w) (h : i < w) (x : UInt8) :
    (setByte data i x).val.take (i + 1) = data.val.take i ++ [x] := by
  apply take_succ_set
  rwa [Block.length_val]

theorem setByte_drop {w i : ℕ} (data : Block w) (x : UInt8) {n : ℕ} (h : i < n) :
    (setByte data i x).val.drop n = data.val.drop n := List.drop_set_of_lt h

theorem zeroUpTo_val {stop i : ℕ} (data : Block 64) (hi : i ≤ stop) (hstop : stop ≤ 64) :
    (zeroUpTo stop data i).val = data.val.take i ++ List.replicate (stop - i) 0 ++ data.val.drop stop := by
  induction hn : stop - i generalizing i data with
  | zero =>
    have hsame : i = stop := by omega
    rw [zeroUpTo, if_neg (by omega), hsame]
    simp
  | succ n ih =>
    rw [zeroUpTo, if_pos (by omega), ih _ (by omega) (by omega), setByte_take data (by omega), setByte_drop data 0 (by omega),
      List.append_assoc, List.append_assoc, List.append_assoc, List.replicate_succ]
    rfl

/-- The `w` low base-256 digits of `n`, most significant first. -/
def beBytes (w n : ℕ) : Bytes := (leBytes w n).reverse

@[simp] theorem beBytes_length (w n : ℕ) : (beBytes w n).length = w := by
  rw [beBytes, List.length_reverse, leBytes_length]

theorem leBytes_eq_map (w n : ℕ) : leBytes w n = (List.range w).map fun j => UInt8.ofNat (n / 256 ^ j) := by
  induction w generalizing n with
  | zero => rfl
  | succ w ih =>
    rw [leBytes, ih, List.range_succ_eq_map, List.map_cons, List.map_map, pow_zero, Nat.div_one]
    congr 1
    apply List.map_congr_left
    intro j _
    rw [Function.comp_apply, pow_succ', Nat.div_div_eq_div_mul]

theorem leBytes_mod (w n : ℕ) : leBytes w (n % 256 ^ w) = leBytes w n := by
  induction w generalizing n with
  | zero => rfl
  | succ w ih =>
    have hlow : UInt8.ofNat (n % 256 ^ (w + 1)) = UInt8.ofNat n := by
      apply UInt8.toNat_inj.mp
      rw [UInt8.toNat_ofNat', UInt8.toNat_ofNat']
      exact Nat.mod_mod_of_dvd n (dvd_pow_self 256 w.succ_ne_zero)
    rw [leBytes, leBytes, hlow, pow_succ', Nat.mod_mul_right_div_self, ih]

theorem foldl_setByte {w : ℕ} (data : Block w) (byte : ℕ → UInt8) {n : ℕ} (h : n ≤ w) :
    ((List.range n).foldl (fun data j => setByte data (w - 1 - j) (byte j)) data).val =
      data.val.take (w - n) ++ ((List.range n).map byte).reverse := by
  induction n with
  | zero => simp
  | succ n ih =>
    rw [List.range_succ, List.foldl_append, List.foldl_cons, List.foldl_nil, List.map_append, List.map_singleton,
      List.reverse_append, List.reverse_singleton]
    change List.set _ _ _ = _
    rw [ih (by omega), List.set_append_left _ _ (by simp; omega)]
    have hlast : w - n = w - (n + 1) + 1 := by omega
    have hindex : w - 1 - n = w - (n + 1) := by omega
    have hlen : w - (n + 1) < data.val.length := by
      rw [Block.length_val]
      omega
    rw [hlast, hindex, ← List.take_set, take_succ_set hlen]
    simp

theorem lengthByte {j : ℕ} (hj : j < 8) (bits : UInt64) :
    (bits >>> (8 * UInt64.ofNat j)).toUInt8 = UInt8.ofNat (bits.toNat / 256 ^ j) := by
  have hshift : (8 * UInt64.ofNat j).toNat % 64 = 8 * j := by
    interval_cases j <;> rfl
  apply UInt8.toNat_inj.mp
  rw [UInt64.toNat_toUInt8, UInt64.toNat_shiftRight, hshift, Nat.shiftRight_eq_div_pow, UInt8.toNat_ofNat', pow_mul]
  norm_num

/-- The length field is the last eight bytes of the block. -/
theorem putLength_val (data : Block 64) (bits : UInt64) :
    (putLength data bits).val = data.val.take 56 ++ beBytes 8 bits.toNat := by
  have hmap : (List.range 8).map (fun j => (bits >>> (8 * UInt64.ofNat j)).toUInt8) = leBytes 8 bits.toNat := by
    rw [leBytes_eq_map]
    apply List.map_congr_left
    intro j hj
    exact lengthByte (List.mem_range.mp hj) bits
  rw [beBytes, ← hmap]
  exact foldl_setByte data _ (by decide)

/-! ### The stream in a context -/

section Table
variable (k : List UInt32)

/-- What a context has compressed and what it keeps. -/
def Ctx.chain (ctx : Ctx) : Chain State UInt8 := ⟨ctx.state, ctx.data.val.take ctx.datalen⟩

/-- The number of bits that a context counts, in its 64 bits. -/
def Ctx.bits (ctx : Ctx) : UInt64 := ctx.bitlen + UInt64.ofNat ctx.datalen.val * 8

@[simp] theorem chain_init (ctx : Ctx) : ctx.init.chain = ⟨initialState, []⟩ := rfl

@[simp] theorem bits_init (ctx : Ctx) : ctx.init.bits = 0 := rfl

theorem Ctx.buffer_length (ctx : Ctx) : ctx.chain.buffer.length = ctx.datalen := by
  rw [Ctx.chain, List.length_take, Block.length_val]
  exact min_eq_left ctx.datalen.isLt.le

/-- One byte stored is one value pushed. -/
theorem chain_push (ctx : Ctx) (b : UInt8) : (ctx.push k b).chain = ctx.chain.push (transform k) 64 b := by
  have htake := setByte_take ctx.data ctx.datalen.isLt b
  have hlen := ctx.buffer_length
  rw [Chain.push, hlen, Ctx.push]
  by_cases h : ctx.datalen.val + 1 = 64
  · rw [h, List.take_of_length_le (by rw [Block.length_val])] at htake
    rw [dif_pos h, if_pos h, htake]
    rfl
  · rw [dif_neg h, if_neg h]
    exact congrArg (Chain.mk ctx.state) htake

theorem bits_push (ctx : Ctx) (b : UInt8) : (ctx.push k b).bits = ctx.bits + 8 := by
  rw [Ctx.push]
  by_cases h : ctx.datalen.val + 1 = 64
  · have hlast : ctx.datalen.val = 63 := by omega
    rw [dif_pos h, Ctx.bits, Ctx.bits, hlast]
    have hfull (n : UInt64) : n + 512 + UInt64.ofNat 0 * 8 = n + UInt64.ofNat 63 * 8 + 8 := by
      rw [UInt64.add_assoc, UInt64.add_assoc]
      rfl
    exact hfull ctx.bitlen
  · rw [dif_neg h, Ctx.bits, Ctx.bits, UInt64.ofNat_add, UInt64.add_mul, UInt64.add_assoc]
    rfl

/-- What the loop does with the bytes that are left. -/
def Ctx.feed (ctx : Ctx) (data : Bytes) : Ctx := data.foldl (Ctx.push k) ctx

theorem chain_feed (ctx : Ctx) (data : Bytes) : (ctx.feed k data).chain = ctx.chain.feed (transform k) 64 data := by
  induction data generalizing ctx with
  | nil => rfl
  | cons b data ih =>
    rw [Ctx.feed, List.foldl_cons, ← Ctx.feed, ih, chain_push]
    rfl

theorem bits_feed (ctx : Ctx) (data : Bytes) : (ctx.feed k data).bits = ctx.bits + UInt64.ofNat (8 * data.length) := by
  induction data generalizing ctx with
  | nil => simp [Ctx.feed]
  | cons b data ih =>
    rw [Ctx.feed, List.foldl_cons, ← Ctx.feed, ih, bits_push, UInt64.add_assoc, List.length_cons, Nat.mul_succ,
      Nat.add_comm, UInt64.ofNat_add]
    rfl

theorem feed_append (ctx : Ctx) (xs ys : Bytes) : ctx.feed k (xs ++ ys) = (ctx.feed k xs).feed k ys := List.foldl_append

/-! ### The loop of the update -/

/-- The counter reaches every index of a piece that is short enough. -/
theorem updateLoop_eq {data : Bytes} (hshort : data.length < 2 ^ 32) {fuel : ℕ} {i : UInt32} {ctx : Ctx}
    (hi : i.toNat ≤ data.length) (hfuel : data.length - i.toNat < fuel) :
    updateLoop k data fuel i ctx = some (ctx.feed k (data.drop i.toNat)) := by
  induction fuel generalizing i ctx with
  | zero => omega
  | succ fuel ih =>
    rw [updateLoop]
    by_cases h : i.toNat < data.length
    · have hnext : (i + 1).toNat = i.toNat + 1 := by
        rw [UInt32.toNat_add]
        exact Nat.mod_eq_of_lt (by simp; omega)
      rw [dif_pos h, ih (by omega) (by omega), hnext, List.drop_eq_getElem_cons h]
      rfl
    · rw [dif_neg h, List.drop_of_length_le (by omega)]
      rfl

/-- The counter wraps before it reaches the end of a longer one. -/
theorem updateLoop_stuck {data : Bytes} (hlong : 2 ^ 32 ≤ data.length) (fuel : ℕ) (i : UInt32) (ctx : Ctx) :
    updateLoop k data fuel i ctx = none := by
  induction fuel generalizing i ctx with
  | zero => rfl
  | succ fuel ih =>
    have hi : i.toNat < data.length := lt_of_lt_of_le i.toNat_lt hlong
    rw [updateLoop, dif_pos hi, ih]

/-- Some number of turns is enough just for the pieces below 2^32 bytes. -/
theorem updateLoop_returns_iff (data : Bytes) (ctx : Ctx) :
    (∃ fuel ctx', updateLoop k data fuel 0 ctx = some ctx') ↔ data.length < 2 ^ 32 := by
  constructor
  · rintro ⟨fuel, ctx', h⟩
    by_contra hlong
    rw [updateLoop_stuck k (by omega)] at h
    cases h
  · intro hshort
    exact ⟨data.length + 1, _, updateLoop_eq k hshort (Nat.zero_le _) (by simp)⟩

theorem update_eq (ctx : Ctx) (data : Bytes) :
    ctx.update k data = if data.length < 2 ^ 32 then some (ctx.feed k data) else none := by
  split_ifs with h
  · exact updateLoop_eq k h (Nat.zero_le _) (by simp)
  · exact updateLoop_stuck k (by omega) _ _ _

/-- Updates with several pieces, one after the other. -/
theorem foldlM_update (ctx : Ctx) (pieces : List Bytes) :
    pieces.foldlM (Ctx.update k) ctx =
      if ∀ p ∈ pieces, p.length < 2 ^ 32 then some (ctx.feed k pieces.flatten) else none := by
  induction pieces generalizing ctx with
  | nil => rfl
  | cons p pieces ih =>
    rw [List.foldlM_cons, update_eq]
    by_cases hp : p.length < 2 ^ 32
    · rw [if_pos hp, Option.bind_eq_bind, Option.bind_some, ih, List.flatten_cons, feed_append]
      apply if_congr _ rfl rfl
      rw [List.forall_mem_cons, and_iff_right hp]
    · rw [if_neg hp, if_neg fun h => hp (h p (by simp))]
      rfl

/-! ### The padding -/

/-- What follows a message of so many bytes. -/
def padding (len : ℕ) : Bytes := 0x80 :: List.replicate ((119 - len % 64) % 64) 0 ++ beBytes 8 (8 * len)

def padded (m : Bytes) : Bytes := m ++ padding m.length

/-- The digest of a message. -/
def digest (m : Bytes) : Block 32 := output ((blocksOf 64 (padded m)).foldl (transform k) initialState)

/-- The blocks that are made of the rest of a message. -/
def lastBlocks (rest : Bytes) (bits : ℕ) : List Bytes :=
  if rest.length < 56 then [rest ++ 0x80 :: List.replicate (55 - rest.length) 0 ++ beBytes 8 bits]
  else [rest ++ 0x80 :: List.replicate (63 - rest.length) 0, List.replicate 56 0 ++ beBytes 8 bits]

theorem lastBlocks_length {rest : Bytes} (h : rest.length < 64) (bits : ℕ) :
    ∀ b ∈ lastBlocks rest bits, b.length = 64 := by
  intro b hb
  rw [lastBlocks] at hb
  split_ifs at hb with hfits
  · obtain rfl := List.mem_singleton.mp hb
    simp
    omega
  · rcases List.mem_pair.mp hb with rfl | rfl
    · simp
      omega
    · simp

theorem lastBlocks_flatten {rest : Bytes} (h : rest.length < 64) (bits : ℕ) :
    (lastBlocks rest bits).flatten =
      rest ++ 0x80 :: List.replicate ((119 - rest.length) % 64) 0 ++ beBytes 8 bits := by
  rw [lastBlocks]
  split_ifs with hfits
  · have hzeros : (119 - rest.length) % 64 = 55 - rest.length := by omega
    rw [List.flatten_singleton, hzeros]
  · have hzeros : (119 - rest.length) % 64 = 63 - rest.length + 56 := by omega
    rw [List.flatten_cons, List.flatten_singleton, hzeros, List.replicate_add]
    simp

theorem beBytes_ofNat (n : ℕ) : beBytes 8 (UInt64.ofNat n).toNat = beBytes 8 n := by
  have hmod : (UInt64.ofNat n).toNat = n % 256 ^ 8 := UInt64.toNat_ofNat'
  rw [beBytes, hmod, leBytes_mod, beBytes]

/-- The padded message is the complete blocks and the ones of the rest. -/
theorem blocksOf_padded {bs : List Bytes} {rest : Bytes} (hbs : ∀ b ∈ bs, b.length = 64) (hrest : rest.length < 64) :
    blocksOf 64 (padded (bs.flatten ++ rest)) = bs ++ lastBlocks rest (8 * (bs.flatten ++ rest).length) := by
  have hmod : (bs.flatten ++ rest).length % 64 = rest.length := by
    rw [List.length_append, flatten_length 64 bs hbs, Nat.mul_add_mod, Nat.mod_eq_of_lt hrest]
  have hall : ∀ b ∈ bs ++ lastBlocks rest (8 * (bs.flatten ++ rest).length), b.length = 64 := by
    intro b hb
    rcases List.mem_append.mp hb with hb | hb
    · exact hbs b hb
    · exact lastBlocks_length hrest _ b hb
  have hwhole : blocksOf 64 ((bs ++ lastBlocks rest (8 * (bs.flatten ++ rest).length)).flatten ++ []) =
      bs ++ lastBlocks rest (8 * (bs.flatten ++ rest).length) := blocksOf_flatten hall (by decide)
  rw [← hwhole, List.append_nil, List.flatten_append, lastBlocks_flatten hrest, padded, padding, hmod]
  simp

/-- The end of a context is the end of what it holds. -/
theorem final_eq (ctx : Ctx) :
    (ctx.final k).1 = output ((lastBlocks ctx.chain.buffer ctx.bits.toNat).foldl (transform k) ctx.chain.state) := by
  have hmark := setByte_take ctx.data ctx.datalen.isLt 0x80
  have hlt := ctx.datalen.isLt
  have hlen := ctx.buffer_length
  have hbuffer : ctx.data.val.take ctx.datalen = ctx.chain.buffer := rfl
  rw [lastBlocks, hlen, Ctx.final]
  by_cases h : ctx.datalen.val < 56
  · have hzeros : 56 - (ctx.datalen.val + 1) = 55 - ctx.datalen := by omega
    have hwidth : (ctx.chain.buffer ++ [0x80] ++ List.replicate (55 - ctx.datalen.val) 0).length = 56 := by
      simp [hlen]
      omega
    simp only [if_pos h]
    rw [putLength_val, zeroUpTo_val _ (by omega) (by omega), hmark, hbuffer, hzeros, List.take_left' hwidth,
      List.append_assoc ctx.chain.buffer]
    rfl
  · have hzeros : 64 - (ctx.datalen.val + 1) = 63 - ctx.datalen := by omega
    have hblank (data : Block 64) : (data.val.take 0 ++ List.replicate (56 - 0) 0 ++ data.val.drop 56).take 56 =
        List.replicate 56 0 := by
      rw [List.take_zero, List.nil_append]
      exact List.take_left' List.length_replicate
    have hfull : (setByte ctx.data ctx.datalen 0x80).val.drop 64 = [] := by
      apply List.drop_of_length_le
      rw [Block.length_val]
    simp only [if_neg h]
    rw [putLength_val, zeroUpTo_val _ (Nat.zero_le 56) (by omega), hblank, zeroUpTo_val _ (by omega) le_rfl, hmark, hfull,
      hbuffer, hzeros, List.append_nil, List.append_assoc]
    rfl

/-- Fed a message from its start and finished, a context gives the digest. -/
theorem final_feed (ctx : Ctx) (m : Bytes) : ((ctx.init.feed k m).final k).1 = digest k m := by
  obtain ⟨bs, rest, rfl, hbs, hrest⟩ := exists_blocks (by decide : 0 < 64) m
  have hchain : (ctx.init.feed k (bs.flatten ++ rest)).chain = ⟨bs.foldl (transform k) initialState, rest⟩ := by
    rw [chain_feed, chain_init, Chain.feed_blocks _ (by decide) _ hbs hrest]
  rw [final_eq, hchain, bits_feed, bits_init, UInt64.zero_add, digest, blocksOf_padded hbs hrest, List.foldl_append,
    lastBlocks, lastBlocks, beBytes_ofNat]

/-- The hash of some pieces is the digest of their concatenation; the context on the
stack has no part in it, and only a piece of 2^32 bytes keeps the code from returning. -/
theorem hashPieces_eq (ctx : Ctx) (pieces : List Bytes) :
    (hashPieces k ctx pieces).map Prod.fst =
      if ∀ p ∈ pieces, p.length < 2 ^ 32 then some (digest k pieces.flatten) else none := by
  rw [hashPieces, foldlM_update]
  split_ifs with h
  · exact congrArg some (final_feed k ctx pieces.flatten)
  · rfl

theorem hashPieces_some (ctx : Ctx) {pieces : List Bytes} (h : ∀ p ∈ pieces, p.length < 2 ^ 32) :
    ∃ ctx', hashPieces k ctx pieces = some (digest k pieces.flatten, ctx') := by
  have heq := hashPieces_eq k ctx pieces
  rw [if_pos h] at heq
  obtain ⟨⟨hash, ctx'⟩, hrun, rfl⟩ := Option.map_eq_some_iff.mp heq
  exact ⟨ctx', hrun⟩

theorem hashPieces_none (ctx : Ctx) {pieces : List Bytes} {p : Bytes} (hp : p ∈ pieces) (hlong : 2 ^ 32 ≤ p.length) :
    hashPieces k ctx pieces = none := by
  have heq := hashPieces_eq k ctx pieces
  rw [if_neg fun h => absurd (h p hp) (by omega)] at heq
  exact Option.map_eq_none_iff.mp heq

end Table

end FractalSQL.Digest
