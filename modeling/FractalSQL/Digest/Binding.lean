import FractalSQL.Digest.Streaming
import FractalSQL.Lib.Hmac
import Mathlib.Data.List.GetD

/-!
# What a digest and a tag tell

The two headers compute one hash and one keyed hash. A digest tells the message, and a
tag the message and the key, as far as the compression function has no collision among
the inputs that it was given for them.
-/
namespace FractalSQL.Digest
open Lib Lib.Iterated

/-! ### The output and the last block -/

theorem wordBytes_injective : Function.Injective wordBytes := by
  intro x y h
  simp only [wordBytes, List.cons.injEq, and_true] at h
  obtain ⟨h1, h2, h3, h4⟩ := h
  apply UInt32.toNat_inj.mp
  have h1' := congrArg UInt8.toNat h1
  have h2' := congrArg UInt8.toNat h2
  have h3' := congrArg UInt8.toNat h3
  have h4' := congrArg UInt8.toNat h4
  have hx := x.toNat_lt
  have hy := y.toNat_lt
  simp [Nat.shiftRight_eq_div_pow] at h1' h2' h3' h4'
  omega

theorem append_wordBytes {x y : UInt32} {xs ys : Bytes} (h : xs ++ wordBytes x = ys ++ wordBytes y) :
    xs = ys ∧ x = y := by
  have hparts := List.append_inj' h rfl
  exact ⟨hparts.1, wordBytes_injective hparts.2⟩

/-- The output is the state. -/
theorem output_injective : Function.Injective output := by
  intro s t h
  have hval : (output s).val = (output t).val := congrArg Subtype.val h
  simp only [output] at hval
  obtain ⟨hval, hh⟩ := append_wordBytes hval
  obtain ⟨hval, hg⟩ := append_wordBytes hval
  obtain ⟨hval, hf⟩ := append_wordBytes hval
  obtain ⟨hval, he⟩ := append_wordBytes hval
  obtain ⟨hval, hd⟩ := append_wordBytes hval
  obtain ⟨hval, hc⟩ := append_wordBytes hval
  have hfirst : wordBytes s.a ++ wordBytes s.b = wordBytes t.a ++ wordBytes t.b := hval
  obtain ⟨ha, hb⟩ := append_wordBytes hfirst
  exact State.ext (wordBytes_injective ha) hb hc hd he hf hg hh

theorem beBytes_inj {w n n' : ℕ} (hn : n < 256 ^ w) (hn' : n' < 256 ^ w) (h : beBytes w n = beBytes w n') : n = n' := by
  have hle : leBytes w n = leBytes w n' := List.reverse_injective h
  rw [← leValue_leBytes hn, hle, leValue_leBytes hn']

theorem lastBlocks_getLast (rest : Bytes) (bits : ℕ) :
    ∃ front, (lastBlocks rest bits).getLast? = some (front ++ beBytes 8 bits) := by
  rw [lastBlocks]
  split_ifs
  · exact ⟨_, rfl⟩
  · exact ⟨_, rfl⟩

/-- The last block of a padded message ends in the length of the message. -/
theorem blocksOf_padded_getLast (m : Bytes) :
    ∃ front, (blocksOf 64 (padded m)).getLast? = some (front ++ beBytes 8 (8 * m.length)) := by
  obtain ⟨bs, rest, rfl, hbs, hrest⟩ := exists_blocks (by decide : 0 < 64) m
  obtain ⟨front, hlast⟩ := lastBlocks_getLast rest (8 * (bs.flatten ++ rest).length)
  refine ⟨front, ?_⟩
  rw [blocksOf_padded hbs hrest, List.getLast?_append, hlast]
  rfl

theorem padded_length (m : Bytes) : (padded m).length = m.length + 9 + (119 - m.length % 64) % 64 := by
  rw [padded, padding]
  simp
  omega

theorem padded_length_mod (m : Bytes) : 64 ∣ (padded m).length := by
  rw [padded_length]
  omega

/-- A padded message is its blocks. -/
theorem flatten_blocksOf_padded (m : Bytes) : (blocksOf 64 (padded m)).flatten = padded m := by
  obtain ⟨bs, rest, hpadded, hbs, hrest⟩ := exists_blocks (by decide : 0 < 64) (padded m)
  have hlen := congrArg List.length hpadded
  rw [List.length_append, flatten_length 64 bs hbs] at hlen
  have hempty : rest = [] := by
    apply List.eq_nil_of_length_eq_zero
    have := padded_length_mod m
    omega
  rw [hpadded, blocksOf_flatten hbs hrest, hempty, List.append_nil]

theorem eq_of_padded_eq {m m' : Bytes} (hlen : m.length = m'.length) (h : padded m = padded m') : m = m' :=
  (List.append_inj h hlen).1

/-! ### The hash -/

section Table
variable (k : List UInt32)

/-- The inputs of the compression function for a message. -/
def compressed (m : Bytes) : List (State × Bytes) := inputs (transform k) initialState (blocksOf 64 (padded m))

/-- Messages of one digest, without a collision among what was compressed for them. -/
theorem eq_of_digest_eq {m m' : Bytes} (hm : m.length < 2 ^ 61) (hm' : m'.length < 2 ^ 61)
    (hclean : NoCollision (transform k) (compressed k m) (compressed k m')) (h : digest k m = digest k m') : m = m' := by
  obtain ⟨front, hlast⟩ := blocksOf_padded_getLast m
  obtain ⟨front', hlast'⟩ := blocksOf_padded_getLast m'
  have hne : blocksOf 64 (padded m) ≠ [] := by
    intro hnil
    rw [hnil] at hlast
    cases hlast
  have hne' : blocksOf 64 (padded m') ≠ [] := by
    intro hnil
    rw [hnil] at hlast'
    cases hlast'
  have hlen (hends : (blocksOf 64 (padded m)).getLast? = (blocksOf 64 (padded m')).getLast?) : m.length = m'.length := by
    rw [hlast, hlast'] at hends
    have hfield := (List.append_inj' (Option.some.inj hends) (by simp)).2
    have hbits := beBytes_inj (by omega) (by omega) hfield
    omega
  have hcount (hends : (blocksOf 64 (padded m)).getLast? = (blocksOf 64 (padded m')).getLast?) :
      (blocksOf 64 (padded m)).length = (blocksOf 64 (padded m')).length := by
    rw [blocksOf, blocksOf, takeBlocks_length, takeBlocks_length, padded_length, padded_length, hlen hends]
  obtain ⟨-, hblocks⟩ := eq_of_foldl_eq_of_last (transform k) hclean hne hne' hcount (output_injective h)
  have hpadded : padded m = padded m' := by
    rw [← flatten_blocksOf_padded m, hblocks, flatten_blocksOf_padded]
  exact eq_of_padded_eq (hlen (congrArg _ hblocks)) hpadded

theorem sha256_eq (ctx : Ctx) (msg : Bytes) :
    sha256 k ctx msg = if msg.length < 2 ^ 32 then some (digest k msg) else none := by
  rw [sha256]
  split_ifs with h
  · obtain ⟨ctx', hrun⟩ := hashPieces_some k ctx (List.forall_mem_singleton.mpr h)
    rw [hrun, List.flatten_singleton]
    rfl
  · rw [hashPieces_none k ctx (List.mem_singleton_self msg) (by omega)]
    rfl

/-! ### The keyed hash -/

def hash (m : Bytes) : Bytes := (digest k m).val

theorem hash_length (m : Bytes) : (hash k m).length = 32 := (digest k m).property

theorem shortKey_some (ctx : Ctx) {key : Bytes} (h : key.length < 2 ^ 32) :
    ∃ ctx', shortKey k ctx key = some (Hmac.shortened (hash k) 64 key, ctx') := by
  rw [shortKey, Hmac.shortened]
  split_ifs with hlong
  · obtain ⟨ctx', hrun⟩ := hashPieces_some k ctx (List.forall_mem_singleton.mpr h)
    rw [hrun, List.flatten_singleton]
    exact ⟨ctx', rfl⟩
  · exact ⟨ctx, rfl⟩

theorem shortKey_none (ctx : Ctx) {key : Bytes} (h : 2 ^ 32 ≤ key.length) : shortKey k ctx key = none := by
  rw [shortKey, if_pos (by omega), hashPieces_none k ctx (List.mem_singleton_self key) h]
  rfl

theorem keyPad_eq (pad : UInt8) (key : Bytes) :
    keyPad pad (Hmac.shortened (hash k) 64 key) = Hmac.masked pad (Hmac.keyBlock (hash k) 64 key) := rfl

theorem keyPad_length (pad : UInt8) (key : Bytes) : (keyPad pad (Hmac.shortened (hash k) 64 key)).length = 64 := by
  rw [keyPad_eq, Hmac.masked_length, Hmac.keyBlock_length fun m => by rw [hash_length]; decide]

theorem short_pair {p q : Bytes} (hp : p.length < 2 ^ 32) (hq : q.length < 2 ^ 32) :
    ∀ r ∈ [p, q], r.length < 2 ^ 32 := by
  intro r hr
  rcases List.mem_pair.mp hr with rfl | rfl
  · exact hp
  · exact hq

/-- The tag is the hash that is nested in the pads, with every key and message that the
loops of the update come to the end of. -/
theorem hmacSha256_eq (ctx : Ctx) (key msg : Bytes) :
    (hmacSha256 k ctx key msg).map Subtype.val =
      if key.length < 2 ^ 32 ∧ msg.length < 2 ^ 32 then some (Hmac.hmac (hash k) 64 key msg) else none := by
  have hpad (pad : UInt8) : (keyPad pad (Hmac.shortened (hash k) 64 key)).length < 2 ^ 32 := by
    rw [keyPad_length]
    decide
  rw [hmacSha256]
  by_cases hkey : key.length < 2 ^ 32
  · obtain ⟨ctx', hshort⟩ := shortKey_some k ctx hkey
    simp only [hshort, Option.bind_eq_bind, Option.bind_some]
    by_cases hmsg : msg.length < 2 ^ 32
    · obtain ⟨ctx'', hinner⟩ := hashPieces_some k ctx' (short_pair (hpad 0x36) hmsg)
      have htag (m : Bytes) : (hash k m).length < 2 ^ 32 := by
        rw [hash_length]
        decide
      obtain ⟨ctx₃, houter⟩ := hashPieces_some k ctx''
        (short_pair (hpad 0x5c) (htag [keyPad 0x36 (Hmac.shortened (hash k) 64 key), msg].flatten))
      rw [hash] at houter
      simp only [hinner, Option.bind_some, houter, if_pos (And.intro hkey hmsg)]
      simp [Hmac.hmac, Hmac.outer, Hmac.inner, hash, keyPad_eq]
    · have hstuck := hashPieces_none k ctx'
        (List.mem_cons_of_mem (keyPad 0x36 (Hmac.shortened (hash k) 64 key)) (List.mem_singleton_self msg)) (by omega)
      rw [hstuck, if_neg fun h => hmsg h.2]
      rfl
  · rw [shortKey_none k ctx (by omega), if_neg fun h => hkey h.1]
    rfl

/-- The inputs of the compression function for a tag, those of a long key aside. -/
def tagged (key m : Bytes) : List (State × Bytes) :=
  compressed k (Hmac.inner (hash k) 64 key m) ++ compressed k (Hmac.outer (hash k) 64 key m)

theorem tagged_congr {key key' m : Bytes} (h : Hmac.keyBlock (hash k) 64 key = Hmac.keyBlock (hash k) 64 key') :
    tagged k key m = tagged k key' m := by
  rw [tagged, tagged, Hmac.inner, Hmac.inner, Hmac.outer, Hmac.outer, Hmac.inner, Hmac.inner, h]

theorem extend_append {p w : List UInt32} (h : 16 ≤ w.length) : extend (p ++ w) = p ++ extend w := by
  have hget (i : ℕ) (hi : i ≤ 16) : (p ++ w).getD ((p ++ w).length - i) 0 = w.getD (w.length - i) 0 := by
    rw [List.length_append, List.getD_append_right _ _ _ _ (by omega)]
    congr 1
    omega
  rw [extend, hget 2 (by decide), hget 7 (by decide), hget 15 (by decide), hget 16 (by decide), List.append_assoc,
    ← extend]

/-- The schedule of so many words more, read off a window of sixteen. -/
def slides : ℕ → List UInt32 → List UInt32
  | n + 1, [a, b, c, d, e, f, g, h, i, j, k, l, m, o, p, q] =>
    a :: slides n [b, c, d, e, f, g, h, i, j, k, l, m, o, p, q, sig1 p + j + sig0 b + a]
  | _, w => w

theorem iterate_extend (n : ℕ) (front : List UInt32) (a b c d e f g h i j k l m o p q : UInt32) :
    extend^[n] (front ++ [a, b, c, d, e, f, g, h, i, j, k, l, m, o, p, q]) =
      front ++ slides n [a, b, c, d, e, f, g, h, i, j, k, l, m, o, p, q] := by
  induction n generalizing front a b c d e f g h i j k l m o p q with
  | zero => rfl
  | succ n ih =>
    have hstep : extend [a, b, c, d, e, f, g, h, i, j, k, l, m, o, p, q] =
        [a] ++ [b, c, d, e, f, g, h, i, j, k, l, m, o, p, q, sig1 p + j + sig0 b + a] := rfl
    rw [Function.iterate_succ_apply, extend_append le_rfl, hstep, ← List.append_assoc, ih, List.append_assoc]
    rfl

theorem schedule_eq (data : Bytes) : schedule data = slides 48
    [firstWord data 0, firstWord data 1, firstWord data 2, firstWord data 3, firstWord data 4, firstWord data 5,
      firstWord data 6, firstWord data 7, firstWord data 8, firstWord data 9, firstWord data 10, firstWord data 11,
      firstWord data 12, firstWord data 13, firstWord data 14, firstWord data 15] :=
  iterate_extend 48 [] ..

theorem hash_of_steps {m : Bytes} {bs : List Bytes} {ts : List State} {t : State} (hbs : blocksOf 64 (padded m) = bs)
    (hsteps : Steps (transform k) initialState bs ts) (hlast : ts.getLast? = some t) : hash k m = (output t).val := by
  rw [hash, digest, hbs, hsteps.foldl _ hlast]

theorem compressed_of_steps {m : Bytes} {bs : List Bytes} {ts : List State} (hbs : blocksOf 64 (padded m) = bs)
    (hsteps : Steps (transform k) initialState bs ts) : (compressed k m).map (fun p => transform k p.1 p.2) = ts := by
  rw [compressed, hbs, hsteps.values]

/-- The states of the nested hash and the ones of the hash around it make the tag. -/
theorem tag_of_steps (key m : Bytes) {bs cs : List Bytes} {ss ts : List State} {s t : State}
    (hbs : blocksOf 64 (padded (Hmac.inner (hash k) 64 key m)) = bs)
    (hinner : Steps (transform k) initialState bs ss) (hs : ss.getLast? = some s)
    (hcs : blocksOf 64 (padded (Hmac.masked 0x5c (Hmac.keyBlock (hash k) 64 key) ++ (output s).val)) = cs)
    (houter : Steps (transform k) initialState cs ts) (ht : ts.getLast? = some t) :
    Hmac.hmac (hash k) 64 key m = (output t).val ∧ (tagged k key m).map (fun p => transform k p.1 p.2) = ss ++ ts := by
  rw [← hash_of_steps k hbs hinner hs] at hcs
  have hcs' : blocksOf 64 (padded (Hmac.outer (hash k) 64 key m)) = cs := hcs
  constructor
  · exact hash_of_steps k hcs' houter ht
  · rw [tagged, List.map_append, compressed_of_steps k hbs hinner, compressed_of_steps k hcs' houter]

theorem keyBlock_length (key : Bytes) : (Hmac.keyBlock (hash k) 64 key).length = 64 := by
  apply Hmac.keyBlock_length
  intro m
  rw [hash_length]
  decide

theorem inner_length (key m : Bytes) : (Hmac.inner (hash k) 64 key m).length = 64 + m.length := by
  rw [Hmac.inner, List.length_append, Hmac.masked_length, keyBlock_length]

theorem outer_length (key m : Bytes) : (Hmac.outer (hash k) 64 key m).length = 96 := by
  rw [Hmac.outer, List.length_append, Hmac.masked_length, keyBlock_length, hash_length]

/-- Messages of one tag, without a collision among what was compressed for them. -/
theorem eq_of_tag_eq {key key' m m' : Bytes} (hm : m.length < 2 ^ 32) (hm' : m'.length < 2 ^ 32)
    (hclean : NoCollision (transform k) (tagged k key m) (tagged k key' m'))
    (h : Hmac.hmac (hash k) 64 key m = Hmac.hmac (hash k) 64 key' m') :
    Hmac.keyBlock (hash k) 64 key = Hmac.keyBlock (hash k) 64 key' ∧ m = m' := by
  apply Hmac.eq_of_hmac_eq (fun m => by rw [hash_length]; decide) _ _ h
  · intro hsame
    apply eq_of_digest_eq k _ _ (hclean.left _) (Subtype.ext hsame)
    · rw [inner_length]
      omega
    · rw [inner_length]
      omega
  · intro hsame
    apply eq_of_digest_eq k _ _ (hclean.right _) (Subtype.ext hsame)
    · rw [outer_length]
      decide
    · rw [outer_length]
      decide

end Table

/-! ### The two headers -/

/-- The tables are one table. -/
theorem fsqSha256K_eq : fsqSha256K = fsqlSha256K := rfl

theorem fsqlSha256_eq (ctx : Ctx) (msg : Bytes) :
    fsqlSha256 ctx msg = if msg.length < 2 ^ 32 then some (digest fsqlSha256K msg) else none := sha256_eq fsqlSha256K ctx msg

/-- The daemon's and the library's hash and keyed hash are the same, whatever is on
their stacks. -/
theorem headers_agree (ctx ctx' : Ctx) (key msg : Bytes) :
    fsqSha256 ctx msg = fsqlSha256 ctx' msg ∧ fsqHmacSha256 ctx key msg = fsqlHmacSha256 ctx' key msg := by
  constructor
  · rw [fsqSha256, fsqSha256K_eq, sha256_eq, fsqlSha256_eq]
  · apply Option.map_injective Subtype.val_injective
    rw [fsqHmacSha256, fsqSha256K_eq, fsqlHmacSha256, hmacSha256_eq, hmacSha256_eq]

/-- Two messages that are given one hash are one message. -/
theorem eq_of_fsqlSha256_eq {ctx ctx' : Ctx} {m m' : Bytes} {d : Block 32} (h : fsqlSha256 ctx m = some d)
    (h' : fsqlSha256 ctx' m' = some d)
    (hclean : NoCollision (transform fsqlSha256K) (compressed fsqlSha256K m) (compressed fsqlSha256K m')) : m = m' := by
  rw [fsqlSha256_eq] at h h'
  split_ifs at h h' with hm hm'
  exact eq_of_digest_eq fsqlSha256K (by omega) (by omega) hclean (Option.some.inj (h.trans h'.symm))

/-- A context with something in its memory. -/
def staleCtx : Ctx := ⟨Block.zero 64, Fin.last 63, 99, ⟨1, 2, 3, 4, 5, 6, 7, 8⟩⟩

theorem eq_of_fsqlSha256_eq_abc : ([97, 98, 99] : Bytes) = [97, 98, 99] :=
  eq_of_fsqlSha256_eq (fsqlSha256_eq staleCtx [97, 98, 99])
    (fsqlSha256_eq staleCtx [97, 98, 99]) (noCollision_self _ State.a (by decide))

/-- Two short keys are told apart by their tags up to the zeros at their ends. -/
theorem fsqlHmacSha256_eq_iff (ctx ctx' : Ctx) {key key' m m' : Bytes} (hkey : key.length ≤ 64) (hkey' : key'.length ≤ 64)
    (hm : m.length < 2 ^ 32) (hm' : m'.length < 2 ^ 32)
    (hclean : NoCollision (transform fsqlSha256K) (tagged fsqlSha256K key m) (tagged fsqlSha256K key' m')) :
    fsqlHmacSha256 ctx key m = fsqlHmacSha256 ctx' key' m' ↔ Hmac.trimmed key = Hmac.trimmed key' ∧ m = m' := by
  have hrun := hmacSha256_eq fsqlSha256K ctx key m
  have hrun' := hmacSha256_eq fsqlSha256K ctx' key' m'
  rw [if_pos ⟨by omega, hm⟩] at hrun
  rw [if_pos ⟨by omega, hm'⟩] at hrun'
  constructor
  · intro h
    rw [fsqlHmacSha256] at h
    rw [h, hrun'] at hrun
    obtain ⟨hblock, hsame⟩ := eq_of_tag_eq fsqlSha256K hm hm' hclean (Option.some.inj hrun.symm)
    exact ⟨(Hmac.keyBlock_eq_iff hkey hkey').mp hblock, hsame⟩
  · rintro ⟨htrim, rfl⟩
    have hblock := (Hmac.keyBlock_eq_iff (H := hash fsqlSha256K) hkey hkey').mpr htrim
    apply Option.map_injective Subtype.val_injective
    rw [fsqlHmacSha256, hrun, hrun', Hmac.hmac, Hmac.outer, Hmac.inner, hblock]
    rfl

theorem inner_steps_padded : Steps (transform fsqlSha256K) initialState
    [0x37 :: List.replicate 63 0x36, [2, 0x80] ++ List.replicate 60 0 ++ [2, 8]]
    [⟨0xc1960156, 0x3b91a4c4, 0xe907685d, 0x04ee6ef8, 0x5a3c92ca, 0xeb911a0b, 0x42eab39a, 0x01ebdbeb⟩,
      ⟨0x4262e39e, 0x7e027c03, 0x2abab059, 0x1b57d81e, 0xac87923a, 0x5ff4c401, 0x7b2207eb, 0x82082535⟩] := by
  refine .cons ?_ (.cons ?_ (.nil _))
  all_goals
    rw [transform, schedule_eq]
    decide +kernel

theorem outer_steps_padded : Steps (transform fsqlSha256K) initialState
    [0x5d :: List.replicate 63 0x5c,
      (output ⟨0x4262e39e, 0x7e027c03, 0x2abab059, 0x1b57d81e, 0xac87923a, 0x5ff4c401, 0x7b2207eb, 0x82082535⟩).val ++
        0x80 :: List.replicate 29 0 ++ [3, 0]]
    [⟨0xb30c2f7d, 0xd7f7bf02, 0xc808bb77, 0x10c181c7, 0x901be08b, 0xcc3beccf, 0x9916ec0f, 0xcccc0331⟩,
      ⟨0x6c34e84f, 0x57d4a994, 0x0c962b15, 0x2acfbd28, 0xfb6f78f2, 0x090ca1dc, 0xe041c36a, 0x07cd57ee⟩] := by
  refine .cons ?_ (.cons ?_ (.nil _))
  all_goals
    rw [transform, schedule_eq]
    decide +kernel

theorem fsqlHmacSha256_eq_iff_padded :
    fsqlHmacSha256 staleCtx [1] [2] = fsqlHmacSha256 staleCtx [1, 0] [2] ↔
      Hmac.trimmed [1] = Hmac.trimmed [1, 0] ∧ ([2] : Bytes) = [2] :=
  fsqlHmacSha256_eq_iff staleCtx staleCtx (by decide) (by decide) (by decide) (by decide) (by
    rw [← tagged_congr fsqlSha256K ((Hmac.keyBlock_eq_iff (by decide) (by decide)).mpr rfl)]
    have hvalues := (tag_of_steps fsqlSha256K [1] [2] (by decide +kernel) inner_steps_padded rfl (by decide +kernel)
      outer_steps_padded rfl).2
    apply noCollision_self _ id
    simp only [id, hvalues]
    decide +kernel)

end FractalSQL.Digest
