import FractalSQL.Lib.Count
import FractalSQL.Lib.Ring
import FractalSQL.Service.ResponseCache
import Mathlib.Data.List.ReduceOption

/-!
# The ring of the cache

Read from the next slot on, the occupied slots are the entries in the order in which their
tokens were put in. An eviction leaves a hole at the far end, an insertion fills the far
end, and a replacement leaves every position alone. The bytes counted are the bytes held, so
emptying the ring makes room for any admissible body.
-/
namespace FractalSQL.Service
open Lib

/-- The slots from the oldest on. -/
def Cache.ring (cache : Cache) : List (Option CacheEntry) := cache.slots.rotate cache.next

def Cache.entries (cache : Cache) : List CacheEntry := cache.ring.reduceOption

def Cache.tokens (cache : Cache) : List UInt64 := cache.entries.map CacheEntry.token

/-- The oldest slot takes a new content, and the ring moves on. -/
def Cache.store (cache : Cache) (slot : Option CacheEntry) : Cache where
  slots := cache.slots.set cache.next slot
  next := (cache.next + 1) % cacheEntries
  bytes := cache.bytes - bodyBytes (cache.slots.getD cache.next none) + bodyBytes slot

theorem evictNext_eq (cache : Cache) : cache.evictNext = cache.store none := rfl

/-- The bytes are those of the bodies held, none of which is too long. -/
structure Cache.Sound (cache : Cache) : Prop where
  length : cache.slots.length = cacheEntries
  next : cache.next < cacheEntries
  bytes : cache.bytes = (cache.slots.map bodyBytes).sum
  small : ∀ slot ∈ cache.slots, bodyBytes slot ≤ cacheEntryMax

theorem Cache.Sound.empty : Cache.Sound {} where
  length := List.length_replicate
  next := by decide
  bytes := by simp [bodyBytes]
  small := by
    intro slot hslot
    rw [List.eq_of_mem_replicate hslot]
    exact Nat.zero_le _

section Store
variable {cache : Cache}

theorem Cache.Sound.slot (h : cache.Sound) : cache.slots[cache.next]? = some (cache.slots.getD cache.next none) := by
  have hlt : cache.next < cache.slots.length := h.length ▸ h.next
  rw [List.getD_eq_getElem?_getD, List.getElem?_eq_getElem hlt, Option.getD_some]

theorem Cache.Sound.store (h : cache.Sound) {slot : Option CacheEntry} (hslot : bodyBytes slot ≤ cacheEntryMax) :
    (cache.store slot).Sound where
  length := by rw [Cache.store, List.length_set, h.length]
  next := Nat.mod_lt _ (by decide)
  bytes := by
    have hsum := sum_map_set_add h.slot bodyBytes slot
    have hle : bodyBytes (cache.slots.getD cache.next none) ≤ (cache.slots.map bodyBytes).sum :=
      List.single_le_sum (fun _ _ => Nat.zero_le _) _ (List.mem_map_of_mem (List.mem_of_getElem? h.slot))
    rw [Cache.store, h.bytes]
    dsimp only
    omega
  small := by
    intro s hs
    rcases mem_of_mem_set hs with hold | rfl
    · exact h.small s hold
    · exact hslot

theorem ring_store (h : cache.Sound) (slot : Option CacheEntry) : (cache.store slot).ring = cache.ring.tail ++ [slot] := by
  have hlt : cache.next < cache.slots.length := h.length ▸ h.next
  have := rotate_set_succ hlt slot
  rwa [h.length] at this

/-- A store forgets the oldest entry, or none. -/
theorem entries_store (h : cache.Sound) (slot : Option CacheEntry) :
    ∃ k, (cache.store slot).entries = cache.entries.drop k ++ slot.toList := by
  obtain ⟨k, -, htail⟩ := tail_reduceOption cache.ring
  exact ⟨k, by rw [Cache.entries, ring_store h, List.reduceOption_append, List.reduceOption_singleton, htail, Cache.entries]⟩

theorem Cache.Sound.bytes_ring (h : cache.Sound) : cache.bytes = (cache.ring.map bodyBytes).sum :=
  h.bytes.trans ((List.rotate_perm cache.slots cache.next).map bodyBytes).sum_eq.symm

end Store

/-! ### The eviction loop -/

section Evict
variable {cache : Cache} {len : ℕ}

theorem evictLoop_sound (h : cache.Sound) (scans : ℕ) : (evictLoop len scans cache).Sound := by
  induction scans generalizing cache with
  | zero => exact h
  | succ scans ih =>
    rw [evictLoop]
    split_ifs
    · exact ih (h.store (Nat.zero_le _))
    · exact h

/-- The loop forgets the oldest entries. -/
theorem evictLoop_entries (h : cache.Sound) (scans : ℕ) :
    ∃ k, (evictLoop len scans cache).entries = cache.entries.drop k := by
  induction scans generalizing cache with
  | zero => exact ⟨0, rfl⟩
  | succ scans ih =>
    rw [evictLoop]
    split_ifs
    · rw [evictNext_eq]
      obtain ⟨k, hk⟩ := ih (@Cache.Sound.store _ h none (Nat.zero_le _))
      obtain ⟨j, hj⟩ := entries_store h none
      refine ⟨j + k, ?_⟩
      rw [hk, hj, Option.toList_none, List.append_nil, List.drop_drop]
    · exact ⟨0, rfl⟩

/-- As many turns as there are slots before the holes make room. -/
theorem evictLoop_fits (hlen : len ≤ cacheMaxBytes) (h : cache.Sound) {scans holes : ℕ}
    {front : List (Option CacheEntry)} (hring : cache.ring = front ++ List.replicate holes none)
    (hfront : front.length ≤ scans) : (evictLoop len scans cache).bytes + len ≤ cacheMaxBytes := by
  have hempty (hnil : front = []) : cache.bytes = 0 := by
    rw [h.bytes_ring, hring, hnil]
    simp [bodyBytes]
  induction scans generalizing cache front holes with
  | zero =>
    rw [evictLoop, hempty (List.length_eq_zero_iff.mp (Nat.le_zero.mp hfront))]
    omega
  | succ scans ih =>
    rw [evictLoop]
    split_ifs with hover
    · cases front with
      | nil =>
        rw [hempty rfl] at hover
        omega
      | cons slot front =>
        have hnext : cache.evictNext.ring = front ++ List.replicate (holes + 1) none := by
          rw [evictNext_eq, ring_store h, hring, List.cons_append, List.tail_cons, List.append_assoc,
            List.replicate_succ']
        have hsound : cache.evictNext.Sound := h.store (Nat.zero_le _)
        refine ih hsound hnext (by simpa using hfront) fun hnil => ?_
        rw [hsound.bytes_ring, hnext, hnil]
        simp [bodyBytes]
    · omega

end Evict

/-! ### One put -/

structure Put where
  token : UInt64
  reply : Reply
  name : Bytes
  copyOk : Bool

/-- The put passes the tests in front of the lock, and its copy is allocated. -/
def Put.Admitted (p : Put) : Prop :=
  p.token ≠ 0 ∧ p.reply.body.length ≤ cacheEntryMax ∧ (p.name.length ≠ 0 ∧ p.name.length < 64) ∧ p.copyOk = true

def Put.entry (p : Put) : CacheEntry := ⟨p.token, p.name, p.reply⟩

def Cache.put (cache : Cache) (p : Put) : Cache × Bool := cachePut cache p.token p.reply p.name p.copyOk

section Put
variable {cache : Cache} {p : Put}

theorem put_refused (h : ¬ p.Admitted) : cache.put p = (cache, false) := by
  rw [Cache.put, cachePut]
  dsimp only
  by_cases htoken : p.token = 0 ∨ cacheEntryMax < p.reply.body.length
  · rw [if_pos htoken]
  by_cases hname : p.name.length = 0 ∨ 64 ≤ p.name.length
  · rw [if_neg htoken, if_pos hname]
  by_cases hcopy : p.copyOk = false
  · rw [if_neg htoken, if_neg hname, if_pos hcopy]
  refine absurd ⟨?_, ?_, ⟨?_, ?_⟩, ?_⟩ h
  · exact fun hzero => htoken (.inl hzero)
  · exact not_lt.mp fun hlong => htoken (.inr hlong)
  · exact fun hnil => hname (.inl hnil)
  · exact not_le.mp fun hlong => hname (.inr hlong)
  · simpa using hcopy

/-- A token that is there keeps its slot. -/
theorem put_found (h : p.Admitted) {i : ℕ} {e : CacheEntry} (hfind : cacheFind cache p.token = some (i, e)) :
    cache.put p = ({ cache with
      slots := cache.slots.set i (some p.entry)
      bytes := cache.bytes - e.reply.body.length + p.reply.body.length }, true) := by
  obtain ⟨htoken, hlen, ⟨hname, hname'⟩, hcopy⟩ := h
  rw [Cache.put, cachePut]
  dsimp only
  rw [if_neg (not_or.mpr ⟨htoken, not_lt.mpr hlen⟩), if_neg (not_or.mpr ⟨hname, not_le.mpr hname'⟩),
    if_neg (by simp [hcopy]), hfind]
  rfl

/-- A fresh token finds room. -/
theorem put_fresh (hs : cache.Sound) (h : p.Admitted) (hfind : cacheFind cache p.token = none) :
    cache.put p = ((evictLoop p.reply.body.length (cacheEntries + 1) cache).store (some p.entry), true) ∧
      (evictLoop p.reply.body.length (cacheEntries + 1) cache).bytes + p.reply.body.length ≤ cacheMaxBytes := by
  obtain ⟨htoken, hlen, ⟨hname, hname'⟩, hcopy⟩ := h
  have hmax : cacheEntryMax ≤ cacheMaxBytes := by decide
  have hring : cache.ring = cache.ring ++ List.replicate 0 none := (List.append_nil _).symm
  have hcount : cache.ring.length ≤ cacheEntries + 1 := by
    rw [Cache.ring, List.length_rotate, hs.length]
    exact Nat.le_succ _
  have hfits := evictLoop_fits (hlen.trans hmax) hs hring hcount
  refine ⟨?_, hfits⟩
  rw [Cache.put, cachePut]
  dsimp only
  rw [if_neg (not_or.mpr ⟨htoken, not_lt.mpr hlen⟩), if_neg (not_or.mpr ⟨hname, not_le.mpr hname'⟩),
    if_neg (by simp [hcopy]), hfind]
  dsimp only
  rw [if_neg (not_lt.mpr hfits)]
  rfl

/-- What a fresh token does to the ring. -/
theorem entries_put_fresh (hs : cache.Sound) (h : p.Admitted) (hfind : cacheFind cache p.token = none) :
    ∃ k, (cache.put p).1.entries = cache.entries.drop k ++ [p.entry] := by
  obtain ⟨hput, -⟩ := put_fresh hs h hfind
  obtain ⟨j, hj⟩ := entries_store (evictLoop_sound hs _) (some p.entry)
  obtain ⟨k, hk⟩ := evictLoop_entries hs (cacheEntries + 1)
  exact ⟨k + j, by rw [hput, hj, hk, List.drop_drop]; rfl⟩

/-- A replacement does not move a token. -/
theorem tokens_put_found (h : p.Admitted) {i : ℕ} {e : CacheEntry} (hfind : cacheFind cache p.token = some (i, e)) :
    (cache.put p).1.tokens = cache.tokens := by
  obtain ⟨hslot, htoken⟩ := cacheFind_some hfind
  have hsame : (cache.slots.set i (some p.entry)).map (Option.map CacheEntry.token) =
      cache.slots.map (Option.map CacheEntry.token) := by
    apply List.ext_getElem?
    intro j
    rw [List.getElem?_map, List.getElem?_map, List.getElem?_set]
    split_ifs with hij hlt
    · subst hij
      rw [hslot, Option.map_some, Option.map_some, Option.map_some, Option.map_some, htoken]
      rfl
    · exact absurd (List.getElem?_eq_some_iff.mp hslot).1 (by omega)
    · rfl
  rw [put_found h hfind, Cache.tokens, Cache.tokens, Cache.entries, Cache.entries, ← List.reduceOption_map,
    ← List.reduceOption_map, Cache.ring, Cache.ring, List.map_rotate, List.map_rotate, hsame]

theorem Cache.Sound.put (hs : cache.Sound) (p : Put) : (cache.put p).1.Sound := by
  by_cases h : p.Admitted
  · cases hfind : cacheFind cache p.token with
    | none =>
      rw [(put_fresh hs h hfind).1]
      exact (evictLoop_sound hs _).store h.2.1
    | some found =>
      obtain ⟨i, e⟩ := found
      obtain ⟨hslot, -⟩ := cacheFind_some hfind
      have hsum := sum_map_set_add hslot bodyBytes (some p.entry)
      have hle : bodyBytes (some e) ≤ (cache.slots.map bodyBytes).sum :=
        List.single_le_sum (fun _ _ => Nat.zero_le _) _ (List.mem_map_of_mem (List.mem_of_getElem? hslot))
      rw [put_found h hfind]
      refine ⟨by rw [List.length_set, hs.length], hs.next, ?_, ?_⟩
      · dsimp only
        rw [hs.bytes]
        simp only [bodyBytes, Put.entry] at hsum hle ⊢
        omega
      · intro slot hmem
        rcases mem_of_mem_set hmem with hold | rfl
        · exact hs.small slot hold
        · exact h.2.1
  · rw [put_refused h]
    exact hs

end Put

/-! ### Runs -/

/-- The cache after some puts, with the number of the put that brought each token in. -/
structure PutRun where
  cache : Cache := {}
  born : UInt64 → ℕ := fun _ => 0
  count : ℕ := 0

def PutRun.put (r : PutRun) (p : Put) : PutRun where
  cache := (r.cache.put p).1
  born := if (r.cache.put p).2 ∧ cacheFind r.cache p.token = none then Function.update r.born p.token r.count else r.born
  count := r.count + 1

/-- The tokens stand in the order in which they came in. -/
structure PutRun.Ordered (r : PutRun) : Prop where
  sound : r.cache.Sound
  distinct : r.cache.TokensDistinct
  order : r.cache.tokens.Pairwise fun t t' => r.born t < r.born t'
  past : ∀ t ∈ r.cache.tokens, r.born t < r.count

theorem PutRun.Ordered.empty : PutRun.Ordered {} := by
  have hnil : ({} : Cache).tokens = [] := by
    rw [Cache.tokens, Cache.entries, Cache.ring, List.rotate_replicate, List.reduceOption_replicate_none]
    rfl
  refine ⟨.empty, ?_, ?_, ?_⟩
  · intro i j e e' hi
    have := List.eq_of_mem_replicate (List.mem_of_getElem? hi)
    cases this
  · rw [hnil]
    exact .nil
  · rw [hnil]
    exact nofun

theorem token_not_mem_tokens {cache : Cache} {token : UInt64} (h : cacheFind cache token = none) :
    token ∉ cache.tokens := by
  intro hmem
  obtain ⟨e, he, rfl⟩ := List.mem_map.mp hmem
  have hring : some e ∈ cache.slots := List.mem_rotate.mp (List.reduceOption_mem_iff.mp he)
  obtain ⟨i, hi⟩ := List.getElem?_of_mem hring
  exact cacheFind_none h hi rfl

theorem PutRun.Ordered.put {r : PutRun} (h : r.Ordered) (p : Put) : (r.put p).Ordered := by
  have hsound := h.sound.put p
  have hdistinct := cachePut_tokensDistinct h.distinct p.token p.reply p.name p.copyOk
  -- a put that brings no token in leaves the tokens and their numbers alone
  have hquiet (hborn : (r.put p).born = r.born) (htokens : (r.cache.put p).1.tokens = r.cache.tokens) :
      (r.put p).Ordered := by
    refine ⟨hsound, hdistinct, ?_, ?_⟩
    · rw [hborn]
      exact htokens ▸ h.order
    · rw [hborn]
      intro t ht
      exact Nat.lt_succ_of_lt (h.past t (htokens ▸ ht))
  by_cases hadmit : p.Admitted
  · cases hfind : cacheFind r.cache p.token with
    | none =>
      obtain ⟨hput, -⟩ := put_fresh h.sound hadmit hfind
      obtain ⟨k, hk⟩ := entries_put_fresh h.sound hadmit hfind
      have htokens : (r.put p).cache.tokens = r.cache.tokens.drop k ++ [p.token] := by
        rw [Cache.tokens, show (r.put p).cache = (r.cache.put p).1 from rfl, hk, List.map_append, List.map_drop]
        rfl
      have hborn : (r.put p).born = Function.update r.born p.token r.count := by
        rw [PutRun.put]
        exact if_pos ⟨by rw [hput], hfind⟩
      have hold : ∀ t ∈ r.cache.tokens.drop k, (r.put p).born t = r.born t := by
        intro t ht
        have hne : t ≠ p.token := by
          rintro rfl
          exact token_not_mem_tokens hfind (List.mem_of_mem_drop ht)
        rw [hborn, Function.update_of_ne hne]
      have hnew : (r.put p).born p.token = r.count := by rw [hborn, Function.update_self]
      have hpast : ∀ t ∈ r.cache.tokens.drop k, (r.put p).born t < r.count := by
        intro t ht
        rw [hold t ht]
        exact h.past t (List.mem_of_mem_drop ht)
      refine ⟨hsound, hdistinct, ?_, ?_⟩
      · rw [htokens]
        refine List.pairwise_append.mpr ⟨?_, List.pairwise_singleton _ _, ?_⟩
        · refine (h.order.sublist (List.drop_sublist k _)).imp_of_mem ?_
          intro t t' ht ht' hlt
          rwa [hold t ht, hold t' ht']
        · intro t ht t' ht'
          rw [List.mem_singleton.mp ht', hnew]
          exact hpast t ht
      · rw [htokens]
        intro t ht
        rcases List.mem_append.mp ht with ht | ht
        · exact Nat.lt_succ_of_lt (hpast t ht)
        · rw [List.mem_singleton.mp ht, hnew]
          exact Nat.lt_succ_self _
    | some found =>
      refine hquiet ?_ (tokens_put_found hadmit hfind)
      rw [PutRun.put]
      exact if_neg fun hfresh => by simp [hfind] at hfresh
  · have hput : r.cache.put p = (r.cache, false) := put_refused hadmit
    refine hquiet ?_ (by rw [hput])
    rw [PutRun.put]
    exact if_neg fun hfresh => by simp [hput] at hfresh

theorem PutRun.ordered (puts : List Put) : (puts.foldl PutRun.put {}).Ordered :=
  List.foldlRecOn puts PutRun.put PutRun.Ordered.empty fun _ h p _ => h.put p

/-- In every run each token has one slot, the bytes are accounted for, no body is too long,
the entries stand in the order in which they came in, and a fresh token always finds room,
at the price of the oldest entries. -/
theorem cache_ring (puts : List Put) :
    let r := puts.foldl PutRun.put {}
    r.cache.TokensDistinct ∧ r.cache.bytes = (r.cache.slots.map bodyBytes).sum ∧
      (∀ slot ∈ r.cache.slots, bodyBytes slot ≤ cacheEntryMax) ∧
      (r.cache.tokens.Pairwise fun t t' => r.born t < r.born t') ∧
      ∀ p : Put, p.Admitted → cacheFind r.cache p.token = none →
        (r.cache.put p).2 = true ∧ (r.cache.put p).1.bytes ≤ cacheMaxBytes ∧
          ∃ k, (r.cache.put p).1.entries = r.cache.entries.drop k ++ [p.entry] := by
  intro r
  obtain ⟨hsound, hdistinct, horder, -⟩ := PutRun.ordered puts
  refine ⟨hdistinct, hsound.bytes, hsound.small, horder, fun p hadmit hfind => ?_⟩
  obtain ⟨hput, hfits⟩ := put_fresh hsound hadmit hfind
  refine ⟨by rw [hput], ?_, entries_put_fresh hsound hadmit hfind⟩
  rw [hput]
  have hbytes : bodyBytes (some p.entry) = p.reply.body.length := rfl
  rw [Cache.store, hbytes]
  dsimp only
  omega

end FractalSQL.Service
