import FractalSQL.Service.Protocol

/-!
# The idempotency cache

A fixed ring of slots with a bound on the bytes held. A reply is found by its
token, replaced in place when the token is there already, and otherwise put in
the oldest slot after evicting until it fits. Lookup and insertion each run under
the cache mutex, so each is one function here.
-/
namespace FractalSQL.Service
open Lib

/-- `FSQ_CACHE_ENTRIES`, `FSQ_CACHE_MAX_BYTES` and `FSQ_CACHE_ENTRY_MAX`. -/
def cacheEntries : ℕ := 256
def cacheMaxBytes : ℕ := 64 * 1024 * 1024
def cacheEntryMax : ℕ := 8 * 1024 * 1024

/-- `struct fsq_cache_entry` with a body; an empty slot is `none`. -/
structure CacheEntry where
  token : UInt64
  name : Bytes
  reply : Reply
deriving DecidableEq

structure Cache where
  slots : List (Option CacheEntry) := List.replicate cacheEntries none
  next : ℕ := 0
  bytes : ℕ := 0
deriving DecidableEq

def CacheEntry.Holds (token : UInt64) (slot : Option CacheEntry) : Bool :=
  match slot with
  | some e => e.token = token
  | none => false

/-- `cache_find_locked`: the first slot that holds the token. -/
def cacheFind (cache : Cache) (token : UInt64) : Option (ℕ × CacheEntry) :=
  match cache.slots.findIdx? (CacheEntry.Holds token) with
  | none => none
  | some i =>
    match cache.slots[i]? with
    | some (some e) => some (i, e)
    | _ => none

/-- `cache_replay`: a miss when the name differs or the clone cannot be
allocated. -/
def cacheReplay (cache : Cache) (token : UInt64) (name : Bytes) (cloneOk : Bool) : Option Reply :=
  match cacheFind cache token with
  | none => none
  | some (_, e) => if e.name = name ∧ cloneOk then some e.reply else none

def bodyBytes (slot : Option CacheEntry) : ℕ :=
  match slot with
  | some e => e.reply.body.length
  | none => 0

/-- Empty the slot at `next` and move on. -/
def Cache.evictNext (cache : Cache) : Cache where
  slots := cache.slots.set cache.next none
  next := (cache.next + 1) % cacheEntries
  bytes := cache.bytes - bodyBytes (cache.slots.getD cache.next none)

/-- The eviction loop of `cache_put`, with the turns its scan bound leaves. -/
def evictLoop (len : ℕ) : ℕ → Cache → Cache
  | 0, cache => cache
  | scans + 1, cache =>
    if cacheMaxBytes < cache.bytes + len then evictLoop len scans cache.evictNext else cache

/-- `cache_put`. The flag says whether the reply is in the cache afterwards: it is
not for a token of 0, a reply or a name out of bounds, or a failed copy. -/
def cachePut (cache : Cache) (token : UInt64) (reply : Reply) (name : Bytes) (copyOk : Bool) :
    Cache × Bool :=
  let len := reply.body.length
  if token = 0 ∨ cacheEntryMax < len then (cache, false)
  else if name.length = 0 ∨ 64 ≤ name.length then (cache, false)
  else if copyOk = false then (cache, false)
  else match cacheFind cache token with
    | some (i, e) =>
      ({ cache with
          slots := cache.slots.set i (some ⟨token, name, reply⟩)
          bytes := cache.bytes - e.reply.body.length + len }, true)
    | none =>
      let cache := evictLoop len (cacheEntries + 1) cache
      if cacheMaxBytes < cache.bytes + len then (cache, false)
      else
        ({ slots := cache.slots.set cache.next (some ⟨token, name, reply⟩)
           next := (cache.next + 1) % cacheEntries
           bytes := cache.bytes - bodyBytes (cache.slots.getD cache.next none) + len }, true)

/-! ### What is in the cache -/

/-- Occupied slots hold pairwise different tokens. -/
def Cache.TokensDistinct (cache : Cache) : Prop :=
  ∀ (i j : ℕ) (e e' : CacheEntry), cache.slots[i]? = some (some e) → cache.slots[j]? = some (some e') →
    e.token = e'.token → i = j

theorem cacheFind_some {cache : Cache} {token : UInt64} {i : ℕ} {e : CacheEntry}
    (h : cacheFind cache token = some (i, e)) :
    cache.slots[i]? = some (some e) ∧ e.token = token := by
  unfold cacheFind at h
  split at h
  · cases h
  · rename_i j hj
    split at h
    · rename_i e' he
      cases h
      obtain ⟨hlt, hholds, -⟩ := List.findIdx?_eq_some_iff_getElem.mp hj
      rw [List.getElem?_eq_getElem hlt, Option.some.injEq] at he
      rw [he] at hholds
      exact ⟨by rw [List.getElem?_eq_getElem hlt, he], by simpa [CacheEntry.Holds] using hholds⟩
    · cases h

theorem cacheFind_none {cache : Cache} {token : UInt64} (h : cacheFind cache token = none) {i : ℕ}
    {e : CacheEntry} (he : cache.slots[i]? = some (some e)) : e.token ≠ token := by
  rintro rfl
  have hmem : (some e) ∈ cache.slots := List.mem_of_getElem? he
  unfold cacheFind at h
  split at h
  · rename_i hnone
    rw [List.findIdx?_eq_none_iff] at hnone
    simpa [CacheEntry.Holds] using hnone _ hmem
  · rename_i j hj
    obtain ⟨hlt, hholds, -⟩ := List.findIdx?_eq_some_iff_getElem.mp hj
    rw [List.getElem?_eq_getElem hlt] at h
    cases hs : cache.slots[j] with
    | none => simp [hs, CacheEntry.Holds] at hholds
    | some e' => simp [hs] at h

/-- A slot that is occupied after an eviction was occupied by the same entry. -/
theorem evictNext_mem {cache : Cache} {i : ℕ} {e : CacheEntry}
    (h : cache.evictNext.slots[i]? = some (some e)) : cache.slots[i]? = some (some e) := by
  simp only [Cache.evictNext, List.getElem?_set] at h
  split at h
  · split at h <;> simp at h
  · exact h

theorem evictLoop_mem {len scans : ℕ} {cache : Cache} {i : ℕ} {e : CacheEntry}
    (h : (evictLoop len scans cache).slots[i]? = some (some e)) :
    cache.slots[i]? = some (some e) := by
  induction scans generalizing cache with
  | zero => exact h
  | succ scans ih =>
    rw [evictLoop] at h
    split at h
    · exact evictNext_mem (ih h)
    · exact h

/-- The entries after `cache_put`: when it stored nothing, some of the old ones;
when it stored, its own in one slot and old ones with other tokens elsewhere. -/
theorem cachePut_cases {cache : Cache} (hd : cache.TokensDistinct) (token : UInt64) (reply : Reply)
    (name : Bytes) (copyOk : Bool) :
    ((cachePut cache token reply name copyOk).2 = false ∧
        ∀ (i : ℕ) (e : CacheEntry),
          (cachePut cache token reply name copyOk).1.slots[i]? = some (some e) →
            cache.slots[i]? = some (some e)) ∨
      (cachePut cache token reply name copyOk).2 = true ∧ ∃ j : ℕ, ∀ (i : ℕ) (e : CacheEntry),
        (cachePut cache token reply name copyOk).1.slots[i]? = some (some e) →
          (i = j ∧ e = ⟨token, name, reply⟩) ∨
            (i ≠ j ∧ cache.slots[i]? = some (some e) ∧ e.token ≠ token) := by
  have hset {slots : List (Option CacheEntry)} {i j : ℕ} {e : CacheEntry}
      (h : (slots.set j (some ⟨token, name, reply⟩))[i]? = some (some e)) :
      (i = j ∧ e = ⟨token, name, reply⟩) ∨ (i ≠ j ∧ slots[i]? = some (some e)) := by
    rw [List.getElem?_set] at h
    split at h
    · rename_i hij
      split at h
      · exact .inl ⟨hij.symm, (Option.some.inj (Option.some.inj h)).symm⟩
      · cases h
    · rename_i hij
      exact .inr ⟨Ne.symm hij, h⟩
  unfold cachePut
  simp only
  split
  · exact .inl ⟨rfl, fun _ _ h => h⟩
  split
  · exact .inl ⟨rfl, fun _ _ h => h⟩
  split
  · exact .inl ⟨rfl, fun _ _ h => h⟩
  split
  · rename_i j old hfind
    obtain ⟨hold, htok⟩ := cacheFind_some hfind
    refine .inr ⟨rfl, j, fun i e h => ?_⟩
    rcases hset h with hnew | ⟨hne, hin⟩
    · exact .inl hnew
    · exact .inr ⟨hne, hin, fun ht => hne (hd i j e old hin hold (ht.trans htok.symm))⟩
  · rename_i hfind
    split
    · exact .inl ⟨rfl, fun _ _ h => evictLoop_mem h⟩
    · refine .inr ⟨rfl, (evictLoop reply.body.length (cacheEntries + 1) cache).next, fun i e h => ?_⟩
      rcases hset h with hnew | ⟨hne, hin⟩
      · exact .inl hnew
      · exact .inr ⟨hne, evictLoop_mem hin, cacheFind_none hfind (evictLoop_mem hin)⟩

theorem cachePut_tokensDistinct {cache : Cache} (hd : cache.TokensDistinct) (token : UInt64)
    (reply : Reply) (name : Bytes) (copyOk : Bool) :
    (cachePut cache token reply name copyOk).1.TokensDistinct := by
  intro i j e e' hi hj heq
  rcases cachePut_cases hd token reply name copyOk with ⟨-, hold⟩ | ⟨-, k, hnew⟩
  · exact hd i j e e' (hold i e hi) (hold j e' hj) heq
  · rcases hnew i e hi with ⟨rfl, rfl⟩ | ⟨_, hi', hne⟩ <;>
      rcases hnew j e' hj with ⟨rfl, rfl⟩ | ⟨_, hj', hne'⟩
    · rfl
    · exact absurd heq.symm hne'
    · exact absurd heq hne
    · exact hd i j e e' hi' hj' heq

/-- A replay is the reply of an entry with the token and the name asked for. -/
theorem cacheReplay_some {cache : Cache} {token : UInt64} {name : Bytes} {cloneOk : Bool}
    {reply : Reply} (h : cacheReplay cache token name cloneOk = some reply) :
    ∃ i : ℕ, cache.slots[i]? = some (some ⟨token, name, reply⟩) := by
  unfold cacheReplay at h
  split at h
  · cases h
  · rename_i i e hfind
    split at h
    · rename_i hname
      obtain ⟨he, htok⟩ := cacheFind_some hfind
      cases h
      obtain ⟨token', name', reply'⟩ := e
      obtain ⟨rfl, -⟩ := hname
      cases htok
      exact ⟨i, he⟩
    · cases h

end FractalSQL.Service
