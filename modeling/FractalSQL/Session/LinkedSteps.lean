import FractalSQL.Session.LinkedRegistry

/-!
# The calls of the linked registry

Each function on the linked memory ends, without a fault, in a memory that holds
together again, and its entries are what the function on lists makes of them.
-/
namespace FractalSQL.Session
open Lib

/-- The session ids, from the head to the tail of the list. -/
def ids (cells : Cells) : List UInt64 := cells.map fun c => c.2.sessionId

theorem ids_sublist {cells cells' : Cells} (h : cells'.Sublist cells) : (ids cells').Sublist (ids cells) := h.map _

@[simp] theorem registry_append (front back : Cells) : registry (front ++ back) = registry front ++ registry back :=
  List.map_append

@[simp] theorem registry_cons (a : Addr) (e : Entry) (cells : Cells) :
    registry ((a, e) :: cells) = e :: registry cells := rfl

/-- The entry that is too old to keep. -/
def Entry.stale (now : ℤ) (e : Entry) : Bool := e.unheld ∧ idleTtlSeconds ≤ now - e.lastUsed

/-- The acquires on lists, up to the entry. -/
def acquireEntry (reg : Registry) (id : UInt64) (env : CallEnv) (refuse : Entry → Bool) :
    Registry × Option Entry :=
  let reg := sweepStale reg sweepScanLimit env.now
  if (findEntry reg id).any refuse then (reg, none) else findOrCreateEntry reg id env

theorem sessionAcquire_eq (reg : Registry) (id : UInt64) (env : CallEnv) :
    sessionAcquire reg id env = match acquireEntry reg id env Entry.busy with
      | (reg, none) => (reg, false)
      | (reg, some e) => withCtx reg e env fun e => { e with shared := e.shared + 1 } := by
  unfold sessionAcquire acquireEntry
  dsimp only
  split <;> rfl

theorem sessionAcquireExclusive_eq (reg : Registry) (id : UInt64) (env : CallEnv) :
    sessionAcquireExclusive reg id env =
      match acquireEntry reg id env fun e => e.busy ∨ 0 < e.shared with
      | (reg, none) => (reg, false)
      | (reg, some e) => withCtx reg e env fun e => { e with busy := true } := by
  unfold sessionAcquireExclusive acquireEntry
  dsimp only
  split <;> rfl

/-- What the environment decides, when the outcome of `calloc` is known. -/
def HeapEnv.callEnv (env : HeapEnv) (callocOk : Bool) : CallEnv := ⟨env.now, callocOk, env.ctxOk⟩

namespace Memory

variable {m : Memory} {cells front back : Cells} {a : Addr} {e : Entry} {id : UInt64} {fuel : ℕ}

section Lists

theorem Linked.findEntry_eq (h : m.Linked (front ++ (a, e) :: back)) :
    Session.findEntry (registry (front ++ (a, e) :: back)) e.sessionId = some e := by
  have hfront : (registry front).find? (fun x => decide (x.sessionId = e.sessionId)) = none := by
    refine List.find?_eq_none.mpr fun x hx => ?_
    obtain ⟨c, hc, rfl⟩ := List.mem_map.mp hx
    simpa using h.id_ne (List.mem_append_left back hc)
  rw [Session.findEntry, registry_append, List.find?_append, hfront, registry_cons, List.find?_cons]
  simp

theorem findEntry_eq_none (h : ∀ c ∈ cells, c.2.sessionId ≠ id) : Session.findEntry (registry cells) id = none := by
  refine List.find?_eq_none.mpr fun x hx => ?_
  obtain ⟨c, hc, rfl⟩ := List.mem_map.mp hx
  simpa using h c hc

theorem modifyEntry_of_ne {f : Entry → Entry} (h : ∀ c ∈ cells, c.2.sessionId ≠ id) :
    modifyEntry (registry cells) id f = registry cells := by
  refine (List.map_congr_left fun x hx => ?_).trans (List.map_id _)
  obtain ⟨c, hc, rfl⟩ := List.mem_map.mp hx
  exact if_neg (h c hc)

theorem Linked.modifyEntry_eq (h : m.Linked (front ++ (a, e) :: back)) (f : Entry → Entry) :
    modifyEntry (registry (front ++ (a, e) :: back)) e.sessionId f = registry (front ++ (a, f e) :: back) := by
  have hfront := modifyEntry_of_ne (f := f) fun c hc => h.id_ne (List.mem_append_left back hc)
  have hback := modifyEntry_of_ne (f := f) fun c hc => h.id_ne (List.mem_append_right front hc)
  simp only [modifyEntry, registry_append, registry_cons, List.map_append, List.map_cons, if_true] at hfront hback ⊢
  rw [hfront, hback]

theorem Linked.removeEntry_eq (h : m.Linked (front ++ (a, e) :: back)) :
    removeEntry (registry (front ++ (a, e) :: back)) e.sessionId = registry (front ++ back) := by
  have hfront : ∀ x ∈ registry front, ¬ decide (x.sessionId = e.sessionId) = true := by
    intro x hx
    obtain ⟨c, hc, rfl⟩ := List.mem_map.mp hx
    simpa using h.id_ne (List.mem_append_left back hc)
  rw [removeEntry, registry_append, List.eraseP_append_right _ hfront, registry_cons,
    List.eraseP_cons_of_pos (by simp), registry_append]

theorem evictOneLru_some {l r : Registry} (he : e.unheld = true) (hr : ∀ x ∈ r, ¬ x.unheld = true) :
    Session.evictOneLru (l ++ e :: r) = some (l ++ r) := by
  have hany : (l ++ e :: r).any Entry.unheld = true := by simp [he]
  rw [Session.evictOneLru, if_pos hany, List.reverse_append, List.reverse_cons, List.append_assoc,
    List.eraseP_append_right _ fun x hx => hr x (List.mem_reverse.mp hx), List.singleton_append,
    List.eraseP_cons_of_pos he]
  simp

theorem evictOneLru_none {reg : Registry} (h : ∀ x ∈ reg, ¬ x.unheld = true) : Session.evictOneLru reg = none := by
  refine if_neg fun hany => ?_
  obtain ⟨x, hx, hun⟩ := List.any_eq_true.mp hany
  exact h x hx hun

end Lists

section Loops

/-- The loop of `sweep_stale` goes through the last entries of `front`. -/
theorem sweepLoop_spec (hfuel : maxEntries < fuel) (now : ℤ) (limit : ℕ) {kept : Cells}
    (h : m.Linked (front ++ kept)) :
    ∃ m', sweepLoop fuel now limit m (front.map Prod.fst).getLast? = some m' ∧
      m'.Linked (front.take (front.length - limit) ++
        (front.drop (front.length - limit)).filter (fun c => ! c.2.stale now) ++ kept) := by
  induction limit generalizing front kept m with
  | zero =>
    refine ⟨m, by rw [sweepLoop], ?_⟩
    simpa using h
  | succ limit ih =>
    rcases List.eq_nil_or_concat front with rfl | ⟨front, ⟨a, e⟩, rfl⟩
    · exact ⟨m, rfl, by simpa using h⟩
    · rw [List.concat_eq_append] at h ⊢
      rw [List.append_assoc, List.singleton_append] at h
      have hlen : (front ++ [(a, e)]).length - (limit + 1) = front.length - limit := by
        rw [List.length_append, List.length_singleton]
        omega
      have hle : front.length - limit ≤ front.length := Nat.sub_le ..
      rw [hlen, List.take_append_of_le_length hle, List.drop_append_of_le_length hle, List.filter_append]
      obtain ⟨n, hn, hne⟩ := h.node
      have hprev : n.lruPrev = (front.map Prod.fst).getLast? := by
        have hlisted : m.Listed (front.map Prod.fst ++ a :: kept.map Prod.fst) := by simpa using h.listed
        obtain ⟨n', hn', hprev⟩ := view_eq_some.mp hlisted.prev_eq
        rwa [Option.some.inj (hn.symm.trans hn')]
      have hlast : ((front ++ [(a, e)]).map Prod.fst).getLast? = some a := by simp
      rw [hlast]
      by_cases hstale : e.stale now = true
      · obtain ⟨m₁, h₁, hlink₁⟩ := remove_spec h hfuel
        obtain ⟨m', h', hlink'⟩ := ih hlink₁
        refine ⟨m', ?_, by simpa [hstale] using hlink'⟩
        have hcond : e.unheld ∧ idleTtlSeconds ≤ now - e.lastUsed := of_decide_eq_true hstale
        simp only [sweepLoop, hn, Option.bind_eq_bind, Option.bind_some, hne, if_pos hcond, h₁, hprev]
        exact h'
      · obtain ⟨m', h', hlink'⟩ := ih h
        refine ⟨m', ?_, by simpa [hstale] using hlink'⟩
        have hcond : ¬ (e.unheld ∧ idleTtlSeconds ≤ now - e.lastUsed) := fun hc => hstale (decide_eq_true hc)
        simp only [sweepLoop, hn, Option.bind_eq_bind, Option.bind_some, hne, if_neg hcond, hprev]
        exact h'

/-- `sweep_stale` frees the stale ones of the last entries. -/
theorem sweepStale_spec (h : m.Linked cells) (hfuel : maxEntries < fuel) (limit : ℕ) (now : ℤ) :
    ∃ m' cells', m.sweepStale fuel limit now = some m' ∧ m'.Linked cells' ∧ cells'.Sublist cells ∧
      registry cells' = Session.sweepStale (registry cells) limit now := by
  have htail := h.listed.tail_eq
  have hall : m.Linked (cells ++ []) := by simpa using h
  obtain ⟨m', h', hlink⟩ := sweepLoop_spec hfuel now limit hall
  rw [List.append_nil] at hlink
  refine ⟨m', _, ?_, hlink, ?_, ?_⟩
  · rw [sweepStale, htail]
    exact h'
  · have hsub := (List.Sublist.refl (cells.take (cells.length - limit))).append
      (List.filter_sublist (p := fun c => ! c.2.stale now) (l := cells.drop (cells.length - limit)))
    rwa [List.take_append_drop] at hsub
  · rw [registry_append, Session.sweepStale, registry, registry, registry, List.length_map, List.map_take,
      ← List.map_drop, List.filter_map]
    congr 3
    funext c
    rw [Bool.eq_iff_iff]
    simp [Entry.stale]

/-- The outcomes of `evict_one_lru`: the last entry that nobody holds is gone, or all are held. -/
inductive Evicts (m : Memory) (fuel : ℕ) (bucketFuel : ℕ) (p : Option Addr) (front kept : Cells) : Prop
  | evicted (m' : Memory) (older : Cells) (a : Addr) (e : Entry) (held : Cells)
      (hfront : front = older ++ (a, e) :: held) (hun : e.unheld = true) (hheld : ∀ c ∈ held, ¬ c.2.unheld = true)
      (hloop : m.evictLoop bucketFuel fuel p = some (m', true)) (hlink : m'.Linked (older ++ held ++ kept))
  | full (hheld : ∀ c ∈ front, ¬ c.2.unheld = true) (hloop : m.evictLoop bucketFuel fuel p = some (m, false))

theorem evictLoop_spec {bucketFuel : ℕ} (hbucket : maxEntries < bucketFuel) {kept : Cells}
    (h : m.Linked (front ++ kept)) (hfuel : front.length < fuel) :
    m.Evicts fuel bucketFuel (front.map Prod.fst).getLast? front kept := by
  induction hn : front.length generalizing front kept fuel with
  | zero =>
    obtain ⟨fuel, rfl⟩ := Nat.exists_eq_succ_of_ne_zero (Nat.ne_of_gt (Nat.zero_lt_of_lt hfuel))
    obtain rfl := List.length_eq_zero_iff.mp hn
    exact .full (by simp) rfl
  | succ len ih =>
    obtain ⟨fuel, rfl⟩ := Nat.exists_eq_succ_of_ne_zero (Nat.ne_of_gt (Nat.zero_lt_of_lt hfuel))
    rcases List.eq_nil_or_concat front with rfl | ⟨front, ⟨a, e⟩, rfl⟩
    · exact absurd hn nofun
    rw [List.concat_eq_append] at *
    rw [List.append_assoc, List.singleton_append] at h
    rw [List.length_append, List.length_singleton] at hn hfuel
    obtain ⟨n, hnode, hne⟩ := h.node
    have hprev : n.lruPrev = (front.map Prod.fst).getLast? := by
      have hlisted : m.Listed (front.map Prod.fst ++ a :: kept.map Prod.fst) := by simpa using h.listed
      obtain ⟨n', hn', hprev⟩ := view_eq_some.mp hlisted.prev_eq
      rwa [Option.some.inj (hnode.symm.trans hn')]
    have hlast : ((front ++ [(a, e)]).map Prod.fst).getLast? = some a := by simp
    rw [hlast]
    by_cases hun : e.unheld = true
    · obtain ⟨m₁, h₁, hlink₁⟩ := remove_spec h hbucket
      refine .evicted m₁ front a e [] rfl hun (by simp) ?_ (by simpa using hlink₁)
      simp only [evictLoop, hnode, Option.bind_eq_bind, Option.bind_some, hne, if_pos hun, h₁]
    · have hstep : m.evictLoop bucketFuel (fuel + 1) (some a) =
          m.evictLoop bucketFuel fuel (front.map Prod.fst).getLast? := by
        simp only [evictLoop, hnode, Option.bind_eq_bind, Option.bind_some, hne, if_neg hun, hprev]
      have hrest : front.length < fuel := by omega
      cases ih h hrest (by omega) with
      | evicted m' older a' e' held hfront hun' hheld hloop hlink =>
        refine .evicted m' older a' e' (held ++ [(a, e)]) (by simp [hfront]) hun' (fun c hc => ?_)
          (hstep.trans hloop) (by simpa using hlink)
        rcases List.mem_append.mp hc with hc | hc
        · exact hheld c hc
        · rwa [List.mem_singleton.mp hc]
      | full hheld hloop =>
        refine .full (fun c hc => ?_) (hstep.trans hloop)
        rcases List.mem_append.mp hc with hc | hc
        · exact hheld c hc
        · rwa [List.mem_singleton.mp hc]

/-- `evict_one_lru` frees the last entry that nobody holds. -/
theorem evictOneLru_spec (h : m.Linked cells) (hfuel : maxEntries < fuel) :
    m.Evicts fuel fuel m.lruTail cells [] := by
  have htail := h.listed.tail_eq
  rw [htail]
  exact evictLoop_spec hfuel (by simpa using h) (h.room.trans_lt hfuel)

end Loops

section Entries

/-- The entry that is made for an id. -/
def newEntry (id : UInt64) (now : ℤ) : Entry := { sessionId := id, refcount := 1, lastUsed := now }

section Missing
variable {reg reg' : Registry} (hnone : Session.findEntry reg id = none) (env : CallEnv)
include hnone

theorem findOrCreateEntry_evicted (hfull : maxEntries ≤ reg.length) (hevict : Session.evictOneLru reg = some reg') :
    Session.findOrCreateEntry reg id env =
      if env.callocOk = true then (newEntry id env.now :: reg', some (newEntry id env.now)) else (reg', none) := by
  simp only [Session.findOrCreateEntry, hnone, if_pos hfull, hevict, newEntry]

theorem findOrCreateEntry_pinned (hfull : maxEntries ≤ reg.length) (hevict : Session.evictOneLru reg = none) :
    Session.findOrCreateEntry reg id env = (reg, none) := by
  simp only [Session.findOrCreateEntry, hnone, if_pos hfull, hevict]

theorem findOrCreateEntry_room (hroom : ¬ maxEntries ≤ reg.length) :
    Session.findOrCreateEntry reg id env =
      if env.callocOk = true then (newEntry id env.now :: reg, some (newEntry id env.now)) else (reg, none) := by
  simp only [Session.findOrCreateEntry, hnone, if_neg hroom, newEntry]

end Missing

/-- What a function that looks for the entry of `id` leaves behind: no entry, or the entry
in front of the others. -/
inductive Gives (m : Memory) (id : UInt64) (cells : Cells) : Option Addr → Registry × Option Entry → Prop
  | nothing (cells' : Cells) (hlink : m.Linked cells') (hsub : (ids cells').Sublist (ids cells)) :
    Gives m id cells none (registry cells', none)
  | entry (a : Addr) (e : Entry) (rest : Cells) (hlink : m.Linked ((a, e) :: rest))
      (hsub : (ids rest).Sublist (ids cells)) (hid : e.sessionId = id) :
    Gives m id cells (some a) (e :: registry rest, some e)

theorem Gives.of_sublist {cells' : Cells} {r : Option Addr} {out : Registry × Option Entry}
    (h : m.Gives id cells' r out) (hsub : (ids cells').Sublist (ids cells)) : m.Gives id cells r out := by
  cases h with
  | nothing cells' hlink hsub' => exact .nothing cells' hlink (hsub'.trans hsub)
  | entry a e rest hlink hsub' hid => exact .entry a e rest hlink (hsub'.trans hsub) hid

/-- A new entry, or none when `calloc` fails. -/
theorem createEntry_spec (h : m.Linked cells) (hid : ∀ c ∈ cells, c.2.sessionId ≠ id)
    (hroom : cells.length < maxEntries) (env : HeapEnv) :
    ∃ m' r ok, m.createEntry id env = some (m', r) ∧ m'.Gives id cells r
      (if ok = true then (newEntry id env.now :: registry cells, some (newEntry id env.now))
        else (registry cells, none)) := by
  cases hcalloc : env.calloc m.nodes with
  | none => exact ⟨m, none, false, by rw [createEntry, hcalloc], .nothing cells h (.refl _)⟩
  | some a =>
    obtain ⟨m', hm', hlink⟩ := insert_spec (e := newEntry id env.now) h
      (env.calloc_free _ _ hcalloc) hid hroom
    refine ⟨m', some a, true, ?_, .entry a _ cells hlink (.refl _) rfl⟩
    rw [createEntry, hcalloc]
    simp only [newEntry] at hm'
    simp only [hm', Option.bind_eq_bind, Option.bind_some]

theorem full_iff (h : m.Linked cells) : UInt32.ofNat maxEntries ≤ m.entryCount ↔ maxEntries ≤ (registry cells).length := by
  rw [UInt32.le_iff_toNat_le, h.count, registry, List.length_map]
  rfl

/-- `find_or_create_entry_locked` does what it does on lists. -/
theorem findOrCreateEntry_spec (h : m.Linked cells) (hfuel : maxEntries < fuel) (id : UInt64) (env : HeapEnv) :
    ∃ m' r ok, m.findOrCreateEntry fuel id env = some (m', r) ∧
      m'.Gives id cells r (Session.findOrCreateEntry (registry cells) id (env.callEnv ok)) := by
  rcases findEntry_spec h hfuel id with ⟨front, a, e, back, rfl, rfl, hfind⟩ | ⟨hnone, hfind⟩
  · obtain ⟨m₁, h₁, hlink₁⟩ := storeEntry_spec
      (f := fun e => { e with refcount := e.refcount + 1, lastUsed := env.now }) h rfl
    obtain ⟨m₂, m₃, h₂, h₃, hlink₃⟩ := moveFront_spec hlink₁
    refine ⟨m₃, some a, true, ?_, ?_⟩
    · simp only [findOrCreateEntry, hfind, Option.bind_eq_bind, Option.bind_some, h₁, h₂, h₃]
    · have hlist := h.removeEntry_eq
      simp only [Session.findOrCreateEntry, h.findEntry_eq, hlist]
      refine .entry a _ (front ++ back) hlink₃ ?_ rfl
      exact ids_sublist (List.Sublist.append_left (List.sublist_cons_self _ _) front)
  · have hlist := findEntry_eq_none hnone
    by_cases hfull : UInt32.ofNat maxEntries ≤ m.entryCount
    · cases evictOneLru_spec h hfuel with
      | evicted m₁ older a e held hcells hun hheld hloop hlink =>
        subst hcells
        rw [List.append_nil] at hlink
        have hsub : (older ++ held).Sublist (older ++ (a, e) :: held) :=
          List.Sublist.append_left (List.sublist_cons_self _ _) older
        have hroom := h.room
        rw [List.length_append, List.length_cons] at hroom
        obtain ⟨m', r, ok, hm', hgives⟩ := createEntry_spec hlink (fun c hc => hnone c (hsub.subset hc))
          (by rw [List.length_append]; omega) env
        have hevict : Session.evictOneLru (registry (older ++ (a, e) :: held)) = some (registry (older ++ held)) := by
          rw [registry_append, registry_cons, registry_append]
          refine evictOneLru_some hun fun x hx => ?_
          obtain ⟨c, hc, rfl⟩ := List.mem_map.mp hx
          exact hheld c hc
        refine ⟨m', r, ok, ?_, ?_⟩
        · simp only [findOrCreateEntry, hfind, Option.bind_eq_bind, Option.bind_some, if_pos hfull, evictOneLru,
            hloop, hm']
        · rw [findOrCreateEntry_evicted hlist _ ((full_iff h).mp hfull) hevict]
          exact hgives.of_sublist (ids_sublist hsub)
      | full hheld hloop =>
        have hevict : Session.evictOneLru (registry cells) = none := evictOneLru_none fun x hx => by
          obtain ⟨c, hc, rfl⟩ := List.mem_map.mp hx
          exact hheld c hc
        refine ⟨m, none, true, ?_, ?_⟩
        · simp only [findOrCreateEntry, hfind, Option.bind_eq_bind, Option.bind_some, if_pos hfull, evictOneLru, hloop]
        · rw [findOrCreateEntry_pinned hlist _ ((full_iff h).mp hfull) hevict]
          exact .nothing cells h (.refl _)
    · have hroom : ¬ maxEntries ≤ (registry cells).length := fun hle => hfull ((full_iff h).mpr hle)
      obtain ⟨m', r, ok, hm', hgives⟩ := createEntry_spec h hnone (by simpa [registry] using hroom) env
      refine ⟨m', r, ok, ?_, ?_⟩
      · simp only [findOrCreateEntry, hfind, Option.bind_eq_bind, Option.bind_some, if_neg hfull, hm']
      · rw [findOrCreateEntry_room hlist _ hroom]
        exact hgives

/-- The part of the acquires up to the entry does what it does on lists. -/
theorem acquireEntry_spec (h : m.Linked cells) (hfuel : maxEntries < fuel) (id : UInt64) (env : HeapEnv)
    (refuse : Entry → Bool) :
    ∃ m' r ok, m.acquireEntry fuel id env refuse = some (m', r) ∧
      m'.Gives id cells r (Session.acquireEntry (registry cells) id (env.callEnv ok) refuse) := by
  obtain ⟨m₁, cells₁, h₁, hlink₁, hsub₁, hreg₁⟩ := sweepStale_spec h hfuel sweepScanLimit env.now
  obtain ⟨m', r, ok, hm', hgives⟩ := findOrCreateEntry_spec hlink₁ hfuel id env
  have hgives' := hgives.of_sublist (ids_sublist hsub₁)
  have hlist (ok : Bool) : Session.acquireEntry (registry cells) id (env.callEnv ok) refuse =
      if (Session.findEntry (registry cells₁) id).any refuse then (registry cells₁, none)
      else Session.findOrCreateEntry (registry cells₁) id (env.callEnv ok) := by
    rw [hreg₁]
    rfl
  rcases findEntry_spec hlink₁ hfuel id with ⟨front, a, e, back, rfl, rfl, hfind⟩ | ⟨hnone, hfind⟩
  · obtain ⟨n, hn, rfl⟩ := hlink₁.node
    by_cases hrefuse : refuse n.entry = true
    · refine ⟨m₁, none, true, ?_, ?_⟩
      · simp only [acquireEntry, h₁, hfind, Option.bind_eq_bind, Option.bind_some, hn, if_pos hrefuse]
      · rw [hlist, hlink₁.findEntry_eq, Option.any_some, if_pos hrefuse]
        exact .nothing _ hlink₁ (ids_sublist hsub₁)
    · refine ⟨m', r, ok, ?_, ?_⟩
      · simp only [acquireEntry, h₁, hfind, Option.bind_eq_bind, Option.bind_some, hn, if_neg hrefuse, hm']
      · rw [hlist, hlink₁.findEntry_eq, Option.any_some, if_neg hrefuse]
        exact hgives'
  · refine ⟨m', r, ok, ?_, ?_⟩
    · simp only [acquireEntry, h₁, hfind, Option.bind_eq_bind, Option.bind_some, hm']
    · rw [hlist, findEntry_eq_none hnone, Option.any_none, if_neg nofun]
      exact hgives'

end Entries

end Memory
end FractalSQL.Session
