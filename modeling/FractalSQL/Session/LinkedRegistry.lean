import FractalSQL.Session.LinkStores

/-!
# The linked registry holds together

The nodes, the buckets, the list and the counter describe one list of entries: each
node is in the bucket of its id and once in the list, no id comes twice, and the counter
is their number. Every store sequence of the registry keeps that, and does to the list
of entries what the registry of lists does.
-/
namespace FractalSQL.Session
open Lib

abbrev Cells := List (Addr × Entry)

/-- The entries without their addresses. -/
def registry (cells : Cells) : Registry := cells.map Prod.snd

/-- The memory holds these entries, from the head to the tail of the list. -/
structure Memory.Linked (m : Memory) (cells : Cells) : Prop where
  listed : m.Listed (cells.map Prod.fst)
  hashed : m.Hashed cells
  entry : ∀ c ∈ cells, m.entryAt c.1 = some c.2
  owned : ∀ a n, m.nodes a = some n → a ∈ cells.map Prod.fst
  ids : (cells.map fun c => c.2.sessionId).Nodup
  count : m.entryCount.toNat = cells.length
  room : cells.length ≤ maxEntries

namespace Memory

variable {m : Memory} {cells front back : Cells} {a : Addr} {e : Entry} {id : UInt64} {fuel : ℕ}

theorem linked_empty : Linked {} [] where
  listed := ⟨rfl, rfl⟩
  hashed _ := ⟨[], rfl, by simp⟩
  entry := by simp
  owned _ _ h := by cases h
  ids := List.nodup_nil
  count := rfl
  room := Nat.zero_le _

theorem Linked.addrs_nodup (h : m.Linked cells) : (cells.map Prod.fst).Nodup := h.listed.forward.nodup

theorem Linked.node (h : m.Linked (front ++ (a, e) :: back)) : ∃ n, m.nodes a = some n ∧ n.entry = e :=
  nodes_of_entryAt (h.entry (a, e) (by simp))

theorem Linked.addr_notMem (h : m.Linked (front ++ (a, e) :: back)) :
    a ∉ front.map Prod.fst ++ back.map Prod.fst := by
  have hnodup := h.addrs_nodup
  rw [List.map_append, List.map_cons] at hnodup
  exact (List.nodup_middle.mp hnodup).notMem

theorem Linked.id_ne (h : m.Linked (front ++ (a, e) :: back)) {c : Addr × Entry} (hc : c ∈ front ++ back) :
    c.2.sessionId ≠ e.sessionId := by
  have hnodup := h.ids
  rw [List.map_append, List.map_cons] at hnodup
  intro heq
  have hmem := List.mem_map_of_mem (f := fun c : Addr × Entry => c.2.sessionId) hc
  rw [List.map_append] at hmem
  exact (List.nodup_middle.mp hnodup).notMem (heq ▸ hmem)

/-! ### The search -/

theorem findEntryLoop_eq {p : Option Addr} {as : List Addr} (id : UInt64)
    (h : Path (m.view Node.bucketNext) p as none) (hfuel : as.length < fuel) :
    m.findEntryLoop id fuel p = some (as.find? fun a => (m.entryAt a).any fun e => e.sessionId = id) := by
  induction as generalizing p fuel with
  | nil =>
    obtain ⟨fuel, rfl⟩ := Nat.exists_eq_succ_of_ne_zero (Nat.ne_of_gt hfuel)
    obtain rfl : p = none := h
    rfl
  | cons a as ih =>
    obtain ⟨fuel, rfl⟩ := Nat.exists_eq_succ_of_ne_zero (Nat.ne_of_gt (Nat.zero_lt_of_lt hfuel))
    obtain ⟨rfl, s, hs, htail⟩ := h
    obtain ⟨n, hn, hnext⟩ := view_eq_some.mp hs
    have hentry : m.entryAt a = some n.entry := view_eq_some.mpr ⟨n, hn, rfl⟩
    have hrest := ih htail (Nat.lt_of_succ_lt_succ hfuel)
    rw [List.find?_cons, hentry]
    simp only [findEntryLoop, hn, Option.bind_eq_bind, Option.bind_some, hnext, hrest, Option.any_some]
    by_cases hid : n.entry.sessionId = id <;> simp [hid]

/-- `find_entry` finds the node of the id, exactly when there is one. -/
theorem findEntry_spec (h : m.Linked cells) (hfuel : maxEntries < fuel) (id : UInt64) :
    (∃ front a e back, cells = front ++ (a, e) :: back ∧ e.sessionId = id ∧ m.findEntry fuel id = some (some a)) ∨
      ((∀ c ∈ cells, c.2.sessionId ≠ id) ∧ m.findEntry fuel id = some none) := by
  obtain ⟨as, has, hmem⟩ := h.hashed (bucketOf id)
  have hlen := bucket_length_le has fun d hd => ((hmem d).mp hd).imp fun _ h => h.1
  have heq : m.findEntry fuel id = _ := findEntryLoop_eq id has (hlen.trans_lt (h.room.trans_lt hfuel))
  cases hfind : as.find? fun a => (m.entryAt a).any fun e => e.sessionId = id with
  | some a =>
    obtain ⟨e, he, -⟩ := (hmem a).mp (List.mem_of_find?_eq_some hfind)
    have hid := List.find?_some hfind
    rw [h.entry (a, e) he] at hid
    obtain ⟨front, back, rfl⟩ := List.append_of_mem he
    exact .inl ⟨front, a, e, back, rfl, by simpa using hid, heq.trans (congrArg some hfind)⟩
  | none =>
    refine .inr ⟨fun c hc hid => ?_, heq.trans (congrArg some hfind)⟩
    have hin : c.1 ∈ as := (hmem c.1).mpr ⟨c.2, hc, by rw [hid]⟩
    have hno := List.find?_eq_none.mp hfind c.1 hin
    rw [h.entry c hc] at hno
    exact hno (by simpa using hid)

/-! ### Stores that keep the shape -/

theorem hashed_swap {e' : Entry} (h : m.Hashed (front ++ (a, e) :: back)) (hid : e'.sessionId = e.sessionId) :
    m.Hashed (front ++ (a, e') :: back) := by
  intro b
  obtain ⟨as, has, hmem⟩ := h b
  refine ⟨as, has, fun d => (hmem d).trans ?_⟩
  simp only [List.mem_append, List.mem_cons, Prod.mk.injEq]
  constructor
  · rintro ⟨x, hx | ⟨rfl, rfl⟩ | hx, hb⟩
    · exact ⟨x, .inl hx, hb⟩
    · exact ⟨e', .inr (.inl ⟨rfl, rfl⟩), hid ▸ hb⟩
    · exact ⟨x, .inr (.inr hx), hb⟩
  · rintro ⟨x, hx | ⟨rfl, rfl⟩ | hx, hb⟩
    · exact ⟨x, .inl hx, hb⟩
    · exact ⟨e, .inr (.inl ⟨rfl, rfl⟩), hid ▸ hb⟩
    · exact ⟨x, .inr (.inr hx), hb⟩

/-- A store to one entry that keeps its id. -/
theorem storeEntry_spec {f : Entry → Entry} (h : m.Linked (front ++ (a, e) :: back))
    (hid : (f e).sessionId = e.sessionId) :
    ∃ m', m.storeEntry a f = some m' ∧ m'.Linked (front ++ (a, f e) :: back) := by
  obtain ⟨n, hn, rfl⟩ := h.node
  have hview {β : Type} (g : Node → β) (hg : g { n with entry := f n.entry } = g n) (d : Addr) :=
    congrFun (view_update_same hn hg) d
  refine ⟨_, store_eq hn, ⟨?_, ?_⟩, fun b => ?_, fun c hc => ?_, fun d n' hd => ?_, ?_, ?_, ?_⟩
  · have hfor := h.listed.forward
    simp only [List.map_append, List.map_cons] at hfor ⊢
    exact hfor.congr rfl fun d _ => hview Node.lruNext rfl d
  · have hback := h.listed.backward
    simp only [List.map_append, List.map_cons] at hback ⊢
    exact hback.congr rfl fun d _ => hview Node.lruPrev rfl d
  · obtain ⟨as, has, hmem⟩ := hashed_swap h.hashed hid b
    exact ⟨as, has.congr rfl fun d _ => hview Node.bucketNext rfl d, hmem⟩
  · have hview := congrFun (view_update (m := m) (a := a) Node.entry (some { n with entry := f n.entry })) c.1
    refine hview.trans ?_
    by_cases hc' : c ∈ front ++ back
    · have hne : c.1 ≠ a := fun hca => h.addr_notMem (by
        rw [← List.map_append, ← hca]
        exact List.mem_map_of_mem hc')
      rw [Function.update_of_ne hne]
      refine h.entry c ?_
      simp only [List.mem_append, List.mem_cons] at hc' ⊢
      exact hc'.imp_right .inr
    · obtain rfl : c = (a, f n.entry) := by
        simp only [List.mem_append, List.mem_cons] at hc hc'
        grind
      exact Function.update_self ..
  · by_cases hda : d = a
    · simp [hda]
    · have hold := h.owned d n' ((Function.update_of_ne hda _ _).symm.trans hd)
      simpa using hold
  · have hids := h.ids
    simp only [List.map_append, List.map_cons, hid] at hids ⊢
    exact hids
  · have hcount := h.count
    simp only [List.length_append, List.length_cons] at hcount ⊢
    exact hcount
  · have hroom := h.room
    simp only [List.length_append, List.length_cons] at hroom ⊢
    exact hroom

/-- An entry moves to the front of the list. -/
theorem moveFront_spec (h : m.Linked (front ++ (a, e) :: back)) :
    ∃ m₁ m', m.lruUnlink a = some m₁ ∧ m₁.lruPushFront a = some m' ∧ m'.Linked ((a, e) :: (front ++ back)) := by
  obtain ⟨m₁, h₁, hlist₁, hsame₁⟩ := lruUnlink_spec (by simpa using h.listed)
  obtain ⟨n, hn, -⟩ := h.node
  obtain ⟨n₁, hn₁⟩ := hsame₁.nodes hn
  obtain ⟨m₂, h₂, hlist₂, hsame₂⟩ := lruPushFront_spec hlist₁ h.addr_notMem hn₁
  have hsame := hsame₁.trans hsame₂
  have hperm : ((a, e) :: (front ++ back)).Perm (front ++ (a, e) :: back) := List.perm_middle.symm
  refine ⟨m₁, m₂, h₁, h₂, by simpa using hlist₂, fun b => ?_, fun c hc => ?_, fun d n' hd => ?_, ?_, ?_, ?_⟩
  · obtain ⟨as, has, hmem⟩ := h.hashed b
    refine ⟨as, by rwa [hsame.bucket], fun d => (hmem d).trans (exists_congr fun x => and_congr_left fun _ => ?_)⟩
    exact hperm.mem_iff.symm
  · rw [hsame.entryAt]
    exact h.entry c (hperm.mem_iff.mp hc)
  · have he : m.entryAt d = some n'.entry := by
      rw [← hsame.entryAt]
      exact view_eq_some.mpr ⟨n', hd, rfl⟩
    obtain ⟨n'', hn'', -⟩ := nodes_of_entryAt he
    exact (hperm.map Prod.fst).mem_iff.mpr (h.owned d n'' hn'')
  · exact (hperm.map _).nodup_iff.mpr h.ids
  · rw [hsame.count, h.count, hperm.length_eq]
  · exact hperm.length_eq.trans_le h.room

/-- An entry is taken out of both and freed. -/
theorem remove_spec (h : m.Linked (front ++ (a, e) :: back)) (hfuel : maxEntries < fuel) :
    ∃ m', m.remove fuel a = some m' ∧ m'.Linked (front ++ back) := by
  obtain ⟨m₁, h₁, hhash₁, hsame₁⟩ := bucketUnlink_spec h.hashed h.addrs_nodup h.entry (h.room.trans_lt hfuel)
  obtain ⟨m₂, h₂, hlist₂, hsame₂⟩ := lruUnlink_spec (by simpa using hsame₁.listed h.listed)
  have hentry : m₂.entryAt = m.entryAt := hsame₂.entryAt.trans hsame₁.entryAt
  obtain ⟨n₂, hn₂, -⟩ := nodes_of_entryAt (by rw [hentry]; exact h.entry (a, e) (by simp))
  have hview {β : Type} (g : Node → β) (d : Addr) (hd : d ≠ a) :
      view { m₂ with nodes := Function.update m₂.nodes a none, entryCount := m₂.entryCount - 1 } g d =
        m₂.view g d := congrArg (Option.map g) (Function.update_of_ne hd _ _)
  have hne {d : Addr} (hd : d ∈ front.map Prod.fst ++ back.map Prod.fst) : d ≠ a :=
    ne_of_mem_of_not_mem hd h.addr_notMem
  refine ⟨{ m₂ with nodes := Function.update m₂.nodes a none, entryCount := m₂.entryCount - 1 }, ?_,
    ⟨?_, ?_⟩, fun b => ?_, fun c hc => ?_, fun d n' hd => ?_, ?_, ?_, ?_⟩
  · simp only [remove, h₁, h₂, entryDestroy, hn₂, Option.bind_eq_bind, Option.bind_some, Option.map_some]
  · rw [List.map_append]
    exact hlist₂.forward.congr rfl fun d hd => hview _ d (hne hd)
  · rw [List.map_append]
    exact hlist₂.backward.congr rfl fun d hd => hview _ d (hne (List.mem_reverse.mp hd))
  · obtain ⟨as, has, hmem⟩ := hhash₁ b
    refine ⟨as, ?_, hmem⟩
    rw [← hsame₂.bucket] at has
    refine has.congr rfl fun d hd => hview _ d (hne ?_)
    obtain ⟨x, hx, -⟩ := (hmem d).mp hd
    rw [← List.map_append]
    exact List.mem_map_of_mem hx
  · have hc' : c.1 ∈ front.map Prod.fst ++ back.map Prod.fst := by
      rw [← List.map_append]
      exact List.mem_map_of_mem hc
    refine (hview Node.entry c.1 (hne hc')).trans ?_
    refine (congrFun hentry c.1).trans (h.entry c ?_)
    simp only [List.mem_append, List.mem_cons] at hc ⊢
    exact hc.imp_right .inr
  · by_cases hda : d = a
    · subst hda
      exact absurd ((Function.update_self ..).symm.trans hd) nofun
    · have hd₂ : m₂.nodes d = some n' := (Function.update_of_ne hda _ _).symm.trans hd
      have he : m.entryAt d = some n'.entry := by
        rw [← hentry]
        exact view_eq_some.mpr ⟨n', hd₂, rfl⟩
      obtain ⟨n'', hn'', -⟩ := nodes_of_entryAt he
      have hold := h.owned d n'' hn''
      simpa [hda] using hold
  · exact h.ids.sublist ((List.Sublist.append_left (List.sublist_cons_self _ _) front).map _)
  · have hcount := h.count
    have hroom := h.room
    simp only [List.length_append, List.length_cons] at hcount hroom ⊢
    rw [← hsame₁.count, ← hsame₂.count] at hcount
    have hone : (1 : UInt32) ≤ m₂.entryCount := by
      rw [UInt32.le_iff_toNat_le, hcount]
      exact Nat.le_add_left 1 _
    rw [UInt32.toNat_sub_of_le _ _ hone, hcount]
    rfl
  · have hroom := h.room
    simp only [List.length_append, List.length_cons] at hroom ⊢
    omega

/-- A new entry goes in front. -/
theorem insert_spec (h : m.Linked cells) (hfree : m.nodes a = none) (hid : ∀ c ∈ cells, c.2.sessionId ≠ e.sessionId)
    (hroom : cells.length < maxEntries) :
    ∃ m', m.insert a e = some m' ∧ m'.Linked ((a, e) :: cells) := by
  have ha : a ∉ cells.map Prod.fst := by
    intro ha
    obtain ⟨c, hc, rfl⟩ := List.mem_map.mp ha
    obtain ⟨n, hn, -⟩ := nodes_of_entryAt (h.entry c hc)
    exact absurd (hfree.symm.trans hn) nofun
  generalize hm₁ : ({ m with
      nodes := Function.update m.nodes a (some { entry := e, bucketNext := m.buckets (bucketOf e.sessionId) }),
      buckets := Function.update m.buckets (bucketOf e.sessionId) (some a) } : Memory) = m₁
  have hview {β : Type} (g : Node → β) (d : Addr) (hd : d ≠ a) : m₁.view g d = m.view g d := by
    rw [← hm₁]
    exact congrArg (Option.map g) (Function.update_of_ne hd _ _)
  have hnew : m₁.nodes a = some { entry := e, bucketNext := m.buckets (bucketOf e.sessionId) } := by
    rw [← hm₁]
    exact Function.update_self ..
  have hne {d : Addr} (hd : d ∈ cells.map Prod.fst) : d ≠ a := ne_of_mem_of_not_mem hd ha
  have hlist₁ : m₁.Listed (cells.map Prod.fst) :=
    ⟨h.listed.forward.congr (by rw [← hm₁]; rfl) fun d hd => hview _ d (hne hd),
      h.listed.backward.congr (by rw [← hm₁]; rfl) fun d hd => hview _ d (hne (List.mem_reverse.mp hd))⟩
  obtain ⟨m₂, h₂, hlist₂, hsame⟩ := lruPushFront_spec hlist₁ ha hnew
  refine ⟨{ m₂ with entryCount := m₂.entryCount + 1 }, ?_, ⟨hlist₂.forward, hlist₂.backward⟩, fun b => ?_,
    fun c hc => ?_, fun d n' hd => ?_, ?_, ?_, hroom⟩
  · simp only [insert, hm₁, h₂, Option.bind_eq_bind, Option.bind_some]
  · obtain ⟨as, has, hmem⟩ := h.hashed b
    have hold : Path (m₁.view Node.bucketNext) (m.buckets b) as none := by
      refine Path.congr has fun d hd => hview _ d (hne ?_)
      obtain ⟨x, hx, -⟩ := (hmem d).mp hd
      exact List.mem_map_of_mem hx
    by_cases hb : b = bucketOf e.sessionId
    · refine ⟨a :: as, ?_, fun d => ?_⟩
      · have hspell : (m₁.bucket b).Spells (a :: as) := by
          refine ⟨?_, m.buckets b, view_eq_some.mpr ⟨_, hnew, by rw [hb]⟩, hold⟩
          rw [← hm₁, hb]
          exact Function.update_self ..
        rw [← hsame.bucket] at hspell
        exact hspell
      · rw [List.mem_cons, hmem d]
        constructor
        · rintro (rfl | ⟨x, hx, hbx⟩)
          · exact ⟨e, List.mem_cons_self, hb.symm⟩
          · exact ⟨x, List.mem_cons_of_mem _ hx, hbx⟩
        · rintro ⟨x, hx, hbx⟩
          rcases List.mem_cons.mp hx with heq | hx
          · exact .inl (Prod.mk.inj heq).1
          · exact .inr ⟨x, hx, hbx⟩
    · refine ⟨as, ?_, fun d => (hmem d).trans (exists_congr fun x => and_congr_left fun hbx => ?_)⟩
      · have hspell : (m₁.bucket b).Spells as := by
          have hfirst : m₁.buckets b = m.buckets b := by
            rw [← hm₁]
            exact Function.update_of_ne hb ..
          rw [Chain.Spells, bucket, hfirst]
          exact hold
        rw [← hsame.bucket] at hspell
        exact hspell
      · have hdx : (d, x) ≠ (a, e) := fun heq => hb (by rw [← hbx, (Prod.mk.inj heq).2])
        simp [hdx]
  · refine (congrFun hsame.entryAt c.1).trans ?_
    rcases List.mem_cons.mp hc with rfl | hc
    · exact view_eq_some.mpr ⟨_, hnew, rfl⟩
    · exact (hview _ c.1 (hne (List.mem_map_of_mem hc))).trans (h.entry c hc)
  · by_cases hda : d = a
    · simp [hda]
    · have he : m₁.entryAt d = some n'.entry := by
        rw [← hsame.entryAt]
        exact view_eq_some.mpr ⟨n', hd, rfl⟩
      obtain ⟨n'', hn'', -⟩ := nodes_of_entryAt ((hview _ d hda).symm.trans he)
      exact List.mem_cons_of_mem _ (h.owned d n'' hn'')
  · rw [List.map_cons]
    refine List.nodup_cons.mpr ⟨fun hmem => ?_, h.ids⟩
    obtain ⟨c, hc, heq⟩ := List.mem_map.mp hmem
    exact hid c hc heq
  · have hcount : m₂.entryCount = m.entryCount := by
      rw [hsame.count, ← hm₁]
    have hsmall : m.entryCount.toNat + 1 < 2 ^ 32 := by
      rw [h.count]
      unfold maxEntries at hroom
      omega
    rw [hcount, UInt32.toNat_add, h.count] at *
    exact Nat.mod_eq_of_lt hsmall

end Memory
end FractalSQL.Session
