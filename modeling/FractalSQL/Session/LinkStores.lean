import FractalSQL.Session.Links

/-!
# The stores of the session registry

The memory seen as chains: the list read forward and backward, and one chain for each
bucket. Unlinking an entry and putting one in front are stores that leave every other
chain as it was.
-/
namespace FractalSQL.Session
open Lib

namespace Memory

/-- One field of every node. -/
def view {β : Type} (m : Memory) (g : Node → β) : Addr → Option β := fun a => (m.nodes a).map g

def forward (m : Memory) : Chain Addr := ⟨m.lruHead, m.view Node.lruNext⟩
def backward (m : Memory) : Chain Addr := ⟨m.lruTail, m.view Node.lruPrev⟩
def bucket (m : Memory) (b : Fin bucketCount) : Chain Addr := ⟨m.buckets b, m.view Node.bucketNext⟩
def entryAt (m : Memory) : Addr → Option Entry := m.view Node.entry

variable {m m' : Memory} {a : Addr} {n : Node} {f : Node → Node}

theorem view_eq_some {β : Type} {g : Node → β} {v : β} : m.view g a = some v ↔ ∃ n, m.nodes a = some n ∧ g n = v := by
  simp [view]

theorem nodes_of_entryAt {e : Entry} (h : m.entryAt a = some e) : ∃ n, m.nodes a = some n ∧ n.entry = e :=
  view_eq_some.mp h

theorem store_eq (h : m.nodes a = some n) :
    m.store a f = some { m with nodes := Function.update m.nodes a (some (f n)) } := by
  simp [store, h]

theorem view_update {β : Type} (g : Node → β) (n : Option Node) :
    view { m with nodes := Function.update m.nodes a n } g = Function.update (m.view g) a (n.map g) := by
  funext d
  by_cases hd : d = a
  · rw [hd]
    simp [view]
  · simp [view, Function.update_of_ne hd]

/-- A store leaves the fields alone that it does not change. -/
theorem view_update_same {β : Type} {g : Node → β} {n' : Node} (h : m.nodes a = some n) (hg : g n' = g n) :
    view { m with nodes := Function.update m.nodes a (some n') } g = m.view g := by
  rw [view_update, Option.map_some, hg]
  exact Function.update_eq_self_iff.mpr (by simp [view, h])

/-- Nothing outside the list changed. -/
structure SameTable (m m' : Memory) : Prop where
  bucket (b : Fin bucketCount) : m'.bucket b = m.bucket b
  entryAt : m'.entryAt = m.entryAt
  count : m'.entryCount = m.entryCount

theorem SameTable.trans {m'' : Memory} (h : m.SameTable m') (h' : m'.SameTable m'') : m.SameTable m'' where
  bucket b := (h'.bucket b).trans (h.bucket b)
  entryAt := h'.entryAt.trans h.entryAt
  count := h'.count.trans h.count

theorem SameTable.nodes (h : m.SameTable m') (hn : m.nodes a = some n) : ∃ n', m'.nodes a = some n' := by
  have he : m'.entryAt a = some n.entry := by
    rw [h.entryAt]
    exact view_eq_some.mpr ⟨n, hn, rfl⟩
  exact (nodes_of_entryAt he).imp fun _ h => h.1

theorem setNext_spec (before q : Option Addr) (h : ∀ p ∈ before, ∃ n, m.nodes p = some n) :
    ∃ m', m.setNext before q = some m' ∧ m'.forward = m.forward.point before q ∧
      m'.backward = m.backward ∧ m.SameTable m' := by
  cases before with
  | none => exact ⟨_, rfl, rfl, rfl, fun _ => rfl, rfl, rfl⟩
  | some p =>
    obtain ⟨n, hn⟩ := h p rfl
    refine ⟨_, store_eq hn, ?_, ?_, fun b => ?_, ?_, rfl⟩
    · exact congrArg (Chain.mk m.lruHead) (view_update Node.lruNext _)
    · exact congrArg (Chain.mk m.lruTail) (view_update_same hn rfl)
    · exact congrArg (Chain.mk (m.buckets b)) (view_update_same hn rfl)
    · exact view_update_same hn rfl

theorem setPrev_spec (behind q : Option Addr) (h : ∀ p ∈ behind, ∃ n, m.nodes p = some n) :
    ∃ m', m.setPrev behind q = some m' ∧ m'.forward = m.forward ∧
      m'.backward = m.backward.point behind q ∧ m.SameTable m' := by
  cases behind with
  | none => exact ⟨_, rfl, rfl, rfl, fun _ => rfl, rfl, rfl⟩
  | some p =>
    obtain ⟨n, hn⟩ := h p rfl
    refine ⟨_, store_eq hn, ?_, ?_, fun b => ?_, ?_, rfl⟩
    · exact congrArg (Chain.mk m.lruHead) (view_update_same hn rfl)
    · exact congrArg (Chain.mk m.lruTail) (view_update Node.lruPrev _)
    · exact congrArg (Chain.mk (m.buckets b)) (view_update_same hn rfl)
    · exact view_update_same hn rfl

/-- The links of one node are stored. -/
theorem storeLinks_spec (p q : Option Addr) (hn : m.nodes a = some n) :
    ∃ m', m.store a (fun n => { n with lruPrev := p, lruNext := q }) = some m' ∧
      m'.forward = { m.forward with link := Function.update m.forward.link a (some q) } ∧
      m'.backward = { m.backward with link := Function.update m.backward.link a (some p) } ∧ m.SameTable m' := by
  refine ⟨_, store_eq hn, ?_, ?_, fun b => ?_, ?_, rfl⟩
  · exact congrArg (Chain.mk m.lruHead) (view_update Node.lruNext _)
  · exact congrArg (Chain.mk m.lruTail) (view_update Node.lruPrev _)
  · exact congrArg (Chain.mk (m.buckets b)) (view_update_same hn rfl)
  · exact view_update_same hn rfl

/-- The doubly linked list visits these nodes. -/
structure Listed (m : Memory) (as : List Addr) : Prop where
  forward : m.forward.Spells as
  backward : m.backward.Spells as.reverse

variable {as l r : List Addr}

theorem Listed.next_eq (h : m.Listed (l ++ a :: r)) : m.view Node.lruNext a = some r.head? := h.forward.link_eq

theorem Listed.prev_eq (h : m.Listed (l ++ a :: r)) : m.view Node.lruPrev a = some l.getLast? := by
  have hback : m.backward.Spells (r.reverse ++ a :: l.reverse) := by simpa using h.backward
  rw [← List.head?_reverse]
  exact hback.link_eq

theorem Listed.head_eq (h : m.Listed as) : m.lruHead = as.head? := h.forward.first

theorem Listed.tail_eq (h : m.Listed as) : m.lruTail = as.getLast? := by
  rw [← List.head?_reverse]
  exact h.backward.first

/-- The forward link and the backward link of two neighbours agree. -/
theorem Listed.prev_of_next {b : Addr} (h : m.Listed as) (ha : a ∈ as)
    (hnext : m.view Node.lruNext a = some (some b)) : m.view Node.lruPrev b = some (some a) := by
  obtain ⟨l, r, rfl⟩ := List.append_of_mem ha
  have hr : r.head? = some b := Option.some.inj (h.next_eq.symm.trans hnext)
  obtain ⟨r, rfl⟩ := List.head?_eq_some_iff.mp hr
  rw [List.append_cons] at h
  rw [h.prev_eq, List.getLast?_append]
  rfl

theorem Listed.next_of_prev {b : Addr} (h : m.Listed as) (ha : a ∈ as)
    (hprev : m.view Node.lruPrev a = some (some b)) : m.view Node.lruNext b = some (some a) := by
  obtain ⟨l, r, rfl⟩ := List.append_of_mem ha
  have hl : l.getLast? = some b := Option.some.inj (h.prev_eq.symm.trans hprev)
  obtain ⟨l, rfl⟩ := List.getLast?_eq_some_iff.mp hl
  rw [← List.append_cons] at h
  rw [h.next_eq, List.head?_cons]

theorem Listed.next_none_iff (h : m.Listed as) (ha : a ∈ as) :
    m.view Node.lruNext a = some none ↔ m.lruTail = some a := by
  obtain ⟨l, r, rfl⟩ := List.append_of_mem ha
  rw [h.next_eq, h.tail_eq]
  cases r with
  | nil => simp
  | cons b r =>
    have hnot : a ∉ b :: r := fun hr => by simpa [hr] using (List.nodup_append.mp h.forward.nodup).2.1
    rw [List.getLast?_append_of_ne_nil _ (by simp), List.getLast?_cons_cons]
    constructor
    · exact fun hnone => absurd hnone nofun
    · exact fun hlast => absurd (List.mem_of_getLast? hlast) hnot

theorem Listed.prev_none_iff (h : m.Listed as) (ha : a ∈ as) :
    m.view Node.lruPrev a = some none ↔ m.lruHead = some a := by
  obtain ⟨l, r, rfl⟩ := List.append_of_mem ha
  rw [h.prev_eq, h.head_eq]
  cases l with
  | nil => simp
  | cons b l =>
    have hne : b ≠ a := fun hba => by simpa [hba] using h.forward.nodup
    simp [hne]

theorem Listed.node (h : m.Listed as) (ha : a ∈ as) : ∃ n, m.nodes a = some n := by
  obtain ⟨l, r, rfl⟩ := List.append_of_mem ha
  obtain ⟨n, hn, -⟩ := view_eq_some.mp h.next_eq
  exact ⟨n, hn⟩

/-- `lru_unlink` takes one node out of the list. -/
theorem lruUnlink_spec (h : m.Listed (l ++ a :: r)) :
    ∃ m', m.lruUnlink a = some m' ∧ m'.Listed (l ++ r) ∧ m.SameTable m' := by
  have hnodup : (l ++ a :: r).Nodup := h.forward.nodup
  have ha : a ∉ l ++ r := (List.nodup_middle.mp hnodup).notMem
  have hlast : ∀ p ∈ l.getLast?, p ∈ l := fun p hp => List.mem_of_getLast? hp
  have hhead : ∀ p ∈ r.head?, p ∈ r := fun p hp => List.mem_of_head? hp
  obtain ⟨n, hn, hnext⟩ := view_eq_some.mp h.next_eq
  have hprev : n.lruPrev = l.getLast? := by
    obtain ⟨n', hn', hprev⟩ := view_eq_some.mp h.prev_eq
    rwa [Option.some.inj (hn.symm.trans hn')]
  obtain ⟨m₁, h₁, hf₁, hb₁, hsame₁⟩ := m.setNext_spec l.getLast? r.head? fun p hp =>
    h.node (List.mem_append_left _ (hlast p hp))
  -- the store before this node leaves its own links alone
  obtain ⟨n₁, hn₁⟩ := hsame₁.nodes hn
  have hnext₁ : n₁.lruNext = r.head? := by
    have hlink : m₁.forward.link a = some r.head? := by
      rw [hf₁, Chain.point_link_of_ne fun hp => ha (List.mem_append_left _ (hlast a hp))]
      exact h.next_eq
    obtain ⟨n', hn', hnext⟩ := view_eq_some.mp hlink
    rwa [Option.some.inj (hn₁.symm.trans hn')]
  have hprev₁ : n₁.lruPrev = l.getLast? := by
    have hlink : m₁.backward.link a = some l.getLast? := by
      rw [hb₁]
      exact h.prev_eq
    obtain ⟨n', hn', hprev⟩ := view_eq_some.mp hlink
    rwa [Option.some.inj (hn₁.symm.trans hn')]
  obtain ⟨m₂, h₂, hf₂, hb₂, hsame₂⟩ := m₁.setPrev_spec r.head? l.getLast? fun p hp => by
    obtain ⟨n', hn'⟩ := h.node (List.mem_append_right l (List.mem_cons_of_mem a (hhead p hp)))
    exact hsame₁.nodes hn'
  obtain ⟨n₂, hn₂⟩ := hsame₂.nodes hn₁
  obtain ⟨m₃, h₃, hf₃, hb₃, hsame₃⟩ := storeLinks_spec none none hn₂
  refine ⟨m₃, ?_, ⟨?_, ?_⟩, (hsame₁.trans hsame₂).trans hsame₃⟩
  · simp only [lruUnlink, hn, Option.bind_eq_bind, Option.bind_some, hprev, hnext, h₁, hn₁, hprev₁, hnext₁, h₂, h₃]
  · rw [hf₃, hf₂, hf₁]
    exact (h.forward.delete).store_of_not_mem ha _
  · have hback : m.backward.Spells (r.reverse ++ a :: l.reverse) := by simpa using h.backward
    have hdel := hback.delete
    rw [List.getLast?_reverse, List.head?_reverse] at hdel
    rw [hb₃, hb₂, hb₁, List.reverse_append]
    exact hdel.store_of_not_mem (by simpa [or_comm] using ha) _

/-- `lru_push_front` puts an allocated node in front of the list. -/
theorem lruPushFront_spec (h : m.Listed as) (ha : a ∉ as) (hn : m.nodes a = some n) :
    ∃ m', m.lruPushFront a = some m' ∧ m'.Listed (a :: as) ∧ m.SameTable m' := by
  obtain ⟨m₁, h₁, hf₁, hb₁, hsame₁⟩ := m.storeLinks_spec none m.lruHead hn
  have hhead := h.head_eq
  have htail := h.tail_eq
  have hhead₁ : m₁.lruHead = as.head? := (congrArg Chain.first hf₁).trans hhead
  have htail₁ : m₁.lruTail = as.getLast? := (congrArg Chain.first hb₁).trans htail
  have hfor : m₁.forward.Spells as := by
    rw [hf₁]
    exact h.forward.store_of_not_mem ha _
  have hback : m₁.backward.Spells as.reverse := by
    rw [hb₁]
    exact h.backward.store_of_not_mem (by simpa using ha) _
  have hlinkf : m₁.forward.link a = some as.head? := by
    rw [hf₁, hhead]
    exact Function.update_self ..
  have hlinkb : m₁.backward.link a = some none := by
    rw [hb₁]
    exact Function.update_self ..
  obtain ⟨m₂, h₂, hf₂, hb₂, hsame₂⟩ := m₁.setPrev_spec as.head? (some a) fun p hp => by
    obtain ⟨n', hn'⟩ := h.node (List.mem_of_head? hp)
    exact hsame₁.nodes hn'
  refine ⟨{ m₂ with lruHead := some a }, ?_, ⟨?_, ?_⟩, (hsame₁.trans hsame₂).trans ⟨fun _ => rfl, rfl, rfl⟩⟩
  · simp only [lruPushFront, h₁, Option.bind_eq_bind, Option.bind_some]
    cases as with
    | nil =>
      rw [hhead₁]
      simp only [setPrev, List.head?_nil, Option.some.injEq] at h₂
      subst h₂
      simp [htail₁]
    | cons b as =>
      have htail₂ : m₂.lruTail = (b :: as).getLast? := (congrArg Chain.first hb₂).trans htail₁
      rw [hhead₁]
      simp only [setPrev, List.head?_cons] at h₂
      simp only [List.head?_cons, h₂, Option.bind_some, htail₂]
      simp
  · have hins := Chain.Spells.insert (l := []) (r := as) hfor ha hlinkf
    refine hins.congr rfl fun d _ => ?_
    exact congrFun (congrArg Chain.link hf₂) d
  · have hins := Chain.Spells.insert (l := as.reverse) (r := []) (by simpa using hback) (by simpa using ha) hlinkb
    rw [List.getLast?_reverse, ← hb₂] at hins
    rw [List.reverse_cons]
    exact hins

/-- Nothing outside the table changed. -/
structure SameList (m m' : Memory) : Prop where
  forward : m'.forward = m.forward
  backward : m'.backward = m.backward
  entryAt : m'.entryAt = m.entryAt
  count : m'.entryCount = m.entryCount

theorem SameList.listed (h : m.SameList m') (hl : m.Listed as) : m'.Listed as :=
  ⟨h.forward ▸ hl.forward, h.backward ▸ hl.backward⟩

variable {b : Fin bucketCount}

theorem readSlot_eq (h : (m.bucket b).Spells (l ++ r)) : m.readSlot b l.getLast? = some r.head? := by
  rcases List.eq_nil_or_concat l with rfl | ⟨l, d, rfl⟩
  · exact congrArg some h.first
  · rw [List.concat_eq_append, List.append_assoc] at h
    rw [List.concat_eq_append, List.getLast?_append]
    exact h.link_eq

/-- A store through a slot: the bucket changes there, the other buckets do not visit the node. -/
theorem writeSlot_spec (before q : Option Addr) (h : ∀ p ∈ before, ∃ n, m.nodes p = some n) :
    ∃ m', m.writeSlot b before q = some m' ∧ m'.bucket b = (m.bucket b).point before q ∧
      (∀ b' as, b' ≠ b → (∀ p ∈ before, p ∉ as) → (m.bucket b').Spells as → (m'.bucket b').Spells as) ∧
      m.SameList m' := by
  cases before with
  | none =>
    refine ⟨_, rfl, ?_, fun b' as hb _ has => ?_, rfl, rfl, rfl, rfl⟩
    · exact congrArg (Chain.mk · (m.view Node.bucketNext)) (Function.update_self ..)
    · exact has.congr (Function.update_of_ne hb ..) fun _ _ => rfl
  | some p =>
    obtain ⟨n, hn⟩ := h p rfl
    refine ⟨_, store_eq hn, ?_, fun b' as _ hp has => ?_, ?_, ?_, ?_, rfl⟩
    · exact congrArg (Chain.mk (m.buckets b)) (view_update Node.bucketNext _)
    · have hstore := has.store_of_not_mem (hp p rfl) (some q)
      exact hstore.congr rfl fun d _ => congrFun (view_update Node.bucketNext _) d
    · exact congrArg (Chain.mk m.lruHead) (view_update_same hn rfl)
    · exact congrArg (Chain.mk m.lruTail) (view_update_same hn rfl)
    · exact view_update_same hn rfl

/-- The loop of `bucket_unlink` passes the nodes `l` and stores at the slot behind them. -/
theorem bucketUnlinkLoop_eq {passed : List Addr} {fuel : ℕ} (h : (m.bucket b).Spells (passed ++ l ++ a :: r))
    (hfuel : l.length < fuel) :
    m.bucketUnlinkLoop b a fuel passed.getLast? = m.writeSlot b (passed ++ l).getLast? r.head? := by
  induction l generalizing passed fuel with
  | nil =>
    obtain ⟨fuel, rfl⟩ := Nat.exists_eq_succ_of_ne_zero (Nat.ne_of_gt hfuel)
    rw [List.append_nil] at h ⊢
    obtain ⟨n, hn, hnext⟩ := view_eq_some.mp h.link_eq
    simp only [bucketUnlinkLoop, readSlot_eq h, List.head?_cons, Option.bind_eq_bind, Option.bind_some,
      if_true, hn, hnext]
  | cons d l ih =>
    obtain ⟨fuel, rfl⟩ := Nat.exists_eq_succ_of_ne_zero (Nat.ne_of_gt (Nat.zero_lt_of_lt hfuel))
    rw [List.append_cons passed d l] at h ⊢
    have hd : d ≠ a := by
      have hnodup := h.nodup
      intro hda
      subst hda
      simp [List.nodup_append] at hnodup
    have hread : m.readSlot b passed.getLast? = some (some d) := by
      rw [List.append_assoc, List.append_assoc] at h
      exact readSlot_eq h
    have hrest := ih h (Nat.lt_of_succ_lt_succ hfuel)
    rw [List.getLast?_append] at hrest
    simp only [bucketUnlinkLoop, hread, Option.bind_eq_bind, Option.bind_some, if_neg hd]
    exact hrest

/-- The buckets hold exactly these entries, each in the bucket of its id. -/
def Hashed (m : Memory) (cells : List (Addr × Entry)) : Prop :=
  ∀ b, ∃ as, (m.bucket b).Spells as ∧ ∀ a, a ∈ as ↔ ∃ e, (a, e) ∈ cells ∧ bucketOf e.sessionId = b

variable {cells front back : List (Addr × Entry)} {e : Entry}

theorem bucket_length_le (h : (m.bucket b).Spells as) (hmem : ∀ a ∈ as, ∃ e, (a, e) ∈ cells) :
    as.length ≤ cells.length := by
  have hsub : as ⊆ cells.map Prod.fst := fun a ha => by
    obtain ⟨e, he⟩ := hmem a ha
    exact List.mem_map_of_mem he
  exact (h.nodup.subperm hsub).length_le.trans (List.length_map ..).le

/-- `bucket_unlink` takes one entry out of its bucket. -/
theorem bucketUnlink_spec {fuel : ℕ} (h : m.Hashed (front ++ (a, e) :: back))
    (hnodup : ((front ++ (a, e) :: back).map Prod.fst).Nodup) (hentry : ∀ c ∈ front ++ (a, e) :: back,
      m.entryAt c.1 = some c.2) (hfuel : (front ++ (a, e) :: back).length < fuel) :
    ∃ m', m.bucketUnlink fuel a = some m' ∧ m'.Hashed (front ++ back) ∧ m.SameList m' := by
  have ha : ∀ e', (a, e') ∉ front ++ back := by
    intro e' he'
    rw [List.map_append, List.map_cons, List.nodup_middle, ← List.map_append] at hnodup
    exact (List.nodup_cons.mp hnodup).1 (List.mem_map.mpr ⟨(a, e'), he', rfl⟩)
  obtain ⟨n, hn, hne⟩ := nodes_of_entryAt (hentry (a, e) (by simp))
  obtain ⟨as, has, hmem⟩ := h (bucketOf e.sessionId)
  obtain ⟨l, r, rfl⟩ := List.append_of_mem ((hmem a).mpr ⟨e, by simp, rfl⟩)
  have hlast : ∀ p ∈ l.getLast?, p ∈ l := fun p hp => List.mem_of_getLast? hp
  have hlen := bucket_length_le has fun d hd => ((hmem d).mp hd).imp fun _ h => h.1
  obtain ⟨m', hm', hbucket, hother, hsame⟩ := m.writeSlot_spec (b := bucketOf e.sessionId) l.getLast? r.head?
    fun p hp => by
      obtain ⟨e', he', -⟩ := (hmem p).mp (List.mem_append_left _ (hlast p hp))
      exact (nodes_of_entryAt (hentry _ he')).imp fun _ h => h.1
  refine ⟨m', ?_, fun b => ?_, hsame⟩
  · have hall : (m.bucket (bucketOf e.sessionId)).Spells ([] ++ l ++ a :: r) := has
    have hshort : l.length < fuel := by
      rw [List.length_append, List.length_cons] at hlen
      omega
    have hloop := bucketUnlinkLoop_eq hall hshort
    simp only [bucketUnlink, hn, Option.bind_eq_bind, Option.bind_some, hne]
    exact hloop.trans hm'
  by_cases hb : b = bucketOf e.sessionId
  · subst hb
    refine ⟨l ++ r, hbucket ▸ has.delete, fun d => ?_⟩
    have hd := hmem d
    have hnot : a ∉ l ++ r := (List.nodup_middle.mp has.nodup).notMem
    by_cases hda : d = a
    · subst hda
      exact ⟨fun hd => absurd hd hnot, fun ⟨e', he', _⟩ => absurd he' (ha e')⟩
    · simpa [hda] using hd
  · obtain ⟨as, has', hmem'⟩ := h b
    refine ⟨as, hother b as hb (fun p hp hpa => ?_) has', fun d => ?_⟩
    · -- a node lies in the bucket of its id only
      obtain ⟨e₁, he₁, hb₁⟩ := (hmem p).mp (List.mem_append_left _ (hlast p hp))
      obtain ⟨e₂, he₂, hb₂⟩ := (hmem' p).mp hpa
      have heq : e₁ = e₂ := Option.some.inj ((hentry _ he₁).symm.trans (hentry _ he₂))
      exact hb (by rw [← hb₂, ← heq, hb₁])
    · rw [hmem' d]
      refine exists_congr fun e' => and_congr_left fun hb' => ?_
      have hne' : (d, e') ≠ (a, e) := fun heq => hb (by rw [← hb', (Prod.mk.inj heq).2])
      simp [hne']

end Memory
end FractalSQL.Session
