import FractalSQL.Lib.Count
import FractalSQL.Service.HandleTable

/-!
# The life of a handle

A handle whose init succeeded is owed one deinit: by the thread that has unlinked it or not
linked it yet, or by its connection as long as it is in the registry. Nothing but the
connection's own thread looks at what is owed, so a handle in a call is in the registry
until the call has replied.
-/
namespace FractalSQL.Service.HandleTable
open Lib

def Event.deinits (n : ℕ) : Event → Bool
  | .deinited _ m => m = n
  | _ => false

/-- What an event does to the number of calls that execute on a handle; none where it
removes or deinitialises the handle under one of them. -/
def Event.calls (n k : ℕ) : Event → Option ℕ
  | .passed _ m => some (if m = n then k + 1 else k)
  | .replied _ m _ => some (if m = n then k - 1 else k)
  | .unlinked _ m | .deinited _ m => if m = n ∧ k ≠ 0 then none else some k
  | _ => some k

def callsOn (n : ℕ) (log : List Event) : Option ℕ := log.foldlM (Event.calls n) 0

structure Lifecycle (t : Table) (log : List Event) : Prop where
  sole : ∀ c c' n, .created c n ∈ log → .created c' n ∈ log → c = c'
  once : ∀ n, log.countP (Event.deinits n) ≤ 1
  /-- At a request boundary and after the end of its connection a handle is in the registry
  or has had its deinit. -/
  settled : ∀ c n, .created c n ∈ log → t.threads c = none ∨ t.threads c = some .reading →
    log.countP (Event.deinits n) = if n ∈ t.registry then 0 else 1
  undisturbed : ∀ n, callsOn n log ≠ none
  own : ∀ c n, .passed c n ∈ log ∨ .unlinked c n ∈ log ∨ .deinited c n ∈ log → .created c n ∈ log
  gone : ∀ c n, .ended c ∈ log → .created c n ∈ log → n ∉ t.registry
  kept : ∀ c n, .linked c n ∈ log → n ∈ t.registry ∨ .unlinked c n ∈ log

/-! ### Who owes a deinit -/

def Table.creator (t : Table) (n : ℕ) : Option ℕ := (t.nodes[n]?).map Node.creator

def Table.owner (t : Table) (n : ℕ) : Option ℕ := (t.nodes[n]?).map fun x => x.owner

def Table.owed (t : Table) (c : ℕ) : List ℕ := (t.threads c).elim [] Place.owes

def Table.calling (t : Table) (c : ℕ) : Option ℕ := (t.threads c).bind Place.calls

structure Owned (t : Table) (log : List Event) : Prop where
  below : ∀ c, t.threads c ≠ none → c < t.nextConn
  account : ∀ n c, t.creator n = some c →
    (t.owed c).count n + t.registry.count n + log.countP (Event.deinits n) = 1
  owner : ∀ n ∈ t.registry, ∃ c, t.creator n = some c ∧ t.owner n = some c
  owes : ∀ c, ∀ n ∈ t.owed c, t.creator n = some c
  calls : ∀ c n, t.calling c = some n → n ∈ t.registry ∧ t.creator n = some c
  unborn : ∀ n, t.creator n = none → log.countP (Event.deinits n) = 0

theorem map_modify {β : Type*} (g : Node → β) {f : Node → Node} (hf : ∀ x, g (f x) = g x) (l : List Node) (i n : ℕ) :
    ((l.modify i f)[n]?).map g = (l[n]?).map g := by
  rw [List.getElem?_modify, Option.map_eq_map, Option.map_map]
  congr 1
  funext x
  rw [Function.comp_apply]
  split
  · exact hf x
  · rfl

theorem owns_iff {t : Table} {c n : ℕ} : t.owns c n = true ↔ t.owner n = some c := by
  rw [Table.owns, Table.owner]
  cases t.nodes[n]? <;> simp

theorem owed_of_some {t : Table} {c : ℕ} {pc : Place} (h : t.threads c = some pc) : t.owed c = pc.owes := by
  rw [Table.owed, h]
  rfl

theorem calling_of_some {t : Table} {c : ℕ} {pc : Place} (h : t.threads c = some pc) : t.calling c = pc.calls := by
  rw [Table.calling, h]
  rfl

section Owned
variable {t t' : Table} {log es : List Event} {c : ℕ} {pc pc' : Place}

/-- The thread of a connection goes from one place to another. -/
theorem Owned.move (h : Owned t log) (hpc : t.threads c = some pc)
    (hthreads : t'.threads = Function.update t.threads c (some pc')) (hconn : t'.nextConn = t.nextConn)
    (hcreator : t'.creator = t.creator)
    (hself : ∀ n, t.creator n = some c →
      pc'.owes.count n + t'.registry.count n + es.countP (Event.deinits n) = pc.owes.count n + t.registry.count n)
    (hrest : ∀ n, t.creator n ≠ some c →
      t'.registry.count n = t.registry.count n ∧ es.countP (Event.deinits n) = 0)
    (howner : ∀ n ∈ t'.registry, ∃ c', t.creator n = some c' ∧ t'.owner n = some c')
    (howes : ∀ n ∈ pc'.owes, t.creator n = some c)
    (hcalls : ∀ n, pc'.calls = some n → n ∈ t'.registry ∧ t.creator n = some c) : Owned t' (log ++ es) := by
  have hcself : t'.threads c = some pc' := by rw [hthreads, Function.update_self]
  have hcrest : ∀ c', c' ≠ c → t'.threads c' = t.threads c' := fun c' hc' => by
    rw [hthreads, Function.update_of_ne hc']
  constructor
  · intro c' hc'
    rw [hconn]
    by_cases hcc : c' = c
    · subst hcc
      exact h.below c' (by simp [hpc])
    · rw [hcrest c' hcc] at hc'
      exact h.below c' hc'
  · intro n c' hn
    rw [hcreator] at hn
    have hbefore := h.account n c' hn
    rw [List.countP_append]
    by_cases hcc : c' = c
    · subst hcc
      have hbal := hself n hn
      rw [owed_of_some hpc] at hbefore
      rw [owed_of_some hcself]
      omega
    · obtain ⟨hreg, hes⟩ := hrest n (by rw [hn]; simpa using hcc)
      rw [Table.owed, hcrest c' hcc, hreg, hes]
      exact hbefore
  · rw [hcreator]
    exact howner
  · intro c' n hn
    rw [hcreator]
    by_cases hcc : c' = c
    · subst hcc
      rw [owed_of_some hcself] at hn
      exact howes n hn
    · rw [Table.owed, hcrest c' hcc] at hn
      exact h.owes c' n hn
  · intro c' n hn
    rw [hcreator]
    by_cases hcc : c' = c
    · subst hcc
      rw [calling_of_some hcself] at hn
      exact hcalls n hn
    · rw [Table.calling, hcrest c' hcc] at hn
      obtain ⟨hmem, hcr⟩ := h.calls c' n hn
      obtain ⟨hreg, -⟩ := hrest n (by rw [hcr]; simpa using hcc)
      rw [← List.count_pos_iff] at hmem ⊢
      exact ⟨hreg ▸ hmem, hcr⟩
  · intro n hn
    rw [hcreator] at hn
    rw [List.countP_append, h.unborn n hn, Nat.zero_add]
    exact (hrest n (by rw [hn]; exact nofun)).2

/-- A move that leaves the registry and what is owed alone. -/
theorem Owned.still (h : Owned t log) (hpc : t.threads c = some pc)
    (hthreads : t'.threads = Function.update t.threads c (some pc')) (hconn : t'.nextConn = t.nextConn)
    (hcreator : t'.creator = t.creator) (howner : t'.owner = t.owner) (hreg : t'.registry = t.registry)
    (hes : ∀ n, es.countP (Event.deinits n) = 0) (howes : pc'.owes = pc.owes)
    (hcalls : ∀ n, pc'.calls = some n → pc.calls = some n ∨ n ∈ t.registry ∧ t.creator n = some c) :
    Owned t' (log ++ es) := by
  refine h.move hpc hthreads hconn hcreator (fun n hn => ?_) (fun n hn => ?_) (fun n hn => ?_) (fun n hn => ?_)
    fun n hn => ?_
  · rw [howes, hreg, hes n]
    rfl
  · rw [hreg, hes n]
    exact ⟨rfl, rfl⟩
  · rw [hreg] at hn
    rw [howner]
    exact h.owner n hn
  · rw [howes, ← owed_of_some hpc] at hn
    exact h.owes c n hn
  · rw [hreg]
    obtain hold | hnew := hcalls n hn
    · rw [← calling_of_some hpc] at hold
      exact h.calls c n hold
    · exact hnew

theorem creator_mark (n : ℕ) (b : Bool) : (t.mark n b).creator = t.creator := by
  funext m
  apply map_modify
  intro x
  rfl

theorem owner_mark (n : ℕ) (b : Bool) : (t.mark n b).owner = t.owner := by
  funext m
  apply map_modify
  intro x
  rfl

theorem Owned.accept (h : Owned t log) : Owned ({ t with nextConn := t.nextConn + 1 }.go t.nextConn .reading) log := by
  have hnone : t.threads t.nextConn = none := by
    by_contra hsome
    exact absurd (h.below _ hsome) (Nat.lt_irrefl _)
  have howed : ({ t with nextConn := t.nextConn + 1 }.go t.nextConn .reading).owed = t.owed := by
    funext c
    by_cases hc : c = t.nextConn
    · subst hc
      simp [Table.owed, Table.go, hnone, Place.owes]
    · simp [Table.owed, Table.go, Function.update_of_ne hc]
  have hcalling : ({ t with nextConn := t.nextConn + 1 }.go t.nextConn .reading).calling = t.calling := by
    funext c
    by_cases hc : c = t.nextConn
    · subst hc
      simp [Table.calling, Table.go, hnone, Place.calls]
    · simp [Table.calling, Table.go, Function.update_of_ne hc]
  refine ⟨fun c hc => ?_, ?_, h.owner, ?_, ?_, h.unborn⟩
  · by_cases hcc : c = t.nextConn
    · subst hcc
      exact Nat.lt_succ_self _
    · simp only [Table.go, Function.update_of_ne hcc] at hc
      exact (h.below c hc).trans (Nat.lt_succ_self _)
  · rw [howed]
    exact h.account
  · rw [howed]
    exact h.owes
  · rw [hcalling]
    exact h.calls

theorem creator_append {x : Node} {n : ℕ} :
    ({ t with nodes := t.nodes ++ [x] }.go c pc).creator n =
      if n = t.nodes.length then some x.creator else t.creator n := by
  simp only [Table.creator, Table.go]
  split
  · rename_i hn
    subst hn
    simp
  · rename_i hn
    rcases Nat.lt_or_gt_of_ne hn with hlt | hgt
    · rw [List.getElem?_append_left hlt]
    · rw [List.getElem?_eq_none (by simp; omega), List.getElem?_eq_none (by omega)]

theorem creator_length : t.creator t.nodes.length = none := by
  simp [Table.creator]

theorem Owned.create (h : Owned t log) {x : Node} (hpc : t.threads c = some pc) (howes : pc.owes = [])
    (hx : x.creator = c) :
    Owned ({ t with nodes := t.nodes ++ [x] }.go c (.naming t.nodes.length)) (log ++ [.created c t.nodes.length]) := by
  have hold {m d : ℕ} (hm : t.creator m = some d) :
      ({ t with nodes := t.nodes ++ [x] }.go c (.naming t.nodes.length)).creator m = some d := by
    rw [creator_append, if_neg]
    · exact hm
    · rintro rfl
      cases creator_length.symm.trans hm
  have hnew (m : ℕ) : m ∈ t.registry → m ≠ t.nodes.length := by
    rintro hm rfl
    obtain ⟨d, hd, -⟩ := h.owner _ hm
    cases creator_length.symm.trans hd
  have hcount (m : ℕ) : (log ++ [Event.created c t.nodes.length]).countP (Event.deinits m) = log.countP (Event.deinits m) := by
    rw [List.countP_append]
    rfl
  refine ⟨fun d hd => ?_, fun n d hd => ?_, fun n hn => ?_, fun d n hn => ?_, fun d n hn => ?_, fun n hn => ?_⟩
  · by_cases hdc : d = c
    · subst hdc
      exact h.below d (by simp [hpc])
    · simp only [Table.go, Function.update_of_ne hdc] at hd
      exact h.below d hd
  · rw [hcount]
    rw [creator_append] at hd
    split at hd
    · rename_i hn
      subst hn
      cases hd
      have hreg : t.registry.count t.nodes.length = 0 := List.count_eq_zero.mpr fun hm => hnew _ hm rfl
      simp [Table.owed, Table.go, hx, Place.owes, hreg, h.unborn _ creator_length]
    · rename_i hn
      have hbefore := h.account n d hd
      by_cases hdc : d = c
      · subst hdc
        rw [owed_of_some hpc, howes] at hbefore
        simpa [Table.owed, Table.go, Place.owes, List.count_singleton, Ne.symm hn] using hbefore
      · simpa [Table.owed, Table.go, Function.update_of_ne hdc] using hbefore
  · obtain ⟨d, hd, howner⟩ := h.owner n hn
    refine ⟨d, hold hd, ?_⟩
    have hlt : n < t.nodes.length := by
      obtain ⟨y, hy, -⟩ := Option.map_eq_some_iff.mp hd
      exact (List.getElem?_eq_some_iff.mp hy).1
    simp only [Table.owner, Table.go, List.getElem?_append_left hlt]
    exact howner
  · by_cases hdc : d = c
    · subst hdc
      simp only [Table.owed, Table.go, Function.update_self, Option.elim_some, Place.owes, List.mem_singleton] at hn
      subst hn
      rw [creator_append, if_pos rfl, hx]
    · simp only [Table.owed, Table.go, Function.update_of_ne hdc] at hn
      exact hold (h.owes d n hn)
  · by_cases hdc : d = c
    · subst hdc
      simp [Table.calling, Table.go, Place.calls] at hn
    · simp only [Table.calling, Table.go, Function.update_of_ne hdc] at hn
      obtain ⟨hmem, hcr⟩ := h.calls d n hn
      exact ⟨hmem, hold hcr⟩
  · rw [hcount]
    rw [creator_append] at hn
    split at hn
    · cases hn
    · exact h.unborn n hn

theorem Owned.finish (h : Owned t log) (hpc : t.threads c = some (.releasing [])) :
    Owned { t with threads := Function.update t.threads c none } (log ++ [.ended c]) := by
  have howed : ({ t with threads := Function.update t.threads c none } : Table).owed = t.owed := by
    funext d
    by_cases hd : d = c
    · subst hd
      simp [Table.owed, hpc, Place.owes]
    · simp [Table.owed, Function.update_of_ne hd]
  have hcalling : ({ t with threads := Function.update t.threads c none } : Table).calling = t.calling := by
    funext d
    by_cases hd : d = c
    · subst hd
      simp [Table.calling, hpc, Place.calls]
    · simp [Table.calling, Function.update_of_ne hd]
  have hcount (m : ℕ) : (log ++ [Event.ended c]).countP (Event.deinits m) = log.countP (Event.deinits m) := by
    rw [List.countP_append]
    rfl
  refine ⟨fun d hd => ?_, fun n d hd => ?_, h.owner, ?_, ?_, fun n hn => ?_⟩
  · by_cases hdc : d = c
    · subst hdc
      simp at hd
    · simp only [Function.update_of_ne hdc] at hd
      exact h.below d hd
  · rw [hcount, howed]
    exact h.account n d hd
  · rw [howed]
    exact h.owes
  · rw [hcalling]
    exact h.calls
  · rw [hcount]
    exact h.unborn n hn

theorem Owned.link {n : ℕ} (h : Owned t log) (hpc : t.threads c = some (.linking n)) :
    Owned ({ t with
      nodes := t.nodes.modify n fun x => { x with owner := c }
      registry := n :: t.registry }.go c .replying) (log ++ [.linked c n]) := by
  have hn : t.creator n = some c := h.owes c n (by simp [owed_of_some hpc, Place.owes])
  have hcreator : ({ t with
      nodes := t.nodes.modify n fun x => { x with owner := c }
      registry := n :: t.registry }.go c .replying).creator = t.creator := by
    funext m
    apply map_modify
    intro x
    rfl
  refine h.move hpc rfl rfl hcreator (fun m hm => ?_) (fun m hm => ?_) (fun m hm => ?_) nofun nofun
  · simp [Table.go, Place.owes, Event.deinits, List.count_cons]
    omega
  · have hne : m ≠ n := by
      rintro rfl
      exact hm hn
    simp [Table.go, Event.deinits, Ne.symm hne]
  · have howner : ({ t with
        nodes := t.nodes.modify n fun x => { x with owner := c }
        registry := n :: t.registry }.go c .replying).owner m = if m = n then (t.owner m).map fun _ => c else t.owner m := by
      simp only [Table.owner, Table.go, List.getElem?_modify]
      cases t.nodes[m]? with
      | none => simp
      | some x =>
        by_cases hmn : n = m
        · simp [hmn]
        · simp [hmn, Ne.symm hmn]
    rw [howner]
    by_cases hmn : m = n
    · subst hmn
      rw [if_pos rfl]
      obtain ⟨x, hx, -⟩ := Option.map_eq_some_iff.mp hn
      exact ⟨c, hn, by simp [Table.owner, hx]⟩
    · rw [if_neg hmn]
      exact h.owner m ((List.mem_cons.mp hm).resolve_left hmn)

theorem Owned.creator_of_owns {n : ℕ} (h : Owned t log) (hn : n ∈ t.registry) (hown : t.owns c n) :
    t.creator n = some c := by
  obtain ⟨d, hd, howner⟩ := h.owner n hn
  rw [owns_iff, howner] at hown
  exact hd.trans hown

theorem Owned.registry_nodup (h : Owned t log) : t.registry.Nodup := by
  rw [List.nodup_iff_count_le_one]
  intro n
  by_cases hn : n ∈ t.registry
  · obtain ⟨d, hd, -⟩ := h.owner n hn
    have := h.account n d hd
    omega
  · rw [List.count_eq_zero_of_not_mem hn]
    omega

theorem Owned.unlink {n : ℕ} (h : Owned t log) (hpc : t.threads c = some .reading) (hn : n ∈ t.registry)
    (hown : t.owns c n) :
    Owned ({ t with registry := t.registry.erase n }.go c (.deiniting n)) (log ++ [.unlinked c n]) := by
  have hcr := h.creator_of_owns hn hown
  refine h.move hpc rfl rfl rfl (fun m hm => ?_) (fun m hm => ?_) (fun m hm => ?_) (fun m hm => ?_) nofun
  · have hpos := List.count_pos_iff.mpr hn
    simp only [Table.go, Place.owes, List.count_erase, List.count_singleton, List.countP_singleton, Event.deinits,
      List.count_nil, beq_iff_eq]
    split
    · rename_i hmn
      subst hmn
      simp
      omega
    · simp
  · have hne : m ≠ n := by
      rintro rfl
      exact hm hcr
    simp [Table.go, Event.deinits, List.count_erase_of_ne hne]
  · exact h.owner m (List.mem_of_mem_erase hm)
  · cases List.mem_singleton.mp hm
    exact hcr

theorem Owned.leave (h : Owned t log) (hpc : t.threads c = some pc) (howes : pc.owes = []) :
    Owned (t.leave c).1 (log ++ (t.leave c).2) := by
  have hes (m : ℕ) : (t.leave c).2.countP (Event.deinits m) = 0 := by
    rw [Table.leave, List.countP_map, List.countP_eq_zero]
    intro a _
    exact Bool.false_ne_true
  have hmine {m : ℕ} (hm : t.creator m = some c) : m ∈ t.registry → t.owns c m = true := by
    intro hmem
    obtain ⟨d, hd, howner⟩ := h.owner m hmem
    exact owns_iff.mpr (howner.trans (hd.symm.trans hm))
  refine h.move hpc rfl rfl rfl (fun m hm => ?_) (fun m hm => ?_) (fun m hm => ?_) (fun m hm => ?_) nofun
  · rw [hes, howes]
    simp only [Table.leave, Table.go, Place.owes, List.count_reverse, List.count_nil]
    by_cases hmem : m ∈ t.registry
    · have hown := hmine hm hmem
      have hout : (t.registry.filter fun k => !t.owns c k).count m = 0 := by
        apply List.count_eq_zero_of_not_mem
        simp [hown]
      rw [List.count_filter hown, hout, Nat.zero_add]
      rfl
    · rw [List.count_eq_zero_of_not_mem hmem, List.count_eq_zero_of_not_mem, List.count_eq_zero_of_not_mem]
      · exact fun hf => hmem (List.mem_of_mem_filter hf)
      · exact fun hf => hmem (List.mem_of_mem_filter hf)
  · refine ⟨?_, hes m⟩
    simp only [Table.leave, Table.go]
    by_cases hmem : m ∈ t.registry
    · refine List.count_filter ?_
      rw [Bool.not_eq_true', Bool.eq_false_iff]
      exact fun hown => hm (h.creator_of_owns hmem hown)
    · rw [List.count_eq_zero_of_not_mem hmem, List.count_eq_zero_of_not_mem]
      exact fun hf => hmem (List.mem_of_mem_filter hf)
  · exact h.owner m (List.mem_of_mem_filter hm)
  · rw [Place.owes, List.mem_reverse, List.mem_filter] at hm
    exact h.creator_of_owns hm.1 hm.2

theorem Owned.deinit {n : ℕ} (h : Owned t log) (hpc : t.threads c = some pc) (howes : pc.owes = n :: pc'.owes)
    (hcalls' : pc'.calls = none) : Owned (t.go c pc') (log ++ [.deinited c n]) := by
  have hcr : t.creator n = some c := h.owes c n (by simp [owed_of_some hpc, howes])
  refine h.move hpc rfl rfl rfl (fun m hm => ?_) (fun m hm => ?_) (fun m hm => ?_) (fun m hm => ?_) fun m hm => ?_
  · rw [howes]
    by_cases hmn : n = m
    · subst hmn
      simp [Table.go, Event.deinits]
      omega
    · simp [Table.go, Event.deinits, hmn]
  · have hne : n ≠ m := by
      rintro rfl
      exact hm hcr
    simp [Table.go, Event.deinits, hne]
  · exact h.owner m hm
  · exact h.owes c m (by simp [owed_of_some hpc, howes, hm])
  · rw [hcalls'] at hm
    cases hm

theorem Owned.step (h : Owned t log) (hm : Move t t' es) : Owned t' (log ++ es) := by
  cases hm with
  | accept =>
    rw [List.append_nil]
    exact h.accept
  | walk hpc howes hcalls =>
    exact h.still hpc rfl rfl rfl rfl rfl (fun _ => rfl) howes fun n hn => .inl (hcalls ▸ hn)
  | @name c n hpc =>
    refine h.still hpc rfl rfl ?_ ?_ rfl (fun _ => rfl) rfl nofun
    · funext m
      apply map_modify
      intro x
      rfl
    · funext m
      apply map_modify
      intro x
      rfl
  | create hpc howes _ hx => exact h.create hpc howes hx
  | link hpc => exact h.link hpc
  | @cancel c n hpc => exact h.still hpc rfl rfl (creator_mark n true) (owner_mark n true) rfl (fun _ => rfl) rfl nofun
  | pass hpc hn hown =>
    refine h.still hpc rfl rfl rfl rfl rfl (fun _ => rfl) rfl fun m hm => .inr ?_
    cases hm
    exact ⟨hn, h.creator_of_owns hn hown⟩
  | @refuse c n pc hpc hclears =>
    refine h.still hpc rfl rfl (creator_mark n false) (owner_mark n false) rfl (fun _ => rfl) ?_ nofun
    cases pc <;> first | rfl | nomatch hclears
  | @reply c n pc status hpc hcalls =>
    refine h.still hpc rfl rfl rfl rfl rfl (fun _ => rfl) ?_ nofun
    cases pc <;> first | rfl | nomatch hcalls
  | unlink hpc hn hown => exact h.unlink hpc hn hown
  | leave hpc howes => exact h.leave hpc howes
  | deinit hpc howes _ hcalls' => exact h.deinit hpc howes hcalls'
  | finish hpc => exact h.finish hpc

/-! ### What the log says of it -/

theorem Move.creator (hm : Move t t' es) :
    t'.creator = t.creator ∧ (∀ c n, .created c n ∉ es) ∨
      ∃ c, es = [.created c t.nodes.length] ∧ ∀ n, t'.creator n = if n = t.nodes.length then some c else t.creator n := by
  cases hm with
  | @create c pc x hpc howes hcalls hx =>
    refine .inr ⟨c, rfl, fun n => ?_⟩
    rw [creator_append, hx]
  | @leave c pc hpc =>
    refine .inl ⟨rfl, fun d n hmem => ?_⟩
    obtain ⟨m, -, heq⟩ := List.mem_map.mp hmem
    cases heq
  | @cancel c n => exact .inl ⟨creator_mark n true, by simp⟩
  | @refuse c n => exact .inl ⟨creator_mark n false, by simp⟩
  | name | link =>
    refine .inl ⟨?_, by simp⟩
    funext m
    apply map_modify
    intro x
    rfl
  | _ => exact .inl ⟨rfl, by simp⟩

theorem Move.creator_mono {n d : ℕ} (hm : Move t t' es) (hn : t.creator n = some d) : t'.creator n = some d := by
  obtain ⟨hsame, -⟩ | ⟨c, -, hnew⟩ := hm.creator
  · rw [hsame]
    exact hn
  · rw [hnew, if_neg]
    · exact hn
    · rintro rfl
      cases creator_length.symm.trans hn

/-- What a thread does, it does to its own handles. -/
theorem Owned.acts (h : Owned t log) (hm : Move t t' es) {d n : ℕ}
    (hes : .passed d n ∈ es ∨ .unlinked d n ∈ es ∨ .deinited d n ∈ es) : t.creator n = some d := by
  cases hm with
  | @pass c m call hpc hmem hown =>
    simp only [List.mem_singleton, Event.passed.injEq, reduceCtorEq, or_false] at hes
    obtain ⟨rfl, rfl⟩ := hes
    exact h.creator_of_owns hmem hown
  | @unlink c m hpc hmem hown =>
    simp only [List.mem_singleton, Event.unlinked.injEq, reduceCtorEq, or_false, false_or] at hes
    obtain ⟨rfl, rfl⟩ := hes
    exact h.creator_of_owns hmem hown
  | @leave c pc hpc =>
    simp only [Table.leave, List.mem_map, reduceCtorEq, and_false, exists_false, or_false, false_or, List.mem_filter,
      Event.unlinked.injEq] at hes
    obtain ⟨m, ⟨hmem, hown⟩, rfl, rfl⟩ := hes
    exact h.creator_of_owns hmem hown
  | @deinit c m pc pc' hpc howes =>
    simp only [List.mem_singleton, Event.deinited.injEq, reduceCtorEq, false_or] at hes
    obtain ⟨rfl, rfl⟩ := hes
    exact h.owes d n (by simp [owed_of_some hpc, howes])
  | _ => simp at hes

theorem Move.threads_none {d : ℕ} (hm : Move t t' es) (hd : d < t.nextConn) (hnone : t.threads d = none) :
    d < t'.nextConn ∧ t'.threads d = none := by
  have hne {c : ℕ} {pc : Place} (hpc : t.threads c = some pc) : d ≠ c := by
    rintro rfl
    cases hnone.symm.trans hpc
  cases hm with
  | accept =>
    refine ⟨hd.trans (Nat.lt_succ_self _), ?_⟩
    exact (Function.update_of_ne hd.ne _ _).trans hnone
  | name hpc | link hpc | cancel hpc | pass hpc | refuse hpc | unlink hpc | finish hpc | walk hpc | create hpc
  | reply hpc | leave hpc | deinit hpc =>
    exact ⟨hd, (Function.update_of_ne (hne hpc) _ _).trans hnone⟩

/-- The handles whose connection is at its end or past it are out of the registry. -/
def Table.away (t : Table) (log : List Event) (c : ℕ) : Prop :=
  .ended c ∈ log ∨ ∃ pc, t.threads c = some pc ∧ pc.leaves

/-- The number of calls that execute on a handle. -/
def Table.active (t : Table) (n : ℕ) : ℕ := if (t.creator n).bind t.calling = some n then 1 else 0

theorem active_of_calls {n : ℕ} (hn : t.creator n = some c) (hpc : t.threads c = some pc) :
    t.active n = if pc.calls = some n then 1 else 0 := by
  rw [Table.active, hn, Option.bind_some, calling_of_some hpc]

theorem active_of_rest {n : ℕ} (hcreator : t'.creator = t.creator)
    (hrest : ∀ d, d ≠ c → t'.threads d = t.threads d) (hn : t.creator n ≠ some c) : t'.active n = t.active n := by
  rw [Table.active, Table.active, hcreator]
  cases hd : t.creator n with
  | none => rfl
  | some d =>
    have hne : d ≠ c := fun hdc => hn (hd.trans (congrArg some hdc))
    rw [Option.bind_some, Option.bind_some, Table.calling, Table.calling, hrest d hne]

structure Logged (t : Table) (log : List Event) : Prop where
  creators : ∀ c n, .created c n ∈ log ↔ t.creator n = some c
  counts : ∀ n, callsOn n log = some (t.active n)
  acts : ∀ c n, .passed c n ∈ log ∨ .unlinked c n ∈ log ∨ .deinited c n ∈ log → t.creator n = some c
  ended : ∀ c, .ended c ∈ log → c < t.nextConn ∧ t.threads c = none
  away : ∀ c, t.away log c → ∀ n ∈ t.registry, t.creator n ≠ some c
  kept : ∀ c n, .linked c n ∈ log → t.creator n = some c ∧ (n ∈ t.registry ∨ .unlinked c n ∈ log)

/-- A thread goes from one place to another with the same call. -/
theorem calling_of_same (hpc : t.threads c = some pc) (hthreads : t'.threads = Function.update t.threads c (some pc'))
    (hcalls : pc'.calls = pc.calls) : t'.calling = t.calling := by
  funext d
  rw [Table.calling, Table.calling, hthreads]
  by_cases hd : d = c
  · subst hd
    rw [Function.update_self, hpc]
    exact hcalls
  · rw [Function.update_of_ne hd]

theorem active_still {n : ℕ} (hpc : t.threads c = some pc)
    (hthreads : t'.threads = Function.update t.threads c (some pc')) (hcalls : pc'.calls = pc.calls)
    (hcreator : t'.creator = t.creator) : t'.active n = t.active n := by
  rw [Table.active, Table.active, hcreator, calling_of_same hpc hthreads hcalls]

theorem foldlM_one (n k : ℕ) (e : Event) : [e].foldlM (Event.calls n) k = Event.calls n k e := by
  rw [List.foldlM_cons]
  exact bind_pure _

theorem calls_other {n m k : ℕ} (hmn : m ≠ n) (d : ℕ) (st : Status) :
    Event.calls n k (.passed d m) = some k ∧ Event.calls n k (.replied d m st) = some k ∧
      Event.calls n k (.unlinked d m) = some k ∧ Event.calls n k (.deinited d m) = some k := by
  simp [Event.calls, hmn]

theorem foldlM_unlinked (n k d : ℕ) (ms : List ℕ) (h : n ∈ ms → k = 0) :
    (ms.map (Event.unlinked d)).foldlM (Event.calls n) k = some k := by
  induction ms with
  | nil => rfl
  | cons m ms ih =>
    have hm : ¬ (m = n ∧ k ≠ 0) := by
      rintro ⟨rfl, hk⟩
      exact hk (h (List.mem_cons_self ..))
    rw [List.map_cons, List.foldlM_cons, Event.calls, if_neg hm]
    exact ih fun hn => h (List.mem_cons_of_mem _ hn)

theorem active_idle {n : ℕ} (hn : t.creator n = some c) (hpc : t.threads c = some pc) (hcalls : pc.calls = none) :
    t.active n = 0 := by
  rw [active_of_calls hn hpc, hcalls, if_neg nofun]

/-- A thread ends its call. -/
theorem Owned.counts_reply (h : Owned t log) {m : ℕ} {st : Status} (hpc : t.threads c = some pc)
    (hcalls : pc.calls = some m) (hthreads : t'.threads = Function.update t.threads c (some .replying))
    (hcreator : t'.creator = t.creator) (n : ℕ) :
    [Event.replied c m st].foldlM (Event.calls n) (t.active n) = some (t'.active n) := by
  have hpc' : t'.threads c = some .replying := by rw [hthreads, Function.update_self]
  have hm : t.creator m = some c := (h.calls c m (calling_of_some hpc ▸ hcalls)).2
  rw [foldlM_one]
  by_cases hn : t.creator n = some c
  · rw [active_of_calls hn hpc, active_idle (hcreator ▸ hn) hpc' rfl, hcalls]
    by_cases hmn : m = n
    · subst hmn
      simp [Event.calls]
    · simp [Event.calls, hmn]
  · have hmn : m ≠ n := by
      rintro rfl
      exact hn hm
    have hrest : ∀ d, d ≠ c → t'.threads d = t.threads d := fun d hd => by rw [hthreads, Function.update_of_ne hd]
    rw [active_of_rest hcreator hrest hn, (calls_other hmn c st).2.1]

theorem Owned.counts (h : Owned t log) (hm : Move t t' es) (n : ℕ) :
    es.foldlM (Event.calls n) (t.active n) = some (t'.active n) := by
  cases hm with
  | accept =>
    have hnone : t.threads t.nextConn = none := by
      by_contra hsome
      exact absurd (h.below _ hsome) (Nat.lt_irrefl _)
    apply congrArg some
    rw [Table.active, Table.active]
    congr 3
    funext d
    by_cases hd : d = t.nextConn
    · subst hd
      simp [Table.calling, Table.go, hnone, Place.calls]
    · simp [Table.calling, Table.go, Function.update_of_ne hd]
  | walk hpc _ hcalls =>
    refine congrArg some (Eq.symm ?_)
    exact active_still hpc rfl hcalls rfl
  | @name c k hpc =>
    refine congrArg some (Eq.symm ?_)
    apply @active_still t _ c _ (.linking k) n hpc rfl rfl
    funext m
    apply map_modify
    intro x
    rfl
  | @create c pc x hpc howes hcalls hx =>
    refine congrArg some (Eq.symm ?_)
    have hcalling : ({ t with nodes := t.nodes ++ [x] }.go c (.naming t.nodes.length)).calling = t.calling :=
      @calling_of_same t _ c pc (.naming t.nodes.length) hpc rfl hcalls.symm
    rw [Table.active, Table.active, creator_append, hcalling]
    split
    · rename_i hn
      subst hn
      rw [creator_length, Option.bind_some, hx, calling_of_some hpc, hcalls]
      rfl
    · rfl
  | @link c k hpc =>
    refine congrArg some (Eq.symm ?_)
    apply @active_still t _ c _ .replying n hpc rfl rfl
    funext m
    apply map_modify
    intro x
    rfl
  | @cancel c m hpc =>
    refine congrArg some (Eq.symm ?_)
    exact active_still hpc rfl rfl (creator_mark m true)
  | @pass c m call hpc hmem hown =>
    have hcr := h.creator_of_owns hmem hown
    rw [foldlM_one]
    by_cases hn : t.creator n = some c
    · have hafter : (t.go c (.checkpoint call m)).active n = if some m = some n then 1 else 0 :=
        @active_of_calls (t.go c (.checkpoint call m)) c (.checkpoint call m) n hn (Function.update_self ..)
      rw [active_idle hn hpc rfl, hafter]
      by_cases hmn : m = n
      · subst hmn
        simp [Event.calls]
      · simp [Event.calls, hmn]
    · have hmn : m ≠ n := by
        rintro rfl
        exact hn hcr
      have hsame : (t.go c (.checkpoint call m)).active n = t.active n :=
        active_of_rest rfl (fun d hd => Function.update_of_ne hd _ _) hn
      rw [hsame, (calls_other hmn c .ok).1]
  | @refuse c m pc hpc hclears =>
    apply h.counts_reply hpc (Place.calls_of_clears hclears)
    · rfl
    · exact creator_mark m false
  | reply hpc hcalls =>
    apply h.counts_reply hpc hcalls
    · rfl
    · rfl
  | @unlink c m hpc hmem hown =>
    have hcr := h.creator_of_owns hmem hown
    have hsame : ({ t with registry := t.registry.erase m }.go c (.deiniting m)).active n = t.active n :=
      active_still hpc rfl rfl rfl
    rw [hsame]
    refine foldlM_unlinked n (t.active n) c [m] fun hn => ?_
    cases List.mem_singleton.mp hn
    exact active_idle hcr hpc rfl
  | @leave c pc hpc howes hcalls =>
    have hsame : (t.leave c).1.active n = t.active n := active_still hpc rfl hcalls.symm rfl
    rw [hsame]
    refine foldlM_unlinked n (t.active n) c _ fun hn => ?_
    obtain ⟨hmem, hown⟩ := List.mem_filter.mp hn
    exact active_idle (h.creator_of_owns hmem hown) hpc hcalls
  | @deinit c m pc pc' hpc howes hcalls hcalls' =>
    have hcr : t.creator m = some c := h.owes c m (by simp [owed_of_some hpc, howes])
    have hsame : (t.go c pc').active n = t.active n := active_still hpc rfl (hcalls'.trans hcalls.symm) rfl
    rw [hsame, foldlM_one]
    by_cases hmn : m = n
    · subst hmn
      simp [active_idle hcr hpc hcalls, Event.calls]
    · rw [(calls_other hmn c .ok).2.2.2]
  | @finish c hpc =>
    apply congrArg some
    rw [Table.active, Table.active]
    congr 3
    funext d
    by_cases hd : d = c
    · subst hd
      simp [Table.calling, hpc, Place.calls]
    · simp [Table.calling, Function.update_of_ne hd]

/-- A handle leaves the registry in an unlink by its own connection only. -/
theorem Owned.registry_kept (h : Owned t log) (hm : Move t t' es) {d n : ℕ} (hn : n ∈ t.registry)
    (hd : t.creator n = some d) : n ∈ t'.registry ∨ .unlinked d n ∈ es := by
  cases hm with
  | link => exact .inl (List.mem_cons_of_mem _ hn)
  | @unlink c m hpc hmem hown =>
    by_cases hnm : n = m
    · subst hnm
      cases hd.symm.trans (h.creator_of_owns hmem hown)
      exact .inr (List.mem_singleton.mpr rfl)
    · exact .inl ((List.mem_erase_of_ne hnm).mpr hn)
  | @leave c pc hpc =>
    by_cases hown : t.owns c n
    · cases hd.symm.trans (h.creator_of_owns hn hown)
      exact .inr (List.mem_map.mpr ⟨n, List.mem_filter.mpr ⟨hn, hown⟩, rfl⟩)
    · exact .inl (List.mem_filter.mpr ⟨hn, by simpa using hown⟩)
  | _ => exact .inl hn

theorem away_back {d : ℕ} (hpc : t.threads c = some pc) (hthreads : t'.threads = Function.update t.threads c (some pc'))
    (hleaves : pc'.leaves = true → pc.leaves = true) (hes : ∀ d, .ended d ∉ es) (haway : t'.away (log ++ es) d) :
    t.away log d := by
  obtain hended | ⟨pc₀, hpc₀, hl⟩ := haway
  · exact .inl ((List.mem_append.mp hended).resolve_right (hes d))
  · rw [hthreads] at hpc₀
    by_cases hd : d = c
    · subst hd
      rw [Function.update_self] at hpc₀
      cases hpc₀
      exact .inr ⟨pc, hpc, hleaves hl⟩
    · rw [Function.update_of_ne hd] at hpc₀
      exact .inr ⟨pc₀, hpc₀, hl⟩

theorem away_stay {d : ℕ} (haway : t'.away (log ++ es) d) (hpc : t.threads c = some pc)
    (hthreads : t'.threads = Function.update t.threads c (some pc')) (hstay : pc'.leaves = false)
    (hes : ∀ d, .ended d ∉ es) : t.away log d := by
  refine away_back hpc hthreads (fun hl => ?_) hes haway
  rw [hstay] at hl
  cases hl

theorem Logged.away_step (hlog : Logged t log) (h : Owned t log) (hm : Move t t' es) {d n : ℕ}
    (haway : t'.away (log ++ es) d) (hn : n ∈ t'.registry) : t'.creator n ≠ some d := by
  cases hm with
  | accept =>
    apply hlog.away d ?_ n hn
    obtain hended | ⟨pc₀, hpc₀, hl⟩ := haway
    · exact .inl (by simpa using hended)
    · by_cases hd : d = t.nextConn
      · subst hd
        simp only [Table.go, Function.update_self] at hpc₀
        cases hpc₀
        cases hl
      · simp only [Table.go, Function.update_of_ne hd] at hpc₀
        exact .inr ⟨pc₀, hpc₀, hl⟩
  | @walk c pc pc' hpc howes hcalls hguards hclears hstay =>
    exact hlog.away d (away_stay haway hpc rfl hstay (by simp)) n hn
  | @name c m hpc =>
    have hsame : ({ t with
        nodes := t.nodes.modify m fun x => { x with id := t.nextHandle }
        nextHandle := t.nextHandle + 1 }.go c (.linking m)).creator n = t.creator n := by
      apply map_modify
      intro x
      rfl
    rw [hsame]
    exact hlog.away d (away_stay haway hpc rfl rfl (by simp)) n hn
  | @create c pc x hpc howes hcalls hx =>
    have hne : n ≠ t.nodes.length := by
      rintro rfl
      obtain ⟨d, hd, -⟩ := h.owner _ hn
      cases creator_length.symm.trans hd
    rw [creator_append, if_neg hne]
    exact hlog.away d (away_stay haway hpc rfl rfl (by simp)) n hn
  | @link c m hpc =>
    have hsame : ({ t with
        nodes := t.nodes.modify m fun x => { x with owner := c }
        registry := m :: t.registry }.go c .replying).creator n = t.creator n := by
      apply map_modify
      intro x
      rfl
    have hback : t.away log d := away_stay haway hpc rfl rfl (by simp)
    rw [hsame]
    obtain rfl | hold := List.mem_cons.mp hn
    · rw [h.owes c n (by simp [owed_of_some hpc, Place.owes])]
      rintro heq
      cases heq
      obtain hended | ⟨pc₀, hpc₀, hl⟩ := hback
      · cases (hlog.ended _ hended).2.symm.trans hpc
      · cases hpc₀.symm.trans hpc
        cases hl
    · exact hlog.away d hback n hold
  | @cancel c m hpc =>
    have hsame : ((t.mark m true).go c .replying).creator n = t.creator n := congrFun (creator_mark m true) n
    rw [hsame]
    exact hlog.away d (away_stay haway hpc rfl rfl (by simp)) n hn
  | pass hpc => exact hlog.away d (away_stay haway hpc rfl rfl (by simp)) n hn
  | @refuse c m pc hpc =>
    have hsame : ((t.mark m false).go c .replying).creator n = t.creator n := congrFun (creator_mark m false) n
    rw [hsame]
    exact hlog.away d (away_stay haway hpc rfl rfl (by simp)) n hn
  | reply hpc => exact hlog.away d (away_stay haway hpc rfl rfl (by simp)) n hn
  | unlink hpc => exact hlog.away d (away_stay haway hpc rfl rfl (by simp)) n (List.mem_of_mem_erase hn)
  | @leave c pc hpc =>
    obtain ⟨hmem, hown⟩ := List.mem_filter.mp hn
    by_cases hd : d = c
    · subst hd
      obtain ⟨c', hc', howner⟩ := h.owner n hmem
      rintro heq
      cases hc'.symm.trans heq
      rw [owns_iff.mpr howner] at hown
      cases hown
    · apply hlog.away d ?_ n hmem
      obtain hended | ⟨pc₀, hpc₀, hl⟩ := haway
      · refine .inl ((List.mem_append.mp hended).resolve_right fun hnew => ?_)
        obtain ⟨m, -, heq⟩ := List.mem_map.mp hnew
        cases heq
      · simp only [Table.leave, Table.go, Function.update_of_ne hd] at hpc₀
        exact .inr ⟨pc₀, hpc₀, hl⟩
  | deinit hpc _ _ _ _ hleaves => exact hlog.away d (away_back hpc rfl hleaves (by simp) haway) n hn
  | @finish c hpc =>
    apply hlog.away d ?_ n hn
    obtain hended | ⟨pc₀, hpc₀, hl⟩ := haway
    · obtain hold | hnew := List.mem_append.mp hended
      · exact .inl hold
      · cases List.mem_singleton.mp hnew
        exact .inr ⟨_, hpc, rfl⟩
    · by_cases hd : d = c
      · subst hd
        simp at hpc₀
      · simp only [Function.update_of_ne hd] at hpc₀
        exact .inr ⟨pc₀, hpc₀, hl⟩

theorem Logged.kept_step (hlog : Logged t log) (h : Owned t log) (hm : Move t t' es) {d n : ℕ}
    (hmem : .linked d n ∈ log ++ es) :
    t'.creator n = some d ∧ (n ∈ t'.registry ∨ .unlinked d n ∈ log ++ es) := by
  obtain hold | hnew := List.mem_append.mp hmem
  · obtain ⟨hcr, hin⟩ := hlog.kept d n hold
    refine ⟨hm.creator_mono hcr, ?_⟩
    obtain hreg | hun := hin
    · exact (h.registry_kept hm hreg hcr).imp_right (List.mem_append_right _)
    · exact .inr (List.mem_append_left _ hun)
  · cases hm with
    | @link c m hpc =>
      cases List.mem_singleton.mp hnew
      refine ⟨?_, .inl (List.mem_cons_self ..)⟩
      exact (Move.link hpc).creator_mono (h.owes d n (by simp [owed_of_some hpc, Place.owes]))
    | leave =>
      obtain ⟨m, -, heq⟩ := List.mem_map.mp hnew
      cases heq
    | _ => simp at hnew

theorem Logged.step (hlog : Logged t log) (h : Owned t log) (hm : Move t t' es) : Logged t' (log ++ es) := by
  refine ⟨fun d n => ?_, fun n => ?_, fun d n hmem => ?_, fun d hmem => ?_, fun d haway n hn => ?_, fun d n hmem => ?_⟩
  · rw [List.mem_append, hlog.creators]
    obtain ⟨hsame, hnot⟩ | ⟨c, rfl, hnew⟩ := hm.creator
    · simp [hsame, hnot]
    · rw [hnew, List.mem_singleton, Event.created.injEq]
      by_cases hn : n = t.nodes.length
      · subst hn
        simp [creator_length, eq_comm]
      · simp [hn]
  · rw [callsOn, List.foldlM_append, ← callsOn, hlog.counts n]
    exact h.counts hm n
  · have hcases : (.passed d n ∈ log ∨ .unlinked d n ∈ log ∨ .deinited d n ∈ log) ∨
        (.passed d n ∈ es ∨ .unlinked d n ∈ es ∨ .deinited d n ∈ es) := by
      simp only [List.mem_append] at hmem
      tauto
    obtain hold | hnew := hcases
    · exact hm.creator_mono (hlog.acts d n hold)
    · exact hm.creator_mono (h.acts hm hnew)
  · obtain hold | hnew := List.mem_append.mp hmem
    · obtain ⟨hlt, hnone⟩ := hlog.ended d hold
      exact hm.threads_none hlt hnone
    · cases hm with
      | @finish c hpc =>
        cases List.mem_singleton.mp hnew
        exact ⟨h.below d (by simp [hpc]), Function.update_self ..⟩
      | leave =>
        obtain ⟨m, -, heq⟩ := List.mem_map.mp hnew
        cases heq
      | _ => simp at hnew
  · exact hlog.away_step h hm haway hn
  · exact hlog.kept_step h hm hmem

theorem Owned.lifecycle (h : Owned t log) (hlog : Logged t log) : Lifecycle t log := by
  refine ⟨fun c c' n hc hc' => ?_, fun n => ?_, fun c n hc hthread => ?_, fun n => ?_, fun c n hes => ?_,
    fun c n hended hc => ?_, fun c n hlinked => (hlog.kept c n hlinked).2⟩
  · rw [hlog.creators] at hc hc'
    exact Option.some.inj (hc.symm.trans hc')
  · cases hn : t.creator n with
    | none =>
      rw [h.unborn n hn]
      exact Nat.zero_le 1
    | some c =>
      have := h.account n c hn
      omega
  · rw [hlog.creators] at hc
    have howed : t.owed c = [] := by
      rcases hthread with hnone | hreading
      · rw [Table.owed, hnone]
        rfl
      · exact owed_of_some hreading
    have hbal := h.account n c hc
    rw [howed, List.count_nil] at hbal
    split
    · rename_i hmem
      have := List.count_pos_iff.mpr hmem
      omega
    · rename_i hmem
      rw [List.count_eq_zero_of_not_mem hmem] at hbal
      omega
  · rw [hlog.counts n]
    exact nofun
  · rw [hlog.creators]
    exact hlog.acts c n hes
  · intro hmem
    rw [hlog.creators] at hc
    exact hlog.away c (.inl hended) n hmem hc

end Owned

theorem owned_start : Owned {} [] := by
  refine ⟨fun c hc => absurd rfl hc, fun n c hn => ?_, fun n hn => ?_, fun c n hn => ?_, fun c n hn => ?_, fun n _ => rfl⟩
  · simp [Table.creator] at hn
  · cases hn
  · cases hn
  · cases hn

theorem logged_start : Logged {} [] := by
  refine ⟨fun c n => ?_, fun n => rfl, fun c n hes => ?_, nofun, nofun, nofun⟩
  · simp [Table.creator]
  · simp at hes

/-- In every run of the daemon a handle is deinitialised once, never under a call, and by
the thread of its own connection. -/
theorem handles_lifecycle (fns : List Fn) {as : List Label} {c : Config Table Event}
    (hrun : exec (Table.step fns) ⟨{}, []⟩ as = some c) : Lifecycle c.state c.log := by
  have hinv : Owned c.state c.log ∧ Logged c.state c.log := by
    refine exec_invariant (I := fun t log => Owned t log ∧ Logged t log) (fun hi hs => ?_) ⟨owned_start, logged_start⟩ hrun
    have hm := step_move hs
    exact ⟨hi.1.step hm, hi.2.step hi.1 hm⟩
  exact hinv.1.lifecycle hinv.2

/-- A call and a CANCEL of it, then the next call, and the connection goes. -/
def cancelledStatement : List Label :=
  [.accept, .accept, .thread 1 { request := some (.init (initPayload (ascii "f") [])) },
    .thread 1 { init := .accepted [] 21 false }, .thread 1 {}, .thread 1 {}, .thread 1 {},
    .thread 1 { request := some (.call 0 (callPayload (ascii "f") 1 0 [])) }, .thread 1 {}, .thread 1 {}, .thread 1 {},
    .thread 2 { request := some (.cancel (leBytes 8 1)) }, .thread 1 {}, .thread 1 {},
    .thread 1 { request := some (.call 0 (callPayload (ascii "f") 1 0 [])) }, .thread 1 {}, .thread 1 {}, .thread 1 {},
    .thread 1 { sent := false }, .thread 1 {}, .thread 1 {}]

theorem cancelledStatement_lifecycle :
    ∃ c, exec (Table.step sampleFns) ⟨{}, []⟩ cancelledStatement = some c ∧
      c.log = [.created 1 0, .linked 1 0, .passed 1 0, .cancelled 2 0, .replied 1 0 .ok, .passed 1 0, .replied 1 0 .busy,
        .unlinked 1 0, .deinited 1 0, .ended 1] ∧ Lifecycle c.state c.log := by
  have hsome : (exec (Table.step sampleFns) ⟨{}, []⟩ cancelledStatement).any (fun c => c.log =
      [.created 1 0, .linked 1 0, .passed 1 0, .cancelled 2 0, .replied 1 0 .ok, .passed 1 0, .replied 1 0 .busy,
        .unlinked 1 0, .deinited 1 0, .ended 1]) = true := by
    decide
  obtain ⟨c, hrun, hlog⟩ := (Option.any_eq_true _ _).mp hsome
  exact ⟨c, hrun, of_decide_eq_true hlog, handles_lifecycle sampleFns hrun⟩

end FractalSQL.Service.HandleTable
