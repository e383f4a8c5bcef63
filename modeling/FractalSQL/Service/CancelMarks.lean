import FractalSQL.Service.Ownership

/-!
# What becomes of a CANCEL

The mark is set under the lock, but read and cleared without it, in two steps. Only the
thread of the handle's connection clears it, in a call that then replies BUSY; so a mark
that is set between the two steps is answered by that reply, and one that is set after
them waits for the next call.
-/
namespace FractalSQL.Service.HandleTable
open Lib

/-- Where a CANCEL that was answered OK stands. -/
inductive Fate where
  /-- No call has passed since then. -/
  | waiting
  /-- The first later call has passed. -/
  | current
  /-- A BUSY reply, of the call in flight when the CANCEL arrived or of the first later one. -/
  | served
  /-- The first later call has another reply, and so has the one in flight. -/
  | lost
deriving DecidableEq

def Fate.step (n : ℕ) (e : Event) : Fate → Fate
  | .waiting =>
    match e with
    | .passed _ m => if m = n then .current else .waiting
    | .replied _ m status => if m = n ∧ status = .busy then .served else .waiting
    | _ => .waiting
  | .current =>
    match e with
    | .replied _ m status => if m = n then (if status = .busy then .served else .lost) else .current
    | _ => .current
  | fate => fate

def Event.cancels (n : ℕ) : Event → Bool
  | .cancelled _ m => m = n
  | _ => false

def Event.refuses (n : ℕ) : Event → Bool
  | .replied _ m status => m = n ∧ status = .busy
  | _ => false

/-- The fates of the CANCELs of a handle in the order of their replies. -/
def fates (n : ℕ) (log : List Event) : List Fate :=
  log.foldl (fun fs e => fs.map (Fate.step n e) ++ if e.cancels n then [.waiting] else []) []

structure CancelsKept (t : Table) (log : List Event) : Prop where
  notLost : ∀ n, .lost ∉ fates n log
  /-- The first later call is at the checkpoint, with the mark set. -/
  current : ∀ n, .current ∈ fates n log → t.marked n ∧ ∃ c pc, t.threads c = some pc ∧ pc.guards = some n
  waiting : ∀ n, .waiting ∈ fates n log → t.marked n
  notInvented : ∀ n, log.countP (Event.refuses n) ≤ log.countP (Event.cancels n)

/-! ### One step -/

def Fate.Sound (t : Table) (n : ℕ) : Fate → Prop
  | .waiting => t.marked n
  | .current => t.marked n ∧ ∃ c pc, t.threads c = some pc ∧ pc.guards = some n
  | .served => True
  | .lost => False

structure Marks (t : Table) (log : List Event) : Prop where
  count : ∀ n, log.countP (Event.refuses n) + (t.marked n).toNat ≤ log.countP (Event.cancels n)
  clears : ∀ c pc n, t.threads c = some pc → pc.clears = some n → t.marked n
  sound : ∀ n, ∀ fate ∈ fates n log, fate.Sound t n

theorem fates_concat (n : ℕ) (log : List Event) (e : Event) :
    fates n (log ++ [e]) = (fates n log).map (Fate.step n e) ++ if e.cancels n then [.waiting] else [] := by
  rw [fates, List.foldl_append]
  rfl

theorem Fate.step_quiet {n : ℕ} {e : Event} (hpass : ∀ c, e ≠ .passed c n) (hreply : ∀ c status, e ≠ .replied c n status)
    (fate : Fate) : fate.step n e = fate := by
  cases fate with
  | waiting =>
    cases e with
    | passed c m =>
      have hm : m ≠ n := fun h => hpass c (congrArg _ h)
      exact if_neg hm
    | replied c m status =>
      have hm : m ≠ n := fun h => hreply c status (h ▸ rfl)
      exact if_neg fun h => hm h.1
    | _ => rfl
  | current =>
    cases e with
    | replied c m status =>
      have hm : m ≠ n := fun h => hreply c status (h ▸ rfl)
      exact if_neg hm
    | _ => rfl
  | _ => rfl

theorem fates_quiet {n : ℕ} {e : Event} (hpass : ∀ c, e ≠ .passed c n) (hreply : ∀ c status, e ≠ .replied c n status)
    (hcancel : e.cancels n = false) (log : List Event) : fates n (log ++ [e]) = fates n log := by
  rw [fates_concat, hcancel]
  have hid : Fate.step n e = id := funext fun fate => fate.step_quiet hpass hreply
  simp [hid]

theorem fates_unlinked (n c : ℕ) (ms : List ℕ) (log : List Event) :
    fates n (log ++ ms.map (.unlinked c)) = fates n log := by
  induction ms generalizing log with
  | nil => simp
  | cons m ms ih =>
    have hquiet : fates n (log ++ [.unlinked c m]) = fates n log :=
      fates_quiet (by simp) (by simp) rfl log
    rw [List.map_cons, ← List.singleton_append, ← List.append_assoc, ih, hquiet]

theorem marked_mark {t : Table} (m n : ℕ) (b : Bool) :
    (t.mark m b).marked n = if m = n then (t.creator n).isSome && b else t.marked n := by
  simp only [Table.marked, Table.mark, Table.creator, List.getElem?_modify]
  cases t.nodes[n]? with
  | none => simp
  | some x =>
    by_cases hmn : m = n
    · simp [hmn]
    · simp [hmn]

theorem Place.calls_of_guards {pc : Place} {n : ℕ} (h : pc.guards = some n) : pc.calls = some n := by
  cases pc <;> first | exact h | nomatch h

section Marks
variable {t t' : Table} {log es : List Event} {c n : ℕ} {pc pc' : Place}

/-- A handle is in one call at a time. -/
theorem Owned.one_call {d : ℕ} {q : Place} (h : Owned t log) (hpc : t.threads c = some pc) (hcalls : pc.calls = some n)
    (hq : t.threads d = some q) (hqcalls : q.calls = some n) : c = d := by
  have hc := (h.calls c n (calling_of_some hpc ▸ hcalls)).2
  have hd := (h.calls d n (calling_of_some hq ▸ hqcalls)).2
  exact Option.some.inj (hc.symm.trans hd)

theorem marked_creator (h : t.marked n = true) : t.creator n ≠ none := by
  intro hn
  rw [Table.creator, Option.map_eq_none_iff] at hn
  rw [Table.marked, hn] at h
  cases h

/-- A step that says nothing of marks and leaves them alone. -/
theorem Marks.still (h : Marks t log) (hmarked : ∀ n, t'.marked n = t.marked n)
    (hfates : ∀ n, fates n (log ++ es) = fates n log)
    (hcount : ∀ n, es.countP (Event.refuses n) = 0 ∧ es.countP (Event.cancels n) = 0)
    (hclears : ∀ d q n, t'.threads d = some q → q.clears = some n → t.marked n)
    (hguards : ∀ d q n, t.threads d = some q → q.guards = some n → t.marked n →
      ∃ d' q', t'.threads d' = some q' ∧ q'.guards = some n) : Marks t' (log ++ es) := by
  refine ⟨fun n => ?_, fun d q n hq hn => ?_, fun n fate hfate => ?_⟩
  · rw [List.countP_append, List.countP_append, (hcount n).1, (hcount n).2, hmarked]
    exact h.count n
  · rw [hmarked]
    exact hclears d q n hq hn
  · rw [hfates] at hfate
    have hsound := h.sound n fate hfate
    cases fate with
    | waiting => exact (hmarked n).trans hsound
    | current =>
      obtain ⟨hmark, d, q, hq, hg⟩ := hsound
      exact ⟨(hmarked n).trans hmark, hguards d q n hq hg hmark⟩
    | served => trivial
    | lost => exact hsound

theorem Marks.clears_go (h : Marks t log) (hthreads : t'.threads = Function.update t.threads c (some pc'))
    (hpc' : ∀ n, pc'.clears = some n → t.marked n) :
    ∀ d q n, t'.threads d = some q → q.clears = some n → t.marked n := by
  intro d q n hq hn
  rw [hthreads] at hq
  by_cases hd : d = c
  · subst hd
    rw [Function.update_self] at hq
    cases hq
    exact hpc' n hn
  · rw [Function.update_of_ne hd] at hq
    exact h.clears d q n hq hn

theorem guards_go (hpc : t.threads c = some pc) (hthreads : t'.threads = Function.update t.threads c (some pc'))
    (hg : ∀ n, pc.guards = some n → t.marked n → pc'.guards = some n) :
    ∀ d q n, t.threads d = some q → q.guards = some n → t.marked n →
      ∃ d' q', t'.threads d' = some q' ∧ q'.guards = some n := by
  intro d q n hq hn hmark
  rw [hthreads]
  by_cases hd : d = c
  · subst hd
    cases hpc.symm.trans hq
    exact ⟨d, pc', Function.update_self .., hg n hn hmark⟩
  · exact ⟨d, q, (Function.update_of_ne hd _ _).trans hq, hn⟩

theorem guards_none (hcalls : pc.calls = none) : pc.guards = none := by
  cases pc <;> first | rfl | nomatch hcalls

/-- A thread that is in no call says nothing of marks. -/
theorem Marks.aside (h : Marks t log) (hpc : t.threads c = some pc) (hcalls : pc.calls = none)
    (hthreads : t'.threads = Function.update t.threads c (some pc')) (hclears : pc'.clears = none)
    (hmarked : ∀ n, t'.marked n = t.marked n) (hfates : ∀ n, fates n (log ++ es) = fates n log)
    (hcount : ∀ n, es.countP (Event.refuses n) = 0 ∧ es.countP (Event.cancels n) = 0) : Marks t' (log ++ es) := by
  refine h.still hmarked hfates hcount (h.clears_go hthreads fun n hn => ?_) (guards_go hpc hthreads fun n hn _ => ?_)
  · rw [hclears] at hn
    cases hn
  · rw [guards_none hcalls] at hn
    cases hn

theorem marked_modify {f : Node → Node} (hf : ∀ x, (f x).cancelled = x.cancelled) (m n : ℕ) :
    ((t.nodes.modify m f)[n]?).any (fun x => x.cancelled) = t.marked n := by
  rw [Table.marked, List.getElem?_modify]
  cases t.nodes[n]? with
  | none => rfl
  | some x =>
    by_cases hmn : m = n
    · simp [hmn, hf]
    · simp [hmn]

theorem marked_append {x : Node} (hx : x.cancelled = false) (n : ℕ) :
    ((t.nodes ++ [x])[n]?).any (fun x => x.cancelled) = t.marked n := by
  rw [Table.marked]
  rcases Nat.lt_trichotomy n t.nodes.length with hlt | rfl | hgt
  · rw [List.getElem?_append_left hlt]
  · simp [hx]
  · rw [List.getElem?_eq_none (by simp; omega), List.getElem?_eq_none hgt.le]

theorem Marks.accept (h : Marks t log) (hnone : t.threads t.nextConn = none) :
    Marks ({ t with nextConn := t.nextConn + 1 }.go t.nextConn .reading) (log ++ []) := by
  refine h.still (fun n => rfl) (fun n => by rw [List.append_nil]) (fun n => ⟨rfl, rfl⟩) ?_ fun d q n hq hn _ => ?_
  · apply h.clears_go rfl
    exact nofun
  · refine ⟨d, q, (Function.update_of_ne ?_ _ _).trans hq, hn⟩
    rintro rfl
    cases hnone.symm.trans hq

theorem Marks.finish (h : Marks t log) (hpc : t.threads c = some (.releasing [])) :
    Marks { t with threads := Function.update t.threads c none } (log ++ [.ended c]) := by
  refine h.still (fun n => rfl) (fun n => fates_quiet (by simp) (by simp) rfl log) (fun n => ⟨rfl, rfl⟩)
    (fun d q n hq hn => ?_) fun d q n hq hn _ => ?_
  · by_cases hd : d = c
    · subst hd
      simp at hq
    · simp only [Function.update_of_ne hd] at hq
      exact h.clears d q n hq hn
  · refine ⟨d, q, (Function.update_of_ne ?_ _ _).trans hq, hn⟩
    rintro rfl
    cases hpc.symm.trans hq
    cases hn

/-- A CANCEL that is answered OK waits. -/
theorem Marks.cancel {m : ℕ} (h : Marks t log) (hpc : t.threads c = some .reading) (hm : t.creator m ≠ none) :
    Marks ((t.mark m true).go c .replying) (log ++ [.cancelled c m]) := by
  have hmono {n : ℕ} (hn : t.marked n = true) : ((t.mark m true).go c .replying).marked n = true := by
    change (t.mark m true).marked n = true
    rw [marked_mark]
    split
    · simpa [Option.isSome_iff_ne_none] using marked_creator hn
    · exact hn
  have hself : ((t.mark m true).go c .replying).marked m = true := by
    change (t.mark m true).marked m = true
    rw [marked_mark, if_pos rfl]
    simpa [Option.isSome_iff_ne_none] using hm
  refine ⟨fun n => ?_, fun d q n hq hn => ?_, fun n fate hfate => ?_⟩
  · have hbefore := h.count n
    rw [List.countP_append, List.countP_append, List.countP_singleton, List.countP_singleton]
    by_cases hmn : m = n
    · subst hmn
      simp [Event.refuses, Event.cancels, hself]
      omega
    · have hsame : ((t.mark m true).go c .replying).marked n = t.marked n := by
        change (t.mark m true).marked n = t.marked n
        rw [marked_mark, if_neg hmn]
      simpa [Event.refuses, Event.cancels, hmn, hsame] using hbefore
  · apply hmono
    exact @Marks.clears_go t ((t.mark m true).go c .replying) log c _ h rfl nofun d q n hq hn
  · have hstep : Fate.step n (.cancelled c m) = id := funext fun fate => fate.step_quiet (by simp) (by simp)
    rw [fates_concat, hstep, List.map_id, List.mem_append] at hfate
    obtain hold | hnew := hfate
    · have hsound := h.sound n fate hold
      cases fate with
      | waiting => exact hmono hsound
      | current =>
        obtain ⟨hmark, d, q, hq, hg⟩ := hsound
        exact ⟨hmono hmark, guards_go hpc rfl nofun d q n hq hg hmark⟩
      | served => trivial
      | lost => exact hsound
    · by_cases hmn : m = n
      · subst hmn
        simp [Event.cancels] at hnew
        subst hnew
        exact hself
      · simp [Event.cancels, hmn] at hnew

/-- A call that passes takes the waiting ones with it. -/
theorem Marks.pass {m : ℕ} {call : CallRequest} (h : Marks t log) (hpc : t.threads c = some (.find call)) :
    Marks (t.go c (.checkpoint call m)) (log ++ [.passed c m]) := by
  have hguards := @guards_go t (t.go c (.checkpoint call m)) c _ _ hpc rfl nofun
  have hclears := @Marks.clears_go t (t.go c (.checkpoint call m)) log c _ h rfl nofun
  refine ⟨fun n => ?_, hclears, fun n fate hfate => ?_⟩
  · rw [List.countP_append, List.countP_append]
    exact h.count n
  · simp only [fates_concat, Event.cancels, Bool.false_eq_true, if_false, List.append_nil, List.mem_map] at hfate
    obtain ⟨fate', hold, rfl⟩ := hfate
    have hsound := h.sound n fate' hold
    cases fate' with
    | waiting =>
      rw [Fate.step]
      split
      · rename_i hmn
        subst hmn
        exact ⟨hsound, c, _, Function.update_self .., rfl⟩
      · exact hsound
    | current =>
      obtain ⟨hmark, d, q, hq, hg⟩ := hsound
      exact ⟨hmark, hguards d q n hq hg hmark⟩
    | served => trivial
    | lost => exact hsound

/-- Who saw the mark clears it and replies BUSY. -/
theorem Marks.refuse {m : ℕ} (h : Marks t log) (howned : Owned t log) (hpc : t.threads c = some pc)
    (hclears : pc.clears = some m) : Marks ((t.mark m false).go c .replying) (log ++ [.replied c m .busy]) := by
  have hmark := h.clears c pc m hpc hclears
  have hrest {n : ℕ} (hmn : m ≠ n) : ((t.mark m false).go c .replying).marked n = t.marked n := by
    change (t.mark m false).marked n = t.marked n
    rw [marked_mark, if_neg hmn]
  have hself : ((t.mark m false).go c .replying).marked m = false := by
    change (t.mark m false).marked m = false
    rw [marked_mark, if_pos rfl, Bool.and_false]
  refine ⟨fun n => ?_, fun d q n hq hn => ?_, fun n fate hfate => ?_⟩
  · have hbefore := h.count n
    rw [List.countP_append, List.countP_append, List.countP_singleton, List.countP_singleton]
    by_cases hmn : m = n
    · subst hmn
      rw [hmark] at hbefore
      simp [Event.refuses, Event.cancels, hself] at hbefore ⊢
      omega
    · simpa [Event.refuses, Event.cancels, hmn, hrest hmn] using hbefore
  · simp only [Table.go, Table.mark] at hq
    by_cases hd : d = c
    · subst hd
      rw [Function.update_self] at hq
      cases hq
      cases hn
    · rw [Function.update_of_ne hd] at hq
      have hmn : m ≠ n := by
        rintro rfl
        exact hd (howned.one_call hq (Place.calls_of_clears hn) hpc (Place.calls_of_clears hclears))
      rw [hrest hmn]
      exact h.clears d q n hq hn
  · simp only [fates_concat, Event.cancels, Bool.false_eq_true, if_false, List.append_nil, List.mem_map] at hfate
    obtain ⟨fate', hold, rfl⟩ := hfate
    have hsound := h.sound n fate' hold
    by_cases hmn : m = n
    · subst hmn
      cases fate' with
      | waiting => simp [Fate.step, Fate.Sound]
      | current => simp [Fate.step, Fate.Sound]
      | served => trivial
      | lost => exact hsound
    · rw [Fate.step_quiet (by simp) (by simp [hmn])]
      cases fate' with
      | waiting => exact (hrest hmn).trans hsound
      | current =>
        obtain ⟨hmarked, d, q, hq, hg⟩ := hsound
        refine ⟨(hrest hmn).trans hmarked, d, q, (Function.update_of_ne ?_ _ _).trans hq, hg⟩
        rintro rfl
        cases hpc.symm.trans hq
        cases (Place.calls_of_clears hclears).symm.trans (Place.calls_of_guards hg)
        exact hmn rfl
      | served => trivial
      | lost => exact hsound

theorem Marks.reply {m : ℕ} {status : Status} (h : Marks t log) (howned : Owned t log) (hpc : t.threads c = some pc)
    (hcalls : pc.calls = some m) (hguards : pc.guards = none) (hstatus : status ≠ .busy) :
    Marks (t.go c .replying) (log ++ [.replied c m status]) := by
  have hfrom := @guards_go t (t.go c .replying) c _ _ hpc rfl fun n hn _ => nomatch hguards.symm.trans hn
  have hclears := @Marks.clears_go t (t.go c .replying) log c _ h rfl nofun
  refine ⟨fun n => ?_, hclears, fun n fate hfate => ?_⟩
  · have hsame : (t.go c .replying).marked n = t.marked n := rfl
    rw [List.countP_append, List.countP_append, List.countP_singleton, List.countP_singleton, hsame]
    simpa [Event.refuses, Event.cancels, hstatus] using h.count n
  · simp only [fates_concat, Event.cancels, Bool.false_eq_true, if_false, List.append_nil, List.mem_map] at hfate
    obtain ⟨fate', hold, rfl⟩ := hfate
    have hsound := h.sound n fate' hold
    cases fate' with
    | waiting =>
      rw [Fate.step, if_neg fun hb => hstatus hb.2]
      exact hsound
    | current =>
      obtain ⟨hmark, d, q, hq, hg⟩ := hsound
      have hmn : m ≠ n := by
        rintro rfl
        cases howned.one_call hpc hcalls hq (Place.calls_of_guards hg)
        cases hpc.symm.trans hq
        cases hguards.symm.trans hg
      rw [Fate.step, if_neg hmn]
      exact ⟨hmark, hfrom d q n hq hg hmark⟩
    | served => trivial
    | lost => exact hsound

theorem Marks.step (h : Marks t log) (howned : Owned t log) (hm : Move t t' es) : Marks t' (log ++ es) := by
  cases hm with
  | accept =>
    apply h.accept
    by_contra hsome
    exact absurd (howned.below _ hsome) (Nat.lt_irrefl _)
  | @walk c pc pc' hpc howes hcalls hguards hclears =>
    refine h.still (fun n => rfl) (fun n => by rw [List.append_nil]) (fun n => ⟨rfl, rfl⟩) ?_ ?_
    · exact h.clears_go rfl hclears
    · exact guards_go hpc rfl hguards
  | name hpc =>
    refine h.aside hpc rfl rfl rfl (fun n => ?_) (fun n => by rw [List.append_nil]) fun n => ⟨rfl, rfl⟩
    apply marked_modify
    intro x
    rfl
  | create hpc _ hcalls _ hmark =>
    exact h.aside hpc hcalls rfl rfl (fun n => marked_append hmark n) (fun n => fates_quiet (by simp) (by simp) rfl log)
      fun n => ⟨rfl, rfl⟩
  | link hpc =>
    refine h.aside hpc rfl rfl rfl (fun n => ?_) (fun n => fates_quiet (by simp) (by simp) rfl log) fun n => ⟨rfl, rfl⟩
    apply marked_modify
    intro x
    rfl
  | cancel hpc hmem =>
    apply h.cancel hpc
    obtain ⟨d, hd, -⟩ := howned.owner _ hmem
    rw [hd]
    exact nofun
  | pass hpc => exact h.pass hpc
  | refuse hpc hclears => exact h.refuse howned hpc hclears
  | reply hpc hcalls hguards hstatus => exact h.reply howned hpc hcalls hguards hstatus
  | unlink hpc =>
    exact h.aside hpc rfl rfl rfl (fun n => rfl) (fun n => fates_quiet (by simp) (by simp) rfl log) fun n => ⟨rfl, rfl⟩
  | @leave c pc hpc _ hcalls =>
    refine h.aside hpc hcalls rfl rfl (fun n => rfl) (fun n => fates_unlinked n c _ log) fun n => ?_
    simp [Table.leave, List.countP_map, Function.comp_def, Event.refuses, Event.cancels]
  | deinit hpc _ hcalls _ hclears =>
    exact h.aside hpc hcalls rfl hclears (fun n => rfl) (fun n => fates_quiet (by simp) (by simp) rfl log)
      fun n => ⟨rfl, rfl⟩
  | finish hpc => exact h.finish hpc

end Marks

theorem marks_start : Marks {} [] := ⟨fun _ => Nat.le_refl 0, nofun, nofun⟩

/-- In every run of the daemon a CANCEL answered OK is answered BUSY by the call in flight
or refuses the next one, and no call is refused without one. -/
theorem cancels_kept (fns : List Fn) {as : List Label} {c : Config Table Event}
    (hrun : exec (Table.step fns) ⟨{}, []⟩ as = some c) : CancelsKept c.state c.log := by
  have hinv : Owned c.state c.log ∧ Marks c.state c.log := by
    refine exec_invariant (I := fun t log => Owned t log ∧ Marks t log) (fun hi hs => ?_) ⟨owned_start, marks_start⟩ hrun
    have hm := step_move hs
    exact ⟨hi.1.step hm, hi.2.step hi.1 hm⟩
  obtain ⟨-, hmarks⟩ := hinv
  refine ⟨fun n hlost => hmarks.sound n _ hlost, fun n hcur => hmarks.sound n _ hcur,
    fun n hwait => hmarks.sound n _ hwait, fun n => ?_⟩
  exact (Nat.le_add_right _ _).trans (hmarks.count n)

theorem cancelledStatement_cancels :
    ∃ c, exec (Table.step sampleFns) ⟨{}, []⟩ cancelledStatement = some c ∧ fates 0 c.log = [.served] ∧
      CancelsKept c.state c.log := by
  have hsome : (exec (Table.step sampleFns) ⟨{}, []⟩ cancelledStatement).any (fun c => fates 0 c.log = [.served]) =
      true := by
    decide
  obtain ⟨c, hrun, hfates⟩ := (Option.any_eq_true _ _).mp hsome
  exact ⟨c, hrun, of_decide_eq_true hfates, cancels_kept sampleFns hrun⟩

/-- A call at the checkpoint of a marked handle is refused in its next steps, whatever the
environment decides. -/
theorem guarded_call_refused (fns : List Fn) {t : Table} {c n : ℕ} {pc : Place} (hpc : t.threads c = some pc)
    (hguards : pc.guards = some n) (hmark : t.marked n) (o : Choice) :
    t.step fns (.thread c o) = some (t.go c (.clearMark n), []) ∨
      t.step fns (.thread c o) = some ((t.mark n false).go c .replying, [.replied c n .busy]) := by
  rw [Table.step, hpc, Option.bind_some]
  cases pc with
  | checkpoint call m =>
    cases hguards
    rw [Table.advance, if_pos hmark]
    exact .inl rfl
  | clearMark m =>
    cases hguards
    exact .inr rfl
  | _ => cases hguards

end FractalSQL.Service.HandleTable
