import FractalSQL.Lib.Ring
import FractalSQL.Session.Registry

/-!
# The destructive latch

`fractal_lock_destructive` latches a session id; the ledger mutators and the audit
log refuse a latched id. The latched ids are kept apart from the session entries,
in a ring that overwrites its oldest slot, so a run keeps every latch exactly as
long as the ids it locked fit into the ring.
-/
namespace FractalSQL.Session
open Lib

/-- `FSQL_LOCKED_RING`. -/
def lockedRing : ℕ := 16384

/-- `g_locked_ids`, `g_locked_n` and `g_locked_head`. -/
abbrev Latch := Ring UInt64 lockedRing

/-- `fractal_session_destructive_locked`. -/
def destructiveLocked (latch : Latch) (id : UInt64) : Bool := latch.mem id

/-- `fractal_session_lock_destructive`. -/
def lockDestructive (latch : Latch) (id : UInt64) : Latch :=
  if latch.mem id then latch else latch.push id

/-- The state of the daemon process that these calls share. -/
structure Process where
  registry : Registry := []
  latch : Latch := Ring.empty 0

/-- The calls that reach the session module. A NULL id is `none`; the sweep and the
eviction of entries happen inside the acquires and the setters. -/
inductive Op where
  | lockDestructive (id : Option UInt64)
  | acquire (id : UInt64) (env : CallEnv)
  | acquireExclusive (id : UInt64) (env : CallEnv)
  | release (id : UInt64)
  | releaseExclusive (id : UInt64)
  | close (id : UInt64)
  | setAgentPartial (id : UInt64) (on : Bool) (env : CallEnv)
  | setDiversifyEnabled (id : UInt64) (on : Bool) (env : CallEnv)

def Process.step (p : Process) : Op → Process
  | .lockDestructive none => p
  | .lockDestructive (some id) => { p with latch := Session.lockDestructive p.latch id }
  | .acquire id env => { p with registry := (sessionAcquire p.registry id env).1 }
  | .acquireExclusive id env => { p with registry := (sessionAcquireExclusive p.registry id env).1 }
  | .release id => { p with registry := sessionRelease p.registry id }
  | .releaseExclusive id => { p with registry := sessionReleaseExclusive p.registry id }
  | .close id => { p with registry := sessionRegistryClose p.registry id }
  | .setAgentPartial id on env => { p with registry := Session.setAgentPartial p.registry id on env }
  | .setDiversifyEnabled id on env =>
    { p with registry := Session.setDiversifyEnabled p.registry id on env }

/-- The process after a sequence of calls. -/
def runOps (ops : List Op) : Process := ops.foldl Process.step {}

def Op.locks : Op → Option UInt64
  | .lockDestructive id => id
  | _ => none

/-- The ids that a sequence of calls locked. -/
def lockedIds (ops : List Op) : List UInt64 := ops.filterMap Op.locks

/-- At every point of the run each id locked so far is locked. -/
def OneWay (ops : List Op) : Prop :=
  ∀ before, before <+: ops → ∀ id ∈ lockedIds before, destructiveLocked (runOps before).latch id

/-- What a call does to the latch. -/
theorem step_latch (p : Process) (op : Op) :
    (p.step op).latch = match op.locks with
      | some id => lockDestructive p.latch id
      | none => p.latch := by
  cases op with
  | lockDestructive id => cases id <;> rfl
  | _ => rfl

theorem runOps_concat (ops : List Op) (op : Op) : runOps (ops ++ [op]) = (runOps ops).step op := by
  simp [runOps]

theorem lockedIds_concat (ops : List Op) (op : Op) :
    lockedIds (ops ++ [op]) = lockedIds ops ++ op.locks.toList := by
  cases h : op.locks <;> simp [lockedIds, List.filterMap_append, h]

/-- The latch holds the ids locked so far, one slot for each. -/
structure Kept (ops : List Op) : Prop where
  used : (runOps ops).latch.used = (lockedIds ops).toFinset.card
  mem (id : UInt64) : destructiveLocked (runOps ops).latch id ↔ id ∈ lockedIds ops

theorem Kept.concat {ops : List Op} {op : Op} (h : Kept ops)
    (hcard : (lockedIds (ops ++ [op])).toFinset.card ≤ lockedRing) : Kept (ops ++ [op]) := by
  have hlatch := step_latch (runOps ops) op
  rw [← runOps_concat] at hlatch
  cases hop : op.locks with
  | none =>
    have hids : lockedIds (ops ++ [op]) = lockedIds ops := by simp [lockedIds_concat, hop]
    simp only [hop] at hlatch
    exact ⟨by rw [hlatch, hids, h.used], fun id => by rw [hlatch, hids, h.mem]⟩
  | some id =>
    have hids : lockedIds (ops ++ [op]) = lockedIds ops ++ [id] := by simp [lockedIds_concat, hop]
    simp only [hop] at hlatch
    by_cases hmem : id ∈ lockedIds ops
    · have hkeep : lockDestructive (runOps ops).latch id = (runOps ops).latch :=
        if_pos ((h.mem id).mpr hmem)
      refine ⟨?_, fun j => ?_⟩
      · rw [hlatch, hids, hkeep, h.used]
        simp [hmem]
      · rw [hlatch, hids, hkeep, h.mem]
        simp only [List.mem_append, List.mem_singleton]
        exact ⟨.inl, fun hj => hj.elim (fun hj => hj) fun hj => hj ▸ hmem⟩
    · have hnew : lockDestructive (runOps ops).latch id = (runOps ops).latch.push id :=
        if_neg fun hl => hmem ((h.mem id).mp hl)
      have hcount : (lockedIds (ops ++ [op])).toFinset.card = (lockedIds ops).toFinset.card + 1 := by
        rw [hids]
        simp [hmem]
      have hroom : (runOps ops).latch.used < lockedRing := by
        rw [h.used]
        omega
      refine ⟨?_, fun j => ?_⟩
      · rw [hlatch, hnew, hcount, ← h.used]
        exact if_pos hroom
      · rw [hlatch, hnew, hids, destructiveLocked, Ring.mem_push hroom]
        have hj := h.mem j
        rw [destructiveLocked] at hj
        rw [hj, List.mem_append, List.mem_singleton, or_comm]

/-- While the locked ids fit into the ring, all of them stay latched. -/
theorem kept_of_card_le (ops : List Op) (hcard : (lockedIds ops).toFinset.card ≤ lockedRing) :
    Kept ops := by
  induction ops using List.reverseRecOn with
  | nil => exact ⟨rfl, fun id => by simp [destructiveLocked, runOps, lockedIds]⟩
  | append_singleton ops op ih =>
    have hsub : (lockedIds ops).toFinset ⊆ (lockedIds (ops ++ [op])).toFinset := by
      intro id hid
      rw [List.mem_toFinset] at hid ⊢
      rw [lockedIds_concat]
      exact List.mem_append_left _ hid
    exact (ih ((Finset.card_le_card hsub).trans hcard)).concat hcard

theorem lockedIds_mono {before ops : List Op} (h : before <+: ops) :
    (lockedIds before).toFinset ⊆ (lockedIds ops).toFinset := by
  obtain ⟨after, rfl⟩ := h
  intro id hid
  rw [List.mem_toFinset] at hid ⊢
  rw [lockedIds, List.filterMap_append]
  exact List.mem_append_left _ hid

/-- The latch is one-way over a run exactly when the run locks at most as many ids as
the ring has slots. -/
theorem latch_one_way_iff (ops : List Op) :
    OneWay ops ↔ (lockedIds ops).toFinset.card ≤ lockedRing := by
  constructor
  · intro h
    have hall (id : UInt64) (hid : id ∈ (lockedIds ops).toFinset) : (runOps ops).latch.mem id = true :=
      h ops List.prefix_rfl id (List.mem_toFinset.mp hid)
    exact (Ring.card_le_used hall).trans (runOps ops).latch.used_le
  · intro hcard before hbefore id hid
    have hkept := kept_of_card_le before ((Finset.card_le_card (lockedIds_mono hbefore)).trans hcard)
    exact (hkept.mem id).mpr hid

/-! ### A ring that is locked past its end -/

/-- The ids from 0 to `n - 1` are locked in turn. -/
def lockFirst (n : ℕ) : List Op := (List.range n).map fun i => .lockDestructive (some (UInt64.ofNat i))

theorem lockFirst_succ (n : ℕ) :
    (runOps (lockFirst (n + 1))).latch = lockDestructive (runOps (lockFirst n)).latch (UInt64.ofNat n) := by
  have happend : lockFirst (n + 1) = lockFirst n ++ [.lockDestructive (some (UInt64.ofNat n))] := by
    simp [lockFirst, List.range_succ]
  rw [happend, runOps_concat]
  rfl

theorem ofNat_inj_of_le {i n : ℕ} (hi : i ≤ lockedRing) (hn : n ≤ lockedRing)
    (h : UInt64.ofNat i = UInt64.ofNat n) : i = n := by
  have hmod := congrArg UInt64.toNat h
  simp only [UInt64.toNat_ofNat'] at hmod
  unfold lockedRing at hi hn
  omega

/-- Up to the capacity the id `i` stands in the slot `i`. -/
theorem lockFirst_slots (n : ℕ) (hn : n ≤ lockedRing) :
    (runOps (lockFirst n)).latch.used = n ∧ (runOps (lockFirst n)).latch.head = n % lockedRing ∧
      ∀ i < n, (runOps (lockFirst n)).latch.slots i = UInt64.ofNat i := by
  induction n with
  | zero => exact ⟨rfl, rfl, fun i hi => absurd hi (Nat.not_lt_zero i)⟩
  | succ n ih =>
    obtain ⟨hused, hhead, hslots⟩ := ih (by omega)
    have habsent : ¬ (runOps (lockFirst n)).latch.mem (UInt64.ofNat n) = true := by
      rw [Ring.mem_iff, hused]
      rintro ⟨i, hi, heq⟩
      rw [hslots i hi] at heq
      have := ofNat_inj_of_le (by omega) (by omega) heq
      omega
    rw [lockFirst_succ, lockDestructive, if_neg habsent]
    refine ⟨?_, ?_, fun i hi => ?_⟩
    · simp only [Ring.push, hused]
      exact if_pos hn
    · simp only [Ring.push, hhead]
      exact Nat.mod_add_mod n lockedRing 1
    · simp only [Ring.push, Function.update_apply, hhead, Nat.mod_eq_of_lt hn]
      split
      · rename_i heq
        rw [heq]
      · exact hslots i (by omega)

/-- After one id more than the ring has slots, the id that was locked first is no
longer locked. -/
theorem first_latch_dropped :
    0 ∈ lockedIds (lockFirst (lockedRing + 1)) ∧
      destructiveLocked (runOps (lockFirst (lockedRing + 1))).latch 0 = false := by
  obtain ⟨hused, hhead, hslots⟩ := lockFirst_slots lockedRing le_rfl
  have habsent : ¬ (runOps (lockFirst lockedRing)).latch.mem (UInt64.ofNat lockedRing) = true := by
    rw [Ring.mem_iff, hused]
    rintro ⟨i, hi, heq⟩
    rw [hslots i hi] at heq
    have := ofNat_inj_of_le (by omega) (by omega) heq
    omega
  constructor
  · simp [lockedIds, lockFirst, Op.locks, List.filterMap_map, Function.comp_def]
    exact ⟨0, by simp, rfl⟩
  · rw [lockFirst_succ, lockDestructive, if_neg habsent, destructiveLocked, Bool.eq_false_iff, ne_eq,
      Ring.mem_iff]
    simp only [Ring.push, hused, hhead, Nat.mod_self, Function.update_apply, lt_irrefl, if_false]
    rintro ⟨i, hi, heq⟩
    split at heq
    · exact absurd heq (by decide)
    · rename_i hne
      rw [hslots i hi] at heq
      exact hne (ofNat_inj_of_le (by omega) (by omega) heq)

end FractalSQL.Session
