import FractalSQL.Service.Handles

/-!
# Handle numbers within one daemon lifetime

The daemon numbers its handles with a counter. An id is taken before the reply is
built, so a thread can hold an id that is not minted yet. As long as the counter
does not wrap, no id is minted twice in one lifetime.
-/
namespace FractalSQL.Service
open Lib

/-- How a move deals with ids: it can take the next one, and mint the one it holds. -/
structure IdMove (d : Daemon) (l : DaemonLabel) (d' : Daemon) (es : List DaemonEvent) : Prop where
  grows : d.nextHandle ≤ d'.nextHandle
  linking : ∀ c h b, d'.threads c = some (.linking h b) → d.threads c = some (.linking h b) ∨
    (c = l.conn d ∧ h.id.toNat = d.nextHandle ∧ d'.nextHandle = d.nextHandle + 1)
  mints : ∀ c id, .minted c id ∈ es → es = [.minted c id] ∧
    (∃ h b, h.id = id ∧ d.threads (l.conn d) = some (.linking h b)) ∧
    ∀ h b, d'.threads (l.conn d) ≠ some (.linking h b)

section Move
variable {d d₁ d' : Daemon} {l : DaemonLabel} {es : List DaemonEvent}

/-- A thread moves to a phase in which it holds no id, and mints nothing. -/
theorem idMove_setPhase {conn : ℕ} {phase : Phase} (hthreads : d₁.threads = d.threads)
    (hnext : d₁.nextHandle = d.nextHandle) (hphase : ∀ h b, phase ≠ .linking h b)
    (hes : ∀ c id, .minted c id ∉ es) : IdMove d l (d₁.setPhase conn phase) es where
  grows := hnext.ge
  linking c h b hc := by
    rw [setPhase_threads, hthreads] at hc
    split at hc
    · exact absurd (Option.some.inj hc) (hphase h b)
    · exact .inl hc
  mints c id hmem := absurd hmem (hes c id)

theorem move_idMove (hm : Move d l d' es) (hwrap : d.nextHandle < 2 ^ 64) : IdMove d l d' es := by
  cases hm with
  | @takeId conn outcome req fn types maxLength maybeNull hphase =>
    refine ⟨Nat.le_succ _, fun c h b hc => ?_, by simp⟩
    rw [setPhase_threads] at hc
    split at hc
    · cases hc
      exact .inr ⟨by assumption, UInt64.toNat_ofNat_of_lt' hwrap, rfl⟩
    · exact .inl hc
  | @link conn h maybeNull hphase =>
    refine ⟨le_rfl, fun c h' b hc => ?_, fun c id hmem => ?_⟩
    · rw [Daemon.answer, setPhase_threads] at hc
      split at hc
      · cases hc
      · exact .inl hc
    · cases List.mem_singleton.mp hmem
      refine ⟨rfl, ⟨h, maybeNull, rfl, hphase⟩, fun h' b hc => ?_⟩
      cases setPhase_self hc
  | close =>
    refine ⟨le_rfl, fun c h b hc => ?_, by simp⟩
    rw [release_threads] at hc
    split at hc
    · cases hc
    · exact .inl hc
  | unkept _ _ hd =>
    exact idMove_setPhase (by rcases hd with rfl | rfl <;> rfl) (by rcases hd with rfl | rfl <;> rfl)
      (by simp) (by simp)
  | deinit _ _ hes => exact idMove_setPhase rfl rfl (by simp) (by rcases hes with rfl | rfl <;> simp)
  | accept | refuse | beginInit | beginCall | beginUntokened | cancel | replay | miss | found | sawMark
  | unmarked | clearMark | start | bodyFailed | coreMarked | kept | store | sent =>
    exact idMove_setPhase rfl rfl (by simp) (by simp)

end Move

/-! ### The invariant -/

/-- The id was minted on the connection while the frame was served. -/
def Minted (log : List SystemEvent) (k : Sock) (f : Option Frame) (id : UInt64) : Prop :=
  ∃ conn, .served k f (.minted conn id) ∈ log

/-- The ids minted in one lifetime and those held by its threads are all different. -/
structure Minting (s : System) (log : List SystemEvent) : Prop where
  below : ∀ k f id, Minted log k f id → k.epoch ≤ s.epoch ∧
    (k.epoch = s.epoch → id.toNat < s.daemon.nextHandle)
  unique : ∀ k k' f f' id, Minted log k f id → Minted log k' f' id → k.epoch = k'.epoch → f = f'
  held : ∀ c h b, s.daemon.threads c = some (.linking h b) → h.id.toNat < s.daemon.nextHandle ∧
    ∀ k f, Minted log k f h.id → k.epoch ≠ s.epoch
  distinct : ∀ c c' h h' b b', s.daemon.threads c = some (.linking h b) →
    s.daemon.threads c' = some (.linking h' b') → h.id = h'.id → c = c'

section Step
variable {fns : List Fn} {s s' : System} {log es : List SystemEvent} {l : SystemLabel}

/-- A step that mints nothing and leaves the daemon alone. -/
theorem Minting.keep (h : Minting s log) (hepoch : s'.epoch = s.epoch) (hdaemon : s'.daemon = s.daemon)
    (hes : ∀ k f e, .served k f e ∉ es) : Minting s' (log ++ es) := by
  have hold {k : Sock} {f : Option Frame} {id : UInt64} (hm : Minted (log ++ es) k f id) :
      Minted log k f id := by
    obtain ⟨conn, hmem⟩ := hm
    exact ⟨conn, (List.mem_append.mp hmem).resolve_right (hes _ _ _)⟩
  refine ⟨fun k f id hm => ?_, fun k k' f f' id hm hm' => h.unique k k' f f' id (hold hm) (hold hm'),
    fun c hd b hc => ?_, fun c c' hd hd' b b' hc hc' => ?_⟩
  · rw [hepoch, hdaemon]
    exact h.below k f id (hold hm)
  · rw [hdaemon] at hc
    rw [hepoch, hdaemon]
    exact ⟨(h.held c hd b hc).1, fun k f hm => (h.held c hd b hc).2 k f (hold hm)⟩
  · rw [hdaemon] at hc hc'
    exact h.distinct c c' hd hd' b b' hc hc'

theorem minted_served {k k' : Sock} {f f' : Option Frame} {des : List DaemonEvent} {id : UInt64}
    (h : Minted (log ++ des.map (.served k f)) k' f' id) :
    Minted log k' f' id ∨ k' = k ∧ f' = f ∧ ∃ conn, .minted conn id ∈ des := by
  obtain ⟨conn, hmem⟩ := h
  rcases List.mem_append.mp hmem with hold | hnew
  · exact .inl ⟨conn, hold⟩
  · obtain ⟨e, he, heq⟩ := List.mem_map.mp hnew
    cases heq
    exact .inr ⟨rfl, rfl, conn, he⟩

/-- A step of the daemon. What it mints it held, so nobody else has minted it. -/
theorem Minting.daemon (h : Minting s log) {dl : DaemonLabel} {d : Daemon} {des : List DaemonEvent}
    {f : Option Frame} (hid : IdMove s.daemon dl d des) (hs : s'.epoch = s.epoch) (hd : s'.daemon = d) :
    Minting s' (log ++ des.map (.served ⟨s.epoch, dl.conn s.daemon⟩ f)) := by
  subst hd
  have hgrows := hid.grows
  have hfresh {conn : ℕ} {id : UInt64} (hmem : .minted conn id ∈ des) :
      id.toNat < s.daemon.nextHandle ∧ ∀ k f, Minted log k f id → k.epoch ≠ s.epoch := by
    obtain ⟨-, ⟨hd, b, rfl, hc⟩, -⟩ := hid.mints conn id hmem
    exact h.held _ hd b hc
  refine ⟨fun k g id hm => ?_, fun k k' g g' id hm hm' heq => ?_, fun c hd b hc => ?_,
    fun c c' hd hd' b b' hc hc' heq => ?_⟩
  · rw [hs]
    rcases minted_served hm with hold | ⟨rfl, -, conn, hnew⟩
    · obtain ⟨hle, hlt⟩ := h.below k g id hold
      exact ⟨hle, fun he => (hlt he).trans_le hgrows⟩
    · exact ⟨le_rfl, fun _ => (hfresh hnew).1.trans_le hgrows⟩
  · rcases minted_served hm with hold | ⟨rfl, rfl, conn, hnew⟩ <;>
      rcases minted_served hm' with hold' | ⟨rfl, rfl, conn', hnew'⟩
    · exact h.unique k k' g g' id hold hold' heq
    · exact absurd heq ((hfresh hnew').2 k g hold)
    · exact absurd heq.symm ((hfresh hnew).2 k' g' hold')
    · rfl
  · rw [hs]
    rcases hid.linking c hd b hc with hold | ⟨rfl, hnat, hnext⟩
    · obtain ⟨hlt, hno⟩ := h.held c hd b hold
      refine ⟨hlt.trans_le hgrows, fun k g hm => ?_⟩
      rcases minted_served hm with hold' | ⟨-, -, conn, hnew⟩
      · exact hno k g hold'
      · obtain ⟨-, ⟨hd', b', hsame, hc'⟩, hgone⟩ := hid.mints conn _ hnew
        obtain rfl := h.distinct c _ hd hd' b b' hold hc' hsame.symm
        exact absurd hc (hgone hd b)
    · refine ⟨by omega, fun k g hm he => ?_⟩
      rcases minted_served hm with hold' | ⟨-, -, conn, hnew⟩
      · have hlt := (h.below k g _ hold').2 he
        omega
      · have hlt := (hfresh hnew).1
        omega
  · rcases hid.linking c hd b hc with hold | ⟨rfl, hnat, -⟩ <;>
      rcases hid.linking c' hd' b' hc' with hold' | ⟨rfl, hnat', -⟩
    · exact h.distinct c c' hd hd' b b' hold hold' heq
    · have hlt := (h.held c hd b hold).1
      rw [heq, hnat'] at hlt
      omega
    · have hlt := (h.held c' hd' b' hold').1
      rw [← heq, hnat] at hlt
      omega
    · rfl

theorem Minting.move (h : Minting s log) (hm : SystemMove fns s l s' es)
    (hwrap : s.daemon.nextHandle < 2 ^ 64) : Minting s' (log ++ es) := by
  cases hm with
  | receive _ hstep => exact h.daemon (move_idMove (step_move hstep) hwrap) rfl rfl
  | daemon hstep => exact h.daemon (move_idMove (step_move hstep) hwrap) rfl rfl
  | newConn =>
    have hid : IdMove s.daemon .accept s.daemon.accept [] := move_idMove .accept hwrap
    have haccept : Minting { s with daemon := s.daemon.accept } (log ++ []) :=
      h.daemon (f := none) hid rfl rfl
    rw [List.append_nil] at haccept
    exact haccept.keep rfl rfl (by simp)
  | restart =>
    rw [List.append_nil]
    refine ⟨fun k f id hm => ?_, h.unique, fun _ _ _ hc => (by cases hc),
      fun _ _ _ _ _ _ hc => (by cases hc)⟩
    have hle : k.epoch ≤ s.epoch := (h.below k f id hm).1
    exact ⟨hle.trans (Nat.le_succ _), fun heq => absurd heq (Nat.ne_of_lt (Nat.lt_succ_of_le hle))⟩
  | udfInit | udfCall | udfDeinit | forget | keepConn | retry | hook | write | writeFailed | recv =>
    exact h.keep rfl rfl (by simp)

end Step

end FractalSQL.Service
