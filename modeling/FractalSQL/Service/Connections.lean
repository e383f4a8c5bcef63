import FractalSQL.Service.Transitions

/-!
# Connections and their generations

Every connection of the shim has a generation of its own, and the socket in use is
the one of the current generation. Only a connect moves the generation on; the
ends of a roundtrip can close the socket, but not replace it.
-/
namespace FractalSQL.Service
open Lib

/-! ### What the ends of a roundtrip leave alone -/

section Roundtrip
variable (s : Shim) (x : Exchange)

theorem giveUp_gen : s.giveUp.gen = s.gen := by
  unfold Shim.giveUp
  split
  case h_5 => split <;> rfl
  all_goals rfl

theorem giveUp_fd : s.giveUp.fd = s.fd ∨ s.giveUp.fd = none := by
  unfold Shim.giveUp
  split
  case h_5 => split <;> exact .inr rfl
  all_goals exact .inl rfl

theorem retry_gen : (s.retry x).gen = s.gen := by
  unfold Shim.retry
  split
  · rfl
  · exact giveUp_gen _

theorem retry_fd : (s.retry x).fd = none := by
  unfold Shim.retry
  split
  · rfl
  · rcases giveUp_fd { s with fd := none } with h | h <;> exact h

theorem answered_gen (reply : Reply) (stmtOk : Bool) : (s.answered reply stmtOk).gen = s.gen := by
  unfold Shim.answered
  split
  case h_4 => split <;> rfl
  case h_5 =>
    split
    · split <;> rfl
    · rfl
  all_goals rfl

theorem answered_fd (reply : Reply) (stmtOk : Bool) :
    (s.answered reply stmtOk).fd = s.fd ∨ (s.answered reply stmtOk).fd = none := by
  unfold Shim.answered
  split
  case h_4 => split <;> exact .inl rfl
  case h_5 =>
    split
    · split
      · exact .inl rfl
      · exact .inr rfl
    · exact .inr rfl
  all_goals exact .inl rfl

theorem callReconnect_gen (stmt : ℕ) : (s.callReconnect stmt x).gen = s.gen := by
  unfold Shim.callReconnect
  split
  · split <;> rfl
  · rfl

theorem callReconnect_fd (stmt : ℕ) : (s.callReconnect stmt x).fd = s.fd := by
  unfold Shim.callReconnect
  split
  · split <;> rfl
  · rfl

end Roundtrip

/-! ### Generations -/

/-- Generations number the connections, and the socket in use has the current one. -/
structure Numbered (s : System) (log : List SystemEvent) : Prop where
  known : ∀ k g, .connected k g ∈ log → g ≤ s.shim.gen ∧
    (k.epoch < s.epoch ∨ k.epoch = s.epoch ∧ k.conn < s.daemon.nextConn)
  oneGen : ∀ k g g', .connected k g ∈ log → .connected k g' ∈ log → g = g'
  oneSock : ∀ k k' g, .connected k g ∈ log → .connected k' g ∈ log → k = k'
  fd : ∀ k, s.shim.fd = some k → .connected k s.shim.gen ∈ log

section Numbered
variable {fns : List Fn} {s s' : System} {log es : List SystemEvent} {l : SystemLabel}

/-- A step that makes no connection. -/
theorem Numbered.keep (h : Numbered s log) (hgen : s'.shim.gen = s.shim.gen)
    (hfd : s'.shim.fd = s.shim.fd ∨ s'.shim.fd = none)
    (hconn : s.epoch < s'.epoch ∨ s'.epoch = s.epoch ∧ s.daemon.nextConn ≤ s'.daemon.nextConn)
    (hes : ∀ k g, .connected k g ∉ es) : Numbered s' (log ++ es) := by
  have hold {k : Sock} {g : ℕ} (hmem : .connected k g ∈ log ++ es) : .connected k g ∈ log :=
    (List.mem_append.mp hmem).resolve_right (hes k g)
  refine ⟨fun k g hk => ?_, fun k g g' hg hg' => h.oneGen k g g' (hold hg) (hold hg'),
    fun k k' g hk hk' => h.oneSock k k' g (hold hk) (hold hk'), fun k hk => ?_⟩
  · obtain ⟨hle, hbelow⟩ := h.known k g (hold hk)
    rw [hgen]
    exact ⟨hle, by omega⟩
  · rw [hgen]
    rcases hfd with hfd | hfd <;> rw [hfd] at hk
    · exact List.mem_append_left _ (h.fd k hk)
    · cases hk

theorem move_nextConn {d d' : Daemon} {dl : DaemonLabel} {des : List DaemonEvent}
    (h : Move d dl d' des) : d.nextConn ≤ d'.nextConn := by
  rcases move_thread h with ⟨-, rfl⟩ | ⟨-, heq⟩
  · exact Nat.le_succ _
  · exact heq.ge

theorem served_not_connected (k : Sock) (f : Option Frame) (des : List DaemonEvent) (k' : Sock) (g : ℕ) :
    .connected k' g ∉ des.map (SystemEvent.served k f) := by
  simp

theorem Numbered.newConn (h : Numbered s log) {shim : Shim} {k : Sock}
    (hk : k = ⟨s.epoch, s.daemon.nextConn⟩) (hfd : shim.fd = some k) (hgen : shim.gen = s.shim.gen + 1)
    (links : Sock → Link) :
    Numbered ⟨shim, s.epoch, s.daemon.accept, links⟩ (log ++ [.connected k (s.shim.gen + 1)]) := by
  have hcases {k' : Sock} {g : ℕ} (hmem : .connected k' g ∈ log ++ [.connected k (s.shim.gen + 1)]) :
      .connected k' g ∈ log ∧ g ≤ s.shim.gen ∧ k' ≠ k ∨ k' = k ∧ g = s.shim.gen + 1 := by
    rcases List.mem_append.mp hmem with hold | hnew
    · obtain ⟨hle, hbelow⟩ := h.known k' g hold
      refine .inl ⟨hold, hle, ?_⟩
      rintro rfl
      rw [hk] at hbelow
      exact absurd hbelow (by simp)
    · cases List.mem_singleton.mp hnew
      exact .inr ⟨rfl, rfl⟩
  refine ⟨fun k' g hmem => ?_, fun k' g g' hg hg' => ?_, fun k' k'' g hk' hk'' => ?_, fun k' hk' => ?_⟩
  · rcases hcases hmem with ⟨hold, hle, -⟩ | ⟨rfl, rfl⟩
    · refine ⟨(hle.trans (Nat.le_succ _)).trans hgen.ge, (h.known k' g hold).2.imp_right fun hb => ⟨hb.1, ?_⟩⟩
      exact Nat.lt_succ_of_lt hb.2
    · subst hk
      exact ⟨hgen.ge, .inr ⟨rfl, Nat.lt_succ_self _⟩⟩
  · rcases hcases hg with ⟨hold, -, hne⟩ | ⟨rfl, rfl⟩ <;>
      rcases hcases hg' with ⟨hold', -, hne'⟩ | ⟨heq, rfl⟩
    · exact h.oneGen k' g g' hold hold'
    · exact absurd heq hne
    · exact absurd rfl hne'
    · rfl
  · rcases hcases hk' with ⟨hold, hle, -⟩ | ⟨rfl, rfl⟩ <;>
      rcases hcases hk'' with ⟨hold', hle', -⟩ | ⟨rfl, hg⟩
    · exact h.oneSock k' k'' g hold hold'
    · omega
    · omega
    · rfl
  · rw [hfd] at hk'
    cases hk'
    rw [hgen]
    exact List.mem_append_right _ (List.mem_singleton.mpr rfl)

theorem Numbered.move (h : Numbered s log) (hm : SystemMove fns s l s' es) : Numbered s' (log ++ es) := by
  have hsame : s.epoch < s.epoch ∨ s.epoch = s.epoch ∧ s.daemon.nextConn ≤ s.daemon.nextConn :=
    .inr ⟨rfl, le_rfl⟩
  cases hm with
  | newConn => exact h.newConn rfl rfl rfl _
  | udfInit | udfCall | udfDeinit | forget | keepConn => exact h.keep rfl (.inl rfl) hsame (by simp)
  | hook => exact h.keep (callReconnect_gen ..) (.inl (callReconnect_fd ..)) hsame (by simp)
  | retry | writeFailed => exact h.keep (retry_gen ..) (.inr (retry_fd ..)) hsame (by simp)
  | write => exact h.keep rfl (.inl rfl) hsame (by simp)
  | recv _ _ _ _ hshim =>
    rcases hshim with rfl | rfl | rfl
    · exact h.keep (retry_gen ..) (.inr (retry_fd ..)) hsame (by simp)
    · exact h.keep (answered_gen ..) (answered_fd ..) hsame (by simp)
    · exact h.keep (giveUp_gen _) (giveUp_fd _) hsame (by simp)
  | receive _ hstep =>
    exact h.keep rfl (.inl rfl) (.inr ⟨rfl, move_nextConn (step_move hstep)⟩) (served_not_connected _ _ _)
  | daemon hstep =>
    exact h.keep rfl (.inl rfl) (.inr ⟨rfl, move_nextConn (step_move hstep)⟩) (served_not_connected _ _ _)
  | restart => exact h.keep rfl (.inl rfl) (.inl (Nat.lt_succ_self _)) (by simp)

end Numbered

end FractalSQL.Service
