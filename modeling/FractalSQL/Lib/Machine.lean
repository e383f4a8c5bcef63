import Mathlib.Tactic

/-!
# Labelled machines with an event log

A machine is a partial step function. Its label carries everything the
environment decides, so a run is the list of its labels and can be replayed. A
step reports events, and a configuration is a state with the events so far.
-/
namespace FractalSQL.Lib

variable {σ α ε : Type*} (step : σ → α → Option (σ × List ε))

structure Config (σ ε : Type*) where
  state : σ
  log : List ε := []

/-- The configuration after a list of labels, if each of them is enabled. -/
def exec : Config σ ε → List α → Option (Config σ ε)
  | c, [] => some c
  | c, a :: as =>
    match step c.state a with
    | none => none
    | some (s, es) => exec ⟨s, c.log ++ es⟩ as

/-- Every step of a run is taken from a configuration that meets `P`. -/
def StepsMeet (P : σ → List ε → α → Prop) : Config σ ε → List α → Prop
  | _, [] => True
  | c, a :: as => P c.state c.log a ∧
    match step c.state a with
    | none => True
    | some (s, es) => StepsMeet P ⟨s, c.log ++ es⟩ as

instance StepsMeet.decidable (P : σ → List ε → α → Prop) [∀ s log a, Decidable (P s log a)] :
    (c : Config σ ε) → (as : List α) → Decidable (StepsMeet step P c as)
  | _, [] => isTrue trivial
  | c, a :: as =>
    have : Decidable (match step c.state a with
        | none => True
        | some (s, es) => StepsMeet step P ⟨s, c.log ++ es⟩ as) :=
      match step c.state a with
      | none => isTrue trivial
      | some (s, es) => StepsMeet.decidable P ⟨s, c.log ++ es⟩ as
    inferInstanceAs (Decidable (_ ∧ _))

/-- The log of a run and the events of one more step, which is what can be
computed of a run on fixed labels. -/
def logThen (c : Config σ ε) (as : List α) (a : α) : Option (List ε × List ε) :=
  (exec step c as).bind fun c' => (step c'.state a).map fun (_, es) => (c'.log, es)

variable {step}

theorem logThen_some {c : Config σ ε} {as : List α} {a : α} {log es : List ε}
    (h : logThen step c as a = some (log, es)) :
    ∃ c' s, exec step c as = some c' ∧ c'.log = log ∧ step c'.state a = some (s, es) := by
  rw [logThen, Option.bind_eq_some_iff] at h
  obtain ⟨c', hrun, hlast⟩ := h
  rw [Option.map_eq_some_iff] at hlast
  obtain ⟨⟨s, es'⟩, hstep, heq⟩ := hlast
  cases heq
  exact ⟨c', s, hrun, rfl, hstep⟩

theorem exec_cons {c c' : Config σ ε} {a : α} {as : List α} (h : exec step c (a :: as) = some c') :
    ∃ s es, step c.state a = some (s, es) ∧ exec step ⟨s, c.log ++ es⟩ as = some c' := by
  rw [exec] at h
  split at h
  · cases h
  · rename_i s es hs
    exact ⟨s, es, hs, h⟩

/-- What every step that meets `P` keeps, every run of such steps keeps. -/
theorem exec_invariant_of {P : σ → List ε → α → Prop} {I : σ → List ε → Prop}
    (hstep : ∀ {s log a s' es}, I s log → P s log a → step s a = some (s', es) → I s' (log ++ es))
    {c c' : Config σ ε} {as : List α} (hmeet : StepsMeet step P c as) (h : I c.state c.log)
    (hrun : exec step c as = some c') : I c'.state c'.log := by
  induction as generalizing c with
  | nil =>
    cases hrun
    exact h
  | cons a as ih =>
    obtain ⟨s, es, hs, hrest⟩ := exec_cons hrun
    obtain ⟨ha, htail⟩ := hmeet
    rw [hs] at htail
    exact ih htail (hstep h ha hs) hrest

theorem StepsMeet.mono {P Q : σ → List ε → α → Prop} (hPQ : ∀ {s log a}, P s log a → Q s log a)
    {c : Config σ ε} {as : List α} (h : StepsMeet step P c as) : StepsMeet step Q c as := by
  induction as generalizing c with
  | nil => trivial
  | cons a as ih =>
    obtain ⟨ha, htail⟩ := h
    refine ⟨hPQ ha, ?_⟩
    split
    · trivial
    · rename_i s es hs
      rw [hs] at htail
      exact ih htail

theorem StepsMeet.of_forall {P : σ → List ε → α → Prop} {as : List α} (h : ∀ a ∈ as, ∀ s log, P s log a)
    (c : Config σ ε) : StepsMeet step P c as := by
  induction as generalizing c with
  | nil => trivial
  | cons a as ih =>
    refine ⟨h a (by simp) _ _, ?_⟩
    split
    · trivial
    · exact ih (fun b hb => h b (by simp [hb])) _

theorem StepsMeet.and_forall {P : σ → List ε → α → Prop} {Q : α → Prop} {c : Config σ ε} {as : List α}
    (h : StepsMeet step P c as) (hall : ∀ a ∈ as, Q a) : StepsMeet step (fun s log a => P s log a ∧ Q a) c as := by
  induction as generalizing c with
  | nil => trivial
  | cons a as ih =>
    obtain ⟨ha, htail⟩ := h
    obtain ⟨hq, hrest⟩ := List.forall_mem_cons.mp hall
    refine ⟨⟨ha, hq⟩, ?_⟩
    split
    · trivial
    · rename_i s es hs
      rw [hs] at htail
      exact ih htail hrest

/-- What every step keeps, every run keeps. -/
theorem exec_invariant {I : σ → List ε → Prop}
    (hstep : ∀ {s log a s' es}, I s log → step s a = some (s', es) → I s' (log ++ es))
    {c c' : Config σ ε} {as : List α} (h : I c.state c.log) (hrun : exec step c as = some c') :
    I c'.state c'.log :=
  exec_invariant_of (fun hi _ hs => hstep hi hs) (.of_forall (fun _ _ _ _ => trivial) c) h hrun

/-- A run that gets somewhere: as long as it is not there, some step of a kind goes down. -/
theorem exists_run_of_progress {r : σ → σ → Prop} (hwf : WellFounded r) {I P : σ → Prop} {Q : α → Prop}
    (hstep : ∀ s, I s → ¬ P s → ∃ a s' es, Q a ∧ step s a = some (s', es) ∧ I s' ∧ r s' s) {s : σ} (h : I s)
    (log : List ε) : ∃ as c, (∀ a ∈ as, Q a) ∧ exec step ⟨s, log⟩ as = some c ∧ I c.state ∧ P c.state := by
  induction s using hwf.induction generalizing log with
  | _ s ih =>
    by_cases hp : P s
    · exact ⟨[], ⟨s, log⟩, List.forall_mem_nil _, rfl, h, hp⟩
    · obtain ⟨a, s', es, ha, hnext, hs', hlt⟩ := hstep s h hp
      obtain ⟨as, c, has, hrun, hc⟩ := ih s' hlt hs' (log ++ es)
      refine ⟨a :: as, c, List.forall_mem_cons.mpr ⟨ha, has⟩, ?_, hc⟩
      rw [exec, hnext]
      exact hrun

end FractalSQL.Lib
