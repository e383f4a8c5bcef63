import Mathlib.Tactic

/-!
# While loops

A loop is a guard, a body and a measure that the body lowers, so that running it is a
total function. What holds of its result follows from what the body keeps, or from the
states that the loop goes through.
-/
namespace FractalSQL.Lib

structure WhileLoop (σ : Type*) where
  guard : σ → Bool
  body : σ → σ
  measure : σ → ℕ
  lowers : ∀ s, guard s = true → measure (body s) < measure s

namespace WhileLoop
variable {σ : Type*} (l : WhileLoop σ)

def run (s : σ) : σ := if h : l.guard s = true then run (l.body s) else s
termination_by l.measure s
decreasing_by exact l.lowers s h

/-- The states that the loop goes through from a start. -/
inductive Visits (start : σ) : σ → Prop where
  | start : Visits start start
  | body {s : σ} (h : Visits start s) (hguard : l.guard s = true) : Visits start (l.body s)

variable {l}

theorem run_of_guard {s : σ} (h : l.guard s = true) : l.run s = l.run (l.body s) := by
  rw [run, dif_pos h]

theorem run_of_not_guard {s : σ} (h : l.guard s = false) : l.run s = s := by
  rw [run, dif_neg (by simp [h])]

/-- Any state on the way leads to the same end. -/
theorem Visits.run_eq {start s : σ} (h : l.Visits start s) : l.run start = l.run s := by
  induction h with
  | start => rfl
  | body h hguard ih => rw [ih, run_of_guard hguard]

/-- The loop ends in a state on the way. -/
theorem visits_run (start : σ) : l.Visits start (l.run start) := by
  have hfrom : ∀ s, l.Visits start s → l.Visits start (l.run s) := by
    intro s
    induction hn : l.measure s using Nat.strong_induction_on generalizing s with
    | _ n ih =>
    intro hs
    cases hg : l.guard s with
    | false => rwa [run_of_not_guard hg]
    | true =>
      rw [run_of_guard hg]
      exact ih _ (hn ▸ l.lowers s hg) (l.body s) rfl (hs.body hg)
  exact hfrom start .start

theorem guard_run (start : σ) : l.guard (l.run start) = false := by
  induction hn : l.measure start using Nat.strong_induction_on generalizing start with
  | _ n ih =>
  cases hg : l.guard start with
  | false => rwa [run_of_not_guard hg]
  | true =>
    rw [run_of_guard hg]
    exact ih _ (hn ▸ l.lowers start hg) (l.body start) rfl

/-- The loop ends where it starts, or behind the last body. -/
theorem run_cases (start : σ) :
    l.run start = start ∨ ∃ s, l.Visits start s ∧ l.guard s = true ∧ l.run start = l.body s := by
  have hend := visits_run (l := l) start
  generalize l.run start = s at hend
  cases hend with
  | start => exact .inl rfl
  | @body t h hguard => exact .inr ⟨t, h, hguard, rfl⟩

/-- A relation that the bodies of two loops keep relates their ends. -/
theorem run_related {τ : Type*} {l' : WhileLoop τ} {R : σ → τ → Prop} (hguard : ∀ s t, R s t → l.guard s = l'.guard t)
    (hbody : ∀ s t, R s t → l.guard s = true → R (l.body s) (l'.body t)) {s : σ} {t : τ} (h : R s t) : R (l.run s) (l'.run t) := by
  induction hn : l.measure s using Nat.strong_induction_on generalizing s t with
  | _ n ih =>
  cases hg : l.guard s with
  | false =>
    have hg' : l'.guard t = false := (hguard s t h).symm.trans hg
    rwa [run_of_not_guard hg, run_of_not_guard hg']
  | true =>
    have hg' : l'.guard t = true := (hguard s t h).symm.trans hg
    rw [run_of_guard hg, run_of_guard hg']
    exact ih _ (hn ▸ l.lowers s hg) (hbody s t h hg) rfl

/-- What the body keeps holds on the way. -/
theorem Visits.invariant {I : σ → Prop} {start s : σ} (h : l.Visits start s) (hstart : I start)
    (hbody : ∀ t, l.Visits start t → I t → l.guard t = true → I (l.body t)) : I s := by
  induction h with
  | start => exact hstart
  | body h hguard ih => exact hbody _ h ih hguard

end WhileLoop
end FractalSQL.Lib
