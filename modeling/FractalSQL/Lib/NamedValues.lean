import Mathlib.Tactic

/-!
# Names with optional values

A list of names, each followed by its value if it has one. A value that is the next name can stand
for it, so the list does not tell its values apart: exactly the values of some runs of names can be
moved to the name in front of them.
-/
namespace FractalSQL.Lib

variable {α : Type*}

/-- Every name, followed by its value. -/
def named : List α → List (Option α) → List α
  | n :: ns, v :: vs => n :: (v.toList ++ named ns vs)
  | _, _ => []

/-- Two lists of values that differ in runs of names only. On a run the further names are values: in
one list each is its own value and the first name has none, in the other each is the value of the name
in front of it and the last name has none. -/
inductive Shifted : List α → List (Option α) → List (Option α) → Prop where
  | nil : Shifted [] [] []
  | same {n : α} {v : Option α} {ns : List α} {vs ws : List (Option α)} (h : Shifted ns vs ws) :
    Shifted (n :: ns) (v :: vs) (v :: ws)
  | forth {n : α} {run ns : List α} {vs ws : List (Option α)} (hne : run ≠ []) (h : Shifted ns vs ws) :
    Shifted (n :: (run ++ ns)) (none :: (run.map some ++ vs)) (run.map some ++ none :: ws)
  | back {n : α} {run ns : List α} {vs ws : List (Option α)} (hne : run ≠ []) (h : Shifted ns vs ws) :
    Shifted (n :: (run ++ ns)) (run.map some ++ none :: vs) (none :: (run.map some ++ ws))

theorem named_cons (n : α) (ns : List α) (v : Option α) (vs : List (Option α)) :
    named (n :: ns) (v :: vs) = n :: (v.toList ++ named ns vs) := rfl

/-- Names in a run that are their own values. -/
theorem named_own {ns : List α} {vs ws : List (Option α)} (h : named ns vs = named ns ws) (run : List α) :
    named (run ++ ns) (run.map some ++ vs) = named (run ++ ns) (run.map some ++ ws) := by
  induction run with
  | nil => exact h
  | cons n run ih =>
    rw [List.cons_append, List.map_cons, List.cons_append, List.cons_append, named_cons, named_cons, ih]

/-- A value that is taken from the next name moves along the run. -/
theorem named_moved (ns : List α) (vs : List (Option α)) (n : α) (run : List α) :
    named (n :: (run ++ ns)) (run.map some ++ none :: vs) = n :: named (run ++ ns) (run.map some ++ vs) := by
  induction run generalizing n with
  | nil => rfl
  | cons m run ih =>
    rw [List.map_cons, List.cons_append, List.cons_append, named_cons, ih, List.cons_append, named_cons]
    rfl

theorem Shifted.named_eq {ns : List α} {vs ws : List (Option α)} (h : Shifted ns vs ws) : named ns vs = named ns ws := by
  induction h with
  | nil => rfl
  | same h ih => rw [named_cons, named_cons, ih]
  | @forth n run ns vs ws hne h ih =>
    rw [named_moved, named_cons, named_own ih]
    rfl
  | @back n run ns vs ws hne h ih =>
    rw [named_moved, named_cons, named_own ih]
    rfl

/-- A list that is one entry ahead makes it up at the end of a run. -/
theorem exists_run {v : α} {ns : List α} {vs ws : List (Option α)} (hnodup : ns.Nodup) (hvs : vs.length = ns.length)
    (hws : ws.length = ns.length) (h : v :: named ns ws = named ns vs) :
    ∃ run ns' vs' ws', run ≠ [] ∧ ns = run ++ ns' ∧ vs = run.map some ++ vs' ∧ some v :: ws = run.map some ++ none :: ws' ∧
      vs'.length = ns'.length ∧ ws'.length = ns'.length ∧ named ns' vs' = named ns' ws' := by
  induction ns generalizing v vs ws with
  | nil => cases h
  | cons m ns ih =>
    obtain ⟨a, vs, rfl⟩ := List.exists_cons_of_length_eq_add_one hvs
    obtain ⟨b, ws, rfl⟩ := List.exists_cons_of_length_eq_add_one hws
    rw [List.length_cons, List.length_cons, Nat.add_right_cancel_iff] at hvs hws
    rw [List.nodup_cons] at hnodup
    rw [named_cons, named_cons, List.cons.injEq] at h
    obtain ⟨rfl, h⟩ := h
    cases a with
    | none =>
      -- the next name would be this one again
      cases ns with
      | nil => cases vs <;> cases h
      | cons m' ns =>
        obtain ⟨a, vs, rfl⟩ := List.exists_cons_of_length_eq_add_one hvs
        obtain ⟨rfl, -⟩ := List.cons.inj h
        exact absurd (List.mem_cons_self ..) hnodup.1
    | some x =>
      obtain ⟨rfl, htail⟩ := List.cons.inj h
      cases b with
      | none => exact ⟨[v], ns, vs, ws, List.cons_ne_nil _ _, rfl, rfl, rfl, hvs, hws, htail.symm⟩
      | some y =>
        obtain ⟨run, ns', vs', ws', -, rfl, rfl, hrun, hlen⟩ := ih hnodup.2 hvs hws htail
        refine ⟨v :: run, ns', vs', ws', List.cons_ne_nil _ _, rfl, rfl, ?_, hlen⟩
        rw [List.map_cons, List.cons_append, ← hrun]

/-- Distinct names with their values are told apart up to shifts. -/
theorem named_eq_iff {ns : List α} {vs ws : List (Option α)} (hnodup : ns.Nodup) (hvs : vs.length = ns.length)
    (hws : ws.length = ns.length) : named ns vs = named ns ws ↔ Shifted ns vs ws := by
  refine ⟨fun h => ?_, Shifted.named_eq⟩
  induction hlen : ns.length using Nat.strong_induction_on generalizing ns vs ws with
  | _ k ih =>
    subst hlen
    cases ns with
    | nil =>
      obtain rfl := List.length_eq_zero_iff.mp hvs
      obtain rfl := List.length_eq_zero_iff.mp hws
      exact .nil
    | cons n ns =>
      obtain ⟨a, vs, rfl⟩ := List.exists_cons_of_length_eq_add_one hvs
      obtain ⟨b, ws, rfl⟩ := List.exists_cons_of_length_eq_add_one hws
      rw [List.length_cons, List.length_cons, Nat.add_right_cancel_iff] at hvs hws
      rw [List.nodup_cons] at hnodup
      have h := (List.cons.inj h).2
      have hsmaller {run ns' : List α} {vs' ws' : List (Option α)} (hns : ns = run ++ ns') (hvs' : vs'.length = ns'.length)
          (hws' : ws'.length = ns'.length) (heq : named ns' vs' = named ns' ws') : Shifted ns' vs' ws' := by
        refine ih ns'.length ?_ ?_ hvs' hws' heq rfl
        · rw [hns, List.length_cons, List.length_append]
          omega
        · rw [hns] at hnodup
          exact hnodup.2.of_append_right
      cases a with
      | none =>
        cases b with
        | none => exact .same (hsmaller (List.nil_append ns).symm hvs hws h)
        | some y =>
          obtain ⟨run, ns', vs', ws', hne, rfl, rfl, hrun, hvs', hws', heq⟩ := exists_run hnodup.2 hvs hws h.symm
          rw [hrun]
          exact .forth hne (hsmaller rfl hvs' hws' heq)
      | some x =>
        cases b with
        | none =>
          obtain ⟨run, ns', ws', vs', hne, rfl, rfl, hrun, hws', hvs', heq⟩ := exists_run hnodup.2 hws hvs h
          rw [hrun]
          exact .back hne (hsmaller rfl hvs' hws' heq.symm)
        | some y =>
          obtain ⟨rfl, htail⟩ := List.cons.inj h
          exact .same (hsmaller (List.nil_append ns).symm hvs hws htail)

end FractalSQL.Lib
