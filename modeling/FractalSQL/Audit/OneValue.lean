import FractalSQL.Audit.WellFormed

/-!
# Runs over one value

What a successful run over tokens says of the depth: it never falls below the
depth it began at, a value can stand inside other containers, and no comma of it
is at its own level.
-/
namespace FractalSQL.Audit
open Lib Lib.Json

/-- When no bracket is open, a value is complete. -/
def Frames.Complete (f : Frames) : Prop := f.stack = [] → f.st = .value

namespace Frames

theorem step_complete {f f' : Frames} {t : Token} (hf : f.Complete) (h : f.step t = some f') :
    f.stack ≠ [] ∧ f'.Complete := by
  have hstack : f.stack ≠ [] := by
    intro hnil
    cases t <;> simp [step, hnil, hf hnil] at h
  refine ⟨hstack, fun hnil => ?_⟩
  have hdepth := step_depth h
  cases t with
  | closing b =>
    cases hs : f.stack with
    | nil => exact absurd hs hstack
    | cons o stack =>
      simp only [step, hs] at h
      split at h <;> cases h
      rfl
  | _ =>
    rw [hnil] at hdepth
    simp only [Token.depth, List.length_nil] at hdepth
    exact absurd (List.length_eq_zero_iff.mp (by omega)) hstack

theorem run_complete {f f' : Frames} {ts : List Token} (hf : f.Complete) (h : f.run ts = some f') : f'.Complete := by
  induction ts generalizing f with
  | nil =>
    cases h
    exact hf
  | cons t ts ih =>
    obtain ⟨g, hg, hrest⟩ := Option.bind_eq_some_iff.mp h
    exact ih (step_complete hf hg).2 hrest

/-- As long as a bracket is open, the depth without that bracket is one less. -/
theorem run_below {f f' : Frames} {ts : List Token} (hf : f.Complete) (h : f.run ts = some f')
    (hopen : f'.stack ≠ []) : f.stack ≠ [] ∧ depthAfter (f.stack.length - 1) ts = f'.stack.length - 1 := by
  induction ts generalizing f with
  | nil =>
    cases h
    exact ⟨hopen, rfl⟩
  | cons t ts ih =>
    obtain ⟨g, hg, hrest⟩ := Option.bind_eq_some_iff.mp h
    obtain ⟨hstack, hgc⟩ := step_complete hf hg
    obtain ⟨hgs, hd⟩ := ih hgc hrest
    refine ⟨hstack, ?_⟩
    have hdepth := step_depth hg
    have hfpos := List.length_pos_of_ne_nil hstack
    have hgpos := List.length_pos_of_ne_nil hgs
    have hshift : t.depth (f.stack.length - 1) = g.stack.length - 1 := by
      cases t <;> simp only [Token.depth] at hdepth ⊢ <;> omega
    rw [depthAfter_cons, hshift, hd]

/-- Containers around the ones of the run change nothing. -/
theorem step_frame {A A' : List Bracket} {st st' : St} {t : Token} (h : step ⟨A, st⟩ t = some ⟨A', st'⟩)
    (B : List Bracket) : step ⟨A ++ B, st⟩ t = some ⟨A' ++ B, st'⟩ := by
  cases t with
  | closing b =>
    cases A with
    | nil => simp [step] at h
    | cons o A =>
      simp only [step, List.cons_append] at h ⊢
      split at h
      · cases h
      · rename_i hc
        cases h
        rw [if_neg hc]
  | comma | colon =>
    simp only [step] at h ⊢
    split at h
    · cases h
    · rename_i hc
      cases h
      rw [if_neg fun hc' => hc (hc'.imp_left fun hnil => (List.append_eq_nil_iff.mp hnil).1)]
  | opening b | str raw | scalar raw =>
    simp only [step] at h ⊢
    split at h
    · cases h
    · rename_i hc
      cases h
      simp [hc]

theorem run_frame {A A' : List Bracket} {st st' : St} {ts : List Token} (h : run ⟨A, st⟩ ts = some ⟨A', st'⟩)
    (B : List Bracket) : run ⟨A ++ B, st⟩ ts = some ⟨A' ++ B, st'⟩ := by
  induction ts generalizing A st with
  | nil =>
    cases h
    rfl
  | cons t ts ih =>
    obtain ⟨g, hg, hrest⟩ := Option.bind_eq_some_iff.mp h
    rw [run_cons, step_frame hg B, Option.bind_some, ih hrest]

/-- A separator may stand in front of a value as well as nothing. -/
theorem run_sep {A : List Bracket} {f' : Frames} {ts : List Token} (h : run ⟨A, .empty⟩ ts = some f')
    (hv : f'.st = .value) (ht : ∀ b ∈ ts.head?, ∀ c, b ≠ .closing c) : run ⟨A, .sep⟩ ts = some f' := by
  cases ts with
  | nil =>
    cases h
    cases hv
  | cons t ts =>
    have hstep : step ⟨A, .sep⟩ t = step ⟨A, .empty⟩ t := by
      cases t with
      | closing c => exact absurd rfl (ht _ rfl c)
      | _ => simp [step]
    rw [run_cons, hstep]
    exact h

theorem run_items {f f' : Frames} {ts : List Token} (h : f.run ts = some f') : items f.stack.length ts = [ts] := by
  induction ts generalizing f with
  | nil => rfl
  | cons t ts ih =>
    obtain ⟨g, hg, hrest⟩ := Option.bind_eq_some_iff.mp h
    have hcomma : ¬ (t = .comma ∧ f.stack.length = 0) := by
      rintro ⟨rfl, hnil⟩
      simp [step, List.length_eq_zero_iff.mp hnil] at hg
    rw [items, if_neg hcomma, ← step_depth hg, ih hrest]
    rfl

/-- The depth in a run counts from where it began. -/
theorem run_shift {f f' : Frames} {ts : List Token} (h : f.run ts = some f') (k : ℕ) :
    depthAfter (f.stack.length + k) ts = f'.stack.length + k ∧
      nesting (f.stack.length + k) ts = nesting f.stack.length ts + k := by
  induction ts generalizing f with
  | nil =>
    cases h
    exact ⟨rfl, rfl⟩
  | cons t ts ih =>
    obtain ⟨g, hg, hrest⟩ := Option.bind_eq_some_iff.mp h
    have hdepth := step_depth hg
    have hshift : t.depth (f.stack.length + k) = g.stack.length + k := by
      cases t with
      | closing b =>
        cases hs : f.stack with
        | nil => simp [step, hs] at hg
        | cons o stack =>
          simp only [Token.depth, hs, List.length_cons] at hdepth ⊢
          omega
      | _ =>
        simp only [Token.depth] at hdepth ⊢
        omega
    obtain ⟨hd, hn⟩ := ih hrest
    rw [depthAfter_cons, nesting, nesting, hshift, hd, hn, hdepth]
    exact ⟨rfl, (Nat.add_max_add_right ..).symm ▸ rfl⟩

end Frames

/-! ### Values -/

theorem OneValue.ne_nil {ts : List Token} (h : OneValue ts) : ts ≠ [] := by
  rintro rfl
  cases h

theorem OneValue.items {ts : List Token} (h : OneValue ts) : Json.items 0 ts = [ts] := Frames.run_items h

theorem OneValue.shift {ts : List Token} (h : OneValue ts) (k : ℕ) :
    depthAfter k ts = k ∧ nesting k ts = nesting 0 ts + k := by
  simpa using Frames.run_shift h k

theorem OneValue.head {ts : List Token} (h : OneValue ts) : ∀ t ∈ ts.head?, ∀ c, t ≠ .closing c := by
  rintro t ht c rfl
  cases ts with
  | nil => cases ht
  | cons u us =>
    obtain rfl := Option.some.inj ht
    cases h

/-- A value as the value of a member, inside other containers. -/
theorem OneValue.run_member {ts : List Token} (h : OneValue ts) (B : List Bracket) :
    Frames.run ⟨B, .sep⟩ ts = some ⟨B, .value⟩ := by
  have hrun := Frames.run_frame h B
  exact Frames.run_sep (by simpa using hrun) rfl h.head

/-- In an open container the walk is at its beginning only before any token. -/
theorem Frames.value_of_run {f f' : Frames} {ts : List Token} (hf : f.Complete) (h : f.run ts = some f')
    (hne : ts ≠ []) (hlen : f'.stack.length = 1) : f'.st ≠ .empty := by
  obtain ⟨us, u, rfl⟩ := (List.eq_nil_or_concat' ts).resolve_left hne
  rw [run_append] at h
  obtain ⟨g, hg, hlast⟩ := Option.bind_eq_some_iff.mp h
  have hlast : g.step u = some f' := by simpa [run_cons] using hlast
  obtain ⟨hopen, -⟩ := step_complete (run_complete hf hg) hlast
  have hpos := List.length_pos_of_ne_nil hopen
  have hdepth := step_depth hlast
  cases u with
  | opening b =>
    simp only [Token.depth] at hdepth
    omega
  | closing b =>
    simp only [step] at hlast
    split at hlast
    · cases hlast
    · split at hlast <;> cases hlast
      simp
  | comma | colon | str raw | scalar raw =>
    simp only [step] at hlast
    split at hlast <;> cases hlast
    simp

/-- Between the brackets of a value the depth stays above zero. -/
theorem OneValue.body {b c : Bracket} {ts : List Token} (h : OneValue (.opening b :: (ts ++ [.closing c]))) :
    depthAfter 0 ts = 0 ∧ ∃ st, Frames.run ⟨[b], .empty⟩ ts = some ⟨[c], st⟩ ∧ (ts ≠ [] → st = .value) := by
  have hc : Frames.Complete ⟨[b], .empty⟩ := fun hnil => by cases hnil
  have hrun : Frames.run ⟨[b], .empty⟩ (ts ++ [.closing c]) = some ⟨[], .value⟩ := h
  rw [Frames.run_append] at hrun
  obtain ⟨⟨stack, st⟩, hf, hclose⟩ := Option.bind_eq_some_iff.mp hrun
  have hclose : Frames.step ⟨stack, st⟩ (.closing c) = some ⟨[], .value⟩ := by
    simpa [Frames.run_cons] using hclose
  obtain ⟨rfl, hsep⟩ : stack = [c] ∧ st ≠ .sep := by
    cases stack with
    | nil => simp [Frames.step] at hclose
    | cons o stack =>
      simp only [Frames.step] at hclose
      split at hclose
      · cases hclose
      · rename_i hn
        simp only [not_or, not_not] at hn
        simp_all
  obtain ⟨-, hdepth⟩ := Frames.run_below hc hf (by simp)
  refine ⟨hdepth, st, hf, fun hne => ?_⟩
  have hempty : st ≠ .empty := Frames.value_of_run hc hf hne rfl
  cases st with
  | empty => exact absurd rfl hempty
  | value => rfl
  | sep => exact absurd rfl hsep

end FractalSQL.Audit
