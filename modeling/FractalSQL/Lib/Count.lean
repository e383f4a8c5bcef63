import Mathlib.Data.List.Perm.Basic
import Mathlib.Tactic

/-!
# Counting the entries of a list that changes in one place

A list that loses, gains or replaces one entry, and what that does to the counts.
-/
namespace FractalSQL.Lib

variable {α : Type*} {l : List α} {n : ℕ} {a : α}

theorem countP_set_add (h : l[n]? = some a) (p : α → Bool) (b : α) :
    (l.set n b).countP p + (p a).toNat = l.countP p + (p b).toNat := by
  obtain ⟨hn, hget⟩ := List.getElem?_eq_some_iff.mp h
  have hpos : p a = true → 0 < l.countP p := fun hp =>
    List.countP_pos_iff.mpr ⟨a, hget ▸ List.getElem_mem hn, hp⟩
  rw [List.countP_set hn, hget]
  cases hp : p a with
  | false => cases p b <;> simp
  | true =>
    have := hpos hp
    cases p b <;> simp <;> omega

theorem countP_append_singleton (l : List α) (p : α → Bool) (b : α) :
    (l ++ [b]).countP p = l.countP p + (p b).toNat := by
  rw [List.countP_append, List.countP_singleton]
  cases p b <;> rfl

theorem count_eraseIdx_add [DecidableEq α] (h : l[n]? = some a) (b : α) :
    (l.eraseIdx n).count b + (if a = b then 1 else 0) = l.count b := by
  obtain ⟨hn, rfl⟩ := List.getElem?_eq_some_iff.mp h
  rw [← (List.getElem_cons_eraseIdx_perm hn).count_eq b, List.count_cons]
  simp only [beq_iff_eq]

theorem sum_map_set_add (h : l[n]? = some a) (f : α → ℕ) (b : α) :
    ((l.set n b).map f).sum + f a = (l.map f).sum + f b := by
  obtain ⟨hn, rfl⟩ := List.getElem?_eq_some_iff.mp h
  have hold := ((List.getElem_cons_eraseIdx_perm hn).map f).sum_eq
  have hnew := ((List.set_perm_cons_eraseIdx hn b).map f).sum_eq
  rw [List.map_cons, List.sum_cons] at hold hnew
  omega

/-- An entry's part of a list that is made from the entries, in front. -/
theorem flatMap_perm {β : Type*} (h : l[n]? = some a) (f : α → List β) :
    (l.flatMap f).Perm (f a ++ (l.eraseIdx n).flatMap f) := by
  obtain ⟨hn, rfl⟩ := List.getElem?_eq_some_iff.mp h
  exact (List.getElem_cons_eraseIdx_perm hn).symm.flatMap_right f

theorem flatMap_set_perm {β : Type*} (h : l[n]? = some a) (f : α → List β) (b : α) :
    ((l.set n b).flatMap f).Perm (f b ++ (l.eraseIdx n).flatMap f) := by
  obtain ⟨hn, -⟩ := List.getElem?_eq_some_iff.mp h
  exact (List.set_perm_cons_eraseIdx hn b).flatMap_right f

/-- What stands in the list behind a change is the new entry or was there. -/
theorem getElem?_set_cases {m : ℕ} {b c : α} (h : (l.set n b)[m]? = some c) : m = n ∧ c = b ∨ m ≠ n ∧ l[m]? = some c := by
  rw [List.getElem?_set] at h
  split_ifs at h with hnm
  · exact .inl ⟨hnm.symm, (Option.some.inj h).symm⟩
  · exact .inr ⟨Ne.symm hnm, h⟩

theorem getElem?_set_same (h : l[n]? = some a) (b : α) : (l.set n b)[n]? = some b :=
  List.getElem?_set_self (List.getElem?_eq_some_iff.mp h).1

theorem mem_of_mem_set {b c : α} (h : c ∈ l.set n b) : c ∈ l ∨ c = b := List.mem_or_eq_of_mem_set h

end FractalSQL.Lib
