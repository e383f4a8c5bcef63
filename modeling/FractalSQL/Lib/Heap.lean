import Mathlib.Tactic

/-!
# Blocks that are allocated and freed

A heap has live blocks with their contents. A pointer is never given out twice, and to free a block
that is not live is a fault. Every live block is owned, by the function that runs or by others.
-/
namespace FractalSQL.Lib

variable {α : Type*}

structure Heap (α : Type*) where
  get : ℕ → Option α
  fresh : ℕ
  unused : ∀ p, fresh ≤ p → get p = none

namespace Heap

def empty : Heap α := ⟨fun _ => none, 0, fun _ _ => rfl⟩

theorem alloc_unused (h : Heap α) (a : α) (p : ℕ) (hp : h.fresh + 1 ≤ p) :
    Function.update h.get h.fresh (some a) p = none := by
  have hne : p ≠ h.fresh := by omega
  rw [Function.update_of_ne hne]
  exact h.unused p (by omega)

/-- A new block with what is written to it. -/
def alloc (h : Heap α) (a : α) : Heap α := ⟨Function.update h.get h.fresh (some a), h.fresh + 1, h.alloc_unused a⟩

theorem free_unused (h : Heap α) (q p : ℕ) (hp : h.fresh ≤ p) : Function.update h.get q none p = none := by
  by_cases hq : p = q
  · rw [hq, Function.update_self]
  · rw [Function.update_of_ne hq]
    exact h.unused p hp

/-- The null pointer is left alone. -/
def free (h : Heap α) : Option ℕ → Option (Heap α)
  | none => some h
  | some p => if (h.get p).isSome then some ⟨Function.update h.get p none, h.fresh, h.free_unused p⟩ else none

theorem alloc_self (h : Heap α) (a : α) : (h.alloc a).get h.fresh = some a := Function.update_self ..

theorem fresh_ne {h : Heap α} {p : ℕ} (hp : (h.get p).isSome = true) : p ≠ h.fresh := by
  rintro rfl
  rw [h.unused _ le_rfl] at hp
  cases hp

theorem alloc_of_live {h : Heap α} (a : α) {p : ℕ} (hp : (h.get p).isSome = true) : (h.alloc a).get p = h.get p :=
  Function.update_of_ne (fresh_ne hp) _ _

/-- The live blocks are those of others and the own ones, each of these once. -/
structure Owns (h : Heap α) (others : Set ℕ) (own : List ℕ) : Prop where
  nodup : own.Nodup
  apart : ∀ p ∈ own, p ∉ others
  live : ∀ p, (h.get p).isSome = true ↔ p ∈ others ∨ p ∈ own

variable {h : Heap α} {others : Set ℕ} {own : List ℕ}

theorem Owns.perm (howns : h.Owns others own) {own' : List ℕ} (hperm : own.Perm own') : h.Owns others own' where
  nodup := hperm.nodup_iff.mp howns.nodup
  apart p hp := howns.apart p (hperm.mem_iff.mpr hp)
  live p := by
    rw [howns.live p, hperm.mem_iff]

theorem Owns.alloc (howns : h.Owns others own) (a : α) : (h.alloc a).Owns others (h.fresh :: own) := by
  have hnew (hp : h.fresh ∈ others ∨ h.fresh ∈ own) : False := fresh_ne ((howns.live h.fresh).mpr hp) rfl
  constructor
  · exact List.nodup_cons.mpr ⟨fun hmem => hnew (.inr hmem), howns.nodup⟩
  · intro p hp
    rcases List.mem_cons.mp hp with rfl | hold
    · exact fun hmem => hnew (.inl hmem)
    · exact howns.apart p hold
  · intro p
    by_cases hp : p = h.fresh
    · rw [hp, h.alloc_self a]
      simp
    · rw [Heap.alloc]
      dsimp only
      rw [Function.update_of_ne hp, howns.live p, List.mem_cons]
      tauto

/-- What is owned can be freed, and nothing else changes. -/
theorem Owns.free {ptr : Option ℕ} (howns : h.Owns others (ptr.toList ++ own)) :
    ∃ h' : Heap α, h.free ptr = some h' ∧ h'.Owns others own ∧ ∀ p, p ∈ others ∨ p ∈ own → h'.get p = h.get p := by
  cases ptr with
  | none => exact ⟨h, rfl, howns, fun _ _ => rfl⟩
  | some q =>
    have hlive : (h.get q).isSome = true := (howns.live q).mpr (.inr (List.mem_cons_self ..))
    obtain ⟨hq, hnodup⟩ := List.nodup_cons.mp howns.nodup
    have hne {p : ℕ} (hp : p ∈ others ∨ p ∈ own) : p ≠ q := by
      rintro rfl
      rcases hp with hmem | hmem
      · exact howns.apart p (List.mem_cons_self ..) hmem
      · exact hq hmem
    refine ⟨⟨Function.update h.get q none, h.fresh, h.free_unused q⟩, if_pos hlive, ?_, fun p hp =>
      Function.update_of_ne (hne hp) _ _⟩
    constructor
    · exact hnodup
    · exact fun p hp => howns.apart p (List.mem_cons_of_mem q hp)
    · intro p
      by_cases hp : p = q
      · subst hp
        dsimp only
        rw [Function.update_self]
        exact ⟨fun hnone => (by cases hnone), fun hmem => absurd rfl (hne hmem)⟩
      · dsimp only
        rw [Function.update_of_ne hp, howns.live p]
        simp [hp]

/-- Some of the blocks of others become own ones. -/
theorem Owns.take {others' : Set ℕ} {mine : List ℕ} (howns : h.Owns others own) (hnodup : mine.Nodup)
    (hapart : ∀ p ∈ mine, p ∉ others') (hall : ∀ p, p ∈ others ↔ p ∈ others' ∨ p ∈ mine) :
    h.Owns others' (mine ++ own) := by
  constructor
  · apply List.nodup_append.mpr
    refine ⟨hnodup, howns.nodup, ?_⟩
    rintro p hmine q hown rfl
    exact howns.apart p hown ((hall p).mpr (.inr hmine))
  · intro p hp hmem
    rcases List.mem_append.mp hp with hmine | hown
    · exact hapart p hmine hmem
    · exact howns.apart p hown ((hall p).mpr (.inl hmem))
  · intro p
    rw [howns.live p, hall p, List.mem_append, or_assoc]

end Heap
end FractalSQL.Lib
