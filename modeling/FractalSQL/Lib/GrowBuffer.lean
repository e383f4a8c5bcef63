import Mathlib.Tactic

/-!
# Buffers that grow

Allocated cells, of which a front part is used. Growing keeps the cells that there are and leaves the
new ones undefined; a write that does not fit in the cells is no write at all.
-/
namespace FractalSQL.Lib

variable {α : Type*}

/-- The cells, with what was written to them, and how many of them are used. -/
structure GrowBuffer (α : Type*) where
  cells : List (Option α)
  used : ℕ

namespace GrowBuffer

/-- No cell is written yet. -/
def alloc (cap : ℕ) : GrowBuffer α := ⟨List.replicate cap none, 0⟩

def realloc (b : GrowBuffer α) (cap : ℕ) : GrowBuffer α :=
  { b with cells := b.cells.take cap ++ List.replicate (cap - b.cells.length) none }

/-- A copy of some values behind the used cells, if the cells are there. -/
def store (b : GrowBuffer α) (xs : List α) : Option (GrowBuffer α) :=
  if b.used + xs.length ≤ b.cells.length then
    some ⟨b.cells.take b.used ++ (xs.map some ++ b.cells.drop (b.used + xs.length)), b.used + xs.length⟩
  else none

/-- A copy of the first `count` of some values to an offset, if the cells and the values are there. -/
def copyAt (b : GrowBuffer α) (offset count : ℕ) (xs : List α) : Option (GrowBuffer α) :=
  if offset + count ≤ b.cells.length ∧ count ≤ xs.length then
    some ⟨b.cells.take offset ++ ((xs.take count).map some ++ b.cells.drop (offset + count)), offset + count⟩
  else none

/-- One value, in a buffer twice as large when it is full. -/
def push (b : GrowBuffer α) (x : α) : Option (GrowBuffer α) :=
  (if b.used = b.cells.length then b.realloc (2 * b.cells.length) else b).store [x]

/-- What was written to the used cells. -/
def contents (b : GrowBuffer α) : List α := (b.cells.take b.used).filterMap id

/-- The used cells are these values. -/
structure Holds (b : GrowBuffer α) (xs : List α) : Prop where
  used : b.used = xs.length
  cells : b.cells.take b.used = xs.map some

variable {b : GrowBuffer α} {xs : List α}

theorem holds_alloc (cap : ℕ) : (alloc cap : GrowBuffer α).Holds [] := ⟨rfl, List.take_zero⟩

theorem Holds.le (h : b.Holds xs) : xs.length ≤ b.cells.length := by
  have hlen := congrArg List.length h.cells
  rw [List.length_take, List.length_map, h.used] at hlen
  omega

theorem Holds.contents (h : b.Holds xs) : b.contents = xs := by
  rw [GrowBuffer.contents, h.cells, List.filterMap_map]
  exact List.filterMap_some

theorem realloc_length (b : GrowBuffer α) (cap : ℕ) : (b.realloc cap).cells.length = cap := by
  rw [realloc, List.length_append, List.length_take, List.length_replicate]
  omega

/-- A larger buffer keeps what there was. -/
theorem Holds.realloc (h : b.Holds xs) {cap : ℕ} (hcap : xs.length ≤ cap) : (b.realloc cap).Holds xs := by
  refine ⟨h.used, ?_⟩
  have hle := h.le
  have hcells : (b.realloc cap).cells.take b.used = b.cells.take b.used := by
    rw [GrowBuffer.realloc, List.take_append_of_le_length (by rw [List.length_take, h.used]; omega), List.take_take,
      h.used, min_eq_left hcap]
  exact hcells.trans h.cells

/-- A write that fits adds its values to the others. -/
theorem Holds.store (h : b.Holds xs) {ys : List α} (hfit : xs.length + ys.length ≤ b.cells.length) :
    ∃ b', b.store ys = some b' ∧ b'.Holds (xs ++ ys) ∧ b'.cells.length = b.cells.length := by
  have hle := h.le
  rw [GrowBuffer.store, h.used, if_pos hfit]
  refine ⟨_, rfl, ⟨List.length_append.symm, ?_⟩, ?_⟩
  · dsimp only
    have hfront := h.cells
    rw [h.used] at hfront
    rw [hfront, ← List.append_assoc, ← List.map_append, List.take_append_of_le_length (by simp), List.take_of_length_le (by simp)]
  · simp only [List.length_append, List.length_take, List.length_map, List.length_drop]
    omega

theorem copyAt_eq_store (b : GrowBuffer α) (xs : List α) : b.copyAt b.used xs.length xs = b.store xs := by
  simp only [copyAt, store, le_refl, and_true, List.take_length]

theorem Holds.push (h : b.Holds xs) (hpos : 0 < b.cells.length) (x : α) :
    ∃ b', b.push x = some b' ∧ b'.Holds (xs ++ [x]) ∧ 0 < b'.cells.length := by
  have hle := h.le
  rw [GrowBuffer.push, h.used]
  by_cases hfull : xs.length = b.cells.length
  · rw [if_pos hfull]
    have hlen := realloc_length b (2 * b.cells.length)
    have hcap : xs.length ≤ 2 * b.cells.length := by omega
    have hfit : xs.length + [x].length ≤ (b.realloc (2 * b.cells.length)).cells.length := by
      rw [hlen, List.length_singleton]
      omega
    obtain ⟨b', hb', hholds, hsame⟩ := (h.realloc hcap).store hfit
    exact ⟨b', hb', hholds, by omega⟩
  · rw [if_neg hfull]
    have hfit : xs.length + [x].length ≤ b.cells.length := by
      rw [List.length_singleton]
      omega
    obtain ⟨b', hb', hholds, hsame⟩ := h.store hfit
    exact ⟨b', hb', hholds, by omega⟩

end GrowBuffer

end FractalSQL.Lib
