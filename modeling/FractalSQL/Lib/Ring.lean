import Mathlib.Tactic

/-!
# A ring that overwrites its oldest slot

A fixed array of slots, the number of slots in use and the slot the next value is
written to. While slots are free nothing is lost; once all are in use each new
value takes the place of the oldest one.
-/
namespace FractalSQL.Lib

/-- The slots from 0 to `used - 1` hold values. -/
structure Ring (α : Type*) (cap : ℕ) where
  slots : ℕ → α
  used : ℕ
  head : ℕ
  used_le : used ≤ cap
  head_eq : used < cap → head = used

namespace Ring
variable {α : Type*} {cap : ℕ}

def empty (default : α) : Ring α cap where
  slots := fun _ => default
  used := 0
  head := 0
  used_le := Nat.zero_le cap
  head_eq := fun _ => rfl

/-- The value goes to the head slot, which moves on and wraps at the capacity. -/
def push (r : Ring α cap) (x : α) : Ring α cap where
  slots := Function.update r.slots r.head x
  used := if r.used < cap then r.used + 1 else r.used
  head := (r.head + 1) % cap
  used_le := by
    have := r.used_le
    split <;> omega
  head_eq := by
    split
    · rename_i h
      intro hlt
      rw [r.head_eq h, Nat.mod_eq_of_lt hlt]
    · intro hlt
      contradiction

variable [DecidableEq α]

/-- The linear scan over the slots in use. -/
def mem (r : Ring α cap) (x : α) : Bool := (List.range r.used).any fun i => r.slots i = x

theorem mem_iff {r : Ring α cap} {x : α} : r.mem x = true ↔ ∃ i < r.used, r.slots i = x := by
  simp [mem]

@[simp] theorem mem_empty (default x : α) : (empty default : Ring α cap).mem x = false := by
  simp [mem, empty]

/-- A push into a free slot loses nothing. -/
theorem mem_push {r : Ring α cap} (h : r.used < cap) (x y : α) :
    (r.push x).mem y = true ↔ y = x ∨ r.mem y = true := by
  have hused : (r.push x).used = r.used + 1 := if_pos h
  have hslot (i : ℕ) : (r.push x).slots i = if i = r.used then x else r.slots i := by
    change Function.update r.slots r.head x i = _
    rw [Function.update_apply, r.head_eq h]
  simp only [mem_iff, hused, hslot]
  constructor
  · rintro ⟨i, hi, hxy⟩
    split at hxy
    · exact .inl hxy.symm
    · exact .inr ⟨i, by omega, hxy⟩
  · rintro (rfl | ⟨i, hi, hxy⟩)
    · exact ⟨r.used, by omega, if_pos rfl⟩
    · exact ⟨i, by omega, by rw [if_neg (by omega), hxy]⟩

/-- The slots in use bound the number of distinct members. -/
theorem card_le_used {r : Ring α cap} {s : Finset α} (h : ∀ x ∈ s, r.mem x = true) :
    s.card ≤ r.used := by
  have hsub : s ⊆ (Finset.range r.used).image r.slots := by
    intro x hx
    obtain ⟨i, hi, hxy⟩ := mem_iff.mp (h x hx)
    exact Finset.mem_image.mpr ⟨i, Finset.mem_range.mpr hi, hxy⟩
  calc s.card ≤ ((Finset.range r.used).image r.slots).card := Finset.card_le_card hsub
    _ ≤ (Finset.range r.used).card := Finset.card_image_le
    _ = r.used := Finset.card_range r.used

end Ring

/-! ### Slots read from the oldest on -/

section Rotation
variable {α : Type*} {l : List α} {k : ℕ}

/-- Writing the oldest slot and moving on puts the value behind all others. -/
theorem rotate_set_succ (h : k < l.length) (x : α) :
    (l.set k x).rotate ((k + 1) % l.length) = (l.rotate k).tail ++ [x] := by
  have hold : l.rotate k = l[k] :: (l.drop (k + 1) ++ l.take k) := by
    rw [List.rotate_eq_drop_append_take h.le, List.drop_eq_getElem_cons h, List.cons_append]
  have hlen : (l.set k x).length = l.length := List.length_set
  have hnew : (l.set k x).rotate ((k + 1) % (l.set k x).length) = l.drop (k + 1) ++ (l.take k ++ [x]) := by
    rw [List.rotate_mod, List.rotate_eq_drop_append_take (by omega), List.drop_set_of_lt (Nat.lt_succ_self k),
      List.take_succ_eq_append_getElem (by omega), List.take_set_of_le le_rfl, List.getElem_set_self]
  rw [← hlen, hnew, hold, List.tail_cons, List.append_assoc]

/-- Without its first slot a list loses at most its first value. -/
theorem tail_reduceOption (slots : List (Option α)) :
    ∃ k ≤ 1, slots.tail.reduceOption = slots.reduceOption.drop k := by
  cases slots with
  | nil => exact ⟨0, Nat.zero_le _, rfl⟩
  | cons slot slots =>
    cases slot with
    | none => exact ⟨0, Nat.zero_le _, rfl⟩
    | some x => exact ⟨1, le_rfl, rfl⟩

end Rotation

end FractalSQL.Lib
