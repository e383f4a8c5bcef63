import Mathlib.Tactic

/-!
# Iterated hashing

A compression function is folded over the blocks of a padded message. The streaming
form keeps the bytes of the block that is not complete yet; fed in any pieces, it is
the fold over the complete blocks. Two lists of blocks with one value are equal when
the last block tells how many there are and no two different inputs of the compression
function that come up in the two folds have the same value.
-/
namespace FractalSQL.Lib.Iterated

variable {α σ : Type*}

/-- The first `n` blocks of `w` values. -/
def takeBlocks (w : ℕ) : ℕ → List α → List (List α)
  | 0, _ => []
  | n + 1, xs => xs.take w :: takeBlocks w n (xs.drop w)

/-- The complete blocks of a list. -/
def blocksOf (w : ℕ) (xs : List α) : List (List α) := takeBlocks w (xs.length / w) xs

@[simp] theorem takeBlocks_length (w n : ℕ) (xs : List α) : (takeBlocks w n xs).length = n := by
  induction n generalizing xs with
  | zero => rfl
  | succ n ih => simp [takeBlocks, ih]

theorem takeBlocks_flatten (w : ℕ) (bs : List (List α)) (rest : List α) (h : ∀ b ∈ bs, b.length = w) :
    takeBlocks w bs.length (bs.flatten ++ rest) = bs := by
  induction bs with
  | nil => rfl
  | cons b bs ih =>
    have hb : b.length = w := h b (by simp)
    rw [List.length_cons, takeBlocks, List.flatten_cons, List.append_assoc, List.take_left' hb, List.drop_left' hb,
      ih fun c hc => h c (by simp [hc])]

theorem flatten_length (w : ℕ) (bs : List (List α)) (h : ∀ b ∈ bs, b.length = w) :
    bs.flatten.length = w * bs.length := by
  induction bs with
  | nil => rfl
  | cons b bs ih =>
    rw [List.flatten_cons, List.length_append, ih fun c hc => h c (by simp [hc]), h b (by simp), List.length_cons]
    ring

theorem blocksOf_flatten {w : ℕ} {bs : List (List α)} {rest : List α} (h : ∀ b ∈ bs, b.length = w)
    (hrest : rest.length < w) : blocksOf w (bs.flatten ++ rest) = bs := by
  have hcount : (bs.flatten ++ rest).length / w = bs.length := by
    rw [List.length_append, flatten_length w bs h]
    apply Nat.div_eq_of_lt_le <;> nlinarith
  rw [blocksOf, hcount, takeBlocks_flatten w bs rest h]

/-- A list is its complete blocks and a rest that is shorter than one. -/
theorem exists_blocks {w : ℕ} (hw : 0 < w) (xs : List α) :
    ∃ (bs : List (List α)) (rest : List α), xs = bs.flatten ++ rest ∧ (∀ b ∈ bs, b.length = w) ∧ rest.length < w := by
  induction hn : xs.length using Nat.strong_induction_on generalizing xs with
  | _ n ih =>
    by_cases h : xs.length < w
    · exact ⟨[], xs, rfl, by simp, h⟩
    · have hlt : (xs.drop w).length < n := by
        rw [List.length_drop]
        omega
      obtain ⟨bs, rest, heq, hbs, hrest⟩ := ih _ hlt (xs.drop w) rfl
      refine ⟨xs.take w :: bs, rest, ?_, ?_, hrest⟩
      · rw [List.flatten_cons, List.append_assoc, ← heq, List.take_append_drop]
      · intro b hb
        cases hb with
        | head => rw [List.length_take]; omega
        | tail _ hb => exact hbs b hb

section Streaming
variable (f : σ → List α → σ) (w : ℕ)

/-- The value of the complete blocks, and what there is of the next one. -/
@[ext] structure Chain (σ α : Type*) where
  state : σ
  buffer : List α

def Chain.push (c : Chain σ α) (x : α) : Chain σ α :=
  if c.buffer.length + 1 = w then ⟨f c.state (c.buffer ++ [x]), []⟩ else ⟨c.state, c.buffer ++ [x]⟩

def Chain.feed (c : Chain σ α) (xs : List α) : Chain σ α := xs.foldl (Chain.push f w) c

/-- Pieces fed one after the other are their concatenation. -/
theorem Chain.feed_append (c : Chain σ α) (xs ys : List α) :
    c.feed f w (xs ++ ys) = (c.feed f w xs).feed f w ys := List.foldl_append

theorem Chain.feed_flatten (c : Chain σ α) (pieces : List (List α)) :
    pieces.foldl (Chain.feed f w) c = c.feed f w pieces.flatten := by
  induction pieces generalizing c with
  | nil => rfl
  | cons xs pieces ih => rw [List.foldl_cons, ih, List.flatten_cons, Chain.feed_append]

/-- Nothing is compressed before a block is complete. -/
theorem Chain.feed_short {c : Chain σ α} {xs : List α} (h : c.buffer.length + xs.length < w) :
    c.feed f w xs = ⟨c.state, c.buffer ++ xs⟩ := by
  induction xs generalizing c with
  | nil =>
    rw [List.append_nil]
    rfl
  | cons x xs ih =>
    rw [List.length_cons] at h
    have hpush : c.push f w x = ⟨c.state, c.buffer ++ [x]⟩ := if_neg (by omega)
    rw [Chain.feed, List.foldl_cons, hpush]
    have hnext := ih (c := ⟨c.state, c.buffer ++ [x]⟩) (by rw [List.length_append, List.length_singleton]; omega)
    rw [Chain.feed] at hnext
    rw [hnext]
    simp

/-- The values that complete a block. -/
theorem Chain.feed_block {c : Chain σ α} {xs : List α} (hne : xs ≠ []) (h : c.buffer.length + xs.length = w) :
    c.feed f w xs = ⟨f c.state (c.buffer ++ xs), []⟩ := by
  rcases List.eq_nil_or_concat' xs with rfl | ⟨ys, x, rfl⟩
  · exact absurd rfl hne
  · rw [List.length_append, List.length_singleton] at h
    have hshort : c.feed f w ys = ⟨c.state, c.buffer ++ ys⟩ := Chain.feed_short f w (by omega)
    have hlast : (c.buffer ++ ys).length + 1 = w := by
      rw [List.length_append]
      omega
    rw [Chain.feed_append, hshort, Chain.feed, List.foldl_cons, List.foldl_nil, Chain.push, if_pos hlast,
      List.append_assoc]

theorem Chain.feed_blocks {w : ℕ} (hw : 0 < w) (s : σ) {bs : List (List α)} {rest : List α}
    (h : ∀ b ∈ bs, b.length = w) (hrest : rest.length < w) :
    (⟨s, []⟩ : Chain σ α).feed f w (bs.flatten ++ rest) = ⟨bs.foldl f s, rest⟩ := by
  induction bs generalizing s with
  | nil =>
    apply Chain.feed_short
    simpa using hrest
  | cons b bs ih =>
    have hb : b.length = w := h b (by simp)
    have hne : b ≠ [] := by
      rintro rfl
      exact hw.ne hb
    rw [List.flatten_cons, List.append_assoc, Chain.feed_append, Chain.feed_block f w hne (by simpa using hb),
      List.nil_append, ih _ fun c hc => h c (by simp [hc]), List.foldl_cons]

/-- The state that a stream holds is the fold over the complete blocks of all it was fed. -/
theorem Chain.feed_eq {w : ℕ} (hw : 0 < w) (s : σ) (xs : List α) :
    ∃ rest, xs = (blocksOf w xs).flatten ++ rest ∧ rest.length < w ∧
      (⟨s, []⟩ : Chain σ α).feed f w xs = ⟨(blocksOf w xs).foldl f s, rest⟩ := by
  obtain ⟨bs, rest, rfl, hbs, hrest⟩ := exists_blocks hw xs
  rw [blocksOf_flatten hbs hrest]
  exact ⟨rest, rfl, hrest, Chain.feed_blocks f hw s hbs hrest⟩

end Streaming

section Binding
variable (f : σ → List α → σ)

/-- The inputs that the compression function is given in a fold. -/
def inputs : σ → List (List α) → List (σ × List α)
  | _, [] => []
  | s, b :: bs => (s, b) :: inputs (f s b) bs

/-- No two different inputs of the two lists have the same value. -/
def NoCollision (ps qs : List (σ × List α)) : Prop := ∀ p ∈ ps, ∀ q ∈ qs, f p.1 p.2 = f q.1 q.2 → p = q

/-- One list has no collision when some part of the values tells its inputs apart. -/
theorem noCollision_self {β : Type*} (code : σ → β) {ps : List (σ × List α)}
    (h : (ps.map fun p => code (f p.1 p.2)).Nodup) : NoCollision f ps ps := by
  intro p hp q hq heq
  apply List.inj_on_of_nodup_map h hp hq
  rw [heq]

/-- The values of a fold, one after the other. With each of them written out, the next
one is computed from a value and not from the whole fold before it. -/
inductive Steps : σ → List (List α) → List σ → Prop where
  | nil (s : σ) : Steps s [] []
  | cons {s t : σ} {b : List α} {bs : List (List α)} {ts : List σ} (computed : f s b = t) (rest : Steps t bs ts) :
    Steps s (b :: bs) (t :: ts)

theorem Steps.values {s : σ} {bs : List (List α)} {ts : List σ} (h : Steps f s bs ts) :
    (inputs f s bs).map (fun p => f p.1 p.2) = ts := by
  induction h with
  | nil s => rfl
  | cons computed rest ih => rw [inputs, List.map_cons, computed, ih]

theorem Steps.foldl {s t : σ} {bs : List (List α)} {ts : List σ} (h : Steps f s bs ts) (hlast : ts.getLast? = some t) :
    bs.foldl f s = t := by
  induction h with
  | nil s => cases hlast
  | @cons s u b bs ts computed rest ih =>
    rw [List.foldl_cons, computed]
    cases rest with
    | nil => exact Option.some.inj hlast
    | cons computed rest => exact ih hlast

theorem inputs_append (s : σ) (bs cs : List (List α)) :
    inputs f s (bs ++ cs) = inputs f s bs ++ inputs f (bs.foldl f s) cs := by
  induction bs generalizing s with
  | nil => rfl
  | cons b bs ih => rw [List.cons_append, inputs, ih, inputs, List.foldl_cons, List.cons_append]

theorem NoCollision.left {ps ps' qs qs' : List (σ × List α)} (h : NoCollision f (ps ++ ps') (qs ++ qs')) :
    NoCollision f ps qs := fun p hp q hq => h p (by simp [hp]) q (by simp [hq])

theorem NoCollision.right {ps ps' qs qs' : List (σ × List α)} (h : NoCollision f (ps ++ ps') (qs ++ qs')) :
    NoCollision f ps' qs' := fun p hp q hq => h p (by simp [hp]) q (by simp [hq])

theorem NoCollision.last {s t : σ} {bs cs : List (List α)} {b c : List α}
    (h : NoCollision f (inputs f s (bs ++ [b])) (inputs f t (cs ++ [c])))
    (heq : (bs ++ [b]).foldl f s = (cs ++ [c]).foldl f t) : bs.foldl f s = cs.foldl f t ∧ b = c := by
  rw [List.foldl_concat, List.foldl_concat] at heq
  have hpair := h (bs.foldl f s, b) (by simp [inputs_append, inputs]) (cs.foldl f t, c)
    (by simp [inputs_append, inputs]) heq
  exact Prod.mk.inj hpair

/-- Folds over equally many blocks. -/
theorem eq_of_foldl_eq {s t : σ} {bs cs : List (List α)} (hclean : NoCollision f (inputs f s bs) (inputs f t cs))
    (hlen : bs.length = cs.length) (heq : bs.foldl f s = cs.foldl f t) : s = t ∧ bs = cs := by
  induction bs using List.reverseRecOn generalizing cs with
  | nil =>
    rw [List.length_nil] at hlen
    obtain rfl := List.eq_nil_of_length_eq_zero hlen.symm
    exact ⟨heq, rfl⟩
  | append_singleton bs b ih =>
    rcases List.eq_nil_or_concat' cs with rfl | ⟨cs, c, rfl⟩
    · simp at hlen
    · obtain ⟨hfold, rfl⟩ := hclean.last f heq
      rw [inputs_append, inputs_append] at hclean
      simp only [List.length_append, List.length_singleton, Nat.add_right_cancel_iff] at hlen
      obtain ⟨rfl, rfl⟩ := ih (hclean.left f) hlen hfold
      exact ⟨rfl, rfl⟩

/-- Folds over blocks whose last one tells their number. -/
theorem eq_of_foldl_eq_of_last {s t : σ} {bs cs : List (List α)}
    (hclean : NoCollision f (inputs f s bs) (inputs f t cs)) (hbs : bs ≠ []) (hcs : cs ≠ [])
    (hlast : bs.getLast? = cs.getLast? → bs.length = cs.length) (heq : bs.foldl f s = cs.foldl f t) :
    s = t ∧ bs = cs := by
  apply eq_of_foldl_eq f hclean _ heq
  apply hlast
  rcases List.eq_nil_or_concat' bs with rfl | ⟨bs, b, rfl⟩
  · exact absurd rfl hbs
  rcases List.eq_nil_or_concat' cs with rfl | ⟨cs, c, rfl⟩
  · exact absurd rfl hcs
  obtain ⟨-, rfl⟩ := hclean.last f heq
  simp

end Binding

end FractalSQL.Lib.Iterated
