import FractalSQL.Vectors.Numbers

/-!
# A corpus and its texts

The rows of a corpus are read from sections of its text. When row texts are joined with commas into
one, the corpus holds the numbers of the texts in order, wherever the sections end.
-/
namespace FractalSQL.Vectors
open Lib

variable {underflow : ℚ → Bool}

/-! ### The rows of a corpus -/

/-- The texts that the rows of a corpus are read from. -/
def corpusTexts (src : Bytes) : List Bytes :=
  let s := src.dropWhile isBlank
  if (corpusBody s).all isBlankOrBracket then [] else rowTexts (cutSections (inBrackets s) [] (corpusBody s))

theorem gap_of_blankOrBracket {b : UInt8} (h : isBlankOrBracket b = true) : isGap b = true := by
  rcases of_decide_eq_true h with h | h | h <;> simp [isGap, isFiller, h]

theorem gap_of_blank {b : UInt8} (h : isBlank b = true) : isGap b = true := by simp [isGap, isFiller, h]

/-- A corpus is read exactly when each of these is a vector of the dimension. -/
theorem parseCorpus_iff {dim : ℕ} (hdim : dim ≠ 0) {src : Bytes} {c : Corpus} : parseCorpus underflow src dim = .ok c ↔
    c.dim = dim ∧ (corpusTexts src).map (parseVectorCsv underflow) = c.rows.map .ok ∧ ∀ row ∈ c.rows, row.length = dim := by
  rw [parseCorpus, corpusTexts]
  by_cases hblank : (corpusBody (src.dropWhile isBlank)).all isBlankOrBracket = true
  · simp only [if_pos hblank]
    obtain ⟨rows, d⟩ := c
    constructor
    · rintro ⟨⟩
      exact ⟨rfl, rfl, nofun⟩
    · rintro ⟨hd, hrows, -⟩
      obtain rfl : rows = [] := List.map_eq_nil_iff.mp hrows.symm
      cases hd
      rfl
  · simp only [if_neg hblank]
    exact parseRows_iff hdim

/-- The outer brackets are fillers. -/
theorem numbers_corpusBody (s : Bytes) : numbers underflow isGap (corpusBody s) = numbers underflow isGap s := by
  unfold corpusBody
  by_cases hbr : inBrackets s = true
  · rw [if_pos hbr]
    have hopen : s = 91 :: s.drop 1 := by
      cases s with
      | nil => cases hbr
      | cons b t => rw [show b = 91 by simpa [inBrackets] using (of_decide_eq_true hbr).1]; rfl
    have hfront : numbers underflow isGap s = numbers underflow isGap (s.drop 1) := by
      conv_lhs => rw [hopen]
      exact numbers_fill (w := [91]) (List.forall_mem_singleton.mpr (by decide)) _
    have hblank : numbers underflow isGap ((s.drop 1).rdropWhile isBlank) = numbers underflow isGap (s.drop 1) := by
      conv_rhs => rw [← List.rdropWhile_append_rtakeWhile (p := isBlank) (l := s.drop 1)]
      exact (numbers_trail (fun c hc => isStop_of_gap hc) (fun b hb => gap_of_blank (List.mem_rtakeWhile_imp hb)) _).symm
    rw [hfront, ← hblank]
    generalize (s.drop 1).rdropWhile isBlank = t
    dsimp only
    split_ifs with hlast
    · conv_rhs => rw [← List.dropLast_append_getLast? 93 hlast]
      exact (numbers_trail (fun c hc => isStop_of_gap hc) (List.forall_mem_singleton.mpr (by decide)) _).symm
    · rfl
  · rw [if_neg hbr]

theorem mem_corpusBody {s : Bytes} {b : UInt8} (h : b ∈ corpusBody s) : b ∈ s := by
  unfold corpusBody at h
  split_ifs at h with hbr
  · dsimp only at h
    split_ifs at h
    · exact List.mem_of_mem_drop ((List.rdropWhile_prefix isBlank _).subset (List.mem_of_mem_dropLast h))
    · exact List.mem_of_mem_drop ((List.rdropWhile_prefix isBlank _).subset h)
  · exact h

/-- The numbers of a corpus text are those of the texts of its rows. -/
theorem allNumbers_corpusTexts (src : Bytes) : allNumbers underflow isGap (corpusTexts src) = numbers underflow isGap src := by
  have hbody : numbers underflow isGap (corpusBody (src.dropWhile isBlank)) = numbers underflow isGap src := by
    rw [numbers_corpusBody]
    conv_rhs => rw [← List.takeWhile_append_dropWhile (p := isBlank) (l := src)]
    exact (numbers_fill (fun b hb => gap_of_blank (List.mem_takeWhile_imp hb)) _).symm
  unfold corpusTexts
  by_cases hblank : (corpusBody (src.dropWhile isBlank)).all isBlankOrBracket = true
  · have hnone : numbers underflow isGap (corpusBody (src.dropWhile isBlank)) = some [] :=
      numbers_of_fill fun b hb => gap_of_blankOrBracket (List.all_eq_true.mp hblank b hb)
    simp only [if_pos hblank]
    rw [← hbody, hnone]
    rfl
  · simp only [if_neg hblank]
    rw [allNumbers_rowTexts, allNumbers_cutSections, List.nil_append, hbody]

theorem mem_corpusTexts {src s : Bytes} (h : s ∈ corpusTexts src) {b : UInt8} (hb : b ∈ s) : b ∈ src := by
  unfold corpusTexts at h
  dsimp only at h
  split_ifs at h
  · cases h
  · obtain ⟨s', hs', rfl⟩ := List.mem_map.mp (List.mem_filter.mp h).1
    have hmem := mem_cutSections hs' (mem_trimRow hb)
    rw [List.nil_append] at hmem
    exact (List.dropWhile_suffix isBlank).subset (mem_corpusBody hmem)

/-- What is read of texts is the numbers that they hold. -/
theorem allNumbers_of_parse {ss : List Bytes} (hnul : ∀ s ∈ ss, 0 ∉ s) {rows : List (List Signed)}
    (h : ss.map (parseVectorCsv underflow) = rows.map .ok) : allNumbers underflow isGap ss = some rows.flatten := by
  induction ss generalizing rows with
  | nil =>
    obtain rfl : rows = [] := List.map_eq_nil_iff.mp h.symm
    rfl
  | cons s ss ih =>
    cases rows with
    | nil => cases h
    | cons row rows =>
      obtain ⟨hrow, hrows⟩ := List.cons.inj h
      have hnum := numbers_gap (numbers_of_parse hrow (hnul s (List.mem_cons_self ..))).1
      rw [allNumbers, hnum, ih (fun t ht => hnul t (List.mem_cons_of_mem _ ht)) hrows]
      rfl

/-! ### Joined texts -/

/-- Texts with commas between them. -/
def joinTexts : List Bytes → Bytes
  | [] => []
  | [t] => t
  | t :: ts => t ++ 44 :: joinTexts ts

theorem numbers_joinTexts (ts : List Bytes) : numbers underflow isGap (joinTexts ts) = allNumbers underflow isGap ts := by
  induction ts with
  | nil => rfl
  | cons t ts ih =>
    cases ts with
    | nil => rw [allNumbers, allNumbers, andThen_nil_right, joinTexts]
    | cons t' ts =>
      have hcons : joinTexts (t :: t' :: ts) = t ++ 44 :: joinTexts (t' :: ts) := rfl
      rw [hcons, numbers_append (by decide) (by decide) (by decide), ih, ← allNumbers]

theorem mem_joinTexts {ts : List Bytes} {b : UInt8} (h : b ∈ joinTexts ts) : b = 44 ∨ ∃ t ∈ ts, b ∈ t := by
  induction ts with
  | nil => cases h
  | cons t ts ih =>
    cases ts with
    | nil => exact .inr ⟨t, List.mem_singleton_self t, h⟩
    | cons t' ts =>
      have hcons : b ∈ t ++ 44 :: joinTexts (t' :: ts) := h
      rw [List.mem_append, List.mem_cons] at hcons
      rcases hcons with h | rfl | h
      · exact .inr ⟨t, List.mem_cons_self .., h⟩
      · exact .inl rfl
      · rcases ih h with h | ⟨s, hs, h⟩
        · exact .inl h
        · exact .inr ⟨s, List.mem_cons_of_mem _ hs, h⟩

/-- The text of a corpus: an array of the row texts. -/
def arrayText (joined : Bytes) : Bytes := 91 :: (joined ++ [93])

theorem numbers_arrayText (s : Bytes) : numbers underflow isGap (arrayText s) = numbers underflow isGap s := by
  have hopen : numbers underflow isGap (arrayText s) = numbers underflow isGap (s ++ [93]) :=
    numbers_fill (w := [91]) (List.forall_mem_singleton.mpr (by decide)) _
  rw [hopen, numbers_trail (fun c hc => isStop_of_gap hc) (List.forall_mem_singleton.mpr (by decide))]

/-! ### Lists of one length -/

/-- Lists of one length are found again in what they make together. -/
theorem eq_of_flatten_eq {α : Type} {dim : ℕ} (hdim : dim ≠ 0) {xs ys : List (List α)} (hxs : ∀ x ∈ xs, x.length = dim)
    (hys : ∀ y ∈ ys, y.length = dim) (h : xs.flatten = ys.flatten) : xs = ys := by
  have hlengths {zs : List (List α)} (hzs : ∀ z ∈ zs, z.length = dim) : zs.map List.length = List.replicate zs.length dim := by
    rw [List.eq_replicate_iff, List.length_map]
    exact ⟨rfl, List.forall_mem_map.mpr hzs⟩
  have hcount : xs.length = ys.length := by
    have hlen := congrArg List.length h
    rw [List.length_flatten, List.length_flatten, hlengths hxs, hlengths hys, List.sum_replicate, List.sum_replicate] at hlen
    exact Nat.eq_of_mul_eq_mul_right (Nat.pos_of_ne_zero hdim) hlen
  rw [List.eq_iff_flatten_eq, hlengths hxs, hlengths hys, hcount]
  exact ⟨h, rfl⟩

end FractalSQL.Vectors
