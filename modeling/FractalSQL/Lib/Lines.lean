import Mathlib.Tactic

/-!
# Lines of a stream

A stream cut at a separator: its first line, and its lines up to the first one that stops.
-/
namespace FractalSQL.Lib

variable {α : Type*} [DecidableEq α] (sep : α)

/-- The first line and what follows its separator. -/
def cutAt : List α → Option (List α × List α)
  | [] => none
  | b :: s => if b = sep then some ([], s) else (cutAt s).map fun p => (b :: p.1, p.2)

/-- The lines before the first one that stops, and what follows that one. -/
def linesUntil (stop : List α → Bool) : List α → List α → List (List α) × Option (List α)
  | _, [] => ([], none)
  | line, b :: s =>
    if b = sep then
      if stop line then ([], some s)
      else (line :: (linesUntil stop [] s).1, (linesUntil stop [] s).2)
    else linesUntil stop (line ++ [b]) s

/-- Lines with their separators. -/
def unlines (ls : List (List α)) : List α := ls.flatMap (· ++ [sep])

variable {sep}

theorem cutAt_eq_some {s l r : List α} : cutAt sep s = some (l, r) ↔ sep ∉ l ∧ s = l ++ sep :: r := by
  induction s generalizing l with
  | nil => simp [cutAt]
  | cons b s ih =>
    rw [cutAt]
    split
    · rename_i hb
      subst hb
      cases l with
      | nil => simp
      | cons a l =>
        simp only [Option.some.injEq, Prod.mk.injEq, List.cons_append, List.cons.injEq, List.mem_cons]
        constructor
        · rintro ⟨h, -⟩
          cases h
        · rintro ⟨h, rfl, -⟩
          exact absurd (Or.inl rfl) h
    · rename_i hb
      cases l with
      | nil =>
        simp only [Option.map_eq_some_iff, Prod.mk.injEq, List.nil_append, List.cons.injEq]
        constructor
        · rintro ⟨p, -, h, -⟩
          cases h
        · rintro ⟨-, h, -⟩
          exact absurd h hb
      | cons a l =>
        simp only [Option.map_eq_some_iff, Prod.mk.injEq, List.cons_append, List.cons.injEq, List.mem_cons, not_or]
        constructor
        · rintro ⟨p, hp, ⟨rfl, rfl⟩, rfl⟩
          obtain ⟨hmem, hs⟩ := ih.mp hp
          exact ⟨⟨Ne.symm hb, hmem⟩, rfl, hs⟩
        · rintro ⟨⟨-, hmem⟩, rfl, hs⟩
          exact ⟨(l, r), ih.mpr ⟨hmem, hs⟩, ⟨rfl, rfl⟩, rfl⟩

theorem cutAt_eq_none {s : List α} : cutAt sep s = none ↔ sep ∉ s := by
  constructor
  · intro hcut hmem
    obtain ⟨l, r, hs, hl⟩ := List.eq_append_cons_of_mem hmem
    cases hcut.symm.trans (cutAt_eq_some.mpr ⟨hl, hs⟩)
  · intro hmem
    cases hcut : cutAt sep s with
    | none => rfl
    | some p =>
      obtain ⟨-, hs⟩ := cutAt_eq_some.mp (show cutAt sep s = some (p.1, p.2) from hcut)
      exact absurd (hs ▸ by simp) hmem

theorem linesUntil_cut (stop : List α → Bool) {l : List α} (h : sep ∉ l) (line s : List α) :
    linesUntil sep stop line (l ++ sep :: s) =
      if stop (line ++ l) then ([], some s)
      else ((line ++ l) :: (linesUntil sep stop [] s).1, (linesUntil sep stop [] s).2) := by
  induction l generalizing line with
  | nil => simp [linesUntil]
  | cons b l ih =>
    rw [List.mem_cons, not_or] at h
    rw [List.cons_append, linesUntil, if_neg (Ne.symm h.1), ih h.2, List.append_assoc]
    rfl

theorem linesUntil_open (stop : List α → Bool) {s : List α} (h : sep ∉ s) (line : List α) :
    linesUntil sep stop line s = ([], none) := by
  induction s generalizing line with
  | nil => rfl
  | cons b s ih =>
    rw [List.mem_cons, not_or] at h
    rw [linesUntil, if_neg (Ne.symm h.1)]
    exact ih h.2 _

/-- What was written as lines and a last one is read back, whatever follows. -/
theorem linesUntil_unlines (stop : List α → Bool) {ls : List (List α)} {e : List α}
    (hls : ∀ l ∈ ls, sep ∉ l ∧ stop l = false) (he : sep ∉ e ∧ stop e = true) (s : List α) :
    linesUntil sep stop [] (unlines sep ls ++ (e ++ sep :: s)) = (ls, some s) := by
  induction ls with
  | nil =>
    rw [unlines, List.flatMap_nil, List.nil_append, linesUntil_cut stop he.1, List.nil_append, if_pos he.2]
  | cons l ls ih =>
    obtain ⟨hsep, hstop⟩ := hls l (List.mem_cons_self ..)
    have hrest := ih fun m hm => hls m (List.mem_cons_of_mem _ hm)
    have hcons : unlines sep (l :: ls) ++ (e ++ sep :: s) = l ++ sep :: (unlines sep ls ++ (e ++ sep :: s)) := by
      simp [unlines]
    rw [hcons, linesUntil_cut stop hsep, List.nil_append, hrest, hstop]
    rfl

omit [DecidableEq α] in
theorem unlines_concat (ls : List (List α)) (l : List α) : unlines sep (ls ++ [l]) = unlines sep ls ++ (l ++ [sep]) := by
  simp [unlines]

theorem splitOn_unlines {ls : List (List α)} (h : ∀ l ∈ ls, sep ∉ l) :
    (unlines sep ls).splitOn sep = ls ++ [[]] := by
  induction ls with
  | nil => exact List.splitOn_nil sep
  | cons l ls ih =>
    have hcons : unlines sep (l :: ls) = l ++ sep :: unlines sep ls := by simp [unlines]
    rw [hcons, List.splitOn_append_cons_self_of_not_mem (h l (List.mem_cons_self ..)),
      ih fun m hm => h m (List.mem_cons_of_mem _ hm)]
    rfl

/-- Lines without separators are known from the text that they make. -/
theorem unlines_injective {ls ls' : List (List α)} (h : ∀ l ∈ ls, sep ∉ l) (h' : ∀ l ∈ ls', sep ∉ l)
    (heq : unlines sep ls = unlines sep ls') : ls = ls' := by
  have hsplit := splitOn_unlines h
  rw [heq, splitOn_unlines h'] at hsplit
  exact (List.append_cancel_right hsplit).symm

theorem count_unlines {ls : List (List α)} (h : ∀ l ∈ ls, sep ∉ l) : (unlines sep ls).count sep = ls.length := by
  induction ls with
  | nil => rfl
  | cons l ls ih =>
    have hcons : unlines sep (l :: ls) = l ++ sep :: unlines sep ls := by simp [unlines]
    rw [hcons, List.count_append, List.count_eq_zero_of_not_mem (h l (List.mem_cons_self ..)), List.count_cons_self,
      ih fun m hm => h m (List.mem_cons_of_mem _ hm), List.length_cons, Nat.zero_add]

/-- Every stream falls into the lines read of it, the stopping one and the rest, or into
whole lines and one that is not at its end. -/
theorem linesUntil_cases (stop : List α → Bool) (s : List α) :
    (∀ l ∈ (linesUntil sep stop [] s).1, sep ∉ l ∧ stop l = false) ∧
      ∀ tail, (linesUntil sep stop [] s).2 = some tail →
        ∃ e, sep ∉ e ∧ stop e = true ∧ s = unlines sep (linesUntil sep stop [] s).1 ++ (e ++ sep :: tail) := by
  induction hn : s.length using Nat.strong_induction_on generalizing s with
  | _ n ih =>
    cases hcut : cutAt sep s with
    | none =>
      rw [linesUntil_open stop (cutAt_eq_none.mp hcut)]
      exact ⟨nofun, nofun⟩
    | some p =>
      obtain ⟨hl, hs⟩ := cutAt_eq_some.mp (show cutAt sep s = some (p.1, p.2) from hcut)
      have hlt : p.2.length < n := by
        rw [← hn, hs, List.length_append, List.length_cons]
        omega
      have hread : linesUntil sep stop [] s =
          if stop p.1 then ([], some p.2)
          else (p.1 :: (linesUntil sep stop [] p.2).1, (linesUntil sep stop [] p.2).2) := by
        rw [hs, linesUntil_cut stop hl, List.nil_append]
      rw [hread]
      split
      · rename_i hstop
        refine ⟨nofun, fun tail htail => ⟨p.1, hl, hstop, ?_⟩⟩
        cases htail
        exact hs
      · rename_i hstop
        obtain ⟨hlines, hend⟩ := ih p.2.length hlt p.2 rfl
        refine ⟨fun l hmem => ?_, fun tail htail => ?_⟩
        · obtain rfl | hrest := List.mem_cons.mp hmem
          · exact ⟨hl, by simpa using hstop⟩
          · exact hlines l hrest
        · obtain ⟨e, hsep, he, heq⟩ := hend tail htail
          refine ⟨e, hsep, he, ?_⟩
          rw [hs]
          conv_lhs => rw [heq]
          simp [unlines]

end FractalSQL.Lib
