import Mathlib.Tactic

/-!
# Hash-linked lists

A record carries the hash of its predecessor and a hash of its own. A list is
linked from `g` when each record names the hash before it. Nothing is assumed
about records or hashes here; the last section adds a digest that is injective
on the preimages in play and never yields the starting hash.
-/
namespace FractalSQL.Lib

variable {R H P C : Type*} (prev hash : R → H)

/-- Each record names the hash of the one before it, the first one names `g`. -/
def Linked : H → List R → Prop
  | _, [] => True
  | g, r :: rs => prev r = g ∧ Linked (hash r) rs

instance Linked.decidable [DecidableEq H] : (g : H) → (rs : List R) → Decidable (Linked prev hash g rs)
  | _, [] => isTrue trivial
  | g, r :: rs =>
    haveI := Linked.decidable (hash r) rs
    inferInstanceAs (Decidable (prev r = g ∧ Linked prev hash (hash r) rs))

/-- The hash the next record of the chain has to name. -/
def endHash (g : H) (rs : List R) : H := rs.foldl (fun _ r => hash r) g

@[simp] theorem endHash_nil (g : H) : endHash hash g [] = g := rfl

@[simp] theorem endHash_cons (g : H) (r : R) (rs : List R) :
    endHash hash g (r :: rs) = endHash hash (hash r) rs := rfl

theorem endHash_append (g : H) (rs ss : List R) :
    endHash hash g (rs ++ ss) = endHash hash (endHash hash g rs) ss := List.foldl_append

@[simp] theorem endHash_concat (g : H) (rs : List R) (r : R) :
    endHash hash g (rs ++ [r]) = hash r := by
  simp [endHash_append]

@[simp] theorem linked_nil (g : H) : Linked prev hash g [] := trivial

theorem linked_cons (g : H) (r : R) (rs : List R) :
    Linked prev hash g (r :: rs) ↔ prev r = g ∧ Linked prev hash (hash r) rs := Iff.rfl

theorem linked_append (g : H) (rs ss : List R) :
    Linked prev hash g (rs ++ ss) ↔
      Linked prev hash g rs ∧ Linked prev hash (endHash hash g rs) ss := by
  induction rs generalizing g with
  | nil => simp
  | cons r rs ih => simp only [List.cons_append, linked_cons, ih, endHash_cons, and_assoc]

/-- Appending keeps the list linked exactly when the new record names its end. -/
theorem linked_concat (g : H) (rs : List R) (r : R) :
    Linked prev hash g (rs ++ [r]) ↔ Linked prev hash g rs ∧ prev r = endHash hash g rs := by
  simp [linked_append, linked_cons]

/-- Replacing one record of a linked list keeps it linked with the same end
exactly when both hashes of the record are kept. -/
theorem linked_replace_iff {g : H} {before after : List R} {r : R} (r' : R)
    (h : Linked prev hash g (before ++ r :: after)) :
    (Linked prev hash g (before ++ r' :: after) ∧
        endHash hash g (before ++ r' :: after) = endHash hash g (before ++ r :: after)) ↔
      prev r' = prev r ∧ hash r' = hash r := by
  simp only [linked_append, linked_cons, endHash_append, endHash_cons] at h ⊢
  obtain ⟨hbefore, hprev, hafter⟩ := h
  constructor
  · rintro ⟨⟨_, hprev', hafter'⟩, hend⟩
    refine ⟨hprev'.trans hprev.symm, ?_⟩
    cases after with
    | nil => exact hend
    | cons s ss => exact hafter'.1.symm.trans hafter.1
  · rintro ⟨hp, hh⟩
    rw [hh]
    exact ⟨⟨hbefore, hp.trans hprev, hafter⟩, rfl⟩

section Binding
variable (pre : R → P) (content : R → C) (digest : P → H)

/-- Two linked lists with the same end carry the same contents, when a record's
hash is an injective digest of something that fixes its content and its link
and the digest never produces the starting hash. -/
theorem linked_binding {g : H} {rs ss : List R}
    (hinj : ∀ r ∈ rs, ∀ s ∈ ss, digest (pre r) = digest (pre s) → pre r = pre s)
    (hparse : ∀ r ∈ rs, ∀ s ∈ ss, pre r = pre s → prev r = prev s ∧ content r = content s)
    (hrs : ∀ r ∈ rs, hash r = digest (pre r) ∧ digest (pre r) ≠ g)
    (hss : ∀ s ∈ ss, hash s = digest (pre s) ∧ digest (pre s) ≠ g)
    (hlr : Linked prev hash g rs) (hls : Linked prev hash g ss)
    (hend : endHash hash g rs = endHash hash g ss) :
    rs.map content = ss.map content := by
  -- Both lists are peeled from the tip: equal ends give equal last records up
  -- to content, and equal links to the records before them.
  induction rs using List.reverseRecOn generalizing ss with
  | nil =>
    rcases List.eq_nil_or_concat' ss with rfl | ⟨ss, s, rfl⟩
    · rfl
    · obtain ⟨hs, hne⟩ := hss s (by simp)
      rw [endHash_nil, endHash_concat, hs] at hend
      exact absurd hend.symm hne
  | append_singleton rs r ih =>
    obtain ⟨hr, hrne⟩ := hrs r (by simp)
    rcases List.eq_nil_or_concat' ss with rfl | ⟨ss, s, rfl⟩
    · rw [endHash_nil, endHash_concat, hr] at hend
      exact absurd hend hrne
    · obtain ⟨hs, -⟩ := hss s (by simp)
      rw [endHash_concat, endHash_concat, hr, hs] at hend
      have hpre := hinj r (by simp) s (by simp) hend
      obtain ⟨hprev, hcontent⟩ := hparse r (by simp) s (by simp) hpre
      rw [linked_concat] at hlr hls
      have hends : endHash hash g rs = endHash hash g ss := by
        rw [← hlr.2, ← hls.2, hprev]
      have hrest := ih (fun a ha b hb => hinj a (by simp [ha]) b (by simp [hb]))
        (fun a ha b hb => hparse a (by simp [ha]) b (by simp [hb]))
        (fun a ha => hrs a (by simp [ha])) (fun b hb => hss b (by simp [hb])) hlr.1 hls.1 hends
      simp [hrest, hcontent]

end Binding

end FractalSQL.Lib
