import Mathlib.Data.List.Basic
import Mathlib.Order.Basic
import Mathlib.Data.Nat.Find

/-!
# Masking the matches of a pattern

A pattern matches a lead, a run and a tail; the runs of its leftmost matches, taken one after
another without overlap, are replaced. A scanner that looks back into its own output finds the
same runs when it sees a match exactly where one began.
-/
namespace FractalSQL.Lib

/-- Lead, run and tail of a match, and the text behind it. -/
abbrev Pattern (α : Type) := List α → List α → List α → List α → Prop

/-- A stretch of a text that stays, or a run. -/
inductive Stretch (α : Type) where
  | plain (text : List α)
  | run (text : List α)

variable {α : Type} (M : Pattern α) (mask : List α)

def Stretch.text : Stretch α → List α
  | .plain text => text
  | .run text => text

def Stretch.shown : Stretch α → List α
  | .plain text => text
  | .run _ => mask

def wholeText (ps : List (Stretch α)) : List α := ps.flatMap Stretch.text

/-- The text with its runs masked. -/
def maskedText (ps : List (Stretch α)) : List α := ps.flatMap (Stretch.shown mask)

/-- A match begins where the text begins. -/
def Begins (text : List α) : Prop :=
  ∃ lead run tail post, M lead run tail post ∧ text = lead ++ (run ++ (tail ++ post))

/-- The text falls into the runs of its matches and the rest, from the left, each match behind
the one before. -/
inductive Runs : List α → List (Stretch α) → Prop where
  | done {text : List α} (h : ∀ i, ¬ Begins M (text.drop i)) : Runs text [.plain text]
  | next {before lead run tail post : List α} {ps : List (Stretch α)} (hm : M lead run tail post)
    (hfirst : ∀ i < before.length, ¬ Begins M ((before ++ (lead ++ (run ++ (tail ++ post)))).drop i))
    (hpost : Runs post ps) :
    Runs (before ++ (lead ++ (run ++ (tail ++ post)))) (.plain (before ++ lead) :: .run run :: .plain tail :: ps)

/-- Every match in the text is masked already. -/
def Settled (text : List α) : Prop :=
  ∀ before lead run tail post, text = before ++ (lead ++ (run ++ (tail ++ post))) → M lead run tail post → run = mask

/-! ### The stretches -/

section
variable {M : Pattern α} {text : List α} {ps : List (Stretch α)}

@[simp] theorem maskedText_plain (text : List α) (ps : List (Stretch α)) :
    maskedText mask (.plain text :: ps) = text ++ maskedText mask ps := rfl

@[simp] theorem maskedText_run (text : List α) (ps : List (Stretch α)) :
    maskedText mask (.run text :: ps) = mask ++ maskedText mask ps := rfl

@[simp] theorem maskedText_nil : maskedText mask ([] : List (Stretch α)) = [] := rfl

theorem Runs.whole (h : Runs M text ps) : wholeText ps = text := by
  induction h with
  | done => exact List.append_nil _
  | next hm hfirst hpost ih =>
    simp only [wholeText, List.flatMap_cons, Stretch.text] at ih ⊢
    rw [ih, List.append_assoc]

/-- The first match is masked, the rest is masked after it. -/
theorem maskedText_next (before lead run tail : List α) (ps : List (Stretch α)) :
    maskedText mask (.plain (before ++ lead) :: .run run :: .plain tail :: ps) =
      before ++ (lead ++ (mask ++ (tail ++ maskedText mask ps))) := by
  rw [maskedText_plain, maskedText_run, maskedText_plain, List.append_assoc]

/-- While no match is empty, every text falls into runs. -/
theorem Runs.total (hrun : ∀ {lead run tail post}, M lead run tail post → run ≠ []) (text : List α) :
    ∃ ps, Runs M text ps := by
  classical
  induction hlen : text.length using Nat.strong_induction_on generalizing text with
  | _ n ih =>
    by_cases h : ∃ i, Begins M (text.drop i)
    · obtain ⟨lead, run, tail, post, hm, hdrop⟩ := Nat.find_spec h
      have htext : text.take (Nat.find h) ++ (lead ++ (run ++ (tail ++ post))) = text := by
        rw [← hdrop, List.take_append_drop]
      have hpos := List.length_pos_of_ne_nil (hrun hm)
      have hshort : post.length < n := by
        rw [← hlen, ← htext]
        simp only [List.length_append]
        omega
      obtain ⟨ps, hps⟩ := ih post.length hshort post rfl
      have hfirst : ∀ i < (text.take (Nat.find h)).length,
          ¬ Begins M ((text.take (Nat.find h) ++ (lead ++ (run ++ (tail ++ post)))).drop i) := by
        intro i hi
        rw [htext]
        exact Nat.find_min h (hi.trans_le (List.length_take_le _ _))
      rw [← htext]
      exact ⟨_, .next hm hfirst hps⟩
    · exact ⟨_, .done fun i hi => h ⟨i, hi⟩⟩

theorem Settled.drop {mask before : List α} (h : Settled M mask (before ++ text)) : Settled M mask text := by
  intro b lead run tail post htext
  refine h (before ++ b) lead run tail post ?_
  rw [htext, List.append_assoc]

theorem Runs.masked_of_settled {mask : List α} (h : Runs M text ps) (hs : Settled M mask text) :
    maskedText mask ps = text := by
  induction h with
  | done => exact List.append_nil _
  | @next before lead run tail post ps hm hfirst hpost ih =>
    have hsettled : Settled M mask (before ++ (lead ++ (run ++ tail)) ++ post) := by
      simpa only [List.append_assoc] using hs
    rw [maskedText_next, ih hsettled.drop, hs before lead run tail post rfl hm]

/-- A text keeps its first character: a lead is not empty. -/
theorem Runs.head?_masked (hlead : ∀ {lead run tail post}, M lead run tail post → lead ≠ []) (h : Runs M text ps) :
    (maskedText mask ps).head? = text.head? := by
  cases h with
  | done => rw [maskedText_plain, maskedText_nil, List.append_nil]
  | @next before lead run tail post ps hm hfirst hpost =>
    rw [maskedText_next, ← List.append_assoc, ← List.append_assoc before]
    have hne : before ++ lead ≠ [] := List.append_ne_nil_of_right_ne_nil _ (hlead hm)
    rw [List.head?_append_of_ne_nil _ hne, List.head?_append_of_ne_nil _ hne]

end

/-! ### The scanner -/

/-- Copies character by character; where `hit` finds text to copy and a run behind it, copies the
text and writes the mask for the run. -/
def maskWith (hit : List α → List α → Option (List α × List α)) : (out text : List α) → List α
  | out, [] => out
  | out, c :: text =>
    match hit out (c :: text) with
    | some (copied, run) => maskWith hit (out ++ (copied ++ mask)) (text.drop (copied.length + run.length - 1))
    | none => maskWith hit (out ++ [c]) text
termination_by _ text => text.length
decreasing_by
  · rw [List.length_drop, List.length_cons]
    omega
  · exact Nat.lt_succ_self _

variable {mask}

theorem maskWith_skip {hit : List α → List α → Option (List α × List α)} {a : List α} {out text : List α}
    (h : ∀ j < a.length, hit (out ++ a.take j) (a.drop j ++ text) = none) :
    maskWith mask hit out (a ++ text) = maskWith mask hit (out ++ a) text := by
  induction a generalizing out with
  | nil => rw [List.nil_append, List.append_nil]
  | cons c a ih =>
    have hc : hit out (c :: (a ++ text)) = none := by
      have h0 := h 0 (Nat.zero_lt_succ _)
      rwa [List.take_zero, List.append_nil, List.drop_zero] at h0
    rw [List.cons_append, maskWith, hc]
    dsimp only
    rw [ih, List.append_assoc, List.singleton_append]
    intro j hj
    have hsucc := h (j + 1) (Nat.succ_lt_succ hj)
    rwa [List.take_succ_cons, List.drop_succ_cons, List.append_cons] at hsucc

theorem maskWith_hit {hit : List α → List α → Option (List α × List α)} {out copied run text : List α}
    (hcopied : copied ≠ []) (h : hit out (copied ++ (run ++ text)) = some (copied, run)) :
    maskWith mask hit out (copied ++ (run ++ text)) = maskWith mask hit (out ++ (copied ++ mask)) text := by
  cases copied with
  | nil => exact absurd rfl hcopied
  | cons c copied =>
    rw [List.cons_append] at h ⊢
    rw [maskWith, h]
    dsimp only
    have hdrop : (copied ++ (run ++ text)).drop ((c :: copied).length + run.length - 1) = text := by
      rw [List.length_cons, show copied.length + 1 + run.length - 1 = (copied ++ run).length by
        rw [List.length_append]; omega, ← List.append_assoc, List.drop_left]
    rw [hdrop]

/-- The scanner sees a match behind what it copied of the lead, and where it sees one, one began;
an output that is `Ready` begins none. -/
structure Scans (hit : List α → List α → Option (List α × List α)) (M : Pattern α) (mask : List α)
    (Ready : List α → Prop) : Prop where
  start : Ready []
  nonempty {lead run tail post : List α} : M lead run tail post → run ≠ []
  begun {out text : List α} {j : ℕ} : Ready out → hit (out ++ text.take j) (text.drop j) ≠ none →
    ∃ i < j, Begins M (text.drop i)
  seen {lead run tail post : List α} (out : List α) : M lead run tail post → ∃ early copied, lead = early ++ copied ∧
    copied ≠ [] ∧ (∀ j < early.length, hit (out ++ early.take j) (early.drop j ++ (copied ++ (run ++ (tail ++ post)))) = none) ∧
    hit (out ++ early) (copied ++ (run ++ (tail ++ post))) = some (copied, run)
  after {lead run tail post : List α} (out : List α) : M lead run tail post →
    (∀ j < tail.length, hit (out ++ mask ++ tail.take j) (tail.drop j ++ post) = none) ∧ Ready (out ++ mask ++ tail)

section
variable {M : Pattern α} {hit : List α → List α → Option (List α × List α)} {Ready : List α → Prop}
  (hscan : Scans hit M mask Ready)
include hscan

/-- The scanner replaces the runs of the leftmost matches. -/
theorem Scans.maskWith_eq {text out : List α} {ps : List (Stretch α)} (h : Runs M text ps) (hout : Ready out) :
    maskWith mask hit out text = out ++ maskedText mask ps := by
  induction h generalizing out with
  | @done text hnone =>
    have hskip : maskWith mask hit out (text ++ []) = maskWith mask hit (out ++ text) [] := maskWith_skip fun j hj => by
      rw [List.append_nil]
      by_contra hhit
      obtain ⟨i, -, hbegins⟩ := hscan.begun hout hhit
      exact hnone i hbegins
    rw [List.append_nil] at hskip
    rw [hskip, maskWith, maskedText_plain, maskedText_nil, List.append_nil]
  | @next before lead run tail post ps hm hfirst hpost ih =>
    obtain ⟨early, copied, rfl, hcopied, hearly, hhit⟩ := hscan.seen (out ++ before) hm
    have hbefore : ∀ j < before.length,
        hit (out ++ before.take j) (before.drop j ++ (early ++ copied ++ (run ++ (tail ++ post)))) = none := by
      intro j hj
      by_contra hsome
      rw [← List.take_append_of_le_length hj.le, ← List.drop_append_of_le_length hj.le] at hsome
      obtain ⟨i, hi, hbegins⟩ := hscan.begun hout hsome
      exact hfirst i (hi.trans hj) hbegins
    obtain ⟨htail, hready⟩ := hscan.after (out ++ before ++ early ++ copied) hm
    rw [maskWith_skip hbefore, List.append_assoc early, maskWith_skip hearly, maskWith_hit hcopied hhit,
      ← List.append_assoc (out ++ before ++ early), maskWith_skip htail, ih hready, maskedText_next]
    simp only [List.append_assoc]

/-- A text whose matches are all masked stays as it is. -/
theorem Scans.maskWith_of_settled {text : List α} (hs : Settled M mask text) : maskWith mask hit [] text = text := by
  obtain ⟨ps, hps⟩ := Runs.total hscan.nonempty text
  rw [hscan.maskWith_eq hps hscan.start, List.nil_append, hps.masked_of_settled hs]

end

end FractalSQL.Lib
