import FractalSQL.Ledger.HeadText

/-!
# What one append does to the head records

The head file is rewritten from the records it was read as. Seen through the
lookup by kind, one update touches one kind: its count becomes the larger of the
recorded one and the chain's new length, with a fresh MAC, and every other
kind's record reads back unchanged.
-/
namespace FractalSQL.Ledger
open Lib

/-! ### The record list -/

section Records
variable {kind : ℤ} {f : HeadRec → HeadRec} {recs recs' : List HeadRec}

theorem headRecOf_cons (kind : ℤ) (r : HeadRec) (recs : List HeadRec) :
    headRecOf kind (r :: recs) = if r.kind = kind then some r else headRecOf kind recs := by
  by_cases h : r.kind = kind <;> simp [headRecOf, h]

theorem headRecOf_eq_none : headRecOf kind recs = none ↔ kind ∉ recs.map HeadRec.kind := by
  simp [headRecOf, List.find?_eq_none]

theorem headRecOf_concat {r : HeadRec} (hr : r.kind = kind) (hnone : headRecOf kind recs = none)
    (j : ℤ) : headRecOf j (recs ++ [r]) = if j = kind then some r else headRecOf j recs := by
  subst hr
  induction recs with
  | nil => by_cases h : j = r.kind <;> simp [headRecOf, h, eq_comm]
  | cons s recs ih =>
    rw [headRecOf_cons] at hnone
    split at hnone
    · cases hnone
    · rename_i hs
      rw [List.cons_append, headRecOf_cons, headRecOf_cons, ih hnone]
      by_cases hj : s.kind = j
      · have hne : j ≠ r.kind := fun h => hs (hj.trans h)
        simp [hj, hne]
      · simp [hj]

theorem modifyKind_eq_none : modifyKind kind f recs = none ↔ headRecOf kind recs = none := by
  induction recs with
  | nil => simp [modifyKind, headRecOf]
  | cons r recs ih =>
    rw [modifyKind, headRecOf_cons]
    split
    · simp
    · simpa using ih

/-- Modifying the record of a kind changes that lookup only. -/
theorem modifyKind_spec (hf : ∀ r, (f r).kind = r.kind) (h : modifyKind kind f recs = some recs') :
    recs'.map HeadRec.kind = recs.map HeadRec.kind ∧
      headRecOf kind recs' = (headRecOf kind recs).map f ∧
      ∀ j ≠ kind, headRecOf j recs' = headRecOf j recs := by
  induction recs generalizing recs' with
  | nil => simp [modifyKind] at h
  | cons r recs ih =>
    rw [modifyKind] at h
    split at h
    · rename_i hk
      obtain rfl := Option.some.inj h
      refine ⟨by simp [hf], by simp [headRecOf_cons, hf, hk], fun j hj => ?_⟩
      have hr : r.kind ≠ j := fun e => hj (e.symm.trans hk)
      simp [headRecOf_cons, hf, hr]
    · rename_i hk
      obtain ⟨recs1, h1, rfl⟩ := Option.map_eq_some_iff.mp h
      obtain ⟨hkinds, hown, hother⟩ := ih h1
      refine ⟨by simp [hkinds], by simp [headRecOf_cons, hk, hown], fun j hj => ?_⟩
      rw [headRecOf_cons, headRecOf_cons, hother j hj]

theorem modifyKind_mem (h : modifyKind kind f recs = some recs') {s : HeadRec} (hs : s ∈ recs') :
    s ∈ recs ∨ ∃ r ∈ recs, s = f r := by
  induction recs generalizing recs' with
  | nil => simp [modifyKind] at h
  | cons r recs ih =>
    rw [modifyKind] at h
    split at h
    · obtain rfl := Option.some.inj h
      rcases List.mem_cons.mp hs with rfl | hs
      · exact .inr ⟨r, by simp, rfl⟩
      · exact .inl (by simp [hs])
    · obtain ⟨recs1, h1, rfl⟩ := Option.map_eq_some_iff.mp h
      rcases List.mem_cons.mp hs with rfl | hs
      · exact .inl (by simp)
      · rcases ih h1 hs with hin | ⟨t, ht, rfl⟩
        · exact .inl (by simp [hin])
        · exact .inr ⟨t, by simp [ht], rfl⟩

end Records

/-! ### The file -/

section Keyed
variable (crypto : Crypto) (key : Option Bytes)

/-- The MAC a record has to carry under the configured key. -/
def HeadRec.Authentic (r : HeadRec) : Prop :=
  ∀ k ∈ key, r.mac = some (ledgerHeadMac crypto k r.kind r.rows)

theorem ledgerHeadCheck_eq_none {head : Option Bytes} {recs : List HeadRec} {kind : ℤ}
    (hread : ledgerHeadRead head = some recs) :
    ledgerHeadCheck crypto key head kind = none ↔
      ∀ r, headRecOf kind recs = some r → r.Authentic crypto key := by
  simp only [ledgerHeadCheck, hread]
  cases hr : headRecOf kind recs with
  | none => simp
  | some r =>
    cases key with
    | none => simp [HeadRec.Authentic]
    | some k =>
      cases hm : r.mac with
      | none => simp [HeadRec.Authentic, hm]
      | some m => simp [HeadRec.Authentic, hm, eq_comm]

/-- A head file that reads as `recs`, none of them with a negative kind, in which
the record of every kind a ledger can hold is authentic. -/
structure HeadHolds (head : Option Bytes) (recs : List HeadRec) : Prop where
  read : ledgerHeadRead head = some recs
  kinds : ∀ r ∈ recs, 0 ≤ r.kind
  authentic : ∀ kind : ℤ, 1 ≤ kind → kind ≤ maxKind → ∀ r, headRecOf kind recs = some r →
    r.Authentic crypto key

variable {crypto key}

theorem HeadHolds.printable {head : Option Bytes} {recs : List HeadRec}
    (h : HeadHolds crypto key head recs) : ∀ r ∈ recs, r.Printable := by
  intro r hr
  obtain ⟨hrange, hrows⟩ := (ledgerHeadRead_inRange h.read).2 r hr
  exact ⟨h.kinds r hr, hrange.kind_lt, hrows, hrange.rows_le⟩

theorem HeadHolds.check {head : Option Bytes} {recs : List HeadRec}
    (h : HeadHolds crypto key head recs) {kind : ℤ} (h1 : 1 ≤ kind) (h16 : kind ≤ maxKind) :
    ledgerHeadCheck crypto key head kind = none :=
  (ledgerHeadCheck_eq_none crypto key h.read).mpr (h.authentic kind h1 h16)

/-- The recorded count of a kind, 0 when there is none. -/
def headRows (recs : List HeadRec) (kind : ℤ) : ℤ :=
  match headRecOf kind recs with
  | some r => r.rows
  | none => 0

theorem ledgerHeadGet_eq {head : Option Bytes} {recs : List HeadRec}
    (hread : ledgerHeadRead head = some recs) {kind : UInt32} (h1 : 1 ≤ kind.toNat)
    (h16 : kind.toNat ≤ maxKind) : ledgerHeadGet head kind = headRows recs kind.toNat := by
  have hin : ¬ (kind.toNat < 1 ∨ maxKind < kind.toNat) := by omega
  unfold ledgerHeadGet headRows
  rw [if_neg hin]
  cases hr : headRecOf kind.toNat recs <;> simp only [hread, hr]

theorem bump_kind (chainRows : ℕ) (r : HeadRec) :
    (HeadRec.bump crypto key chainRows r).kind = r.kind := rfl

theorem bump_rows (chainRows : ℕ) (r : HeadRec) :
    (HeadRec.bump crypto key chainRows r).rows = max r.rows (chainRows + 1) := by
  simp only [HeadRec.bump]
  split <;> omega

theorem bump_authentic (chainRows : ℕ) (r : HeadRec) :
    (HeadRec.bump crypto key chainRows r).Authentic crypto key := by
  intro k hk
  obtain rfl : key = some k := hk
  simp [HeadRec.bump]

theorem bump_printable {chainRows : ℕ} {r : HeadRec} (hr : r.Printable)
    (hrows : (chainRows : ℤ) + 1 ≤ longMax) : (HeadRec.bump crypto key chainRows r).Printable where
  kind_nonneg := hr.kind_nonneg
  kind_lt := hr.kind_lt
  rows_nonneg := by rw [bump_rows]; exact le_max_of_le_left hr.rows_nonneg
  rows_le := by rw [bump_rows]; exact max_le hr.rows_le hrows

theorem headHolds_write {recs : List HeadRec} (hprint : ∀ r ∈ recs, r.Printable)
    (hlen : recs.length ≤ headMaxRecs)
    (hauth : ∀ kind : ℤ, 1 ≤ kind → kind ≤ maxKind → ∀ r, headRecOf kind recs = some r →
      r.Authentic crypto key) : HeadHolds crypto key (some (ledgerHeadWrite recs)) recs :=
  ⟨ledgerHeadRead_write hprint hlen, fun r hr => (hprint r hr).kind_nonneg, hauth⟩

/-- The update of a head file that has a record of the kind. -/
theorem headHolds_modify {head : Option Bytes} {recs recs' : List HeadRec}
    (h : HeadHolds crypto key head recs) {kind : ℤ} {chainRows : ℕ}
    (hrows : (chainRows : ℤ) + 1 ≤ longMax)
    (hm : modifyKind kind (HeadRec.bump crypto key chainRows) recs = some recs') :
    HeadHolds crypto key (some (ledgerHeadWrite recs')) recs' := by
  obtain ⟨hkinds, hown, hother⟩ := modifyKind_spec (bump_kind chainRows) hm
  apply headHolds_write
  · intro r hr
    rcases modifyKind_mem hm hr with hin | ⟨s, hs, rfl⟩
    · exact h.printable r hin
    · exact bump_printable (h.printable s hs) hrows
  · have hlen := congrArg List.length hkinds
    rw [List.length_map, List.length_map] at hlen
    rw [hlen]
    exact (ledgerHeadRead_inRange h.read).1
  · intro j hj1 hj16 s hs
    by_cases hj : j = kind
    · rw [hj, hown, Option.map_eq_some_iff] at hs
      obtain ⟨r, -, rfl⟩ := hs
      exact bump_authentic chainRows r
    · exact h.authentic j hj1 hj16 s (hother j hj ▸ hs)

/-- The update of a head file with room that has no record of the kind. -/
theorem headHolds_add {head : Option Bytes} {recs : List HeadRec}
    (h : HeadHolds crypto key head recs) {kind : ℤ} (h1 : 1 ≤ kind) (h16 : kind ≤ maxKind)
    {chainRows : ℕ} (hrows : (chainRows : ℤ) + 1 ≤ longMax) (hnone : headRecOf kind recs = none)
    (hroom : recs.length < headMaxRecs) :
    HeadHolds crypto key
      (some (ledgerHeadWrite (recs ++ [HeadRec.bump crypto key chainRows ⟨kind, 0, none⟩])))
      (recs ++ [HeadRec.bump crypto key chainRows ⟨kind, 0, none⟩]) := by
  have hkind : kind < 2 ^ 31 := h16.trans_lt (by norm_num [maxKind])
  have hfresh : (⟨kind, 0, none⟩ : HeadRec).Printable :=
    ⟨Int.le_trans (by norm_num) h1, hkind, le_rfl, by norm_num [longMax]⟩
  apply headHolds_write
  · intro r hr
    rcases List.mem_append.mp hr with hr | hr
    · exact h.printable r hr
    · rw [List.mem_singleton.mp hr]
      exact bump_printable hfresh hrows
  · rw [List.length_append, List.length_singleton]
    exact hroom
  · intro j hj1 hj16 s hs
    rw [headRecOf_concat (bump_kind chainRows _) hnone] at hs
    split at hs
    · exact Option.some.inj hs ▸ bump_authentic chainRows _
    · exact h.authentic j hj1 hj16 s hs

/-- One update of the head file. Either the kind has its record afterwards, or
the file was full without one and stays as it was. -/
theorem ledgerHeadUpdate_spec {head : Option Bytes} {recs : List HeadRec}
    (h : HeadHolds crypto key head recs) {kind : ℤ} (h1 : 1 ≤ kind) (h16 : kind ≤ maxKind)
    {chainRows : ℕ} (hrows : (chainRows : ℤ) + 1 ≤ longMax) :
    ∃ recs', HeadHolds crypto key (ledgerHeadUpdate crypto key head kind chainRows) recs' ∧
      (∀ j ≠ kind, headRecOf j recs' = headRecOf j recs) ∧
      (headRows recs' kind = max (headRows recs kind) (chainRows + 1) ∧
          (recs'.map HeadRec.kind = recs.map HeadRec.kind ∨
            kind ∉ recs.map HeadRec.kind ∧ recs'.map HeadRec.kind = recs.map HeadRec.kind ++ [kind]) ∨
        recs' = recs ∧ headRecOf kind recs = none ∧ headMaxRecs ≤ recs.length) := by
  simp only [ledgerHeadUpdate, h.read, Option.getD_some]
  cases hm : modifyKind kind (HeadRec.bump crypto key chainRows) recs with
  | some recs' =>
    obtain ⟨hkinds, hown, hother⟩ := modifyKind_spec (bump_kind chainRows) hm
    obtain ⟨r, hr⟩ : ∃ r, headRecOf kind recs = some r := by
      rw [← Option.ne_none_iff_exists', ne_eq, ← modifyKind_eq_none, hm]
      simp
    refine ⟨recs', headHolds_modify h hrows hm, hother, .inl ⟨?_, .inl hkinds⟩⟩
    simp only [headRows, hown, hr, Option.map_some, bump_rows]
  | none =>
    have hnone := modifyKind_eq_none.mp hm
    by_cases hfull : headMaxRecs ≤ recs.length
    · simp only [if_pos hfull]
      exact ⟨recs, h, fun _ _ => rfl, .inr ⟨rfl, hnone, hfull⟩⟩
    · simp only [if_neg hfull]
      have hkind : (HeadRec.bump crypto key chainRows ⟨kind, 0, none⟩).kind = kind := rfl
      have hlook := headRecOf_concat hkind hnone
      refine ⟨_, headHolds_add h h1 h16 hrows hnone (Nat.lt_of_not_le hfull), fun j hj => ?_,
        .inl ⟨?_, .inr ⟨headRecOf_eq_none.mp hnone, by simp [bump_kind]⟩⟩⟩
      · rw [hlook, if_neg hj]
      · simp only [headRows, hlook, if_true, hnone, bump_rows]

end Keyed

end FractalSQL.Ledger
