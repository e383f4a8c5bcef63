import FractalSQL.Ledger.Agreement

/-!
# Truncations and the head counter

Runs that mix appends with truncations of the ledger file at record boundaries.
The head counter of a kind is the longest chain of that kind there ever was, not
the number of rows ever appended, so a truncation stays visible exactly as long
as later appends do not bring the chain back to that length.
-/
namespace FractalSQL.Ledger
open Lib

/-! ### Runs -/

inductive LedgerOp where
  | append (c : WriteCall)
  /-- Cut the ledger file after its first `n` records. -/
  | truncate (n : ℕ)

def truncateFile (n : ℕ) (file : Bytes) : Bytes :=
  file.take (ledgerHeader.length +
    (encodeAll ((recordsOf (file.drop ledgerHeader.length)).take n)).length)

/-- The records of a kind that are in the ledger file now. -/
def rowsNow (files : LedgerFiles) (k : UInt32) : ℕ :=
  (kindRecords k (recordsOf ((files.ledger.getD []).drop ledgerHeader.length))).length

/-- The files and what has happened to them: for each kind the successful appends
and the length of its longest chain. -/
structure LedgerTrace where
  files : LedgerFiles
  ever : UInt32 → ℕ := fun _ => 0
  longest : UInt32 → ℕ := fun _ => 0

section Runs
variable (env : LedgerEnv)

def LedgerTrace.step (t : LedgerTrace) : LedgerOp → LedgerTrace
  | .append c =>
    let out := ledgerWriteEntry env t.files c.kind c.payload c.now
    if out.1 = .ok then
      { files := out.2
        ever := fun k => if (k.toNat : ℤ) = c.kind then t.ever k + 1 else t.ever k
        longest := fun k => max (t.longest k) (rowsNow out.2 k) }
    else { t with files := out.2 }
  | .truncate n => { t with files := { t.files with ledger := t.files.ledger.map (truncateFile n) } }

def LedgerTrace.run (t : LedgerTrace) (ops : List LedgerOp) : LedgerTrace :=
  ops.foldl (LedgerTrace.step env) t

@[simp] theorem run_concat (t : LedgerTrace) (ops : List LedgerOp) (op : LedgerOp) :
    t.run env (ops ++ [op]) = (t.run env ops).step env op := by
  simp [LedgerTrace.run]

/-- Records of kind `k` were appended that are not in the file any more. -/
def LedgerTrace.Missing (t : LedgerTrace) (k : UInt32) : Prop := rowsNow t.files k < t.ever k

/-- Once records are missing, the walk refuses the ledger, then and ever after. -/
def TruncationVisible (t : LedgerTrace) (ops : List LedgerOp) : Prop :=
  ∀ p q, p <+: q → q <+: ops → ∀ k : UInt32, 1 ≤ k.toNat → k.toNat ≤ maxKind →
    (t.run env p).Missing k →
      ∃ id reason, fractalLedgerVerify env (t.run env q).files k = .failed id reason

/-- No append to a kind with missing records makes its chain as long as it ever
was. -/
def NoRegrowth (t : LedgerTrace) (ops : List LedgerOp) : Prop :=
  ∀ p c, p ++ [.append c] <+: ops →
    (ledgerWriteEntry env (t.run env p).files c.kind c.payload c.now).1 = .ok →
      ∀ k : UInt32, (k.toNat : ℤ) = c.kind → (t.run env p).Missing k →
        rowsNow (t.run env p).files k + 1 < (t.run env p).longest k

/-! ### The invariant -/

/-- The head file records the longest chains, and nothing but the kinds a ledger
can hold. -/
structure HeadTracks (head : Option Bytes) (longest : UInt32 → ℕ) (recs : List HeadRec) : Prop where
  holds : HeadHolds env.crypto env.key head recs
  nodup : (recs.map HeadRec.kind).Nodup
  inRange : ∀ kind ∈ recs.map HeadRec.kind, 1 ≤ kind ∧ kind ≤ maxKind
  rows : ∀ k : UInt32, 1 ≤ k.toNat → k.toNat ≤ maxKind → headRows recs k.toNat = longest k

/-- What every run keeps. -/
structure TraceInv (t : LedgerTrace) (rs : List Record) (recs : List HeadRec) : Prop where
  chain : ChainHolds env t.files.ledger rs
  head : HeadTracks env t.files.head t.longest recs
  rows_le : ∀ k, (kindRecords k rs).length ≤ t.longest k
  longest_le : ∀ k, t.longest k ≤ t.ever k

variable {env}

theorem ChainHolds.rowsNow_eq {files : LedgerFiles} {rs : List Record}
    (h : ChainHolds env files.ledger rs) (k : UInt32) :
    rowsNow files k = (kindRecords k rs).length := by
  obtain ⟨ledger, head, csv⟩ := files
  cases h.file with
  | missing => simp [rowsNow]
  | empty => simp [rowsNow]
  | written =>
    rw [rowsNow, Option.getD_some, drop_ledgerHeader, (framed_encodeAll h.fits).records_eq]

theorem HeadTracks.room {head : Option Bytes} {longest : UInt32 → ℕ} {recs : List HeadRec}
    (h : HeadTracks env head longest recs) : recs.length < headMaxRecs := by
  have hsub : (recs.map HeadRec.kind).toFinset ⊆ Finset.Icc 1 (maxKind : ℤ) := by
    intro kind hkind
    exact Finset.mem_Icc.mpr (h.inRange kind (List.mem_toFinset.mp hkind))
  have hcard := Finset.card_le_card hsub
  rw [List.toFinset_card_of_nodup h.nodup, List.length_map] at hcard
  simp only [Int.card_Icc] at hcard
  unfold headMaxRecs
  omega

/-- An append moves the head record of its kind to the chain's new length if that
is a new maximum, and leaves the others. -/
theorem HeadTracks.update {head : Option Bytes} {longest : UInt32 → ℕ} {recs : List HeadRec}
    (h : HeadTracks env head longest recs) {kind : ℤ} (h1 : 1 ≤ kind) (h16 : kind ≤ maxKind)
    (chainRows : ℕ) (hrows : (chainRows : ℤ) + 1 ≤ longMax) (longest' : UInt32 → ℕ)
    (hown : ∀ k : UInt32, (k.toNat : ℤ) = kind → longest' k = max (longest k) (chainRows + 1))
    (hother : ∀ k : UInt32, (k.toNat : ℤ) ≠ kind → longest' k = longest k) :
    ∃ recs', HeadTracks env (ledgerHeadUpdate env.crypto env.key head kind chainRows) longest' recs' := by
  obtain ⟨recs', hh, hsame, hcase⟩ := ledgerHeadUpdate_spec h.holds h1 h16 hrows
  rcases hcase with ⟨hmax, hkinds⟩ | ⟨-, -, hfull⟩
  · refine ⟨recs', hh, ?_, ?_, fun k hk1 hk16 => ?_⟩
    · rcases hkinds with hk | ⟨hnew, hk⟩
      · exact hk ▸ h.nodup
      · rw [hk]
        exact h.nodup.append (List.nodup_singleton kind) (by simpa using hnew)
    · rcases hkinds with hk | ⟨-, hk⟩
      · exact hk ▸ h.inRange
      · rw [hk]
        intro j hj
        rcases List.mem_append.mp hj with hj | hj
        · exact h.inRange j hj
        · rw [List.mem_singleton.mp hj]
          exact ⟨h1, h16⟩
    · have hold := h.rows k hk1 hk16
      by_cases hk : (k.toNat : ℤ) = kind
      · rw [hk] at hold ⊢
        rw [hmax, hold, hown k hk]
        push_cast
        rfl
      · rw [hother k hk, ← hold]
        simp only [headRows, hsame _ hk]
  · exact absurd hfull (Nat.not_le.mpr h.room)

/-- Cutting a file at a record boundary leaves a file of its first records. -/
theorem ChainHolds.truncate {ledger : Option Bytes} {rs : List Record} (h : ChainHolds env ledger rs)
    (n : ℕ) : ChainHolds env (ledger.map (truncateFile n)) (rs.take n) := by
  have hsplit : rs = rs.take n ++ rs.drop n := (List.take_append_drop n rs).symm
  have hfile : FileHolds (ledger.map (truncateFile n)) (rs.take n) := by
    cases h.file with
    | missing => simpa using FileHolds.missing
    | empty => simpa [truncateFile] using FileHolds.empty
    | written =>
      have hcut : truncateFile n (ledgerHeader ++ encodeAll rs) =
          ledgerHeader ++ encodeAll (rs.take n) := by
        rw [truncateFile, drop_ledgerHeader, (framed_encodeAll h.fits).records_eq,
          ← List.length_append]
        conv_lhs => rw [hsplit, encodeAll_append, ← List.append_assoc]
        rw [← hsplit, List.take_left]
      rw [Option.map_some, hcut]
      exact .written (rs.take n)
  have hsize : ((ledger.map (truncateFile n)).getD []).length ≤ offMax := by
    cases ledger with
    | none => simp
    | some bs =>
      have := h.size
      simp only [Option.map_some, Option.getD_some, truncateFile, List.length_take] at this ⊢
      omega
  refine ⟨hfile, fun r hr => h.fits r (List.mem_of_mem_take hr), hsize, fun k hk1 hk16 => ?_⟩
  have hc := h.chains k hk1 hk16
  rw [hsplit] at hc
  constructor
  · intro r hr
    exact hc.sound r (by rw [kindRecords_append]; exact List.mem_append_left _ hr)
  · have hl := hc.linked
    rw [kindRecords_append, linked_append] at hl
    exact hl.1

theorem kindRecords_concat_length {rs : List Record} {r : Record} {kind : ℤ}
    (hr : (r.kind.toNat : ℤ) = kind) (k : UInt32) :
    (kindRecords k (rs ++ [r])).length =
      (kindRecords k rs).length + if (k.toNat : ℤ) = kind then 1 else 0 := by
  have htag : r.kind = k ↔ (k.toNat : ℤ) = kind := by
    rw [← hr, ← UInt32.toNat_inj]
    omega
  by_cases hk : r.kind = k
  · simp [kindRecords_cons, hk, htag.mp hk]
  · have hne : (k.toNat : ℤ) ≠ kind := fun e => hk (htag.mpr e)
    simp [kindRecords_cons, hk, hne]

/-- A successful append adds one row to its own kind. -/
theorem ChainHolds.rowsNow_write {files : LedgerFiles} {rs : List Record}
    (h : ChainHolds env files.ledger rs) (c : WriteCall)
    (hok : (ledgerWriteEntry env files c.kind c.payload c.now).1 = .ok) (k : UInt32) :
    rowsNow (ledgerWriteEntry env files c.kind c.payload c.now).2 k =
      rowsNow files k + if (k.toNat : ℤ) = c.kind then 1 else 0 := by
  rcases h.write c.kind c.payload c.now with ⟨hfail, -⟩ | ⟨r, -, h1, h16, hkind, -, -, -, hc⟩
  · exact absurd hok hfail
  · rw [hc.rowsNow_eq, h.rowsNow_eq, kindRecords_concat_length (hkind ▸ toNat_kind h1 h16)]

/-- Appends and truncations keep the invariant. -/
theorem TraceInv.step {t : LedgerTrace} {rs : List Record} {recs : List HeadRec}
    (h : TraceInv env t rs recs) (op : LedgerOp) :
    ∃ rs' recs', TraceInv env (t.step env op) rs' recs' := by
  cases op with
  | truncate n =>
    refine ⟨rs.take n, recs, h.chain.truncate n, h.head, fun k => ?_, h.longest_le⟩
    have hsub : (kindRecords k (rs.take n)).Sublist (kindRecords k rs) :=
      (List.take_sublist n rs).filter _
    exact hsub.length_le.trans (h.rows_le k)
  | append c =>
    simp only [LedgerTrace.step]
    rcases h.chain.write c.kind c.payload c.now with
      ⟨hfail, hsame⟩ | ⟨r, hok, h1, h16, hkind, -, -, hhead, hc⟩
    · rw [if_neg hfail, hsame]
      exact ⟨rs, recs, h⟩
    · rw [if_pos hok]
      have hrkind : (r.kind.toNat : ℤ) = c.kind := hkind ▸ toNat_kind h1 h16
      have hnow (k : UInt32) : rowsNow (ledgerWriteEntry env t.files c.kind c.payload c.now).2 k =
          (kindRecords k rs).length + if (k.toNat : ℤ) = c.kind then 1 else 0 := by
        rw [h.chain.rowsNow_write c hok, h.chain.rowsNow_eq]
      have hcount := hc.count_le r.kind
      rw [kindRecords_concat_length hrkind, if_pos hrkind, Nat.cast_add, Nat.cast_one] at hcount
      obtain ⟨recs', hh⟩ := h.head.update h1 h16 (kindRecords r.kind rs).length hcount
        (fun k => max (t.longest k)
          (rowsNow (ledgerWriteEntry env t.files c.kind c.payload c.now).2 k))
        (fun k hk => by
          obtain rfl : k = r.kind := UInt32.toNat_inj.mp (by omega)
          simp only [hnow, hk, if_true])
        (fun k hk => by
          have := h.rows_le k
          simp only [hnow, hk, if_false]
          omega)
      refine ⟨rs ++ [r], recs', hc, hhead ▸ hh, fun k => ?_, fun k => ?_⟩
      · rw [← hc.rowsNow_eq]
        exact le_max_right _ _
      · have h2 := h.rows_le k
        have h3 := h.longest_le k
        simp only [hnow]
        split <;> omega

/-- A run from a ledger nothing was written to. -/
theorem traceInv_run (env : LedgerEnv) (ledger csv : Option Bytes) (hfresh : ledger = none ∨ ledger = some [])
    (ops : List LedgerOp) :
    ∃ rs recs, TraceInv env (LedgerTrace.run env { files := ⟨ledger, none, csv⟩ } ops) rs recs := by
  induction ops using List.reverseRecOn with
  | nil =>
    have hstart : LedgerHolds env ⟨ledger, none, csv⟩ [] := ledgerHolds_fresh hfresh
    have hhead : HeadHolds env.crypto env.key none [] := ⟨rfl, by simp, by simp [headRecOf]⟩
    exact ⟨[], [], hstart.chain, ⟨hhead, by simp, by simp, fun _ _ _ => rfl⟩,
      fun _ => le_rfl, fun _ => le_rfl⟩
  | append_singleton ops op ih =>
    obtain ⟨rs, recs, h⟩ := ih
    rw [run_concat]
    exact h.step op

/-- The walk refuses a ledger of a run exactly when a chain is shorter than it
ever was, or the file is one that exists empty. -/
theorem TraceInv.failed_iff {t : LedgerTrace} {rs : List Record} {recs : List HeadRec}
    (h : TraceInv env t rs recs) {k : UInt32} (h1 : 1 ≤ k.toNat) (h16 : k.toNat ≤ maxKind) :
    (∃ id reason, fractalLedgerVerify env t.files k = .failed id reason) ↔
      t.files.ledger = some [] ∨ rowsNow t.files k < t.longest k := by
  by_cases he : t.files.ledger = some []
  · simp only [he, true_or, iff_true]
    exact ⟨0, .badHeader, by simp [fractalLedgerVerify, he, ledgerOpenForRead, dropLit, ledgerHeader]⟩
  · have hrows := h.head.rows k h1 h16
    rw [h.chain.rowsNow_eq]
    rcases h.chain.verify he h.head.holds h1 h16 with ⟨hle, hok⟩ | ⟨hlt, hfail⟩
    · simp only [hok, he, false_or]
      constructor
      · rintro ⟨_, _, hc⟩
        cases hc
      · intro hlt
        omega
    · simp only [hfail, he, false_or, true_iff]
      omega

/-- Missing records stay missing: an append adds to both counts, a truncation
takes from one. -/
theorem TraceInv.missing_step {t : LedgerTrace} {rs : List Record} {recs : List HeadRec}
    (h : TraceInv env t rs recs) (op : LedgerOp) {k : UInt32} (hm : t.Missing k) :
    (t.step env op).Missing k := by
  unfold LedgerTrace.Missing at hm ⊢
  cases op with
  | truncate n =>
    have hsub : (kindRecords k (rs.take n)).Sublist (kindRecords k rs) :=
      (List.take_sublist n rs).filter _
    have hle : rowsNow (t.step env (.truncate n)).files k ≤ rowsNow t.files k := by
      rw [h.chain.rowsNow_eq]
      simp only [LedgerTrace.step]
      rw [(h.chain.truncate n).rowsNow_eq]
      exact hsub.length_le
    exact hle.trans_lt hm
  | append c =>
    simp only [LedgerTrace.step]
    by_cases hok : (ledgerWriteEntry env t.files c.kind c.payload c.now).1 = .ok
    · rw [if_pos hok]
      simp only [h.chain.rowsNow_write c hok k]
      split <;> omega
    · rw [if_neg hok]
      rcases h.chain.write c.kind c.payload c.now with ⟨-, hsame⟩ | ⟨_, hyes, _⟩
      · simpa [hsame] using hm
      · exact absurd hyes hok

/-- Missing records show in the head counter. -/
def LedgerTrace.Shows (t : LedgerTrace) : Prop :=
  ∀ k : UInt32, t.Missing k → rowsNow t.files k < t.longest k

/-- One step keeps missing records visible, unless it is an append that brings the
chain back to its greatest length. -/
theorem TraceInv.shows_step {t : LedgerTrace} {rs : List Record} {recs : List HeadRec}
    (h : TraceInv env t rs recs) (hs : t.Shows) (op : LedgerOp)
    (hop : ∀ c, op = .append c → (ledgerWriteEntry env t.files c.kind c.payload c.now).1 = .ok →
      ∀ k : UInt32, (k.toNat : ℤ) = c.kind → t.Missing k → rowsNow t.files k + 1 < t.longest k) :
    (t.step env op).Shows := by
  intro k hm
  unfold LedgerTrace.Missing at hm
  have hrows := h.rows_le k
  rw [← h.chain.rowsNow_eq] at hrows
  cases op with
  | truncate n =>
    have hcut : rowsNow (t.step env (.truncate n)).files k = (kindRecords k (rs.take n)).length :=
      (h.chain.truncate n).rowsNow_eq k
    have hsub : (kindRecords k (rs.take n)).Sublist (kindRecords k rs) :=
      (List.take_sublist n rs).filter _
    have hle := hsub.length_le
    rw [← hcut, ← h.chain.rowsNow_eq] at hle
    change _ < t.longest k
    change _ < t.ever k at hm
    by_cases hold : t.Missing k
    · exact hle.trans_lt (hs k hold)
    · -- Nothing was missing before, so the cut itself took the chain below its length.
      unfold LedgerTrace.Missing at hold
      omega
  | append c =>
    simp only [LedgerTrace.step] at hm ⊢
    by_cases hok : (ledgerWriteEntry env t.files c.kind c.payload c.now).1 = .ok
    · rw [if_pos hok] at hm ⊢
      have hnow := h.chain.rowsNow_write c hok k
      simp only [hnow] at hm ⊢
      by_cases hk : (k.toNat : ℤ) = c.kind
      · simp only [hk, if_true] at hm ⊢
        have := hop c rfl hok k hk (by unfold LedgerTrace.Missing; omega)
        omega
      · simp only [hk, if_false, Nat.add_zero] at hm ⊢
        have := hs k hm
        omega
    · rw [if_neg hok] at hm ⊢
      rcases h.chain.write c.kind c.payload c.now with ⟨-, hsame⟩ | ⟨_, hyes, _⟩
      · simp only [hsame] at hm ⊢
        exact hs k hm
      · exact absurd hyes hok

end Runs

section Main
variable {env : LedgerEnv} {ledger csv : Option Bytes}

theorem missing_later (hfresh : ledger = none ∨ ledger = some []) {p q : List LedgerOp}
    (hpq : p <+: q) {k : UInt32}
    (hm : (LedgerTrace.run env { files := ⟨ledger, none, csv⟩ } p).Missing k) :
    (LedgerTrace.run env { files := ⟨ledger, none, csv⟩ } q).Missing k := by
  obtain ⟨ops, rfl⟩ := hpq
  induction ops using List.reverseRecOn with
  | nil => simpa using hm
  | append_singleton ops op ih =>
    obtain ⟨rs, recs, h⟩ := traceInv_run env ledger csv hfresh (p ++ ops)
    rw [← List.append_assoc, run_concat]
    exact h.missing_step op ih

theorem shows_of_noRegrowth (hfresh : ledger = none ∨ ledger = some []) {ops : List LedgerOp}
    (hno : NoRegrowth env { files := ⟨ledger, none, csv⟩ } ops) {q : List LedgerOp} (hq : q <+: ops) :
    (LedgerTrace.run env { files := ⟨ledger, none, csv⟩ } q).Shows := by
  induction q using List.reverseRecOn with
  | nil =>
    intro k hm
    exact absurd hm (Nat.not_lt_zero _)
  | append_singleton q op ih =>
    have hprev := ih ((List.prefix_append q [op]).trans hq)
    obtain ⟨rs, recs, h⟩ := traceInv_run env ledger csv hfresh q
    rw [run_concat]
    apply h.shows_step hprev
    rintro c rfl
    exact hno q c hq

/-- Along a run from a ledger nothing was written to, truncations stay visible
exactly when no append to a kind with missing records restores its greatest
length. -/
theorem truncation_visible_iff (env : LedgerEnv) (ledger csv : Option Bytes)
    (hfresh : ledger = none ∨ ledger = some []) (ops : List LedgerOp) :
    TruncationVisible env { files := ⟨ledger, none, csv⟩ } ops ↔
      NoRegrowth env { files := ⟨ledger, none, csv⟩ } ops := by
  constructor
  · intro hvis p c hp hok k hk hm
    obtain ⟨rs, recs, h⟩ := traceInv_run env ledger csv hfresh p
    obtain ⟨rs', recs', h'⟩ := traceInv_run env ledger csv hfresh (p ++ [.append c])
    rcases h.chain.write c.kind c.payload c.now with ⟨hno, -⟩ | ⟨r, -, h1, h16, hkind, -, hfile, -⟩
    · exact absurd hok hno
    have hm' := h.missing_step (.append c) hm
    rw [← run_concat] at hm'
    have hfail := (h'.failed_iff (by omega) (by omega)).mp
      (hvis _ _ (List.prefix_refl _) hp k (by omega) (by omega) hm')
    have hnow := h.chain.rowsNow_write c hok k
    rw [run_concat] at hfail
    simp only [LedgerTrace.step, hok, if_true, hfile, hnow, hk] at hfail
    rcases hfail with he | hlt
    · simp [ledgerHeader] at he
    · omega
  · intro hno p q hpq hq k h1 h16 hm
    obtain ⟨rs, recs, h⟩ := traceInv_run env ledger csv hfresh q
    exact (h.failed_iff h1 h16).mpr
      (.inr (shows_of_noRegrowth hfresh hno hq k (missing_later hfresh hpq hm)))

end Main

/-- One append, and the record it wrote cut off again. -/
theorem truncation_visible_after_one_append :
    TruncationVisible (sampleEnv none) { files := {} } [.append ⟨1, [9], 0⟩, .truncate 0] := by
  refine (truncation_visible_iff (sampleEnv none) none none (.inl rfl) _).mpr ?_
  intro p c hp hok k hk hm
  match p, hp with
  | [], _ => exact absurd hm (Nat.not_lt_zero _)
  | [_], hp => simp at hp
  | _ :: _ :: _, hp => simp at hp

/-- A second append after that cut hides it: two records were appended, one is
there, and the ledger verifies. -/
theorem regrown_ledger_verifies :
    ¬ TruncationVisible (sampleEnv none) { files := {} }
      [.append ⟨1, [9], 0⟩, .truncate 0, .append ⟨1, [8], 0⟩] := by
  intro h
  have hmissing : (LedgerTrace.run (sampleEnv none) { files := {} }
      [.append ⟨1, [9], 0⟩, .truncate 0, .append ⟨1, [8], 0⟩]).Missing 1 := by
    unfold LedgerTrace.Missing
    decide +kernel
  have hverified : fractalLedgerVerify (sampleEnv none) (LedgerTrace.run (sampleEnv none) { files := {} }
      [.append ⟨1, [9], 0⟩, .truncate 0, .append ⟨1, [8], 0⟩]).files 1 = .verified 1 := by
    decide +kernel
  obtain ⟨id, reason, hfail⟩ := h _ _ (List.prefix_refl _) (List.prefix_refl _) 1 (by decide)
    (by decide) hmissing
  cases hverified.symm.trans hfail

end FractalSQL.Ledger
