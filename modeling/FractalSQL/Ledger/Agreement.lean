import FractalSQL.Ledger.Append

/-!
# Appends and the readers agree over whole runs

From a ledger that was never written to, or from a healthy one, any sequence of
calls to the writer leaves a ledger on which the full walk counts exactly the
records appended, the load-time check passes, and a read returns the newest
payload.
-/
namespace FractalSQL.Ledger
open Lib

/-- The arguments of one call of `ledger_write_entry` and the clock it reads. -/
structure WriteCall where
  kind : ℤ
  payload : Bytes
  now : Int64

/-- The files after a sequence of calls. -/
def appendAll (env : LedgerEnv) (files : LedgerFiles) : List WriteCall → LedgerFiles
  | [] => files
  | c :: calls => appendAll env (ledgerWriteEntry env files c.kind c.payload c.now).2 calls

/-- The calls of a sequence that returned `FSQL_OK`. -/
def appended (env : LedgerEnv) (files : LedgerFiles) : List WriteCall → List WriteCall
  | [] => []
  | c :: calls =>
    let out := ledgerWriteEntry env files c.kind c.payload c.now
    if out.1 = .ok then c :: appended env out.2 calls else appended env out.2 calls

/-- A healthy ledger: its chains are sound and its head file claims no more rows
than they hold. -/
structure LedgerHolds (env : LedgerEnv) (files : LedgerFiles) (rs : List Record) : Prop where
  chain : ChainHolds env files.ledger rs
  head : ∃ recs, HeadHolds env.crypto env.key files.head recs ∧
    ∀ k : UInt32, 1 ≤ k.toNat → k.toNat ≤ maxKind →
      headRows recs k.toNat ≤ (kindRecords k rs).length

section Runs
variable {env : LedgerEnv}

/-- The head file after an append to a healthy ledger. -/
theorem headRows_append {head : Option Bytes} {recs : List HeadRec} {rs : List Record} {r : Record}
    (hh : HeadHolds env.crypto env.key head recs)
    (hle : ∀ k : UInt32, 1 ≤ k.toNat → k.toNat ≤ maxKind →
      headRows recs k.toNat ≤ (kindRecords k rs).length)
    {kind : ℤ} (h1 : 1 ≤ kind) (h16 : kind ≤ maxKind) (hr : r.kind = UInt32.ofNat kind.toNat)
    (hcount : ((kindRecords r.kind rs).length : ℤ) + 1 ≤ longMax) :
    ∃ recs', HeadHolds env.crypto env.key
        (ledgerHeadUpdate env.crypto env.key head kind (kindRecords r.kind rs).length) recs' ∧
      ∀ k : UInt32, 1 ≤ k.toNat → k.toNat ≤ maxKind →
        headRows recs' k.toNat ≤ (kindRecords k (rs ++ [r])).length := by
  obtain ⟨recs', hh', hother, hown⟩ := ledgerHeadUpdate_spec hh h1 h16 hcount
  have hkind : (r.kind.toNat : ℤ) = kind := hr ▸ toNat_kind h1 h16
  refine ⟨recs', hh', fun k hk1 hk16 => ?_⟩
  have hold := hle k hk1 hk16
  rw [kindRecords_append, List.length_append]
  by_cases hk : r.kind = k
  · subst hk
    rw [hkind] at hold ⊢
    rw [kindRecords_cons, if_pos rfl, kindRecords_nil, List.length_singleton]
    rcases hown with ⟨hrows, -⟩ | ⟨rfl, hnone, -⟩
    · omega
    · simp only [headRows, hnone]
      omega
  · have hne : (k.toNat : ℤ) ≠ kind := by
      rw [← hkind]
      exact fun e => hk (UInt32.toNat_inj.mp (by omega))
    have hsame : headRows recs' k.toNat = headRows recs k.toNat := by
      simp only [headRows, hother _ hne]
    omega

/-- One call keeps the ledger healthy. -/
theorem LedgerHolds.write {files : LedgerFiles} {rs : List Record} (h : LedgerHolds env files rs)
    (c : WriteCall) :
    ((ledgerWriteEntry env files c.kind c.payload c.now).1 ≠ .ok ∧
        (ledgerWriteEntry env files c.kind c.payload c.now).2 = files) ∨
      ∃ r : Record, (ledgerWriteEntry env files c.kind c.payload c.now).1 = .ok ∧
        (r.kind.toNat : ℤ) = c.kind ∧ r.blob = c.payload ∧
        (ledgerWriteEntry env files c.kind c.payload c.now).2.ledger ≠ some [] ∧
        LedgerHolds env (ledgerWriteEntry env files c.kind c.payload c.now).2 (rs ++ [r]) := by
  rcases h.chain.write c.kind c.payload c.now with hfail | ⟨r, hok, h1, h16, hkind, hblob, hfile, hhead, hc⟩
  · exact .inl hfail
  · right
    obtain ⟨recs, hh, hle⟩ := h.head
    have hcount := hc.count_le r.kind
    rw [kindRecords_append, List.length_append, kindRecords_cons, if_pos rfl, kindRecords_nil,
      List.length_singleton, Nat.cast_add, Nat.cast_one] at hcount
    refine ⟨r, hok, hkind ▸ toNat_kind h1 h16, hblob, ?_, hc, ?_⟩
    · rw [hfile]
      simp [ledgerHeader]
    · rw [hhead]
      exact headRows_append hh hle h1 h16 hkind hcount

/-- What a run leaves: the records there were, followed by one record for each
successful call, in order. -/
theorem LedgerHolds.appendAll {files : LedgerFiles} {rs : List Record} (h : LedgerHolds env files rs)
    (calls : List WriteCall) :
    ∃ ss : List Record, LedgerHolds env (appendAll env files calls) (rs ++ ss) ∧
      ss.map (fun r => ((r.kind.toNat : ℤ), r.blob)) =
        (appended env files calls).map (fun c => (c.kind, c.payload)) ∧
      ((Ledger.appendAll env files calls).ledger = some [] →
        files.ledger = some [] ∧ appended env files calls = []) := by
  induction calls generalizing files rs with
  | nil => exact ⟨[], by simpa [Ledger.appendAll] using h, rfl, fun he => ⟨he, rfl⟩⟩
  | cons c calls ih =>
    rcases h.write c with ⟨hfail, hsame⟩ | ⟨r, hok, hkind, hblob, hne, hnext⟩
    · obtain ⟨ss, hss⟩ := ih h
      exact ⟨ss, by simpa [Ledger.appendAll, appended, hfail, hsame] using hss⟩
    · obtain ⟨ss, hholds, hmap, hempty⟩ := ih hnext
      refine ⟨r :: ss, by simpa [Ledger.appendAll] using hholds, ?_, ?_⟩
      · simp [appended, hok, hmap, hkind, hblob]
      · intro he
        exact absurd (hempty he).1 hne

theorem kindRecords_map_blob {ss : List Record} {done : List WriteCall} {kind : ℤ}
    (h : ss.map (fun r => ((r.kind.toNat : ℤ), r.blob)) = done.map (fun c => (c.kind, c.payload)))
    (h1 : 1 ≤ kind) (h16 : kind ≤ maxKind) :
    (kindRecords (UInt32.ofNat kind.toNat) ss).map Record.blob =
      (done.filter (fun c => c.kind = kind)).map WriteCall.payload := by
  have hkind := toNat_kind h1 h16
  induction ss generalizing done with
  | nil =>
    obtain rfl : done = [] := by simpa using h.symm
    rfl
  | cons r ss ih =>
    cases done with
    | nil => simp at h
    | cons c done =>
      simp only [List.map_cons, List.cons.injEq, Prod.mk.injEq] at h
      have hrest := ih h.2
      have hiff : r.kind = UInt32.ofNat kind.toNat ↔ c.kind = kind := by
        rw [← h.1.1, ← UInt32.toNat_inj]
        omega
      by_cases hc : c.kind = kind
      · simp [kindRecords_cons, hiff, hc, hrest, h.1.2]
      · simp [kindRecords_cons, hiff, hc, hrest]

/-- Over any run of appends, as long as the file is not one that exists empty:
the full walk verifies as many rows as there are records of the kind, the tip
passes its check, and a read returns the payload appended last. -/
theorem append_verify_agreement (env : LedgerEnv) (files : LedgerFiles) (rs : List Record)
    (h : LedgerHolds env files rs) (calls : List WriteCall)
    (hne : files.ledger = some [] → appended env files calls ≠ []) (kind : ℤ) (h1 : 1 ≤ kind)
    (h16 : kind ≤ maxKind) :
    let payloads := (kindRecords (UInt32.ofNat kind.toNat) rs).map Record.blob ++
      ((appended env files calls).filter (fun c => c.kind = kind)).map WriteCall.payload
    fractalLedgerVerify env (appendAll env files calls) (UInt32.ofNat kind.toNat) =
        .verified payloads.length ∧
      ledgerVerifyLatestFile env (appendAll env files calls) (UInt32.ofNat kind.toNat) = .ok ∧
      ledgerReadEntry (appendAll env files calls) kind = newestPayload payloads := by
  intro payloads
  obtain ⟨ss, hholds, hmap, hempty⟩ := h.appendAll calls
  have hfile : (appendAll env files calls).ledger ≠ some [] := fun he =>
    hne (hempty he).1 (hempty he).2
  have hpay : (kindRecords (UInt32.ofNat kind.toNat) (rs ++ ss)).map Record.blob = payloads := by
    rw [kindRecords_append, List.map_append, kindRecords_map_blob hmap h1 h16]
  have hkind := toNat_kind h1 h16
  have hk1 : 1 ≤ (UInt32.ofNat kind.toNat).toNat := by omega
  have hk16 : (UInt32.ofNat kind.toNat).toNat ≤ maxKind := by omega
  obtain ⟨recs, hh, hle⟩ := hholds.head
  refine ⟨?_, hholds.chain.verifyLatest hfile hk1 hk16, ?_⟩
  · rcases hholds.chain.verify hfile hh hk1 hk16 with ⟨-, hok⟩ | ⟨hlt, -⟩
    · rw [hok, ← hpay, List.length_map]
    · exact absurd (hle _ hk1 hk16) (not_le.mpr hlt)
  · rw [hholds.chain.read hfile h1 h16, hpay]

/-- A ledger nothing was written to yet is healthy. -/
theorem ledgerHolds_fresh {ledger csv : Option Bytes} (h : ledger = none ∨ ledger = some []) :
    LedgerHolds env ⟨ledger, none, csv⟩ [] := by
  have hfile : FileHolds ledger [] := by
    rcases h with rfl | rfl
    · exact .missing
    · exact .empty
  have hsize : (ledger.getD []).length ≤ offMax := by
    rcases h with rfl | rfl <;> simp
  exact ⟨⟨hfile, by simp, hsize, fun k _ _ => chainFrom_nil k zeroHash⟩,
    [], ⟨rfl, by simp, by simp [headRecOf]⟩, by simp [headRows, headRecOf]⟩

end Runs

/-- A polynomial digest to run the model with. -/
def sampleDigest (seed : ℕ) (bs : Bytes) : Hash :=
  leBlock 32 (bs.foldl (fun h b => (h * 257 + b.toNat + 1) % 2 ^ 256) seed)

def sampleEnv (key : Option Bytes) : LedgerEnv where
  crypto := ⟨sampleDigest 1, fun k msg => sampleDigest (leValue k) msg⟩
  key := key
  maxBytes := none

theorem appended_first_call : appended (sampleEnv (some [7])) {} [⟨2, [1, 2, 3], 0⟩] =
    [⟨2, [1, 2, 3], 0⟩] := by
  have hok : (ledgerWriteEntry (sampleEnv (some [7])) {} 2 [1, 2, 3] 0).1 = .ok :=
    (ledgerHolds_fresh (.inl rfl)).chain.write_ok (by norm_num) (by norm_num [maxKind])
      (by norm_num [maxBlobBytes]) 0 (by simp [openLedger]) (by norm_num [offMax])
  simp [appended, hok]

theorem append_verify_agreement_first_call :
    fractalLedgerVerify (sampleEnv (some [7]))
        (appendAll (sampleEnv (some [7])) {} [⟨2, [1, 2, 3], 0⟩]) 2 = .verified 1 ∧
      ledgerReadEntry (appendAll (sampleEnv (some [7])) {} [⟨2, [1, 2, 3], 0⟩]) 2 =
        .ok [1, 2, 3] := by
  have h := append_verify_agreement (sampleEnv (some [7])) {} [] (ledgerHolds_fresh (.inl rfl))
    [⟨2, [1, 2, 3], 0⟩] (by simp) 2 (by norm_num) (by norm_num [maxKind])
  rw [appended_first_call] at h
  exact ⟨h.1, h.2.2⟩

/-- An empty file that no append has reached is refused by the readers. -/
theorem empty_file_not_verified :
    LedgerHolds (sampleEnv none) { ledger := some [] } [] ∧
      fractalLedgerVerify (sampleEnv none) (appendAll (sampleEnv none) { ledger := some [] } []) 1 =
        .failed 0 .badHeader ∧
      ledgerVerifyLatestFile (sampleEnv none) (appendAll (sampleEnv none) { ledger := some [] } []) 1 =
        .integrity ∧
      ledgerReadEntry (appendAll (sampleEnv none) { ledger := some [] } []) 1 = .error .storage :=
  ⟨ledgerHolds_fresh (.inr rfl), rfl, rfl, rfl⟩

end FractalSQL.Ledger
