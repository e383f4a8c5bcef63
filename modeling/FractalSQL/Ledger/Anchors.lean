import FractalSQL.Digest.LedgerChain
import FractalSQL.Ledger.MirrorText
import FractalSQL.Ledger.Truncation

/-!
# The anchor log

Each append publishes a line with the row count of its head record and the hash of the new record.
A ledger that is verified later, and has the hash at that row, has the rows that were there at the
append: the line cannot be met by a ledger that was cut and written on.
-/
namespace FractalSQL.Ledger
open Lib

/-- What `ledger_anchor_publish` is called with. -/
structure Anchor where
  kind : ℤ
  rows : ℤ
  hash : Hash

def Anchor.line (a : Anchor) : Bytes :=
  ascii "\x7b\"event\":\"ledger_head\"" ++ 44 :: (ascii "\"kind\":" ++ decimalInt a.kind ++
    44 :: (ascii "\"rows\":" ++ decimalInt a.rows ++
      44 :: (ascii "\"hash\":\"" ++ hexEncode a.hash.val ++ ascii "\"\x7d")))

/-- `ledger_anchor_publish`, with the log on: the line has to fit in its buffer. -/
def ledgerAnchorPublish (a : Anchor) : Option Bytes := if a.line.length < 256 then some a.line else none

theorem decimalInt_injective : Function.Injective decimalInt := by
  intro y z h
  apply Option.some.inj
  rw [← readSigned_decimalInt y, ← readSigned_decimalInt z, h]

theorem Anchor.line_fields (a : Anchor) : a.line.splitOn 44 =
    [ascii "\x7b\"event\":\"ledger_head\"", ascii "\"kind\":" ++ decimalInt a.kind, ascii "\"rows\":" ++ decimalInt a.rows,
      ascii "\"hash\":\"" ++ hexEncode a.hash.val ++ ascii "\"\x7d"] := by
  have hevent : 44 ∉ ascii "\x7b\"event\":\"ledger_head\"" := by decide
  have hnumber (name : Bytes) (hname : 44 ∉ name) (z : ℤ) : 44 ∉ name ++ decimalInt z :=
    List.not_mem_append hname (comma_not_mem_decimalInt z)
  have hhash : 44 ∉ ascii "\"hash\":\"" ++ hexEncode a.hash.val ++ ascii "\"\x7d" :=
    List.not_mem_append (List.not_mem_append (by decide) (comma_not_mem_hexEncode _)) (by decide)
  rw [Anchor.line, List.splitOn_append_cons_self_of_not_mem hevent,
    List.splitOn_append_cons_self_of_not_mem (hnumber _ (by decide) _),
    List.splitOn_append_cons_self_of_not_mem (hnumber _ (by decide) _), List.splitOn_eq_singleton hhash]

/-- A line says what it was published for. -/
theorem Anchor.line_injective : Function.Injective Anchor.line := by
  intro a b h
  have hfields : a.line.splitOn 44 = b.line.splitOn 44 := by rw [h]
  rw [a.line_fields, b.line_fields] at hfields
  simp only [List.cons.injEq, and_true, true_and, List.append_cancel_left_eq, List.append_cancel_right_eq] at hfields
  obtain ⟨kind, rows, hash⟩ := a
  obtain ⟨kind', rows', hash'⟩ := b
  obtain rfl := decimalInt_injective hfields.1
  obtain rfl := decimalInt_injective hfields.2.1
  obtain rfl := Subtype.ext (hexEncode_injective hfields.2.2)
  rfl

theorem ledgerAnchorPublish_eq {a : Anchor} (hkind : 1 ≤ a.kind) (hkind16 : a.kind ≤ maxKind) (hrows : 0 ≤ a.rows)
    (hmax : a.rows ≤ longMax) : ledgerAnchorPublish a = some a.line := by
  have hkindLen := decimalInt_length_le (by omega : 0 ≤ a.kind) (hkind16.trans (by decide))
  have hrowsLen := decimalInt_length_le hrows hmax
  have hhash : (hexEncode a.hash.val).length = 64 := by
    rw [hexEncode_length, Block.length_val]
  have htexts : (ascii "\x7b\"event\":\"ledger_head\"").length = 22 ∧ (ascii "\"kind\":").length = 7 ∧
      (ascii "\"rows\":").length = 7 ∧ (ascii "\"hash\":\"").length = 8 ∧ (ascii "\"\x7d").length = 2 :=
    ⟨rfl, rfl, rfl, rfl, rfl⟩
  apply if_pos
  rw [Anchor.line]
  simp only [List.length_append, List.length_cons, hhash, htexts]
  omega

section Env
variable (env : LedgerEnv)

/-- The rows that `ledger_head_update` returns. -/
def headUpdateRows (head : Option Bytes) (kind : ℤ) (chainRows : ℕ) : Option ℤ :=
  let recs := (ledgerHeadRead head).getD []
  match headRecOf kind recs with
  | some r => some (HeadRec.bump env.crypto env.key chainRows r).rows
  | none =>
    if headMaxRecs ≤ recs.length then none
    else some (HeadRec.bump env.crypto env.key chainRows ⟨kind, 0, none⟩).rows

/-- The anchor that `ledger_write_entry` publishes at its end. -/
def ledgerWriteAnchor (files : LedgerFiles) (kind : ℤ) (payload : Bytes) (now : Int64) : Option Anchor :=
  if kind < 1 ∨ (maxKind : ℤ) < kind then none
  else if hlen : payload.length ≤ maxBlobBytes then
    match openLedger (ledgerCap env.maxBytes) files.ledger with
    | none => none
    | some file =>
      match scanForAppend (UInt32.ofNat kind.toNat) file with
      | (_, none) => none
      | (file, some scan) =>
        let r := newRecord env (UInt32.ofNat kind.toNat) payload hlen (entryHashOf scan.latest) now
        if offMax < file.length + r.encode.length then none
        else some ⟨kind, (headUpdateRows env files.head kind scan.kindRecords).getD (scan.kindRecords + 1), r.entryHash⟩
  else none

variable {env}

theorem headUpdateRows_eq {head : Option Bytes} {recs : List HeadRec} (hread : ledgerHeadRead head = some recs)
    (hroom : recs.length < headMaxRecs) (kind : ℤ) (chainRows : ℕ) :
    headUpdateRows env head kind chainRows = some (max (headRows recs kind) (chainRows + 1)) := by
  simp only [headUpdateRows, hread, Option.getD_some, headRows]
  cases headRecOf kind recs with
  | some r => simp only [bump_rows]
  | none => simp only [if_neg (Nat.not_le.mpr hroom), bump_rows]

/-- The anchor of an append to a healthy ledger. -/
theorem ChainHolds.anchor {files : LedgerFiles} {rs : List Record} (h : ChainHolds env files.ledger rs) {c : WriteCall}
    (hok : (ledgerWriteEntry env files c.kind c.payload c.now).1 = .ok) :
    ∃ r : Record, 1 ≤ c.kind ∧ c.kind ≤ maxKind ∧ r.kind = UInt32.ofNat c.kind.toNat ∧
      ledgerWriteAnchor env files c.kind c.payload c.now = some ⟨c.kind,
        (headUpdateRows env files.head c.kind (kindRecords r.kind rs).length).getD ((kindRecords r.kind rs).length + 1),
        r.entryHash⟩ ∧
      ChainHolds env (ledgerWriteEntry env files c.kind c.payload c.now).2.ledger (rs ++ [r]) := by
  rcases h.write c.kind c.payload c.now with ⟨hfail, -⟩ | ⟨r, -, h1, h16, hkind, -, hfile, -, hc⟩
  · exact absurd hok hfail
  have hrange : ¬ (c.kind < 1 ∨ (maxKind : ℤ) < c.kind) := by omega
  by_cases hlen : c.payload.length ≤ maxBlobBytes
  swap
  · simp [ledgerWriteEntry, hrange, hlen] at hok
  rcases h.openLedger_eq (ledgerCap env.maxBytes) with hopen | hopen
  · simp [ledgerWriteEntry, hrange, hlen, hopen] at hok
  have hscan := scanForAppend_framed (framed_encodeAll h.fits) (UInt32.ofNat c.kind.toNat)
  have hwrite := ledgerWriteEntry_scanned h1 h16 hlen c.now hopen hscan
  by_cases hbig : offMax < (ledgerHeader ++ encodeAll rs).length +
      (nextEntry env rs (UInt32.ofNat c.kind.toNat) c.payload hlen c.now).encode.length
  · rw [hwrite, if_pos hbig] at hok
    cases hok
  · rw [hwrite, if_neg hbig] at hfile
    -- The record of the file is the one that was built.
    have hsame : rs ++ [nextEntry env rs (UInt32.ofNat c.kind.toNat) c.payload hlen c.now] = rs ++ [r] := by
      have hbytes : encodeAll (rs ++ [nextEntry env rs (UInt32.ofNat c.kind.toNat) c.payload hlen c.now]) =
          encodeAll (rs ++ [r]) := by
        have := Option.some.inj hfile
        rw [List.append_assoc] at this
        have hrest := List.append_cancel_left this
        rw [← hrest]
        simp
      have hfits : ∀ s ∈ rs ++ [nextEntry env rs (UInt32.ofNat c.kind.toNat) c.payload hlen c.now], s.Fits := by
        intro s hs
        rcases List.mem_append.mp hs with hs | hs
        · exact h.fits s hs
        · rw [List.mem_singleton.mp hs]
          exact nextEntry_fits rs _ hlen c.now
      rw [← (framed_encodeAll hfits).records_eq, hbytes, (framed_encodeAll hc.fits).records_eq]
    obtain rfl := List.singleton_injective (List.append_cancel_left hsame)
    refine ⟨_, h1, h16, rfl, ?_, hc⟩
    simp only [ledgerWriteAnchor, if_neg hrange, dif_pos hlen, hopen, hscan, latest_entryHash]
    exact if_neg hbig

end Env

/-! ### What a line binds -/

/-- The line of an append, with the log on. -/
def publishedLine (env : LedgerEnv) (files : LedgerFiles) (c : WriteCall) : Option Bytes :=
  (ledgerWriteAnchor env files c.kind c.payload c.now).bind ledgerAnchorPublish

/-- The records of a kind that are in the ledger file now. -/
def chainNow (files : LedgerFiles) (k : UInt32) : List Record :=
  kindRecords k (recordsOf ((files.ledger.getD []).drop ledgerHeader.length))

/-- The hash of the record number `n` of a chain, from 1 on. -/
def hashAt (chain : List Record) (n : ℕ) : Option Hash := (chain[n - 1]?).map Record.entryHash

/-- What an anchor says of the ledger that it was published over. -/
structure Anchor.Binds (env : LedgerEnv) (t : LedgerTrace) (k : UInt32) (a : Anchor) : Prop where
  /-- Unless the chain is shorter than it once was, it has the hash at that row, and appends leave it there. -/
  stands : rowsNow t.files k = a.rows → ∀ later : List WriteCall,
    hashAt (chainNow (t.run env (later.map .append)).files k) a.rows.toNat = some a.hash
  /-- A verified ledger with the hash at that row has the rows of that chain in front. -/
  rows : ∀ fp, (verifyWalk env.crypto env.key k fp).fault = none →
    Digest.CleanPair (kindRecords k (recordsOf fp)) (chainNow t.files k) →
    hashAt (kindRecords k (recordsOf fp)) a.rows.toNat = some a.hash →
      rowsNow t.files k = a.rows ∧ ((kindRecords k (recordsOf fp)).take a.rows.toNat).map (fun r => (r.blob, r.mac)) =
        (chainNow t.files k).map (fun r => (r.blob, r.mac))

theorem hashAt_concat (chain ss : List Record) (r : Record) :
    hashAt (chain ++ [r] ++ ss) (chain.length + 1) = some r.entryHash := by
  rw [hashAt, Nat.add_sub_cancel, List.append_assoc, List.singleton_append, List.getElem?_append_right le_rfl, Nat.sub_self]
  rfl

theorem hashAt_take {chain : List Record} {n : ℕ} {h : Hash} (hn : 1 ≤ n) (hat : hashAt chain n = some h) :
    n ≤ chain.length ∧ endHash Record.entryHash zeroHash (chain.take n) = h := by
  obtain ⟨m, rfl⟩ := Nat.exists_eq_add_of_le' hn
  obtain ⟨r, hr, rfl⟩ := Option.map_eq_some_iff.mp hat
  rw [Nat.add_sub_cancel] at hr
  constructor
  · exact (List.getElem?_eq_some_iff.mp hr).1
  · rw [List.take_add_one, hr, Option.toList_some, endHash_concat]

theorem headRows_range {crypto : Crypto} {key head : Option Bytes} {recs : List HeadRec}
    (h : HeadHolds crypto key head recs) (kind : ℤ) : 0 ≤ headRows recs kind ∧ headRows recs kind ≤ longMax := by
  rw [headRows]
  cases hr : headRecOf kind recs with
  | none => exact ⟨le_rfl, by decide⟩
  | some r =>
    obtain ⟨-, -, h0, hmax⟩ := h.printable r (List.mem_of_find?_eq_some hr)
    exact ⟨h0, hmax⟩

section Env
variable {env : LedgerEnv}

theorem ChainHolds.chainNow_eq {files : LedgerFiles} {rs : List Record} (h : ChainHolds env files.ledger rs) (k : UInt32) :
    chainNow files k = kindRecords k rs := by
  obtain ⟨ledger, head, csv⟩ := files
  cases h.file with
  | missing => simp [chainNow]
  | empty => simp [chainNow]
  | written => rw [chainNow, Option.getD_some, drop_ledgerHeader, (framed_encodeAll h.fits).records_eq]

/-- Appends add to the records that are there. -/
theorem ChainHolds.run_appends {t : LedgerTrace} {rs : List Record} (h : ChainHolds env t.files.ledger rs)
    (later : List WriteCall) : ∃ ss, ChainHolds env (t.run env (later.map .append)).files.ledger (rs ++ ss) := by
  induction later generalizing t rs with
  | nil => exact ⟨[], by rwa [List.append_nil]⟩
  | cons c later ih =>
    have hfiles : (t.step env (.append c)).files = (ledgerWriteEntry env t.files c.kind c.payload c.now).2 := by
      rw [LedgerTrace.step]
      split
      · rfl
      · rfl
    rcases h.write c.kind c.payload c.now with ⟨-, hsame⟩ | ⟨r, -, -, -, -, -, -, -, hc⟩
    · rw [hsame] at hfiles
      rw [← hfiles] at h
      exact ih h
    · rw [← hfiles] at hc
      obtain ⟨ss, hss⟩ := ih hc
      rw [List.append_assoc] at hss
      exact ⟨[r] ++ ss, hss⟩

/-- The newest record's hash, with a row that the chain has not passed. -/
theorem ChainHolds.binds (hreal : env.crypto = Digest.ledgerCrypto) {key : Bytes} (hkey : env.key = some key)
    {t : LedgerTrace} {rs : List Record} {r : Record} (h : ChainHolds env t.files.ledger (rs ++ [r]))
    (hk1 : 1 ≤ r.kind.toNat) (hk16 : r.kind.toNat ≤ maxKind) {n : ℕ} (hn : 1 ≤ n) (kind : ℤ) :
    Anchor.Binds env t r.kind ⟨kind, n, r.entryHash⟩ := by
  have hchain : kindRecords r.kind (rs ++ [r]) = kindRecords r.kind rs ++ [r] := by
    rw [kindRecords_append, kindRecords_cons, if_pos rfl, kindRecords_nil]
  have hnow : chainNow t.files r.kind = kindRecords r.kind rs ++ [r] := by rw [h.chainNow_eq, hchain]
  have hlen : rowsNow t.files r.kind = (kindRecords r.kind rs).length + 1 := by
    change (chainNow t.files r.kind).length = _
    rw [hnow, List.length_append, List.length_singleton]
  constructor
  · intro hrows later
    have hlast : n = (kindRecords r.kind rs).length + 1 := by
      rw [← hlen]
      exact (Nat.cast_injective hrows).symm
    obtain ⟨ss, hlater⟩ := h.run_appends later
    rw [Int.toNat_natCast, hlater.chainNow_eq, kindRecords_append, hchain, hlast, hashAt_concat]
  · intro fp hwalk hclean hat
    rw [Int.toNat_natCast] at hat ⊢
    obtain ⟨_, hframe, hchain⟩ := chain_of_walk_clean hwalk
    obtain ⟨hle, hend⟩ := hashAt_take hn hat
    have hfp := (Digest.SoundChain.of_chainFrom hframe.fits hchain).take n
    have hrs := Digest.SoundChain.of_chainFrom h.fits (h.chains r.kind hk1 hk16)
    rw [← h.chainNow_eq] at hrs
    have hends : endHash Record.entryHash zeroHash ((kindRecords r.kind (recordsOf fp)).take n) =
        endHash Record.entryHash zeroHash (chainNow t.files r.kind) := by
      rw [hend, hnow, endHash_concat]
    have hsame := hfp.payloads_eq hreal hkey hrs (hclean.take n) hends
    refine ⟨?_, hsame⟩
    have hlength := congrArg List.length hsame
    rw [List.length_map, List.length_map, List.length_take_of_le hle] at hlength
    exact congrArg Nat.cast hlength.symm

end Env

/-- Each append of a run, whatever was cut off the ledger before it, publishes one line, with the
longest length that the chain ever had and the hash of the new record. Where nothing is missing,
appends leave that hash at that row; and a verified ledger that has it there has the rows of the
ledger that the line was published over. -/
theorem anchor_line_binds (env : LedgerEnv) (hreal : env.crypto = Digest.ledgerCrypto) {key : Bytes}
    (hkey : env.key = some key) {ledger csv : Option Bytes} (hfresh : ledger = none ∨ ledger = some [])
    (ops : List LedgerOp) (c : WriteCall)
    (hok : (ledgerWriteEntry env (LedgerTrace.run env { files := ⟨ledger, none, csv⟩ } ops).files c.kind c.payload c.now).1 = .ok) :
    let t := LedgerTrace.run env { files := ⟨ledger, none, csv⟩ } (ops ++ [.append c])
    ∃ a : Anchor, publishedLine env (LedgerTrace.run env { files := ⟨ledger, none, csv⟩ } ops).files c = some a.line ∧
      (∀ b : Anchor, b.line = a.line → b = a) ∧ a.kind = c.kind ∧ a.rows = t.longest (UInt32.ofNat c.kind.toNat) ∧
      a.Binds env t (UInt32.ofNat c.kind.toNat) := by
  intro t
  obtain ⟨rs, recs, h⟩ := traceInv_run env ledger csv hfresh ops
  obtain ⟨r, h1, h16, hkind, hanchor, hc⟩ := h.chain.anchor hok
  obtain ⟨_, recs', h'⟩ := traceInv_run env ledger csv hfresh (ops ++ [.append c])
  have hstep : t = (LedgerTrace.run env { files := ⟨ledger, none, csv⟩ } ops).step env (.append c) := run_concat ..
  have hnat : (r.kind.toNat : ℤ) = c.kind := hkind ▸ toNat_kind h1 h16
  have hk1 : 1 ≤ r.kind.toNat := by omega
  have hk16 : r.kind.toNat ≤ maxKind := by omega
  have hfiles : t.files = (ledgerWriteEntry env (LedgerTrace.run env { files := ⟨ledger, none, csv⟩ } ops).files
      c.kind c.payload c.now).2 := by
    rw [hstep, LedgerTrace.step]
    simp only [if_pos hok]
  rw [← hfiles] at hc
  have hlongest : t.longest r.kind = max ((LedgerTrace.run env { files := ⟨ledger, none, csv⟩ } ops).longest r.kind)
      ((kindRecords r.kind rs).length + 1) := by
    have hnow := hc.rowsNow_eq r.kind
    rw [kindRecords_concat_length hnat, if_pos hnat] at hnow
    rw [← hnow, hfiles, hstep, LedgerTrace.step]
    simp only [if_pos hok]
  have hrows : headUpdateRows env (LedgerTrace.run env { files := ⟨ledger, none, csv⟩ } ops).files.head c.kind
      (kindRecords r.kind rs).length = some (t.longest r.kind : ℤ) := by
    have hbefore := h.head.rows r.kind hk1 hk16
    rw [hnat] at hbefore
    rw [headUpdateRows_eq h.head.holds.read h.head.room, hbefore, hlongest]
    push_cast
    rfl
  rw [hrows, Option.getD_some] at hanchor
  obtain ⟨h0, hmax⟩ := headRows_range h'.head.holds r.kind.toNat
  rw [h'.head.rows r.kind hk1 hk16] at h0 hmax
  have hpublish := ledgerAnchorPublish_eq (a := ⟨c.kind, t.longest r.kind, r.entryHash⟩) h1 h16 h0 hmax
  rw [← hkind]
  refine ⟨⟨c.kind, t.longest r.kind, r.entryHash⟩, ?_, fun b hb => Anchor.line_injective hb, rfl, rfl, ?_⟩
  · rw [publishedLine, hanchor]
    exact hpublish
  · apply hc.binds hreal hkey hk1 hk16
    rw [hlongest]
    exact le_max_of_le_right (Nat.le_add_left 1 _)

/-- The first append to a ledger. -/
theorem anchor_line_binds_first_call :
    let t := LedgerTrace.run Digest.realEnv { files := ⟨none, none, none⟩ } ([] ++ [.append ⟨1, [5], 0⟩])
    ∃ a : Anchor, publishedLine Digest.realEnv (LedgerTrace.run Digest.realEnv { files := ⟨none, none, none⟩ } []).files
        ⟨1, [5], 0⟩ = some a.line ∧
      (∀ b : Anchor, b.line = a.line → b = a) ∧ a.kind = 1 ∧ a.rows = t.longest (UInt32.ofNat (1 : ℤ).toNat) ∧
      a.Binds Digest.realEnv t (UInt32.ofNat (1 : ℤ).toNat) := by
  have hfresh : (none : Option Bytes) = none ∨ (none : Option Bytes) = some [] := .inl rfl
  have hok : (ledgerWriteEntry Digest.realEnv ⟨none, none, none⟩ 1 [5] 0).1 = .ok :=
    (ledgerHolds_fresh hfresh).chain.write_ok (by norm_num) (by norm_num [maxKind]) Digest.five_fits 0 (by simp [openLedger])
      (by norm_num [offMax])
  have hkey : Digest.realEnv.key = some [7] := rfl
  exact anchor_line_binds Digest.realEnv rfl hkey hfresh [] ⟨1, [5], 0⟩ hok

end FractalSQL.Ledger
