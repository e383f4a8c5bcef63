import FractalSQL.Ledger.Store
import FractalSQL.Lib.Heap
import FractalSQL.Lib.Machine

/-!
# The buffers that `ledger_read_entry` hands out

The core decodes a payload behind the call that reads it, on any thread at any time, and never frees
it. Each thread keeps the buffer of its last read of each kind, gives it back at its next read of
that kind, and gives all of them back when it ends.
-/
namespace FractalSQL.Ledger
open Lib

/-! ### The scan -/

/-- A buffer as a record has it, `blob` and `blob_len`: the null pointer for an empty one. -/
structure Blob where
  ptr : Option ℕ
  len : ℕ
deriving DecidableEq

/-- The heap behind a scan and, unless it failed, the buffers of the latest record and the prior one. -/
structure Scanned where
  heap : Heap Bytes
  found : Option (Option Blob × Option Blob)

section Scan
variable (malloc : ℕ → Bool) (want : UInt32)

/-- The end of a scan that gives up. -/
def scanFail (h : Heap Bytes) (latest prior : Option Blob) : Option Scanned :=
  (h.free (latest.bind Blob.ptr)).bind fun h => (h.free (prior.bind Blob.ptr)).map fun h => ⟨h, none⟩

/-- The buffer of a record that is read whole, if it is allocated. -/
def readBlob (h : Heap Bytes) (b : Bytes) : Option (Heap Bytes × Option ℕ) :=
  if b = [] then some (h, none) else if malloc h.fresh then some (h.alloc b, some h.fresh) else none

/-- The loop of `ledger_scan_latest_two` with its buffers; `none` when a block is freed that is not live. -/
def scanBlobs (fp : Bytes) (h : Heap Bytes) (latest prior : Option Blob) : Option Scanned :=
  match hnext : nextRecord fp with
  | .eof => some ⟨h, some (latest, prior)⟩
  | .shortBlob =>
    if malloc h.fresh then ((h.alloc []).free (some h.fresh)).bind fun h => scanFail h latest prior
    else scanFail h latest prior
  | .record r rest =>
    have := nextRecord_rest_lt hnext
    match readBlob malloc h r.blob with
    | none => scanFail h latest prior
    | some (h, ptr) =>
      if r.kind = want then
        (h.free (prior.bind Blob.ptr)).bind fun h => scanBlobs rest h (some ⟨ptr, r.blob.length⟩) latest
      else (h.free ptr).bind fun h => scanBlobs rest h latest prior
  | _ => scanFail h latest prior
termination_by fp.length

theorem scanBlobs_eq (fp : Bytes) (h : Heap Bytes) (latest prior : Option Blob) :
    scanBlobs malloc want fp h latest prior = match nextRecord fp with
      | .eof => some ⟨h, some (latest, prior)⟩
      | .shortBlob =>
        if malloc h.fresh then ((h.alloc []).free (some h.fresh)).bind fun h => scanFail h latest prior
        else scanFail h latest prior
      | .record r rest =>
        match readBlob malloc h r.blob with
        | none => scanFail h latest prior
        | some (h, ptr) =>
          if r.kind = want then
            (h.free (prior.bind Blob.ptr)).bind fun h =>
              scanBlobs malloc want rest h (some ⟨ptr, r.blob.length⟩) latest
          else (h.free ptr).bind fun h => scanBlobs malloc want rest h latest prior
      | _ => scanFail h latest prior := by
  rw [scanBlobs]
  split <;> simp [*]

end Scan

/-! ### The slots -/

/-- The heap, and `t_last_read_blob` of each thread. -/
structure Buffers where
  heap : Heap Bytes := .empty
  slots : ℕ → ℕ → Option ℕ := fun _ _ => none

def Buffers.set (s : Buffers) (heap : Heap Bytes) (thread kind : ℕ) (ptr : Option ℕ) : Buffers :=
  ⟨heap, Function.update s.slots thread (Function.update (s.slots thread) kind ptr)⟩

/-- `ledger_read_entry`: what is returned, and the buffer. -/
def Buffers.readEntry (s : Buffers) (malloc : ℕ → Bool) (files : LedgerFiles) (thread : ℕ) (kind : ℤ) :
    Option (Buffers × Except Rc Blob) :=
  if kind < 1 ∨ (maxKind : ℤ) < kind then some (s, .error .storage)
  else match ledgerOpenForRead files.ledger with
  | .missing => some (s, .error .unavailable)
  | .badHeader => some (s, .error .storage)
  | .records fp =>
    (scanBlobs malloc (UInt32.ofNat kind.toNat) fp s.heap none none).bind fun scanned =>
      match scanned.found with
      | none => some ({ s with heap := scanned.heap }, .error .storage)
      | some (latest, prior) =>
        (scanned.heap.free (prior.bind Blob.ptr)).bind fun h =>
          match latest with
          | none => some ({ s with heap := h }, .error .unavailable)
          | some blob =>
            (h.free (s.slots thread kind.toNat)).map fun h => (s.set h thread kind.toNat blob.ptr, .ok blob)

/-- The loop of `fractal_enterprise_release_thread_read_buffers`. -/
def Buffers.release (s : Buffers) (thread : ℕ) : List ℕ → Option Buffers
  | [] => some s
  | kind :: kinds => (s.heap.free (s.slots thread kind)).bind fun h => (s.set h thread kind none).release thread kinds

/-! ### The threads -/

inductive ReadLabel where
  | read (thread : ℕ) (kind : ℤ) (files : LedgerFiles) (malloc : ℕ → Bool)
  /-- A connection's thread is done. -/
  | release (thread : ℕ)

inductive ReadEvent where
  /-- A payload is handed out. -/
  | handed (thread : ℕ) (kind : ℤ) (files : LedgerFiles) (payload : Bytes)
  | released (thread : ℕ)

/-- What the core sees at a pointer. -/
def Buffers.contents (s : Buffers) (ptr : Option ℕ) : Bytes := (ptr.bind s.heap.get).getD []

/-- One critical section under the lock. -/
def Buffers.step (s : Buffers) : ReadLabel → Option (Buffers × List ReadEvent)
  | .read thread kind files malloc =>
    (s.readEntry malloc files thread kind).map fun r =>
      (r.1, match r.2 with
        | .ok blob => [.handed thread kind files (r.1.contents blob.ptr)]
        | .error _ => [])
  | .release thread => (s.release thread (List.range (maxKind + 1))).map fun s => (s, [.released thread])

/-- The payload that a thread may still decode, behind one more event. -/
def ReadEvent.leaves (thread kind : ℕ) (b : Bytes) : ReadEvent → Bytes
  | .handed thread' kind' _ payload => if thread' = thread ∧ kind'.toNat = kind then payload else b
  | .released thread' => if thread' = thread then [] else b

def lastHanded (thread kind : ℕ) (log : List ReadEvent) : Bytes := log.foldl (ReadEvent.leaves thread kind) []

/-- The live blocks are the buffers in the slots, each in one slot. -/
structure Buffers.Wf (s : Buffers) : Prop where
  live : ∀ p, (s.heap.get p).isSome = true ↔ ∃ thread kind, s.slots thread kind = some p
  apart : ∀ thread kind thread' kind' p, s.slots thread kind = some p → s.slots thread' kind' = some p →
    thread = thread' ∧ kind = kind'
  kinds : ∀ thread kind p, s.slots thread kind = some p → kind ≤ maxKind

/-- Each buffer is what its thread was last handed of its kind, and what is handed out is the newest
payload of the file that was read. -/
structure Buffers.Sound (s : Buffers) (log : List ReadEvent) : Prop extends s.Wf where
  contents : ∀ thread kind, s.contents (s.slots thread kind) = lastHanded thread kind log
  handed : ∀ thread kind files payload, .handed thread kind files payload ∈ log → ledgerReadEntry files kind = .ok payload

/-! ### What the scan keeps -/

/-- The pointer of a record that the scan tracks. -/
def ptrs (b : Option Blob) : List ℕ := (b.bind Blob.ptr).toList

/-- A tracked record has the payload in its buffer. -/
def Holds (h : Heap Bytes) : Option Blob → Option Record → Prop
  | none, none => True
  | some b, some r => b.len = r.blob.length ∧ (b.ptr.bind h.get).getD [] = r.blob
  | _, _ => False

/-- A scan gives up with nothing, or owns the buffers of the two records that the plain scan finds. -/
def Scanned.Fits (others : Set ℕ) (scan : Option ScanResult) (res : Scanned) : Prop :=
  match res.found with
  | none => res.heap.Owns others []
  | some (latest, prior) => res.heap.Owns others (ptrs latest ++ ptrs prior) ∧
    ∃ acc, scan = some acc ∧ Holds res.heap latest acc.latest ∧ Holds res.heap prior acc.prior

variable {others : Set ℕ} {h h' : Heap Bytes} {latest prior : Option Blob} {malloc : ℕ → Bool} {want : UInt32}

theorem Holds.congr {b : Option Blob} {r : Option Record} (hholds : Holds h b r) (hget : ∀ p ∈ ptrs b, h'.get p = h.get p) :
    Holds h' b r := by
  cases b with
  | none => cases r <;> exact hholds
  | some b =>
    cases r with
    | none => exact hholds
    | some r =>
      refine ⟨hholds.1, ?_⟩
      rw [← hholds.2]
      cases hptr : b.ptr with
      | none => rfl
      | some p =>
        have hp := hget p (by simp [ptrs, hptr])
        rw [Option.bind_some, Option.bind_some, hp]

theorem scanFail_fits {own : List ℕ} (howns : h.Owns others (ptrs latest ++ (ptrs prior ++ own))) :
    ∃ h', scanFail h latest prior = some ⟨h', none⟩ ∧ h'.Owns others own ∧ ∀ p ∈ others, h'.get p = h.get p := by
  obtain ⟨h1, hfree, howns1, hget⟩ := howns.free
  obtain ⟨h2, hfree', howns2, hget'⟩ := howns1.free
  refine ⟨h2, ?_, howns2, fun p hp => (hget' p (.inl hp)).trans (hget p (.inl hp))⟩
  rw [scanFail, hfree, Option.bind_some, hfree']
  rfl

/-- A record's buffer is new, or null for an empty record. -/
theorem readBlob_owns {own : List ℕ} {b : Bytes} {ptr : Option ℕ} (howns : h.Owns others own)
    (hread : readBlob malloc h b = some (h', ptr)) :
    h'.Owns others (ptr.toList ++ own) ∧ (ptr.bind h'.get).getD [] = b ∧ ∀ p, (h.get p).isSome = true → h'.get p = h.get p := by
  rw [readBlob] at hread
  split_ifs at hread with hempty hok
  · cases hread
    rw [hempty]
    exact ⟨howns, rfl, fun _ _ => rfl⟩
  · cases hread
    refine ⟨howns.alloc b, ?_, fun p hp => Heap.alloc_of_live b hp⟩
    rw [Option.bind_some, h.alloc_self b]
    rfl

theorem ScanResult.see_of_eq (acc : ScanResult) {r : Record} (hkind : r.kind = want) :
    (acc.see want r).latest = some r ∧ (acc.see want r).prior = acc.latest := by
  rw [see, if_pos hkind]
  exact ⟨rfl, rfl⟩

theorem ScanResult.see_of_ne (acc : ScanResult) {r : Record} (hkind : r.kind ≠ want) :
    (acc.see want r).latest = acc.latest ∧ (acc.see want r).prior = acc.prior := by
  rw [see, if_neg hkind]
  exact ⟨rfl, rfl⟩

theorem scanBlobs_fits (fp : Bytes) (acc : ScanResult) (howns : h.Owns others (ptrs latest ++ ptrs prior))
    (hlatest : Holds h latest acc.latest) (hprior : Holds h prior acc.prior) :
    ∃ res, scanBlobs malloc want fp h latest prior = some res ∧ res.Fits others (scanLoop want fp acc) ∧
      ∀ p ∈ others, res.heap.get p = h.get p := by
  induction hlen : fp.length using Nat.strong_induction_on generalizing fp h latest prior acc with
  | _ n ih =>
    subst hlen
    have hfail {h1 : Heap Bytes} (howns1 : h1.Owns others (ptrs latest ++ ptrs prior))
        (hget : ∀ p ∈ others, h1.get p = h.get p) : ∃ res, scanFail h1 latest prior = some res ∧
          res.Fits others (scanLoop want fp acc) ∧ ∀ p ∈ others, res.heap.get p = h.get p := by
      have hnil : h1.Owns others (ptrs latest ++ (ptrs prior ++ [])) := by rwa [List.append_nil]
      obtain ⟨h2, hscan, howns2, hget2⟩ := scanFail_fits hnil
      exact ⟨⟨h2, none⟩, hscan, howns2, fun p hp => (hget2 p hp).trans (hget p hp)⟩
    rw [scanBlobs_eq]
    cases hnext : nextRecord fp with
    | eof =>
      refine ⟨_, rfl, ⟨howns, acc, ?_, hlatest, hprior⟩, fun _ _ => rfl⟩
      rw [scanLoop_eq, hnext]
    | shortHeader | lengthOutOfRange => exact hfail howns fun _ _ => rfl
    | shortBlob =>
      dsimp only
      split
      · -- the buffer is allocated and given back before the other two
        have hnew : (h.alloc []).Owns others ((some h.fresh).toList ++ (ptrs latest ++ ptrs prior)) := howns.alloc []
        obtain ⟨h1, hfree, howns1, hget⟩ := hnew.free
        rw [hfree, Option.bind_some]
        apply hfail howns1
        intro p hp
        rw [hget p (.inl hp)]
        exact Heap.alloc_of_live [] ((howns.live p).mpr (.inl hp))
      · exact hfail howns fun _ _ => rfl
    | record r rest =>
      dsimp only
      cases hread : readBlob malloc h r.blob with
      | none => exact hfail howns fun _ _ => rfl
      | some read =>
        obtain ⟨h1, ptr⟩ := read
        obtain ⟨howns1, hcontent, hget1⟩ := readBlob_owns howns hread
        have hothers (p : ℕ) (hp : p ∈ others) : h1.get p = h.get p := hget1 p ((howns.live p).mpr (.inl hp))
        have hmine (b : Option Blob) (q : Option Record) (hb : ∀ p ∈ ptrs b, p ∈ ptrs latest ++ ptrs prior)
            (hholds : Holds h b q) : Holds h1 b q :=
          hholds.congr fun p hp => hget1 p ((howns.live p).mpr (.inr (hb p hp)))
        have hlatest1 := hmine latest acc.latest (fun p hp => List.mem_append_left _ hp) hlatest
        have hprior1 := hmine prior acc.prior (fun p hp => List.mem_append_right _ hp) hprior
        have hshort := nextRecord_rest_lt hnext
        have hscan : scanLoop want fp acc = scanLoop want rest (acc.see want r) := by
          rw [scanLoop_eq, hnext]
        rw [hscan]
        dsimp only
        split
        · -- the record before the latest one is given up
          rename_i hkind
          have hperm : (ptr.toList ++ (ptrs latest ++ ptrs prior)).Perm (ptrs prior ++ (ptr.toList ++ ptrs latest)) := by
            rw [← List.append_assoc]
            exact List.perm_append_comm
          obtain ⟨h2, hfree, howns2, hget2⟩ := (howns1.perm hperm).free
          rw [hfree, Option.bind_some]
          have hblob1 : Holds h1 (some ⟨ptr, r.blob.length⟩) (some r) := And.intro rfl hcontent
          have hblob2 := hblob1.congr fun p hp => hget2 p (.inr (List.mem_append_left _ hp))
          have hlatest2 := hlatest1.congr fun p hp => hget2 p (.inr (List.mem_append_right _ hp))
          obtain ⟨hnow, hbefore⟩ := acc.see_of_eq hkind
          rw [← hnow] at hblob2
          rw [← hbefore] at hlatest2
          obtain ⟨res, hres, hfits, hget3⟩ := ih rest.length hshort rest (acc.see want r) howns2 hblob2 hlatest2 rfl
          exact ⟨res, hres, hfits, fun p hp => (hget3 p hp).trans ((hget2 p (.inl hp)).trans (hothers p hp))⟩
        · -- a record of another kind is given back
          rename_i hkind
          obtain ⟨h2, hfree, howns2, hget2⟩ := howns1.free
          rw [hfree, Option.bind_some]
          have hlatest2 := hlatest1.congr fun p hp => hget2 p (.inr (List.mem_append_left _ hp))
          have hprior2 := hprior1.congr fun p hp => hget2 p (.inr (List.mem_append_right _ hp))
          obtain ⟨hnow, hbefore⟩ := acc.see_of_ne hkind
          rw [← hnow] at hlatest2
          rw [← hbefore] at hprior2
          obtain ⟨res, hres, hfits, hget3⟩ := ih rest.length hshort rest (acc.see want r) howns2 hlatest2 hprior2 rfl
          exact ⟨res, hres, hfits, fun p hp => (hget3 p hp).trans ((hget2 p (.inl hp)).trans (hothers p hp))⟩

/-! ### What a read and a release keep -/

variable {s : Buffers} {thread kind : ℕ}

/-- The buffers of all slots. -/
def Buffers.held (s : Buffers) : Set ℕ := fun p => ∃ thread kind, s.slots thread kind = some p

/-- The buffers of the other slots. -/
def Buffers.elsewhere (s : Buffers) (thread kind : ℕ) : Set ℕ := fun p =>
  ∃ thread' kind', s.slots thread' kind' = some p ∧ ¬ (thread' = thread ∧ kind' = kind)

theorem Buffers.set_self (s : Buffers) (h : Heap Bytes) (thread kind : ℕ) (ptr : Option ℕ) :
    (s.set h thread kind ptr).slots thread kind = ptr := by
  rw [set]
  dsimp only
  rw [Function.update_self, Function.update_self]

theorem Buffers.set_of_ne (s : Buffers) (h : Heap Bytes) (ptr : Option ℕ) {thread' kind' : ℕ}
    (hne : ¬ (thread' = thread ∧ kind' = kind)) : (s.set h thread kind ptr).slots thread' kind' = s.slots thread' kind' := by
  rw [set]
  dsimp only
  by_cases hthread : thread' = thread
  · subst hthread
    rw [Function.update_self, Function.update_of_ne fun hkind => hne ⟨rfl, hkind⟩]
  · rw [Function.update_of_ne hthread]

theorem Buffers.Wf.owns (hwf : s.Wf) : s.heap.Owns s.held [] where
  nodup := List.nodup_nil
  apart p hp := by cases hp
  live p := by
    rw [hwf.live p]
    exact (or_iff_left (List.not_mem_nil)).symm

/-- The buffer of one slot apart from the others. -/
theorem Buffers.Wf.slot {own : List ℕ} (hwf : s.Wf) (howns : h.Owns s.held own) (thread kind : ℕ) :
    h.Owns (s.elsewhere thread kind) ((s.slots thread kind).toList ++ own) := by
  apply howns.take
  · cases s.slots thread kind with
    | none => exact List.nodup_nil
    | some p => exact List.nodup_singleton p
  · intro p hp hmem
    obtain ⟨thread', kind', hslot, hne⟩ := hmem
    obtain ⟨rfl, rfl⟩ := hwf.apart _ _ _ _ p hslot (Option.mem_toList.mp hp)
    exact hne ⟨rfl, rfl⟩
  · intro p
    constructor
    · rintro ⟨thread', kind', hslot⟩
      by_cases hsame : thread' = thread ∧ kind' = kind
      · rw [hsame.1, hsame.2] at hslot
        exact .inr (Option.mem_toList.mpr hslot)
      · exact .inl ⟨thread', kind', hslot, hsame⟩
    · rintro (⟨thread', kind', hslot, -⟩ | hp)
      · exact ⟨thread', kind', hslot⟩
      · exact ⟨thread, kind, Option.mem_toList.mp hp⟩

/-- A slot that gets another buffer. -/
theorem Buffers.Wf.set {ptr : Option ℕ} (hwf : s.Wf) (howns : h.Owns (s.elsewhere thread kind) ptr.toList)
    (hkind : kind ≤ maxKind) : (s.set h thread kind ptr).Wf := by
  have hslots {thread' kind' p : ℕ} (hslot : (s.set h thread kind ptr).slots thread' kind' = some p) :
      (thread' = thread ∧ kind' = kind) ∧ ptr = some p ∨
        ¬ (thread' = thread ∧ kind' = kind) ∧ s.slots thread' kind' = some p := by
    by_cases hsame : thread' = thread ∧ kind' = kind
    · rw [hsame.1, hsame.2, s.set_self h thread kind ptr] at hslot
      exact .inl ⟨hsame, hslot⟩
    · rw [s.set_of_ne h ptr hsame] at hslot
      exact .inr ⟨hsame, hslot⟩
  have hnew {thread' kind' p : ℕ} (hptr : ptr = some p) (hne : ¬ (thread' = thread ∧ kind' = kind))
      (hslot : s.slots thread' kind' = some p) : False :=
    howns.apart p (Option.mem_toList.mpr hptr) ⟨thread', kind', hslot, hne⟩
  constructor
  · intro p
    apply (howns.live p).trans
    constructor
    · rintro (⟨thread', kind', hslot, hne⟩ | hp)
      · exact ⟨thread', kind', (s.set_of_ne h ptr hne).trans hslot⟩
      · exact ⟨thread, kind, (s.set_self h thread kind ptr).trans (Option.mem_toList.mp hp)⟩
    · rintro ⟨thread', kind', hslot⟩
      rcases hslots hslot with ⟨-, hptr⟩ | ⟨hne, hold⟩
      · exact .inr (Option.mem_toList.mpr hptr)
      · exact .inl ⟨thread', kind', hold, hne⟩
  · intro thread1 kind1 thread2 kind2 p hslot1 hslot2
    rcases hslots hslot1 with ⟨⟨rfl, rfl⟩, hptr⟩ | ⟨hne1, hold1⟩
    · rcases hslots hslot2 with ⟨⟨rfl, rfl⟩, -⟩ | ⟨hne2, hold2⟩
      · exact ⟨rfl, rfl⟩
      · exact (hnew hptr hne2 hold2).elim
    · rcases hslots hslot2 with ⟨⟨rfl, rfl⟩, hptr⟩ | ⟨-, hold2⟩
      · exact (hnew hptr hne1 hold1).elim
      · exact hwf.apart _ _ _ _ p hold1 hold2
  · intro thread' kind' p hslot
    rcases hslots hslot with ⟨⟨-, rfl⟩, -⟩ | ⟨-, hold⟩
    · exact hkind
    · exact hwf.kinds thread' kind' p hold

theorem Buffers.Wf.of_heap (hwf : s.Wf) (howns : h.Owns s.held []) : Buffers.Wf { s with heap := h } where
  live p := (howns.live p).trans (or_iff_left List.not_mem_nil)
  apart := hwf.apart
  kinds := hwf.kinds

/-- What a call of `ledger_read_entry` leaves: all slots as they were, or the slot of the kind with the newest payload. -/
structure Buffers.Reads (s : Buffers) (files : LedgerFiles) (thread : ℕ) (kind : ℤ) (s' : Buffers) (res : Except Rc Blob) : Prop where
  wf : s'.Wf
  refused : ∀ rc, res = .error rc → s'.slots = s.slots ∧ ∀ p ∈ s.held, s'.heap.get p = s.heap.get p
  handed : ∀ blob, res = .ok blob → s'.slots = (s.set s'.heap thread kind.toNat blob.ptr).slots ∧
    (∀ p ∈ s.elsewhere thread kind.toNat, s'.heap.get p = s.heap.get p) ∧
      ledgerReadEntry files kind = .ok (s'.contents blob.ptr) ∧ blob.len = (s'.contents blob.ptr).length

theorem Buffers.Wf.readEntry (hwf : s.Wf) (malloc : ℕ → Bool) (files : LedgerFiles) (thread : ℕ) (kind : ℤ) :
    ∃ s' res, s.readEntry malloc files thread kind = some (s', res) ∧ s.Reads files thread kind s' res := by
  have hsame {rc : Rc} : s.Reads files thread kind s (.error rc) :=
    ⟨hwf, fun _ _ => ⟨rfl, fun _ _ => rfl⟩, fun blob heq => by cases heq⟩
  rw [Buffers.readEntry]
  split
  · exact ⟨s, _, rfl, hsame⟩
  · rename_i hkind
    cases hopen : ledgerOpenForRead files.ledger with
    | missing | badHeader => exact ⟨s, _, rfl, hsame⟩
    | records fp =>
      dsimp only
      have hspec : ∃ res, scanBlobs malloc (UInt32.ofNat kind.toNat) fp s.heap none none = some res ∧
          res.Fits s.held (ledgerScanLatestTwo (UInt32.ofNat kind.toNat) fp) ∧ ∀ p ∈ s.held, res.heap.get p = s.heap.get p :=
        scanBlobs_fits fp {} hwf.owns trivial trivial
      obtain ⟨⟨h1, found⟩, hscan, hfits, hget1⟩ := hspec
      rw [hscan, Option.bind_some]
      cases found with
      | none =>
        exact ⟨_, _, rfl, hwf.of_heap hfits, fun _ _ => ⟨rfl, hget1⟩, fun blob heq => by cases heq⟩
      | some pair =>
        obtain ⟨latest, prior⟩ := pair
        obtain ⟨howns1, acc, hacc, hlatest, -⟩ := hfits
        obtain ⟨h2, hfree, howns2, hget2⟩ := (howns1.perm List.perm_append_comm).free
        dsimp only
        rw [hfree, Option.bind_some]
        cases latest with
        | none =>
          refine ⟨_, _, rfl, hwf.of_heap howns2, fun _ _ => ⟨rfl, fun p hp => ?_⟩, fun blob heq => by cases heq⟩
          exact (hget2 p (.inl hp)).trans (hget1 p hp)
        | some blob =>
          obtain ⟨h3, hfree', howns3, hget3⟩ := (hwf.slot howns2 thread kind.toNat).free
          dsimp only
          rw [hfree', Option.map_some]
          have hmax : kind.toNat ≤ maxKind := by omega
          refine ⟨_, _, rfl, hwf.set howns3 hmax, fun rc heq => (by cases heq), ?_⟩
          intro b heq
          obtain rfl := Except.ok.inj heq
          refine ⟨rfl, fun p hp => ?_, ?_⟩
          · obtain ⟨thread', kind', hslot, -⟩ := id hp
            have hheld : p ∈ s.held := ⟨thread', kind', hslot⟩
            exact (hget3 p (.inl hp)).trans ((hget2 p (.inl hheld)).trans (hget1 p hheld))
          · have hholds := (hlatest.congr fun p hp => hget2 p (.inr hp)).congr fun p hp => hget3 p (.inr hp)
            cases hrecord : acc.latest with
            | none =>
              rw [hrecord] at hholds
              cases hholds
            | some r =>
              rw [hrecord] at hholds
              have hread : ledgerReadEntry files kind = .ok r.blob := by
                rw [ledgerReadEntry, if_neg hkind, hopen]
                dsimp only
                rw [hacc]
                dsimp only
                rw [hrecord]
              rw [hread, ← hholds.2]
              exact ⟨rfl, hholds.1.trans (congrArg List.length hholds.2.symm)⟩

theorem Buffers.contents_congr {s' : Buffers} {ptr : Option ℕ} (hget : ∀ p, ptr = some p → s'.heap.get p = s.heap.get p) :
    s'.contents ptr = s.contents ptr := by
  cases ptr with
  | none => rfl
  | some p =>
    rw [contents, contents, Option.bind_some, Option.bind_some, hget p rfl]

/-- The loop over the kinds of a thread. -/
theorem Buffers.Wf.release (hwf : s.Wf) (thread : ℕ) {kinds : List ℕ} (hkinds : ∀ kind ∈ kinds, kind ≤ maxKind) :
    ∃ s' : Buffers, s.release thread kinds = some s' ∧ s'.Wf ∧ ∀ thread' kind',
      (thread' = thread ∧ kind' ∈ kinds → s'.slots thread' kind' = none) ∧
        (¬ (thread' = thread ∧ kind' ∈ kinds) → s'.slots thread' kind' = s.slots thread' kind' ∧
          s'.contents (s'.slots thread' kind') = s.contents (s.slots thread' kind')) := by
  induction kinds generalizing s with
  | nil => exact ⟨s, rfl, hwf, fun _ _ => ⟨fun hmem => (by cases hmem.2), fun _ => ⟨rfl, rfl⟩⟩⟩
  | cons kind kinds ih =>
    have howns : s.heap.Owns (s.elsewhere thread kind) ((s.slots thread kind).toList ++ []) := hwf.slot hwf.owns thread kind
    obtain ⟨h1, hfree, howns1, hget⟩ := howns.free
    have hset : (s.set h1 thread kind none).Wf := hwf.set howns1 (hkinds kind (List.mem_cons_self ..))
    obtain ⟨s', hrelease, hwf', hslots⟩ := ih hset fun k hk => hkinds k (List.mem_cons_of_mem kind hk)
    refine ⟨s', ?_, hwf', fun thread' kind' => ⟨?_, ?_⟩⟩
    · rw [Buffers.release, hfree, Option.bind_some]
      exact hrelease
    · rintro ⟨rfl, hmem⟩
      by_cases hlater : kind' ∈ kinds
      · exact (hslots thread' kind').1 ⟨rfl, hlater⟩
      · obtain rfl := (List.mem_cons.mp hmem).resolve_right hlater
        rw [((hslots thread' kind').2 fun hboth => hlater hboth.2).1]
        exact s.set_self h1 thread' kind' none
    · intro hnot
      have hne : ¬ (thread' = thread ∧ kind' = kind) := fun hboth => hnot ⟨hboth.1, hboth.2 ▸ List.mem_cons_self ..⟩
      obtain ⟨hslot, hcontents⟩ := (hslots thread' kind').2 fun hboth => hnot ⟨hboth.1, List.mem_cons_of_mem kind hboth.2⟩
      rw [s.set_of_ne h1 none hne] at hslot hcontents
      refine ⟨hslot, hcontents.trans ?_⟩
      apply Buffers.contents_congr
      intro p hp
      exact hget p (.inl ⟨thread', kind', hp, hne⟩)

/-! ### The runs -/

theorem lastHanded_append (thread kind : ℕ) (log : List ReadEvent) (e : ReadEvent) :
    lastHanded thread kind (log ++ [e]) = e.leaves thread kind (lastHanded thread kind log) := by
  rw [lastHanded, List.foldl_append]
  rfl

theorem Buffers.Sound.start : Buffers.Sound {} [] where
  live p := ⟨fun hnone => (by cases hnone), fun hslot => (by obtain ⟨_, _, hnone⟩ := hslot; cases hnone)⟩
  apart _ _ _ _ _ hslot := by cases hslot
  kinds _ _ _ hslot := by cases hslot
  contents _ _ := rfl
  handed _ _ _ _ hmem := by cases hmem

variable {log : List ReadEvent}

theorem Buffers.Sound.read (hsound : s.Sound log) (thread : ℕ) (kind : ℤ) (files : LedgerFiles) (malloc : ℕ → Bool) :
    ∃ s' es, s.step (.read thread kind files malloc) = some (s', es) ∧ s'.Sound (log ++ es) := by
  obtain ⟨s', res, hread, hwf, hrefused, hhanded⟩ := hsound.toWf.readEntry malloc files thread kind
  cases res with
  | error rc =>
    obtain ⟨hslots, hget⟩ := hrefused rc rfl
    refine ⟨s', [], ?_, ?_⟩
    · rw [step, hread]
      rfl
    · rw [List.append_nil]
      refine ⟨hwf, fun thread' kind' => ?_, hsound.handed⟩
      rw [hslots, ← hsound.contents thread' kind']
      exact contents_congr fun p hp => hget p ⟨thread', kind', hp⟩
  | ok blob =>
    obtain ⟨hslots, hget, hnewest, -⟩ := hhanded blob rfl
    refine ⟨s', [.handed thread kind files (s'.contents blob.ptr)], ?_, ?_⟩
    · rw [step, hread]
      rfl
    · refine ⟨hwf, fun thread' kind' => ?_, ?_⟩
      · rw [hslots, lastHanded_append, ReadEvent.leaves]
        by_cases hsame : thread' = thread ∧ kind' = kind.toNat
        · rw [if_pos ⟨hsame.1.symm, hsame.2.symm⟩, hsame.1, hsame.2, s.set_self]
        · rw [if_neg fun hboth => hsame ⟨hboth.1.symm, hboth.2.symm⟩, s.set_of_ne s'.heap blob.ptr hsame,
            ← hsound.contents thread' kind']
          exact contents_congr fun p hp => hget p ⟨thread', kind', hp, hsame⟩
      · intro thread' kind' files' payload hmem
        rcases List.mem_append.mp hmem with hold | hnew
        · exact hsound.handed thread' kind' files' payload hold
        · cases List.mem_singleton.mp hnew
          exact hnewest

theorem Buffers.Sound.release (hsound : s.Sound log) (thread : ℕ) :
    ∃ s' es, s.step (.release thread) = some (s', es) ∧ s'.Sound (log ++ es) := by
  have hkinds (kind : ℕ) (hkind : kind ∈ List.range (maxKind + 1)) : kind ≤ maxKind := Nat.lt_succ_iff.mp (List.mem_range.mp hkind)
  obtain ⟨s', hrelease, hwf, hslots⟩ := hsound.toWf.release thread hkinds
  refine ⟨s', [.released thread], ?_, hwf, fun thread' kind' => ?_, ?_⟩
  · rw [step, hrelease]
    rfl
  · rw [lastHanded_append, ReadEvent.leaves]
    by_cases hthread : thread = thread'
    · rw [if_pos hthread]
      have hnone : s'.slots thread' kind' = none := by
        by_cases hmem : kind' ∈ List.range (maxKind + 1)
        · exact (hslots thread' kind').1 ⟨hthread.symm, hmem⟩
        · -- no slot of a kind beyond the last one is ever filled
          rw [((hslots thread' kind').2 fun hboth => hmem hboth.2).1]
          apply Option.eq_none_iff_forall_ne_some.mpr
          intro p hp
          exact hmem (List.mem_range.mpr (Nat.lt_succ_of_le (hsound.kinds thread' kind' p hp)))
      rw [hnone]
      rfl
    · rw [if_neg hthread, ((hslots thread' kind').2 fun hboth => hthread hboth.1.symm).2]
      exact hsound.contents thread' kind'
  · intro thread' kind files payload hmem
    rcases List.mem_append.mp hmem with hold | hnew
    · exact hsound.handed thread' kind files payload hold
    · cases List.mem_singleton.mp hnew

/-- Every run of reads and releases on any threads goes through without a fault and leaves no block
without a slot, whatever the files hold and whichever allocations fail. -/
theorem read_buffers_sound (labels : List ReadLabel) : ∃ final : Config Buffers ReadEvent,
    exec Buffers.step ⟨{}, []⟩ labels = some final ∧ final.state.Sound final.log := by
  have hrun (labels : List ReadLabel) (cfg : Config Buffers ReadEvent) (hsound : cfg.state.Sound cfg.log) :
      ∃ final, exec Buffers.step cfg labels = some final ∧ final.state.Sound final.log := by
    induction labels generalizing cfg with
    | nil => exact ⟨cfg, rfl, hsound⟩
    | cons l labels ih =>
      have hstep : ∃ s' es, cfg.state.step l = some (s', es) ∧ s'.Sound (cfg.log ++ es) := by
        cases l with
        | read thread kind files malloc => exact hsound.read thread kind files malloc
        | release thread => exact hsound.release thread
      obtain ⟨s', es, hs, hsound'⟩ := hstep
      obtain ⟨final, hrest, hfinal⟩ := ih ⟨s', cfg.log ++ es⟩ hsound'
      refine ⟨final, ?_, hfinal⟩
      rw [exec, hs]
      exact hrest
  exact hrun labels _ Buffers.Sound.start

end FractalSQL.Ledger
