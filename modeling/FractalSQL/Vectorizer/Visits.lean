import FractalSQL.Vectorizer.Freshness

/-!
# What one call visits

A call of `fractal_vectorizer_process_queue` that runs while no other call does, next to any
writes of clients. A read that finds no source row raises the condition that the cursor's handler
takes for the end of the cursor, so that the rest of the cursor is left in `processing`.
-/
namespace FractalSQL.Vectorizer
open Lib

/-! ### The course of a call -/

/-- The rows a call has claimed, those it fetched, those it closed the cursor on, how many it put
back for the rate cap, `v_n_processed`, and whether it has returned. -/
structure Progress where
  claimed : List ℕ := []
  visited : List ℕ := []
  abandoned : List ℕ := []
  deferred : ℕ := 0
  processed : ℕ := 0
  returned : Bool := false
deriving DecidableEq

/-- The next statement of the call counts. -/
def Progress.behind (p : Progress) (ch : Choice) (call : Call) : Progress :=
  match call.point with
  | .claim => { p with claimed := ch.ids }
  | .fetch =>
    if call.done then { p with abandoned := call.cursor.map CursorRow.id }
    else { p with visited := p.visited ++ (call.cursor.head?.map CursorRow.id).toList }
  | .defer _ => { p with deferred := p.deferred + 1 }
  | .settle _ _ => { p with processed := p.processed + 1 }
  | .prune => { p with returned := true }
  | _ => p

def Progress.after (p : Progress) (s : State) (c : ℕ) : Label → Progress
  | .call c' ch => if c' = c then ((s.calls c).map (p.behind ch)).getD p else p
  | _ => p

/-- The system with the course of call `c`. -/
def watch (site : Site) (c : ℕ) (s : State × Progress) (l : Label) : Option ((State × Progress) × List Event) :=
  (s.1.step site l).map fun r => ((r.1, s.2.after s.1 c l), r.2)

/-- No other call runs, and a read without a row raises NOT FOUND where the cursor's handler
is the one declared for it. -/
def Label.Alone (c : ℕ) : Label → Prop
  | .start .. => False
  | .kill _ => False
  | .call c' ch => c' = c ∧ ch.notFound = true
  | _ => True

/-- Each claimed row has been visited once and is no longer in `processing`, and the count is
that of the rows that were not put back. -/
structure State.SettlesClaimed (s : State) (p : Progress) : Prop where
  once : p.visited.Nodup
  visits : ∀ i, i ∈ p.visited ↔ i ∈ p.claimed
  left : ∀ i ∈ p.claimed, ∀ q, s.tables.queue i = some q → q.status ≠ .processing
  count : p.processed + p.deferred = p.claimed.length

/-- The read of a row that is not the last one of the cursor fails or finds a source row. -/
def State.ReadsFound (s : State) : Label → Prop
  | .call c ch => ∀ call r, s.calls c = some call → call.point = .read r → ch.ok = true →
    s.tables.rows r.vectorizer r.pk = none → call.cursor = []
  | _ => True

/-- The row that is read next. -/
def Point.toRead : Point → Option CursorRow
  | .read r => some r
  | _ => none

theorem Point.toRead_eq_some {point : Point} {r : CursorRow} : point.toRead = some r ↔ point = .read r := by
  cases point <;> simp [toRead]

instance (s : State) : (l : Label) → Decidable (s.ReadsFound l)
  | .call c ch =>
    decidable_of_iff ((s.calls c).all (fun call => call.point.toRead.all fun r =>
      !ch.ok || (s.tables.rows r.vectorizer r.pk).isSome || call.cursor.isEmpty) = true) (by
        simp only [State.ReadsFound, Option.all_eq_true, Point.toRead_eq_some, Bool.or_eq_true, Bool.not_eq_true',
          Option.isSome_iff_ne_none, List.isEmpty_iff, or_assoc]
        grind)
  | .insert .. | .update .. | .delete .. | .enqueue .. | .setEnabled .. | .tick .. | .start .. | .kill .. => isTrue trivial

/-! ### The statements of the loop -/

/-- A read without a source row. -/
def Call.EmptyRead (d : Tables) (ch : Choice) (call : Call) : Prop :=
  ∃ r, call.point = .read r ∧ ch.ok = true ∧ d.rows r.vectorizer r.pk = none

/-- Where a statement takes the call in its cursor. -/
inductive Call.Goes (site : Site) (d : Tables) (c : ℕ) (call : Call) (ch : Choice) : Effect → Prop where
  | reclaim (hp : call.point = .reclaim) : Goes site d c call ch (call.reclaim d c)
  | claim (hp : call.point = .claim) (hids : call.mayClaim site d ch.ids = true) : Goes site d c call ch (call.claim d c ch.ids)
  | openCursor (hp : call.point = .openCursor) (hids : mayOpen site d c ch.ids = true) :
    Goes site d c call ch { tables := d, call := some { call with point := .fetch, cursor := ch.ids.filterMap (cursorRow d) } }
  | finish {next : Call} (hp : call.point = .fetch) (hover : call.cursor = [] ∨ call.done = true) (hpoint : next.point = .prune)
    (hcursor : next.cursor = []) : Goes site d c call ch { tables := d, call := some next }
  | next {r : CursorRow} {rest : List CursorRow} (hp : call.point = .fetch) (hcursor : call.cursor = r :: rest)
    (hdone : call.done = false) :
    Goes site d c call ch { tables := d, call := some { call with point := afterFetch site r, cursor := rest } }
  | inner {r : CursorRow} {next : Call} {d' : Tables} (hp : call.point.row = some r) (hfront : ∀ o, call.point ≠ .settle r o)
    (hdefer : call.point ≠ .defer r) (hrow : next.point.row = some r) (hcursor : next.cursor = call.cursor)
    (hdone : next.done = call.done ∧ ¬ call.EmptyRead d ch ∨ call.EmptyRead d ch ∧ next.done = (call.done || ch.notFound))
    (hqueue : d'.queue = d.queue) : Goes site d c call ch { tables := d', call := some next }
  | defer {r : CursorRow} (hp : call.point = .defer r) :
    Goes site d c call ch (call.put site d c r.id (QueueRow.released d.now) { call with point := .fetch } [])
  | settle {r : CursorRow} {outcome : Outcome} (hp : call.point = .settle r outcome) :
    Goes site d c call ch (call.put site d c r.id (QueueRow.settled site d.now r outcome) { call with point := .fetch }
      (if outcome = .dispatchFailed then [.dispatchFailed r.id] else []))
  | prune (hp : call.point = .prune) (ok : Bool) :
    Goes site d c call ch (if ok then call.prune site d c else { tables := d, call := none })

variable {site : Site} {d : Tables} {c : ℕ} {call : Call} {ch : Choice} {e : Effect} {p : Progress}

theorem Call.emptyRead_iff {r : CursorRow} (hp : call.point = .read r) :
    call.EmptyRead d ch ↔ ch.ok = true ∧ d.rows r.vectorizer r.pk = none := by
  constructor
  · rintro ⟨r', hp', hok, hrow⟩
    rw [hp] at hp'
    cases hp'
    exact ⟨hok, hrow⟩
  · rintro ⟨hok, hrow⟩
    exact ⟨r, hp, hok, hrow⟩

theorem Call.not_emptyRead (hp : ∀ r, call.point ≠ .read r) : ¬ call.EmptyRead d ch := by
  rintro ⟨r, hr, -⟩
  exact hp r hr

theorem afterFetch_row (site : Site) (r : CursorRow) : (afterFetch site r).row = some r := by
  unfold afterFetch
  split <;> rfl

theorem rateDecision_row (site : Site) (d : Tables) (r : CursorRow) : (rateDecision site d r).row = some r := by
  unfold rateDecision
  dsimp only
  split_ifs <;> rfl

theorem Call.goes_of_statement (h : call.statement site d c ch = some e) : call.Goes site d c ch e := by
  unfold statement at h
  split at h
  · rename_i hp
    cases h
    exact .reclaim hp
  · rename_i hp
    split at h
    · cases h
      exact .claim hp ‹_›
    · cases h
  · rename_i hp
    split at h
    · cases h
      exact .openCursor hp ‹_›
    · cases h
  · rename_i hp
    split at h
    · rename_i hcursor
      cases h
      exact .finish hp (.inl hcursor) rfl hcursor
    · rename_i r rest hcursor
      split at h
      · rename_i hdone
        cases h
        exact .finish hp (.inr hdone) rfl rfl
      · rename_i hdone
        cases h
        exact .next hp hcursor (Bool.not_eq_true _ ▸ hdone)
  · rename_i r hp
    cases h
    exact .inner (by rw [hp]; rfl) (by simp [hp]) (by simp [hp]) rfl rfl (.inl ⟨rfl, not_emptyRead (by simp [hp])⟩) rfl
  · rename_i r hp
    cases h
    exact .inner (by rw [hp]; rfl) (by simp [hp]) (by simp [hp]) (rateDecision_row site d r) rfl
      (.inl ⟨rfl, not_emptyRead (by simp [hp])⟩) rfl
  · rename_i r hp
    cases h
    exact .defer hp
  · rename_i r start calls hp
    cases h
    exact .inner (by rw [hp]; rfl) (by simp [hp]) (by simp [hp]) rfl rfl (.inl ⟨rfl, not_emptyRead (by simp [hp])⟩) rfl
  · rename_i r hp
    have hrow : call.point.row = some r := by rw [hp]; rfl
    split at h
    · rename_i hok
      cases h
      exact .inner hrow (by simp [hp]) (by simp [hp]) rfl rfl
        (.inl ⟨rfl, fun hempty => hok ((emptyRead_iff hp).mp hempty).1⟩) rfl
    · rename_i hok
      rw [not_not] at hok
      split at h
      · rename_i hnone
        cases h
        exact .inner hrow (by simp [hp]) (by simp [hp]) rfl rfl (.inr ⟨(emptyRead_iff hp).mpr ⟨hok, hnone⟩, rfl⟩) rfl
      · rename_i row hsome
        cases h
        refine .inner hrow (by simp [hp]) (by simp [hp]) ?_ rfl (.inl ⟨rfl, fun hempty => ?_⟩) rfl
        · dsimp only
          split <;> rfl
        · rw [((emptyRead_iff hp).mp hempty).2] at hsome
          cases hsome
  · rename_i r hp
    dsimp only at h
    cases h
    refine .inner (by rw [hp]; rfl) (by simp [hp]) (by simp [hp]) ?_ rfl (.inl ⟨rfl, not_emptyRead (by simp [hp])⟩) rfl
    dsimp only
    split_ifs <;> rfl
  · rename_i r hp
    have hrow : call.point.row = some r := by rw [hp]; rfl
    split at h <;> cases h <;>
      exact .inner hrow (by simp [hp]) (by simp [hp]) rfl rfl (.inl ⟨rfl, not_emptyRead (by simp [hp])⟩) rfl
  · rename_i r outcome hp
    cases h
    exact .settle hp
  · rename_i hp
    cases h
    exact .prune hp ch.ok

/-! ### What the course covers -/

/-- The rows fetched, those still in the cursor and those it was closed on are the claimed rows,
and all that are behind the call have left `processing`. -/
structure Progress.Covers (p : Progress) (queue : ℕ → Option QueueRow) (cursor : List CursorRow) (current : Option CursorRow) :
    Prop where
  nodup : p.claimed.Nodup
  rows : (p.visited ++ (cursor.map CursorRow.id ++ p.abandoned)).Perm p.claimed
  count : p.processed + p.deferred + current.toList.length = p.visited.length
  left : ∀ i ∈ p.visited, (∀ r, current = some r → i ≠ r.id) → ∀ q, queue i = some q → q.status ≠ .processing

section
variable {queue queue' : ℕ → Option QueueRow} {cursor : List CursorRow} {current : Option CursorRow} {r : CursorRow}

theorem Progress.Covers.of_queue (h : p.Covers queue cursor current)
    (hqueue : ∀ i q, queue' i = some q → queue i = some q ∨ q.status ≠ .processing) : p.Covers queue' cursor current where
  nodup := h.nodup
  rows := h.rows
  count := h.count
  left i hi hne q hq := by
    rcases hqueue i q hq with hq | hstatus
    · exact h.left i hi hne q hq
    · exact hstatus

theorem Progress.Covers.fetch {rest : List CursorRow} (h : p.Covers queue (r :: rest) none) :
    Progress.Covers { p with visited := p.visited ++ [r.id] } queue rest (some r) where
  nodup := h.nodup
  rows := by
    rw [List.append_assoc]
    exact h.rows
  count := by
    have hcount := h.count
    simp only [Option.toList_none, List.length_nil, Option.toList_some, List.length_singleton, List.length_append] at hcount ⊢
    omega
  left i hi hne q hq := by
    rcases List.mem_append.mp hi with hi | hi
    · exact h.left i hi (by simp) q hq
    · exact absurd (List.mem_singleton.mp hi) (hne r rfl)

theorem Progress.Covers.close (h : p.Covers queue cursor none) (hopen : p.abandoned = []) :
    Progress.Covers { p with abandoned := cursor.map CursorRow.id } queue [] none where
  nodup := h.nodup
  rows := by
    have hrows := h.rows
    rwa [hopen, List.append_nil] at hrows
  count := h.count
  left := h.left

/-- The row is no longer in `processing` behind its last UPDATE. -/
theorem Progress.Covers.leave (h : p.Covers queue cursor (some r)) {n m : ℕ} (hcount : n + m = p.processed + p.deferred + 1)
    (hother : ∀ i, i ≠ r.id → queue' i = queue i) (hself : ∀ q, queue' r.id = some q → q.status ≠ .processing) :
    Progress.Covers { p with processed := n, deferred := m } queue' cursor none where
  nodup := h.nodup
  rows := h.rows
  count := by
    have hlen := h.count
    simp only [Option.toList_none, List.length_nil, Option.toList_some, List.length_singleton] at hlen ⊢
    omega
  left i hi _ q hq := by
    by_cases hir : i = r.id
    · rw [hir] at hq
      exact hself q hq
    · rw [hother i hir] at hq
      refine h.left i hi ?_ q hq
      rintro r' hr'
      rw [← Option.some.inj hr']
      exact hir

end

/-- Where the call is, and what its course then covers. -/
inductive Call.Stage (site : Site) (d : Tables) (c : ℕ) (call : Call) (p : Progress) : Prop where
  | front (hp : call.point = .reclaim ∨ call.point = .claim) (hprogress : p = {}) (hdone : call.done = false)
    (htoken : ∀ i q, d.queue i = some q → q.claimToken ≠ some c)
  | opening (hp : call.point = .openCursor) (hprogress : p = { claimed := p.claimed }) (hdone : call.done = false)
    (hnodup : p.claimed.Nodup) (hholds : ∀ i, holdsToken site d c i = true ↔ i ∈ p.claimed)
  | loop (hp : call.point = .fetch ∨ call.point.row.isSome = true) (hreturned : p.returned = false) (hopen : p.abandoned = [])
    (hcovers : p.Covers d.queue call.cursor call.point.row)
  | leaving (hp : call.point = .prune) (hreturned : p.returned = false) (hcovers : p.Covers d.queue [] none)

theorem QueueRow.settled_status {now : ℤ} {r : CursorRow} {outcome : Outcome} (q : QueueRow) :
    (q.settled site now r outcome).status ≠ .processing := by
  cases outcome <;> simp only [QueueRow.settled]
  · decide
  · decide
  · split <;> simp
  · decide

/-- What the last UPDATE of a row does to the queue, unless it aborts the call. -/
theorem Call.put_queue {id : ℕ} {f : QueueRow → QueueRow} {next next' : Call} {events : List Event}
    (h : (call.put site d c id f next events).call = some next') : next' = next ∧
      (∀ i, i ≠ id → (call.put site d c id f next events).tables.queue i = d.queue i) ∧
      ∀ q, (call.put site d c id f next events).tables.queue id = some q → ∃ q₀, q = f q₀ := by
  rcases Call.put_cases site d c call id f next events with ⟨hnone, heq⟩ | ⟨q, hq, ⟨-, heq⟩ | ⟨-, heq⟩⟩ <;> rw [heq] at h ⊢
  · refine ⟨(Option.some.inj h).symm, fun _ _ => rfl, fun q hq => ?_⟩
    rw [hnone] at hq
    cases hq
  · cases h
  · refine ⟨(Option.some.inj h).symm, fun i hi => Function.update_of_ne hi _ _, fun q' hq' => ?_⟩
    dsimp only at hq'
    rw [Function.update_self] at hq'
    exact ⟨q, (Option.some.inj hq').symm⟩

theorem mem_filterMap_cursorRow {ids : List ℕ} (h : ∀ i ∈ ids, ∃ q, d.queue i = some q) :
    (ids.filterMap (cursorRow d)).map CursorRow.id = ids := by
  induction ids with
  | nil => rfl
  | cons i ids ih =>
    obtain ⟨q, hq⟩ := h i (List.mem_cons_self ..)
    have hrow : cursorRow d i = some ⟨i, q.vectorizer, q.pk, q.attempts⟩ := by rw [cursorRow, hq]; rfl
    rw [List.filterMap_cons_some hrow, List.map_cons, ih fun j hj => h j (List.mem_cons_of_mem _ hj)]

theorem holdsToken_iff {i : ℕ} : holdsToken site d c i = true ↔
    ∃ q, d.queue i = some q ∧ q.claimToken = some c ∧ (site.registry q.vectorizer).isSome = true := by
  simp [holdsToken, Option.any_eq_true]

theorem mayOpen_perm {ids claimed : List ℕ} (hwf : d.Wf site) (h : mayOpen site d c ids = true) (hnodup : claimed.Nodup)
    (hholds : ∀ i, holdsToken site d c i = true ↔ i ∈ claimed) : ids.Perm claimed := by
  simp only [mayOpen, decide_eq_true_eq] at h
  rw [List.perm_ext_iff_of_nodup h.1 hnodup]
  intro i
  rw [← hholds]
  refine ⟨h.2.1 i, fun hi => h.2.2 i ?_ hi⟩
  obtain ⟨q, hq, -⟩ := holdsToken_iff.mp hi
  exact List.mem_range.mpr (hwf.ids i q hq)

/-- The call's token behind its claim. -/
theorem Call.holdsToken_claim {ids : List ℕ} (hids : call.mayClaim site d ids = true)
    (htoken : ∀ i q, d.queue i = some q → q.claimToken ≠ some c) (i : ℕ) :
    holdsToken site (call.claim d c ids).tables c i = true ↔ i ∈ ids := by
  rw [holdsToken_iff]
  constructor
  · rintro ⟨q, hq, ht, -⟩
    obtain ⟨q₀, hq₀, ⟨hi, -⟩ | ⟨-, rfl⟩⟩ := Call.claim_queue hq
    · exact hi
    · exact absurd ht (htoken i q hq₀)
  · intro hi
    obtain ⟨q, hq, -, -, howns⟩ := Call.eligible_iff.mp (Call.eligible_of_mayClaim hids hi)
    refine ⟨q.claimed d.now c, ?_, rfl, ?_⟩
    · simp only [claim]
      rw [if_pos hi, hq]
      rfl
    · simp only [Site.owns, Site.owner, Option.any_map, Option.any_eq_true] at howns
      obtain ⟨v, hv, -⟩ := howns
      rw [QueueRow.claimed, hv]
      rfl

/-! The stage is known from the statement that is next. -/

theorem Call.Stage.before (h : call.Stage site d c p) (hp : call.point = .reclaim ∨ call.point = .claim) :
    p = {} ∧ call.done = false ∧ ∀ i q, d.queue i = some q → q.claimToken ≠ some c := by
  cases h with
  | front _ hprogress hdone htoken => exact ⟨hprogress, hdone, htoken⟩
  | opening hp' => rw [hp'] at hp; simp at hp
  | loop hp' => rcases hp with hp | hp <;> rw [hp] at hp' <;> simp [Point.row] at hp'
  | leaving hp' => rw [hp'] at hp; simp at hp

theorem Call.Stage.opened (h : call.Stage site d c p) (hp : call.point = .openCursor) :
    p = { claimed := p.claimed } ∧ call.done = false ∧ p.claimed.Nodup ∧ ∀ i, holdsToken site d c i = true ↔ i ∈ p.claimed := by
  cases h with
  | front hp' => rw [hp] at hp'; simp at hp'
  | opening _ hprogress hdone hnodup hholds => exact ⟨hprogress, hdone, hnodup, hholds⟩
  | loop hp' => rw [hp] at hp'; simp [Point.row] at hp'
  | leaving hp' => rw [hp] at hp'; cases hp'

theorem Call.Stage.looping (h : call.Stage site d c p) (hp : call.point = .fetch ∨ call.point.row.isSome = true) :
    p.returned = false ∧ p.abandoned = [] ∧ p.Covers d.queue call.cursor call.point.row := by
  cases h with
  | front hp' => rcases hp' with hp' | hp' <;> rw [hp'] at hp <;> simp [Point.row] at hp
  | opening hp' => rw [hp'] at hp; simp [Point.row] at hp
  | loop _ hreturned hopen hcovers => exact ⟨hreturned, hopen, hcovers⟩
  | leaving hp' => rw [hp'] at hp; simp [Point.row] at hp

theorem Call.Stage.left (h : call.Stage site d c p) (hp : call.point = .prune) :
    p.returned = false ∧ p.Covers d.queue [] none := by
  cases h with
  | front hp' => rw [hp] at hp'; simp at hp'
  | opening hp' => rw [hp] at hp'; cases hp'
  | loop hp' => rw [hp] at hp'; simp [Point.row] at hp'
  | leaving _ hreturned hcovers => exact ⟨hreturned, hcovers⟩

/-- The last UPDATE of a row leads back to the loop, or aborts the call. -/
theorem Call.Stage.put {r : CursorRow} (h : call.Stage site d c p) (hp : call.point.row = some r) {f : QueueRow → QueueRow}
    (hf : ∀ q, (f q).status ≠ .processing) (events : List Event) {n m : ℕ} (hcount : n + m = p.processed + p.deferred + 1) :
    match (call.put site d c r.id f { call with point := .fetch } events).call with
    | some next => next.Stage site (call.put site d c r.id f { call with point := .fetch } events).tables c
        { p with processed := n, deferred := m }
    | none => p.returned = true → Progress.Covers { p with processed := n, deferred := m }
        (call.put site d c r.id f { call with point := .fetch } events).tables.queue [] none := by
  obtain ⟨hreturned, hopen, hcovers⟩ := h.looping (.inr (by rw [hp]; rfl))
  rw [hp] at hcovers
  cases hcall : (call.put site d c r.id f { call with point := .fetch } events).call with
  | none =>
    intro htrue
    rw [hreturned] at htrue
    cases htrue
  | some next =>
    obtain ⟨rfl, hother, hself⟩ := Call.put_queue hcall
    refine .loop (.inl rfl) hreturned hopen (hcovers.leave hcount hother fun q hq => ?_)
    obtain ⟨q₀, rfl⟩ := hself q hq
    exact hf q₀

/-- Where a statement leaves the call; behind its last one the course is whole. -/
theorem Call.Stage.step (h : call.Stage site d c p) (hwf : d.Wf site) (hgoes : call.Goes site d c ch e) :
    match e.call with
    | some next => next.Stage site e.tables c (p.behind ch call)
    | none => (p.behind ch call).returned = true → (p.behind ch call).Covers e.tables.queue [] none := by
  cases hgoes with
  | reclaim hp =>
    obtain ⟨hprogress, hdone, htoken⟩ := h.before (.inl hp)
    refine .front (.inr rfl) ?_ hdone fun i q hq => ?_
    · rw [Progress.behind, hp]
      exact hprogress
    · obtain ⟨q₀, hq₀, ⟨-, rfl⟩ | ⟨-, rfl⟩⟩ := Call.reclaim_queue hq
      · simp [QueueRow.released]
      · exact htoken i q hq₀
  | claim hp hids =>
    obtain ⟨hprogress, hdone, htoken⟩ := h.before (.inr hp)
    have hbehind : p.behind ch call = { claimed := ch.ids } := by
      rw [Progress.behind, hp, hprogress]
    have hnodup : ch.ids.Nodup := by
      simp only [mayClaim, decide_eq_true_eq] at hids
      exact hids.1
    rw [hbehind]
    exact .opening rfl rfl hdone hnodup (Call.holdsToken_claim hids htoken)
  | openCursor hp hids =>
    obtain ⟨hprogress, hdone, hnodup, hholds⟩ := h.opened hp
    have hbehind : p.behind ch call = { claimed := p.claimed } := by
      rw [Progress.behind, hp]
      exact hprogress
    have hperm := mayOpen_perm hwf hids hnodup hholds
    have hrows : ∀ i ∈ ch.ids, ∃ q, d.queue i = some q := by
      intro i hi
      obtain ⟨q, hq, -⟩ := holdsToken_iff.mp ((hholds i).mpr (hperm.mem_iff.mp hi))
      exact ⟨q, hq⟩
    rw [hbehind]
    refine .loop (.inl rfl) rfl rfl ⟨hnodup, ?_, rfl, by simp⟩
    rw [List.nil_append, mem_filterMap_cursorRow hrows, List.append_nil]
    exact hperm
  | finish hp hover hpoint hcursor =>
    obtain ⟨hreturned, hopen, hcovers⟩ := h.looping (.inl hp)
    rw [hp] at hcovers
    dsimp only
    rw [Progress.behind, hp]
    dsimp only
    split
    · exact .leaving hpoint hreturned (hcovers.close hopen)
    · rename_i hdone
      have hnil := hover.resolve_right hdone
      rw [hnil] at hcovers ⊢
      simp only [List.head?_nil, Option.map_none, Option.toList_none, List.append_nil]
      exact .leaving hpoint hreturned hcovers
  | @next r rest hp hcursor hdone =>
    obtain ⟨hreturned, hopen, hcovers⟩ := h.looping (.inl hp)
    rw [hp, hcursor] at hcovers
    dsimp only
    rw [Progress.behind, hp]
    dsimp only
    rw [if_neg (by rw [hdone]; decide), hcursor]
    refine .loop (.inr ?_) hreturned hopen ?_
    · dsimp only
      rw [afterFetch_row]
      rfl
    · dsimp only
      rw [afterFetch_row]
      exact hcovers.fetch
  | @inner r next d' hp hfront hdefer hrow hcursor hdone hqueue =>
    obtain ⟨hreturned, hopen, hcovers⟩ := h.looping (.inr (by rw [hp]; rfl))
    have hbehind : p.behind ch call = p := by
      rw [Progress.behind]
      cases hpoint : call.point with
      | claim | fetch | prune =>
        rw [hpoint] at hp
        cases hp
      | defer =>
        rw [hpoint] at hp
        cases hp
        exact absurd hpoint hdefer
      | settle r' outcome =>
        rw [hpoint] at hp
        cases hp
        exact absurd hpoint (hfront outcome)
      | reclaim | openCursor | rateInsert | rateSelect | rateUpdate | read | embed | writeBack => rfl
    dsimp only
    rw [hbehind]
    refine .loop (.inr (by rw [hrow]; rfl)) hreturned hopen ?_
    rw [hrow, ← hp, hcursor, hqueue]
    exact hcovers
  | @defer r hp =>
    have hbehind : p.behind ch call = { p with deferred := p.deferred + 1 } := by
      rw [Progress.behind, hp]
    rw [hbehind]
    exact h.put (by rw [hp]; rfl) (fun q => by simp [QueueRow.released]) [] (Nat.add_assoc p.processed p.deferred 1).symm
  | @settle r outcome hp =>
    have hbehind : p.behind ch call = { p with processed := p.processed + 1 } := by
      rw [Progress.behind, hp]
    rw [hbehind]
    exact h.put (by rw [hp]; rfl) QueueRow.settled_status _ (Nat.add_right_comm p.processed 1 p.deferred)
  | prune hp ok =>
    obtain ⟨hreturned, hcovers⟩ := h.left hp
    have hbehind : p.behind ch call = { p with returned := true } := by
      rw [Progress.behind, hp]
    have hcovers : Progress.Covers { p with returned := true } d.queue [] none :=
      ⟨hcovers.nodup, hcovers.rows, hcovers.count, hcovers.left⟩
    rw [hbehind]
    cases ok with
    | false => exact fun _ => hcovers
    | true => exact fun _ => hcovers.of_queue fun i q hq => .inl (Call.prune_queue.mp hq).1

/-! ### Runs -/

/-- A client changes no row of the queue; a new one is pending and without a token. -/
theorem State.step_client {s s' : State} {l : Label} {es : List Event} (hwf : s.tables.Wf site) (hl : l.Alone c)
    (hcall : ∀ c' ch, l ≠ .call c' ch) (h : s.step site l = some (s', es)) :
    s'.calls = s.calls ∧ (∀ i q, s.tables.queue i = some q → s'.tables.queue i = some q) ∧
      ∀ i q, s'.tables.queue i = some q → s.tables.queue i = some q ∨ q.status = .pending ∧ q.claimToken = none := by
  have henqueue (d : Tables) (hd : d.Wf site) (hqueue : d.queue = s.tables.queue) (v : ℕ) (pk : Bytes) :
      (∀ i q, s.tables.queue i = some q → (d.enqueue site v pk).queue i = some q) ∧
        ∀ i q, (d.enqueue site v pk).queue i = some q → s.tables.queue i = some q ∨ q.status = .pending ∧ q.claimToken = none := by
    rw [← hqueue]
    refine ⟨fun i q hq => Tables.enqueue_keeps hd hq v pk, fun i q hq => ?_⟩
    rcases d.enqueue_cases site v pk with heq | ⟨-, -, heq⟩ <;> rw [heq] at hq
    · exact .inl hq
    · by_cases hi : i = d.nextId
      · rw [hi] at hq
        dsimp only at hq
        rw [Function.update_self] at hq
        cases hq
        exact .inr ⟨rfl, rfl⟩
      · dsimp only at hq
        rw [Function.update_of_ne hi] at hq
        exact .inl hq
  cases l with
  | insert v pk text embedding =>
    obtain ⟨d', hd', heq⟩ := Option.map_eq_some_iff.mp h
    cases heq
    obtain ⟨-, rfl⟩ := Tables.insert_eq hd'
    exact ⟨rfl, henqueue _ (hwf.setRow ..) rfl v pk⟩
  | update v pk pk' text embedding =>
    obtain ⟨d', hd', heq⟩ := Option.map_eq_some_iff.mp h
    cases heq
    obtain ⟨old, -, -, rfl⟩ := Tables.update_eq hd'
    refine ⟨rfl, ?_⟩
    dsimp only
    split
    · exact henqueue _ ((hwf.setRow ..).setRow ..) rfl v pk'
    · exact ⟨fun i q hq => hq, fun i q hq => .inl hq⟩
  | enqueue v pk =>
    cases h
    exact ⟨rfl, henqueue _ hwf rfl v pk⟩
  | delete | setEnabled | tick =>
    cases h
    exact ⟨rfl, fun i q hq => hq, fun i q hq => .inl hq⟩
  | start | kill => exact hl.elim
  | call c' ch => exact absurd rfl (hcall c' ch)

/-- The course of the call that runs, or of the one that has returned. -/
structure State.Watched (site : Site) (c : ℕ) (s : State) (p : Progress) : Prop where
  wf : s.Wf site
  running : ∀ call, s.calls c = some call → call.Stage site s.tables c p
  ended : s.calls c = none → p.returned = true → p.Covers s.tables.queue [] none

theorem Call.Stage.of_client {s s' : State} (h : call.Stage site s.tables c p)
    (hkeeps : ∀ i q, s.tables.queue i = some q → s'.tables.queue i = some q)
    (hrows : ∀ i q, s'.tables.queue i = some q → s.tables.queue i = some q ∨ q.status = .pending ∧ q.claimToken = none) :
    call.Stage site s'.tables c p := by
  have hcovers {cursor : List CursorRow} {current : Option CursorRow} (hc : p.Covers s.tables.queue cursor current) :
      p.Covers s'.tables.queue cursor current :=
    hc.of_queue fun i q hq => (hrows i q hq).imp_right fun hnew => by rw [hnew.1]; decide
  cases h with
  | front hp hprogress hdone htoken =>
    refine .front hp hprogress hdone fun i q hq => ?_
    rcases hrows i q hq with hq | ⟨-, hnone⟩
    · exact htoken i q hq
    · rw [hnone]
      exact (Option.some_ne_none c).symm
  | opening hp hprogress hdone hnodup hholds =>
    refine .opening hp hprogress hdone hnodup fun i => ?_
    rw [← hholds, holdsToken_iff, holdsToken_iff]
    constructor
    · rintro ⟨q, hq, ht, hreg⟩
      rcases hrows i q hq with hq | ⟨-, hnone⟩
      · exact ⟨q, hq, ht, hreg⟩
      · rw [hnone] at ht
        cases ht
    · rintro ⟨q, hq, hrest⟩
      exact ⟨q, hkeeps i q hq, hrest⟩
  | loop hp hreturned hopen hc => exact .loop hp hreturned hopen (hcovers hc)
  | leaving hp hreturned hc => exact .leaving hp hreturned (hcovers hc)

theorem State.call_of_not {l : Label} (h : ¬ ∃ c ch, l = .call c ch) : ∀ c ch, l ≠ .call c ch :=
  fun c ch heq => h ⟨c, ch, heq⟩

/-- What a step of a watched run does: a client's write, or the call's next statement. -/
theorem watch_cases {s s' : State} {p p' : Progress} {l : Label} {es : List Event} (hl : l.Alone c)
    (h : watch site c (s, p) l = some ((s', p'), es)) :
    s.step site l = some (s', es) ∧
      ((∀ c' ch, l ≠ .call c' ch) ∧ p' = p ∨
        ∃ ch call e, l = .call c ch ∧ ch.notFound = true ∧ s.calls c = some call ∧
          call.statement site s.tables c ch = some e ∧ s' = s.apply c e ∧ p' = p.behind ch call) := by
  obtain ⟨⟨s₁, es₁⟩, hstep, heq⟩ := Option.map_eq_some_iff.mp h
  cases heq
  refine ⟨hstep, ?_⟩
  by_cases hcall : ∃ c ch, l = .call c ch
  · obtain ⟨c', ch, rfl⟩ := hcall
    obtain ⟨rfl, hnotFound⟩ := hl
    obtain ⟨call, hcall, hmap⟩ := Option.bind_eq_some_iff.mp hstep
    obtain ⟨e, he, heq⟩ := Option.map_eq_some_iff.mp hmap
    refine .inr ⟨ch, call, e, rfl, hnotFound, hcall, he, (Prod.mk.inj heq).1.symm, ?_⟩
    dsimp only
    rw [Progress.after, if_pos rfl, hcall]
    rfl
  · refine .inl ⟨State.call_of_not hcall, ?_⟩
    cases l with
    | call c' ch => exact absurd ⟨c', ch, rfl⟩ hcall
    | _ => rfl

theorem State.apply_calls (s : State) (c : ℕ) (e : Effect) : (s.apply c e).calls c = e.call := by
  simp [State.apply]

theorem State.Watched.step {s s' : State} {p' : Progress} {l : Label} {es : List Event} (h : s.Watched site c p)
    (hl : l.Alone c) (hstep : watch site c (s, p) l = some ((s', p'), es)) : s'.Watched site c p' := by
  obtain ⟨hplain, ⟨hnot, rfl⟩ | ⟨ch, call, e, rfl, -, hcall, hstatement, rfl, rfl⟩⟩ := watch_cases hl hstep
  · obtain ⟨hcalls, hkeeps, hrows⟩ := State.step_client h.wf.tables hl hnot hplain
    refine ⟨h.wf.step hplain, fun call hcall => ?_, fun hnone hreturned => ?_⟩
    · rw [hcalls] at hcall
      exact (h.running call hcall).of_client hkeeps hrows
    · rw [hcalls] at hnone
      exact (h.ended hnone hreturned).of_queue fun i q hq => (hrows i q hq).imp_right fun hnew => by rw [hnew.1]; decide
  · have hstage := (h.running call hcall).step h.wf.tables (Call.goes_of_statement hstatement)
    have hself := State.apply_calls s c e
    refine ⟨h.wf.step hplain, fun next hnext => ?_, fun hnone hreturned => ?_⟩
    · rw [hself] at hnext
      rw [hnext] at hstage
      exact hstage
    · rw [hself] at hnone
      rw [hnone] at hstage
      exact hstage hreturned

/-! ### The flag -/

theorem Progress.behind_abandoned (h : call.point = .fetch → call.done = false) : (p.behind ch call).abandoned = p.abandoned := by
  unfold Progress.behind
  split <;> try rfl
  rename_i hp
  rw [if_neg (by rw [h hp]; decide)]

theorem Progress.behind_returned (h : call.point ≠ .prune) : (p.behind ch call).returned = p.returned := by
  unfold Progress.behind
  split <;> try rfl
  · split <;> rfl
  · exact absurd ‹call.point = .prune› h

/-- The cursor is not given up: its handler has not been called before its last row. -/
structure State.Found (c : ℕ) (s : State) (p : Progress) : Prop where
  kept : p.abandoned = []
  done : ∀ call, s.calls c = some call → call.done = true → call.cursor = []

/-- The cursor is given up, or the next fetch will do so; or the call is aborted. -/
def State.Doomed (c : ℕ) (s : State) (p : Progress) : Prop :=
  p.abandoned ≠ [] ∨ s.calls c = none ∧ p.returned = false ∨
    ∃ call, s.calls c = some call ∧ (call.point = .fetch ∨ call.point.row.isSome = true) ∧ call.done = true ∧ call.cursor ≠ []

theorem State.Found.step {s s' : State} {p' : Progress} {l : Label} {es : List Event} (h : s.Found c p) (hwatched : s.Watched site c p)
    (hl : l.Alone c) (hfound : s.ReadsFound l) (hstep : watch site c (s, p) l = some ((s', p'), es)) : s'.Found c p' := by
  obtain ⟨hplain, ⟨hnot, rfl⟩ | ⟨ch, call, e, rfl, -, hcall, hstatement, rfl, rfl⟩⟩ := watch_cases hl hstep
  · have hcalls := (State.step_client hwatched.wf.tables hl hnot hplain).1
    refine ⟨h.kept, fun call hcall => h.done call ?_⟩
    rwa [hcalls] at hcall
  · have hdone := h.done call hcall
    have hput {r : CursorRow} {f : QueueRow → QueueRow} {events : List Event} {next : Call}
        (hnext : (call.put site s.tables c r.id f { call with point := .fetch } events).call = some next) :
        next.done = true → next.cursor = [] := by
      rw [Call.put_call hnext]
      exact hdone
    have hgoes := Call.goes_of_statement hstatement
    constructor
    · by_cases hend : call.point = .fetch ∧ call.done = true
      · rw [Progress.behind, hend.1]
        dsimp only
        rw [if_pos hend.2, hdone hend.2]
        rfl
      · rw [Progress.behind_abandoned fun hp => Bool.not_eq_true _ ▸ fun ht => hend ⟨hp, ht⟩]
        exact h.kept
    · intro next hnext
      rw [State.apply_calls] at hnext
      cases hgoes with
      | reclaim | claim =>
        cases hnext
        exact hdone
      | openCursor hp =>
        cases hnext
        intro ht
        rw [((hwatched.running call hcall).opened hp).2.1] at ht
        cases ht
      | finish _ _ _ hcursor =>
        cases hnext
        exact fun _ => hcursor
      | next _ _ hfalse =>
        cases hnext
        intro ht
        rw [hfalse] at ht
        cases ht
      | inner _ _ _ _ hcursor hflag =>
        cases hnext
        rw [hcursor]
        intro ht
        rcases hflag with ⟨hsame, -⟩ | ⟨⟨r, hp, hok, hrow⟩, -⟩
        · exact hdone (hsame ▸ ht)
        · exact hfound call r hcall hp hok hrow
      | defer | settle => exact hput hnext
      | prune _ ok => cases ok <;> cases hnext

theorem State.Doomed.step {s s' : State} {p' : Progress} {l : Label} {es : List Event} (h : s.Doomed c p)
    (hwatched : s.Watched site c p) (hl : l.Alone c) (hstep : watch site c (s, p) l = some ((s', p'), es)) : s'.Doomed c p' := by
  obtain ⟨hplain, ⟨hnot, rfl⟩ | ⟨ch, call, e, rfl, -, hcall, hstatement, rfl, rfl⟩⟩ := watch_cases hl hstep
  · rw [State.Doomed, (State.step_client hwatched.wf.tables hl hnot hplain).1]
    exact h
  · have hstage := hwatched.running call hcall
    have hgoes := Call.goes_of_statement hstatement
    rcases h with hgiven | ⟨hnone, -⟩ | ⟨call', hcall', hloop, hdone, hcursor⟩
    · refine .inl ?_
      rw [Progress.behind_abandoned fun hp => absurd (hstage.looping (.inl hp)).2.1 hgiven]
      exact hgiven
    · rw [hcall] at hnone
      cases hnone
    · obtain rfl := Option.some.inj (hcall.symm.trans hcall')
      have hput {r : CursorRow} (hp : call.point.row = some r) {f : QueueRow → QueueRow} {events : List Event}
          (he : e = call.put site s.tables c r.id f { call with point := .fetch } events) :
          (s.apply c e).Doomed c (p.behind ch call) := by
        cases hnext : e.call with
        | none =>
          refine .inr (.inl ⟨by rw [State.apply_calls, hnext], ?_⟩)
          rw [Progress.behind_returned (by rintro hprune; rw [hprune] at hp; cases hp)]
          exact (hstage.looping hloop).1
        | some next =>
          have hsame := Call.put_call (he ▸ hnext)
          refine .inr (.inr ⟨next, by rw [State.apply_calls, hnext], ?_⟩)
          rw [hsame]
          exact ⟨.inl rfl, hdone, hcursor⟩
      have hfront (hp : call.point ≠ .fetch) (hrow : call.point.row = none) : False := by
        rcases hloop with hfetch | hsome
        · exact hp hfetch
        · rw [hrow] at hsome
          cases hsome
      cases hgoes with
      | reclaim hp | claim hp | openCursor hp | prune hp => exact (hfront (by rw [hp]; simp) (by rw [hp]; rfl)).elim
      | finish hp =>
        refine .inl ?_
        rw [Progress.behind, hp]
        dsimp only
        rw [if_pos hdone]
        exact fun hnil => hcursor (List.map_eq_nil_iff.mp hnil)
      | next _ _ hfalse =>
        rw [hfalse] at hdone
        cases hdone
      | @inner r next d' hp _ _ hrow hsame hflag =>
        refine .inr (.inr ⟨next, by rw [State.apply_calls], .inr (by rw [hrow]; rfl), ?_, by rw [hsame]; exact hcursor⟩)
        rcases hflag with ⟨hkeep, -⟩ | ⟨-, hset⟩
        · rw [hkeep, hdone]
        · rw [hset, hdone, Bool.true_or]
      | defer hp | settle hp => exact hput (by rw [hp]; rfl) rfl

/-- A read without a row, in front of others, dooms the call. -/
theorem State.doomed_of_emptyRead {s s' : State} {p' : Progress} {l : Label} {es : List Event} (hl : l.Alone c)
    (hbad : ¬ s.ReadsFound l) (hstep : watch site c (s, p) l = some ((s', p'), es)) : s'.Doomed c p' := by
  obtain ⟨-, ⟨hnot, rfl⟩ | ⟨ch, call, e, rfl, hnotFound, hcall, hstatement, rfl, rfl⟩⟩ := watch_cases hl hstep
  · cases l with
    | call c' ch => exact absurd rfl (hnot c' ch)
    | _ => exact absurd trivial hbad
  · simp only [State.ReadsFound, not_forall, exists_prop] at hbad
    obtain ⟨call', r, hcall', hp, hok, hrow, hcursor⟩ := hbad
    obtain rfl := Option.some.inj (hcall.symm.trans hcall')
    cases Call.goes_of_statement hstatement with
    | @inner r' next d' _ _ _ hnext hsame hflag =>
      refine .inr (.inr ⟨next, by rw [State.apply_calls], .inr (by rw [hnext]; rfl), ?_, by rw [hsame]; exact hcursor⟩)
      rcases hflag with ⟨-, hfound⟩ | ⟨-, hset⟩
      · exact absurd ⟨r, hp, hok, hrow⟩ hfound
      · rw [hset, hnotFound, Bool.or_true]
    | reclaim hp' | claim hp' | openCursor hp' | finish hp' | next hp' | defer hp' | settle hp' | prune hp' =>
      rw [hp] at hp'
      cases hp'

/-! ### The result -/

theorem Call.Stage.not_returned (h : call.Stage site d c p) : p.returned = false := by
  cases h with
  | front _ hprogress => rw [hprogress]
  | opening _ hprogress => rw [hprogress]
  | loop _ hreturned => exact hreturned
  | leaving _ hreturned => exact hreturned

theorem State.Watched.start {s : State} (h : s.Wf site) (account : String) (batchSize : Option ℕ) (staleSecs : Option ℤ) :
    State.Watched site s.nextCall { s with
      calls := Function.update s.calls s.nextCall (some (.start account batchSize staleSecs))
      nextCall := s.nextCall + 1 } {} where
  wf :=
    have hstep : s.step site (.start account batchSize staleSecs) = some ({ s with
      calls := Function.update s.calls s.nextCall (some (.start account batchSize staleSecs))
      nextCall := s.nextCall + 1 }, []) := rfl
    h.step hstep
  running call hcall := by
    dsimp only at hcall
    rw [Function.update_self] at hcall
    cases hcall
    exact .front (.inl rfl) rfl rfl fun i q hq ht => (h.tokens i q _ hq ht).ne rfl
  ended hnone := by
    dsimp only at hnone
    rw [Function.update_self] at hnone
    cases hnone

theorem State.Found.start (s : State) (account : String) (batchSize : Option ℕ) (staleSecs : Option ℤ) :
    State.Found s.nextCall { s with
      calls := Function.update s.calls s.nextCall (some (.start account batchSize staleSecs))
      nextCall := s.nextCall + 1 } {} where
  kept := rfl
  done call hcall hdone := by
    dsimp only at hcall
    rw [Function.update_self] at hcall
    cases hcall
    cases hdone

/-- A run with a read that finds no row, in front of others, is doomed. -/
theorem doomed_of_not_meet {labels : List Label} {cfg final : Config (State × Progress) Event}
    (hwatched : cfg.state.1.Watched site c cfg.state.2) (hlabels : ∀ l ∈ labels, l.Alone c)
    (hrun : exec (watch site c) cfg labels = some final)
    (hbad : ¬ StepsMeet (watch site c) (fun s _ l => s.1.ReadsFound l) cfg labels) : final.state.1.Doomed c final.state.2 := by
  induction labels generalizing cfg with
  | nil => exact absurd trivial hbad
  | cons l labels ih =>
    obtain ⟨hl, hrest⟩ := List.forall_mem_cons.mp hlabels
    obtain ⟨⟨s, p⟩, es, hstep, htail⟩ := exec_cons hrun
    have hnext := hwatched.step hl hstep
    by_cases hfound : cfg.state.1.ReadsFound l
    · refine ih hnext hrest htail fun hmeet => hbad ⟨hfound, ?_⟩
      rw [hstep]
      exact hmeet
    · have hdoomed := State.doomed_of_emptyRead hl hfound hstep
      have hkeep := exec_invariant_of (P := fun _ _ l => l.Alone c)
        (I := fun s _ => s.1.Watched site c s.2 ∧ s.1.Doomed c s.2)
        (fun hi hl hs => ⟨hi.1.step hl hs, hi.2.step hi.1 hl hs⟩)
        (.of_forall (fun l hl _ _ => hrest l hl) _) (⟨hnext, hdoomed⟩) htail
      exact hkeep.2

/-- A call that runs alone settles what it claims exactly when no read but that of the last row
finds no source row. -/
theorem settles_claimed_iff (site : Site) (s : State) (hwf : s.Wf site) (account : String) (batchSize : Option ℕ)
    (staleSecs : Option ℤ) (labels : List Label) (hlabels : ∀ l ∈ labels, l.Alone s.nextCall)
    (final : Config (State × Progress) Event)
    (hrun : exec (watch site s.nextCall) ⟨(s, {}), []⟩ (.start account batchSize staleSecs :: labels) = some final)
    (hreturned : final.state.2.returned = true) :
    final.state.1.SettlesClaimed final.state.2 ↔
      StepsMeet (watch site s.nextCall) (fun s _ l => s.1.ReadsFound l) ⟨(s, {}), []⟩
        (.start account batchSize staleSecs :: labels) := by
  have hstart := State.Watched.start hwf account batchSize staleSecs
  have htail : exec (watch site s.nextCall) ⟨({ s with
      calls := Function.update s.calls s.nextCall (some (.start account batchSize staleSecs))
      nextCall := s.nextCall + 1 }, {}), []⟩ labels = some final := hrun
  have hwatched : final.state.1.Watched site s.nextCall final.state.2 :=
    exec_invariant_of (P := fun _ _ l => l.Alone s.nextCall) (I := fun s' _ => s'.1.Watched site s.nextCall s'.2)
      (fun hi hl hs => hi.step hl hs) (.of_forall (fun l hl _ _ => hlabels l hl) _) hstart htail
  have hnone : final.state.1.calls s.nextCall = none := by
    cases hcall : final.state.1.calls s.nextCall with
    | none => rfl
    | some call =>
      rw [(hwatched.running call hcall).not_returned] at hreturned
      cases hreturned
  have hcovers := hwatched.ended hnone hreturned
  have hrows := hcovers.rows
  rw [List.map_nil, List.nil_append] at hrows
  constructor
  · intro hsettles
    by_contra hbad
    have hbad' : ¬ StepsMeet (watch site s.nextCall) (fun s _ l => s.1.ReadsFound l) ⟨({ s with
        calls := Function.update s.calls s.nextCall (some (.start account batchSize staleSecs))
        nextCall := s.nextCall + 1 }, {}), []⟩ labels := fun hmeet => hbad ⟨trivial, hmeet⟩
    rcases doomed_of_not_meet hstart hlabels htail hbad' with hgiven | ⟨-, hfalse⟩ | ⟨call, hcall, -⟩
    · obtain ⟨i, hi⟩ := List.exists_mem_of_ne_nil _ hgiven
      have hnodup := hrows.nodup_iff.mpr hcovers.nodup
      have hclaimed := hrows.mem_iff.mp (List.mem_append_right _ hi)
      exact List.disjoint_of_nodup_append hnodup ((hsettles.visits i).mpr hclaimed) hi
    · rw [hfalse] at hreturned
      cases hreturned
    · rw [hnone] at hcall
      cases hcall
  · rintro ⟨-, hmeet⟩
    have hfound : final.state.1.Watched site s.nextCall final.state.2 ∧ final.state.1.Found s.nextCall final.state.2 :=
      exec_invariant_of (I := fun s' _ => s'.1.Watched site s.nextCall s'.2 ∧ s'.1.Found s.nextCall s'.2)
        (fun hi hl hs => ⟨hi.1.step hl.2 hs, hi.2.step hi.1 hl.2 hl.1 hs⟩)
        (hmeet.and_forall hlabels) ⟨hstart, State.Found.start ..⟩ htail
    rw [hfound.2.kept, List.append_nil] at hrows
    exact {
      once := hrows.nodup_iff.mpr hcovers.nodup
      visits := fun i => hrows.mem_iff
      left := fun i hi => hcovers.left i (hrows.mem_iff.mpr hi) (by simp)
      count := by
        rw [← hrows.length_eq, ← hcovers.count]
        rfl }

/-- Rows 1 and 2 are queued; the source table has the given texts. -/
def twoQueued (texts : Bytes → Option Bytes) : State where
  tables := (({ rows := fun _ pk => (texts pk).map fun t => ⟨some t, none, true⟩ } : Tables).enqueue plainSite 0 (ascii "1")).enqueue
    plainSite 0 (ascii "2")

theorem twoQueued_wf (texts : Bytes → Option Bytes) : (twoQueued texts).Wf plainSite :=
  ((State.Wf.initial plainSite _).step (l := .enqueue 0 (ascii "1")) rfl).step (l := .enqueue 0 (ascii "2")) rfl

/-- The statements of the one call, each with the rows it takes. -/
def aloneSteps (idss : List (List ℕ)) : List Label := idss.map fun ids => .call 0 { ids := ids, notFound := true }

theorem aloneSteps_alone {idss : List (List ℕ)} : ∀ l ∈ aloneSteps idss, l.Alone 0 := by
  intro l hl
  obtain ⟨ids, -, rfl⟩ := List.mem_map.mp hl
  exact ⟨rfl, rfl⟩

/-- Row 1 has no source row: its read closes the cursor in front of row 2. -/
theorem deleted_row_strands : ¬ ∀ (site : Site) (s : State), s.Wf site → ∀ (account : String) (batchSize : Option ℕ)
    (staleSecs : Option ℤ) (labels : List Label), (∀ l ∈ labels, l.Alone s.nextCall) →
      ∀ final : Config (State × Progress) Event,
        exec (watch site s.nextCall) ⟨(s, {}), []⟩ (.start account batchSize staleSecs :: labels) = some final →
          final.state.2.returned = true → final.state.1.SettlesClaimed final.state.2 := by
  intro hall
  have hany : (exec (watch plainSite 0) ⟨(twoQueued fun _ => none, {}), []⟩
      (.start "ada" none none :: aloneSteps [[], [0, 1], [0, 1], [], [], [], [], []])).any (fun c => decide
        (c.state.2 = { claimed := [0, 1], visited := [0], abandoned := [1], processed := 1, returned := true })) = true := by
    decide
  obtain ⟨final, hrun, hend⟩ := (Option.any_eq_true ..).mp hany
  have hend := of_decide_eq_true hend
  have hsettles := hall plainSite (twoQueued fun _ => none) (twoQueued_wf _) "ada" none none _ aloneSteps_alone final hrun
    (by rw [hend])
  have hvisits := hsettles.visits 1
  rw [hend] at hvisits
  simp at hvisits

/-- Both rows have a source row. -/
theorem both_rows_settle : ∃ final : Config (State × Progress) Event,
    exec (watch plainSite 0) ⟨(twoQueued fun _ => some (ascii "cat"), {}), []⟩
        (.start "ada" none none :: aloneSteps [[], [0, 1], [0, 1], [], [], [], [], [], [], [], [], [], [], [], []]) = some final ∧
      final.state.1.SettlesClaimed final.state.2 := by
  have hany : (exec (watch plainSite 0) ⟨(twoQueued fun _ => some (ascii "cat"), {}), []⟩
      (.start "ada" none none :: aloneSteps [[], [0, 1], [0, 1], [], [], [], [], [], [], [], [], [], [], [], []])).any
        (fun c => decide (c.state.2 = { claimed := [0, 1], visited := [0, 1], processed := 2, returned := true })) = true := by
    decide +kernel
  obtain ⟨final, hrun, hend⟩ := (Option.any_eq_true ..).mp hany
  have hend := of_decide_eq_true hend
  refine ⟨final, hrun, (settles_claimed_iff plainSite (twoQueued fun _ => some (ascii "cat")) (twoQueued_wf _) "ada" none none _
    aloneSteps_alone final hrun (by rw [hend])).mpr ?_⟩
  decide +kernel

end FractalSQL.Vectorizer
