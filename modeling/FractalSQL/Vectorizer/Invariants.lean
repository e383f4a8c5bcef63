import FractalSQL.Vectorizer.System

/-!
# What every run keeps

The constraints of the tables, the numbers of rows and calls, and the keys in the
cursors of the running calls: the key of a queue row never changes and its id is never
used again, so a cursor names the right key even where its call no longer holds the row.
-/
namespace FractalSQL.Vectorizer
open Lib

/-- The row that a call is at. -/
def Point.row : Point → Option CursorRow
  | .reclaim | .claim | .openCursor | .fetch | .prune => none
  | .rateInsert r | .rateSelect r | .defer r | .rateUpdate r _ _ | .read r | .embed r | .writeBack r | .settle r _ =>
    some r

/-- The rows that a call may still update. -/
def Call.ahead (call : Call) : List CursorRow :=
  match call.point with
  | .reclaim | .claim | .openCursor | .prune => []
  | p => p.row.toList ++ call.cursor

/-- A statement that leaves the queue alone: it goes on in the loop over the cursor. -/
structure Call.Walks (site : Site) (d : Tables) (ch : Choice) (call next : Call) : Prop where
  account : next.account = call.account
  ahead : next.ahead.Sublist call.ahead
  looping : next.point ≠ .reclaim ∧ next.point ≠ .claim ∧ next.point ≠ .openCursor
  toEmbed : ∀ r, next.point = .embed r →
    ∃ row t, d.rows r.vectorizer r.pk = some row ∧ row.text = some t ∧ next.text = some t
  toWrite : ∀ r, next.point = .writeBack r →
    call.point = .embed r ∧ next.text = call.text ∧ next.vec = call.text.map site.embed
  toDone : ∀ r, next.point = .settle r .done → ∀ row, d.rows r.vectorizer r.pk = some row → row.text = none
  readFailed : ∀ r, next.point = .settle r .readFailed → call.point = .read r ∧ ch.ok = false
  dispatchFailed : ∀ r, next.point = .settle r .dispatchFailed →
    call.point = .embed r ∧ (ch.ok = true → call.text = none)
  writeFailed : ∀ r, next.point = .settle r .writeFailed → call.point = .writeBack r ∧ ch.ok = false

/-- What a statement of a call can do. -/
inductive Call.Does (site : Site) (d : Tables) (c : ℕ) (call : Call) (ch : Choice) : Effect → Prop where
  | reclaim (hpoint : call.point = .reclaim) : Does site d c call ch (call.reclaim d c)
  | claim (hpoint : call.point = .claim) (hids : call.mayClaim site d ch.ids = true) :
      Does site d c call ch (call.claim d c ch.ids)
  | openCursor (hpoint : call.point = .openCursor) (hids : mayOpen site d c ch.ids = true) :
      Does site d c call ch
        { tables := d, call := some { call with point := .fetch, cursor := ch.ids.filterMap (cursorRow d) } }
  | walk {next : Call} {windows : ℕ → Option Window} (hwalk : call.Walks site d ch next) :
      Does site d c call ch { tables := { d with windows := windows }, call := some next }
  | writeBack {r : CursorRow} (hpoint : call.point = .writeBack r) (hok : ch.ok = true) :
      Does site d c call ch
        { tables := d.setRow r.vectorizer r.pk
            ((d.rows r.vectorizer r.pk).map fun row => { row with embedding := call.vec })
          call := some { call with point := .settle r .done } }
  | defer {r : CursorRow} (hpoint : call.point = .defer r) :
      Does site d c call ch (call.put site d c r.id (QueueRow.released d.now) { call with point := .fetch } [])
  | settle {r : CursorRow} {outcome : Outcome} (hpoint : call.point = .settle r outcome) :
      Does site d c call ch (call.put site d c r.id (QueueRow.settled site d.now r outcome) { call with point := .fetch }
        (if outcome = .dispatchFailed then [.dispatchFailed r.id] else []))
  | prune (hpoint : call.point = .prune) : Does site d c call ch (call.prune site d c)
  | leave (hpoint : call.point = .prune) : Does site d c call ch { tables := d, call := none }

variable {site : Site} {d : Tables} {c : ℕ} {call : Call} {ch : Choice} {e : Effect}

theorem Call.walks_afterFetch {r : CursorRow} {rest : List CursorRow} (hp : call.point = .fetch)
    (hcursor : call.cursor = r :: rest) :
    call.Walks site d ch { call with point := afterFetch site r, cursor := rest } := by
  unfold afterFetch
  split <;> exact ⟨rfl, by simp [ahead, hp, hcursor, Point.row], by simp, by simp, by simp, by simp, by simp, by simp, by simp⟩

theorem Call.walks_rateDecision {r : CursorRow} (hp : call.point = .rateSelect r) :
    call.Walks site d ch { call with point := rateDecision site d r } := by
  have hdecision : rateDecision site d r = .defer r ∨ ∃ start calls, rateDecision site d r = .rateUpdate r start calls := by
    unfold rateDecision
    dsimp only
    split_ifs
    all_goals first | exact .inl rfl | exact .inr ⟨_, _, rfl⟩
  rcases hdecision with h | ⟨start, calls, h⟩ <;> rw [h] <;>
    exact ⟨rfl, by simp [ahead, hp, Point.row], by simp, by simp, by simp, by simp, by simp, by simp, by simp⟩

theorem Call.does_of_statement (h : call.statement site d c ch = some e) : call.Does site d c ch e := by
  unfold statement at h
  split at h
  · rename_i hp
    cases h
    exact .reclaim hp
  · rename_i hp
    split at h
    · cases h
      exact .claim hp ‹_›
    · cases h
  · rename_i hp
    split at h
    · cases h
      exact .openCursor hp ‹_›
    · cases h
  · rename_i hp
    split at h
    · cases h
      exact .walk ⟨rfl, by simp [ahead, hp], by simp, by simp, by simp, by simp, by simp, by simp, by simp⟩
    · rename_i r rest hcursor
      split at h
      · cases h
        exact .walk ⟨rfl, by simp [ahead], by simp, by simp, by simp, by simp, by simp, by simp, by simp⟩
      · cases h
        exact .walk (walks_afterFetch hp hcursor)
  · rename_i r hp
    cases h
    exact .walk ⟨rfl, by simp [ahead, hp, Point.row], by simp, by simp, by simp, by simp, by simp, by simp, by simp⟩
  · rename_i r hp
    cases h
    exact .walk (walks_rateDecision hp)
  · rename_i r hp
    cases h
    exact .defer hp
  · rename_i r start calls hp
    cases h
    exact .walk ⟨rfl, by simp [ahead, hp, Point.row], by simp, by simp, by simp, by simp, by simp, by simp, by simp⟩
  · rename_i r hp
    split at h
    · rename_i hok
      cases h
      refine .walk ⟨rfl, by simp [ahead, hp, Point.row], by simp, by simp, by simp, by simp, ?_, by simp, by simp⟩
      intro r' hr
      obtain rfl : r = r' := by simpa using hr
      exact ⟨hp, by simpa using hok⟩
    · split at h
      · rename_i hnone
        cases h
        refine .walk ⟨rfl, by simp [ahead, hp, Point.row], by simp, by simp, by simp, ?_, by simp, by simp, by simp⟩
        intro r' hr row hrow
        obtain rfl : r = r' := by simpa using hr
        rw [hnone] at hrow
        cases hrow
      · rename_i row hrow
        cases h
        cases ht : row.text with
        | some t =>
          refine .walk ⟨rfl, by simp [ahead, hp, Point.row], by simp, ?_, by simp, by simp, by simp, by simp, by simp⟩
          intro r' hr
          obtain rfl : r = r' := by simpa using hr
          exact ⟨row, t, hrow, ht, rfl⟩
        | none =>
          refine .walk ⟨rfl, by simp [ahead, hp, Point.row], by simp, by simp, by simp, ?_, by simp, by simp, by simp⟩
          intro r' hr row' hrow'
          obtain rfl : r = r' := by simpa using hr
          obtain rfl := Option.some.inj (hrow.symm.trans hrow')
          exact ht
  · rename_i r hp
    dsimp only at h
    cases h
    cases hv : (if ch.ok = true then call.text.map site.embed else none) with
    | some vec =>
      refine .walk ⟨rfl, by simp [ahead, hp, Point.row], by simp, by simp, ?_, by simp, by simp, by simp, by simp⟩
      intro r' hr
      obtain rfl : r = r' := by simpa using hr
      refine ⟨hp, rfl, ?_⟩
      split at hv
      · exact hv.symm
      · cases hv
    | none =>
      refine .walk ⟨rfl, by simp [ahead, hp, Point.row], by simp, by simp, by simp, by simp, by simp, ?_, by simp⟩
      intro r' hr
      obtain rfl : r = r' := by simpa using hr
      refine ⟨hp, fun hok => ?_⟩
      simpa [hok] using hv
  · rename_i r hp
    split at h
    · rename_i hok
      cases h
      exact .writeBack hp hok
    · rename_i hok
      cases h
      refine .walk ⟨rfl, by simp [ahead, hp, Point.row], by simp, by simp, by simp, by simp, by simp, by simp, ?_⟩
      intro r' hr
      obtain rfl : r = r' := by simpa using hr
      exact ⟨hp, by simpa using hok⟩
  · rename_i r outcome hp
    cases h
    exact .settle hp
  · rename_i hp
    split at h
    · cases h
      exact .prune hp
    · cases h
      exact .leave hp

/-! ### The queue -/

/-- No two active rows have one key. -/
def Tables.Unique (site : Site) (d : Tables) : Prop :=
  ∀ i j q q' key, d.queue i = some q → d.queue j = some q' → q.activeKey site = some key →
    q'.activeKey site = some key → i = j

/-- What the numbers of rows and the keys satisfy. -/
structure Tables.Wf (site : Site) (d : Tables) : Prop where
  ids : ∀ i q, d.queue i = some q → i < d.nextId
  unique : d.Unique site

theorem Tables.taken_iff {but : Option ℕ} {key : ℕ × Bytes} (h : ∀ i q, d.queue i = some q → i < d.nextId) :
    d.taken site key but = true ↔ ∃ i q, some i ≠ but ∧ d.queue i = some q ∧ q.activeKey site = some key := by
  unfold taken
  rw [List.any_eq_true]
  constructor
  · rintro ⟨i, -, hi⟩
    simp only [ne_eq, Option.any_eq_true, decide_eq_true_eq] at hi
    obtain ⟨hne, q, hq, hkey⟩ := hi
    exact ⟨i, q, hne, hq, hkey⟩
  · rintro ⟨i, q, hne, hq, hkey⟩
    refine ⟨i, List.mem_range.mpr (h i q hq), ?_⟩
    simp only [ne_eq, Option.any_eq_true, decide_eq_true_eq]
    exact ⟨hne, q, hq, hkey⟩

/-- An enqueue does nothing, or adds a pending row under the next id. -/
theorem Tables.enqueue_cases (site : Site) (d : Tables) (v : ℕ) (pk : Bytes) :
    d.enqueue site v pk = d ∨ d.enabled v = true ∧ d.taken site (v, site.keyWeight pk) none = false ∧
      d.enqueue site v pk = { d with
        queue := Function.update d.queue d.nextId (some { vectorizer := v, pk, createdAt := d.now, updatedAt := d.now })
        nextId := d.nextId + 1 } := by
  unfold enqueue
  split_ifs with hon htaken
  · exact .inl rfl
  · exact .inr ⟨hon.2, by simpa using htaken, rfl⟩
  · exact .inl rfl

theorem Tables.Wf.enqueue (h : d.Wf site) (v : ℕ) (pk : Bytes) : (d.enqueue site v pk).Wf site := by
  rcases d.enqueue_cases site v pk with heq | ⟨-, htaken, heq⟩
  · rwa [heq]
  · rw [heq]
    have hnot : ∀ i q, d.queue i = some q → q.activeKey site ≠ some (v, site.keyWeight pk) := by
      intro i q hq hkey
      have : d.taken site (v, site.keyWeight pk) none = true := (taken_iff h.ids).mpr ⟨i, q, by simp, hq, hkey⟩
      rw [htaken] at this
      cases this
    constructor
    · intro i q hq
      dsimp only at hq ⊢
      by_cases hi : i = d.nextId
      · omega
      · rw [Function.update_of_ne hi] at hq
        exact (h.ids i q hq).trans (Nat.lt_succ_self _)
    · intro i j q q' key hq hq' hkey hkey'
      dsimp only at hq hq'
      by_cases hi : i = d.nextId <;> by_cases hj : j = d.nextId
      · rw [hi, hj]
      · subst hi
        rw [Function.update_self] at hq
        cases hq
        cases hkey
        rw [Function.update_of_ne hj] at hq'
        exact absurd hkey' (hnot j q' hq')
      · subst hj
        rw [Function.update_self] at hq'
        cases hq'
        cases hkey'
        rw [Function.update_of_ne hi] at hq
        exact absurd hkey (hnot i q hq)
      · rw [Function.update_of_ne hi] at hq
        rw [Function.update_of_ne hj] at hq'
        exact h.unique i j q q' key hq hq' hkey hkey'

/-- A row after a statement: its key is the same. -/
def QueueRow.SameKey (q q' : QueueRow) : Prop := q'.vectorizer = q.vectorizer ∧ q'.pk = q.pk

theorem QueueRow.released_sameKey (now : ℤ) (q : QueueRow) : q.SameKey (q.released now) := ⟨rfl, rfl⟩

theorem QueueRow.settled_sameKey (site : Site) (now : ℤ) (r : CursorRow) (outcome : Outcome) (q : QueueRow) :
    q.SameKey (q.settled site now r outcome) := by
  cases outcome with
  | dispatchFailed =>
    unfold settled
    split_ifs <;> exact ⟨rfl, rfl⟩
  | done | readFailed | writeFailed => exact ⟨rfl, rfl⟩

theorem QueueRow.settled_claimToken {now : ℤ} {r : CursorRow} {outcome : Outcome} {q : QueueRow} {t : ℕ}
    (h : (q.settled site now r outcome).claimToken = some t) : q.claimToken = some t := by
  cases outcome with
  | dispatchFailed =>
    unfold settled at h
    split_ifs at h
    exact h
  | done | readFailed | writeFailed => exact h

theorem QueueRow.SameKey.activeKey {q q' : QueueRow} {key : ℕ × Bytes} (h : q.SameKey q')
    (hact : q'.status.active = true → q.status.active = true) (hkey : q'.activeKey site = some key) :
    q.activeKey site = some key := by
  unfold QueueRow.activeKey at hkey ⊢
  split at hkey
  · rename_i hq
    rw [if_pos (hact hq), ← h.1, ← h.2]
    exact hkey
  · cases hkey

/-- A statement that activates no row keeps the constraints. -/
theorem Tables.Wf.of_rows {d' : Tables} (h : d.Wf site) (hid : d'.nextId = d.nextId)
    (hrows : ∀ i q', d'.queue i = some q' →
      ∃ q, d.queue i = some q ∧ q.SameKey q' ∧ (q'.status.active = true → q.status.active = true)) : d'.Wf site := by
  constructor
  · intro i q' hq'
    obtain ⟨q, hq, -⟩ := hrows i q' hq'
    rw [hid]
    exact h.ids i q hq
  · intro i j q q' key hq hq' hkey hkey'
    obtain ⟨p, hp, hsame, hact⟩ := hrows i q hq
    obtain ⟨p', hp', hsame', hact'⟩ := hrows j q' hq'
    exact h.unique i j p p' key hp hp' (hsame.activeKey hact hkey) (hsame'.activeKey hact' hkey')

/-! ### The statements on the queue -/

/-- A row behind the reclaim. -/
theorem Call.reclaim_queue {i : ℕ} {q' : QueueRow} (h : (call.reclaim d c).tables.queue i = some q') :
    ∃ q, d.queue i = some q ∧ (call.isStale d q = true ∧ q' = q.released d.now ∨ call.isStale d q = false ∧ q' = q) := by
  simp only [reclaim] at h
  obtain ⟨q, hq, hq'⟩ := Option.map_eq_some_iff.mp h
  refine ⟨q, hq, ?_⟩
  cases hs : call.isStale d q with
  | true => exact .inl ⟨rfl, by simpa [hs] using hq'.symm⟩
  | false => exact .inr ⟨rfl, by simpa [hs] using hq'.symm⟩

/-- A row behind the claim. -/
theorem Call.claim_queue {ids : List ℕ} {i : ℕ} {q' : QueueRow} (h : (call.claim d c ids).tables.queue i = some q') :
    ∃ q, d.queue i = some q ∧ (i ∈ ids ∧ q' = q.claimed d.now c ∨ i ∉ ids ∧ q' = q) := by
  simp only [claim] at h
  split at h
  · rename_i hi
    obtain ⟨q, hq, rfl⟩ := Option.map_eq_some_iff.mp h
    exact ⟨q, hq, .inl ⟨hi, rfl⟩⟩
  · rename_i hi
    exact ⟨q', h, .inr ⟨hi, rfl⟩⟩

theorem Call.eligible_iff {i : ℕ} : call.eligible site d i = true ↔ ∃ q, d.queue i = some q ∧ q.status = .pending ∧
    d.enabled q.vectorizer = true ∧ site.owns call.account q.vectorizer = true := by
  simp [eligible, Option.any_eq_true]

theorem Call.eligible_of_mayClaim {ids : List ℕ} (h : call.mayClaim site d ids = true) {i : ℕ} (hi : i ∈ ids) :
    call.eligible site d i = true := by
  simp only [mayClaim, decide_eq_true_eq] at h
  exact h.2.1 i hi

/-- A row behind the retention. -/
theorem Call.prune_queue {i : ℕ} {q : QueueRow} :
    (call.prune site d c).tables.queue i = some q ↔ d.queue i = some q ∧ call.expired site d q = false := by
  simp [prune, Option.filter_eq_some_iff]

/-- What an UPDATE by id can do. -/
theorem Call.put_cases (site : Site) (d : Tables) (c : ℕ) (call : Call) (id : ℕ) (f : QueueRow → QueueRow) (next : Call)
    (events : List Event) :
    d.queue id = none ∧ call.put site d c id f next events = { tables := d, call := some next } ∨
      ∃ q, d.queue id = some q ∧
        ((∃ key, (f q).activeKey site = some key ∧ d.taken site key (some id) = true) ∧
            call.put site d c id f next events = { tables := d, call := none, events := [.duplicateKey c] } ∨
          (∀ key, (f q).activeKey site = some key → d.taken site key (some id) = false) ∧
            call.put site d c id f next events =
              { tables := { d with queue := Function.update d.queue id (some (f q)) }
                call := some next
                events := .changed c call.account true q (f q) :: events }) := by
  unfold put
  cases hq : d.queue id with
  | none => exact .inl ⟨rfl, rfl⟩
  | some q =>
    refine .inr ⟨q, rfl, ?_⟩
    dsimp only
    split
    · rename_i htaken
      refine .inl ⟨?_, rfl⟩
      simpa [Option.any_eq_true] using htaken
    · rename_i htaken
      refine .inr ⟨fun key hkey => ?_, rfl⟩
      simpa [hkey] using htaken

/-- An UPDATE by id writes the queue and nothing else. -/
theorem Call.put_rows (id : ℕ) (f : QueueRow → QueueRow) (next : Call) (events : List Event) :
    (call.put site d c id f next events).tables.rows = d.rows := by
  rcases Call.put_cases site d c call id f next events with ⟨-, heq⟩ | ⟨q, hq, ⟨-, heq⟩ | ⟨-, heq⟩⟩ <;> rw [heq]

theorem Call.put_enabled (id : ℕ) (f : QueueRow → QueueRow) (next : Call) (events : List Event) :
    (call.put site d c id f next events).tables.enabled = d.enabled := by
  rcases Call.put_cases site d c call id f next events with ⟨-, heq⟩ | ⟨q, hq, ⟨-, heq⟩ | ⟨-, heq⟩⟩ <;> rw [heq]

/-- The call goes on as it was to, unless the UPDATE aborts it. -/
theorem Call.put_call {id : ℕ} {f : QueueRow → QueueRow} {next next' : Call} {events : List Event}
    (h : (call.put site d c id f next events).call = some next') : next' = next := by
  rcases Call.put_cases site d c call id f next events with ⟨-, heq⟩ | ⟨q, hq, ⟨-, heq⟩ | ⟨-, heq⟩⟩ <;> rw [heq] at h <;> cases h <;> rfl

/-- No statement of a call changes a key or adds a row. -/
theorem Call.Does.sameKey (h : call.Does site d c ch e) : e.tables.nextId = d.nextId ∧
    ∀ i q', e.tables.queue i = some q' → ∃ q, d.queue i = some q ∧ q.SameKey q' := by
  have hkeep : ∀ i q', d.queue i = some q' → ∃ q, d.queue i = some q ∧ q.SameKey q' :=
    fun i q' hq' => ⟨q', hq', rfl, rfl⟩
  have hput (id : ℕ) (f : QueueRow → QueueRow) (hf : ∀ q : QueueRow, q.SameKey (f q)) (next : Call) (events : List Event) :
      (call.put site d c id f next events).tables.nextId = d.nextId ∧
        ∀ i q', (call.put site d c id f next events).tables.queue i = some q' →
          ∃ q, d.queue i = some q ∧ q.SameKey q' := by
    rcases Call.put_cases site d c call id f next events with ⟨-, heq⟩ | ⟨q, hq, ⟨-, heq⟩ | ⟨-, heq⟩⟩ <;> rw [heq]
    · exact ⟨rfl, hkeep⟩
    · exact ⟨rfl, hkeep⟩
    · refine ⟨rfl, fun i q' hq' => ?_⟩
      dsimp only at hq'
      by_cases hi : i = id
      · subst hi
        rw [Function.update_self] at hq'
        cases hq'
        exact ⟨q, hq, hf q⟩
      · rw [Function.update_of_ne hi] at hq'
        exact hkeep i q' hq'
  cases h with
  | reclaim =>
    refine ⟨rfl, fun i q' hq' => ?_⟩
    obtain ⟨q, hq, ⟨-, rfl⟩ | ⟨-, rfl⟩⟩ := Call.reclaim_queue hq'
    · exact ⟨q, hq, q.released_sameKey d.now⟩
    · exact hkeep i _ hq
  | claim =>
    refine ⟨rfl, fun i q' hq' => ?_⟩
    obtain ⟨q, hq, ⟨-, rfl⟩ | ⟨-, rfl⟩⟩ := Call.claim_queue hq'
    · exact ⟨q, hq, rfl, rfl⟩
    · exact hkeep i _ hq
  | openCursor | walk | writeBack | leave => exact ⟨rfl, hkeep⟩
  | defer => exact hput _ _ (QueueRow.released_sameKey d.now) _ _
  | settle => exact hput _ _ (QueueRow.settled_sameKey site d.now _ _) _ _
  | prune => exact ⟨rfl, fun i q' hq' => hkeep i q' (Call.prune_queue.mp hq').1⟩

theorem Call.Does.wf (h : call.Does site d c ch e) (hd : d.Wf site) : e.tables.Wf site := by
  have hput (id : ℕ) (f : QueueRow → QueueRow) (next : Call) (events : List Event) :
      (call.put site d c id f next events).tables.Wf site := by
    rcases Call.put_cases site d c call id f next events with ⟨-, heq⟩ | ⟨q, hq, ⟨-, heq⟩ | ⟨hfree, heq⟩⟩ <;> rw [heq]
    · exact hd
    · exact hd
    · have hnot : ∀ j p key, j ≠ id → d.queue j = some p → p.activeKey site = some key →
          (f q).activeKey site ≠ some key := by
        intro j p key hj hp hpkey hkey
        have : d.taken site key (some id) = true :=
          (Tables.taken_iff hd.ids).mpr ⟨j, p, by simpa using hj, hp, hpkey⟩
        rw [hfree key hkey] at this
        cases this
      constructor
      · intro i q' hq'
        dsimp only at hq' ⊢
        by_cases hi : i = id
        · exact hi ▸ hd.ids id q hq
        · rw [Function.update_of_ne hi] at hq'
          exact hd.ids i q' hq'
      · intro i j p p' key hp hp' hkey hkey'
        dsimp only at hp hp'
        by_cases hi : i = id <;> by_cases hj : j = id
        · rw [hi, hj]
        · rw [hi, Function.update_self] at hp
          rw [Function.update_of_ne hj] at hp'
          cases hp
          exact absurd hkey (hnot j p' key hj hp' hkey')
        · rw [Function.update_of_ne hi] at hp
          rw [hj, Function.update_self] at hp'
          cases hp'
          exact absurd hkey' (hnot i p key hi hp hkey)
        · rw [Function.update_of_ne hi] at hp
          rw [Function.update_of_ne hj] at hp'
          exact hd.unique i j p p' key hp hp' hkey hkey'
  cases h with
  | reclaim =>
    refine hd.of_rows rfl fun i q' hq' => ?_
    obtain ⟨q, hq, ⟨hstale, rfl⟩ | ⟨-, rfl⟩⟩ := Call.reclaim_queue hq'
    · simp only [Call.isStale, decide_eq_true_eq] at hstale
      exact ⟨q, hq, q.released_sameKey d.now, fun _ => by rw [hstale.1]; rfl⟩
    · exact ⟨_, hq, ⟨rfl, rfl⟩, id⟩
  | claim _ hids =>
    refine hd.of_rows rfl fun i q' hq' => ?_
    obtain ⟨q, hq, ⟨hi, rfl⟩ | ⟨-, rfl⟩⟩ := Call.claim_queue hq'
    · obtain ⟨p, hp, hpend, -⟩ := Call.eligible_iff.mp (Call.eligible_of_mayClaim hids hi)
      obtain rfl := Option.some.inj (hq.symm.trans hp)
      exact ⟨q, hq, ⟨rfl, rfl⟩, fun _ => by rw [hpend]; rfl⟩
    · exact ⟨_, hq, ⟨rfl, rfl⟩, id⟩
  | openCursor | walk | writeBack | leave => exact hd.of_rows rfl fun i q' hq' => ⟨q', hq', ⟨rfl, rfl⟩, id⟩
  | defer | settle => exact hput _ _ _ _
  | prune => exact hd.of_rows rfl fun i q' hq' => ⟨q', (Call.prune_queue.mp hq').1, ⟨rfl, rfl⟩, id⟩

/-! ### The source tables and the whole state -/

theorem Tables.insert_eq {v : ℕ} {pk : Bytes} {text embedding : Option Bytes} {d' : Tables}
    (h : d.insert site v pk text embedding = some d') :
    d.rows v pk = none ∧ d' = (d.setRow v pk (some ⟨text, embedding, true⟩)).enqueue site v pk := by
  unfold insert at h
  split at h
  · cases h
  · rename_i hrow
    exact ⟨hrow, (Option.some.inj h).symm⟩

theorem Tables.update_eq {v : ℕ} {pk pk' : Bytes} {text : Option Bytes} {embedding : Option (Option Bytes)} {d' : Tables}
    (h : d.update site v pk pk' text embedding = some d') :
    ∃ old, d.rows v pk = some old ∧ (pk' ≠ pk → d.rows v pk' = none) ∧
      d' = if textChanged site old.text text then
          ((d.setRow v pk none).setRow v pk' (some (updatedRow old text embedding))).enqueue site v pk'
        else (d.setRow v pk none).setRow v pk' (some (updatedRow old text embedding)) := by
  unfold update at h
  split at h
  · cases h
  · rename_i old hrow
    split at h
    · cases h
    · rename_i hfree
      refine ⟨old, hrow, fun hne => ?_, (Option.some.inj h).symm⟩
      simpa [hne] using hfree

theorem Tables.Wf.setRow (h : d.Wf site) (v : ℕ) (pk : Bytes) (row : Option SourceRow) : (d.setRow v pk row).Wf site :=
  ⟨h.ids, h.unique⟩

/-- The keys in the cursors are those of their rows, and calls and tokens are numbered
in order. -/
structure State.Wf (site : Site) (s : State) : Prop where
  tables : s.tables.Wf site
  calls : ∀ c call, s.calls c = some call → c < s.nextCall
  tokens : ∀ i q t, s.tables.queue i = some q → q.claimToken = some t → t < s.nextCall
  keys : ∀ c call r, s.calls c = some call → r ∈ call.ahead → r.id < s.tables.nextId ∧
    ∀ q, s.tables.queue r.id = some q → q.vectorizer = r.vectorizer ∧ q.pk = r.pk

theorem State.step_call {s s' : State} {es : List Event} (h : s.step site (.call c ch) = some (s', es)) :
    ∃ call e, s.calls c = some call ∧ call.Does site s.tables c ch e ∧ s' = s.apply c e ∧ es = e.events := by
  obtain ⟨call, hcall, h⟩ := Option.bind_eq_some_iff.mp h
  obtain ⟨e, he, heq⟩ := Option.map_eq_some_iff.mp h
  cases heq
  exact ⟨call, e, hcall, Call.does_of_statement he, rfl, rfl⟩

/-- A token is new only behind the claim of its call. -/
theorem Call.Does.token (h : call.Does site d c ch e) {i t : ℕ} {q' : QueueRow} (hq' : e.tables.queue i = some q')
    (ht : q'.claimToken = some t) : t = c ∨ ∃ q, d.queue i = some q ∧ q.claimToken = some t := by
  have hkeep (hq : d.queue i = some q') : t = c ∨ ∃ q, d.queue i = some q ∧ q.claimToken = some t := .inr ⟨q', hq, ht⟩
  have hput (id : ℕ) (f : QueueRow → QueueRow) (hf : ∀ q t, (f q).claimToken = some t → q.claimToken = some t)
      (next : Call) (events : List Event) (hp : (call.put site d c id f next events).tables.queue i = some q') :
      t = c ∨ ∃ q, d.queue i = some q ∧ q.claimToken = some t := by
    rcases Call.put_cases site d c call id f next events with ⟨-, heq⟩ | ⟨q, hq, ⟨-, heq⟩ | ⟨-, heq⟩⟩ <;> rw [heq] at hp
    · exact hkeep hp
    · exact hkeep hp
    · dsimp only at hp
      by_cases hi : i = id
      · subst hi
        rw [Function.update_self] at hp
        cases hp
        exact .inr ⟨q, hq, hf q t ht⟩
      · rw [Function.update_of_ne hi] at hp
        exact hkeep hp
  cases h with
  | reclaim =>
    obtain ⟨q, hq, ⟨-, rfl⟩ | ⟨-, rfl⟩⟩ := Call.reclaim_queue hq'
    · cases ht
    · exact hkeep hq
  | claim =>
    obtain ⟨q, hq, ⟨-, rfl⟩ | ⟨-, rfl⟩⟩ := Call.claim_queue hq'
    · exact .inl (Option.some.inj ht).symm
    · exact hkeep hq
  | openCursor | walk | writeBack | leave => exact hkeep hq'
  | defer => exact hput _ _ (fun q t h => by cases h) _ _ hq'
  | settle => exact hput _ _ (fun q t h => QueueRow.settled_claimToken h) _ _ hq'
  | prune => exact hkeep (Call.prune_queue.mp hq').1

/-- The rows ahead are those that were, or those of a cursor that is opened. -/
theorem Call.Does.ahead (h : call.Does site d c ch e) {next : Call} (hnext : e.call = some next) {r : CursorRow}
    (hr : r ∈ next.ahead) : r ∈ call.ahead ∨ call.point = .openCursor ∧ r ∈ ch.ids.filterMap (cursorRow d) := by
  have hput (r' : CursorRow) (hrow : call.ahead = r' :: call.cursor) (f : QueueRow → QueueRow) (events : List Event)
      (hp : (call.put site d c r'.id f { call with point := .fetch } events).call = some next) : r ∈ call.ahead := by
    rw [Call.put_call hp] at hr
    rw [hrow]
    exact List.mem_cons_of_mem _ (by simpa [Call.ahead, Point.row] using hr)
  cases h with
  | reclaim | claim =>
    cases hnext
    simp [Call.ahead] at hr
  | openCursor hp =>
    cases hnext
    exact .inr ⟨hp, by simpa [Call.ahead, Point.row] using hr⟩
  | walk hwalk =>
    cases hnext
    exact .inl (hwalk.ahead.subset hr)
  | writeBack hp =>
    cases hnext
    exact .inl (by simpa [Call.ahead, Point.row, hp] using hr)
  | defer hp | settle hp => exact .inl (hput _ (by simp [Call.ahead, Point.row, hp]) _ _ hnext)
  | prune | leave => cases hnext

theorem State.Wf.initial (site : Site) (rows : ℕ → Bytes → Option SourceRow) : (State.initial rows).Wf site where
  tables := { ids := fun i q h => (by cases h), unique := fun i j q q' key h => (by cases h) }
  calls c call h := by cases h
  tokens i q t h := by cases h
  keys c call r h := by cases h

/-- A step of the tables that only adds pending rows under new ids. -/
theorem State.Wf.of_tables {s : State} (h : s.Wf site) {d' : Tables} (hd : d'.Wf site) (hid : s.tables.nextId ≤ d'.nextId)
    (hrows : ∀ i q, d'.queue i = some q → s.tables.queue i = some q ∨ s.tables.nextId ≤ i ∧ q.claimToken = none) :
    ({ s with tables := d' } : State).Wf site where
  tables := hd
  calls := h.calls
  tokens i q t hq ht := by
    rcases hrows i q hq with hq | ⟨-, hnone⟩
    · exact h.tokens i q t hq ht
    · rw [hnone] at ht
      cases ht
  keys c call r hcall hr := by
    obtain ⟨hlt, hkey⟩ := h.keys c call r hcall hr
    refine ⟨hlt.trans_le hid, fun q hq => ?_⟩
    rcases hrows _ q hq with hq | ⟨hge, -⟩
    · exact hkey q hq
    · omega

/-- The rows behind an enqueue: the old ones, and perhaps a new one. -/
theorem Tables.enqueue_queue (d : Tables) (v : ℕ) (pk : Bytes) : d.nextId ≤ (d.enqueue site v pk).nextId ∧
    ∀ i q, (d.enqueue site v pk).queue i = some q →
      d.queue i = some q ∨
        d.nextId ≤ i ∧ q.vectorizer = v ∧ d.enabled v = true ∧ q.attempts = 0 ∧ q.claimToken = none := by
  rcases d.enqueue_cases site v pk with heq | ⟨hon, -, heq⟩ <;> rw [heq]
  · exact ⟨le_rfl, fun i q hq => .inl hq⟩
  · refine ⟨Nat.le_succ _, fun i q hq => ?_⟩
    dsimp only at hq
    by_cases hi : i = d.nextId
    · subst hi
      rw [Function.update_self] at hq
      cases hq
      exact .inr ⟨le_rfl, rfl, hon, rfl, rfl⟩
    · rw [Function.update_of_ne hi] at hq
      exact .inl hq

theorem Tables.enqueue_keeps (hd : d.Wf site) {i : ℕ} {q : QueueRow} (h : d.queue i = some q) (v : ℕ) (pk : Bytes) :
    (d.enqueue site v pk).queue i = some q := by
  rcases d.enqueue_cases site v pk with heq | ⟨-, -, heq⟩ <;> rw [heq]
  · exact h
  · dsimp only
    rw [Function.update_of_ne (hd.ids i q h).ne]
    exact h

theorem State.Wf.step {s s' : State} {l : Label} {es : List Event} (h : s.Wf site)
    (hstep : s.step site l = some (s', es)) : s'.Wf site := by
  have henq (d' : Tables) (hd : d'.Wf site) (hqueue : d'.queue = s.tables.queue) (hid : d'.nextId = s.tables.nextId)
      (v : ℕ) (pk : Bytes) : ({ s with tables := d'.enqueue site v pk } : State).Wf site := by
    obtain ⟨hle, hrows⟩ := @Tables.enqueue_queue site d' v pk
    rw [hid, hqueue] at *
    exact h.of_tables (hd.enqueue v pk) hle fun i q hq => (hrows i q hq).imp_right fun hnew => ⟨hnew.1, hnew.2.2.2.2⟩
  have hsame (d' : Tables) (hd : d'.Wf site) (hqueue : d'.queue = s.tables.queue) (hid : d'.nextId = s.tables.nextId) :
      ({ s with tables := d' } : State).Wf site :=
    h.of_tables hd hid.ge fun i q hq => .inl (hqueue ▸ hq)
  cases l with
  | insert v pk text embedding =>
    obtain ⟨d', hd', heq⟩ := Option.map_eq_some_iff.mp hstep
    cases heq
    obtain ⟨-, rfl⟩ := Tables.insert_eq hd'
    exact henq _ (h.tables.setRow ..) rfl rfl v pk
  | update v pk pk' text embedding =>
    obtain ⟨d', hd', heq⟩ := Option.map_eq_some_iff.mp hstep
    cases heq
    obtain ⟨old, -, -, rfl⟩ := Tables.update_eq hd'
    split
    · exact henq _ ((h.tables.setRow ..).setRow ..) rfl rfl v pk'
    · exact hsame _ ((h.tables.setRow ..).setRow ..) rfl rfl
  | delete v pk =>
    cases hstep
    exact hsame _ (h.tables.setRow ..) rfl rfl
  | enqueue v pk =>
    cases hstep
    exact henq _ h.tables rfl rfl v pk
  | setEnabled v on =>
    cases hstep
    exact hsame _ ⟨h.tables.ids, h.tables.unique⟩ rfl rfl
  | tick seconds =>
    cases hstep
    exact hsame _ ⟨h.tables.ids, h.tables.unique⟩ rfl rfl
  | start account batchSize staleSecs =>
    cases hstep
    refine ⟨h.tables, fun c call hc => ?_, fun i q t hq ht => (h.tokens i q t hq ht).trans (Nat.lt_succ_self _), ?_⟩
    · dsimp only at hc ⊢
      by_cases hn : c = s.nextCall
      · omega
      · rw [Function.update_of_ne hn] at hc
        exact (h.calls c call hc).trans (Nat.lt_succ_self _)
    · intro c call r hc hr
      dsimp only at hc
      by_cases hn : c = s.nextCall
      · rw [hn, Function.update_self] at hc
        cases hc
        simp [Call.start, Call.ahead] at hr
      · rw [Function.update_of_ne hn] at hc
        exact h.keys c call r hc hr
  | kill c =>
    cases hstep
    have hold {c' : ℕ} {call : Call} (hc : Function.update s.calls c none c' = some call) : s.calls c' = some call := by
      by_cases hn : c' = c
      · simp [hn] at hc
      · rwa [Function.update_of_ne hn] at hc
    exact ⟨h.tables, fun c' call hc => h.calls c' call (hold hc), h.tokens,
      fun c' call r hc hr => h.keys c' call r (hold hc) hr⟩
  | call c ch =>
    obtain ⟨call, e, hcall, hdoes, rfl, -⟩ := State.step_call hstep
    obtain ⟨hid, hkeys⟩ := hdoes.sameKey
    have hkey {r : CursorRow} (hr : r.id < s.tables.nextId ∧
          ∀ q, s.tables.queue r.id = some q → q.vectorizer = r.vectorizer ∧ q.pk = r.pk) :
        r.id < e.tables.nextId ∧ ∀ q, e.tables.queue r.id = some q → q.vectorizer = r.vectorizer ∧ q.pk = r.pk := by
      refine ⟨hid ▸ hr.1, fun q' hq' => ?_⟩
      obtain ⟨q, hq, hv, hpk⟩ := hkeys _ q' hq'
      rw [hv, hpk]
      exact hr.2 q hq
    refine ⟨hdoes.wf h.tables, fun c' call' hc => ?_, fun i q t hq ht => ?_, fun c' call' r hc hr => ?_⟩
    · simp only [State.apply] at hc ⊢
      by_cases hn : c' = c
      · exact hn ▸ h.calls c call hcall
      · rw [Function.update_of_ne hn] at hc
        exact h.calls c' call' hc
    · rcases hdoes.token hq ht with rfl | ⟨q₀, hq₀, ht₀⟩
      · exact h.calls t call hcall
      · exact h.tokens i q₀ t hq₀ ht₀
    · simp only [State.apply] at hc
      by_cases hn : c' = c
      · rw [hn, Function.update_self] at hc
        rcases hdoes.ahead hc hr with hr | ⟨-, hr⟩
        · exact hkey (h.keys c call r hcall hr)
        · obtain ⟨i, -, hi⟩ := List.mem_filterMap.mp hr
          obtain ⟨q, hq, rfl⟩ := Option.map_eq_some_iff.mp hi
          refine hkey ⟨h.tables.ids i q hq, fun q' hq' => ?_⟩
          obtain rfl := Option.some.inj (hq.symm.trans hq')
          exact ⟨rfl, rfl⟩
      · rw [Function.update_of_ne hn] at hc
        exact hkey (h.keys c' call' r hc hr)

end FractalSQL.Vectorizer
