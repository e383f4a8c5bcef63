import FractalSQL.Vectorizer.Freshness

/-!
# A worker settles the rows it holds

Behind its claim a call updates the queue by id alone, from values that it read when
its cursor was opened. That is safe as long as no other call takes the rows away, and
the only statement that can is the reclaim of stale rows: it looks neither at whose the
rows are nor at whether the call that claimed them is still running.
-/
namespace FractalSQL.Vectorizer
open Lib

/-- What the log of a run may hold of the queue: behind its claim a call changes a
status only under its own token, every row is of its account's vectorizers, and no call
is aborted. -/
def Event.Sound (site : Site) : Event → Prop
  | .changed call account settling old new =>
    (settling = true → new.status ≠ old.status → old.claimToken = some call) ∧
      site.owner old.vectorizer = some account
  | .pruned _ account old => site.owner old.vectorizer = some account
  | .dispatchFailed _ => True
  | .duplicateKey _ => False

/-- The log is sound, and the attempts of every row are the failed dispatches that were
recorded for it, and no more than allowed. -/
def State.Settles (site : Site) (s : State) (log : List Event) : Prop :=
  (∀ ev ∈ log, ev.Sound site) ∧ ∀ i q, s.tables.queue i = some q →
    q.attempts = log.count (.dispatchFailed i) ∧ (q.attempts : ℤ) ≤ site.maxAttempts q.vectorizer

/-- A statement that takes no row from a running call or another account, and that
records no attempt that is none or is not allowed. -/
def Call.StatementOk (site : Site) (s : State) (call : Call) : Prop :=
  match call.point with
  | .reclaim => ∀ i < s.tables.nextId, ∀ q ∈ s.tables.queue i, call.isStale s.tables q = true →
      site.owner q.vectorizer = some call.account ∧
        ∀ c < s.nextCall, ∀ call' ∈ s.calls c, ∀ r ∈ call'.ahead, r.id ≠ i
  | .claim => ∀ i < s.tables.nextId, ∀ q ∈ s.tables.queue i, call.eligible site s.tables i = true →
      site.owner q.vectorizer = some call.account
  | .prune => ∀ i < s.tables.nextId, ∀ q ∈ s.tables.queue i, call.expired site s.tables q = true →
      site.owner q.vectorizer = some call.account
  | .settle r .dispatchFailed => 1 ≤ site.maxAttempts r.vectorizer
  | .settle _ .writeFailed => False
  | _ => True

instance (site : Site) (s : State) (call : Call) : Decidable (call.StatementOk site s) := by
  unfold Call.StatementOk
  split <;> infer_instance

/-- An enqueue for a vectorizer that allows a row without attempts. -/
def Tables.EnqueueOk (site : Site) (d : Tables) (v : ℕ) : Prop := d.enabled v = true → 0 ≤ site.maxAttempts v

instance (site : Site) (d : Tables) (v : ℕ) : Decidable (d.EnqueueOk site v) := inferInstanceAs (Decidable (_ → _))

def State.StepOk (site : Site) (s : State) : Label → Prop
  | .insert v _ _ _ | .enqueue v _ => s.tables.EnqueueOk site v
  | .update v pk _ text _ => ∀ old ∈ s.tables.rows v pk, Tables.textChanged site old.text text = true →
      s.tables.EnqueueOk site v
  | .call c _ => ∀ call ∈ s.calls c, call.StatementOk site s
  | _ => True

instance (site : Site) (s : State) (l : Label) : Decidable (s.StepOk site l) := by
  unfold State.StepOk
  split <;> infer_instance

/-- A call holds the rows that are ahead of it. -/
structure Call.Holds (site : Site) (d : Tables) (c : ℕ) (call : Call) : Prop where
  rows : ∀ r ∈ call.ahead, ∃ q, d.queue r.id = some q ∧ q.status = .processing ∧ q.claimToken = some c ∧
    q.vectorizer = r.vectorizer ∧ q.attempts = r.attempts ∧ site.owner q.vectorizer = some call.account
  nodup : (call.ahead.map CursorRow.id).Nodup
  claimed : call.point = .openCursor → ∀ i q, d.queue i = some q → q.claimToken = some c →
    q.status = .processing ∧ site.owner q.vectorizer = some call.account
  unclaimed : call.point = .reclaim ∨ call.point = .claim → ∀ i q, d.queue i = some q → q.claimToken ≠ some c

/-- The attempts of a row: those recorded, and fewer than allowed while it is active. -/
def QueueRow.Counted (site : Site) (log : List Event) (i : ℕ) (q : QueueRow) : Prop :=
  q.attempts = log.count (.dispatchFailed i) ∧ (q.attempts : ℤ) ≤ site.maxAttempts q.vectorizer ∧
    (q.status.active = true → 1 ≤ site.maxAttempts q.vectorizer → (q.attempts : ℤ) < site.maxAttempts q.vectorizer)

structure State.Held (site : Site) (s : State) (log : List Event) : Prop where
  wf : s.Wf site
  holds : ∀ c call, s.calls c = some call → call.Holds site s.tables c
  counted : ∀ i q, s.tables.queue i = some q → q.Counted site log i
  fresh : ∀ i, s.tables.nextId ≤ i → .dispatchFailed i ∉ log
  sound : ∀ ev ∈ log, ev.Sound site

variable {site : Site} {s : State} {log : List Event} {d : Tables} {c : ℕ} {call : Call} {ch : Choice} {e : Effect}

theorem State.Held.settles (h : s.Held site log) : s.Settles site log :=
  ⟨h.sound, fun i q hq => ⟨(h.counted i q hq).1, (h.counted i q hq).2.1⟩⟩

theorem State.Held.initial (site : Site) (rows : ℕ → Bytes → Option SourceRow) : (State.initial rows).Held site [] where
  wf := .initial site rows
  holds c call h := by cases h
  counted i q h := by cases h
  fresh i _ := by simp
  sound ev h := by cases h

/-! ### What a statement leaves of another call's rows -/

/-- A call holds its rows in other tables where they are the same, and no row has got
its token. -/
theorem Call.Holds.of_rows {d' : Tables} (h : call.Holds site d c)
    (hkeep : ∀ r ∈ call.ahead, ∀ q, d.queue r.id = some q → q.status = .processing → q.claimToken = some c →
      d'.queue r.id = some q)
    (htoken : ∀ i q, d'.queue i = some q → q.claimToken = some c → d.queue i = some q) : call.Holds site d' c where
  rows r hr := by
    obtain ⟨q, hq, hproc, htok, hrest⟩ := h.rows r hr
    exact ⟨q, hkeep r hr q hq hproc htok, hproc, htok, hrest⟩
  nodup := h.nodup
  claimed hp i q hq ht := h.claimed hp i q (htoken i q hq ht) ht
  unclaimed hp i q hq ht := h.unclaimed hp i q (htoken i q hq ht) ht

/-- An UPDATE of a row that the call holds meets no duplicate key. -/
theorem Call.Holds.put (h : call.Holds site d c) (hd : d.Wf site) {r : CursorRow} (hr : r ∈ call.ahead)
    {f : QueueRow → QueueRow} (hf : ∀ q : QueueRow, q.SameKey (f q)) (next : Call) (events : List Event) :
    ∃ q, d.queue r.id = some q ∧ q.status = .processing ∧ q.claimToken = some c ∧ q.vectorizer = r.vectorizer ∧
      q.attempts = r.attempts ∧ site.owner q.vectorizer = some call.account ∧
      call.put site d c r.id f next events =
        { tables := { d with queue := Function.update d.queue r.id (some (f q)) }
          call := some next
          events := .changed c call.account true q (f q) :: events } := by
  obtain ⟨q, hq, hproc, htok, hv, hatt, howner⟩ := h.rows r hr
  refine ⟨q, hq, hproc, htok, hv, hatt, howner, ?_⟩
  rcases Call.put_cases site d c call r.id f next events with ⟨hnone, -⟩ | ⟨p, hp, ⟨⟨key, hkey, htaken⟩, -⟩ | ⟨-, heq⟩⟩
  · rw [hnone] at hq
    cases hq
  · obtain rfl := Option.some.inj (hq.symm.trans hp)
    obtain ⟨j, p', hj, hp', hkey'⟩ := (Tables.taken_iff hd.ids).mp htaken
    have hactive : q.status.active = true := by rw [hproc]; rfl
    have := hd.unique j r.id p' q key hp' hq hkey' ((hf q).activeKey (fun _ => hactive) hkey)
    exact absurd (congrArg some this) hj
  · obtain rfl := Option.some.inj (hq.symm.trans hp)
    exact heq

/-- A call keeps its rows when one that has not its token is replaced by another such. -/
theorem Call.Holds.update (h : call.Holds site d c) {i : ℕ} {q p : QueueRow} (hq : d.queue i = some q)
    (htok : q.claimToken ≠ some c) (hp : p.claimToken ≠ some c) :
    call.Holds site { d with queue := Function.update d.queue i (some p) } c := by
  refine h.of_rows (fun r _ q' hq' _ ht => ?_) fun j q' hq' ht => ?_ <;> dsimp only at *
  · rw [Function.update_of_ne]
    · exact hq'
    · rintro rfl
      obtain rfl := Option.some.inj (hq.symm.trans hq')
      exact htok ht
  · by_cases hj : j = i
    · rw [hj, Function.update_self] at hq'
      cases hq'
      exact absurd ht hp
    · rwa [Function.update_of_ne hj] at hq'

/-- The other calls keep their rows. -/
theorem Call.Does.holds_other (h : call.Does site s.tables c ch e) (hwf : s.Wf site)
    (hself : call.Holds site s.tables c) (hok : call.StatementOk site s) {c' : ℕ} {call' : Call}
    (hcall : s.calls c' = some call') (hne : c ≠ c') (hother : call'.Holds site s.tables c') :
    call'.Holds site e.tables c' := by
  have hput {r : CursorRow} (hr : r ∈ call.ahead) {f : QueueRow → QueueRow} (hf : ∀ q : QueueRow, q.SameKey (f q))
      (htok : ∀ q t, (f q).claimToken = some t → q.claimToken = some t) (next : Call) (events : List Event) :
      call'.Holds site (call.put site s.tables c r.id f next events).tables c' := by
    obtain ⟨q, hq, -, ht, -, -, -, heq⟩ := hself.put hwf.tables hr hf next events
    have hq' : q.claimToken ≠ some c' := by
      rw [ht]
      exact fun h => hne (Option.some.inj h)
    rw [heq]
    exact hother.update hq hq' fun h => hq' (htok q c' h)
  cases h with
  | reclaim hp =>
    simp only [StatementOk, hp] at hok
    refine hother.of_rows (fun r hr q hq _ _ => ?_) fun i q' hq' ht => ?_
    · have hstale : call.isStale s.tables q ≠ true := fun hs =>
        (hok r.id (hwf.tables.ids r.id q hq) q hq hs).2 c' (hwf.calls c' call' hcall) call' hcall r hr rfl
      simp [Call.reclaim, hq, hstale]
    · obtain ⟨q, hq, ⟨-, rfl⟩ | ⟨-, rfl⟩⟩ := Call.reclaim_queue hq'
      · cases ht
      · exact hq
  | claim _ hids =>
    refine hother.of_rows (fun r _ q hq hproc _ => ?_) fun i q' hq' ht => ?_
    · have hmem : r.id ∉ ch.ids := by
        intro hi
        obtain ⟨p, hp, hpend, -⟩ := Call.eligible_iff.mp (Call.eligible_of_mayClaim hids hi)
        obtain rfl := Option.some.inj (hq.symm.trans hp)
        rw [hproc] at hpend
        cases hpend
      simp [Call.claim, hmem, hq]
    · obtain ⟨q, hq, ⟨-, rfl⟩ | ⟨-, rfl⟩⟩ := Call.claim_queue hq'
      · exact absurd (Option.some.inj ht) hne
      · exact hq
  | openCursor | walk | writeBack | leave => exact hother.of_rows (fun _ _ _ hq _ _ => hq) fun _ _ hq _ => hq
  | defer hp =>
    exact hput (by simp [Call.ahead, Point.row, hp]) (QueueRow.released_sameKey _) (fun q t h => by cases h) _ _
  | settle hp =>
    exact hput (by simp [Call.ahead, Point.row, hp]) (QueueRow.settled_sameKey site _ _ _)
      (fun q t h => QueueRow.settled_claimToken h) _ _
  | prune =>
    refine hother.of_rows (fun r _ q hq hproc _ => Call.prune_queue.mpr ⟨hq, ?_⟩) fun i q hq _ =>
      (Call.prune_queue.mp hq).1
    simp [Call.expired, hproc]

/-! ### What a statement leaves of the call's own rows -/

/-- A call holds the rows of the loop over its cursor. -/
theorem Call.Holds.of_loop {next : Call} {d' : Tables}
    (hrows : ∀ r ∈ next.ahead, ∃ q, d'.queue r.id = some q ∧ q.status = .processing ∧ q.claimToken = some c ∧
      q.vectorizer = r.vectorizer ∧ q.attempts = r.attempts ∧ site.owner q.vectorizer = some next.account)
    (hnodup : (next.ahead.map CursorRow.id).Nodup)
    (hloop : next.point ≠ .reclaim ∧ next.point ≠ .claim ∧ next.point ≠ .openCursor) : next.Holds site d' c where
  rows := hrows
  nodup := hnodup
  claimed hp := absurd hp hloop.2.2
  unclaimed hp := (hp.elim hloop.1 hloop.2.1).elim

theorem cursorRow_ids_sublist (d : Tables) (ids : List ℕ) :
    ((ids.filterMap (cursorRow d)).map CursorRow.id).Sublist ids := by
  induction ids with
  | nil => simp
  | cons i ids ih =>
    cases hq : d.queue i with
    | none => simpa [cursorRow, hq] using ih.cons i
    | some q => simpa [cursorRow, hq] using ih

/-- The rest of the cursor is held behind the last UPDATE of a row. -/
theorem Call.Holds.rest (h : call.Holds site d c) {r : CursorRow} (hahead : call.ahead = r :: call.cursor)
    (p : QueueRow) : ({ call with point := .fetch } : Call).Holds site
      { d with queue := Function.update d.queue r.id (some p) } c := by
  have hnodup := h.nodup
  rw [hahead, List.map_cons, List.nodup_cons] at hnodup
  have hnext : ({ call with point := .fetch } : Call).ahead = call.cursor := by simp [ahead, Point.row]
  refine .of_loop (fun r' hr' => ?_) (by rw [hnext]; exact hnodup.2) (by simp)
  rw [hnext] at hr'
  obtain ⟨q, hq, hrest⟩ := h.rows r' (by rw [hahead]; exact List.mem_cons_of_mem _ hr')
  refine ⟨q, ?_, hrest⟩
  have hid : r'.id ≠ r.id := fun heq => hnodup.1 (heq ▸ List.mem_map_of_mem hr')
  simpa [Function.update_of_ne hid] using hq

/-- The call itself holds what is ahead of it behind its statement. -/
theorem Call.Does.holds_self (h : call.Does site s.tables c ch e) (hwf : s.tables.Wf site)
    (hself : call.Holds site s.tables c) (hok : call.StatementOk site s) {next : Call} (hnext : e.call = some next) :
    next.Holds site e.tables c := by
  have hput {r : CursorRow} (hahead : call.ahead = r :: call.cursor) {f : QueueRow → QueueRow}
      (hf : ∀ q : QueueRow, q.SameKey (f q)) (events : List Event)
      (hp : (call.put site s.tables c r.id f { call with point := .fetch } events).call = some next) :
      next.Holds site (call.put site s.tables c r.id f { call with point := .fetch } events).tables c := by
    have hr : r ∈ call.ahead := by simp [hahead]
    obtain ⟨q, -, -, -, -, -, -, heq⟩ := hself.put hwf hr hf { call with point := .fetch } events
    rw [heq] at hp ⊢
    cases hp
    exact hself.rest hahead _
  cases h with
  | reclaim hp =>
    cases hnext
    refine ⟨by simp [Call.ahead], by simp [Call.ahead], by simp, fun _ i q' hq' => ?_⟩
    obtain ⟨q, hq, ⟨-, rfl⟩ | ⟨-, rfl⟩⟩ := Call.reclaim_queue hq'
    · simp [QueueRow.released]
    · exact hself.unclaimed (.inl hp) i _ hq
  | claim hp hids =>
    cases hnext
    refine ⟨by simp [Call.ahead], by simp [Call.ahead], fun _ i q' hq' ht => ?_, by simp⟩
    obtain ⟨q, hq, ⟨hi, rfl⟩ | ⟨-, rfl⟩⟩ := Call.claim_queue hq'
    · simp only [StatementOk, hp] at hok
      exact ⟨rfl, hok i (hwf.ids i q hq) q hq (Call.eligible_of_mayClaim hids hi)⟩
    · exact absurd ht (hself.unclaimed (.inr hp) i _ hq)
  | openCursor hp hids =>
    cases hnext
    simp only [mayOpen, decide_eq_true_eq] at hids
    refine .of_loop (fun r hr => ?_) ?_ (by simp)
    · simp only [Call.ahead, Point.row, Option.toList_none, List.nil_append] at hr
      obtain ⟨i, hi, hrow⟩ := List.mem_filterMap.mp hr
      obtain ⟨q, hq, rfl⟩ := Option.map_eq_some_iff.mp hrow
      have htok := hids.2.1 i hi
      simp only [holdsToken, hq, Option.any_some, decide_eq_true_eq] at htok
      obtain ⟨hproc, howner⟩ := hself.claimed hp i q hq htok.1
      exact ⟨q, hq, hproc, htok.1, rfl, rfl, howner⟩
    · simpa [Call.ahead, Point.row] using hids.1.sublist (cursorRow_ids_sublist s.tables ch.ids)
  | walk hwalk =>
    cases hnext
    refine .of_loop (fun r hr => ?_) (hself.nodup.sublist (hwalk.ahead.map _)) hwalk.looping
    rw [hwalk.account]
    exact hself.rows r (hwalk.ahead.subset hr)
  | @writeBack r hp =>
    cases hnext
    have hahead : ({ call with point := .settle r .done } : Call).ahead = call.ahead := by simp [Call.ahead, Point.row, hp]
    refine .of_loop (fun r' hr' => hself.rows r' (hahead ▸ hr')) (by rw [hahead]; exact hself.nodup) (by simp)
  | defer hp => exact hput (by simp [Call.ahead, Point.row, hp]) (QueueRow.released_sameKey _) _ hnext
  | settle hp => exact hput (by simp [Call.ahead, Point.row, hp]) (QueueRow.settled_sameKey site _ _ _) _ hnext
  | prune | leave => cases hnext

/-! ### What a statement records -/

theorem Call.mem_reclaim_events {ev : Event} (h : ev ∈ (call.reclaim d c).events) :
    ∃ i q, d.queue i = some q ∧ call.isStale d q = true ∧ ev = .changed c call.account false q (q.released d.now) := by
  obtain ⟨i, -, hi⟩ := List.mem_filterMap.mp h
  obtain ⟨q, hq, hq'⟩ := Option.bind_eq_some_iff.mp hi
  split at hq'
  · cases hq'
    exact ⟨i, q, hq, ‹_›, rfl⟩
  · cases hq'

theorem Call.mem_claim_events {ids : List ℕ} {ev : Event} (h : ev ∈ (call.claim d c ids).events) :
    ∃ i ∈ ids, ∃ q, d.queue i = some q ∧ ev = .changed c call.account false q (q.claimed d.now c) := by
  obtain ⟨i, hi, hq'⟩ := List.mem_filterMap.mp h
  obtain ⟨q, hq, rfl⟩ := Option.map_eq_some_iff.mp hq'
  exact ⟨i, hi, q, hq, rfl⟩

theorem Call.mem_prune_events {ev : Event} (h : ev ∈ (call.prune site d c).events) :
    ∃ i q, d.queue i = some q ∧ call.expired site d q = true ∧ ev = .pruned c call.account q := by
  obtain ⟨i, -, hi⟩ := List.mem_filterMap.mp h
  obtain ⟨q, hq, hq'⟩ := Option.bind_eq_some_iff.mp hi
  split at hq'
  · cases hq'
    exact ⟨i, q, hq, ‹_›, rfl⟩
  · cases hq'

theorem Call.Does.sound (h : call.Does site s.tables c ch e) (hwf : s.tables.Wf site)
    (hself : call.Holds site s.tables c) (hok : call.StatementOk site s) : ∀ ev ∈ e.events, ev.Sound site := by
  have hput {r : CursorRow} (hr : r ∈ call.ahead) {f : QueueRow → QueueRow} (hf : ∀ q : QueueRow, q.SameKey (f q))
      (next : Call) {events : List Event} (hevents : ∀ ev ∈ events, ev.Sound site) :
      ∀ ev ∈ (call.put site s.tables c r.id f next events).events, ev.Sound site := by
    obtain ⟨q, -, -, ht, -, -, howner, heq⟩ := hself.put hwf hr hf next events
    rw [heq]
    exact List.forall_mem_cons.mpr ⟨⟨fun _ _ => ht, howner⟩, hevents⟩
  cases h with
  | reclaim hp =>
    simp only [StatementOk, hp] at hok
    intro ev hev
    obtain ⟨i, q, hq, hstale, rfl⟩ := Call.mem_reclaim_events hev
    exact ⟨by simp, (hok i (hwf.ids i q hq) q hq hstale).1⟩
  | claim hp hids =>
    simp only [StatementOk, hp] at hok
    intro ev hev
    obtain ⟨i, hi, q, hq, rfl⟩ := Call.mem_claim_events hev
    exact ⟨by simp, hok i (hwf.ids i q hq) q hq (Call.eligible_of_mayClaim hids hi)⟩
  | openCursor | walk | writeBack | leave => simp
  | defer hp => exact hput (by simp [Call.ahead, Point.row, hp]) (QueueRow.released_sameKey _) _ (by simp)
  | settle hp =>
    refine hput (by simp [Call.ahead, Point.row, hp]) (QueueRow.settled_sameKey site _ _ _) _ fun ev hev => ?_
    split at hev
    · obtain rfl := List.mem_singleton.mp hev
      trivial
    · cases hev
  | prune hp =>
    simp only [StatementOk, hp] at hok
    intro ev hev
    obtain ⟨i, q, hq, hexpired, rfl⟩ := Call.mem_prune_events hev
    exact hok i (hwf.ids i q hq) q hq hexpired

/-- A row whose attempts stay, behind a statement that records no failed dispatch of it. -/
theorem QueueRow.Counted.keep {i : ℕ} {q q' : QueueRow} {es : List Event} (h : q.Counted site log i) (hkey : q.SameKey q')
    (hatt : q'.attempts = q.attempts) (hact : q'.status.active = true → q.status.active = true)
    (hes : .dispatchFailed i ∉ es) : q'.Counted site (log ++ es) i := by
  obtain ⟨hcount, hle, hlt⟩ := h
  unfold Counted
  rw [hkey.1, hatt, List.count_append, List.count_eq_zero.mpr hes]
  exact ⟨hcount, hle, fun ha => hlt (hact ha)⟩

theorem QueueRow.Counted.settled {r : CursorRow} {q : QueueRow} {outcome : Outcome} {now : ℤ} {ev : Event}
    (h : q.Counted site log r.id) (hactive : q.status.active = true) (hv : q.vectorizer = r.vectorizer)
    (hatt : q.attempts = r.attempts) (hwrite : outcome ≠ .writeFailed)
    (hdispatch : outcome = .dispatchFailed → 1 ≤ site.maxAttempts r.vectorizer) (hev : ev ≠ .dispatchFailed r.id) :
    (q.settled site now r outcome).Counted site
      (log ++ ev :: if outcome = .dispatchFailed then [.dispatchFailed r.id] else []) r.id := by
  cases outcome with
  | writeFailed => exact absurd rfl hwrite
  | done | readFailed => exact h.keep (settled_sameKey ..) rfl (fun _ => hactive) (by simpa using hev.symm)
  | dispatchFailed =>
    obtain ⟨hcount, -, hlt⟩ := h
    have hmax := hdispatch rfl
    rw [hv, hatt] at hlt
    have hroom := hlt hactive hmax
    have hcount' : (log ++ ev :: [Event.dispatchFailed r.id]).count (.dispatchFailed r.id) = r.attempts + 1 := by
      rw [List.count_append, ← hcount, hatt, List.count_cons_of_ne hev, List.count_singleton_self]
    rw [if_pos rfl]
    unfold Counted
    rw [hcount', (settled_sameKey site now r .dispatchFailed q).1, hv]
    unfold QueueRow.settled
    split_ifs with hagain
    · exact ⟨rfl, by push_cast; omega, fun _ _ => by push_cast; omega⟩
    · exact ⟨rfl, by push_cast; omega, fun ha => by cases ha⟩

/-- Only the UPDATE behind a failed dispatch records one. -/
theorem Call.Does.dispatchFailed (h : call.Does site d c ch e) {i : ℕ} (hi : .dispatchFailed i ∈ e.events) :
    ∃ r, call.point = .settle r .dispatchFailed ∧ i = r.id := by
  have hput {id : ℕ} {f : QueueRow → QueueRow} {next : Call} {events : List Event}
      (hi : .dispatchFailed i ∈ (call.put site d c id f next events).events) : .dispatchFailed i ∈ events := by
    rcases Call.put_cases site d c call id f next events with ⟨-, heq⟩ | ⟨q, hq, ⟨-, heq⟩ | ⟨-, heq⟩⟩ <;> rw [heq] at hi
    all_goals simpa using hi
  cases h with
  | reclaim =>
    obtain ⟨_, _, _, _, hev⟩ := Call.mem_reclaim_events hi
    cases hev
  | claim =>
    obtain ⟨_, _, _, _, hev⟩ := Call.mem_claim_events hi
    cases hev
  | prune =>
    obtain ⟨_, _, _, _, hev⟩ := Call.mem_prune_events hi
    cases hev
  | openCursor | walk | writeBack | leave => cases hi
  | defer => cases hput hi
  | @settle r outcome hp =>
    have hi := hput hi
    split at hi
    · rename_i hout
      exact ⟨r, by rw [hp, hout], by simpa using hi⟩
    · cases hi

theorem Call.Does.counted (h : call.Does site s.tables c ch e) (hwf : s.tables.Wf site)
    (hself : call.Holds site s.tables c) (hok : call.StatementOk site s)
    (hcounted : ∀ i q, s.tables.queue i = some q → q.Counted site log i) {i : ℕ} {q' : QueueRow}
    (hq' : e.tables.queue i = some q') : q'.Counted site (log ++ e.events) i := by
  have hkeep (hp : ∀ r, call.point ≠ .settle r .dispatchFailed) {q : QueueRow} (hq : s.tables.queue i = some q)
      (hkey : q.SameKey q') (hatt : q'.attempts = q.attempts)
      (hact : q'.status.active = true → q.status.active = true) : q'.Counted site (log ++ e.events) i := by
    refine (hcounted i q hq).keep hkey hatt hact fun hi => ?_
    obtain ⟨r, hr, -⟩ := h.dispatchFailed hi
    exact hp r hr
  cases h with
  | reclaim hp =>
    obtain ⟨q, hq, ⟨hstale, rfl⟩ | ⟨-, rfl⟩⟩ := Call.reclaim_queue hq'
    · simp only [Call.isStale, decide_eq_true_eq] at hstale
      exact hkeep (by simp [hp]) hq (q.released_sameKey s.tables.now) rfl fun _ => by rw [hstale.1]; rfl
    · exact hkeep (by simp [hp]) hq ⟨rfl, rfl⟩ rfl id
  | claim hp hids =>
    obtain ⟨q, hq, ⟨hi, rfl⟩ | ⟨-, rfl⟩⟩ := Call.claim_queue hq'
    · obtain ⟨p, hp', hpend, -⟩ := Call.eligible_iff.mp (Call.eligible_of_mayClaim hids hi)
      obtain rfl := Option.some.inj (hq.symm.trans hp')
      exact hkeep (by simp [hp]) hq ⟨rfl, rfl⟩ rfl fun _ => by rw [hpend]; rfl
    · exact hkeep (by simp [hp]) hq ⟨rfl, rfl⟩ rfl id
  | openCursor | walk | writeBack | leave => simpa using hcounted i q' hq'
  | prune hp => exact hkeep (by simp [hp]) (Call.prune_queue.mp hq').1 ⟨rfl, rfl⟩ rfl id
  | @defer r hp =>
    have hr : r ∈ call.ahead := by simp [Call.ahead, Point.row, hp]
    obtain ⟨q, hq, hproc, -, -, -, -, heq⟩ :=
      hself.put hwf hr (QueueRow.released_sameKey s.tables.now) { call with point := .fetch } []
    rw [heq] at hq'
    dsimp only at hq'
    by_cases hi : i = r.id
    · subst hi
      rw [Function.update_self] at hq'
      cases hq'
      exact hkeep (by simp [hp]) hq (q.released_sameKey s.tables.now) rfl fun _ => by rw [hproc]; rfl
    · rw [Function.update_of_ne hi] at hq'
      exact hkeep (by simp [hp]) hq' ⟨rfl, rfl⟩ rfl id
  | @settle r outcome hp =>
    have hevents := (Call.Does.settle hp : call.Does site s.tables c ch _).dispatchFailed (i := i)
    have hr : r ∈ call.ahead := by simp [Call.ahead, Point.row, hp]
    obtain ⟨q, hq, hproc, -, hv, hatt, -, heq⟩ :=
      hself.put hwf hr (QueueRow.settled_sameKey site s.tables.now r outcome) { call with point := .fetch }
      (if outcome = .dispatchFailed then [.dispatchFailed r.id] else [])
    rw [heq] at hq' hevents ⊢
    dsimp only at hq' hevents ⊢
    by_cases hi : i = r.id
    · subst hi
      rw [Function.update_self] at hq'
      cases hq'
      refine (hcounted r.id q hq).settled (by rw [hproc]; rfl) hv hatt ?_ ?_ (by simp)
      all_goals
        rintro rfl
        simpa [StatementOk, hp] using hok
    · rw [Function.update_of_ne hi] at hq'
      refine (hcounted i q' hq').keep ⟨rfl, rfl⟩ rfl id fun hmem => ?_
      obtain ⟨r', hr', hid⟩ := hevents hmem
      rw [hp] at hr'
      cases hr'
      exact hi hid

/-! ### Runs -/

theorem State.Held.statement (h : s.Held site log) (hcall : s.calls c = some call)
    (hdoes : call.Does site s.tables c ch e) (hok : call.StatementOk site s) (hwf : (s.apply c e).Wf site) :
    (s.apply c e).Held site (log ++ e.events) where
  wf := hwf
  holds c' call' hc := by
    simp only [State.apply] at hc ⊢
    by_cases hn : c' = c
    · rw [hn, Function.update_self] at hc
      exact hn ▸ hdoes.holds_self h.wf.tables (h.holds c call hcall) hok hc
    · rw [Function.update_of_ne hn] at hc
      exact hdoes.holds_other h.wf (h.holds c call hcall) hok hc (Ne.symm hn) (h.holds c' call' hc)
  counted i q hq := hdoes.counted h.wf.tables (h.holds c call hcall) hok h.counted hq
  fresh i hi := by
    have hid : s.tables.nextId ≤ i := hdoes.sameKey.1 ▸ hi
    intro hmem
    rcases List.mem_append.mp hmem with hold | hnew
    · exact h.fresh i hid hold
    · obtain ⟨r, hp, rfl⟩ := hdoes.dispatchFailed hnew
      obtain ⟨q, hq, -⟩ := (h.holds c call hcall).rows r (by simp [Call.ahead, Point.row, hp])
      exact absurd (h.wf.tables.ids r.id q hq) hid.not_gt
  sound ev hev := (List.mem_append.mp hev).elim (h.sound ev) (hdoes.sound h.wf.tables (h.holds c call hcall) hok ev)

/-- A step of the tables that only adds rows under new ids. -/
theorem State.Held.of_tables (h : s.Held site log) {d' : Tables} (hwf : ({ s with tables := d' } : State).Wf site)
    (hid : s.tables.nextId ≤ d'.nextId) (hkeep : ∀ i q, s.tables.queue i = some q → d'.queue i = some q)
    (hnew : ∀ i q, d'.queue i = some q → s.tables.queue i = some q ∨
      s.tables.nextId ≤ i ∧ 0 ≤ site.maxAttempts q.vectorizer ∧ q.attempts = 0 ∧ q.claimToken = none) :
    ({ s with tables := d' } : State).Held site log where
  wf := hwf
  holds c call hcall := by
    refine (h.holds c call hcall).of_rows (fun r _ q hq _ _ => hkeep r.id q hq) fun i q hq ht => ?_
    refine (hnew i q hq).resolve_right fun ⟨_, _, _, hnone⟩ => ?_
    rw [hnone] at ht
    cases ht
  counted i q hq := by
    rcases hnew i q hq with hold | ⟨hi, hmax, hatt, -⟩
    · exact h.counted i q hold
    · unfold QueueRow.Counted
      rw [hatt, List.count_eq_zero.mpr (h.fresh i hi)]
      exact ⟨rfl, hmax, fun _ hone => by push_cast; omega⟩
  fresh i hi := h.fresh i (hid.trans hi)
  sound := h.sound

theorem State.Held.step (h : s.Held site log) {s' : State} {l : Label} {es : List Event} (hok : s.StepOk site l)
    (hstep : s.step site l = some (s', es)) : s'.Held site (log ++ es) := by
  have hwf := h.wf.step hstep
  have hsame {d' : Tables} (hqueue : d'.queue = s.tables.queue) (hid : d'.nextId = s.tables.nextId)
      (hwf : ({ s with tables := d' } : State).Wf site) : ({ s with tables := d' } : State).Held site log :=
    h.of_tables hwf hid.ge (fun i q hq => hqueue ▸ hq) fun i q hq => .inl (hqueue ▸ hq)
  have henq {d' : Tables} (hd : d'.Wf site) (hqueue : d'.queue = s.tables.queue) (hid : d'.nextId = s.tables.nextId)
      (hon : d'.enabled = s.tables.enabled) {v : ℕ} {pk : Bytes} (hmax : s.tables.EnqueueOk site v)
      (hwf : ({ s with tables := d'.enqueue site v pk } : State).Wf site) :
      ({ s with tables := d'.enqueue site v pk } : State).Held site log := by
    obtain ⟨hle, hrows⟩ := @Tables.enqueue_queue site d' v pk
    rw [hid] at hle hrows
    rw [hqueue] at hrows
    refine h.of_tables hwf hle (fun i q hq => Tables.enqueue_keeps hd (hqueue ▸ hq) v pk) fun i q hq => ?_
    exact (hrows i q hq).imp_right fun ⟨hi, hv, hactive, hrest⟩ => ⟨hi, hv ▸ hmax (hon ▸ hactive), hrest⟩
  cases l with
  | insert v pk text embedding =>
    obtain ⟨d', hd', heq⟩ := Option.map_eq_some_iff.mp hstep
    cases heq
    obtain ⟨-, rfl⟩ := Tables.insert_eq hd'
    rw [List.append_nil]
    exact henq (h.wf.tables.setRow ..) rfl rfl rfl hok hwf
  | update v pk pk' text embedding =>
    obtain ⟨d', hd', heq⟩ := Option.map_eq_some_iff.mp hstep
    cases heq
    obtain ⟨old, hold, -, rfl⟩ := Tables.update_eq hd'
    rw [List.append_nil]
    split
    · rename_i hchanged
      rw [if_pos hchanged] at hwf
      exact henq ((h.wf.tables.setRow ..).setRow ..) rfl rfl rfl (hok old hold hchanged) hwf
    · rename_i hchanged
      rw [if_neg hchanged] at hwf
      exact hsame rfl rfl hwf
  | delete | setEnabled | tick =>
    cases hstep
    rw [List.append_nil]
    exact hsame rfl rfl hwf
  | enqueue v pk =>
    cases hstep
    rw [List.append_nil]
    exact henq h.wf.tables rfl rfl rfl hok hwf
  | start account batchSize staleSecs =>
    cases hstep
    rw [List.append_nil]
    refine ⟨hwf, fun c call hc => ?_, h.counted, h.fresh, h.sound⟩
    dsimp only at hc ⊢
    by_cases hn : c = s.nextCall
    · rw [hn, Function.update_self] at hc
      cases hc
      -- The token of the call is new, so no row has it.
      refine ⟨by simp [Call.start, Call.ahead], by simp [Call.start, Call.ahead], by simp [Call.start],
        fun _ i q hq ht => ?_⟩
      exact (h.wf.tokens i q c hq ht).ne hn
    · rw [Function.update_of_ne hn] at hc
      exact h.holds c call hc
  | kill c =>
    cases hstep
    rw [List.append_nil]
    refine ⟨hwf, fun c' call hc => ?_, h.counted, h.fresh, h.sound⟩
    dsimp only at hc ⊢
    by_cases hn : c' = c
    · simp [hn] at hc
    · rw [Function.update_of_ne hn] at hc
      exact h.holds c' call hc
  | call c ch =>
    obtain ⟨call, e, hcall, hdoes, rfl, rfl⟩ := State.step_call hstep
    exact h.statement hcall hdoes (hok call hcall) hwf

/-- In a run in which no reclaim takes a row from a running call or another account, no
write-back fails and attempts are allowed, every call settles what it holds. -/
theorem settles_of_stepOk (site : Site) (rows : ℕ → Bytes → Option SourceRow) (labels : List Label)
    (final : Config State Event)
    (hmeet : StepsMeet (State.step site) (fun s _ l => s.StepOk site l) ⟨State.initial rows, []⟩ labels)
    (hrun : exec (State.step site) ⟨State.initial rows, []⟩ labels = some final) :
    final.state.Settles site final.log := by
  have hheld : final.state.Held site final.log :=
    exec_invariant_of (P := fun s _ l => s.StepOk site l) (fun h hok hstep => h.step hok hstep) hmeet
      (.initial site rows) hrun
  exact hheld.settles

/-- A row is inserted, and a call of `ada` has claimed it and read its text. -/
def claimFront : List Label := .insert 0 (ascii "1") (some (ascii "cat")) none :: workerFront

/-- The dispatch fails, and the row goes back to the queue. -/
def retryRun : List Label := claimFront ++ [Label.call 0 { ok := false }, .call 0 {}, .call 0 {}, .call 0 {}]

theorem retryRun_settles : ∃ final : Config State Event,
    exec (State.step plainSite) ⟨State.initial fun _ _ => none, []⟩ retryRun = some final ∧
      (final.state.tables.queue 0).map (fun q => (q.status, q.attempts)) = some (.pending, 1) ∧
      final.state.Settles plainSite final.log := by
  have hany : (exec (State.step plainSite) ⟨State.initial fun _ _ => none, []⟩ retryRun).any
      (fun c => (c.state.tables.queue 0).map (fun q => (q.status, q.attempts)) = some (.pending, 1)) = true := by
    decide
  obtain ⟨final, hrun, hrow⟩ := (Option.any_eq_true ..).mp hany
  exact ⟨final, hrun, of_decide_eq_true hrow,
    settles_of_stepOk plainSite _ retryRun final (by decide) hrun⟩

/-- The call of `ada` is slower than the stale limit of a call of `bob`, and then goes
on. -/
def slowRun : List Label :=
  claimFront ++ [Label.tick 601, .start "bob" none none, .call 1 {}, .call 0 {}, .call 0 {}, .call 0 {}]

/-- What `bob`'s reclaim does to the row, and what `ada`'s call then does to it. -/
def slowEvents : List Event :=
  let row : QueueRow := { vectorizer := 0, pk := ascii "1", createdAt := 0, updatedAt := 0 }
  [.changed 1 "bob" false (row.claimed 0 0) ((row.claimed 0 0).released 601),
    .changed 0 "ada" true ((row.claimed 0 0).released 601) { (row.claimed 0 0).released 601 with status := .done }]

/-- `bob` changes a row of `ada`, and `ada`'s call settles a row that it no longer
holds. -/
theorem slowRun_unsound : ¬ ∀ (site : Site) (rows : ℕ → Bytes → Option SourceRow) (labels : List Label)
    (final : Config State Event), exec (State.step site) ⟨State.initial rows, []⟩ labels = some final →
      final.state.Settles site final.log := by
  intro hall
  have hany : (exec (State.step plainSite) ⟨State.initial fun _ _ => none, []⟩ slowRun).any
      (fun c => slowEvents.all (· ∈ c.log)) = true := by decide
  obtain ⟨final, hrun, hlog⟩ := (Option.any_eq_true ..).mp hany
  have hsound := (hall plainSite _ slowRun final hrun).1
  simp only [slowEvents, List.all_cons, List.all_nil, Bool.and_true, Bool.and_eq_true, decide_eq_true_eq] at hlog
  have htoken := (hsound _ hlog.2).1 rfl (by decide)
  cases htoken

end FractalSQL.Vectorizer
