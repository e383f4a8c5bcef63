import FractalSQL.Vectorizer.Invariants

/-!
# No text change is lost

A worker that has read a row's text and not yet settled its queue row is blind to a
change of that text: the change finds an active queue row and is not queued, and the
worker then settles the row. Where no text changes under such a worker, and the update
trigger sees every change, each row that lacks the embedding of its text has an active
queue row.
-/
namespace FractalSQL.Vectorizer
open Lib

/-- No call is running and no queue row of the vectorizer is pending or processing. -/
def State.Quiet (s : State) (v : ℕ) : Prop :=
  (∀ c < s.nextCall, s.calls c = none) ∧
    ∀ i < s.tables.nextId, ∀ q ∈ s.tables.queue i, q.vectorizer = v → q.status.active = false

instance (s : State) (v : ℕ) : Decidable (s.Quiet v) := inferInstanceAs (Decidable (_ ∧ _))

/-- A row that was inserted or changed and does not hold the embedding of its text. -/
def SourceRow.NeedsWork (site : Site) (row : SourceRow) : Prop :=
  row.touched = true ∧ ∃ t, row.text = some t ∧ row.embedding ≠ some (site.embed t)

/-- Every row that was inserted or changed holds the embedding of its text. -/
def State.UpToDate (site : Site) (s : State) (v : ℕ) : Prop :=
  ∀ pk row, s.tables.rows v pk = some row → ¬ row.NeedsWork site

/-- The row whose text a call has read and not settled. -/
def Call.past (call : Call) : Option CursorRow :=
  match call.point with
  | .embed r | .writeBack r | .settle r _ => some r
  | _ => none

/-- No call stands between its read of the key's text and its last UPDATE. -/
def State.NoReader (s : State) (v : ℕ) (pk : Bytes) : Prop :=
  ∀ c call r, s.calls c = some call → call.past = some r → r.vectorizer = v → r.pk ≠ pk

/-- No active row is for another key that the queue's collation takes for this one. -/
def Tables.NoClash (site : Site) (d : Tables) (v : ℕ) (pk : Bytes) : Prop :=
  ∀ i q, d.queue i = some q → q.status.active = true → q.vectorizer = v → site.keyWeight q.pk = site.keyWeight pk →
    q.pk = pk

/-- A write to the source table that changes no text under a worker, and that the
trigger either sees or need not see. -/
def State.WriteOk (site : Site) (v : ℕ) (s : State) : Label → Prop
  | .insert w pk text _ => w = v → text.isSome = true → s.NoReader v pk ∧ s.tables.NoClash site v pk
  | .update w pk pk' text embedding => w = v → text.isSome = true → ∀ old, s.tables.rows v pk = some old →
      Tables.textChanged site old.text text = true ∧ s.NoReader v pk' ∧ s.tables.NoClash site v pk' ∨
        pk' = pk ∧ text = old.text ∧ embedding.getD old.embedding = old.embedding ∨
        ¬ (Tables.updatedRow old text embedding).NeedsWork site ∧ s.NoReader v pk'
  | _ => True

/-- The vectorizer stays enabled, and source reads, embeddings and write-backs succeed. -/
def State.Succeeds (v : ℕ) (s : State) : Label → Prop
  | .setEnabled w on => w = v → on = true
  | .call c ch => ∀ call, s.calls c = some call → ∀ r,
      call.point = .read r ∨ call.point = .embed r ∨ call.point = .writeBack r → ch.ok = true
  | _ => True

/-- The row has an active queue row. -/
def Tables.Queued (d : Tables) (v : ℕ) (pk : Bytes) : Prop :=
  ∃ i q, d.queue i = some q ∧ q.vectorizer = v ∧ q.pk = pk ∧ q.status.active = true

/-- A worker has the current text of the row it is at, and has written its embedding
where it is about to settle it. -/
structure Call.Fits (site : Site) (v : ℕ) (d : Tables) (call : Call) : Prop where
  embeds : ∀ r, call.point = .embed r → call.text.isSome = true
  vecs : ∀ r, call.point = .writeBack r → call.vec = call.text.map site.embed
  outcomes : ∀ r o, call.point = .settle r o → o = .done
  texts : ∀ r row t, call.point = .embed r ∨ call.point = .writeBack r → r.vectorizer = v →
    d.rows v r.pk = some row → row.text = some t → call.text = some t
  written : ∀ r row t, call.point = .settle r .done → r.vectorizer = v → d.rows v r.pk = some row →
    row.text = some t → row.embedding = some (site.embed t)

/-- What runs keep: the workers fit, and every row that needs work is queued. -/
structure State.Tracked (site : Site) (v : ℕ) (s : State) : Prop where
  wf : s.Wf site
  enabled : s.tables.enabled v = true
  fits : ∀ c call, s.calls c = some call → call.Fits site v s.tables
  queued : ∀ pk row, s.tables.rows v pk = some row → row.NeedsWork site → s.tables.Queued v pk

variable {site : Site} {v : ℕ} {s : State}

theorem Call.Fits.of_past {call : Call} (h : call.past = none) (d : Tables) : call.Fits site v d := by
  have hpast {r : CursorRow} (hp : call.past = some r) : False := by
    rw [h] at hp
    cases hp
  constructor
  · intro r hp
    exact (hpast (r := r) (by simp [Call.past, hp])).elim
  · intro r hp
    exact (hpast (r := r) (by simp [Call.past, hp])).elim
  · intro r o hp
    exact (hpast (r := r) (by simp [Call.past, hp])).elim
  · rintro r row t (hp | hp)
    all_goals exact (hpast (r := r) (by simp [Call.past, hp])).elim
  · intro r row t hp
    exact (hpast (r := r) (by simp [Call.past, hp])).elim

/-- A worker fits other tables whose rows at its key have the same text, or none. -/
theorem Call.Fits.of_rows {call : Call} {d d' : Tables} (h : call.Fits site v d)
    (hrows : ∀ r row t, call.past = some r → r.vectorizer = v → d'.rows v r.pk = some row → row.text = some t →
      ∃ old, d.rows v r.pk = some old ∧ old.text = some t ∧
        (old.embedding = some (site.embed t) → row.embedding = some (site.embed t))) : call.Fits site v d' where
  embeds := h.embeds
  vecs := h.vecs
  outcomes := h.outcomes
  texts r row t hp hv hrow ht := by
    have hpast : call.past = some r := by rcases hp with hp | hp <;> simp [Call.past, hp]
    obtain ⟨old, hold, htext, -⟩ := hrows r row t hpast hv hrow ht
    exact h.texts r old t hp hv hold htext
  written r row t hp hv hrow ht := by
    obtain ⟨old, hold, htext, hemb⟩ := hrows r row t (by simp [Call.past, hp]) hv hrow ht
    exact hemb (h.written r old t hp hv hold htext)

theorem State.Tracked.initial {rows : ℕ → Bytes → Option SourceRow}
    (hrows : ∀ pk row, rows v pk = some row → row.touched = false) : (State.initial rows).Tracked site v where
  wf := .initial site rows
  enabled := rfl
  fits c call h := by cases h
  queued pk row hrow hwork := by
    exact absurd hwork.1 (by simp [hrows pk row hrow])

/-! ### Writes to the source table -/

theorem Tables.Queued.enqueue {d : Tables} (hd : d.Wf site) {pk : Bytes} (h : d.Queued v pk) (w : ℕ) (k : Bytes) :
    (d.enqueue site w k).Queued v pk := by
  obtain ⟨i, q, hq, hrest⟩ := h
  exact ⟨i, q, enqueue_keeps hd hq w k, hrest⟩

/-- An enqueue leaves its key queued, unless another key is in its place. -/
theorem Tables.queued_of_enqueue {d : Tables} (hd : d.Wf site) (hreg : (site.registry v).isSome = true)
    (hon : d.enabled v = true) {pk : Bytes} (hclash : d.NoClash site v pk) : (d.enqueue site v pk).Queued v pk := by
  unfold Tables.enqueue
  rw [if_pos ⟨hreg, hon⟩]
  split
  · rename_i htaken
    obtain ⟨i, q, -, hq, hkey⟩ := (Tables.taken_iff hd.ids).mp htaken
    unfold QueueRow.activeKey at hkey
    split at hkey
    · rename_i hact
      obtain ⟨hv, hw⟩ := Prod.mk.inj (Option.some.inj hkey)
      exact ⟨i, q, hq, hv, hclash i q hq hact hv hw, hact⟩
    · cases hkey
  · exact ⟨d.nextId, _, Function.update_self .., rfl, rfl, rfl⟩

/-- A change of the tables that leaves every row alone, or at least no worker behind. -/
theorem State.Tracked.of_tables (h : s.Tracked site v) {d : Tables} (hwf : ({ s with tables := d } : State).Wf site)
    (hon : d.enabled v = true)
    (hrows : ∀ pk row t, d.rows v pk = some row → row.text = some t →
      s.tables.rows v pk = some row ∨ s.NoReader v pk)
    (hqueued : ∀ pk row, d.rows v pk = some row → row.NeedsWork site → d.Queued v pk) :
    ({ s with tables := d } : State).Tracked site v where
  wf := hwf
  enabled := hon
  fits c call hcall := by
    refine (h.fits c call hcall).of_rows fun r row t hpast hv hrow ht => ?_
    rcases hrows r.pk row t hrow ht with hold | hread
    · exact ⟨row, hold, ht, id⟩
    · exact absurd rfl (hread c call r hcall hpast hv)
  queued := hqueued

theorem State.Tracked.enqueue (h : s.Tracked site v) {w : ℕ} {pk : Bytes}
    (hwf : ({ s with tables := s.tables.enqueue site w pk } : State).Wf site) :
    ({ s with tables := s.tables.enqueue site w pk } : State).Tracked site v := by
  refine h.of_tables hwf (by simpa using h.enabled) (fun k row t hrow _ => .inl (by simpa using hrow))
    fun k row hrow hwork => ?_
  rw [Tables.enqueue_rows] at hrow
  exact (h.queued k row hrow hwork).enqueue h.wf.tables w pk

theorem State.Tracked.insert (h : s.Tracked site v) (hreg : (site.registry v).isSome = true) {w : ℕ} {pk : Bytes}
    {text embedding : Option Bytes} {d : Tables} (hd : s.tables.insert site w pk text embedding = some d)
    (hok : s.WriteOk site v (.insert w pk text embedding)) (hwf : ({ s with tables := d } : State).Wf site) :
    ({ s with tables := d } : State).Tracked site v := by
  obtain ⟨-, rfl⟩ := Tables.insert_eq hd
  have hset := h.wf.tables.setRow w pk (some ⟨text, embedding, true⟩)
  refine h.of_tables hwf (by simpa using h.enabled) (fun k row t hrow ht => ?_) fun k row hrow hwork => ?_
  all_goals rw [Tables.enqueue_rows] at hrow
  all_goals by_cases hkey : v = w ∧ k = pk
  · obtain ⟨rfl, rfl⟩ := hkey
    rw [Tables.setRow_self] at hrow
    cases hrow
    exact .inr (hok rfl (Option.isSome_iff_exists.mpr ⟨t, ht⟩)).1
  · rw [Tables.setRow_of_ne _ _ (by tauto)] at hrow
    exact .inl hrow
  · obtain ⟨rfl, rfl⟩ := hkey
    rw [Tables.setRow_self] at hrow
    cases hrow
    obtain ⟨-, t, ht, -⟩ := hwork
    exact Tables.queued_of_enqueue hset hreg h.enabled (hok rfl (Option.isSome_iff_exists.mpr ⟨t, ht⟩)).2
  · rw [Tables.setRow_of_ne _ _ (by tauto)] at hrow
    exact Tables.Queued.enqueue hset (h.queued k row hrow hwork) w pk

theorem State.Tracked.update (h : s.Tracked site v) (hreg : (site.registry v).isSome = true) {w : ℕ} {pk pk' : Bytes}
    {text : Option Bytes} {embedding : Option (Option Bytes)} {d : Tables}
    (hd : s.tables.update site w pk pk' text embedding = some d)
    (hok : s.WriteOk site v (.update w pk pk' text embedding)) (hwf : ({ s with tables := d } : State).Wf site) :
    ({ s with tables := d } : State).Tracked site v := by
  obtain ⟨old, hold, hfree, rfl⟩ := Tables.update_eq hd
  set d₁ := (s.tables.setRow w pk none).setRow w pk' (some (Tables.updatedRow old text embedding)) with hd₁
  have hset : d₁.Wf site := (h.wf.tables.setRow ..).setRow ..
  have hrows₁ : (if Tables.textChanged site old.text text = true then d₁.enqueue site w pk' else d₁).rows = d₁.rows := by
    split <;> simp
  have hqueue₁ {k : Bytes} (hq : s.tables.Queued v k) :
      (if Tables.textChanged site old.text text = true then d₁.enqueue site w pk' else d₁).Queued v k := by
    split
    · exact Tables.Queued.enqueue hset hq w pk'
    · exact hq
  -- A row of the vectorizer behind the update: the new one, or an old one.
  have hcases {k : Bytes} {row : SourceRow} (hrow : d₁.rows v k = some row) :
      v = w ∧ k = pk' ∧ row = Tables.updatedRow old text embedding ∨ s.tables.rows v k = some row := by
    by_cases hnew : v = w ∧ k = pk'
    · obtain ⟨rfl, rfl⟩ := hnew
      rw [hd₁, Tables.setRow_self] at hrow
      exact .inl ⟨rfl, rfl, (Option.some.inj hrow).symm⟩
    · rw [hd₁, Tables.setRow_of_ne _ _ (by tauto)] at hrow
      by_cases hgone : v = w ∧ k = pk
      · obtain ⟨rfl, rfl⟩ := hgone
        rw [Tables.setRow_self] at hrow
        cases hrow
      · rw [Tables.setRow_of_ne _ _ (by tauto)] at hrow
        exact .inr hrow
  refine h.of_tables hwf ?_ (fun k row t hrow ht => ?_) fun k row hrow hwork => ?_
  · split <;> simpa [hd₁] using h.enabled
  · rw [hrows₁] at hrow
    rcases hcases hrow with ⟨rfl, rfl, rfl⟩ | hrow
    · rcases hok rfl (Option.isSome_iff_exists.mpr ⟨t, ht⟩) old hold with ⟨-, hread, -⟩ | ⟨rfl, rfl, hemb⟩ | ⟨-, hread⟩
      · exact .inr hread
      · left
        rw [hold]
        simp [Tables.updatedRow, hemb]
      · exact .inr hread
    · exact .inl hrow
  · rw [hrows₁] at hrow
    rcases hcases hrow with ⟨rfl, rfl, rfl⟩ | hrow
    · obtain ⟨t, ht, -⟩ := hwork.2
      rcases hok rfl (Option.isSome_iff_exists.mpr ⟨t, ht⟩) old hold with ⟨hchanged, -, hclash⟩ | ⟨rfl, rfl, hemb⟩ | ⟨hnot, -⟩
      · rw [if_pos hchanged]
        exact Tables.queued_of_enqueue hset hreg h.enabled hclash
      · refine hqueue₁ (h.queued _ old hold ?_)
        simpa [Tables.updatedRow, hemb] using hwork
      · exact absurd hwork hnot
    · exact hqueue₁ (h.queued k row hrow hwork)

/-! ### Statements of the calls -/

variable {d : Tables} {c : ℕ} {call : Call} {ch : Choice} {e : Effect}

/-- A statement that keeps the active rows active. -/
theorem Tables.Queued.of_active {d' : Tables} {pk : Bytes} (h : d.Queued v pk)
    (hact : ∀ i q, d.queue i = some q → q.status.active = true →
      ∃ q', d'.queue i = some q' ∧ q.SameKey q' ∧ q'.status.active = true) : d'.Queued v pk := by
  obtain ⟨i, q, hq, hv, hpk, ha⟩ := h
  obtain ⟨q', hq', ⟨hv', hpk'⟩, ha'⟩ := hact i q hq ha
  exact ⟨i, q', hq', hv'.trans hv, hpk'.trans hpk, ha'⟩

/-- Only a settled row stops being active, and only if it was not already settled by
another call. -/
theorem Call.Does.queued (h : call.Does site d c ch e) {pk : Bytes} (hq : d.Queued v pk)
    (hsettle : ∀ r o, call.point = .settle r o → d.queue r.id = none ∨
      ∃ q, d.queue r.id = some q ∧ (q.vectorizer = v → q.pk ≠ pk)) : e.tables.Queued v pk := by
  have hsame {d' : Tables} (hd : d'.queue = d.queue) : d'.Queued v pk := by
    obtain ⟨i, q, hi, hrest⟩ := hq
    exact ⟨i, q, hd ▸ hi, hrest⟩
  cases h with
  | reclaim =>
    refine hq.of_active fun i q hi ha => ?_
    simp only [Call.reclaim, hi, Option.map_some, Option.some.injEq, exists_eq_left']
    split
    · exact ⟨q.released_sameKey d.now, rfl⟩
    · exact ⟨⟨rfl, rfl⟩, ha⟩
  | claim =>
    refine hq.of_active fun i q hi ha => ?_
    simp only [Call.claim, hi]
    split
    · exact ⟨_, rfl, ⟨rfl, rfl⟩, rfl⟩
    · exact ⟨q, rfl, ⟨rfl, rfl⟩, ha⟩
  | openCursor | walk | writeBack | leave => exact hsame rfl
  | @defer r =>
    rcases Call.put_cases site d c call r.id (QueueRow.released d.now) { call with point := .fetch } [] with
      ⟨-, heq⟩ | ⟨p, hp, ⟨-, heq⟩ | ⟨-, heq⟩⟩ <;> rw [heq]
    · exact hsame rfl
    · exact hsame rfl
    · refine hq.of_active fun i q hi ha => ?_
      dsimp only
      by_cases hid : i = r.id
      · subst hid
        obtain rfl := Option.some.inj (hp.symm.trans hi)
        exact ⟨_, Function.update_self .., p.released_sameKey d.now, rfl⟩
      · exact ⟨q, by rw [Function.update_of_ne hid]; exact hi, ⟨rfl, rfl⟩, ha⟩
  | @settle r outcome hpoint =>
    rcases Call.put_cases site d c call r.id (QueueRow.settled site d.now r outcome) { call with point := .fetch } _ with
      ⟨-, heq⟩ | ⟨p, hp, ⟨-, heq⟩ | ⟨-, heq⟩⟩ <;> rw [heq]
    · exact hsame rfl
    · exact hsame rfl
    · obtain ⟨i, q, hi, hv, hpk, ha⟩ := hq
      refine ⟨i, q, ?_, hv, hpk, ha⟩
      dsimp only
      rw [Function.update_of_ne]
      · exact hi
      · rintro rfl
        rcases hsettle r outcome hpoint with hnone | ⟨p', hp', hne⟩
        · rw [hnone] at hi
          cases hi
        · obtain rfl := Option.some.inj (hi.symm.trans hp')
          exact hne hv hpk
  | prune =>
    refine hq.of_active fun i q hi ha => ⟨q, Call.prune_queue.mpr ⟨hi, ?_⟩, ⟨rfl, rfl⟩, ha⟩
    cases hs : q.status <;> simp_all [Call.expired, Status.active]

/-- What a write-back leaves of the rows. -/
theorem writeBack_rows {r : CursorRow} {k : Bytes} {row : SourceRow}
    (h : (d.setRow r.vectorizer r.pk
      ((d.rows r.vectorizer r.pk).map fun row => { row with embedding := call.vec })).rows v k = some row) :
    (r.vectorizer = v ∧ r.pk = k ∧ ∃ old, d.rows v k = some old ∧ row = { old with embedding := call.vec }) ∨
      ¬ (r.vectorizer = v ∧ r.pk = k) ∧ d.rows v k = some row := by
  by_cases hkey : v = r.vectorizer ∧ k = r.pk
  · obtain ⟨rfl, rfl⟩ := hkey
    rw [Tables.setRow_self] at h
    obtain ⟨old, hold, rfl⟩ := Option.map_eq_some_iff.mp h
    exact .inl ⟨rfl, rfl, old, hold, rfl⟩
  · rw [Tables.setRow_of_ne _ _ (by tauto)] at h
    exact .inr ⟨fun hk => hkey ⟨hk.1.symm, hk.2.symm⟩, h⟩

theorem Call.Does.enabled (h : call.Does site d c ch e) : e.tables.enabled = d.enabled := by
  cases h with
  | defer | settle => exact Call.put_enabled ..
  | _ => rfl

/-- A statement keeps every text, and writes no embedding of another text. -/
theorem Call.Does.rows (h : call.Does site d c ch e) (hfit : call.Fits site v d) {k t : Bytes} {row : SourceRow}
    (hrow : e.tables.rows v k = some row) (ht : row.text = some t) :
    ∃ old, d.rows v k = some old ∧ old.text = some t ∧ (row.embedding = some (site.embed t) ∨ row = old) := by
  have hkeep (hold : d.rows v k = some row) :
      ∃ old, d.rows v k = some old ∧ old.text = some t ∧ (row.embedding = some (site.embed t) ∨ row = old) :=
    ⟨row, hold, ht, .inr rfl⟩
  cases h with
  | @writeBack r hpoint =>
    rcases writeBack_rows hrow with ⟨hv, rfl, old, hold, rfl⟩ | ⟨-, hrow⟩
    · have htext := hfit.texts r old t (.inr hpoint) hv hold ht
      exact ⟨old, hold, ht, .inl (by simp [hfit.vecs r hpoint, htext])⟩
    · exact hkeep hrow
  | defer | settle =>
    rw [Call.put_rows] at hrow
    exact hkeep hrow
  | _ => exact hkeep hrow

/-- The call itself fits behind its statement. -/
theorem Call.Does.fits (h : call.Does site d c ch e) (hfit : call.Fits site v d)
    (hok : ∀ r, call.point = .read r ∨ call.point = .embed r ∨ call.point = .writeBack r → ch.ok = true)
    {next : Call} (hnext : e.call = some next) : next.Fits site v e.tables := by
  cases h with
  | reclaim | claim | openCursor =>
    cases hnext
    exact .of_past rfl _
  | defer | settle =>
    rw [Call.put_call hnext]
    exact .of_past rfl _
  | prune | leave => cases hnext
  | @walk next' windows hwalk =>
    cases hnext
    constructor
    · intro r hp
      obtain ⟨row, t, -, -, ht⟩ := hwalk.toEmbed r hp
      simp [ht]
    · intro r hp
      obtain ⟨-, htext, hvec⟩ := hwalk.toWrite r hp
      rw [htext, hvec]
    · intro r o hp
      cases o with
      | done => rfl
      | readFailed =>
        obtain ⟨hread, hbad⟩ := hwalk.readFailed r hp
        rw [hok r (.inl hread)] at hbad
        cases hbad
      | dispatchFailed =>
        obtain ⟨hemb, hnone⟩ := hwalk.dispatchFailed r hp
        have hsome := hfit.embeds r hemb
        rw [hnone (hok r (.inr (.inl hemb)))] at hsome
        cases hsome
      | writeFailed =>
        obtain ⟨hwrite, hbad⟩ := hwalk.writeFailed r hp
        rw [hok r (.inr (.inr hwrite))] at hbad
        cases hbad
    · rintro r row t (hp | hp) rfl hrow ht
      · obtain ⟨row', t', hrow', ht', htext⟩ := hwalk.toEmbed r hp
        obtain rfl := Option.some.inj (hrow.symm.trans hrow')
        rw [htext, ← ht', ht]
      · obtain ⟨hemb, htext, -⟩ := hwalk.toWrite r hp
        rw [htext]
        exact hfit.texts r row t (.inl hemb) rfl hrow ht
    · rintro r row t hp rfl hrow ht
      rw [hwalk.toDone r hp row hrow] at ht
      cases ht
  | @writeBack r hpoint =>
    cases hnext
    refine ⟨by simp, by simp, by simp, by simp, ?_⟩
    intro r' row t hp hv hrow ht
    obtain rfl : r = r' := by simpa using hp
    rcases writeBack_rows hrow with ⟨-, -, old, hold, rfl⟩ | ⟨hne, -⟩
    · have htext := hfit.texts r old t (.inr hpoint) hv hold ht
      simp [hfit.vecs r hpoint, htext]
    · exact absurd ⟨hv, rfl⟩ hne

theorem State.Tracked.statement (h : s.Tracked site v) (hcall : s.calls c = some call)
    (hdoes : call.Does site s.tables c ch e)
    (hok : ∀ r, call.point = .read r ∨ call.point = .embed r ∨ call.point = .writeBack r → ch.ok = true)
    (hwf : (s.apply c e).Wf site) : (s.apply c e).Tracked site v where
  wf := hwf
  enabled := by
    simp only [State.apply]
    rw [hdoes.enabled]
    exact h.enabled
  fits c' call' hc := by
    simp only [State.apply] at hc ⊢
    by_cases hn : c' = c
    · rw [hn, Function.update_self] at hc
      exact hdoes.fits (h.fits c call hcall) hok hc
    · rw [Function.update_of_ne hn] at hc
      refine (h.fits c' call' hc).of_rows fun r row t _ _ hrow ht => ?_
      obtain ⟨old, hold, htext, hemb⟩ := hdoes.rows (h.fits c call hcall) hrow ht
      exact ⟨old, hold, htext, fun hold => hemb.elim id fun heq => heq ▸ hold⟩
  queued pk row hrow hwork := by
    obtain ⟨htouched, t, ht, hemb⟩ := hwork
    obtain ⟨old, hold, htext, hnew⟩ := hdoes.rows (h.fits c call hcall) hrow ht
    obtain rfl := hnew.resolve_left hemb
    refine hdoes.queued (h.queued pk row hold ⟨htouched, t, ht, hemb⟩) fun r o hp => ?_
    obtain rfl := (h.fits c call hcall).outcomes r o hp
    cases hq : s.tables.queue r.id with
    | none => exact .inl rfl
    | some q =>
      refine .inr ⟨q, rfl, fun hv hpk => ?_⟩
      obtain ⟨hkv, hkpk⟩ := (h.wf.keys c call r hcall (by simp [Call.ahead, Point.row, hp])).2 q hq
      subst hpk
      exact hemb ((h.fits c call hcall).written r row t hp (hkv ▸ hv) (hkpk ▸ hold) ht)

theorem State.Tracked.step (hreg : (site.registry v).isSome = true) (h : s.Tracked site v) {s' : State} {l : Label}
    {es : List Event} (hwrite : s.WriteOk site v l) (hsucc : s.Succeeds v l)
    (hstep : s.step site l = some (s', es)) : s'.Tracked site v := by
  have hwf := h.wf.step hstep
  have hcalls {c' : ℕ} {o : Option Call} {s₁ : State} (ho : ∀ next, o = some next → next.past = none)
      (hs : s₁.tables = s.tables) (hc : s₁.calls = Function.update s.calls c' o) (hwf : s₁.Wf site) :
      s₁.Tracked site v := by
    refine ⟨hwf, by rw [hs]; exact h.enabled, fun c call hcall => ?_, by rw [hs]; exact h.queued⟩
    rw [hc] at hcall
    rw [hs]
    by_cases hn : c = c'
    · rw [hn, Function.update_self] at hcall
      exact .of_past (ho call hcall) _
    · rw [Function.update_of_ne hn] at hcall
      exact h.fits c call hcall
  cases l with
  | insert w pk text embedding =>
    obtain ⟨d', hd', heq⟩ := Option.map_eq_some_iff.mp hstep
    cases heq
    exact h.insert hreg hd' hwrite hwf
  | update w pk pk' text embedding =>
    obtain ⟨d', hd', heq⟩ := Option.map_eq_some_iff.mp hstep
    cases heq
    exact h.update hreg hd' hwrite hwf
  | delete w pk =>
    cases hstep
    have hrow {k : Bytes} {row : SourceRow} (hr : (s.tables.setRow w pk none).rows v k = some row) :
        s.tables.rows v k = some row := by
      by_cases hkey : v = w ∧ k = pk
      · obtain ⟨rfl, rfl⟩ := hkey
        rw [Tables.setRow_self] at hr
        cases hr
      · rwa [Tables.setRow_of_ne _ _ (by tauto)] at hr
    exact h.of_tables hwf h.enabled (fun k row t hr _ => .inl (hrow hr)) fun k row hr hwork => h.queued k row (hrow hr) hwork
  | enqueue w pk =>
    cases hstep
    exact h.enqueue hwf
  | setEnabled w on =>
    cases hstep
    refine h.of_tables hwf ?_ (fun k row t hr _ => .inl hr) h.queued
    dsimp only
    by_cases hw : v = w
    · subst hw
      rw [Function.update_self]
      exact hsucc rfl
    · rw [Function.update_of_ne hw]
      exact h.enabled
  | tick seconds =>
    cases hstep
    exact h.of_tables hwf h.enabled (fun k row t hr _ => .inl hr) h.queued
  | start account batchSize staleSecs =>
    cases hstep
    exact hcalls (fun next hn => by cases hn; rfl) rfl rfl hwf
  | kill c =>
    cases hstep
    exact hcalls (fun next hn => by cases hn) rfl rfl hwf
  | call c ch =>
    obtain ⟨call, e, hcall, hdoes, rfl, -⟩ := State.step_call hstep
    exact h.statement hcall hdoes (hsucc call hcall) hwf

/-- In a run in which no text changes under a worker and the trigger sees every change,
a quiet state is up to date. -/
theorem quiet_upToDate (site : Site) (v : ℕ) (hreg : (site.registry v).isSome = true)
    (rows : ℕ → Bytes → Option SourceRow) (hrows : ∀ pk row, rows v pk = some row → row.touched = false)
    (labels : List Label) (final : Config State Event)
    (hmeet : StepsMeet (State.step site) (fun s _ l => s.Succeeds v l ∧ s.WriteOk site v l)
      ⟨State.initial rows, []⟩ labels)
    (hrun : exec (State.step site) ⟨State.initial rows, []⟩ labels = some final) (hquiet : final.state.Quiet v) :
    final.state.UpToDate site v := by
  have htracked : final.state.Tracked site v :=
    exec_invariant_of (I := fun s _ => s.Tracked site v)
      (fun htr hP hstep => State.Tracked.step hreg htr hP.2 hP.1 hstep) hmeet (.initial hrows) hrun
  intro pk row hrow hwork
  obtain ⟨i, q, hq, hv, -, hact⟩ := htracked.queued pk row hrow hwork
  have hinactive := hquiet.2 i (htracked.wf.tables.ids i q hq) q hq hv
  rw [hact] at hinactive
  cases hinactive

/-- One vectorizer of one account, with collations that compare bytes. -/
def plainSite : Site where
  registry _ := some { createdBy := "ada" }
  embed t := 0 :: t
  accountWeight := id
  keyWeight := id
  textWeight := id

/-- The statements of a call for one row, up to its read of the source row and behind
it; all succeed. -/
def workerFront : List Label :=
  [.start "ada" none none, .call 0 {}, .call 0 { ids := [0] }, .call 0 { ids := [0] }, .call 0 {}, .call 0 {}]

def workerBack : List Label := [.call 0 {}, .call 0 {}, .call 0 {}, .call 0 {}, .call 0 {}]

theorem worker_succeeds {l : Label} (h : l ∈ workerFront ++ workerBack) (s : State) :
    s.Succeeds 0 l ∧ s.WriteOk plainSite 0 l := by
  simp only [workerFront, workerBack, List.cons_append, List.nil_append, List.mem_cons, List.not_mem_nil, or_false] at h
  rcases h with rfl | rfl | rfl | rfl | rfl | rfl | rfl | rfl | rfl | rfl | rfl
  · exact ⟨trivial, trivial⟩
  all_goals exact ⟨fun _ _ _ _ => rfl, trivial⟩

/-- A row is inserted and embedded. -/
def embedRun : List Label := .insert 0 (ascii "1") (some (ascii "cat")) none :: (workerFront ++ workerBack)

theorem embedRun_upToDate : ∃ final : Config State Event,
    exec (State.step plainSite) ⟨State.initial fun _ _ => none, []⟩ embedRun = some final ∧ final.state.Quiet 0 ∧
      final.state.UpToDate plainSite 0 := by
  have hany : (exec (State.step plainSite) ⟨State.initial fun _ _ => none, []⟩ embedRun).any
      (fun c => decide (c.state.Quiet 0)) = true := by decide
  obtain ⟨final, hrun, hquiet⟩ := (Option.any_eq_true ..).mp hany
  have hquiet := of_decide_eq_true hquiet
  have hmeet : StepsMeet (State.step plainSite) (fun s _ l => s.Succeeds 0 l ∧ s.WriteOk plainSite 0 l)
      ⟨State.initial fun _ _ => none, []⟩ embedRun :=
    ⟨⟨trivial, fun _ _ => ⟨fun c call r h => (by cases h), fun i q h => (by cases h)⟩⟩,
      .of_forall (fun l hl s _ => worker_succeeds hl s) _⟩
  exact ⟨final, hrun, hquiet,
    quiet_upToDate plainSite 0 rfl _ (fun pk row h => (by cases h)) embedRun final hmeet hrun hquiet⟩

/-- The text changes while a worker embeds the old one. -/
def lostRun : List Label :=
  .insert 0 (ascii "1") (some (ascii "cat")) none ::
    (workerFront ++ .update 0 (ascii "1") (ascii "1") (some (ascii "dog")) none :: workerBack)

/-- The change is lost: the row keeps the embedding of its old text and is not queued. -/
theorem text_change_lost : ¬ ∀ (site : Site) (v : ℕ), (site.registry v).isSome = true →
    ∀ rows : ℕ → Bytes → Option SourceRow, (∀ pk row, rows v pk = some row → row.touched = false) →
      ∀ (labels : List Label) (final : Config State Event),
        StepsMeet (State.step site) (fun s _ l => s.Succeeds v l) ⟨State.initial rows, []⟩ labels →
          exec (State.step site) ⟨State.initial rows, []⟩ labels = some final → final.state.Quiet v →
            final.state.UpToDate site v := by
  intro hall
  have hany : (exec (State.step plainSite) ⟨State.initial fun _ _ => none, []⟩ lostRun).any
      (fun c => decide (c.state.Quiet 0 ∧
        c.state.tables.rows 0 (ascii "1") = some ⟨some (ascii "dog"), some (0 :: ascii "cat"), true⟩)) = true := by
    decide
  obtain ⟨final, hrun, hend⟩ := (Option.any_eq_true ..).mp hany
  obtain ⟨hquiet, hrow⟩ := of_decide_eq_true hend
  have hmeet : StepsMeet (State.step plainSite) (fun s _ l => s.Succeeds 0 l) ⟨State.initial fun _ _ => none, []⟩
      lostRun := by
    refine .of_forall (fun l hl s _ => ?_) _
    simp only [lostRun, List.mem_cons, List.mem_append] at hl
    rcases hl with rfl | hl | rfl | hl
    · trivial
    · exact (worker_succeeds (List.mem_append_left _ hl) s).1
    · trivial
    · exact (worker_succeeds (List.mem_append_right _ hl) s).1
  refine hall plainSite 0 rfl _ (fun pk row h => (by cases h)) lostRun final hmeet hrun hquiet _ _ hrow ?_
  exact ⟨rfl, ascii "dog", rfl, by decide⟩

end FractalSQL.Vectorizer
