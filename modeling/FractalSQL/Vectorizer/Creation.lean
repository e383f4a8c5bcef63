import FractalSQL.Vectorizer.Create

/-!
# Creating a vectorizer is all or nothing

The registry row is committed before the triggers are created and nothing takes it back. Where no
statement behind its INSERT fails, a call that raises has changed nothing; one that returns has
queued every row without an embedding, also those that others wrote while it ran.
-/
namespace FractalSQL.Vectorizer
open Lib

/-! ### The claim -/

/-- A row of the key was settled for the vectorizer. -/
def Settled (log : List Event) (v : ℕ) (pk : Bytes) : Prop :=
  ∃ c account old new, .changed c account true old new ∈ log ∧ old.vectorizer = v ∧ old.pk = pk ∧ new.status.active = false

/-- Every row without an embedding is in the queue, or has been settled. -/
def Core.Covers (core : Core) (log : List Event) (v : ℕ) : Prop :=
  ∀ pk row, core.system.tables.rows v pk = some row → row.unembedded = true →
    core.system.tables.Queued v pk ∨ Settled log v pk

/-- A run of a call next to others: when it raises, the registry, the triggers and the queue are what
the others made of them; when it returns, both triggers exist and all rows are covered. -/
structure Creation.AllOrNothing (site : CreateSite) (start : Core) (labels : List CreateLabel)
    (final : Config Creation Event) : Prop where
  raised : ∀ r, final.state.point = .raised r → ∃ other : Config Core Event,
    exec (Core.other site) ⟨start, []⟩ (labels.filterMap CreateLabel.toOther) = some other ∧
      final.state.core.registry = other.state.registry ∧ final.state.core.triggers = other.state.triggers ∧
        final.state.core.system.tables.queue = other.state.system.tables.queue
  returned : ∀ id, final.state.point = .returned id → (∀ event, final.state.core.fires event id = true) ∧
    final.state.core.Covers final.log id

/-! ### When it holds -/

/-- No row of the backfill meets another key that the queue's collation takes for its own. -/
def Core.Distinct (site : CreateSite) (core : Core) (id : ℕ) : Prop :=
  ∀ pk row, core.system.tables.rows id pk = some row → row.unembedded = true →
    core.system.tables.NoClash site.base id pk ∧
      ∀ pk' row', core.system.tables.rows id pk' = some row' → row'.unembedded = true →
        site.base.keyWeight pk' = site.base.keyWeight pk → pk' = pk

/-- A write that leaves a row without an embedding is queued by its trigger, or the row had none before. -/
def Core.Seen (site : CreateSite) (core : Core) (id : ℕ) : Label → Prop
  | .insert v pk text embedding => v = id → SourceRow.unembedded ⟨text, embedding, true⟩ = true →
      core.system.tables.enabled id = true ∧ core.system.tables.NoClash site.base id pk
  | .update v pk pk' text embedding => v = id → ∀ old, core.system.tables.rows id pk = some old →
      (Tables.updatedRow old text embedding).unembedded = true → pk' = pk ∧ old.unembedded = true ∨
        Tables.textChanged site.base old.text text = true ∧ core.system.tables.enabled id = true ∧
          core.system.tables.NoClash site.base id pk'
  | _ => True

/-- Behind the INSERT of the registry row no statement fails; the keys of the backfill are distinct for
the queue; and behind it every write is seen. -/
def Creation.StepOk (site : CreateSite) (s : Creation) : CreateLabel → Prop
  | .create ch =>
    (∀ event id, s.point = .createTrigger event id → ch.ok = true ∧ triggerName id event ∉ s.core.triggers.map Trigger.name) ∧
      ∀ id, s.point = .backfill id → ch.ok = true ∧ s.core.Distinct site id
  | .other l => ∀ id, s.point = .finish id ∨ s.point = .returned id → s.core.Seen site id l

/-! ### A call that raises -/

variable {site : CreateSite} {args : CreateArgs}

/-- The registry row is not written yet. -/
def CreatePoint.early : CreatePoint → Bool
  | .check | .insertRow .. | .raised _ => true
  | .createTrigger .. | .backfill _ | .finish _ | .returned _ => false

/-- A statement in front of the registry row changes nothing; one behind it does not raise. -/
theorem Core.create_early {core core' : Core} {point point' : CreatePoint} {ch : CreateChoice}
    (hok : Creation.StepOk site ⟨core, point⟩ (.create ch)) (h : core.create site args ch point = some (core', point')) :
    point.early = true ∧ core' = core ∨ point'.early = false := by
  cases point with
  | check =>
    simp only [create] at h
    split at h <;> cases h <;> exact .inl ⟨rfl, rfl⟩
  | insertRow pkCol isVector =>
    simp only [create] at h
    split at h <;> cases h
    · exact .inr rfl
    · exact .inl ⟨rfl, rfl⟩
  | createTrigger event id =>
    simp only [create] at h
    rw [if_pos (hok.1 event id rfl)] at h
    cases h
    cases event <;> exact .inr rfl
  | backfill id =>
    simp only [create] at h
    rw [if_neg (not_not.mpr (hok.2 id rfl).1)] at h
    split at h <;> cases h
    exact .inr rfl
  | finish id =>
    cases h
    exact .inr rfl
  | returned | raised => cases h

/-- A run that raises is, but for the call's own statements, the run of the others. -/
theorem exec_others {labels : List CreateLabel} {core : Core} {point : CreatePoint} {log : List Event}
    {final : Config Creation Event}
    (hmeet : StepsMeet (Creation.step site args) (fun s _ l => s.StepOk site l) ⟨⟨core, point⟩, log⟩ labels)
    (hrun : exec (Creation.step site args) ⟨⟨core, point⟩, log⟩ labels = some final)
    (hraised : final.state.point.early = true) :
    point.early = true ∧
      exec (Core.other site) ⟨core, log⟩ (labels.filterMap CreateLabel.toOther) = some ⟨final.state.core, final.log⟩ := by
  induction labels generalizing core point log with
  | nil =>
    cases hrun
    exact ⟨hraised, rfl⟩
  | cons l labels ih =>
    obtain ⟨⟨core', point'⟩, es, hstep, hrest⟩ := exec_cons hrun
    obtain ⟨hok, htail⟩ := hmeet
    rw [hstep] at htail
    obtain ⟨hearly, hothers⟩ := ih htail hrest
    cases l with
    | create ch =>
      obtain ⟨⟨c, p⟩, hcreate, heq⟩ := Option.map_eq_some_iff.mp hstep
      cases heq
      rcases Core.create_early hok hcreate with ⟨hpoint, rfl⟩ | hlate
      · refine ⟨hpoint, ?_⟩
        rw [List.append_nil] at hothers
        exact hothers
      · rw [hlate] at hearly
        cases hearly
    | other l =>
      obtain ⟨⟨c, es'⟩, hother, heq⟩ := Option.map_eq_some_iff.mp hstep
      cases heq
      refine ⟨hearly, ?_⟩
      change exec (Core.other site) ⟨core, log⟩ (l :: labels.filterMap CreateLabel.toOther) = _
      rw [exec, hother]
      exact hothers

/-! ### The statements of the workers -/

section
variable {base : Site} {d : Tables} {c v : ℕ} {call : Call} {ch : Choice} {e : Effect}

/-- A call has a text where it embeds and a vector where it writes one. -/
structure Call.Ready (call : Call) : Prop where
  text : ∀ r, call.point = .embed r → call.text.isSome = true
  vec : ∀ r, call.point = .writeBack r → call.vec.isSome = true

theorem Call.Ready.of_point (h : ∀ r, call.point ≠ .embed r ∧ call.point ≠ .writeBack r) : call.Ready :=
  ⟨fun r hp => absurd hp (h r).1, fun r hp => absurd hp (h r).2⟩

theorem Call.put_ready {id : ℕ} {f : QueueRow → QueueRow} {events : List Event} {next : Call}
    (h : (call.put base d c id f { call with point := .fetch } events).call = some next) : next.Ready := by
  have hfetch : ({ call with point := .fetch } : Call).Ready := .of_point fun r => ⟨by simp, by simp⟩
  rw [Call.put_call h]
  exact hfetch

theorem Call.Does.ready (h : call.Does base d c ch e) (hready : call.Ready) {next : Call} (hnext : e.call = some next) :
    next.Ready := by
  cases h with
  | reclaim | claim | openCursor | writeBack =>
    cases hnext
    exact .of_point fun r => ⟨by simp, by simp⟩
  | walk hwalk =>
    cases hnext
    constructor
    · intro r hp
      obtain ⟨row, t, -, -, ht⟩ := hwalk.toEmbed r hp
      rw [ht]
      rfl
    · intro r hp
      obtain ⟨hembed, -, hvec⟩ := hwalk.toWrite r hp
      rw [hvec, Option.isSome_map]
      exact hready.text r hembed
  | defer | settle => exact Call.put_ready hnext
  | prune | leave => cases hnext

/-- No statement of a call leaves a row without an embedding that had one. -/
theorem Call.Does.unembedded (h : call.Does base d c ch e) (hready : call.Ready) {pk : Bytes} {row : SourceRow}
    (hrow : e.tables.rows v pk = some row) (hbare : row.unembedded = true) :
    ∃ old, d.rows v pk = some old ∧ old.unembedded = true := by
  cases h with
  | writeBack hp =>
    rcases writeBack_rows hrow with ⟨-, -, old, -, rfl⟩ | ⟨-, hold⟩
    · obtain ⟨vec, hvec⟩ := Option.isSome_iff_exists.mp (hready.vec _ hp)
      rw [hvec] at hbare
      cases hbare
    · exact ⟨row, hold, hbare⟩
  | defer | settle =>
    rw [Call.put_rows] at hrow
    exact ⟨row, hrow, hbare⟩
  | _ => exact ⟨row, hrow, hbare⟩

/-- A row that is queued stays so until it is settled. -/
theorem Call.Does.queued_or_settled (h : call.Does base d c ch e) {pk : Bytes} (hq : d.Queued v pk) :
    e.tables.Queued v pk ∨ Settled e.events v pk := by
  by_cases hown : ∃ r o q, call.point = .settle r o ∧ d.queue r.id = some q ∧ q.vectorizer = v ∧ q.pk = pk
  · obtain ⟨r, o, q, hp, hrow, hv, hpk⟩ := hown
    have hkeep {d' : Tables} (hqueue : d'.queue = d.queue) : d'.Queued v pk := by
      obtain ⟨i, q, hi, hrest⟩ := hq
      exact ⟨i, q, hqueue ▸ hi, hrest⟩
    cases h with
    | reclaim hp' | claim hp' | openCursor hp' | writeBack hp' | defer hp' | prune hp' | leave hp' =>
      rw [hp] at hp'
      cases hp'
    | walk => exact .inl (hkeep rfl)
    | @settle r' o' hp' =>
      rw [hp] at hp'
      cases hp'
      rcases Call.put_cases base d c call r.id (QueueRow.settled base d.now r o) { call with point := .fetch }
          (if o = .dispatchFailed then [.dispatchFailed r.id] else []) with ⟨-, heq⟩ | ⟨q', hq', ⟨-, heq⟩ | ⟨-, heq⟩⟩ <;> rw [heq]
      · exact .inl (hkeep rfl)
      · exact .inl (hkeep rfl)
      · obtain rfl := Option.some.inj (hrow.symm.trans hq')
        have hkey := QueueRow.settled_sameKey base d.now r o q
        cases hact : (q.settled base d.now r o).status.active with
        | true => exact .inl ⟨r.id, _, Function.update_self .., hkey.1.trans hv, hkey.2.trans hpk, hact⟩
        | false => exact .inr ⟨c, call.account, q, _, List.mem_cons_self .., hv, hpk, hact⟩
  · refine .inl (h.queued hq fun r o hp => ?_)
    cases hrow : d.queue r.id with
    | none => exact .inl rfl
    | some q => exact .inr ⟨q, rfl, fun hv hpk => hown ⟨r, o, q, hp, hrow, hv, hpk⟩⟩

end

/-! ### The rows of the backfill -/

theorem Settled.append {log es : List Event} {v : ℕ} {pk : Bytes} (h : Settled log v pk ∨ Settled es v pk) :
    Settled (log ++ es) v pk := by
  rcases h with ⟨c, account, old, new, hmem, hrest⟩ | ⟨c, account, old, new, hmem, hrest⟩
  · exact ⟨c, account, old, new, List.mem_append_left _ hmem, hrest⟩
  · exact ⟨c, account, old, new, List.mem_append_right _ hmem, hrest⟩

section
variable {d : Tables} {id : ℕ}

theorem Tables.Wf.congr {site' : Site} {base : Site} {d' : Tables} (h : d.Wf base) (hweight : site'.keyWeight = base.keyWeight)
    (hqueue : d'.queue = d.queue) (hid : d'.nextId = d.nextId) : d'.Wf site' where
  ids := by
    rw [hqueue, hid]
    exact h.ids
  unique i j q q' key hq hq' hkey hkey' := by
    rw [hqueue] at hq hq'
    rw [QueueRow.activeKey, hweight] at hkey hkey'
    exact h.unique i j q q' key hq hq' hkey hkey'

theorem State.Wf.congr {site' : Site} {base : Site} {s : State} (h : s.Wf base) (hweight : site'.keyWeight = base.keyWeight) :
    s.Wf site' :=
  ⟨h.tables.congr hweight rfl rfl, h.calls, h.tokens, h.keys⟩

/-- A site that has every vectorizer. -/
def CreateSite.everyone (site : CreateSite) : Site := { site.base with registry := fun _ => some { createdBy := "" } }

/-- A row of the backfill is an enqueue for a vectorizer that is registered and enabled. -/
theorem Tables.fill_eq (d : Tables) (v : ℕ) (pk : Bytes) : d.fill site v pk =
    { ({ d with enabled := fun _ => true } : Tables).enqueue site.everyone v pk with enabled := d.enabled } := by
  have hon : (site.everyone.registry v).isSome = true ∧ ({ d with enabled := fun _ => true } : Tables).enabled v = true := ⟨rfl, rfl⟩
  have htaken : Tables.taken site.everyone { d with enabled := fun _ => true } (v, site.everyone.keyWeight pk) none =
      d.taken site.base (v, site.base.keyWeight pk) none := rfl
  rw [enqueue, if_pos hon, htaken, fill]
  split <;> rfl

theorem Tables.Wf.fill (h : d.Wf site.base) (id : ℕ) (pk : Bytes) : (d.fill site id pk).Wf site.base := by
  rw [Tables.fill_eq]
  have hall : ({ d with enabled := fun _ => true } : Tables).Wf site.everyone := h.congr rfl rfl rfl
  exact (hall.enqueue id pk).congr rfl rfl rfl

theorem Tables.Queued.congr {d' : Tables} {pk : Bytes} (h : d.Queued id pk) (hqueue : d'.queue = d.queue) : d'.Queued id pk := by
  obtain ⟨i, q, hq, hrest⟩ := h
  exact ⟨i, q, hqueue ▸ hq, hrest⟩

theorem Tables.fill_rows (pk : Bytes) : (d.fill site id pk).rows = d.rows := by
  rw [fill]
  split <;> rfl

theorem Tables.Queued.fill (hwf : d.Wf site.base) {pk : Bytes} (h : d.Queued id pk) (pk' : Bytes) :
    (d.fill site id pk').Queued id pk := by
  rw [Tables.fill_eq]
  have hall : ({ d with enabled := fun _ => true } : Tables).Queued id pk := h.congr rfl
  have hwf' : ({ d with enabled := fun _ => true } : Tables).Wf site.everyone := hwf.congr rfl rfl rfl
  exact (hall.enqueue hwf' id pk').congr rfl

theorem Tables.queued_of_fill (hwf : d.Wf site.base) {pk : Bytes} (hclash : d.NoClash site.base id pk) :
    (d.fill site id pk).Queued id pk := by
  rw [Tables.fill_eq]
  have hwf' : ({ d with enabled := fun _ => true } : Tables).Wf site.everyone := hwf.congr rfl rfl rfl
  exact (queued_of_enqueue hwf' rfl rfl hclash).congr rfl

/-- A row with another key leaves the key free. -/
theorem Tables.NoClash.fill {pk pk' : Bytes} (h : d.NoClash site.base id pk)
    (hdistinct : site.base.keyWeight pk' = site.base.keyWeight pk → pk' = pk) : (d.fill site id pk').NoClash site.base id pk := by
  intro i q hq hact hv hweight
  rw [Tables.fill] at hq
  split at hq
  · exact h i q hq hact hv hweight
  · dsimp only at hq
    by_cases hi : i = d.nextId
    · rw [hi, Function.update_self] at hq
      cases hq
      exact hdistinct hweight
    · rw [Function.update_of_ne hi] at hq
      exact h i q hq hact hv hweight

theorem Tables.fill_queue (site : CreateSite) (d : Tables) (v : ℕ) (pk : Bytes) : d.nextId ≤ (d.fill site v pk).nextId ∧
    ∀ i q, (d.fill site v pk).queue i = some q → d.queue i = some q ∨ d.nextId ≤ i ∧ q.claimToken = none := by
  rw [fill]
  split
  · exact ⟨le_rfl, fun i q hq => .inl hq⟩
  · refine ⟨Nat.le_succ _, fun i q hq => ?_⟩
    dsimp only at hq
    by_cases hi : i = d.nextId
    · rw [hi, Function.update_self] at hq
      cases hq
      exact .inr ⟨hi.ge, rfl⟩
    · rw [Function.update_of_ne hi] at hq
      exact .inl hq

/-- The rows behind the backfill: the old ones, and new ones without a token. -/
theorem Tables.fill_all_queue (site : CreateSite) (d : Tables) (v : ℕ) (pks : List Bytes) :
    d.nextId ≤ (pks.foldl (fun d pk => d.fill site v pk) d).nextId ∧
      ∀ i q, (pks.foldl (fun d pk => d.fill site v pk) d).queue i = some q →
        d.queue i = some q ∨ d.nextId ≤ i ∧ q.claimToken = none := by
  induction pks generalizing d with
  | nil => exact ⟨le_rfl, fun i q hq => .inl hq⟩
  | cons k pks ih =>
    obtain ⟨hle, hqueue⟩ := ih (d.fill site v k)
    have hone := Tables.fill_queue site d v k
    refine ⟨hone.1.trans hle, fun i q hq => ?_⟩
    rcases hqueue i q hq with hq | ⟨hge, hnone⟩
    · exact hone.2 i q hq
    · exact .inr ⟨hone.1.trans hge, hnone⟩

/-- The backfill queues each of its rows. -/
theorem Tables.fill_all (id : ℕ) {pks : List Bytes} (hwf : d.Wf site.base)
    (hclash : ∀ pk ∈ pks, d.NoClash site.base id pk)
    (hdistinct : ∀ pk ∈ pks, ∀ pk' ∈ pks, site.base.keyWeight pk' = site.base.keyWeight pk → pk' = pk) :
    (pks.foldl (fun d pk => d.fill site id pk) d).Wf site.base ∧ (pks.foldl (fun d pk => d.fill site id pk) d).rows = d.rows ∧
      ∀ pk, pk ∈ pks ∨ d.Queued id pk → (pks.foldl (fun d pk => d.fill site id pk) d).Queued id pk := by
  induction pks generalizing d with
  | nil => exact ⟨hwf, rfl, fun pk h => h.resolve_left (by simp)⟩
  | cons k pks ih =>
    obtain ⟨hk, hrest⟩ := List.forall_mem_cons.mp hclash
    obtain ⟨hwf', hrows, hqueued⟩ := ih (hwf.fill id k)
      (fun pk hpk => (hrest pk hpk).fill (hdistinct pk (List.mem_cons_of_mem _ hpk) k (List.mem_cons_self ..)))
      (fun pk hpk pk' hpk' => hdistinct pk (List.mem_cons_of_mem _ hpk) pk' (List.mem_cons_of_mem _ hpk'))
    refine ⟨hwf', hrows.trans (Tables.fill_rows k), fun pk h => hqueued pk ?_⟩
    rcases h with hmem | hq
    · rcases List.mem_cons.mp hmem with rfl | hmem
      · exact .inr (Tables.queued_of_fill hwf hk)
      · exact .inl hmem
    · exact .inr (hq.fill hwf k)

end

/-! ### The others -/

section
variable {base : Site} {s s' : State} {l : Label} {es : List Event} {v : ℕ} {pk : Bytes} {row : SourceRow}

theorem Tables.setRow_cases {d : Tables} {w : ℕ} {k : Bytes} {new : Option SourceRow}
    (h : (d.setRow w k new).rows v pk = some row) : (v = w ∧ pk = k ∧ new = some row) ∨ ¬ (v = w ∧ pk = k) ∧ d.rows v pk = some row := by
  by_cases hkey : v = w ∧ pk = k
  · obtain ⟨rfl, rfl⟩ := hkey
    rw [Tables.setRow_self] at h
    exact .inl ⟨rfl, rfl, h⟩
  · rw [Tables.setRow_of_ne _ _ (by tauto)] at h
    exact .inr ⟨hkey, h⟩

/-- A row of a source table was there before, or its key is new. -/
theorem State.step_rows (h : s.step base l = some (s', es)) (hrow : s'.tables.rows v pk = some row) :
    s.tables.rows v pk ≠ none ∨ pk ∈ l.keys := by
  have hold (hsame : s.tables.rows v pk = some row) : s.tables.rows v pk ≠ none ∨ pk ∈ l.keys :=
    .inl (by rw [hsame]; exact Option.some_ne_none row)
  cases l with
  | insert w k text embedding =>
    obtain ⟨d', hd', heq⟩ := Option.map_eq_some_iff.mp h
    cases heq
    obtain ⟨-, rfl⟩ := Tables.insert_eq hd'
    dsimp only at hrow
    rw [Tables.enqueue_rows] at hrow
    rcases Tables.setRow_cases hrow with ⟨-, rfl, -⟩ | ⟨-, hsame⟩
    · exact .inr (List.mem_singleton.mpr rfl)
    · exact hold hsame
  | update w k k' text embedding =>
    obtain ⟨d', hd', heq⟩ := Option.map_eq_some_iff.mp h
    cases heq
    obtain ⟨old, -, -, rfl⟩ := Tables.update_eq hd'
    have hset : ((s.tables.setRow w k none).setRow w k' (some (Tables.updatedRow old text embedding))).rows v pk = some row := by
      dsimp only at hrow
      split at hrow
      · rwa [Tables.enqueue_rows] at hrow
      · exact hrow
    rcases Tables.setRow_cases hset with ⟨-, rfl, -⟩ | ⟨-, hset⟩
    · exact .inr (List.mem_singleton.mpr rfl)
    · rcases Tables.setRow_cases hset with ⟨-, -, hnone⟩ | ⟨-, hsame⟩
      · cases hnone
      · exact hold hsame
  | enqueue w k =>
    cases h
    dsimp only at hrow
    rw [Tables.enqueue_rows] at hrow
    exact hold hrow
  | delete w k =>
    cases h
    rcases Tables.setRow_cases hrow with ⟨-, -, hnone⟩ | ⟨-, hsame⟩
    · cases hnone
    · exact hold hsame
  | setEnabled | tick | start | kill =>
    cases h
    exact hold hrow
  | call c ch =>
    obtain ⟨call, e, -, hdoes, rfl, -⟩ := State.step_call h
    cases hdoes with
    | writeBack =>
      rcases writeBack_rows hrow with ⟨-, -, old, hsame, -⟩ | ⟨-, hsame⟩
      · exact .inl (by rw [hsame]; exact Option.some_ne_none old)
      · exact hold hsame
    | defer | settle =>
      dsimp only [State.apply] at hrow
      rw [Call.put_rows] at hrow
      exact hold hrow
    | _ => exact hold hrow

theorem State.step_ready (h : s.step base l = some (s', es)) (hready : ∀ c call, s.calls c = some call → call.Ready) :
    ∀ c call, s'.calls c = some call → call.Ready := by
  cases l with
  | insert | update =>
    obtain ⟨d', -, heq⟩ := Option.map_eq_some_iff.mp h
    cases heq
    exact hready
  | enqueue | delete | setEnabled | tick =>
    cases h
    exact hready
  | start account batchSize staleSecs =>
    cases h
    intro c call hc
    dsimp only at hc
    by_cases hnew : c = s.nextCall
    · rw [hnew, Function.update_self] at hc
      cases hc
      exact .of_point fun r => ⟨by simp [Call.start], by simp [Call.start]⟩
    · rw [Function.update_of_ne hnew] at hc
      exact hready c call hc
  | kill c' =>
    cases h
    intro c call hc
    dsimp only at hc
    by_cases hcc : c = c'
    · rw [hcc, Function.update_self] at hc
      cases hc
    · rw [Function.update_of_ne hcc] at hc
      exact hready c call hc
  | call c' ch =>
    obtain ⟨old, e, hold, hdoes, rfl, -⟩ := State.step_call h
    intro c call hc
    dsimp only [State.apply] at hc
    by_cases hcc : c = c'
    · rw [hcc, Function.update_self] at hc
      exact hdoes.ready (hready c' old hold) hc
    · rw [Function.update_of_ne hcc] at hc
      exact hready c call hc

end

/-- What every statement keeps of the system. -/
structure Core.Sound (site : CreateSite) (v : ℕ) (core : Core) : Prop where
  wf : core.system.Wf site.base
  ready : ∀ c call, core.system.calls c = some call → call.Ready
  keys : ∀ pk row, core.system.tables.rows v pk = some row → pk ∈ core.keys

section
variable {core core' : Core} {l : Label} {es log : List Event} {v : ℕ}

theorem Core.other_eq (h : core.other site l = some (core', es)) :
    ∃ s', core.system.step (site.meets core l) l = some (s', es) ∧ core' = { core with system := s', keys := l.keys ++ core.keys } := by
  obtain ⟨⟨s', es'⟩, hstep, heq⟩ := Option.map_eq_some_iff.mp h
  cases heq
  exact ⟨s', hstep, rfl⟩

theorem Core.Sound.other (h : core.Sound site v) (hother : core.other site l = some (core', es)) : core'.Sound site v := by
  obtain ⟨s', hstep, rfl⟩ := Core.other_eq hother
  have hwf : core.system.Wf (site.meets core l) := h.wf.congr rfl
  refine ⟨(hwf.step hstep).congr rfl, State.step_ready hstep h.ready, fun pk row hrow => ?_⟩
  rcases State.step_rows hstep hrow with hold | hnew
  · obtain ⟨old, hold⟩ := Option.ne_none_iff_exists'.mp hold
    exact List.mem_append_right _ (h.keys pk old hold)
  · exact List.mem_append_left _ hnew

theorem Core.Covers.of_tables {log' : List Event} (h : core.Covers log v)
    (hrows : ∀ pk row, core'.system.tables.rows v pk = some row → row.unembedded = true →
      (∃ old, core.system.tables.rows v pk = some old ∧ old.unembedded = true) ∨ core'.system.tables.Queued v pk)
    (hqueued : ∀ pk, core.system.tables.Queued v pk → core'.system.tables.Queued v pk ∨ Settled log' v pk)
    (hlog : ∀ pk, Settled log v pk → Settled log' v pk) : core'.Covers log' v := by
  intro pk row hrow hbare
  rcases hrows pk row hrow hbare with ⟨old, hold, hbare'⟩ | hq
  · rcases h pk old hold hbare' with hq | hsettled
    · exact hqueued pk hq
    · exact .inr (hlog pk hsettled)
  · exact .inl hq

/-- Behind the backfill a write that is seen leaves every row covered, and so does every other statement. -/
theorem Core.Covers.other (h : core.Covers log v) (hsound : core.Sound site v) (hseen : core.Seen site v l)
    (hregistered : (core.registry v).isSome = true) (hfires : ∀ event, core.fires event v = true)
    (hother : core.other site l = some (core', es)) : core'.Covers (log ++ es) v := by
  obtain ⟨s', hstep, rfl⟩ := Core.other_eq hother
  have hwf : core.system.Wf (site.meets core l) := hsound.wf.congr rfl
  have hlog {log' : List Event} : ∀ pk, Settled log v pk → Settled (log ++ log') v pk := fun pk hs => Settled.append (.inl hs)
  have hregs : (core.registrations v).isSome = true := by rw [registrations, Option.isSome_map]; exact hregistered
  cases l with
  | insert w k text embedding =>
    obtain ⟨d', hd', heq⟩ := Option.map_eq_some_iff.mp hstep
    cases heq
    obtain ⟨-, rfl⟩ := Tables.insert_eq hd'
    have hset := hwf.tables.setRow w k (some ⟨text, embedding, true⟩)
    refine h.of_tables (fun pk row hrow hbare => ?_) (fun pk hq => .inl ?_) hlog
    · rw [Tables.enqueue_rows] at hrow
      rcases Tables.setRow_cases hrow with ⟨rfl, rfl, hnew⟩ | ⟨-, hsame⟩
      · obtain rfl := Option.some.inj hnew
        obtain ⟨hon, hclash⟩ := hseen rfl hbare
        refine .inr (Tables.queued_of_enqueue hset ?_ hon hclash)
        change (if core.fires .insert v then core.registrations v else none).isSome = true
        rw [if_pos (hfires .insert)]
        exact hregs
      · exact .inl ⟨row, hsame, hbare⟩
    · exact (hq.congr (Tables.setRow_queue ..)).enqueue hset w k
  | update w k k' text embedding =>
    obtain ⟨d', hd', heq⟩ := Option.map_eq_some_iff.mp hstep
    cases heq
    obtain ⟨old, hold, -, rfl⟩ := Tables.update_eq hd'
    have hset := (hwf.tables.setRow w k none).setRow w k' (some (Tables.updatedRow old text embedding))
    refine h.of_tables (fun pk row hrow hbare => ?_) (fun pk hq => .inl ?_) hlog
    · have hrow : ((core.system.tables.setRow w k none).setRow w k' (some (Tables.updatedRow old text embedding))).rows v pk =
          some row := by
        dsimp only at hrow
        split at hrow
        · rwa [Tables.enqueue_rows] at hrow
        · exact hrow
      rcases Tables.setRow_cases hrow with ⟨rfl, rfl, hnew⟩ | ⟨-, hrow⟩
      · obtain rfl := Option.some.inj hnew
        rcases hseen rfl old hold hbare with ⟨rfl, hbare'⟩ | ⟨hchanged, hon, hclash⟩
        · exact .inl ⟨old, hold, hbare'⟩
        · have hfired : Tables.textChanged (site.meets core (.update v k pk text embedding)) old.text text = true := hchanged
          refine .inr ?_
          dsimp only
          rw [if_pos hfired]
          refine Tables.queued_of_enqueue hset ?_ hon hclash
          change (if core.fires .update v then core.registrations v else none).isSome = true
          rw [if_pos (hfires .update)]
          exact hregs
      · rcases Tables.setRow_cases hrow with ⟨-, -, hnone⟩ | ⟨-, hsame⟩
        · cases hnone
        · exact .inl ⟨row, hsame, hbare⟩
    · dsimp only
      split
      · exact (hq.congr rfl).enqueue hset w k'
      · exact hq.congr rfl
  | enqueue w k =>
    cases hstep
    refine h.of_tables (fun pk row hrow hbare => .inl ?_) (fun pk hq => .inl (hq.enqueue hwf.tables w k)) hlog
    rw [Tables.enqueue_rows] at hrow
    exact ⟨row, hrow, hbare⟩
  | delete w k =>
    cases hstep
    refine h.of_tables (fun pk row hrow hbare => .inl ?_) (fun pk hq => .inl (hq.congr rfl)) hlog
    rcases Tables.setRow_cases hrow with ⟨-, -, hnone⟩ | ⟨-, hsame⟩
    · cases hnone
    · exact ⟨row, hsame, hbare⟩
  | setEnabled | tick | start | kill =>
    cases hstep
    exact h.of_tables (fun pk row hrow hbare => .inl ⟨row, hrow, hbare⟩) (fun pk hq => .inl (hq.congr rfl)) hlog
  | call c ch =>
    obtain ⟨call, e, hcall, hdoes, rfl, rfl⟩ := State.step_call hstep
    refine h.of_tables (fun pk row hrow hbare => .inl (hdoes.unembedded (hsound.ready c call hcall) hrow hbare))
      (fun pk hq => (hdoes.queued_or_settled hq).imp_right fun hs => Settled.append (.inr hs)) hlog

end

/-! ### A call that returns -/

/-- What stands at each point of the call: the row under its id, then one trigger and the other, and
behind the backfill every row is covered. -/
structure Creation.Stage (site : CreateSite) (v : ℕ) (s : Creation) (log : List Event) : Prop where
  sound : s.core.Sound site v
  next : s.point = .check ∨ (∃ pkCol isVector, s.point = .insertRow pkCol isVector) → s.core.nextVectorizer = v
  trigger : ∀ event id, s.point = .createTrigger event id → id = v ∧ (s.core.registry v).isSome = true ∧
    (event = .update → s.core.fires .insert v = true)
  filling : ∀ id, s.point = .backfill id → id = v ∧ (s.core.registry v).isSome = true ∧ ∀ event, s.core.fires event v = true
  finished : ∀ id, s.point = .finish id ∨ s.point = .returned id →
    id = v ∧ (s.core.registry v).isSome = true ∧ (∀ event, s.core.fires event v = true) ∧ s.core.Covers log v

section
variable {core core' : Core} {point point' : CreatePoint} {v : ℕ} {log es : List Event}

theorem Creation.Stage.other {l : Label} (h : Creation.Stage site v ⟨core, point⟩ log) (hok : Creation.StepOk site ⟨core, point⟩ (.other l))
    (hother : core.other site l = some (core', es)) : Creation.Stage site v ⟨core', point⟩ (log ++ es) := by
  have hsound := h.sound.other hother
  obtain ⟨s', -, heq⟩ := Core.other_eq hother
  have hregistry : core'.registry = core.registry := by rw [heq]
  have hfires : core'.fires = core.fires := by rw [heq]; rfl
  refine ⟨hsound, fun hp => ?_, fun event id hp => ?_, fun id hp => ?_, fun id hp => ?_⟩
  · rw [heq]
    exact h.next hp
  · dsimp only
    rw [hregistry, hfires]
    exact h.trigger event id hp
  · dsimp only
    rw [hregistry, hfires]
    exact h.filling id hp
  · obtain ⟨rfl, hreg, hboth, hcovers⟩ := h.finished id hp
    dsimp only
    rw [hregistry, hfires]
    exact ⟨rfl, hreg, hboth, hcovers.other h.sound (hok id hp) hreg hboth hother⟩

theorem Core.fires_cons {t : Trigger} {event : TriggerEvent} : Core.fires { core with triggers := t :: core.triggers } event v =
    (decide (t.vectorizer = v ∧ t.event = event) || core.fires event v) := rfl

/-- The backfill covers every row. -/
theorem Core.Sound.backfill {pks : List Bytes} (h : core.Sound site v) (log : List Event) (hdistinct : core.Distinct site v)
    (hscan : core.mayScan v pks = true) : (core.backfill site v pks).Sound site v ∧ (core.backfill site v pks).Covers log v := by
  simp only [mayScan, decide_eq_true_eq] at hscan
  obtain ⟨-, hin, hall⟩ := hscan
  have hrow : ∀ pk ∈ pks, ∃ row, core.system.tables.rows v pk = some row ∧ row.unembedded = true :=
    fun pk hpk => Option.any_eq_true .. |>.mp (hin pk hpk)
  obtain ⟨hwf, hrows, hqueued⟩ := Tables.fill_all v h.wf.tables
    (fun pk hpk => by
      obtain ⟨row, hr, hbare⟩ := hrow pk hpk
      exact (hdistinct pk row hr hbare).1)
    (fun pk hpk pk' hpk' => by
      obtain ⟨row, hr, hbare⟩ := hrow pk hpk
      obtain ⟨row', hr', hbare'⟩ := hrow pk' hpk'
      exact (hdistinct pk row hr hbare).2 pk' row' hr' hbare')
  obtain ⟨hid, hnew⟩ := Tables.fill_all_queue site core.system.tables v pks
  refine ⟨⟨h.wf.of_tables hwf hid hnew, h.ready, fun pk row hr => ?_⟩, fun pk row hr hbare => .inl (hqueued pk (.inl ?_))⟩
  · dsimp only [Core.backfill] at hr
    rw [hrows] at hr
    exact h.keys pk row hr
  · dsimp only [Core.backfill] at hr
    rw [hrows] at hr
    exact List.contains_iff_mem.mp (hall pk (h.keys pk row hr) (by rw [hr]; exact hbare))

theorem Core.Sound.addRow {pkCol : String} {isVector : Bool} (h : core.Sound site v) :
    (core.addRow site args pkCol isVector).Sound site v :=
  ⟨h.wf.of_tables (h.wf.tables.congr rfl rfl rfl) le_rfl fun _ _ hq => .inl hq, h.ready, h.keys⟩

theorem Creation.Stage.create {ch : CreateChoice} (h : Creation.Stage site v ⟨core, point⟩ log)
    (hok : Creation.StepOk site ⟨core, point⟩ (.create ch)) (hstep : core.create site args ch point = some (core', point')) :
    Creation.Stage site v ⟨core', point'⟩ log := by
  cases point with
  | check =>
    have hnext := h.next (.inl rfl)
    simp only [Core.create] at hstep
    split at hstep <;> cases hstep
    · exact ⟨h.sound, by simp, by simp, by simp, by simp⟩
    · exact ⟨h.sound, fun _ => hnext, by simp, by simp, by simp⟩
  | insertRow pkCol isVector =>
    have hnext := h.next (.inr ⟨pkCol, isVector, rfl⟩)
    simp only [Core.create] at hstep
    split at hstep <;> cases hstep
    · refine ⟨h.sound.addRow, by simp, fun event id hp => ?_, by simp, by simp⟩
      cases hp
      refine ⟨hnext, ?_, fun he => by cases he⟩
      rw [← hnext]
      dsimp only [Core.addRow]
      rw [Function.update_self]
      rfl
    · exact ⟨h.sound, by simp, by simp, by simp, by simp⟩
  | createTrigger event id =>
    obtain ⟨rfl, hreg, hfirst⟩ := h.trigger event id rfl
    simp only [Core.create] at hstep
    rw [if_pos (hok.1 event id rfl)] at hstep
    cases hstep
    have hsound : Core.Sound site id { core with triggers := args.trigger event id :: core.triggers } :=
      ⟨h.sound.wf, h.sound.ready, h.sound.keys⟩
    cases event with
    | insert =>
      refine ⟨hsound, by simp, fun event' id' hp => ?_, by simp, by simp⟩
      cases hp
      refine ⟨rfl, hreg, fun _ => ?_⟩
      dsimp only
      rw [Core.fires_cons]
      simp [CreateArgs.trigger]
    | update =>
      refine ⟨hsound, by simp, by simp, fun id' hp => ?_, by simp⟩
      cases hp
      refine ⟨rfl, hreg, fun event' => ?_⟩
      dsimp only
      rw [Core.fires_cons]
      cases event' with
      | insert => rw [hfirst rfl, Bool.or_true]
      | update => simp [CreateArgs.trigger]
  | backfill id =>
    obtain ⟨rfl, hreg, hboth⟩ := h.filling id rfl
    obtain ⟨hsucceeds, hdistinct⟩ := hok.2 id rfl
    simp only [Core.create] at hstep
    rw [if_neg (not_not.mpr hsucceeds)] at hstep
    split at hstep
    · rename_i hscan
      cases hstep
      obtain ⟨hsound, hcovers⟩ := h.sound.backfill log hdistinct hscan
      refine ⟨hsound, by simp, by simp, by simp, fun id' hp => ?_⟩
      rcases hp with hp | hp <;> cases hp
      exact ⟨rfl, hreg, hboth, hcovers⟩
    · cases hstep
  | finish id =>
    obtain ⟨rfl, hrest⟩ := h.finished id (.inl rfl)
    cases hstep
    refine ⟨h.sound, by simp, by simp, by simp, fun id' hp => ?_⟩
    rcases hp with hp | hp <;> cases hp
    exact ⟨rfl, hrest⟩
  | returned | raised => cases hstep

end

theorem Creation.Stage.step {s s' : Creation} {v : ℕ} {log es : List Event} {l : CreateLabel} (h : s.Stage site v log)
    (hok : s.StepOk site l) (hstep : s.step site args l = some (s', es)) : s'.Stage site v (log ++ es) := by
  cases l with
  | create ch =>
    obtain ⟨⟨core', point'⟩, hcreate, heq⟩ := Option.map_eq_some_iff.mp hstep
    cases heq
    rw [List.append_nil]
    exact h.create hok hcreate
  | other l =>
    obtain ⟨⟨core', es'⟩, hother, heq⟩ := Option.map_eq_some_iff.mp hstep
    cases heq
    exact h.other hok hother

/-- Where no statement behind the registry row fails, the keys are distinct for the queue, and the writes
behind the backfill are seen, a creation is all or nothing. -/
theorem create_all_or_nothing (site : CreateSite) (args : CreateArgs) (start : Core)
    (hsound : start.Sound site start.nextVectorizer) (labels : List CreateLabel) (final : Config Creation Event)
    (hmeet : StepsMeet (Creation.step site args) (fun s _ l => s.StepOk site l) ⟨{ core := start }, []⟩ labels)
    (hrun : exec (Creation.step site args) ⟨{ core := start }, []⟩ labels = some final) :
    Creation.AllOrNothing site start labels final where
  raised r hp := by
    obtain ⟨-, hothers⟩ := exec_others hmeet hrun (by rw [hp]; rfl)
    exact ⟨_, hothers, rfl, rfl, rfl⟩
  returned id hp := by
    have hstart : Creation.Stage site start.nextVectorizer { core := start } [] :=
      ⟨hsound, fun _ => rfl, by simp, by simp, by simp⟩
    have hstage : final.state.Stage site start.nextVectorizer final.log :=
      exec_invariant_of (fun hi hok hs => hi.step hok hs) hmeet hstart hrun
    obtain ⟨rfl, -, hboth, hcovers⟩ := hstage.finished id (.inr hp)
    exact ⟨hboth, hcovers⟩

theorem Core.Sound.initial (site : CreateSite) (v : ℕ) : Core.Sound site v { system := State.initial fun _ _ => none } where
  wf := .initial site.base _
  ready c call hcall := by cases hcall
  keys pk row hrow := by cases hrow

/-- One table with a key, a text and a vector. -/
def docsSite : CreateSite where
  base := plainSite
  catalog name := if name = "docs" then some ⟨[⟨"id", "int"⟩, ⟨"body", "text"⟩, ⟨"vec", "vector"⟩], ["id"]⟩ else none
  sameName a b := decide (a = b)
  user := "ada"

def docsArgs : CreateArgs := ⟨some "docs", some "body", some "vec", none⟩

/-- An empty system. -/
def emptyCore : Core := { system := State.initial fun _ _ => none }

/-- The first CREATE TRIGGER fails: the call raises and leaves the registry row. -/
theorem failed_trigger_leaves_row : ¬ ∀ (site : CreateSite) (args : CreateArgs) (start : Core),
    start.Sound site start.nextVectorizer → ∀ (labels : List CreateLabel) (final : Config Creation Event),
      exec (Creation.step site args) ⟨{ core := start }, []⟩ labels = some final → Creation.AllOrNothing site start labels final := by
  intro hall
  have hany : (exec (Creation.step docsSite docsArgs) ⟨{ core := emptyCore }, []⟩
      [.create {}, .create {}, .create { ok := false }]).any (fun c => decide
        (c.state.point = .raised .server ∧ (c.state.core.registry 0).isSome = true)) = true := by decide
  obtain ⟨final, hrun, hend⟩ := (Option.any_eq_true ..).mp hany
  obtain ⟨hraised, hrow⟩ := of_decide_eq_true hend
  obtain ⟨other, hothers, hregistry, -⟩ := (hall docsSite docsArgs emptyCore (.initial _ _) _ final hrun).raised _ hraised
  cases hothers
  rw [hregistry] at hrow
  cases hrow

/-- Every statement of the call succeeds; another connection writes a row before the triggers, one between
them, and one behind the backfill. -/
def createRun : List CreateLabel :=
  [.create {}, .create {}, .other (.insert 0 (ascii "1") (some (ascii "cat")) none), .create {},
    .other (.insert 0 (ascii "2") (some (ascii "dog")) none), .create {}, .create { pks := [ascii "1", ascii "2"] },
    .other (.insert 0 (ascii "3") (some (ascii "owl")) none), .create {}]

/-- A condition that can be computed, for writes that only insert. -/
def Creation.plainOk (s : Creation) : CreateLabel → Bool
  | .create ch => ch.ok && match s.point with
    | .createTrigger event id => triggerName id event ∉ s.core.triggers.map Trigger.name
    | _ => true
  | .other (.insert ..) => match s.point with
    | .finish id | .returned id => s.core.system.tables.enabled id
    | _ => true
  | .other _ => false

/-- It is enough where the queue's collation tells all keys apart. -/
theorem Creation.StepOk.of_plainOk {s : Creation} {l : CreateLabel} (hweight : Function.Injective site.base.keyWeight)
    (h : s.plainOk l = true) : s.StepOk site l := by
  have hclash (d : Tables) (id : ℕ) (pk : Bytes) : d.NoClash site.base id pk := fun i q _ _ _ hkey => hweight hkey
  cases l with
  | create ch =>
    simp only [plainOk, Bool.and_eq_true] at h
    refine ⟨fun event id hp => ⟨h.1, ?_⟩, fun id hp => ⟨h.1, fun pk row _ _ => ⟨hclash _ _ _, fun _ _ _ _ hkey => hweight hkey⟩⟩⟩
    rw [hp] at h
    exact of_decide_eq_true h.2
  | other l =>
    intro id hp
    cases l with
    | insert v pk text embedding =>
      refine fun _ _ => ⟨?_, hclash _ _ _⟩
      rcases hp with hp | hp <;> rw [plainOk, hp] at h <;> exact h
    | _ => cases h

theorem createRun_covers : ∃ final : Config Creation Event,
    exec (Creation.step docsSite docsArgs) ⟨{ core := emptyCore }, []⟩ createRun = some final ∧
      final.state.point = .returned 0 ∧ (∀ event, final.state.core.fires event 0 = true) ∧ final.state.core.Covers final.log 0 := by
  have hany : (exec (Creation.step docsSite docsArgs) ⟨{ core := emptyCore }, []⟩ createRun).any (fun c => decide
      (c.state.point = .returned 0)) = true := by decide
  obtain ⟨final, hrun, hend⟩ := (Option.any_eq_true ..).mp hany
  have hreturned := of_decide_eq_true hend
  have hplain : StepsMeet (Creation.step docsSite docsArgs) (fun s _ l => s.plainOk l = true) ⟨{ core := emptyCore }, []⟩
      createRun := by decide
  exact ⟨final, hrun, hreturned, (create_all_or_nothing docsSite docsArgs emptyCore (.initial _ _) createRun final
    (hplain.mono fun h => .of_plainOk Function.injective_id h) hrun).returned 0 hreturned⟩

end FractalSQL.Vectorizer
