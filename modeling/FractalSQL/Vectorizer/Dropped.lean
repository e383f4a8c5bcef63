import FractalSQL.Vectorizer.Lifecycle

/-!
# A dropped vectorizer is gone for good

What refers to a vectorizer refers to one that is registered. A drop that returned leaves nothing of
it, and nothing comes back, unless it overtook the call that was still creating the triggers: these
stay, and no later call removes them.
-/
namespace FractalSQL.Vectorizer
open Lib

/-! ### What every run keeps -/

/-- The triggers that may stand while a drop is at a point. -/
def DropPoint.leaves : DropPoint → TriggerEvent → Bool
  | .dropTrigger .update, event => event = .update
  | .deleteRow, _ | .returned, _ => false
  | _, _ => true

/-- The drop found its row and goes on. -/
def DropPoint.found : DropPoint → Bool
  | .check | .raised _ => false
  | .dropTrigger _ | .deleteRow | .returned => true

/-- No call is creating the triggers of the vectorizer. -/
def Life.Idle (s : Life) (id : ℕ) : Prop := ∀ k r, s.routines k = some r → r.making ≠ some id

/-- The queue and the rate windows refer to registered vectorizers. -/
structure Core.Refers (core : Core) : Prop where
  queued : ∀ i q, core.system.tables.queue i = some q → (core.registry q.vectorizer).isSome = true
  windowed : ∀ v w, core.system.tables.windows v = some w → (core.registry v).isSome = true

/-- And so do the triggers, but for those of a vectorizer that was overtaken. -/
structure Core.Kept (core : Core) (log : List LifeEvent) : Prop extends core.Refers where
  fresh : ∀ v, core.nextVectorizer ≤ v → core.registry v = none
  minted : ∀ t ∈ core.triggers, t.vectorizer < core.nextVectorizer
  named : ∀ t ∈ core.triggers, t.name = triggerName t.vectorizer t.event
  triggered : ∀ t ∈ core.triggers, (core.registry t.vectorizer).isSome = true ∨ .overtaken t.vectorizer ∈ log

/-- What a running call may rely on. -/
structure Routine.Kept (core : Core) (idle : ℕ → Prop) (log : List LifeEvent) (r : Routine) : Prop where
  making : ∀ id, r.making = some id →
    id < core.nextVectorizer ∧ ((core.registry id).isSome = true ∨ .overtaken id ∈ log)
  dropping : ∀ id p, r = .drop id p → p.found = true → id < core.nextVectorizer ∧
    (p = .returned → core.registry id = none) ∧
      (.overtaken id ∈ log ∨ idle id ∧ ∀ t ∈ core.triggers, t.vectorizer = id → p.leaves t.event = true)

structure Life.Kept (s : Life) (log : List LifeEvent) : Prop where
  core : s.core.Kept log
  routines : ∀ k r, s.routines k = some r → k < s.nextRoutine ∧ r.Kept s.core s.Idle log

variable {site : CreateSite} {core core' : Core} {s : Life} {log log' : List LifeEvent}

theorem Life.making_iff {id : ℕ} (h : ∀ k r, s.routines k = some r → k < s.nextRoutine) :
    s.making id = false ↔ s.Idle id := by
  rw [making, List.any_eq_false]
  constructor
  · intro hnone k r hr hmaking
    apply hnone k (List.mem_range.mpr (h k r hr))
    rw [hr, Option.any_some]
    exact decide_eq_true hmaking
  · intro hidle k _ hany
    obtain ⟨r, hr, hmaking⟩ := (Option.any_eq_true ..).mp hany
    exact hidle k r hr (of_decide_eq_true hmaking)

theorem Routine.Kept.of_not {idle : ℕ → Prop} {r : Routine} (hmaking : r.making = none)
    (hdropping : ∀ id p, r = .drop id p → p.found = false) : r.Kept core idle log where
  making id h := by
    rw [hmaking] at h
    cases h
  dropping id p hr hfound := by
    rw [hdropping id p hr] at hfound
    cases hfound

/-! ### The queue and the windows -/

theorem Tables.enqueue_registered {base : Site} {d : Tables} {v : ℕ} {pk : Bytes} {i : ℕ} {q : QueueRow}
    (h : (d.enqueue base v pk).queue i = some q) :
    d.queue i = some q ∨ q.vectorizer = v ∧ (base.registry v).isSome = true := by
  rw [enqueue] at h
  split at h
  · rename_i hon
    split at h
    · exact .inl h
    · dsimp only at h
      by_cases hi : i = d.nextId
      · rw [hi, Function.update_self] at h
        cases h
        exact .inr ⟨rfl, hon.1⟩
      · rw [Function.update_of_ne hi] at h
        exact .inl h
  · exact .inl h

theorem Tables.enqueue_windows (base : Site) (d : Tables) (v : ℕ) (pk : Bytes) :
    (d.enqueue base v pk).windows = d.windows := by
  rw [enqueue]
  split_ifs <;> rfl

theorem Tables.fill_registered {d : Tables} {v : ℕ} {pks : List Bytes} {i : ℕ} {q : QueueRow}
    (h : (pks.foldl (fun d pk => d.fill site v pk) d).queue i = some q) :
    d.queue i = some q ∨ q.vectorizer = v ∧ pks ≠ [] := by
  induction pks generalizing d with
  | nil => exact .inl h
  | cons pk pks ih =>
    rw [List.foldl_cons] at h
    rcases ih h with hq | ⟨hv, -⟩
    · rw [fill] at hq
      split at hq
      · exact .inl hq
      · dsimp only at hq
        by_cases hi : i = d.nextId
        · rw [hi, Function.update_self] at hq
          cases hq
          exact .inr ⟨rfl, List.cons_ne_nil _ _⟩
        · rw [Function.update_of_ne hi] at hq
          exact .inl hq
    · exact .inr ⟨hv, List.cons_ne_nil _ _⟩

theorem Tables.fill_windows {d : Tables} {v : ℕ} {pks : List Bytes} :
    (pks.foldl (fun d pk => d.fill site v pk) d).windows = d.windows := by
  induction pks generalizing d with
  | nil => rfl
  | cons pk pks ih =>
    rw [List.foldl_cons, ih, fill]
    split <;> rfl

/-- A write or an enqueue adds rows of registered vectorizers only. -/
theorem Core.Refers.other (h : core.Refers) {l : Label} {es : List Event} (hl : ∀ c ch, l ≠ .call c ch)
    (hother : core.other site l = some (core', es)) :
    core'.Refers ∧ core'.registry = core.registry ∧ core'.triggers = core.triggers ∧
      core'.nextVectorizer = core.nextVectorizer := by
  obtain ⟨⟨s', es'⟩, hstep, heq⟩ := Option.map_eq_some_iff.mp hother
  obtain ⟨rfl, rfl⟩ := Prod.mk.inj heq
  have henqueue {base : Site} (d : Tables) {v : ℕ} (pk : Bytes) (hbase : (base.registry v).isSome = true →
      (core.registry v).isSome = true) (hqueue : d.queue = core.system.tables.queue)
      (hwindows : d.windows = core.system.tables.windows) :
      (∀ i q, (d.enqueue base v pk).queue i = some q → (core.registry q.vectorizer).isSome = true) ∧
        ∀ w x, (d.enqueue base v pk).windows w = some x → (core.registry w).isSome = true := by
    constructor
    · intro i q hq
      rcases Tables.enqueue_registered hq with hq | ⟨rfl, hv⟩
      · rw [hqueue] at hq
        exact h.queued i q hq
      · exact hbase hv
    · intro w x hx
      rw [Tables.enqueue_windows, hwindows] at hx
      exact h.windowed w x hx
  refine ⟨?_, rfl, rfl, rfl⟩
  cases l with
  | insert v pk text embedding =>
    obtain ⟨d, hd, heq⟩ := Option.map_eq_some_iff.mp hstep
    cases heq
    obtain ⟨-, rfl⟩ := Tables.insert_eq hd
    have hbase : ((site.meets core (.insert v pk text embedding)).registry v).isSome = true →
        (core.registry v).isSome = true := by
      simp only [CreateSite.meets, Core.registrations]
      split_ifs <;> simp
    obtain ⟨hqueued, hwindowed⟩ := henqueue (core.system.tables.setRow v pk (some ⟨text, embedding, true⟩)) pk hbase rfl rfl
    exact ⟨hqueued, hwindowed⟩
  | update v pk pk' text embedding =>
    obtain ⟨d, hd, heq⟩ := Option.map_eq_some_iff.mp hstep
    cases heq
    obtain ⟨old, -, -, rfl⟩ := Tables.update_eq hd
    have hbase : ((site.meets core (.update v pk pk' text embedding)).registry v).isSome = true →
        (core.registry v).isSome = true := by
      simp only [CreateSite.meets, Core.registrations]
      split_ifs <;> simp
    split_ifs
    · obtain ⟨hqueued, hwindowed⟩ := henqueue
        ((core.system.tables.setRow v pk none).setRow v pk' (some (Tables.updatedRow old text embedding))) pk' hbase rfl rfl
      exact ⟨hqueued, hwindowed⟩
    · exact ⟨h.queued, h.windowed⟩
  | enqueue v pk =>
    cases hstep
    have hbase : ((site.meets core (.enqueue v pk)).registry v).isSome = true → (core.registry v).isSome = true := by
      simp [CreateSite.meets, Core.registrations]
    obtain ⟨hqueued, hwindowed⟩ := henqueue core.system.tables pk hbase rfl rfl
    exact ⟨hqueued, hwindowed⟩
  | call c ch => exact absurd rfl (hl c ch)
  | delete | setEnabled | tick | start | kill =>
    cases hstep
    exact ⟨h.queued, h.windowed⟩

/-- A statement of a worker adds no row, and no window of a vectorizer that is gone. -/
theorem Life.statement_refers (h : s.core.Refers) {c : ℕ} {call : Call} {ch : Choice} {vars : Option Window} {e : Effect}
    (hstatement : s.statement site c call ch vars = some e) :
    (∀ i q, e.tables.queue i = some q → (s.core.registry q.vectorizer).isSome = true) ∧
      ∀ v w, e.tables.windows v = some w → (s.core.registry v).isSome = true := by
  have hqueue {base : Site} {e : Effect} (he : call.statement base s.core.system.tables c ch = some e) (i : ℕ) (q : QueueRow)
      (hq : e.tables.queue i = some q) : (s.core.registry q.vectorizer).isSome = true := by
    obtain ⟨q', hq', hsame⟩ := (Call.does_of_statement he).sameKey.2 i q hq
    rw [hsame.1]
    exact h.queued i q' hq'
  have hkeyed {base : Site} (he : (call.statement base s.core.system.tables c ch).map s.core.keyed = some e) :
      (∀ i q, e.tables.queue i = some q → (s.core.registry q.vectorizer).isSome = true) ∧
        ∀ v w, e.tables.windows v = some w → (s.core.registry v).isSome = true := by
    obtain ⟨e', he', rfl⟩ := Option.map_eq_some_iff.mp he
    refine ⟨fun i q hq => hqueue he' i q hq, fun v w hw => ?_⟩
    simp only [Core.keyed] at hw
    split at hw
    · assumption
    · cases hw
  rw [statement] at hstatement
  split at hstatement
  · rename_i r hp
    split at hstatement
    · cases hstatement
      exact ⟨h.queued, h.windowed⟩
    · refine ⟨hqueue hstatement, fun v w hw => ?_⟩
      rw [Call.statement, hp] at hstatement
      cases hstatement
      exact h.windowed v w hw
  · exact hkeyed hstatement

/-! ### One statement of a call -/

theorem Life.put_routines {core : Core} {k j : ℕ} {r q : Routine} (h : (s.put core k r).routines j = some q) :
    j = k ∧ q = r ∨ j ≠ k ∧ s.routines j = some q := by
  rw [put] at h
  dsimp only at h
  by_cases hj : j = k
  · rw [hj, Function.update_self] at h
    exact .inl ⟨hj, (Option.some.inj h).symm⟩
  · rw [Function.update_of_ne hj] at h
    exact .inr ⟨hj, h⟩

/-- Nobody begins to create the triggers of a vectorizer that is there already. -/
theorem Life.Idle.put {id k : ℕ} {r r' : Routine} (h : s.Idle id) (hr : s.routines k = some r)
    (hmaking : r'.making = some id → r.making = some id) : (s.put core' k r').Idle id := by
  intro j q hq hq'
  rcases put_routines hq with ⟨rfl, rfl⟩ | ⟨-, hold⟩
  · exact h j r hr (hmaking hq')
  · exact h j q hold hq'

/-- A statement of one call next to all others. It takes a vectorizer away only where none of them
is creating its triggers, and adds a trigger only for the one that the call itself is creating. -/
theorem Life.Kept.put (h : s.Kept log) {k : ℕ} {r r' : Routine} (hr : s.routines k = some r)
    (hcore : core'.Kept (log ++ log')) (hself : r'.Kept core' s.Idle (log ++ log'))
    (hmaking : ∀ id, r'.making = some id → r.making = some id ∨ s.core.nextVectorizer ≤ id)
    (hnext : s.core.nextVectorizer ≤ core'.nextVectorizer)
    (hregistry : ∀ id, id < s.core.nextVectorizer → core'.registry id = s.core.registry id ∨
      core'.registry id = none ∧ (.overtaken id ∈ log ++ log' ∨ s.Idle id))
    (htriggers : ∀ t ∈ core'.triggers, t ∈ s.core.triggers ∨ r.making = some t.vectorizer) :
    (s.put core' k r').Kept (log ++ log') := by
  refine ⟨hcore, fun j q hq => ?_⟩
  rcases put_routines hq with ⟨rfl, rfl⟩ | ⟨-, hold⟩
  · refine ⟨(h.routines j r hr).1, hself.making, fun id p hp hfound => ?_⟩
    obtain ⟨hmint, hgone, hclear⟩ := hself.dropping id p hp hfound
    refine ⟨hmint, hgone, hclear.imp_right fun hclear => ⟨hclear.1.put hr fun hid => ?_, hclear.2⟩⟩
    rw [hp] at hid
    cases hid
  · obtain ⟨hlt, hkept⟩ := h.routines j q hold
    refine ⟨hlt, fun id hid => ?_, fun id p hp hfound => ?_⟩
    · obtain ⟨hmint, hrow⟩ := hkept.making id hid
      refine ⟨hmint.trans_le hnext, ?_⟩
      rcases hregistry id hmint with heq | ⟨-, hover | hnot⟩
      · apply hrow.imp _ (List.mem_append_left _)
        intro hsome
        exact (congrArg Option.isSome heq).trans hsome
      · exact .inr hover
      · exact absurd hid (hnot j q hold)
    · obtain ⟨hmint, hgone, hclear⟩ := hkept.dropping id p hp hfound
      refine ⟨hmint.trans_le hnext, fun hret => ?_, ?_⟩
      · rcases hregistry id hmint with heq | ⟨hnone, -⟩
        · exact heq.trans (hgone hret)
        · exact hnone
      · apply hclear.imp (List.mem_append_left _)
        rintro ⟨hnot, hleaves⟩
        refine ⟨hnot.put hr fun hid => ?_, fun t ht htid => ?_⟩
        · rcases hmaking id hid with hold | hnew
          · exact hold
          · omega
        · rcases htriggers t ht with hold | hmade
          · exact hleaves t hold htid
          · rw [htid] at hmade
            exact absurd hmade (hnot k r hr)

/-! ### The statements of the create -/

theorem Core.Kept.append (h : core.Kept log) (log' : List LifeEvent) : core.Kept (log ++ log') :=
  { h with triggered := fun t ht => (h.triggered t ht).imp_right (List.mem_append_left log') }

theorem Core.addRow_registry (args : CreateArgs) (pkCol : String) (isVector : Bool) {v : ℕ} (hv : v ≠ core.nextVectorizer) :
    (core.addRow site args pkCol isVector).registry v = core.registry v := Function.update_of_ne hv _ _

theorem Core.addRow_isSome (args : CreateArgs) (pkCol : String) (isVector : Bool) :
    ((core.addRow site args pkCol isVector).registry core.nextVectorizer).isSome = true := by
  simp [addRow]

theorem Core.Kept.addRow (h : core.Kept log) (args : CreateArgs) (pkCol : String) (isVector : Bool) :
    (core.addRow site args pkCol isVector).Kept log := by
  have hgrows (v : ℕ) (hv : (core.registry v).isSome = true) :
      ((core.addRow site args pkCol isVector).registry v).isSome = true := by
    by_cases heq : v = core.nextVectorizer
    · rw [heq]
      exact Core.addRow_isSome args pkCol isVector
    · rw [Core.addRow_registry args pkCol isVector heq]
      exact hv
  constructor
  · exact ⟨fun i q hq => hgrows _ (h.queued i q hq), fun v w hw => hgrows v (h.windowed v w hw)⟩
  · intro v hv
    have hlt : core.nextVectorizer < v := hv
    rw [Core.addRow_registry args pkCol isVector hlt.ne']
    exact h.fresh v hlt.le
  · exact fun t ht => (h.minted t ht).trans (Nat.lt_succ_self _)
  · exact h.named
  · exact fun t ht => (h.triggered t ht).imp_left (hgrows _)

theorem Core.Kept.addTrigger (h : core.Kept log) (args : CreateArgs) (event : TriggerEvent) {id : ℕ}
    (hmint : id < core.nextVectorizer) (hrow : (core.registry id).isSome = true ∨ .overtaken id ∈ log) :
    Core.Kept { core with triggers := args.trigger event id :: core.triggers } log := by
  constructor
  · exact ⟨h.queued, h.windowed⟩
  · exact h.fresh
  · intro t ht
    rcases List.mem_cons.mp ht with rfl | hold
    · exact hmint
    · exact h.minted t hold
  · intro t ht
    rcases List.mem_cons.mp ht with rfl | hold
    · rfl
    · exact h.named t hold
  · intro t ht
    rcases List.mem_cons.mp ht with rfl | hold
    · exact hrow
    · exact h.triggered t hold

theorem Core.Kept.backfill (h : core.Kept log) {id : ℕ} {pks : List Bytes}
    (hrow : (core.registry id).isSome = true ∨ pks = []) : (core.backfill site id pks).Kept log := by
  constructor
  · constructor
    · intro i q hq
      rcases Tables.fill_registered hq with hold | ⟨rfl, hne⟩
      · exact h.queued i q hold
      · exact hrow.resolve_right hne
    · intro v w hw
      rw [Core.backfill] at hw
      dsimp only at hw
      rw [Tables.fill_windows] at hw
      exact h.windowed v w hw
  · exact h.fresh
  · exact h.minted
  · exact h.named
  · exact h.triggered

/-- What a statement of a create does to the registry. -/
inductive Core.Creates (site : CreateSite) (args : CreateArgs) (core : Core) : CreatePoint → Core → CreatePoint → Prop where
  | rest {point point' : CreatePoint} (hpoint : ∀ event id, point' ≠ .createTrigger event id) :
      Creates site args core point core point'
  | addRow {pkCol : String} {isVector : Bool} : Creates site args core (.insertRow pkCol isVector)
      (core.addRow site args pkCol isVector) (.createTrigger .insert core.nextVectorizer)
  | addTrigger {event : TriggerEvent} {id : ℕ} {point' : CreatePoint}
      (hpoint : ∀ event' id', point' = .createTrigger event' id' → id' = id) :
      Creates site args core (.createTrigger event id)
        { core with triggers := args.trigger event id :: core.triggers } point'
  | backfill {id : ℕ} {pks : List Bytes} (hrow : (core.registry id).isSome = true ∨ pks = []) :
      Creates site args core (.backfill id) (core.backfill site id pks) (.finish id)

theorem Core.creates_of_create {args : CreateArgs} {ch : CreateChoice} {point point' : CreatePoint}
    (h : core.create site args (core.admits ch point) point = some (core', point')) :
    core.Creates site args point core' point' := by
  cases point with
  | check =>
    rw [create] at h
    split at h <;> cases h <;> exact .rest fun event id heq => by cases heq
  | insertRow pkCol isVector =>
    rw [create] at h
    split at h <;> cases h
    · exact .addRow
    · exact .rest fun event id heq => by cases heq
  | createTrigger event id =>
    rw [create] at h
    split at h <;> cases h
    · apply Creates.addTrigger
      intro event' id' hpoint
      cases event with
      | insert =>
        cases hpoint
        rfl
      | update => cases hpoint
    · exact .rest fun event id heq => by cases heq
  | backfill id =>
    rw [create] at h
    split at h
    · cases h
      exact .rest fun event id heq => by cases heq
    · rename_i hok
      split at h <;> cases h
      apply Creates.backfill
      simpa [admits] using (Bool.and_eq_true_iff.mp (not_not.mp hok)).2
  | finish id =>
    cases h
    exact .rest fun event id heq => by cases heq
  | returned | raised => cases h

theorem Routine.making_create {user : String} {args : CreateArgs} {point : CreatePoint} {id : ℕ} :
    (Routine.create user args point).making = some id ↔ ∃ event, point = .createTrigger event id := by
  cases point <;> simp [making]

theorem Life.Kept.create (h : s.Kept log) {k : ℕ} {user : String} {args : CreateArgs} {point point' : CreatePoint}
    (hr : s.routines k = some (.create user args point)) (hstep : s.core.Creates site args point core' point') :
    (s.put core' k (.create user args point')).Kept (log ++ []) := by
  have hquiet {core' : Core} {p : CreatePoint} (hp : ∀ event id, p ≠ .createTrigger event id) :
      (Routine.create user args p).Kept core' s.Idle (log ++ []) := by
    apply Routine.Kept.of_not _ fun id p heq => by cases heq
    apply Option.eq_none_iff_forall_ne_some.mpr
    intro id hid
    obtain ⟨event, rfl⟩ := Routine.making_create.mp hid
    exact hp event id rfl
  cases hstep with
  | rest hpoint =>
    apply h.put hr (h.core.append []) (hquiet hpoint) _ le_rfl (fun id _ => .inl rfl) (fun t ht => .inl ht)
    intro id hid
    obtain ⟨event, rfl⟩ := Routine.making_create.mp hid
    exact absurd rfl (hpoint event id)
  | @addRow pkCol isVector =>
    apply h.put hr ((h.core.addRow args pkCol isVector).append []) _ _ (Nat.le_succ _)
    · intro id hid
      exact .inl (Core.addRow_registry args pkCol isVector hid.ne)
    · exact fun t ht => .inl ht
    · constructor
      · intro id hid
        obtain ⟨event, heq⟩ := Routine.making_create.mp hid
        cases heq
        exact ⟨Nat.lt_succ_self _, .inl (Core.addRow_isSome args pkCol isVector)⟩
      · intro id p heq
        cases heq
    · intro id hid
      obtain ⟨event, heq⟩ := Routine.making_create.mp hid
      cases heq
      exact .inr le_rfl
  | @addTrigger event id point' hpoint =>
    have hmaking : (Routine.create user args (.createTrigger event id)).making = some id := rfl
    obtain ⟨hmint, hrow⟩ := (h.routines k _ hr).2.making id hmaking
    apply h.put hr ((h.core.addTrigger args event hmint hrow).append []) _ _ le_rfl (fun id _ => .inl rfl)
    · intro t ht
      rcases List.mem_cons.mp ht with rfl | hold
      · exact .inr hmaking
      · exact .inl hold
    · constructor
      · intro id' hid
        obtain ⟨event', heq⟩ := Routine.making_create.mp hid
        obtain rfl := hpoint event' id' heq
        exact ⟨hmint, hrow.imp_right (List.mem_append_left [])⟩
      · intro id p heq
        cases heq
    · intro id' hid
      obtain ⟨event', heq⟩ := Routine.making_create.mp hid
      obtain rfl := hpoint event' id' heq
      exact .inl hmaking
  | @backfill id pks hrow =>
    apply h.put hr ((h.core.backfill hrow).append []) (hquiet fun event id heq => by cases heq) _ le_rfl (fun id _ => .inl rfl) (fun t ht => .inl ht)
    intro id' hid
    obtain ⟨event, heq⟩ := Routine.making_create.mp hid
    cases heq

/-! ### The statements of the drop -/

theorem Core.Kept.dropTrigger (h : core.Kept log) (id : ℕ) (event : TriggerEvent) : (core.dropTrigger id event).Kept log := by
  have hsub {t : Trigger} (ht : t ∈ (core.dropTrigger id event).triggers) : t ∈ core.triggers := (List.mem_filter.mp ht).1
  constructor
  · exact ⟨h.queued, h.windowed⟩
  · exact h.fresh
  · exact fun t ht => h.minted t (hsub ht)
  · exact fun t ht => h.named t (hsub ht)
  · exact fun t ht => h.triggered t (hsub ht)

theorem Core.deleteRow_registry (core : Core) {id v : ℕ} (hv : v ≠ id) : (core.deleteRow id).registry v = core.registry v :=
  Function.update_of_ne hv _ _

theorem Core.deleteRow_self (core : Core) (id : ℕ) : (core.deleteRow id).registry id = none := Function.update_self ..

theorem Core.Kept.deleteRow (h : core.Kept log) {id : ℕ}
    (hclear : .overtaken id ∈ log ∨ ∀ t ∈ core.triggers, t.vectorizer ≠ id) : (core.deleteRow id).Kept log := by
  constructor
  · constructor
    · intro i q hq
      obtain ⟨hold, hne⟩ := Option.filter_eq_some_iff.mp hq
      rw [core.deleteRow_registry (of_decide_eq_true hne)]
      exact h.queued i q hold
    · intro v w hw
      have hne : v ≠ id := by
        rintro rfl
        rw [Core.deleteRow] at hw
        dsimp only at hw
        rw [Function.update_self] at hw
        cases hw
      rw [core.deleteRow_registry hne]
      rw [Core.deleteRow] at hw
      dsimp only at hw
      rw [Function.update_of_ne hne] at hw
      exact h.windowed v w hw
  · intro v hv
    by_cases hne : v = id
    · rw [hne]
      exact core.deleteRow_self id
    · rw [core.deleteRow_registry hne]
      exact h.fresh v hv
  · exact h.minted
  · exact h.named
  · intro t ht
    by_cases hne : t.vectorizer = id
    · rw [hne]
      exact .inr (hclear.resolve_right fun hall => hall t ht hne)
    · rw [core.deleteRow_registry hne]
      exact h.triggered t ht

/-- What a statement of a drop does to the registry. -/
inductive Core.Drops (core : Core) (id : ℕ) : DropPoint → Core → DropPoint → Prop where
  | raise {point : DropPoint} {r : Raise} : Drops core id point core (.raised r)
  | found (hrow : (core.registry id).isSome = true) : Drops core id .check core (.dropTrigger .insert)
  | dropInsert : Drops core id (.dropTrigger .insert) (core.dropTrigger id .insert) (.dropTrigger .update)
  | dropUpdate : Drops core id (.dropTrigger .update) (core.dropTrigger id .update) .deleteRow
  | deleteRow : Drops core id .deleteRow (core.deleteRow id) .returned

theorem Core.drops_of_drop {ok : Bool} {id : ℕ} {point point' : DropPoint}
    (h : core.drop ok id point = some (core', point')) : core.Drops id point core' point' := by
  cases point with
  | check =>
    rw [drop] at h
    split_ifs at h with hok hrow <;> cases h
    · exact .raise
    · apply Drops.found
      rwa [← Option.not_isNone, Bool.not_eq_true', ← Bool.not_eq_true]
    · exact .raise
  | dropTrigger event =>
    rw [drop] at h
    split at h <;> cases h
    · cases event with
      | insert => exact .dropInsert
      | update => exact .dropUpdate
    · exact .raise
  | deleteRow =>
    rw [drop] at h
    split at h <;> cases h
    · exact .deleteRow
    · exact .raise
  | returned | raised => cases h

/-- The trigger of an event is gone behind its DROP. -/
theorem Core.Kept.dropped (h : core.Kept log) {id : ℕ} {event : TriggerEvent} {t : Trigger}
    (ht : t ∈ (core.dropTrigger id event).triggers) (hid : t.vectorizer = id) : t.event ≠ event := by
  obtain ⟨hmem, hname⟩ := List.mem_filter.mp ht
  rintro rfl
  apply of_decide_eq_true hname
  rw [h.named t hmem, hid]

theorem Life.Kept.drop (h : s.Kept log) {k id : ℕ} {point point' : DropPoint} (hr : s.routines k = some (.drop id point))
    (hstep : s.core.Drops id point core' point') : (s.put core' k (.drop id point')).Kept
      (log ++ if point' = .dropTrigger .insert ∧ s.making id then [.overtaken id] else []) := by
  have hmaking (p : DropPoint) (v : ℕ) (hv : (Routine.drop id p).making = some v) :
      (Routine.drop id point).making = some v ∨ s.core.nextVectorizer ≤ v := by cases hv
  have hself {core : Core} {p : DropPoint} {log : List LifeEvent} (hmint : id < core.nextVectorizer)
      (hgone : p = .returned → core.registry id = none)
      (hclear : .overtaken id ∈ log ∨ s.Idle id ∧ ∀ t ∈ core.triggers, t.vectorizer = id → p.leaves t.event = true) :
      (Routine.drop id p).Kept core s.Idle log := by
    constructor
    · intro v hv
      cases hv
    · intro v q heq _
      cases heq
      exact ⟨hmint, hgone, hclear⟩
  have hat (hfound : point.found = true) := (h.routines k _ hr).2.dropping id point rfl hfound
  cases hstep with
  | raise =>
    apply h.put hr (h.core.append _) _ (hmaking _) le_rfl (fun id _ => .inl rfl) (fun t ht => .inl ht)
    apply Routine.Kept.of_not rfl
    intro v p heq
    cases heq
    rfl
  | found hrow =>
    apply h.put hr (h.core.append _) _ (hmaking _) le_rfl (fun id _ => .inl rfl) (fun t ht => .inl ht)
    have hmint : id < s.core.nextVectorizer := by
      by_contra hge
      rw [h.core.fresh id (not_lt.mp hge)] at hrow
      cases hrow
    apply hself hmint (fun heq => by cases heq)
    cases hany : s.making id with
    | true =>
      rw [if_pos ⟨rfl, rfl⟩]
      exact .inl (List.mem_append_right log (List.mem_singleton_self _))
    | false => exact .inr ⟨(Life.making_iff fun k r hr => (h.routines k r hr).1).mp hany, fun t ht hid => rfl⟩
  | dropInsert =>
    obtain ⟨hmint, -, hclear⟩ := hat rfl
    apply h.put hr ((h.core.dropTrigger id .insert).append _) _ (hmaking _) le_rfl (fun id _ => .inl rfl)
      (fun t ht => .inl (List.mem_filter.mp ht).1)
    refine hself hmint (fun heq => by cases heq) ?_
    apply hclear.imp (List.mem_append_left _)
    rintro ⟨hidle, -⟩
    refine ⟨hidle, fun t ht hid => ?_⟩
    have hne := h.core.dropped ht hid
    cases hevent : t.event with
    | insert => exact absurd hevent hne
    | update => rfl
  | dropUpdate =>
    obtain ⟨hmint, -, hclear⟩ := hat rfl
    apply h.put hr ((h.core.dropTrigger id .update).append _) _ (hmaking _) le_rfl (fun id _ => .inl rfl)
      (fun t ht => .inl (List.mem_filter.mp ht).1)
    refine hself hmint (fun heq => by cases heq) ?_
    apply hclear.imp (List.mem_append_left _)
    rintro ⟨hidle, hleaves⟩
    refine ⟨hidle, fun t ht hid => ?_⟩
    have hupdate := hleaves t (List.mem_filter.mp ht).1 hid
    exact absurd (of_decide_eq_true hupdate) (h.core.dropped ht hid)
  | deleteRow =>
    obtain ⟨hmint, -, hclear⟩ := hat rfl
    have hnone : .overtaken id ∈ log ∨ ∀ t ∈ s.core.triggers, t.vectorizer ≠ id := by
      apply hclear.imp_right
      intro hnot t ht hid
      cases hnot.2 t ht hid
    have hgone (v : ℕ) : (s.core.deleteRow id).registry v = s.core.registry v ∨
        (s.core.deleteRow id).registry v = none ∧ (.overtaken v ∈ log ++ [] ∨ s.Idle v) := by
      by_cases hv : v = id
      · rw [hv]
        exact .inr ⟨s.core.deleteRow_self id, hclear.imp (List.mem_append_left _) And.left⟩
      · exact .inl (s.core.deleteRow_registry hv)
    apply h.put hr ((h.core.deleteRow hnone).append _) _ (hmaking _) le_rfl (fun v _ => hgone v) (fun t ht => .inl ht)
    refine hself hmint (fun _ => s.core.deleteRow_self id) ?_
    exact hclear.imp_left (List.mem_append_left _)

/-! ### The runs -/

theorem Life.Kept.start (h : core.Kept []) : Life.Kept { core } [] := ⟨h, fun k r hr => by cases hr⟩

/-- A step that leaves the calls, the registry and the triggers alone. -/
theorem Life.Kept.of_refers (h : s.Kept log) (hrefers : core'.Refers) (hregistry : core'.registry = s.core.registry)
    (htriggers : core'.triggers = s.core.triggers) (hnext : core'.nextVectorizer = s.core.nextVectorizer) :
    Life.Kept { s with core := core' } (log ++ []) := by
  rw [List.append_nil]
  constructor
  · constructor
    · exact hrefers
    · rw [hregistry, hnext]
      exact h.core.fresh
    · rw [htriggers, hnext]
      exact h.core.minted
    · rw [htriggers]
      exact h.core.named
    · rw [htriggers, hregistry]
      exact h.core.triggered
  · intro k r hr
    obtain ⟨hlt, hmaking, hdropping⟩ := h.routines k r hr
    refine ⟨hlt, ?_, ?_⟩
    · rw [hregistry, hnext]
      exact hmaking
    · rw [hregistry, hnext, htriggers]
      exact hdropping

theorem Life.Kept.call (h : s.Kept log) {r : Routine} (hmaking : r.making = none)
    (hdropping : ∀ id p, r = .drop id p → p.found = false) : (s.call r).Kept (log ++ []) := by
  rw [List.append_nil]
  have hcases {j : ℕ} {q : Routine} (hq : (s.call r).routines j = some q) :
      j = s.nextRoutine ∧ q = r ∨ s.routines j = some q := by
    rw [Life.call] at hq
    dsimp only at hq
    by_cases hj : j = s.nextRoutine
    · rw [hj, Function.update_self] at hq
      exact .inl ⟨hj, (Option.some.inj hq).symm⟩
    · rw [Function.update_of_ne hj] at hq
      exact .inr hq
  refine ⟨h.core, fun j q hq => ?_⟩
  rcases hcases hq with ⟨rfl, rfl⟩ | hold
  · exact ⟨Nat.lt_succ_self _, .of_not hmaking hdropping⟩
  · obtain ⟨hlt, hkept⟩ := h.routines j q hold
    refine ⟨hlt.trans (Nat.lt_succ_self _), hkept.making, fun id p hp hfound => ?_⟩
    obtain ⟨hmint, hgone, hclear⟩ := hkept.dropping id p hp hfound
    refine ⟨hmint, hgone, hclear.imp_right fun hnot => ⟨fun i r' hr' hid => ?_, hnot.2⟩⟩
    rcases hcases hr' with ⟨-, rfl⟩ | hr'
    · rw [hmaking] at hid
      cases hid
    · exact hnot.1 i r' hr' hid

theorem Life.Kept.kill (h : s.Kept log) (k : ℕ) :
    Life.Kept { s with routines := Function.update s.routines k none } (log ++ []) := by
  rw [List.append_nil]
  have hold {j : ℕ} {q : Routine} (hq : Function.update s.routines k none j = some q) : s.routines j = some q := by
    by_cases hj : j = k
    · rw [hj, Function.update_self] at hq
      cases hq
    · rwa [Function.update_of_ne hj] at hq
  refine ⟨h.core, fun j q hq => ?_⟩
  obtain ⟨hlt, hkept⟩ := h.routines j q (hold hq)
  refine ⟨hlt, hkept.making, fun id p hp hfound => ?_⟩
  obtain ⟨hmint, hgone, hclear⟩ := hkept.dropping id p hp hfound
  exact ⟨hmint, hgone, hclear.imp_right fun hnot => ⟨fun i r hr => hnot.1 i r (hold hr), hnot.2⟩⟩

theorem Life.step_client {l : Label} (hl : ∀ c ch, l ≠ .call c ch) :
    s.step site (.client l) = (s.core.other site l).map fun r => ({ s with core := r.1 }, []) := by
  cases l with
  | call c ch => exact absurd rfl (hl c ch)
  | _ => rfl

theorem Life.Kept.step (h : s.Kept log) {s' : Life} {l : LifeLabel} {es : List LifeEvent}
    (hstep : s.step site l = some (s', es)) : s'.Kept (log ++ es) := by
  cases l with
  | create user args =>
    cases hstep
    exact h.call rfl fun id p heq => by cases heq
  | drop id =>
    cases hstep
    apply h.call rfl
    intro v p heq
    cases heq
    rfl
  | routine k ch =>
    obtain ⟨r, hr, hroutine⟩ := Option.bind_eq_some_iff.mp hstep
    cases r with
    | create user args point =>
      obtain ⟨⟨core', point'⟩, hcreate, heq⟩ := Option.map_eq_some_iff.mp hroutine
      cases heq
      exact h.create hr (Core.creates_of_create hcreate)
    | drop id point =>
      obtain ⟨⟨core', point'⟩, hdrop, heq⟩ := Option.map_eq_some_iff.mp hroutine
      cases heq
      exact h.drop hr (Core.drops_of_drop hdrop)
  | kill k =>
    cases hstep
    exact h.kill k
  | client l =>
    by_cases hl : ∃ c ch, l = .call c ch
    · obtain ⟨c, ch, rfl⟩ := hl
      cases hstep
    · have hcall (c : ℕ) (ch : Choice) (heq : l = .call c ch) : False := hl ⟨c, ch, heq⟩
      rw [Life.step_client hcall] at hstep
      obtain ⟨⟨core', es'⟩, hother, heq⟩ := Option.map_eq_some_iff.mp hstep
      cases heq
      obtain ⟨hrefers, hregistry, htriggers, hnext⟩ := h.core.toRefers.other hcall hother
      exact h.of_refers hrefers hregistry htriggers hnext
  | worker c ch vars =>
    obtain ⟨call, hcall, hworker⟩ := Option.bind_eq_some_iff.mp hstep
    obtain ⟨e, he, heq⟩ := Option.map_eq_some_iff.mp hworker
    cases heq
    obtain ⟨hqueued, hwindowed⟩ := Life.statement_refers h.core.toRefers he
    exact h.of_refers ⟨hqueued, hwindowed⟩ rfl rfl rfl

/-- What a vectorizer leaves behind: nothing that refers to it but the triggers of one whose creation
was overtaken. -/
structure Life.Sound (s : Life) (log : List LifeEvent) : Prop where
  queued : ∀ i q, s.core.system.tables.queue i = some q → (s.core.registry q.vectorizer).isSome = true
  windowed : ∀ v w, s.core.system.tables.windows v = some w → (s.core.registry v).isSome = true
  triggered : ∀ t ∈ s.core.triggers, (s.core.registry t.vectorizer).isSome = true ∨ .overtaken t.vectorizer ∈ log
  dropped : ∀ k id, s.routines k = some (.drop id .returned) → s.core.registry id = none ∧
    (∀ i q, s.core.system.tables.queue i = some q → q.vectorizer ≠ id) ∧ s.core.system.tables.windows id = none ∧
      (.overtaken id ∈ log ∨ ∀ t ∈ s.core.triggers, t.vectorizer ≠ id)

theorem Life.Kept.sound (h : s.Kept log) : s.Sound log where
  queued := h.core.queued
  windowed := h.core.windowed
  triggered := h.core.triggered
  dropped k id hr := by
    obtain ⟨-, hgone, hclear⟩ := (h.routines k _ hr).2.dropping id _ rfl rfl
    have hnone := hgone rfl
    refine ⟨hnone, fun i q hq hid => ?_, ?_, ?_⟩
    · have hrow := h.core.queued i q hq
      rw [hid, hnone] at hrow
      cases hrow
    · apply Option.eq_none_iff_forall_ne_some.mpr
      intro w hw
      have hrow := h.core.windowed id w hw
      rw [hnone] at hrow
      cases hrow
    · apply hclear.imp_right
      intro hnot t ht hid
      cases hnot.2 t ht hid

theorem Life.Kept.run {cfg final : Config Life LifeEvent} {labels : List LifeLabel} (h : cfg.state.Kept cfg.log)
    (hrun : exec (Life.step site) cfg labels = some final) : final.state.Kept final.log := by
  apply exec_invariant _ h hrun
  intro s log l s' es h hstep
  exact h.step hstep

/-- In every run, however the calls, the clients and the workers interleave. -/
theorem dropped_for_good (site : CreateSite) {start : Core} (hstart : start.Kept []) {labels : List LifeLabel}
    {final : Config Life LifeEvent} (hrun : exec (Life.step site) ⟨{ core := start }, []⟩ labels = some final) :
    final.state.Sound final.log :=
  (Life.Kept.run (Life.Kept.start hstart) hrun).sound

theorem emptyCore_kept : emptyCore.Kept [] where
  queued i q hq := by cases hq
  windowed v w hw := by cases hw
  fresh v _ := rfl
  minted t ht := by cases ht
  named t ht := by cases ht
  triggered t ht := by cases ht

/-- A vectorizer is created for a table with a row, and dropped before a worker comes to it. -/
def dropRun : List LifeLabel :=
  [.client (.insert 0 (ascii "1") (some (ascii "cat")) none), .create "ada" docsArgs, .routine 0 {}, .routine 0 {},
    .routine 0 {}, .routine 0 {}, .routine 0 { pks := [ascii "1"] }, .routine 0 {},
    .drop 0, .routine 1 {}, .routine 1 {}, .routine 1 {}, .routine 1 {}]

theorem dropped_for_good_docs : ∃ final : Config Life LifeEvent,
    exec (Life.step docsSite) ⟨{ core := emptyCore }, []⟩ dropRun = some final ∧ final.log = [] ∧
      final.state.core.nextVectorizer = 1 ∧ final.state.core.system.tables.nextId = 1 ∧ final.state.core.triggers = [] ∧
        final.state.Sound final.log := by
  have hany : (exec (Life.step docsSite) ⟨{ core := emptyCore }, []⟩ dropRun).any (fun c => decide
      (c.log = [] ∧ c.state.core.nextVectorizer = 1 ∧ c.state.core.system.tables.nextId = 1 ∧ c.state.core.triggers = [])) =
      true := by decide
  obtain ⟨final, hrun, hend⟩ := (Option.any_eq_true ..).mp hany
  obtain ⟨hlog, hnext, hid, htriggers⟩ := of_decide_eq_true hend
  exact ⟨final, hrun, hlog, hnext, hid, htriggers, dropped_for_good docsSite emptyCore_kept hrun⟩

/-! ### Triggers that were overtaken -/

theorem triggerName_inj {id id' : ℕ} {event event' : TriggerEvent} (h : triggerName id event = triggerName id' event') :
    id = id' := by
  have hsuffix (id : ℕ) (event : TriggerEvent) : ∃ tail : String, tail.toList.length = 4 ∧
      triggerName id event = "_fsql_vec_" ++ toString id ++ tail := by
    cases event with
    | insert => exact ⟨"_ins", rfl, rfl⟩
    | update => exact ⟨"_upd", rfl, rfl⟩
  obtain ⟨tail, hlen, heq⟩ := hsuffix id event
  obtain ⟨tail', hlen', heq'⟩ := hsuffix id' event'
  rw [heq, heq'] at h
  have hlist := congrArg String.toList h
  rw [String.toList_append, String.toList_append, String.toList_append, String.toList_append] at hlist
  obtain ⟨hfront, -⟩ := List.append_inj' hlist (hlen.trans hlen'.symm)
  have hdigits := List.append_cancel_left hfront
  rw [Nat.toString_eq_ofList_toDigits, Nat.toString_eq_ofList_toDigits, String.toList_ofList, String.toList_ofList] at hdigits
  rw [← Nat.ofDigitChars_ten_toDigits (n := id), hdigits, Nat.ofDigitChars_ten_toDigits]

/-- A trigger whose vectorizer is gone. Of the calls numbered from `n` on, no drop of it finds a row. -/
structure Life.Orphaned (n : ℕ) (t : Trigger) (s : Life) : Prop where
  stands : t ∈ s.core.triggers
  gone : s.core.registry t.vectorizer = none
  later : n ≤ s.nextRoutine
  alone : ∀ k p, s.routines k = some (.drop t.vectorizer p) →
    (∀ event, p ≠ .dropTrigger event) ∧ (n ≤ k → p.found = false)

variable {n : ℕ} {t : Trigger}

theorem Life.Orphaned.put (h : s.Orphaned n t) {k : ℕ} {r : Routine} (hstands : t ∈ core'.triggers)
    (hgone : core'.registry t.vectorizer = none)
    (hdrop : ∀ p, r = .drop t.vectorizer p → (∀ event, p ≠ .dropTrigger event) ∧ (n ≤ k → p.found = false)) :
    (s.put core' k r).Orphaned n t := by
  refine ⟨hstands, hgone, h.later, fun j p hj => ?_⟩
  rcases put_routines hj with ⟨rfl, heq⟩ | ⟨-, hold⟩
  · exact hdrop p heq.symm
  · exact h.alone j p hold

theorem Life.Orphaned.create (h : s.Orphaned n t) (hkept : s.Kept log) {k : ℕ} {user : String} {args : CreateArgs}
    {point point' : CreatePoint} (hstep : s.core.Creates site args point core' point') :
    (s.put core' k (.create user args point')).Orphaned n t := by
  have hdrop (p : DropPoint) (heq : Routine.create user args point' = .drop t.vectorizer p) :
      (∀ event, p ≠ .dropTrigger event) ∧ (n ≤ k → p.found = false) := by cases heq
  cases hstep with
  | rest | backfill => exact h.put h.stands h.gone hdrop
  | addTrigger => exact h.put (List.mem_cons_of_mem _ h.stands) h.gone hdrop
  | addRow =>
    refine h.put h.stands ?_ hdrop
    rw [Core.addRow_registry _ _ _ (hkept.core.minted t h.stands).ne]
    exact h.gone

theorem Life.Orphaned.drop (h : s.Orphaned n t) (hkept : s.Kept log) {k id : ℕ} {point point' : DropPoint}
    (hr : s.routines k = some (.drop id point)) (hstep : s.core.Drops id point core' point') :
    (s.put core' k (.drop id point')).Orphaned n t := by
  by_cases hid : id = t.vectorizer
  · subst hid
    obtain ⟨hnot, hlater⟩ := h.alone k point hr
    cases hstep with
    | raise =>
      apply h.put h.stands h.gone
      intro p heq
      cases heq
      exact ⟨fun event heq => (by cases heq), fun _ => rfl⟩
    | found hrow =>
      rw [h.gone] at hrow
      cases hrow
    | dropInsert | dropUpdate => exact absurd rfl (hnot _)
    | deleteRow =>
      refine h.put h.stands (s.core.deleteRow_self _) ?_
      intro p heq
      cases heq
      exact ⟨fun event heq => (by cases heq), fun hk => (by cases hlater hk)⟩
  · have hdrop (p : DropPoint) (heq : Routine.drop id point' = .drop t.vectorizer p) :
        (∀ event, p ≠ .dropTrigger event) ∧ (n ≤ k → p.found = false) := by
      cases heq
      exact absurd rfl hid
    have hstands (event : TriggerEvent) : t ∈ (s.core.dropTrigger id event).triggers := by
      apply List.mem_filter.mpr
      refine ⟨h.stands, decide_eq_true fun hname => ?_⟩
      rw [hkept.core.named t h.stands] at hname
      exact hid (triggerName_inj hname).symm
    cases hstep with
    | raise | found => exact h.put h.stands h.gone hdrop
    | dropInsert | dropUpdate => exact h.put (hstands _) h.gone hdrop
    | deleteRow =>
      refine h.put h.stands ?_ hdrop
      rw [s.core.deleteRow_registry (Ne.symm hid)]
      exact h.gone

theorem Life.Orphaned.of_core (h : s.Orphaned n t) (hregistry : core'.registry = s.core.registry)
    (htriggers : core'.triggers = s.core.triggers) : Life.Orphaned n t { s with core := core' } := by
  refine ⟨?_, ?_, h.later, h.alone⟩
  · rw [htriggers]
    exact h.stands
  · rw [hregistry]
    exact h.gone

theorem Life.Orphaned.call (h : s.Orphaned n t) {r : Routine} (hdrop : ∀ p, r = .drop t.vectorizer p → p = .check) :
    (s.call r).Orphaned n t := by
  refine ⟨h.stands, h.gone, h.later.trans (Nat.le_succ _), fun k p hk => ?_⟩
  rw [Life.call] at hk
  dsimp only at hk
  by_cases heq : k = s.nextRoutine
  · rw [heq, Function.update_self] at hk
    obtain rfl := hdrop p (Option.some.inj hk)
    exact ⟨fun event heq => (by cases heq), fun _ => rfl⟩
  · rw [Function.update_of_ne heq] at hk
    exact h.alone k p hk

theorem Life.Orphaned.step (h : s.Orphaned n t) (hkept : s.Kept log) {s' : Life} {l : LifeLabel} {es : List LifeEvent}
    (hstep : s.step site l = some (s', es)) : s'.Orphaned n t := by
  cases l with
  | create user args =>
    cases hstep
    exact h.call fun p heq => by cases heq
  | drop id =>
    cases hstep
    apply h.call
    intro p heq
    cases heq
    rfl
  | routine k ch =>
    obtain ⟨r, hr, hroutine⟩ := Option.bind_eq_some_iff.mp hstep
    cases r with
    | create user args point =>
      obtain ⟨⟨core', point'⟩, hcreate, heq⟩ := Option.map_eq_some_iff.mp hroutine
      cases heq
      exact h.create hkept (Core.creates_of_create hcreate)
    | drop id point =>
      obtain ⟨⟨core', point'⟩, hdrop, heq⟩ := Option.map_eq_some_iff.mp hroutine
      cases heq
      exact h.drop hkept hr (Core.drops_of_drop hdrop)
  | kill k =>
    cases hstep
    refine ⟨h.stands, h.gone, h.later, fun j p hj => ?_⟩
    dsimp only at hj
    by_cases heq : j = k
    · rw [heq, Function.update_self] at hj
      cases hj
    · rw [Function.update_of_ne heq] at hj
      exact h.alone j p hj
  | client l =>
    by_cases hl : ∃ c ch, l = .call c ch
    · obtain ⟨c, ch, rfl⟩ := hl
      cases hstep
    · have hcall (c : ℕ) (ch : Choice) (heq : l = .call c ch) : False := hl ⟨c, ch, heq⟩
      rw [Life.step_client hcall] at hstep
      obtain ⟨⟨core', es'⟩, hother, heq⟩ := Option.map_eq_some_iff.mp hstep
      cases heq
      obtain ⟨-, hregistry, htriggers, -⟩ := hkept.core.toRefers.other hcall hother
      exact h.of_core hregistry htriggers
  | worker c ch vars =>
    obtain ⟨call, hcall, hworker⟩ := Option.bind_eq_some_iff.mp hstep
    obtain ⟨e, he, heq⟩ := Option.map_eq_some_iff.mp hworker
    cases heq
    exact h.of_core rfl rfl

/-- A trigger that is there while its vectorizer is not, and while no drop is about to take it away, stays in
every run: each later drop finds no vectorizer and raises. Nothing is ever queued by it. -/
theorem orphaned_trigger_stays (site : CreateSite) {start : Core} (hstart : start.Kept []) {front rest : List LifeLabel}
    {mid final : Config Life LifeEvent} (hfront : exec (Life.step site) ⟨{ core := start }, []⟩ front = some mid)
    (hstands : t ∈ mid.state.core.triggers) (hgone : mid.state.core.registry t.vectorizer = none)
    (halone : ∀ k event, mid.state.routines k ≠ some (.drop t.vectorizer (.dropTrigger event)))
    (hrest : exec (Life.step site) mid rest = some final) :
    t ∈ final.state.core.triggers ∧ (∀ i q, final.state.core.system.tables.queue i = some q → q.vectorizer ≠ t.vectorizer) ∧
      ∀ k, mid.state.nextRoutine ≤ k → final.state.routines k ≠ some (.drop t.vectorizer .returned) := by
  have hmid := Life.Kept.run (Life.Kept.start hstart) hfront
  have horphaned : mid.state.Orphaned mid.state.nextRoutine t := by
    refine ⟨hstands, hgone, le_rfl, fun k p hk => ⟨fun event hp => ?_, fun hle => ?_⟩⟩
    · rw [hp] at hk
      exact halone k event hk
    · have hlt := (hmid.routines k _ hk).1
      omega
  have hboth : final.state.Kept final.log ∧ final.state.Orphaned mid.state.nextRoutine t := by
    apply exec_invariant (I := fun s log => s.Kept log ∧ s.Orphaned mid.state.nextRoutine t) _ ⟨hmid, horphaned⟩ hrest
    intro s log l s' es h hstep
    exact ⟨h.1.step hstep, h.2.step h.1 hstep⟩
  obtain ⟨hkept, hstill⟩ := hboth
  refine ⟨hstill.stands, fun i q hq hid => ?_, fun k hk hret => ?_⟩
  · have hrow := hkept.core.queued i q hq
    rw [hid, hstill.gone] at hrow
    cases hrow
  · cases (hstill.alone k _ hret).2 hk

/-- A drop between the INSERT of a create and its first CREATE TRIGGER. -/
def overtakenRun : List LifeLabel :=
  [.create "ada" docsArgs, .routine 0 {}, .routine 0 {}, .drop 0, .routine 1 {}, .routine 1 {}, .routine 1 {}, .routine 1 {},
    .routine 0 {}, .routine 0 {}]

/-- The next drop, and a write that fires the trigger. -/
def afterRun : List LifeLabel :=
  [.drop 0, .routine 2 {}, .client (.insert 0 (ascii "1") (some (ascii "cat")) none)]

def Routine.isRunning : Routine → Bool
  | .drop _ (.dropTrigger _) => true
  | _ => false

theorem orphaned_trigger_stays_docs : ∃ mid final : Config Life LifeEvent,
    exec (Life.step docsSite) ⟨{ core := emptyCore }, []⟩ overtakenRun = some mid ∧ mid.log = [.overtaken 0] ∧
      exec (Life.step docsSite) mid afterRun = some final ∧ docsArgs.trigger .insert 0 ∈ final.state.core.triggers ∧
        (∀ i q, final.state.core.system.tables.queue i = some q → q.vectorizer ≠ 0) ∧
          ∀ k, mid.state.nextRoutine ≤ k → final.state.routines k ≠ some (.drop 0 .returned) := by
  have hany : (exec (Life.step docsSite) ⟨{ core := emptyCore }, []⟩ overtakenRun).any (fun c => decide
      (c.log = [.overtaken 0] ∧ docsArgs.trigger .insert 0 ∈ c.state.core.triggers ∧ (c.state.core.registry 0).isNone = true ∧
        c.state.nextRoutine = 2 ∧ (List.range 2).all (fun k => !(c.state.routines k).any Routine.isRunning) = true ∧
          (exec (Life.step docsSite) c afterRun).isSome = true)) = true := by decide
  obtain ⟨mid, hfront, hend⟩ := (Option.any_eq_true ..).mp hany
  obtain ⟨hlog, hstands, hgone, hnext, hrunning, hafter⟩ := of_decide_eq_true hend
  obtain ⟨final, hrest⟩ := Option.isSome_iff_exists.mp hafter
  have hmid := Life.Kept.run (Life.Kept.start emptyCore_kept) hfront
  have halone (k : ℕ) (event : TriggerEvent) : mid.state.routines k ≠ some (.drop 0 (.dropTrigger event)) := by
    intro hk
    have hlt := (hmid.routines k _ hk).1
    rw [hnext] at hlt
    have hnot := List.all_eq_true.mp hrunning k (List.mem_range.mpr hlt)
    rw [hk] at hnot
    cases hnot
  obtain ⟨hstill, hqueue, hlater⟩ := orphaned_trigger_stays docsSite emptyCore_kept hfront hstands
    (Option.isNone_iff_eq_none.mp hgone) halone hrest
  exact ⟨mid, final, hfront, hlog, hrest, hstill, hqueue, hlater⟩

end FractalSQL.Vectorizer
