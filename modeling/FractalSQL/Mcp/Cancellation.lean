import FractalSQL.Mcp.ToolCalls

/-!
# What a cancel hits

An id leaves `cancelledIds_` only with the end of a call that carries it, and `KILL QUERY`
is aimed at the connection. Where every cancel names a call in flight, no cancelled call
is turned away by the gate, and no `KILL QUERY` finds another call with the connection, a
cancel hits the call it names and no other.
-/
namespace FractalSQL.Mcp.Server
open Lib

/-- Cancellation hits exactly the call it names, and leaves nothing behind. -/
structure State.CancelsExactly (s : State) (log : List Event) : Prop where
  withheld : ∀ (n : ℕ) (c : Call) (o : Outcome), s.calls[n]? = some c → c.phase = .ended o → (o = .withheld ↔ .cancelled (some n) ∈ log)
  interrupts : ∀ victim named, .interrupted victim named ∈ log → named = some victim
  idle : (∀ c ∈ s.calls, c.phase.inFlight = false) → s.inflightIds = ∅ ∧ s.cancelledIds = ∅

/-- The condition on a step. -/
def Aimed (s : State) (_ : List Event) : Label → Prop
  | .cancel id => id ∈ s.inflightIds
  | .drop n => ∀ c ∈ s.calls[n]?, c.id ∉ s.cancelledIds
  | .kill k _ => ∀ named ∈ s.kills[k]?, s.db.holder = none ∨ s.db.holder = named
  | _ => True

instance (s : State) (log : List Event) : (a : Label) → Decidable (Aimed s log a)
  | .cancel id => inferInstanceAs (Decidable (id ∈ s.inflightIds))
  | .drop n => inferInstanceAs (Decidable (∀ c ∈ s.calls[n]?, c.id ∉ s.cancelledIds))
  | .kill k _ => inferInstanceAs (Decidable (∀ named ∈ s.kills[k]?, s.db.holder = none ∨ s.db.holder = named))
  | .arrive _ | .check _ _ | .gate _ _ | .enter _ | .lock _ | .execute _ | .executed _ | .unlock _
  | .handled _ _ | .finish _ => isTrue trivial

/-! ### The sets and the calls -/

/-- The call `n` is in flight under `id`. -/
def State.At (s : State) (n : ℕ) (id : Bytes) : Prop :=
  ∃ c, s.calls[n]? = some c ∧ c.id = id ∧ c.phase.inFlight = true

/-- The sets hold the ids they are to hold, and the log tells which calls were cancelled. -/
structure Tracked (s : State) (log : List Event) : Prop where
  inflight : ∀ id, id ∈ s.inflightIds ↔ ∃ n, s.At n id
  unique : ∀ (m n : ℕ) (c d : Call), s.calls[m]? = some c → s.calls[n]? = some d → c.phase.live = true → d.phase.live = true →
    c.id = d.id → m = n
  within : ∀ id ∈ s.cancelledIds, id ∈ s.inflightIds
  hit : ∀ n id, s.At n id → (.cancelled (some n) ∈ log ↔ id ∈ s.cancelledIds)
  begun : ∀ n, .cancelled (some n) ∈ log → ∃ c : Call, s.calls[n]? = some c ∧ c.phase ≠ .arrived
  outcome : ∀ (n : ℕ) (c : Call) (o : Outcome), s.calls[n]? = some c → c.phase = .ended o → (o = .withheld ↔ .cancelled (some n) ∈ log)

theorem Phase.live_of_inFlight {p : Phase} (h : p.inFlight = true) : p.live = true := by
  cases p with
  | ended o => cases h
  | _ => rfl

theorem calls_moveTo {s : State} {n m : ℕ} {c d : Call} {p : Phase} (hc : s.calls[n]? = some c) :
    (s.moveTo n c p).calls[m]? = some d ↔ m = n ∧ d = { c with phase := p } ∨ m ≠ n ∧ s.calls[m]? = some d := by
  obtain ⟨hn, -⟩ := List.getElem?_eq_some_iff.mp hc
  rw [State.moveTo, List.getElem?_set]
  by_cases hmn : n = m
  · subst hmn
    simp [hn, eq_comm]
  · simp [hmn, Ne.symm hmn]

theorem at_moveTo {s : State} {n m : ℕ} {c : Call} {p : Phase} {id : Bytes} (hc : s.calls[n]? = some c) :
    (s.moveTo n c p).At m id ↔ m = n ∧ c.id = id ∧ p.inFlight = true ∨ m ≠ n ∧ s.At m id := by
  constructor
  · rintro ⟨d, hd, rfl, hp⟩
    obtain ⟨rfl, rfl⟩ | ⟨hmn, hd⟩ := (calls_moveTo hc).mp hd
    · exact .inl ⟨rfl, rfl, hp⟩
    · exact .inr ⟨hmn, d, hd, rfl, hp⟩
  · rintro (⟨rfl, rfl, hp⟩ | ⟨hmn, d, hd, rfl, hp⟩)
    · exact ⟨_, (calls_moveTo hc).mpr (.inl ⟨rfl, rfl⟩), rfl, hp⟩
    · exact ⟨d, (calls_moveTo hc).mpr (.inr ⟨hmn, hd⟩), rfl, hp⟩

theorem At.unique {s : State} {log : List Event} (h : Tracked s log) {m n : ℕ} {id : Bytes} (hm : s.At m id)
    (hn : s.At n id) : m = n := by
  obtain ⟨c, hc, hid, hp⟩ := hm
  obtain ⟨d, hd, hid', hp'⟩ := hn
  exact h.unique m n c d hc hd (Phase.live_of_inFlight hp) (Phase.live_of_inFlight hp') (hid.trans hid'.symm)

theorem named_of_at {s : State} {log : List Event} (h : Tracked s log) {n : ℕ} {id : Bytes} (hn : s.At n id) :
    s.named id = some n := by
  cases hf : s.named id with
  | none =>
    obtain ⟨c, hc, hid, hp⟩ := hn
    have hnone := List.findIdx?_eq_none_iff.mp hf c (List.mem_of_getElem? hc)
    simp [hid, hp] at hnone
  | some m =>
    obtain ⟨hlt, hm, -⟩ := List.findIdx?_eq_some_iff_getElem.mp hf
    have hm' := of_decide_eq_true hm
    have hat : s.At m id := ⟨s.calls[m], List.getElem?_eq_getElem hlt, hm'.1, hm'.2⟩
    rw [At.unique h hat hn]

/-! ### The steps -/

/-- The calls of `s'` without a reply are calls of `s` under their old ids. -/
theorem unique_moveTo {s : State} {log : List Event} (h : Tracked s log) {n : ℕ} {c : Call} {p : Phase}
    (hc : s.calls[n]? = some c) (hlive : p.live = true → c.phase.live = true) :
    ∀ (m k : ℕ) (d e : Call), (s.moveTo n c p).calls[m]? = some d → (s.moveTo n c p).calls[k]? = some e → d.phase.live = true →
      e.phase.live = true → d.id = e.id → m = k := by
  intro m k d e hd he hdl hel hid
  rw [calls_moveTo hc] at hd he
  obtain ⟨rfl, rfl⟩ | ⟨-, hd⟩ := hd
  · obtain ⟨rfl, rfl⟩ | ⟨-, he⟩ := he
    · rfl
    · exact h.unique m k c e hc he (hlive hdl) hel hid
  · obtain ⟨rfl, rfl⟩ | ⟨-, he⟩ := he
    · exact h.unique m k d c hd hc hdl (hlive hel) hid
    · exact h.unique m k d e hd he hdl hel hid

/-- A move within the flight. -/
theorem Tracked.moveTo {s : State} {log : List Event} (h : Tracked s log) {n : ℕ} {c : Call} {p : Phase}
    (hc : s.calls[n]? = some c) (hfrom : c.phase.inFlight = true) (hto : p.inFlight = true) :
    Tracked (s.moveTo n c p) log := by
  have hat : ∀ m id, (s.moveTo n c p).At m id ↔ s.At m id := by
    intro m id
    rw [at_moveTo hc]
    constructor
    · rintro (⟨rfl, hid, -⟩ | ⟨-, hm⟩)
      · exact ⟨c, hc, hid, hfrom⟩
      · exact hm
    · rintro ⟨d, hd, hid, hp⟩
      by_cases hmn : m = n
      · subst hmn
        cases hc.symm.trans hd
        exact .inl ⟨rfl, hid, hto⟩
      · exact .inr ⟨hmn, d, hd, hid, hp⟩
  refine ⟨?_, unique_moveTo h hc (fun _ => Phase.live_of_inFlight hfrom), h.within, ?_, ?_, ?_⟩
  · intro id
    rw [exists_congr (fun m => hat m id)]
    exact h.inflight id
  · intro m id hm
    exact h.hit m id ((hat m id).mp hm)
  · intro m hm
    by_cases hmn : m = n
    · subst hmn
      refine ⟨_, (calls_moveTo hc).mpr (.inl ⟨rfl, rfl⟩), ?_⟩
      rintro rfl
      cases hto
    · obtain ⟨d, hd, hp⟩ := h.begun m hm
      exact ⟨d, (calls_moveTo hc).mpr (.inr ⟨hmn, hd⟩), hp⟩
  · intro m d o hd ho
    obtain ⟨rfl, rfl⟩ | ⟨-, hd⟩ := (calls_moveTo hc).mp hd
    · subst ho
      cases hto
    · exact h.outcome m d o hd ho

/-- The call has not been cancelled before its admission. -/
theorem Tracked.not_cancelled {s : State} {log : List Event} (h : Tracked s log) {n : ℕ} {c : Call}
    (hc : s.calls[n]? = some c) (hp : c.phase = .arrived) : .cancelled (some n) ∉ log := by
  intro hn
  obtain ⟨d, hd, hd'⟩ := h.begun n hn
  cases hc.symm.trans hd
  exact hd' hp

theorem Tracked.refuse {s : State} {log : List Event} (h : Tracked s log) {n : ℕ} {c : Call}
    (hc : s.calls[n]? = some c) (hp : c.phase = .arrived) : Tracked (s.moveTo n c (.ended .refused)) log := by
  have hat : ∀ m id, (s.moveTo n c (.ended .refused)).At m id ↔ s.At m id := by
    intro m id
    rw [at_moveTo hc]
    constructor
    · rintro (⟨-, -, hf⟩ | ⟨-, hm⟩)
      · cases hf
      · exact hm
    · rintro ⟨d, hd, hid, hf⟩
      refine .inr ⟨?_, d, hd, hid, hf⟩
      rintro rfl
      cases hc.symm.trans hd
      rw [hp] at hf
      cases hf
  refine ⟨?_, unique_moveTo h hc (fun hf => nomatch hf), h.within, ?_, ?_, ?_⟩
  · intro id
    rw [exists_congr (fun m => hat m id)]
    exact h.inflight id
  · intro m id hm
    exact h.hit m id ((hat m id).mp hm)
  · intro m hm
    obtain ⟨d, hd, hd'⟩ := h.begun m hm
    refine ⟨d, (calls_moveTo hc).mpr (.inr ⟨?_, hd⟩), hd'⟩
    rintro rfl
    exact h.not_cancelled hc hp hm
  · intro m d o hd ho
    obtain ⟨rfl, rfl⟩ | ⟨-, hd⟩ := (calls_moveTo hc).mp hd
    · cases ho
      simp [h.not_cancelled hc hp]
    · exact h.outcome m d o hd ho

/-- No call in flight has the id of a call that is still to be admitted. -/
theorem Tracked.not_inflight {s : State} {log : List Event} (h : Tracked s log) {n : ℕ} {c : Call}
    (hc : s.calls[n]? = some c) (hp : c.phase = .arrived) : c.id ∉ s.inflightIds := by
  intro hid
  obtain ⟨m, d, hd, heq, hf⟩ := (h.inflight c.id).mp hid
  have hmn := h.unique m n d c hd hc (Phase.live_of_inFlight hf) (by rw [hp]; rfl) heq
  subst hmn
  cases hc.symm.trans hd
  rw [hp] at hf
  cases hf

theorem Tracked.admit {s : State} {log : List Event} (h : Tracked s log) {n : ℕ} {c : Call}
    (hc : s.calls[n]? = some c) (hp : c.phase = .arrived) :
    Tracked ({ s with inflightIds := insert c.id s.inflightIds }.moveTo n c .queued) log := by
  have hnew := h.not_inflight hc hp
  have hne : ∀ m id, s.At m id → m ≠ n := by
    rintro m id ⟨d, hd, -, hf⟩ rfl
    cases hc.symm.trans hd
    rw [hp] at hf
    cases hf
  have hat : ∀ m id, ({ s with inflightIds := insert c.id s.inflightIds }.moveTo n c .queued).At m id ↔
      m = n ∧ c.id = id ∨ s.At m id := by
    intro m id
    refine (at_moveTo hc).trans ⟨?_, ?_⟩
    · rintro (⟨hm, hid, -⟩ | ⟨-, hm⟩)
      · exact .inl ⟨hm, hid⟩
      · exact .inr hm
    · rintro (⟨hm, hid⟩ | hm)
      · exact .inl ⟨hm, hid, rfl⟩
      · exact .inr ⟨hne m id hm, hm⟩
  refine ⟨?_, unique_moveTo h hc (fun _ => by rw [hp]; rfl), ?_, ?_, ?_, ?_⟩
  · intro id
    change id ∈ insert c.id s.inflightIds ↔ _
    rw [exists_congr (fun m => hat m id), Finset.mem_insert, h.inflight id]
    constructor
    · rintro (rfl | ⟨m, hm⟩)
      · exact ⟨n, .inl ⟨rfl, rfl⟩⟩
      · exact ⟨m, .inr hm⟩
    · rintro ⟨m, ⟨-, rfl⟩ | hm⟩
      · exact .inl rfl
      · exact .inr ⟨m, hm⟩
  · intro id hid
    exact Finset.mem_insert_of_mem (h.within id hid)
  · intro m id hm
    obtain ⟨rfl, rfl⟩ | hm := (hat m id).mp hm
    · exact iff_of_false (h.not_cancelled hc hp) (fun hid => hnew (h.within _ hid))
    · exact h.hit m id hm
  · intro m hm
    obtain ⟨d, hd, hd'⟩ := h.begun m hm
    refine ⟨d, (calls_moveTo hc).mpr (.inr ⟨?_, hd⟩), hd'⟩
    rintro rfl
    exact h.not_cancelled hc hp hm
  · intro m d o hd ho
    obtain ⟨rfl, rfl⟩ | ⟨-, hd⟩ := (calls_moveTo hc).mp hd
    · cases ho
    · exact h.outcome m d o hd ho

/-- The end of a call takes its id out of both sets, or finds it in the first alone. -/
theorem Tracked.leave {s : State} {log : List Event} (h : Tracked s log) {n : ℕ} {c : Call} {o : Outcome}
    {ids : Finset Bytes} (hc : s.calls[n]? = some c) (hf : c.phase.inFlight = true)
    (hids : ids = s.cancelledIds.erase c.id) (ho : o = .withheld ↔ c.id ∈ s.cancelledIds) :
    Tracked ({ s with inflightIds := s.inflightIds.erase c.id, cancelledIds := ids }.moveTo n c (.ended o)) log := by
  subst hids
  have hown : s.At n c.id := ⟨c, hc, rfl, hf⟩
  have hat : ∀ m id, ({ s with
      inflightIds := s.inflightIds.erase c.id
      cancelledIds := s.cancelledIds.erase c.id }.moveTo n c (.ended o)).At m id ↔ id ≠ c.id ∧ s.At m id := by
    intro m id
    refine (at_moveTo hc).trans ⟨?_, ?_⟩
    · rintro (⟨-, -, hf'⟩ | ⟨hmn, hm⟩)
      · cases hf'
      · refine ⟨?_, hm⟩
        rintro rfl
        exact hmn (At.unique h hm hown)
    · rintro ⟨hid, hm⟩
      refine .inr ⟨?_, hm⟩
      rintro rfl
      obtain ⟨d, hd, rfl, -⟩ := hm
      cases hc.symm.trans hd
      exact hid rfl
  refine ⟨?_, unique_moveTo h hc (fun hf' => nomatch hf'), ?_, ?_, ?_, ?_⟩
  · intro id
    change id ∈ s.inflightIds.erase c.id ↔ _
    rw [exists_congr (fun m => hat m id), Finset.mem_erase, h.inflight id, exists_and_left]
  · intro id hid
    obtain ⟨hne, hid⟩ := Finset.mem_erase.mp hid
    exact Finset.mem_erase.mpr ⟨hne, h.within id hid⟩
  · intro m id hm
    obtain ⟨hne, hm⟩ := (hat m id).mp hm
    change _ ↔ id ∈ s.cancelledIds.erase c.id
    rw [h.hit m id hm, Finset.mem_erase, and_iff_right hne]
  · intro m hm
    obtain ⟨d, hd, hd'⟩ := h.begun m hm
    by_cases hmn : m = n
    · exact ⟨_, (calls_moveTo hc).mpr (.inl ⟨hmn, rfl⟩), fun hp => nomatch hp⟩
    · exact ⟨d, (calls_moveTo hc).mpr (.inr ⟨hmn, hd⟩), hd'⟩
  · intro m d o' hd ho'
    obtain ⟨rfl, rfl⟩ | ⟨-, hd⟩ := (calls_moveTo hc).mp hd
    · cases ho'
      rw [ho, h.hit m c.id hown]
    · exact h.outcome m d o' hd ho'

theorem Tracked.arrive {s : State} {log : List Event} (h : Tracked s log) {id : Bytes}
    (hfresh : ∀ c ∈ s.calls, c.id = id → c.phase.live = false) :
    Tracked { s with calls := s.calls ++ [⟨id, .arrived⟩] } log := by
  have hcalls : ∀ (m : ℕ) (d : Call), (s.calls ++ [⟨id, .arrived⟩])[m]? = some d →
      s.calls[m]? = some d ∨ m = s.calls.length ∧ d = ⟨id, .arrived⟩ := by
    intro m d hd
    rw [List.getElem?_append] at hd
    split at hd
    · exact .inl hd
    · rename_i hge
      obtain ⟨hlt, hd⟩ := List.getElem?_eq_some_iff.mp hd
      refine .inr ⟨?_, by simpa using hd.symm⟩
      simp only [List.length_singleton] at hlt
      omega
  have hold : ∀ {m : ℕ} {d : Call}, s.calls[m]? = some d → (s.calls ++ [⟨id, .arrived⟩])[m]? = some d := by
    intro m d hd
    rwa [List.getElem?_append_left (List.getElem?_eq_some_iff.mp hd).1]
  have hat : ∀ m id', State.At { s with calls := s.calls ++ [⟨id, .arrived⟩] } m id' ↔ s.At m id' := by
    intro m id'
    constructor
    · rintro ⟨d, hd, hid, hf⟩
      obtain hd | ⟨-, rfl⟩ := hcalls m d hd
      · exact ⟨d, hd, hid, hf⟩
      · cases hf
    · rintro ⟨d, hd, hid, hf⟩
      exact ⟨d, hold hd, hid, hf⟩
  refine ⟨?_, ?_, h.within, ?_, ?_, ?_⟩
  · intro id'
    rw [exists_congr (fun m => hat m id')]
    exact h.inflight id'
  · intro m k d e hd he hdl hel hid
    obtain hd | ⟨rfl, rfl⟩ := hcalls m d hd
    · obtain he | ⟨rfl, rfl⟩ := hcalls k e he
      · exact h.unique m k d e hd he hdl hel hid
      · rw [hfresh d (List.mem_of_getElem? hd) hid] at hdl
        cases hdl
    · obtain he | ⟨rfl, rfl⟩ := hcalls k e he
      · rw [hfresh e (List.mem_of_getElem? he) hid.symm] at hel
        cases hel
      · rfl
  · intro m id' hm
    exact h.hit m id' ((hat m id').mp hm)
  · intro m hm
    obtain ⟨d, hd, hd'⟩ := h.begun m hm
    exact ⟨d, hold hd, hd'⟩
  · intro m d o hd ho
    obtain hd | ⟨-, rfl⟩ := hcalls m d hd
    · exact h.outcome m d o hd ho
    · cases ho

theorem Tracked.cancel {s : State} {log : List Event} (h : Tracked s log) {id : Bytes} {kills : List (Option ℕ)}
    (hid : id ∈ s.inflightIds) :
    Tracked { s with cancelledIds := insert id s.cancelledIds, kills := kills }
      (log ++ [.cancelled (s.named id)]) := by
  obtain ⟨n, hn⟩ := (h.inflight id).mp hid
  rw [named_of_at h hn]
  have hlog : ∀ m, .cancelled (some m) ∈ log ++ [.cancelled (some n)] ↔ .cancelled (some m) ∈ log ∨ m = n := by
    simp
  refine ⟨h.inflight, h.unique, ?_, ?_, ?_, ?_⟩
  · intro id' hid'
    obtain rfl | hid' := Finset.mem_insert.mp hid'
    · exact hid
    · exact h.within id' hid'
  · intro m id' hm
    change _ ↔ id' ∈ insert id s.cancelledIds
    rw [hlog, h.hit m id' hm, Finset.mem_insert, or_comm]
    refine or_congr_left ?_
    constructor
    · rintro rfl
      obtain ⟨c, hc, rfl, -⟩ := hm
      obtain ⟨d, hd, rfl, -⟩ := hn
      cases hc.symm.trans hd
      rfl
    · rintro rfl
      exact At.unique h hm hn
  · intro m hm
    obtain hm | rfl := (hlog m).mp hm
    · exact h.begun m hm
    · obtain ⟨d, hd, -, hf⟩ := hn
      refine ⟨d, hd, ?_⟩
      intro hp
      rw [hp] at hf
      cases hf
  · intro m d o hd ho
    rw [hlog, h.outcome m d o hd ho, or_iff_left]
    rintro rfl
    obtain ⟨e, he, -, hf⟩ := hn
    cases hd.symm.trans he
    rw [ho] at hf
    cases hf

/-- A step that leaves the sets and the calls alone and reports no cancel. -/
theorem Tracked.keep {s s' : State} {log es : List Event} (h : Tracked s log) (hin : s'.inflightIds = s.inflightIds)
    (hca : s'.cancelledIds = s.cancelledIds) (hcalls : s'.calls = s.calls)
    (hes : ∀ n, .cancelled (some n) ∉ es) : Tracked s' (log ++ es) := by
  have hlog : ∀ n, .cancelled (some n) ∈ log ++ es ↔ .cancelled (some n) ∈ log := by
    simp [hes]
  have hat : s'.At = s.At := by
    funext n id
    rw [State.At, State.At, hcalls]
  constructor
  · simpa only [hin, hat] using h.inflight
  · simpa only [hcalls] using h.unique
  · simpa only [hin, hca] using h.within
  · simpa only [hat, hca, hlog] using h.hit
  · simpa only [hcalls, hlog] using h.begun
  · simpa only [hcalls, hlog] using h.outcome

/-! ### Runs -/

theorem Tracked.advance {s s' : State} {log : List Event} {n : ℕ} {c : Call} {a : Label} (h : Tracked s log)
    (ha : a.call = some n) (hc : s.calls[n]? = some c) (haimed : Aimed s log a) (hstep : s.advance n c a = some s') :
    Tracked s' log := by
  have hkeep : ∀ db : Db, Tracked { s with db := db } log := fun db => by
    simpa using @Tracked.keep s { s with db := db } log [] h rfl rfl rfl (by simp)
  cases a with
  | check m ok =>
    simp only [State.advance, Option.ite_none_right_eq_some] at hstep
    obtain ⟨hp, hstep⟩ := hstep
    cases ok with
    | true =>
      cases hstep
      exact h.admit hc hp
    | false =>
      cases hstep
      exact h.refuse hc hp
  | gate m ok =>
    simp only [State.advance, Option.ite_none_right_eq_some] at hstep
    obtain ⟨hp, hstep⟩ := hstep
    cases hstep
    exact h.moveTo hc (by rw [hp]; rfl) (by cases ok <;> rfl)
  | drop m =>
    cases ha
    simp only [State.advance, Option.ite_none_right_eq_some] at hstep
    obtain ⟨hp, hstep⟩ := hstep
    cases hstep
    have hnot : c.id ∉ s.cancelledIds := haimed c hc
    exact h.leave hc (by rw [hp]; rfl) (Finset.erase_eq_of_notMem hnot).symm (by simp [hnot])
  | enter m =>
    simp only [State.advance, Option.ite_none_right_eq_some] at hstep
    obtain ⟨hp, hstep⟩ := hstep
    cases hstep
    exact h.moveTo hc (by rw [hp]; rfl) rfl
  | lock m =>
    cases hp : c.phase with
    | handling ctxCancelled =>
      simp only [State.advance, hp, Option.ite_none_right_eq_some] at hstep
      obtain ⟨-, hstep⟩ := hstep
      cases hstep
      exact hkeep _
    | _ => simp [State.advance, hp] at hstep
  | execute m | executed m | unlock m =>
    simp only [State.advance, Option.ite_none_right_eq_some] at hstep
    obtain ⟨-, hstep⟩ := hstep
    cases hstep
    exact hkeep _
  | handled m ok =>
    cases hp : c.phase with
    | handling ctxCancelled =>
      simp only [State.advance, hp, Option.ite_none_left_eq_some] at hstep
      obtain ⟨-, hstep⟩ := hstep
      cases hstep
      exact h.moveTo hc (by rw [hp]; rfl) rfl
    | _ => simp [State.advance, hp] at hstep
  | finish m =>
    cases hp : c.phase with
    | returned isError =>
      simp only [State.advance, hp] at hstep
      cases hstep
      exact h.leave hc (by rw [hp]; rfl) rfl (by split <;> simp_all)
    | _ => simp [State.advance, hp] at hstep
  | arrive | cancel | kill => cases hstep

/-- A step of a call reports nothing. -/
theorem step_call {s s' : State} {es : List Event} {a : Label} {n : ℕ} (ha : a.call = some n)
    (hstep : s.step a = some (s', es)) : es = [] ∧ ∃ c, s.calls[n]? = some c ∧ s.advance n c a = some s' := by
  cases a <;> cases ha <;>
  · obtain ⟨c, hc, hmap⟩ := Option.bind_eq_some_iff.mp hstep
    obtain ⟨s'', hadv, heq⟩ := Option.map_eq_some_iff.mp hmap
    cases heq
    exact ⟨rfl, c, hc, hadv⟩

theorem Tracked.step {s s' : State} {log es : List Event} {a : Label} (h : Tracked s log) (haimed : Aimed s log a)
    (hstep : s.step a = some (s', es)) : Tracked s' (log ++ es) := by
  cases a with
  | arrive id =>
    rw [State.step] at hstep
    split at hstep
    · cases hstep
    · rename_i hfresh
      cases hstep
      rw [List.append_nil]
      refine h.arrive fun c hc hid => ?_
      rw [← Bool.not_eq_true]
      exact fun hlive => hfresh (List.any_eq_true.mpr ⟨c, hc, decide_eq_true ⟨hid, hlive⟩⟩)
  | cancel id =>
    cases hstep
    exact h.cancel haimed
  | kill k ok =>
    obtain ⟨named, -, heq⟩ := Option.map_eq_some_iff.mp hstep
    cases heq
    refine h.keep rfl rfl rfl fun n => ?_
    split
    · split <;> simp
    · simp
  | check | gate | drop | enter | lock | execute | executed | unlock | handled | finish =>
    obtain ⟨rfl, c, hc, hadv⟩ := step_call rfl hstep
    rw [List.append_nil]
    exact h.advance rfl hc haimed hadv

/-- What a step reports of interruptions. -/
theorem interrupted_of_step {s s' : State} {log es : List Event} {a : Label} (haimed : Aimed s log a)
    (hstep : s.step a = some (s', es)) : ∀ victim named, .interrupted victim named ∈ es → named = some victim := by
  intro victim named hmem
  cases a with
  | arrive id =>
    rw [State.step] at hstep
    split at hstep <;> cases hstep
    cases hmem
  | cancel id =>
    cases hstep
    simp at hmem
  | kill k ok =>
    obtain ⟨named', hk, heq⟩ := Option.map_eq_some_iff.mp hstep
    cases heq
    have hholder := haimed named' hk
    cases hdb : s.db.holder with
    | none => simp [hdb] at hmem
    | some holder =>
      simp only [hdb] at hmem hholder
      split at hmem
      · obtain ⟨rfl, rfl⟩ := by simpa using hmem
        simpa [eq_comm] using hholder
      · cases hmem
  | check | gate | drop | enter | lock | execute | executed | unlock | handled | finish =>
    obtain ⟨rfl, -⟩ := step_call rfl hstep
    cases hmem

theorem Tracked.idle {s : State} {log : List Event} (h : Tracked s log)
    (hidle : ∀ c ∈ s.calls, c.phase.inFlight = false) : s.inflightIds = ∅ ∧ s.cancelledIds = ∅ := by
  have hin : s.inflightIds = ∅ := by
    refine Finset.eq_empty_of_forall_notMem fun id hid => ?_
    obtain ⟨n, c, hc, -, hf⟩ := (h.inflight id).mp hid
    rw [hidle c (List.mem_of_getElem? hc)] at hf
    cases hf
  refine ⟨hin, Finset.eq_empty_of_forall_notMem fun id hid => ?_⟩
  have hmem := h.within id hid
  rw [hin] at hmem
  exact Finset.notMem_empty id hmem

/-- In a run of aimed steps a cancel hits the call it names. -/
theorem aimed_cancelsExactly {as : List Label} {c : Config State Event}
    (hmeet : StepsMeet State.step Aimed ⟨{}, []⟩ as) (hrun : exec State.step ⟨{}, []⟩ as = some c) :
    c.state.CancelsExactly c.log := by
  have hkept : Tracked c.state c.log ∧ ∀ victim named, .interrupted victim named ∈ c.log → named = some victim := by
    refine exec_invariant_of (I := fun s log => Tracked s log ∧
      ∀ victim named, .interrupted victim named ∈ log → named = some victim) ?_ hmeet ⟨?_, ?_⟩ hrun
    · intro s log a s' es hi hp hs
      refine ⟨hi.1.step hp hs, fun victim named hmem => ?_⟩
      obtain hmem | hmem := List.mem_append.mp hmem
      · exact hi.2 victim named hmem
      · exact interrupted_of_step hp hs victim named hmem
    · exact ⟨by simp [State.At], by simp, by simp, by simp, by simp, by simp⟩
    · simp
  exact ⟨hkept.1.outcome, hkept.2, hkept.1.idle⟩

/-! ### A cancel in time, and three that are not -/

/-- The steps of call `n` up to its statement. -/
def executing (n : ℕ) : List Label := [.check n true, .gate n true, .enter n, .lock n, .execute n]

/-- Its steps from there to the end. -/
def completing (n : ℕ) : List Label := [.executed n, .unlock n, .handled n true, .finish n]

/-- The cancel interrupts the statement of the call it names, which ends withheld; the id is used again. -/
def inTime : List Label :=
  .arrive [49] :: executing 0 ++ [.cancel [49], .kill 0 true] ++ completing 0 ++ .arrive [49] :: executing 1 ++
    completing 1

/-- The cancel comes after the reply, and the id is used again. -/
def tooLate : List Label :=
  .arrive [49] :: executing 0 ++ completing 0 ++ [.cancel [49], .arrive [49]] ++ executing 1 ++ completing 1

/-- The cancel names a call that waits for the connection. -/
def waiting : List Label :=
  Label.arrive [49] :: executing 0 ++ [Label.arrive [50], .check 1 true, .gate 1 true, .enter 1, .cancel [50], .kill 0 true]

/-- The gate turns away a call that has been cancelled while it waited. -/
def turnedAway : List Label := [.arrive [49], .check 0 true, .cancel [49], .gate 0 false, .drop 0]

theorem inTime_cancelsExactly :
    ∃ c, exec State.step ⟨{}, []⟩ inTime = some c ∧
      c.state.calls.map Call.phase = [.ended .withheld, .ended (.answered false)] ∧
      c.state.CancelsExactly c.log := by
  have hmeet : StepsMeet State.step Aimed ⟨{}, []⟩ inTime := by decide
  have hsome : (exec State.step ⟨{}, []⟩ inTime).any (fun c =>
      c.state.calls.map Call.phase = [.ended .withheld, .ended (.answered false)]) = true := by
    decide
  obtain ⟨c, hrun, hc⟩ := (Option.any_eq_true _ _).mp hsome
  exact ⟨c, hrun, of_decide_eq_true hc, aimed_cancelsExactly hmeet hrun⟩

/-- No part of the promise holds of every run. -/
theorem late_cancel_hits_reused_id :
    (¬ ∀ (as : List Label) (c : Config State Event), exec State.step ⟨{}, []⟩ as = some c →
      ∀ n d o, c.state.calls[n]? = some d → d.phase = .ended o →
        (o = .withheld ↔ .cancelled (some n) ∈ c.log)) ∧
    (¬ ∀ (as : List Label) (c : Config State Event), exec State.step ⟨{}, []⟩ as = some c →
      ∀ victim named, .interrupted victim named ∈ c.log → named = some victim) ∧
    ¬ ∀ (as : List Label) (c : Config State Event), exec State.step ⟨{}, []⟩ as = some c →
      (∀ d ∈ c.state.calls, d.phase.inFlight = false) → c.state.inflightIds = ∅ ∧ c.state.cancelledIds = ∅ := by
  refine ⟨fun h => ?_, fun h => ?_, fun h => ?_⟩
  · have hsome : (exec State.step ⟨{}, []⟩ tooLate).any (fun c =>
        c.state.calls[1]? = some ⟨[49], .ended .withheld⟩ ∧ c.log = [.cancelled none]) = true := by
      decide
    obtain ⟨c, hrun, hc⟩ := (Option.any_eq_true _ _).mp hsome
    obtain ⟨hcall, hlog⟩ := of_decide_eq_true hc
    have hmem := (h tooLate c hrun 1 _ _ hcall rfl).mp rfl
    rw [hlog] at hmem
    simp at hmem
  · have hsome : (exec State.step ⟨{}, []⟩ waiting).any (fun c =>
        c.log = [.cancelled (some 1), .interrupted 0 (some 1)]) = true := by
      decide
    obtain ⟨c, hrun, hc⟩ := (Option.any_eq_true _ _).mp hsome
    have heq := h waiting c hrun 0 (some 1) (by rw [of_decide_eq_true hc]; simp)
    cases heq
  · have hsome : (exec State.step ⟨{}, []⟩ turnedAway).any (fun c =>
        c.state.calls = [⟨[49], .ended .busy⟩] ∧ c.state.cancelledIds = {[49]}) = true := by
      decide
    obtain ⟨c, hrun, hc⟩ := (Option.any_eq_true _ _).mp hsome
    obtain ⟨hcalls, hids⟩ := of_decide_eq_true hc
    have hempty := (h turnedAway c hrun (by rw [hcalls]; simp [Phase.inFlight])).2
    rw [hids] at hempty
    exact Finset.singleton_ne_empty _ hempty

end FractalSQL.Mcp.Server
