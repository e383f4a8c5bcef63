import FractalSQL.Vectorizer.Freshness

/-!
# The rate cap

How many texts are dispatched for a vectorizer while its window starts at one time. A call reads
the window, decides, and writes it back as read and one more; what other calls wrote in between is
lost. Between the write and the dispatch the call's own dispatch is only reserved.
-/
namespace FractalSQL.Vectorizer
open Lib

/-! ### What is counted -/

/-- The statement that calls `fractal_embed`. -/
def Point.embeds (v : ℕ) : Point → Bool
  | .embed r => r.vectorizer = v
  | _ => false

/-- Behind the UPDATE of the window and not behind the dispatch. -/
def Point.reserves (v : ℕ) : Point → Bool
  | .read r | .embed r => r.vectorizer = v
  | _ => false

/-- The window has been opened by the call, and is still to be written. -/
def Point.windowed (v : ℕ) : Point → Bool
  | .rateSelect r | .rateUpdate r _ _ => r.vectorizer = v
  | _ => false

def Label.embeds (v : ℕ) (s : State) : Label → Bool
  | .call c _ => (s.calls c).any fun call => call.point.embeds v
  | _ => false

/-- The dispatches for a vectorizer since its `window_start` changed. -/
def sentAfter (v : ℕ) (s s' : State) (l : Label) (sent : ℕ) : ℕ :=
  (if (s'.tables.windows v).map Window.start = (s.tables.windows v).map Window.start then sent else 0) +
    if l.embeds v s then 1 else 0

/-- The system with that count. -/
def meter (site : Site) (v : ℕ) (s : State × ℕ) (l : Label) : Option ((State × ℕ) × List Event) :=
  (s.1.step site l).map fun r => ((r.1, sentAfter v s.1 r.1 l s.2), r.2)

/-- What one call has reserved. -/
def Call.held (v : ℕ) (call : Option Call) : ℕ := if call.any fun call => call.point.reserves v then 1 else 0

/-- The calls that have reserved a dispatch, and those of them that are not the given one. -/
def State.reserved (s : State) (v : ℕ) : ℕ := ∑ c ∈ Finset.range s.nextCall, Call.held v (s.calls c)

def State.reservedBut (s : State) (v c : ℕ) : ℕ := ∑ c' ∈ (Finset.range s.nextCall).erase c, Call.held v (s.calls c')

/-- What is written to a window is no less than what it has counted: the count of the same window,
or for a new one the dispatches that others have still to make. -/
def State.WritesCurrent (v : ℕ) (s : State) : Label → Prop
  | .call c _ => ∀ call r start calls w, s.calls c = some call → call.point = .rateUpdate r start calls → r.vectorizer = v →
    s.tables.windows v = some w → if w.start = start then w.calls ≤ calls else s.reservedBut v c ≤ calls
  | _ => True

/-- The row and the values of an UPDATE of the window. -/
def Point.toUpdate : Point → Option (CursorRow × ℤ × ℤ)
  | .rateUpdate r start calls => some (r, start, calls)
  | _ => none

theorem Point.toUpdate_eq_some {point : Point} {r : CursorRow} {start calls : ℤ} :
    point.toUpdate = some (r, start, calls) ↔ point = .rateUpdate r start calls := by
  cases point <;> simp [toUpdate]

instance (v : ℕ) (s : State) : (l : Label) → Decidable (s.WritesCurrent v l)
  | .call c _ =>
    decidable_of_iff ((s.calls c).all (fun call => call.point.toUpdate.all fun u => u.1.vectorizer ≠ v ||
      (s.tables.windows v).all fun w => if w.start = u.2.1 then w.calls ≤ u.2.2 else (s.reservedBut v c : ℤ) ≤ u.2.2) = true) (by
        simp only [State.WritesCurrent, Option.all_eq_true, Prod.forall, Point.toUpdate_eq_some, Bool.or_eq_true,
          decide_eq_true_eq]
        grind)
  | .insert .. | .update .. | .delete .. | .enqueue .. | .setEnabled .. | .tick .. | .start .. | .kill .. => isTrue trivial

/-! ### What a statement does to the windows -/

/-- What a statement of a call does to the rate windows and to what the call has reserved. -/
inductive Call.Rates (site : Site) (d : Tables) (call : Call) (e : Effect) : Prop where
  | other (hwindows : e.tables.windows = d.windows)
      (hnext : ∀ next, e.call = some next → ∀ v, next.point.windowed v = false ∧
        (next.point.reserves v = true → call.point.reserves v = true ∧ call.point.embeds v = false ∨
          ((site.registry v).bind Registration.maxEmbedsPerWindow = none)))
  | insert {r : CursorRow} {next : Call} (hp : call.point = .rateInsert r)
      (hwindows : e.tables.windows = Function.update d.windows r.vectorizer (some ((d.windows r.vectorizer).getD ⟨d.now, 0⟩)))
      (hnext : e.call = some next) (hpoint : next.point = .rateSelect r)
  | select {r : CursorRow} {next : Call} (hp : call.point = .rateSelect r) (hwindows : e.tables.windows = d.windows)
      (hnext : e.call = some next) (hpoint : next.point = rateDecision site d r)
  | update {r : CursorRow} {start calls : ℤ} {next : Call} (hp : call.point = .rateUpdate r start calls)
      (hwindows : e.tables.windows = Function.update d.windows r.vectorizer (some ⟨start, calls + 1⟩))
      (hnext : e.call = some next) (hpoint : next.point = .read r)

variable {site : Site} {d : Tables} {c : ℕ} {call : Call} {ch : Choice} {e : Effect}

theorem afterFetch_cases (r : CursorRow) (v : ℕ) : (afterFetch site r).windowed v = false ∧
    ((afterFetch site r).reserves v = true → (site.registry v).bind Registration.maxEmbedsPerWindow = none) := by
  unfold afterFetch
  split
  · exact ⟨rfl, fun h => by cases h⟩
  · rename_i hcap
    refine ⟨rfl, fun h => ?_⟩
    have hv : r.vectorizer = v := by simpa [Point.reserves] using h
    rw [← hv]
    exact Option.not_isSome_iff_eq_none.mp hcap

theorem Call.put_rates {id : ℕ} {f : QueueRow → QueueRow} {next : Call} {events : List Event} (hnext : next.point = .fetch) :
    call.Rates site d (call.put site d c id f next events) := by
  have hfetch : ∀ n, some next = some n → ∀ v, n.point.windowed v = false ∧
      (n.point.reserves v = true → call.point.reserves v = true ∧ call.point.embeds v = false ∨
        ((site.registry v).bind Registration.maxEmbedsPerWindow = none)) := by
    intro n hn v
    rw [← Option.some.inj hn, hnext]
    exact ⟨rfl, fun h => by cases h⟩
  rcases Call.put_cases site d c call id f next events with ⟨-, heq⟩ | ⟨q, hq, ⟨-, heq⟩ | ⟨-, heq⟩⟩ <;> rw [heq]
  · exact .other rfl hfetch
  · exact .other rfl fun n hn => by cases hn
  · exact .other rfl hfetch

theorem Call.rates_of_statement (h : call.statement site d c ch = some e) : call.Rates site d e := by
  have hstay {next : Call} {tables : Tables} {events : List Event} (hwindows : tables.windows = d.windows)
      (hnext : ∀ v, next.point.windowed v = false ∧ (next.point.reserves v = true →
        call.point.reserves v = true ∧ call.point.embeds v = false ∨
          ((site.registry v).bind Registration.maxEmbedsPerWindow = none))) :
      call.Rates site d { tables := tables, call := some next, events := events } := by
    refine .other hwindows fun n hn => ?_
    rw [← Option.some.inj hn]
    exact hnext
  unfold statement at h
  split at h
  · cases h
    exact hstay rfl fun v => ⟨rfl, fun h => by cases h⟩
  · split at h
    · cases h
      exact hstay rfl fun v => ⟨rfl, fun h => by cases h⟩
    · cases h
  · split at h
    · cases h
      exact hstay rfl fun v => ⟨rfl, fun h => by cases h⟩
    · cases h
  · split at h
    · cases h
      exact hstay rfl fun v => ⟨rfl, fun h => by cases h⟩
    · rename_i r rest _
      split at h
      · cases h
        exact hstay rfl fun v => ⟨rfl, fun h => by cases h⟩
      · cases h
        exact hstay rfl fun v => ⟨(afterFetch_cases r v).1, fun h => .inr ((afterFetch_cases r v).2 h)⟩
  · rename_i r hp
    cases h
    exact .insert hp rfl rfl rfl
  · rename_i r hp
    cases h
    exact .select hp rfl rfl rfl
  · cases h
    exact put_rates rfl
  · rename_i r start calls hp
    cases h
    exact .update hp rfl rfl rfl
  · rename_i r hp
    have hreserves (v : ℕ) : call.point.reserves v = decide (r.vectorizer = v) ∧ call.point.embeds v = false := by
      rw [hp]
      exact ⟨rfl, rfl⟩
    split at h
    · cases h
      exact hstay rfl fun v => ⟨rfl, fun h => by cases h⟩
    · split at h
      · cases h
        exact hstay rfl fun v => ⟨rfl, fun h => by cases h⟩
      · cases h
        refine hstay rfl fun v => ?_
        rw [(hreserves v).1, (hreserves v).2]
        dsimp only
        split
        · exact ⟨rfl, fun h => .inl ⟨h, rfl⟩⟩
        · exact ⟨rfl, fun h => by cases h⟩
  · cases h
    refine hstay rfl fun v => ?_
    dsimp only
    split_ifs <;> exact ⟨rfl, fun h => by cases h⟩
  · split at h <;> cases h <;> exact hstay rfl fun v => ⟨rfl, fun h => by cases h⟩
  · cases h
    exact put_rates rfl
  · cases h
    split
    · exact .other rfl fun n hn => by cases hn
    · exact .other rfl fun n hn => by cases hn

/-! ### Reservations -/

theorem Call.held_eq_one {v : ℕ} (h : call.point.reserves v = true) : Call.held v (some call) = 1 := by
  simp [held, h]

theorem Call.held_eq_zero {v : ℕ} (h : call.point.reserves v = false) : Call.held v (some call) = 0 := by
  simp [held, h]

theorem State.reserved_eq_add {s : State} {c : ℕ} (hc : c < s.nextCall) (v : ℕ) :
    s.reserved v = s.reservedBut v c + Call.held v (s.calls c) :=
  (Finset.sum_erase_add _ _ (Finset.mem_range.mpr hc)).symm

theorem State.reservedBut_congr {s s' : State} {v c : ℕ} (hnext : s'.nextCall = s.nextCall)
    (hcalls : ∀ c', c' ≠ c → s'.calls c' = s.calls c') : s'.reservedBut v c = s.reservedBut v c := by
  unfold reservedBut
  rw [hnext]
  refine Finset.sum_congr rfl fun c' hc' => ?_
  rw [hcalls c' (Finset.ne_of_mem_erase hc')]

/-- A step of one call moves only what that call has reserved. -/
theorem State.reserved_apply {s : State} {c : ℕ} (hc : c < s.nextCall) (v : ℕ) (e : Effect) :
    (s.apply c e).reserved v = s.reservedBut v c + Call.held v e.call := by
  have hbut : (s.apply c e).reservedBut v c = s.reservedBut v c :=
    State.reservedBut_congr rfl fun c' hc' => Function.update_of_ne hc' _ _
  rw [State.reserved_eq_add (s := s.apply c e) hc, hbut]
  simp [State.apply]

theorem State.apply_calls_cases {s : State} {c c' : ℕ} {next : Call} (h : (s.apply c e).calls c' = some next) :
    c' = c ∧ e.call = some next ∨ s.calls c' = some next := by
  dsimp only [State.apply] at h
  by_cases hc : c' = c
  · rw [hc, Function.update_self] at h
    exact .inl ⟨hc, h⟩
  · rw [Function.update_of_ne hc] at h
    exact .inr h

/-! ### The invariant -/

/-- What has been dispatched and what is reserved is counted in the window, within the cap. -/
structure State.Metered (site : Site) (v : ℕ) (m : ℤ) (s : State) (sent : ℕ) : Prop where
  wf : s.Wf site
  unopened : s.tables.windows v = none → sent = 0 ∧ s.reserved v = 0
  counted : ∀ w, s.tables.windows v = some w → (sent + s.reserved v : ℤ) ≤ w.calls ∧ w.calls ≤ m
  opened : ∀ c call, s.calls c = some call → call.point.windowed v = true → s.tables.windows v ≠ none
  decided : ∀ c call r start calls, s.calls c = some call → call.point = .rateUpdate r start calls → r.vectorizer = v → calls < m

theorem rateDecision_cases (site : Site) (d : Tables) (r : CursorRow) {m : ℤ}
    (hcap : (site.registry r.vectorizer).bind Registration.maxEmbedsPerWindow = some m) :
    rateDecision site d r = .defer r ∨ ∃ start calls, rateDecision site d r = .rateUpdate r start calls ∧ calls < m := by
  unfold rateDecision
  dsimp only
  rw [hcap]
  simp only [Option.any_some]
  split_ifs with hover hhit hhit
  · exact .inl rfl
  · exact .inr ⟨_, _, rfl, by simpa using hhit⟩
  · exact .inl rfl
  · exact .inr ⟨_, _, rfl, by simpa using hhit⟩

theorem rateDecision_point (site : Site) (d : Tables) (r : CursorRow) (v : ℕ) :
    (rateDecision site d r).reserves v = false ∧ (r.vectorizer ≠ v → (rateDecision site d r).windowed v = false) := by
  unfold rateDecision
  dsimp only
  split_ifs
  all_goals exact ⟨rfl, fun hv => by simp [Point.windowed, hv]⟩

/-- A step that leaves the window alone and counts no more than was reserved. -/
theorem State.Metered.of_le {s s' : State} {v : ℕ} {m : ℤ} {sent sent' : ℕ} (h : s.Metered site v m sent) (hwf : s'.Wf site)
    (hwindows : s'.tables.windows v = s.tables.windows v) (hsum : sent' + s'.reserved v ≤ sent + s.reserved v)
    (hcalls : ∀ c call, s'.calls c = some call → s.calls c = some call ∨ call.point.windowed v = false) :
    s'.Metered site v m sent' where
  wf := hwf
  unopened hnone := by
    rw [hwindows] at hnone
    have := h.unopened hnone
    omega
  counted w hw := by
    rw [hwindows] at hw
    have := h.counted w hw
    omega
  opened c call hcall hpoint := by
    rw [hwindows]
    rcases hcalls c call hcall with hold | hnot
    · exact h.opened c call hold hpoint
    · rw [hnot] at hpoint
      cases hpoint
  decided c call r start calls hcall hpoint hv := by
    rcases hcalls c call hcall with hold | hnot
    · exact h.decided c call r start calls hold hpoint hv
    · rw [hpoint] at hnot
      simp [Point.windowed, hv] at hnot

/-- A call's step on the window of the vectorizer. -/
theorem State.Metered.of_window {s : State} {v c : ℕ} {m : ℤ} {sent sent' : ℕ} {w : Window} (h : s.Metered site v m sent)
    (hwf : (s.apply c e).Wf site) (hw : e.tables.windows v = some w)
    (hcounted : (sent' + (s.apply c e).reserved v : ℤ) ≤ w.calls ∧ w.calls ≤ m)
    (hnext : ∀ next r start calls, e.call = some next → next.point = .rateUpdate r start calls → r.vectorizer = v → calls < m) :
    (s.apply c e).Metered site v m sent' where
  wf := hwf
  unopened hnone := by
    rw [State.apply, hw] at hnone
    cases hnone
  counted w' hw' := by
    obtain rfl := Option.some.inj (hw.symm.trans hw')
    exact hcounted
  opened c' call _ _ := by
    rw [State.apply, hw]
    exact Option.some_ne_none w
  decided c' call r start calls hcall hpoint hv := by
    rcases State.apply_calls_cases hcall with ⟨-, hcall⟩ | hcall
    · exact hnext call r start calls hcall hpoint hv
    · exact h.decided c' call r start calls hcall hpoint hv

theorem meter_some {s s' : State} {v sent sent' : ℕ} {l : Label} {es : List Event}
    (h : meter site v (s, sent) l = some ((s', sent'), es)) : s.step site l = some (s', es) ∧ sent' = sentAfter v s s' l sent := by
  obtain ⟨⟨s₁, es₁⟩, hstep, heq⟩ := Option.map_eq_some_iff.mp h
  cases heq
  exact ⟨hstep, rfl⟩

theorem sentAfter_of_same {s s' : State} {v : ℕ} {l : Label} (hwindows : s'.tables.windows v = s.tables.windows v) (sent : ℕ) :
    sentAfter v s s' l sent = sent + if l.embeds v s then 1 else 0 := by
  rw [sentAfter, hwindows, if_pos rfl]

/-- Clients open no window and reserve nothing. -/
theorem State.step_unmetered {s s' : State} {v : ℕ} {l : Label} {es : List Event}
    (hcall : ∀ c ch, l ≠ .call c ch) (h : s.step site l = some (s', es)) :
    s'.tables.windows v = s.tables.windows v ∧ s'.reserved v ≤ s.reserved v ∧
      ∀ c call, s'.calls c = some call → s.calls c = some call ∨ call.point.windowed v = false := by
  have henqueue (d : Tables) (v' : ℕ) (pk : Bytes) : (d.enqueue site v' pk).windows = d.windows := by
    unfold Tables.enqueue
    split_ifs <;> rfl
  cases l with
  | insert v' pk text embedding =>
    obtain ⟨d', hd', heq⟩ := Option.map_eq_some_iff.mp h
    cases heq
    obtain ⟨-, rfl⟩ := Tables.insert_eq hd'
    exact ⟨by rw [henqueue]; rfl, le_rfl, fun c call hc => .inl hc⟩
  | update v' pk pk' text embedding =>
    obtain ⟨d', hd', heq⟩ := Option.map_eq_some_iff.mp h
    cases heq
    obtain ⟨old, -, -, rfl⟩ := Tables.update_eq hd'
    refine ⟨?_, le_rfl, fun c call hc => .inl hc⟩
    dsimp only
    split
    · rw [henqueue]
      rfl
    · rfl
  | enqueue v' pk =>
    cases h
    exact ⟨by rw [henqueue], le_rfl, fun c call hc => .inl hc⟩
  | delete | setEnabled | tick =>
    cases h
    exact ⟨rfl, le_rfl, fun c call hc => .inl hc⟩
  | start account batchSize staleSecs =>
    cases h
    refine ⟨rfl, ?_, fun c call hc => ?_⟩
    · rw [reserved, Finset.sum_range_succ]
      dsimp only
      rw [Function.update_self]
      refine (Nat.add_zero _).trans_le (Finset.sum_le_sum fun c hc => ?_)
      rw [Function.update_of_ne (Finset.mem_range.mp hc).ne]
    · dsimp only at hc
      by_cases hnew : c = s.nextCall
      · rw [hnew, Function.update_self] at hc
        cases hc
        exact .inr rfl
      · rw [Function.update_of_ne hnew] at hc
        exact .inl hc
  | kill c =>
    cases h
    refine ⟨rfl, Finset.sum_le_sum fun c' _ => ?_, fun c' call hc => ?_⟩
    · dsimp only
      by_cases hc : c' = c
      · rw [hc, Function.update_self]
        exact Nat.zero_le _
      · rw [Function.update_of_ne hc]
    · dsimp only at hc
      by_cases hcc : c' = c
      · rw [hcc, Function.update_self] at hc
        cases hc
      · rw [Function.update_of_ne hcc] at hc
        exact .inl hc
  | call c ch => exact absurd rfl (hcall c ch)

theorem Point.held_of_embeds {v : ℕ} (h : call.point.embeds v = true) : Call.held v (some call) = 1 := by
  refine Call.held_eq_one ?_
  cases hp : call.point <;> rw [hp] at h <;> first | exact h | cases h

/-- A dispatch uses up the reservation of its call. -/
theorem Call.held_next {v : ℕ} {m : ℤ} (hcap : (site.registry v).bind Registration.maxEmbedsPerWindow = some m)
    (hnext : ∀ next, e.call = some next → ∀ v, next.point.windowed v = false ∧
      (next.point.reserves v = true → call.point.reserves v = true ∧ call.point.embeds v = false ∨
        ((site.registry v).bind Registration.maxEmbedsPerWindow = none))) :
    (if call.point.embeds v then 1 else 0) + Call.held v e.call ≤ Call.held v (some call) := by
  have hembeds : (if call.point.embeds v then 1 else 0) ≤ Call.held v (some call) := by
    split
    · rw [Point.held_of_embeds ‹_›]
    · exact Nat.zero_le _
  cases hcall : e.call with
  | none => exact hembeds
  | some next =>
    cases hreserves : next.point.reserves v with
    | false =>
      rw [held_eq_zero hreserves]
      exact hembeds
    | true =>
      rcases (hnext next hcall v).2 hreserves with ⟨hreserved, hnot⟩ | hnone
      · rw [held_eq_one hreserves, held_eq_one hreserved, hnot]
        rfl
      · rw [hcap] at hnone
        cases hnone

theorem Label.embeds_call {s : State} {v : ℕ} (hcall : s.calls c = some call) :
    Label.embeds v s (.call c ch) = call.point.embeds v := by
  rw [Label.embeds, hcall]
  rfl

/-! A call's statement, by what it does to the window. -/

section
variable {s : State} {v : ℕ} {m : ℤ} {sent : ℕ}

theorem State.Metered.apply_same (h : s.Metered site v m sent) (hwf : (s.apply c e).Wf site) (hcall : s.calls c = some call)
    (hwindows : e.tables.windows v = s.tables.windows v)
    (hsum : (if call.point.embeds v then 1 else 0) + Call.held v e.call ≤ Call.held v (some call))
    (hnext : ∀ next, e.call = some next → next.point.windowed v = false) :
    (s.apply c e).Metered site v m (sentAfter v s (s.apply c e) (.call c ch) sent) := by
  have hc := h.wf.calls c call hcall
  refine h.of_le hwf hwindows ?_ fun c' next hn => ?_
  · rw [sentAfter_of_same hwindows, Label.embeds_call hcall, State.reserved_eq_add hc, State.reserved_apply hc, hcall]
    omega
  · rcases State.apply_calls_cases hn with ⟨-, hn⟩ | hn
    · exact .inr (hnext next hn)
    · exact .inl hn

/-- Neither the statement nor the next one is between the UPDATE and the dispatch. -/
theorem Call.held_quiet {next : Call} (hp : call.point.reserves v = false) (hnext : e.call = some next)
    (hquiet : next.point.reserves v = false) :
    (if call.point.embeds v then 1 else 0) + Call.held v e.call ≤ Call.held v (some call) := by
  have hembeds : call.point.embeds v = false := by
    by_contra hne
    have := Point.held_of_embeds (Bool.not_eq_false _ ▸ hne)
    rw [held_eq_zero hp] at this
    cases this
  rw [hembeds, hnext, held_eq_zero hquiet, held_eq_zero hp]
  rfl

theorem State.Metered.apply_insert {r : CursorRow} {next : Call} (hm : 0 ≤ m) (h : s.Metered site v m sent)
    (hwf : (s.apply c e).Wf site) (hcall : s.calls c = some call) (hp : call.point = .rateInsert r)
    (hwindows : e.tables.windows =
      Function.update s.tables.windows r.vectorizer (some ((s.tables.windows r.vectorizer).getD ⟨s.tables.now, 0⟩)))
    (hnext : e.call = some next) (hpoint : next.point = .rateSelect r) :
    (s.apply c e).Metered site v m (sentAfter v s (s.apply c e) (.call c ch) sent) := by
  have hc := h.wf.calls c call hcall
  have hquiet : call.point.reserves v = false := by rw [hp]; rfl
  have hquiet' : next.point.reserves v = false := by rw [hpoint]; rfl
  by_cases hv : r.vectorizer = v
  · have hw : e.tables.windows v = some ((s.tables.windows v).getD ⟨s.tables.now, 0⟩) := by
      rw [hwindows, hv, Function.update_self]
    have hreserved : (s.apply c e).reserved v = s.reserved v := by
      rw [State.reserved_apply hc, State.reserved_eq_add hc, hnext, hcall, Call.held_eq_zero hquiet, Call.held_eq_zero hquiet']
    have hembeds : Label.embeds v s (.call c ch) = false := by rw [Label.embeds_call hcall, hp]; rfl
    refine h.of_window hwf hw ?_ fun n r' start calls hn hp' => ?_
    · rw [hreserved, sentAfter, hembeds, State.apply, hw]
      cases hold : s.tables.windows v with
      | none =>
        rw [(h.unopened hold).2]
        simpa using hm
      | some w =>
        have := h.counted w hold
        simpa using this
    · rw [hnext] at hn
      rw [← Option.some.inj hn, hpoint] at hp'
      cases hp'
  · have hsame : e.tables.windows v = s.tables.windows v := by rw [hwindows, Function.update_of_ne (Ne.symm hv)]
    refine h.apply_same hwf hcall hsame (Call.held_quiet hquiet hnext hquiet') fun n hn => ?_
    rw [hnext] at hn
    rw [← Option.some.inj hn, hpoint]
    exact decide_eq_false hv

theorem State.Metered.apply_select {r : CursorRow} {next : Call}
    (hcap : (site.registry v).bind Registration.maxEmbedsPerWindow = some m) (h : s.Metered site v m sent)
    (hwf : (s.apply c e).Wf site) (hcall : s.calls c = some call) (hp : call.point = .rateSelect r)
    (hwindows : e.tables.windows = s.tables.windows) (hnext : e.call = some next)
    (hpoint : next.point = rateDecision site s.tables r) :
    (s.apply c e).Metered site v m (sentAfter v s (s.apply c e) (.call c ch) sent) := by
  have hc := h.wf.calls c call hcall
  have hsame : e.tables.windows v = s.tables.windows v := congrFun hwindows v
  have hdecision := rateDecision_point site s.tables r v
  have hquiet : call.point.reserves v = false := by rw [hp]; rfl
  have hquiet' : next.point.reserves v = false := by rw [hpoint]; exact hdecision.1
  by_cases hv : r.vectorizer = v
  · obtain ⟨w, hw⟩ := Option.ne_none_iff_exists'.mp (h.opened c call hcall (by rw [hp]; exact decide_eq_true hv))
    have hreserved : (s.apply c e).reserved v = s.reserved v := by
      rw [State.reserved_apply hc, State.reserved_eq_add hc, hnext, hcall, Call.held_eq_zero hquiet, Call.held_eq_zero hquiet']
    have hembeds : Label.embeds v s (.call c ch) = false := by rw [Label.embeds_call hcall, hp]; rfl
    refine h.of_window hwf (hsame.trans hw) ?_ fun n r' start calls hn hp' _ => ?_
    · rw [sentAfter_of_same hsame, hembeds, hreserved]
      exact h.counted w hw
    · rw [hnext] at hn
      rw [← Option.some.inj hn, hpoint] at hp'
      rcases rateDecision_cases site s.tables r (hv ▸ hcap) with hdefer | ⟨start', calls', hupdate, hlt⟩
      · rw [hdefer] at hp'
        cases hp'
      · rw [hupdate] at hp'
        cases hp'
        exact hlt
  · refine h.apply_same hwf hcall hsame (Call.held_quiet hquiet hnext hquiet') fun n hn => ?_
    rw [hnext] at hn
    rw [← Option.some.inj hn, hpoint]
    exact hdecision.2 hv

/-- The write counts this call's dispatch on top of what it read. -/
theorem State.Metered.apply_update {r : CursorRow} {start calls : ℤ} {next : Call} (h : s.Metered site v m sent)
    (hcurrent : s.WritesCurrent v (.call c ch)) (hwf : (s.apply c e).Wf site) (hcall : s.calls c = some call)
    (hp : call.point = .rateUpdate r start calls)
    (hwindows : e.tables.windows = Function.update s.tables.windows r.vectorizer (some ⟨start, calls + 1⟩))
    (hnext : e.call = some next) (hpoint : next.point = .read r) :
    (s.apply c e).Metered site v m (sentAfter v s (s.apply c e) (.call c ch) sent) := by
  have hc := h.wf.calls c call hcall
  have hquiet : call.point.reserves v = false := by rw [hp]; rfl
  by_cases hv : r.vectorizer = v
  · obtain ⟨w, hw⟩ := Option.ne_none_iff_exists'.mp (h.opened c call hcall (by rw [hp]; exact decide_eq_true hv))
    have hwrite := hcurrent call r start calls w hcall hp hv hw
    have hlt := h.decided c call r start calls hcall hp hv
    have hcounted := h.counted w hw
    have hnew : e.tables.windows v = some ⟨start, calls + 1⟩ := by rw [hwindows, hv, Function.update_self]
    have hbefore : s.reserved v = s.reservedBut v c := by
      rw [State.reserved_eq_add hc, hcall, Call.held_eq_zero hquiet, Nat.add_zero]
    have hafter : (s.apply c e).reserved v = s.reservedBut v c + 1 := by
      rw [State.reserved_apply hc, hnext, Call.held_eq_one (by rw [hpoint]; exact decide_eq_true hv)]
    have hembeds : Label.embeds v s (.call c ch) = false := by rw [Label.embeds_call hcall, hp]; rfl
    refine h.of_window hwf hnew ?_ fun n r' start calls hn hp' => ?_
    · rw [hafter, sentAfter, hembeds, State.apply, hnew, hw]
      by_cases hstart : w.start = start
      · rw [if_pos hstart] at hwrite
        simp only [Option.map_some, hstart, if_true, Bool.false_eq_true, if_false]
        push_cast
        omega
      · rw [if_neg hstart] at hwrite
        simp only [Option.map_some, Option.some.injEq, Ne.symm hstart, if_false, Bool.false_eq_true]
        push_cast
        omega
    · rw [hnext] at hn
      rw [← Option.some.inj hn, hpoint] at hp'
      cases hp'
  · have hsame : e.tables.windows v = s.tables.windows v := by rw [hwindows, Function.update_of_ne (Ne.symm hv)]
    have hquiet' : next.point.reserves v = false := by rw [hpoint]; exact decide_eq_false hv
    refine h.apply_same hwf hcall hsame (Call.held_quiet hquiet hnext hquiet') fun n hn => ?_
    rw [hnext] at hn
    rw [← Option.some.inj hn, hpoint]
    rfl

end

/-- A write that is no less than what the window has counted keeps the count within the cap. -/
theorem State.Metered.step {s s' : State} {v : ℕ} {m : ℤ} {sent sent' : ℕ} {l : Label} {es : List Event} (hm : 0 ≤ m)
    (hcap : (site.registry v).bind Registration.maxEmbedsPerWindow = some m) (h : s.Metered site v m sent)
    (hcurrent : s.WritesCurrent v l) (hstep : meter site v (s, sent) l = some ((s', sent'), es)) :
    s'.Metered site v m sent' := by
  obtain ⟨hplain, rfl⟩ := meter_some hstep
  have hwf := h.wf.step hplain
  by_cases hl : ∃ c ch, l = .call c ch
  · obtain ⟨c, ch, rfl⟩ := hl
    obtain ⟨call, hcall, hmap⟩ := Option.bind_eq_some_iff.mp hplain
    obtain ⟨e, he, heq⟩ := Option.map_eq_some_iff.mp hmap
    cases heq
    cases Call.rates_of_statement he with
    | other hwindows hnext =>
      exact h.apply_same hwf hcall (congrFun hwindows v) (Call.held_next hcap hnext) fun next hn => (hnext next hn v).1
    | insert hp hwindows hnext hpoint => exact h.apply_insert hm hwf hcall hp hwindows hnext hpoint
    | select hp hwindows hnext hpoint => exact h.apply_select hcap hwf hcall hp hwindows hnext hpoint
    | update hp hwindows hnext hpoint => exact h.apply_update hcurrent hwf hcall hp hwindows hnext hpoint
  · have hnot : ∀ c ch, l ≠ .call c ch := fun c ch heq => hl ⟨c, ch, heq⟩
    obtain ⟨hwindows, hreserved, hcalls⟩ := State.step_unmetered (v := v) hnot hplain
    refine h.of_le hwf hwindows ?_ hcalls
    have hembeds : l.embeds v s = false := by
      cases l with
      | call c ch => exact absurd rfl (hnot c ch)
      | _ => rfl
    rw [sentAfter_of_same hwindows, hembeds]
    exact Nat.add_le_add_left hreserved sent

theorem State.Metered.initial (site : Site) (rows : ℕ → Bytes → Option SourceRow) (v : ℕ) (m : ℤ) :
    (State.initial rows).Metered site v m 0 where
  wf := .initial site rows
  unopened _ := ⟨rfl, rfl⟩
  counted w hw := by cases hw
  opened c call hcall := by cases hcall
  decided c call r start calls hcall := by cases hcall

/-- In a run in which no write of the window falls behind, no window gets more dispatches than its cap. -/
theorem rate_cap_holds (site : Site) (v : ℕ) (m : ℤ) (hm : 0 ≤ m)
    (hcap : (site.registry v).bind Registration.maxEmbedsPerWindow = some m) (rows : ℕ → Bytes → Option SourceRow)
    (labels : List Label) (final : Config (State × ℕ) Event)
    (hmeet : StepsMeet (meter site v) (fun s _ l => s.1.WritesCurrent v l) ⟨(State.initial rows, 0), []⟩ labels)
    (hrun : exec (meter site v) ⟨(State.initial rows, 0), []⟩ labels = some final) : final.state.2 ≤ m := by
  have hmetered : final.state.1.Metered site v m final.state.2 :=
    exec_invariant_of (I := fun s _ => s.1.Metered site v m s.2) (fun hi hcurrent hs => hi.step hm hcap hcurrent hs) hmeet
      (State.Metered.initial site rows v m) hrun
  cases hw : final.state.1.tables.windows v with
  | none =>
    rw [(hmetered.unopened hw).1]
    exact hm
  | some w =>
    have := hmetered.counted w hw
    omega

/-- A vectorizer with a cap of one. -/
def cappedSite : Site := { plainSite with registry := fun _ => some { createdBy := "ada", maxEmbedsPerWindow := some 1 } }

/-- Statements of one call. -/
def callSteps (c : ℕ) (idss : List (List ℕ)) : List Label := idss.map fun ids => .call c { ids := ids }

/-- Each of two calls claims one row and reads the window. -/
def racingFront : List Label :=
  [Label.enqueue 0 (ascii "1"), .enqueue 0 (ascii "2"), .start "ada" (some 1) none, .start "ada" (some 1) none] ++
    callSteps 0 [[], [0], [0], [], [], []] ++ callSteps 1 [[], [1], [1], [], [], []]

/-- Both find the window empty, and both dispatch. -/
theorem racing_calls_exceed_cap : ¬ ∀ (site : Site) (v : ℕ) (m : ℤ), 0 ≤ m →
    (site.registry v).bind Registration.maxEmbedsPerWindow = some m → ∀ (rows : ℕ → Bytes → Option SourceRow)
      (labels : List Label) (final : Config (State × ℕ) Event),
        exec (meter site v) ⟨(State.initial rows, 0), []⟩ labels = some final → final.state.2 ≤ m := by
  intro hall
  have hany : (exec (meter cappedSite 0) ⟨(State.initial fun _ _ => some ⟨some (ascii "cat"), none, true⟩, 0), []⟩
      (racingFront ++ callSteps 0 [[], [], []] ++ callSteps 1 [[], [], []])).any (fun c => decide (c.state.2 = 2)) = true := by
    decide
  obtain ⟨final, hrun, hend⟩ := (Option.any_eq_true ..).mp hany
  have hle := hall cappedSite 0 1 (by decide) rfl _ _ final hrun
  rw [of_decide_eq_true hend] at hle
  exact absurd hle (by decide)

/-- One call after the other. -/
theorem calls_in_turn_keep_cap : ∃ final : Config (State × ℕ) Event,
    exec (meter cappedSite 0) ⟨(State.initial fun _ _ => some ⟨some (ascii "cat"), none, true⟩, 0), []⟩
        ([.enqueue 0 (ascii "1"), .enqueue 0 (ascii "2"), .start "ada" none none] ++
          callSteps 0 [[], [0, 1], [0, 1], [], [], [], [], [], [], [], [], [], [], [], []]) = some final ∧
      final.state.2 ≤ (1 : ℤ) := by
  have hany : (exec (meter cappedSite 0) ⟨(State.initial fun _ _ => some ⟨some (ascii "cat"), none, true⟩, 0), []⟩
      ([.enqueue 0 (ascii "1"), .enqueue 0 (ascii "2"), .start "ada" none none] ++
        callSteps 0 [[], [0, 1], [0, 1], [], [], [], [], [], [], [], [], [], [], [], []])).isSome = true := by
    decide
  obtain ⟨final, hrun⟩ := Option.isSome_iff_exists.mp hany
  exact ⟨final, hrun, rate_cap_holds cappedSite 0 1 (by decide) rfl _ _ final (by decide) hrun⟩

end FractalSQL.Vectorizer
