import FractalSQL.Lib.Count
import FractalSQL.Lib.Machine

/-!
# Reference counted configurations

`cfg_acquire`, `cfg_release` and `cfg_publish` on any number of threads. A snapshot is
freed by the release or the publish that finds it superseded and without a borrower; the
`free` itself comes after the lock is let go and is a step of its own.
-/
namespace FractalSQL.Provider.Snapshots
open Lib

/-- `struct fsq_config_snap`; `freed` counts the calls of `free` on it. -/
structure Snap (Cfg : Type*) where
  cfg : Cfg
  refs : ℕ := 0
  freed : ℕ := 0

structure State (Cfg : Type*) where
  /-- Every snapshot that was allocated, by its number. -/
  snaps : List (Snap Cfg)
  /-- `g_snap`. -/
  current : ℕ
  /-- The snapshots the threads hold, once for each borrow. -/
  held : List ℕ := []
  /-- The snapshots on their way to `free`. -/
  dying : List ℕ := []

inductive Label (Cfg : Type*) where
  | acquire
  /-- The release of the borrow `k`. -/
  | release (k : ℕ)
  /-- `ok` whether the allocation succeeds. -/
  | publish (cfg : Cfg) (ok : Bool)
  | free (k : ℕ)

inductive Event where
  | published (n : ℕ)
  | acquired (n : ℕ)
  | freed (n : ℕ)
deriving DecidableEq

variable {Cfg : Type*}

/-- After the startup has published its configuration. -/
def State.start (cfg : Cfg) : State Cfg where
  snaps := [{ cfg := cfg }]
  current := 0

def State.step (s : State Cfg) : Label Cfg → Option (State Cfg × List Event)
  | .acquire =>
    (s.snaps[s.current]?).map fun p =>
      ({ s with
        snaps := s.snaps.set s.current { p with refs := p.refs + 1 }
        held := s.held ++ [s.current] }, [.acquired s.current])
  | .release k =>
    (s.held[k]?).bind fun n => (s.snaps[n]?).map fun p =>
      ({ s with
        snaps := s.snaps.set n { p with refs := p.refs - 1 }
        held := s.held.eraseIdx k
        -- `live` is read under the lock, the `free` follows it
        dying := if 0 < p.refs - 1 ∨ s.current = n then s.dying else s.dying ++ [n] }, [])
  | .publish cfg ok =>
    if ok then
      (s.snaps[s.current]?).map fun old =>
        ({ s with
          snaps := s.snaps ++ [{ cfg := cfg }]
          current := s.snaps.length
          dying := if old.refs = 0 then s.dying ++ [s.current] else s.dying }, [.published s.snaps.length])
    else some (s, [])
  | .free k =>
    (s.dying[k]?).bind fun n => (s.snaps[n]?).map fun p =>
      ({ s with
        snaps := s.snaps.set n { p with freed := p.freed + 1 }
        dying := s.dying.eraseIdx k }, [.freed n])

/-- The snapshot published last. -/
def lastPublished (log : List Event) : Option ℕ :=
  log.reverse.findSome? fun
    | .published n => some n
    | _ => none

/-- A superseded snapshot that no thread holds. -/
def State.Dead (s : State Cfg) (n : ℕ) : Prop := n ≠ s.current ∧ s.held.count n = 0

instance (s : State Cfg) (n : ℕ) : Decidable (s.Dead n) := inferInstanceAs (Decidable (_ ∧ _))

/-- What is promised of the snapshots. -/
structure State.Safe (s : State Cfg) (log : List Event) : Prop where
  /-- None is freed while it is held or published. -/
  kept : ∀ n p, s.snaps[n]? = some p → 0 < p.freed → s.current ≠ n ∧ n ∉ s.held
  /-- A dead one is freed or on its way to the only `free` of it. -/
  once : ∀ n p, s.snaps[n]? = some p → s.Dead n → p.freed + s.dying.count n = 1
  latest : ∀ before n rest, log = before ++ .acquired n :: rest → lastPublished before = some n

/-! ### The counts -/

structure Counted (s : State Cfg) : Prop where
  current : s.current < s.snaps.length
  held : ∀ n ∈ s.held, n < s.snaps.length
  dying : ∀ n ∈ s.dying, n < s.snaps.length
  refs : ∀ n p, s.snaps[n]? = some p → p.refs = s.held.count n
  owed : ∀ n p, s.snaps[n]? = some p → p.freed + s.dying.count n = if s.Dead n then 1 else 0

theorem count_append_singleton (l : List ℕ) (a n : ℕ) : (l ++ [a]).count n = l.count n + if a = n then 1 else 0 := by
  rw [List.count_append, List.count_singleton]
  simp only [beq_iff_eq]

theorem Counted.acquire {s : State Cfg} (h : Counted s) {p : Snap Cfg} (hp : s.snaps[s.current]? = some p) :
    Counted { s with
      snaps := s.snaps.set s.current { p with refs := p.refs + 1 }
      held := s.held ++ [s.current] } := by
  constructor
  · simpa using h.current
  · intro n hn
    simp only [List.length_set]
    obtain hn | hn := List.mem_append.mp hn
    · exact h.held n hn
    · cases List.mem_singleton.mp hn
      exact h.current
  · simpa using h.dying
  · intro n q hq
    simp only [count_append_singleton]
    obtain ⟨rfl, rfl⟩ | ⟨hne, hq⟩ := getElem?_set_cases hq
    · rw [if_pos rfl, h.refs _ p hp]
    · rw [if_neg (Ne.symm hne), h.refs n q hq, Nat.add_zero]
  · intro n q hq
    have hdead : State.Dead { s with
        snaps := s.snaps.set s.current { p with refs := p.refs + 1 }
        held := s.held ++ [s.current] } n ↔ s.Dead n := by
      simp only [State.Dead, count_append_singleton]
      refine and_congr_right fun hne => ?_
      rw [if_neg (Ne.symm hne), Nat.add_zero]
    simp only [hdead]
    obtain ⟨rfl, rfl⟩ | ⟨-, hq⟩ := getElem?_set_cases hq
    · exact h.owed _ p hp
    · exact h.owed n q hq

theorem Counted.release {s : State Cfg} (h : Counted s) {k n : ℕ} {p : Snap Cfg} (hk : s.held[k]? = some n)
    (hp : s.snaps[n]? = some p) :
    Counted { s with
      snaps := s.snaps.set n { p with refs := p.refs - 1 }
      held := s.held.eraseIdx k
      dying := if 0 < p.refs - 1 ∨ s.current = n then s.dying else s.dying ++ [n] } := by
  have hcount := count_eraseIdx_add hk
  have hown := hcount n
  rw [if_pos rfl] at hown
  have hrefs := h.refs n p hp
  constructor
  · simpa using h.current
  · intro m hm
    simpa using h.held m (List.mem_of_mem_eraseIdx hm)
  · intro m hm
    simp only [List.length_set]
    split at hm
    · exact h.dying m hm
    · obtain hm | hm := List.mem_append.mp hm
      · exact h.dying m hm
      · cases List.mem_singleton.mp hm
        exact h.held n (List.mem_of_getElem? hk)
  · intro m q hq
    have hm := hcount m
    obtain ⟨rfl, rfl⟩ | ⟨hne, hq⟩ := getElem?_set_cases hq
    · simp only
      omega
    · rw [if_neg (Ne.symm hne)] at hm
      rw [h.refs m q hq]
      exact hm.symm
  · intro m q hq
    have hm := hcount m
    obtain ⟨rfl, rfl⟩ | ⟨hne, hq⟩ := getElem?_set_cases hq
    · have howed := h.owed m p hp
      rw [if_neg (fun hd : s.Dead m => by have := hd.2; omega)] at howed
      simp only
      by_cases hkeep : 0 < p.refs - 1 ∨ s.current = m
      · rw [if_pos hkeep, if_neg, howed]
        rintro ⟨hcur, hzero⟩
        obtain hlt | heq := hkeep
        · simp only at hzero
          omega
        · exact hcur heq.symm
      · rw [not_or] at hkeep
        rw [if_neg (by simpa [not_or] using hkeep), if_pos, count_append_singleton, if_pos rfl]
        · omega
        · refine ⟨Ne.symm hkeep.2, ?_⟩
          simp only
          omega
    · have howed := h.owed m q hq
      have hdead : State.Dead { s with
          snaps := s.snaps.set n { p with refs := p.refs - 1 }
          held := s.held.eraseIdx k
          dying := if 0 < p.refs - 1 ∨ s.current = n then s.dying else s.dying ++ [n] } m ↔ s.Dead m := by
        rw [if_neg (Ne.symm hne), Nat.add_zero] at hm
        simp only [State.Dead, hm]
      simp only [hdead, ← howed]
      split
      · rfl
      · rw [count_append_singleton, if_neg (Ne.symm hne), Nat.add_zero]

theorem Counted.publish {s : State Cfg} (h : Counted s) {cfg : Cfg} {old : Snap Cfg}
    (hold : s.snaps[s.current]? = some old) :
    Counted { s with
      snaps := s.snaps ++ [{ cfg := cfg }]
      current := s.snaps.length
      dying := if old.refs = 0 then s.dying ++ [s.current] else s.dying } := by
  have hnew : ∀ {l : List ℕ}, (∀ n ∈ l, n < s.snaps.length) → l.count s.snaps.length = 0 := fun {l} hl =>
    List.count_eq_zero.mpr fun hmem => Nat.lt_irrefl _ (hl _ hmem)
  have hdying : ∀ n ∈ (if old.refs = 0 then s.dying ++ [s.current] else s.dying), n < s.snaps.length := by
    intro n hn
    split at hn
    · obtain hn | hn := List.mem_append.mp hn
      · exact h.dying n hn
      · cases List.mem_singleton.mp hn
        exact h.current
    · exact h.dying n hn
  have hcases : ∀ n q, (s.snaps ++ [{ cfg := cfg }])[n]? = some q →
      s.snaps[n]? = some q ∧ n < s.snaps.length ∨ n = s.snaps.length ∧ q = { cfg := cfg } := by
    intro n q hq
    obtain hlt | hge := Nat.lt_or_ge n s.snaps.length
    · rw [List.getElem?_append_left hlt] at hq
      exact .inl ⟨hq, hlt⟩
    · obtain ⟨hbound, -⟩ := List.getElem?_eq_some_iff.mp hq
      rw [List.getElem?_append_right hge] at hq
      refine .inr ⟨?_, List.mem_singleton.mp (List.mem_of_getElem? hq)⟩
      simp only [List.length_append, List.length_singleton] at hbound
      omega
  constructor
  · simp
  · intro n hn
    simpa using Nat.lt_succ_of_lt (h.held n hn)
  · intro n hn
    simpa using Nat.lt_succ_of_lt (hdying n hn)
  · intro n q hq
    obtain ⟨hq, -⟩ | ⟨rfl, rfl⟩ := hcases n q hq
    · exact h.refs n q hq
    · exact (hnew h.held).symm
  · intro n q hq
    obtain ⟨hq, hlt⟩ | ⟨rfl, rfl⟩ := hcases n q hq
    · have howed := h.owed n q hq
      have hdead : State.Dead { s with
          snaps := s.snaps ++ [{ cfg := cfg }]
          current := s.snaps.length
          dying := if old.refs = 0 then s.dying ++ [s.current] else s.dying } n ↔ s.held.count n = 0 := by
        simp only [State.Dead]
        exact and_iff_right (Nat.ne_of_lt hlt)
      simp only [hdead]
      by_cases hcur : s.current = n
      · subst hcur
        cases hold.symm.trans hq
        have hrefs := h.refs _ old hold
        rw [if_neg (fun hd => hd.1 rfl)] at howed
        by_cases hzero : old.refs = 0
        · rw [if_pos hzero, if_pos (hrefs ▸ hzero), count_append_singleton, if_pos rfl]
          omega
        · rw [if_neg hzero, if_neg (hrefs ▸ hzero), howed]
      · have hwas : s.Dead n ↔ s.held.count n = 0 := and_iff_right (Ne.symm hcur)
        simp only [hwas] at howed
        rw [← howed]
        split
        · rw [count_append_singleton, if_neg hcur, Nat.add_zero]
        · rfl
    · change 0 + List.count s.snaps.length (if old.refs = 0 then s.dying ++ [s.current] else s.dying) = _
      rw [hnew hdying]
      symm
      exact if_neg fun hd => hd.1 rfl

theorem Counted.free {s : State Cfg} (h : Counted s) {k n : ℕ} {p : Snap Cfg} (hk : s.dying[k]? = some n)
    (hp : s.snaps[n]? = some p) :
    Counted { s with
      snaps := s.snaps.set n { p with freed := p.freed + 1 }
      dying := s.dying.eraseIdx k } := by
  have hcount := count_eraseIdx_add hk
  constructor
  · simpa using h.current
  · simpa using h.held
  · intro m hm
    simpa using h.dying m (List.mem_of_mem_eraseIdx hm)
  · intro m q hq
    obtain ⟨rfl, rfl⟩ | ⟨-, hq⟩ := getElem?_set_cases hq
    · exact h.refs m p hp
    · exact h.refs m q hq
  · intro m q hq
    have hm := hcount m
    change q.freed + (s.dying.eraseIdx k).count m = if s.Dead m then 1 else 0
    obtain ⟨rfl, rfl⟩ | ⟨hne, hq⟩ := getElem?_set_cases hq
    · rw [if_pos rfl] at hm
      rw [← h.owed m p hp]
      simp only
      omega
    · rw [if_neg (Ne.symm hne)] at hm
      rw [← h.owed m q hq]
      omega

theorem Counted.step {s s' : State Cfg} {a : Label Cfg} {es : List Event} (h : Counted s)
    (hstep : s.step a = some (s', es)) : Counted s' := by
  cases a with
  | acquire =>
    obtain ⟨p, hp, heq⟩ := Option.map_eq_some_iff.mp hstep
    cases heq
    exact h.acquire hp
  | release k =>
    obtain ⟨n, hk, hmap⟩ := Option.bind_eq_some_iff.mp hstep
    obtain ⟨p, hp, heq⟩ := Option.map_eq_some_iff.mp hmap
    cases heq
    exact h.release hk hp
  | publish cfg ok =>
    cases ok with
    | true =>
      obtain ⟨old, hold, heq⟩ := Option.map_eq_some_iff.mp hstep
      cases heq
      exact h.publish hold
    | false =>
      cases hstep
      exact h
  | free k =>
    obtain ⟨n, hk, hmap⟩ := Option.bind_eq_some_iff.mp hstep
    obtain ⟨p, hp, heq⟩ := Option.map_eq_some_iff.mp hmap
    cases heq
    exact h.free hk hp

/-! ### The log -/

theorem lastPublished_append (log es : List Event) :
    lastPublished (log ++ es) = (lastPublished es).or (lastPublished log) := by
  rw [lastPublished, List.reverse_append, List.findSome?_append]
  rfl

/-- The log names the published snapshot, and so did it at each acquire. -/
structure Logged (s : State Cfg) (log : List Event) : Prop where
  current : lastPublished log = some s.current
  latest : ∀ before n rest, log = before ++ .acquired n :: rest → lastPublished before = some n

/-- The events of one step are at most one. -/
theorem Logged.step {s s' : State Cfg} {log es : List Event} {a : Label Cfg} (h : Logged s log)
    (hstep : s.step a = some (s', es)) : Logged s' (log ++ es) := by
  have hone : ∀ e, (∀ n, e = .acquired n → n = s.current) → ∀ before n rest,
      log ++ [e] = before ++ .acquired n :: rest → lastPublished before = some n := by
    intro e he before n rest heq
    rcases List.eq_nil_or_concat rest with rfl | ⟨rest, last, rfl⟩
    · obtain ⟨rfl, hlast⟩ := List.append_inj' heq rfl
      rw [he n (List.cons.inj hlast).1]
      exact h.current
    · have heq' : log ++ [e] = (before ++ .acquired n :: rest) ++ [last] := by simpa using heq
      exact h.latest before n rest (List.append_inj' heq' rfl).1
  cases a with
  | acquire =>
    obtain ⟨p, -, heq⟩ := Option.map_eq_some_iff.mp hstep
    cases heq
    refine ⟨?_, hone _ fun n hn => (Event.acquired.inj hn).symm⟩
    rw [lastPublished_append]
    exact h.current
  | release k =>
    obtain ⟨n, -, hmap⟩ := Option.bind_eq_some_iff.mp hstep
    obtain ⟨p, -, heq⟩ := Option.map_eq_some_iff.mp hmap
    cases heq
    rw [List.append_nil]
    exact ⟨h.current, h.latest⟩
  | publish cfg ok =>
    cases ok with
    | true =>
      obtain ⟨old, -, heq⟩ := Option.map_eq_some_iff.mp hstep
      cases heq
      refine ⟨?_, hone _ fun n hn => nomatch hn⟩
      rw [lastPublished_append]
      rfl
    | false =>
      cases hstep
      rw [List.append_nil]
      exact ⟨h.current, h.latest⟩
  | free k =>
    obtain ⟨n, -, hmap⟩ := Option.bind_eq_some_iff.mp hstep
    obtain ⟨p, -, heq⟩ := Option.map_eq_some_iff.mp hmap
    cases heq
    refine ⟨?_, hone _ fun n hn => nomatch hn⟩
    rw [lastPublished_append]
    exact h.current

/-! ### Runs -/

theorem Counted.safe {s : State Cfg} {log : List Event} (h : Counted s) (hlog : Logged s log) : s.Safe log := by
  refine ⟨fun n p hp hfreed => ?_, fun n p hp hdead => ?_, hlog.latest⟩
  · have howed := h.owed n p hp
    by_cases hdead : s.Dead n
    · exact ⟨Ne.symm hdead.1, List.count_eq_zero.mp hdead.2⟩
    · rw [if_neg hdead] at howed
      omega
  · rw [h.owed n p hp, if_pos hdead]

theorem snapshots_safe {cfg : Cfg} {as : List (Label Cfg)} {c : Lib.Config (State Cfg) Event}
    (hrun : exec State.step ⟨State.start cfg, [.published 0]⟩ as = some c) : c.state.Safe c.log := by
  have hinv : Counted c.state ∧ Logged c.state c.log := by
    refine exec_invariant (I := fun s log => Counted s ∧ Logged s log) (fun hi hs => ⟨hi.1.step hs, hi.2.step hs⟩)
      ⟨?_, ?_⟩ hrun
    · refine ⟨Nat.zero_lt_one, by simp [State.start], by simp [State.start], ?_, ?_⟩
      · intro n p hp
        cases List.mem_singleton.mp (List.mem_of_getElem? hp)
        rfl
      · intro n p hp
        obtain ⟨hn, -⟩ := List.getElem?_eq_some_iff.mp hp
        cases List.mem_singleton.mp (List.mem_of_getElem? hp)
        obtain rfl := Nat.lt_one_iff.mp hn
        rfl
    · refine ⟨rfl, fun before n rest heq => ?_⟩
      rcases before with _ | ⟨e, before⟩
      · cases heq
      · have := congrArg List.length heq
        simp at this
  exact hinv.1.safe hinv.2

/-- A borrow that outlives two reloads, beside one that ends under the published snapshot. -/
theorem borrowed_over_reload_safe :
    ∃ c : Lib.Config (State ℕ) Event, exec State.step ⟨State.start 7, [.published 0]⟩
        [.acquire, .publish 8 true, .acquire, .release 1, .publish 9 true, .free 0, .release 0, .free 0] = some c ∧
      c.state.snaps.map Snap.freed = [1, 1, 0] ∧ c.state.Safe c.log := by
  have hsome : (exec State.step ⟨State.start 7, [.published 0]⟩
      [.acquire, .publish 8 true, .acquire, .release 1, .publish 9 true, .free 0, .release 0, .free 0]).any
        (fun c => c.state.snaps.map Snap.freed = [1, 1, 0]) = true := by
    decide
  obtain ⟨c, hrun, hc⟩ := (Option.any_eq_true _ _).mp hsome
  exact ⟨c, hrun, of_decide_eq_true hc, snapshots_safe hrun⟩

end FractalSQL.Provider.Snapshots
