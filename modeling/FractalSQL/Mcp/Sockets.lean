import Mathlib.Data.Finset.Basic
import FractalSQL.Lib.Count
import FractalSQL.Lib.Machine

/-!
# The descriptors of accepted connections

The accept loop of `runHttpTransport`, its connection threads and its refusal threads. A
descriptor is closed by the refusal or by `closeWire`: that of `PlainWire` closes it, that
of `TlsWire` frees the `SSL` only, which was given the descriptor without its ownership.
-/
namespace FractalSQL.Mcp.Sockets
open Lib

inductive Wire where
  | plain
  | tls
deriving DecidableEq

/-- Where an accepted connection stands. -/
inductive Phase where
  | accepted
  /-- Refused, on the detached thread, in `fsqlCloseAfterReply`. -/
  | lingering
  /-- The descriptor is closed, `refusalsInFlight` is to be decremented. -/
  | lingered
  | started
  | serving
  | closing
  | finished
deriving DecidableEq

structure Conn where
  fd : ℕ
  phase : Phase := .accepted
  /-- The wire the connection thread made. -/
  wire : Option Wire := none
  /-- In `state->conns`. -/
  listed : Bool := false
deriving DecidableEq

/-- Where the accept loop stands with the connection it has accepted. -/
inductive Loop where
  | waiting
  | deciding (n : ℕ)
  | refusing (n : ℕ)
  /-- Over the refusal limit. -/
  | overflow (n : ℕ)
  | dropping (n : ℕ)
  | spawning (n : ℕ)
  | listing (n : ℕ)
deriving DecidableEq

structure Server where
  tls : Bool
  listenFd : ℕ
  /-- `maxConnections()`. -/
  connLimit : ℕ

/-- `kMaxRefusalsInFlight`. -/
def maxRefusalsInFlight : ℕ := 64

structure State where
  openFds : Finset ℕ
  conns : List Conn := []
  loop : Loop := .waiting
  refusalsInFlight : ℕ := 0

/-- The descriptor of that connection is given to `close`. -/
inductive Event where
  | closed (n : ℕ)
deriving DecidableEq

inductive Label where
  /-- `accept`, which returns a descriptor that is not open. -/
  | accept (fd : ℕ)
  /-- The accept loop goes on. -/
  | loop
  /-- The thread of a connection goes on; `ok` whether the handshake succeeds. -/
  | thread (n : ℕ) (ok : Bool)
  | reap

variable (srv : Server)

def State.start : State where
  openFds := {srv.listenFd}

def State.put (s : State) (n : ℕ) (c : Conn) : State := { s with conns := s.conns.set n c }

/-- `fsqlCloseSocket` on the descriptor of a connection. -/
def State.close (s : State) (c : Conn) : State := { s with openFds := s.openFds.erase c.fd }

/-- A finished connection leaves `state->conns`. -/
def Conn.reaped (c : Conn) : Conn := if c.phase = .finished then { c with listed := false } else c

/-- `reapLocked`. -/
def State.reap (s : State) : State :=
  { s with conns := s.conns.map Conn.reaped }

def State.overLimit (s : State) : Bool := srv.connLimit ≤ s.conns.countP Conn.listed

def State.loopStep (s : State) : Option (State × List Event) :=
  match s.loop with
  | .waiting => none
  | .deciding n =>
    let s := s.reap
    some ({ s with
      loop := if s.overLimit srv then (if srv.tls then .dropping n else .refusing n) else .spawning n }, [])
  | .refusing n =>
    (s.conns[n]?).map fun c =>
      let s' := { s with refusalsInFlight := s.refusalsInFlight + 1 }
      if s.refusalsInFlight < maxRefusalsInFlight then
        ({ s' with loop := .waiting }.put n { c with phase := .lingering }, [])
      else ({ s' with loop := .overflow n }, [])
  | .overflow n => some ({ s with refusalsInFlight := s.refusalsInFlight - 1, loop := .dropping n }, [])
  | .dropping n =>
    (s.conns[n]?).map fun c =>
      (({ s with loop := .waiting }.close c).put n { c with phase := .finished }, [.closed n])
  | .spawning n =>
    (s.conns[n]?).map fun c => ({ s with loop := .listing n }.put n { c with phase := .started }, [])
  | .listing n =>
    (s.conns[n]?).map fun c => (({ s with loop := .waiting }.put n { c with listed := true }).reap, [])

def State.threadStep (s : State) (n : ℕ) (c : Conn) (ok : Bool) : Option (State × List Event) :=
  match c.phase with
  | .lingering => some ((s.close c).put n { c with phase := .lingered }, [.closed n])
  | .lingered =>
    some ({ s with refusalsInFlight := s.refusalsInFlight - 1 }.put n { c with phase := .finished }, [])
  | .started =>
    if srv.tls then
      -- a failed handshake deletes the wire, which has no destructor of its own
      some (s.put n { c with wire := some .tls, phase := if ok then .serving else .finished }, [])
    else some (s.put n { c with wire := some .plain, phase := .serving }, [])
  | .serving => some (s.put n { c with phase := .closing }, [])
  | .closing =>
    if c.wire = some .tls then some (s.put n { c with phase := .finished }, [])
    else some ((s.close c).put n { c with phase := .finished }, [.closed n])
  | .accepted | .finished => none

def State.step (s : State) : Label → Option (State × List Event)
  | .accept fd =>
    if s.loop = .waiting ∧ fd ∉ s.openFds then
      some ({ s with
        openFds := insert fd s.openFds
        conns := s.conns ++ [{ fd := fd }]
        loop := .deciding s.conns.length }, [])
    else none
  | .loop => s.loopStep srv
  | .thread n ok => (s.conns[n]?).bind fun c => s.threadStep srv n c ok
  | .reap => some (s.reap, [])

/-- Every finished connection has had its descriptor closed once, and without a live
connection only the listener is open. -/
structure State.ClosedOnce (s : State) (log : List Event) : Prop where
  once : ∀ n c, s.conns[n]? = some c → c.phase = .finished → log.count (.closed n) = 1
  listener : (∀ c ∈ s.conns, c.phase = .finished) → s.openFds = {srv.listenFd}

/-! ### What is open -/

/-- The descriptor has been closed by its connection. -/
def Conn.shut (c : Conn) : Bool :=
  match c.phase with
  | .lingered => true
  | .finished => c.wire ≠ some .tls
  | _ => false

/-- A connection without a thread of its own has no wire. -/
def Conn.Ok (c : Conn) : Prop :=
  match c.phase with
  | .accepted | .lingering | .lingered | .started => c.wire = none
  | _ => True

/-- The connection that nothing but the loop has touched. -/
def Loop.fresh : Loop → Option ℕ
  | .deciding n | .refusing n | .overflow n | .dropping n | .spawning n => some n
  | .waiting | .listing _ => none

structure Owned (s : State) (log : List Event) : Prop where
  openFds : ∀ fd, fd ∈ s.openFds ↔
    fd = srv.listenFd ∨ ∃ (n : ℕ) (c : Conn), s.conns[n]? = some c ∧ c.fd = fd ∧ c.shut = false
  listener : ∀ c ∈ s.conns, c.shut = false → c.fd ≠ srv.listenFd
  distinct : ∀ (m n : ℕ) (c d : Conn), s.conns[m]? = some c → s.conns[n]? = some d → c.shut = false →
    d.shut = false → c.fd = d.fd → m = n
  closes : ∀ n, log.count (.closed n) = (((s.conns[n]?).any Conn.shut).toNat)
  ok : ∀ c ∈ s.conns, c.Ok
  fresh : ∀ n, s.loop.fresh = some n → ∃ c, s.conns[n]? = some c ∧ c.phase = .accepted

variable {srv}

/-- A connection moves on with its descriptor. -/
theorem Owned.put {s : State} {log : List Event} (h : Owned srv s log) {n : ℕ} {c c' : Conn} {loop : Loop} {r : ℕ}
    (hc : s.conns[n]? = some c) (hfd : c'.fd = c.fd) (hshut : c'.shut = c.shut) (hok : c'.Ok)
    (hloop : ∀ m, loop.fresh = some m → s.loop.fresh = some m ∧ m ≠ n) :
    Owned srv { openFds := s.openFds, conns := s.conns.set n c', loop := loop, refusalsInFlight := r } log := by
  refine ⟨fun fd => ?_, fun d hd hds => ?_, fun m k d e hd he hds hes heq => ?_, fun m => ?_, fun d hd => ?_,
    fun m hm => ?_⟩
  · refine (h.openFds fd).trans (or_congr_right ⟨?_, ?_⟩)
    · rintro ⟨m, d, hd, hdfd, hds⟩
      by_cases hmn : m = n
      · subst hmn
        cases hc.symm.trans hd
        exact ⟨m, c', getElem?_set_same hc _, hfd.trans hdfd, hshut.trans hds⟩
      · exact ⟨m, d, (List.getElem?_set_ne (Ne.symm hmn)).trans hd, hdfd, hds⟩
    · rintro ⟨m, d, hd, hdfd, hds⟩
      obtain ⟨rfl, rfl⟩ | ⟨-, hd⟩ := getElem?_set_cases hd
      · exact ⟨m, c, hc, hfd.symm.trans hdfd, hshut.symm.trans hds⟩
      · exact ⟨m, d, hd, hdfd, hds⟩
  · obtain hd | rfl := mem_of_mem_set hd
    · exact h.listener d hd hds
    · rw [hfd]
      exact h.listener c (List.mem_of_getElem? hc) (hshut.symm.trans hds)
  · obtain ⟨rfl, rfl⟩ | ⟨-, hd₀⟩ := getElem?_set_cases hd
    · obtain ⟨rfl, rfl⟩ | ⟨-, he₀⟩ := getElem?_set_cases he
      · rfl
      · exact h.distinct m k c e hc he₀ (hshut.symm.trans hds) hes (hfd.symm.trans heq)
    · obtain ⟨rfl, rfl⟩ | ⟨-, he₀⟩ := getElem?_set_cases he
      · exact h.distinct m k d c hd₀ hc hds (hshut.symm.trans hes) (heq.trans hfd)
      · exact h.distinct m k d e hd₀ he₀ hds hes heq
  · rw [h.closes m]
    by_cases hmn : m = n
    · subst hmn
      simp [getElem?_set_same hc _, hc, hshut]
    · simp [List.getElem?_set_ne (Ne.symm hmn)]
  · obtain hd | rfl := mem_of_mem_set hd
    · exact h.ok d hd
    · exact hok
  · obtain ⟨hfresh, hmn⟩ := hloop m hm
    obtain ⟨d, hd, hp⟩ := h.fresh m hfresh
    exact ⟨d, (List.getElem?_set_ne (Ne.symm hmn)).trans hd, hp⟩

/-- A connection closes its descriptor. -/
theorem Owned.close {s : State} {log : List Event} (h : Owned srv s log) {n : ℕ} {c c' : Conn} {loop : Loop} {r : ℕ}
    (hc : s.conns[n]? = some c) (hwas : c.shut = false) (hshut : c'.shut = true) (hok : c'.Ok)
    (hloop : ∀ m, loop.fresh = some m → s.loop.fresh = some m ∧ m ≠ n) :
    Owned srv { openFds := s.openFds.erase c.fd, conns := s.conns.set n c', loop := loop, refusalsInFlight := r }
      (log ++ [.closed n]) := by
  refine ⟨fun fd => ?_, fun d hd hds => ?_, fun m k d e hd he hds hes heq => ?_, fun m => ?_, fun d hd => ?_,
    fun m hm => ?_⟩
  · change fd ∈ s.openFds.erase c.fd ↔ _
    rw [Finset.mem_erase, h.openFds fd]
    constructor
    · rintro ⟨hne, hlisten | ⟨m, d, hd, hdfd, hds⟩⟩
      · exact .inl hlisten
      · refine .inr ⟨m, d, (List.getElem?_set_ne (Ne.symm ?_)).trans hd, hdfd, hds⟩
        rintro rfl
        cases hc.symm.trans hd
        exact hne hdfd.symm
    · rintro (hlisten | ⟨m, d, hd, hdfd, hds⟩)
      · refine ⟨?_, .inl hlisten⟩
        rintro rfl
        exact h.listener c (List.mem_of_getElem? hc) hwas hlisten
      · obtain ⟨rfl, rfl⟩ | ⟨hmn, hd⟩ := getElem?_set_cases hd
        · rw [hshut] at hds
          cases hds
        · refine ⟨?_, .inr ⟨m, d, hd, hdfd, hds⟩⟩
          rintro rfl
          exact hmn (h.distinct m n d c hd hc hds hwas hdfd)
  · obtain hd | rfl := mem_of_mem_set hd
    · exact h.listener d hd hds
    · rw [hshut] at hds
      cases hds
  · obtain ⟨rfl, rfl⟩ | ⟨-, hd⟩ := getElem?_set_cases hd
    · rw [hshut] at hds
      cases hds
    · obtain ⟨rfl, rfl⟩ | ⟨-, he⟩ := getElem?_set_cases he
      · rw [hshut] at hes
        cases hes
      · exact h.distinct m k d e hd he hds hes heq
  · rw [List.count_append, h.closes m]
    by_cases hmn : m = n
    · subst hmn
      simp [getElem?_set_same hc _, hc, hshut, hwas]
    · have hne : Event.closed n ≠ .closed m := fun heq => hmn (Event.closed.inj heq).symm
      simp [List.getElem?_set_ne (Ne.symm hmn), hne]
  · obtain hd | rfl := mem_of_mem_set hd
    · exact h.ok d hd
    · exact hok
  · obtain ⟨hfresh, hmn⟩ := hloop m hm
    obtain ⟨d, hd, hp⟩ := h.fresh m hfresh
    exact ⟨d, (List.getElem?_set_ne (Ne.symm hmn)).trans hd, hp⟩

theorem Owned.goto {s : State} {log : List Event} (h : Owned srv s log) {loop : Loop} {r : ℕ}
    (hloop : ∀ m, loop.fresh = some m → s.loop.fresh = some m) :
    Owned srv { s with loop := loop, refusalsInFlight := r } log :=
  ⟨h.openFds, h.listener, h.distinct, h.closes, h.ok, fun m hm => h.fresh m (hloop m hm)⟩

/-- Reaping changes no more than the list of the connections. -/
theorem Owned.reap {s : State} {log : List Event} (h : Owned srv s log) : Owned srv s.reap log := by
  have hget : ∀ m, s.reap.conns[m]? = (s.conns[m]?).map Conn.reaped := fun m => List.getElem?_map
  have hsame : ∀ c d : Conn, c.reaped = d →
      d.fd = c.fd ∧ d.shut = c.shut ∧ d.phase = c.phase ∧ d.wire = c.wire := by
    rintro c d rfl
    unfold Conn.reaped
    split <;> exact ⟨rfl, rfl, rfl, rfl⟩
  have hback : ∀ {m : ℕ} {d : Conn}, s.reap.conns[m]? = some d →
      ∃ c, s.conns[m]? = some c ∧ d.fd = c.fd ∧ d.shut = c.shut ∧ d.phase = c.phase ∧ d.wire = c.wire := by
    intro m d hd
    rw [hget] at hd
    obtain ⟨c, hc, heq⟩ := Option.map_eq_some_iff.mp hd
    exact ⟨c, hc, hsame c d heq⟩
  refine ⟨fun fd => ?_, fun d hd hds => ?_, fun m k d e hd he hds hes heq => ?_, fun m => ?_, fun d hd => ?_,
    fun m hm => ?_⟩
  · refine (h.openFds fd).trans (or_congr_right ⟨?_, ?_⟩)
    · rintro ⟨m, c, hc, hfd, hs⟩
      obtain ⟨hfd', hs', -⟩ := hsame c _ rfl
      exact ⟨m, _, (hget m).trans (by rw [hc]; rfl), hfd'.trans hfd, hs'.trans hs⟩
    · rintro ⟨m, d, hd, hfd, hs⟩
      obtain ⟨c, hc, hfd', hs', -⟩ := hback hd
      exact ⟨m, c, hc, hfd'.symm.trans hfd, hs'.symm.trans hs⟩
  · obtain ⟨m, hd⟩ := List.getElem?_of_mem hd
    obtain ⟨c, hc, hfd, hs, -⟩ := hback hd
    rw [hfd]
    exact h.listener c (List.mem_of_getElem? hc) (hs.symm.trans hds)
  · obtain ⟨c, hc, hfd, hs, -⟩ := hback hd
    obtain ⟨c', hc', hfd', hs', -⟩ := hback he
    exact h.distinct m k c c' hc hc' (hs.symm.trans hds) (hs'.symm.trans hes) (hfd.symm.trans (heq.trans hfd'))
  · rw [h.closes m, hget]
    cases hc : s.conns[m]? with
    | none => rfl
    | some c => simp [(hsame c _ rfl).2.1]
  · obtain ⟨m, hd⟩ := List.getElem?_of_mem hd
    obtain ⟨c, hc, -, -, hp, hw⟩ := hback hd
    have hok := h.ok c (List.mem_of_getElem? hc)
    unfold Conn.Ok at hok ⊢
    rw [hp, hw]
    exact hok
  · obtain ⟨c, hc, hp⟩ := h.fresh m hm
    exact ⟨_, (hget m).trans (by rw [hc]; rfl), (hsame c _ rfl).2.2.1.trans hp⟩

theorem Owned.accept {s : State} {log : List Event} (h : Owned srv s log) {fd : ℕ} (hfd : fd ∉ s.openFds) :
    Owned srv { s with
      openFds := insert fd s.openFds
      conns := s.conns ++ [{ fd := fd }]
      loop := .deciding s.conns.length } log := by
  have hcases : ∀ {m : ℕ} {d : Conn}, (s.conns ++ [{ fd := fd }])[m]? = some d →
      s.conns[m]? = some d ∨ m = s.conns.length ∧ d = { fd := fd } := by
    intro m d hd
    obtain hlt | hge := Nat.lt_or_ge m s.conns.length
    · rw [List.getElem?_append_left hlt] at hd
      exact .inl hd
    · obtain ⟨hbound, -⟩ := List.getElem?_eq_some_iff.mp hd
      rw [List.getElem?_append_right hge] at hd
      simp only [List.length_append, List.length_singleton] at hbound
      exact .inr ⟨by omega, List.mem_singleton.mp (List.mem_of_getElem? hd)⟩
  have hold : ∀ {m : ℕ} {d : Conn}, s.conns[m]? = some d → (s.conns ++ [{ fd := fd }])[m]? = some d := by
    intro m d hd
    rwa [List.getElem?_append_left (List.getElem?_eq_some_iff.mp hd).1]
  have hlast : (s.conns ++ [({ fd := fd } : Conn)])[s.conns.length]? = some { fd := fd } := by
    simp
  have hnot : ∀ {m : ℕ} {d : Conn}, s.conns[m]? = some d → d.shut = false → d.fd ≠ fd := by
    rintro m d hd hs rfl
    exact hfd ((h.openFds d.fd).mpr (.inr ⟨m, d, hd, rfl, hs⟩))
  have hlisten : fd ≠ srv.listenFd := fun heq => hfd ((h.openFds fd).mpr (.inl heq))
  refine ⟨fun x => ?_, fun d hd hds => ?_, fun m k d e hd he hds hes heq => ?_, fun m => ?_, fun d hd => ?_,
    fun m hm => ?_⟩
  · change x ∈ insert fd s.openFds ↔ _
    rw [Finset.mem_insert, h.openFds x]
    constructor
    · rintro (rfl | hx | ⟨m, d, hd, hdfd, hs⟩)
      · exact .inr ⟨s.conns.length, _, hlast, rfl, rfl⟩
      · exact .inl hx
      · exact .inr ⟨m, d, hold hd, hdfd, hs⟩
    · rintro (hx | ⟨m, d, hd, hdfd, hs⟩)
      · exact .inr (.inl hx)
      · obtain hd | ⟨-, rfl⟩ := hcases hd
        · exact .inr (.inr ⟨m, d, hd, hdfd, hs⟩)
        · exact .inl hdfd.symm
  · obtain hd | hd := List.mem_append.mp hd
    · exact h.listener d hd hds
    · cases List.mem_singleton.mp hd
      exact hlisten
  · obtain hd | ⟨rfl, rfl⟩ := hcases hd
    · obtain he | ⟨rfl, rfl⟩ := hcases he
      · exact h.distinct m k d e hd he hds hes heq
      · exact absurd heq (hnot hd hds)
    · obtain he | ⟨rfl, rfl⟩ := hcases he
      · exact absurd heq.symm (hnot he hes)
      · rfl
  · rw [h.closes m]
    obtain hlt | hge := Nat.lt_or_ge m s.conns.length
    · rw [List.getElem?_append_left hlt]
    · rw [List.getElem?_eq_none hge, List.getElem?_append_right hge]
      cases m - s.conns.length <;> rfl
  · obtain hd | hd := List.mem_append.mp hd
    · exact h.ok d hd
    · cases List.mem_singleton.mp hd
      rfl
  · cases hm
    exact ⟨_, hlast, rfl⟩

/-! ### Steps -/

theorem Owned.loopStep {s s' : State} {log es : List Event} (h : Owned srv s log)
    (hstep : s.loopStep srv = some (s', es)) : Owned srv s' (log ++ es) := by
  unfold State.loopStep at hstep
  cases hloop : s.loop with
  | waiting =>
    simp only [hloop] at hstep
    cases hstep
  | deciding n =>
    simp only [hloop] at hstep
    cases hstep
    rw [List.append_nil]
    refine h.reap.goto fun m hm => ?_
    change s.loop.fresh = some m
    rw [hloop]
    split at hm
    · split at hm <;> exact hm
    · exact hm
  | refusing n =>
    simp only [hloop] at hstep
    obtain ⟨c, hc, heq⟩ := Option.map_eq_some_iff.mp hstep
    obtain ⟨d, hd, hp⟩ := h.fresh n (by rw [hloop]; rfl)
    cases hc.symm.trans hd
    have hok := h.ok c (List.mem_of_getElem? hc)
    rw [Conn.Ok, hp] at hok
    split at heq
    · cases heq
      rw [List.append_nil]
      exact h.put hc rfl (by simp [Conn.shut, hp]) hok fun m hm => nomatch hm
    · cases heq
      rw [List.append_nil]
      exact h.goto fun m hm => by rw [hloop]; exact hm
  | overflow n =>
    simp only [hloop] at hstep
    cases hstep
    rw [List.append_nil]
    exact h.goto fun m hm => by rw [hloop]; exact hm
  | dropping n =>
    simp only [hloop] at hstep
    obtain ⟨c, hc, heq⟩ := Option.map_eq_some_iff.mp hstep
    obtain ⟨d, hd, hp⟩ := h.fresh n (by rw [hloop]; rfl)
    cases hc.symm.trans hd
    cases heq
    have hok := h.ok c (List.mem_of_getElem? hc)
    rw [Conn.Ok, hp] at hok
    exact h.close hc (by simp [Conn.shut, hp]) (by simp [Conn.shut, hok]) trivial fun m hm => nomatch hm
  | spawning n =>
    simp only [hloop] at hstep
    obtain ⟨c, hc, heq⟩ := Option.map_eq_some_iff.mp hstep
    obtain ⟨d, hd, hp⟩ := h.fresh n (by rw [hloop]; rfl)
    cases hc.symm.trans hd
    cases heq
    have hok := h.ok c (List.mem_of_getElem? hc)
    rw [Conn.Ok, hp] at hok
    rw [List.append_nil]
    exact h.put hc rfl (by simp [Conn.shut, hp]) hok fun m hm => nomatch hm
  | listing n =>
    simp only [hloop] at hstep
    obtain ⟨c, hc, heq⟩ := Option.map_eq_some_iff.mp hstep
    cases heq
    rw [List.append_nil]
    refine (@Owned.put srv s log h n c { c with listed := true } .waiting s.refusalsInFlight hc rfl rfl ?_
      fun m hm => nomatch hm).reap
    exact h.ok c (List.mem_of_getElem? hc)

theorem Owned.threadStep {s s' : State} {log es : List Event} {n : ℕ} {c : Conn} {ok : Bool} (h : Owned srv s log)
    (hc : s.conns[n]? = some c) (hstep : s.threadStep srv n c ok = some (s', es)) : Owned srv s' (log ++ es) := by
  have hok := h.ok c (List.mem_of_getElem? hc)
  have hloop : c.phase ≠ .accepted → ∀ m, s.loop.fresh = some m → s.loop.fresh = some m ∧ m ≠ n := by
    intro hne m hm
    refine ⟨hm, ?_⟩
    rintro rfl
    obtain ⟨d, hd, hp⟩ := h.fresh m hm
    cases hc.symm.trans hd
    exact hne hp
  unfold State.threadStep at hstep
  unfold Conn.Ok at hok
  cases hp : c.phase with
  | lingering =>
    simp only [hp] at hstep hok
    cases hstep
    exact h.close hc (by simp [Conn.shut, hp]) rfl hok (hloop (by simp [hp]))
  | lingered =>
    simp only [hp] at hstep hok
    cases hstep
    rw [List.append_nil]
    exact h.put hc rfl (by simp [Conn.shut, hp, hok]) trivial (hloop (by simp [hp]))
  | started =>
    simp only [hp] at hstep
    split at hstep
    · cases hstep
      rw [List.append_nil]
      refine h.put hc rfl ?_ ?_ (hloop (by simp [hp]))
      · cases ok <;> simp [Conn.shut, hp]
      · cases ok <;> exact trivial
    · cases hstep
      rw [List.append_nil]
      exact h.put hc rfl (by simp [Conn.shut, hp]) trivial (hloop (by simp [hp]))
  | serving =>
    simp only [hp] at hstep
    cases hstep
    rw [List.append_nil]
    exact h.put hc rfl (by simp [Conn.shut, hp]) trivial (hloop (by simp [hp]))
  | closing =>
    simp only [hp] at hstep
    split at hstep
    · rename_i hw
      cases hstep
      rw [List.append_nil]
      exact h.put hc rfl (by simp [Conn.shut, hp, hw]) trivial (hloop (by simp [hp]))
    · rename_i hw
      cases hstep
      exact h.close hc (by simp [Conn.shut, hp]) (by simp [Conn.shut, hw]) trivial (hloop (by simp [hp]))
  | accepted | finished =>
    simp only [hp] at hstep
    cases hstep

theorem Owned.step {s s' : State} {log es : List Event} {a : Label} (h : Owned srv s log)
    (hstep : s.step srv a = some (s', es)) : Owned srv s' (log ++ es) := by
  cases a with
  | accept fd =>
    simp only [State.step, Option.ite_none_right_eq_some] at hstep
    obtain ⟨⟨-, hfd⟩, heq⟩ := hstep
    cases heq
    rw [List.append_nil]
    exact h.accept hfd
  | loop => exact h.loopStep hstep
  | thread n ok =>
    obtain ⟨c, hc, hthread⟩ := Option.bind_eq_some_iff.mp hstep
    exact h.threadStep hc hthread
  | reap =>
    cases hstep
    rw [List.append_nil]
    exact h.reap

/-! ### Runs -/

theorem Owned.of_run {as : List Label} {c : Config State Event}
    (hrun : exec (State.step srv) ⟨State.start srv, []⟩ as = some c) : Owned srv c.state c.log := by
  refine exec_invariant (I := Owned srv) (fun hi hs => hi.step hs) ?_ hrun
  exact ⟨fun fd => by simp [State.start], by simp [State.start], by simp [State.start], by simp [State.start],
    by simp [State.start], fun n hn => nomatch hn⟩

/-- What a finished connection has been closed, and what is left open without a live one. -/
theorem closedOnce_iff_of_owned {s : State} {log : List Event} (h : Owned srv s log) :
    s.ClosedOnce srv log ↔ ∀ c ∈ s.conns, c.phase = .finished → c.wire ≠ some .tls := by
  have hshut : ∀ c : Conn, c.phase = .finished → (c.shut = true ↔ c.wire ≠ some .tls) := fun c hp => by
    simp [Conn.shut, hp]
  constructor
  · intro hclosed c hc hp
    obtain ⟨n, hn⟩ := List.getElem?_of_mem hc
    have hone := hclosed.once n c hn hp
    rw [h.closes n, hn] at hone
    refine (hshut c hp).mp ?_
    cases hs : c.shut with
    | true => rfl
    | false => simp [hs] at hone
  · intro hplain
    refine ⟨fun n c hn hp => ?_, fun hall => ?_⟩
    · rw [h.closes n, hn]
      simp [(hshut c hp).mpr (hplain c (List.mem_of_getElem? hn) hp)]
    · ext fd
      rw [h.openFds fd, Finset.mem_singleton, or_iff_left]
      rintro ⟨n, c, hn, -, hs⟩
      have hc := List.mem_of_getElem? hn
      rw [(hshut c (hall c hc)).mpr (hplain c hc (hall c hc))] at hs
      cases hs

theorem closedOnce_iff {as : List Label} {c : Config State Event}
    (hrun : exec (State.step srv) ⟨State.start srv, []⟩ as = some c) :
    c.state.ClosedOnce srv c.log ↔ ∀ d ∈ c.state.conns, d.phase = .finished → d.wire ≠ some .tls :=
  closedOnce_iff_of_owned (Owned.of_run hrun)

def plainServer : Server := { tls := false, listenFd := 3, connLimit := 1 }
def tlsServer : Server := { tls := true, listenFd := 3, connLimit := 1 }

/-- A connection served beside one that is refused. -/
def servedAndRefused : List Label :=
  [.accept 4, .loop, .loop, .loop, .accept 5, .loop, .loop, .thread 0 true, .thread 1 true, .thread 0 true,
    .thread 1 true, .thread 0 true]

/-- A handshake that fails, and one that succeeds. -/
def handshakes : List Label :=
  [.accept 4, .loop, .loop, .loop, .thread 0 false, .accept 5, .loop, .loop, .loop, .thread 1 true, .thread 1 true,
    .thread 1 true]

theorem servedAndRefused_closedOnce :
    ∃ c, exec (State.step plainServer) ⟨State.start plainServer, []⟩ servedAndRefused = some c ∧
      c.state.conns.map Conn.phase = [.finished, .finished] ∧ c.state.ClosedOnce plainServer c.log := by
  have hsome : (exec (State.step plainServer) ⟨State.start plainServer, []⟩ servedAndRefused).any (fun c =>
      c.state.conns.map Conn.phase = [.finished, .finished] ∧ c.state.conns.map Conn.wire = [some .plain, none]) =
        true := by
    decide
  obtain ⟨c, hrun, hc⟩ := (Option.any_eq_true _ _).mp hsome
  obtain ⟨hphases, hwires⟩ := of_decide_eq_true hc
  refine ⟨c, hrun, hphases, (closedOnce_iff hrun).mpr fun d hd _ => ?_⟩
  have hmem : d.wire ∈ c.state.conns.map Conn.wire := List.mem_map_of_mem hd
  rw [hwires] at hmem
  rintro htls
  simp [htls] at hmem

/-- The descriptors of TLS connections stay open. -/
theorem tls_descriptors_left_open :
    ¬ ∀ (srv : Server) (as : List Label) (c : Config State Event),
      exec (State.step srv) ⟨State.start srv, []⟩ as = some c → c.state.ClosedOnce srv c.log := by
  intro h
  have hsome : (exec (State.step tlsServer) ⟨State.start tlsServer, []⟩ handshakes).any (fun c =>
      c.state.conns.map Conn.phase = [.finished, .finished] ∧ c.log = [] ∧ c.state.openFds = {3, 4, 5}) = true := by
    decide
  obtain ⟨c, hrun, hc⟩ := (Option.any_eq_true _ _).mp hsome
  obtain ⟨hphases, -, hopen⟩ := of_decide_eq_true hc
  have honly := (h tlsServer handshakes c hrun).listener fun d hd => by
    have hmem : d.phase ∈ c.state.conns.map Conn.phase := List.mem_map_of_mem hd
    rw [hphases] at hmem
    simpa using hmem
  rw [hopen] at honly
  have hmem : 4 ∈ ({3, 4, 5} : Finset ℕ) := by decide
  rw [honly] at hmem
  revert hmem
  decide

end FractalSQL.Mcp.Sockets
