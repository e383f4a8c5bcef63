import FractalSQL.Service.Wire

/-!
# Every call carries a handle of its own connection

The invariant ties a statement's generation, the socket in use and the bytes of the
request being sent: an open statement holds a handle that was minted for it on the
connection of its generation, a call in progress carries the statement's handle,
and when the hook has run that generation is the current one.
-/
namespace FractalSQL.Service
open Lib

/-- The daemon minted the handle while it served an init of the statement that was
sent on the connection. -/
def MintedFor (log : List SystemEvent) (k : Sock) (stmt : ℕ) (id : UInt64) : Prop :=
  ∃ f payload, f.stmt = stmt ∧ f.req = .init payload ∧ .sent k f ∈ log ∧
    .served k (some f) (.minted k.conn id) ∈ log

/-- The request is a call with the statement's handle in its place. -/
def CarriesHandle (s : Shim) (stmt : ℕ) (req : Request) : Prop :=
  ∃ st token payload, s.stmts stmt = some st ∧ req = .call token payload ∧
    (payload.headD 0).toNat = st.name.length ∧ 1 + st.name.length + 8 ≤ payload.length ∧
    handleAt (1 + st.name.length) payload = st.handle

/-- What the shim knows where it stands. -/
def PcOk (s : Shim) : Prop :=
  match s.pc with
  | .idle => True
  | .init _ name _ x => name.length < 256 ∧ ∃ payload, x.req = .init payload
  | .call stmt x => CarriesHandle s stmt x.req ∧
    (x.point = .send → ∀ st, s.stmts stmt = some st → st.gen = s.gen)
  | .reopen stmt x outer => (∃ payload, x.req = .init payload) ∧ CarriesHandle s stmt outer.req
  | .deinit stmt x => ∃ st, s.stmts stmt = some st ∧ x.req = .deinit (leBytes 8 st.handle.toNat)

/-- The frame awaited is the one of the roundtrip in progress. -/
def AwaitsOwn (s : Shim) : Prop :=
  ∀ f, s.pc.awaited = some f → ∃ x, s.pc.exchange = some (f.stmt, x) ∧ f.req = x.req

/-! ### The shim's side -/

section Shim
variable {s : Shim} {stmt : ℕ} {x : Exchange}

theorem CarriesHandle.congr {s' : Shim} {req : Request} (h : CarriesHandle s stmt req)
    (hstmts : s'.stmts = s.stmts) : CarriesHandle s' stmt req := by
  obtain ⟨st, token, payload, hst, hrest⟩ := h
  exact ⟨st, token, payload, hstmts ▸ hst, hrest⟩

/-- The roundtrip in progress moves to another point, which for a call is not the
sending of its frame. -/
theorem PcOk.repoint (h : PcOk s) (hx : s.pc.exchange = some (stmt, x)) {s' : Shim} {n : ℕ} {point : Point}
    (hstmts : s'.stmts = s.stmts) (hpc : s'.pc = s.pc.setExchange { x with attempt := n, point := point })
    (hpoint : point = .send → ∀ i y, s.pc ≠ .call i y) : PcOk s' := by
  unfold PcOk at h ⊢
  rw [hpc, hstmts]
  cases hold : s.pc with
  | idle => trivial
  | init i name nargs y =>
    rw [hold] at h hx
    cases hx
    exact h
  | call i y =>
    rw [hold] at h hx
    cases hx
    exact ⟨h.1.congr hstmts, fun hp => absurd hold (hpoint hp _ _)⟩
  | reopen i y outer =>
    rw [hold] at h hx
    cases hx
    exact ⟨h.1, h.2.congr hstmts⟩
  | deinit i y =>
    rw [hold] at h hx
    cases hx
    exact h

theorem PcOk.giveUp (h : PcOk s) : PcOk s.giveUp := by
  unfold PcOk at h
  unfold Shim.giveUp
  split
  case h_5 i y outer hpc =>
    rw [hpc] at h
    split
    · exact ⟨h.2.congr rfl, nofun⟩
    · trivial
  all_goals trivial

theorem PcOk.retry (h : PcOk s) (hx : s.pc.exchange = some (stmt, x)) : PcOk (s.retry x) := by
  unfold Shim.retry
  split
  · exact h.repoint hx rfl rfl nofun
  · have hclosed : PcOk { s with fd := none } := h
    exact hclosed.giveUp

/-- A call whose statement is bound to the current generation goes on to its frame,
another one to the re-opening of its statement. -/
theorem PcOk.callReconnect (h : PcOk s) (hpc : s.pc = .call stmt x) : PcOk (s.callReconnect stmt x) := by
  unfold PcOk at h
  rw [hpc] at h
  obtain ⟨st, token, payload, hst, hreq, hrest⟩ := h.1
  unfold Shim.callReconnect
  rw [hst]
  simp only
  split
  · rename_i hgen
    simp only [PcOk, Shim.setPoint, hpc, Pc.setExchange]
    refine ⟨h.1.congr rfl, fun _ st' hst' => ?_⟩
    cases hst.symm.trans hst'
    exact hgen
  · exact ⟨⟨_, rfl⟩, h.1.congr rfl⟩

/-- A good answer to the re-opening puts the new handle into the call. -/
theorem CarriesHandle.patch {st : Stmt} {req : Request} (h : CarriesHandle s stmt req)
    (hst : s.stmts stmt = some st) (handle : UInt64) {s' : Shim}
    (hst' : s'.stmts stmt = some { st with handle, gen := s.gen }) :
    CarriesHandle s' stmt (req.patch (1 + st.name.length) handle) := by
  obtain ⟨st₀, token, payload, hst₀, rfl, hhead, hlen, -⟩ := h
  cases hst.symm.trans hst₀
  refine ⟨_, token, _, hst', rfl, ?_, ?_, ?_⟩
  · rw [patchHandle_headD (by omega) (by omega)]
    exact hhead
  · rw [patchHandle_length hlen]
    exact hlen
  · exact handleAt_patchHandle ((Nat.le_add_right _ 8).trans hlen) handle

theorem PcOk.answered (h : PcOk s) (reply : Reply) (stmtOk : Bool) : PcOk (s.answered reply stmtOk) := by
  unfold PcOk at h
  unfold Shim.answered
  split
  case h_4 => split <;> trivial
  case h_5 i y outer hpc =>
    rw [hpc] at h
    split
    · rename_i st hst
      split
      · refine ⟨h.2.patch hst _ (Function.update_self ..), fun _ st' hst' => ?_⟩
        cases (Function.update_self ..).symm.trans hst'
        rfl
      · trivial
    · trivial
  all_goals trivial

/-! ### Nothing is awaited but what was just sent -/

theorem awaitsOwn_of_none (h : s.pc.awaited = none) : AwaitsOwn s := by
  intro f hf
  rw [h] at hf
  cases hf

theorem setExchange_awaited {pc : Pc} {n : ℕ} {point : Point} (hpoint : ∀ f, point ≠ .await f) :
    (pc.setExchange { x with attempt := n, point := point }).awaited = none := by
  cases point with
  | await f => exact absurd rfl (hpoint f)
  | _ => cases pc <;> rfl

theorem giveUp_awaited (s : Shim) : s.giveUp.pc.awaited = none := by
  unfold Shim.giveUp
  split
  case h_5 => split <;> rfl
  all_goals rfl

theorem retry_awaited (s : Shim) (x : Exchange) : (s.retry x).pc.awaited = none := by
  unfold Shim.retry
  split
  · exact setExchange_awaited nofun
  · exact giveUp_awaited _

theorem answered_awaited (s : Shim) (reply : Reply) (stmtOk : Bool) :
    (s.answered reply stmtOk).pc.awaited = none := by
  unfold Shim.answered
  split
  case h_4 => split <;> rfl
  case h_5 =>
    split
    · split <;> rfl
    · rfl
  all_goals rfl

theorem callReconnect_awaited (s : Shim) (stmt : ℕ) (x : Exchange) :
    (s.callReconnect stmt x).pc.awaited = none := by
  unfold Shim.callReconnect
  split
  · split
    · exact setExchange_awaited nofun
    · rfl
  · exact setExchange_awaited nofun

theorem exchange_setPoint (hx : s.pc.exchange = some (stmt, x)) {n : UInt32} {point : Point} :
    ({ s with nextRequest := n }.setPoint x point).pc.exchange = some (stmt, { x with point }) := by
  unfold Shim.setPoint
  cases hpc : s.pc with
  | idle =>
    rw [hpc] at hx
    cases hx
  | _ =>
    rw [hpc] at hx
    cases hx
    rfl

/-! ### Statements -/

theorem callReconnect_stmts (s : Shim) (stmt : ℕ) (x : Exchange) :
    (s.callReconnect stmt x).stmts = s.stmts := by
  unfold Shim.callReconnect
  split
  · split <;> rfl
  · rfl

/-- A statement that is still there after one is dropped. -/
theorem stmts_of_update_none {stmts : ℕ → Option Stmt} {j i : ℕ} {st : Stmt}
    (h : Function.update stmts j none i = some st) : stmts i = some st := by
  rw [Function.update_apply] at h
  split at h
  · cases h
  · exact h

theorem giveUp_stmts {i : ℕ} {st : Stmt} (h : s.giveUp.stmts i = some st) : s.stmts i = some st := by
  unfold Shim.giveUp at h
  split at h
  case h_4 => exact stmts_of_update_none h
  case h_5 => split at h <;> exact h
  all_goals exact h

theorem retry_stmts {n : UInt32} {i : ℕ} {st : Stmt}
    (h : ({ s with nextRequest := n }.retry x).stmts i = some st) : s.stmts i = some st := by
  unfold Shim.retry at h
  split at h
  · exact h
  · exact giveUp_stmts (s := { s with nextRequest := n, fd := none }) h

/-- The statements after an answer: the old ones, and the one that was opened or
re-opened by it. -/
theorem answered_stmts {reply : Reply} {stmtOk : Bool} (hok : PcOk s)
    (hnames : ∀ i st, s.stmts i = some st → st.name.length < 256) {i : ℕ} {st : Stmt}
    (h : (s.answered reply stmtOk).stmts i = some st) :
    s.stmts i = some st ∨
      (st.name.length < 256 ∧ st.gen = s.gen ∧ st.handle = handleAt 0 reply.body ∧ reply.status = .ok ∧
        ∃ x payload, s.pc.exchange = some (i, x) ∧ x.req = .init payload) := by
  unfold PcOk at hok
  unfold Shim.answered at h
  split at h
  case h_1 | h_2 => exact .inl h
  case h_3 => exact .inl (stmts_of_update_none h)
  case h_4 j name nargs y hpc =>
    rw [hpc] at hok
    split at h
    · rename_i hreply
      simp only [Function.update_apply] at h
      split at h
      · rename_i hij
        cases h
        have hstatus := hreply.1
        rw [initReplyOk, decide_eq_true_eq] at hstatus
        obtain ⟨payload, hreq⟩ := hok.2
        exact .inr ⟨hok.1, rfl, rfl, hstatus.1, y, payload, by rw [hpc, hij]; rfl, hreq⟩
      · exact .inl h
    · exact .inl h
  case h_5 j y outer hpc =>
    rw [hpc] at hok
    split at h
    · rename_i st₀ hst₀
      split at h
      · rename_i hreply
        simp only [Function.update_apply] at h
        split at h
        · rename_i hij
          cases h
          rw [reopenReplyOk, decide_eq_true_eq] at hreply
          obtain ⟨payload, hreq⟩ := hok.1
          exact .inr ⟨hnames j st₀ hst₀, rfl, rfl, hreply.1, y, payload, by rw [hpc, hij]; rfl, hreq⟩
        · exact .inl h
      · exact .inl h
    · exact .inl h

end Shim

/-! ### The invariant -/

/-- The shim's own state is consistent, and every open statement holds a handle that
was minted for it on the connection of its generation. -/
structure Bound (s : System) (log : List SystemEvent) : Prop where
  numbered : Numbered s log
  wired : Wired s log
  pc : PcOk s.shim
  awaits : AwaitsOwn s.shim
  names : ∀ i st, s.shim.stmts i = some st → st.name.length < 256
  minted : ∀ i st, s.shim.stmts i = some st →
    ∃ k, .connected k st.gen ∈ log ∧ MintedFor log k i st.handle

section Step
variable {fns : List Fn} {s s' : System} {log es : List SystemEvent} {l : SystemLabel}

theorem MintedFor.mono {k : Sock} {stmt : ℕ} {id : UInt64} (h : MintedFor log k stmt id) :
    MintedFor (log ++ es) k stmt id := by
  obtain ⟨f, payload, hstmt, hreq, hsent, hserved⟩ := h
  exact ⟨f, payload, hstmt, hreq, List.mem_append_left es hsent, List.mem_append_left es hserved⟩

/-- A step after which the shim has no statement it did not have. -/
theorem Bound.keep (h : Bound s log) (hn : Numbered s' (log ++ es)) (hw : Wired s' (log ++ es))
    (hpc : PcOk s'.shim) (hawaits : AwaitsOwn s'.shim)
    (hstmts : ∀ i st, s'.shim.stmts i = some st → s.shim.stmts i = some st) : Bound s' (log ++ es) where
  numbered := hn
  wired := hw
  pc := hpc
  awaits := hawaits
  names i st hst := h.names i st (hstmts i st hst)
  minted i st hst := by
    obtain ⟨k, hconn, hminted⟩ := h.minted i st (hstmts i st hst)
    exact ⟨k, List.mem_append_left es hconn, hminted.mono⟩

/-- An attempt fails. -/
theorem Bound.retry (h : Bound s log) (hn : Numbered s' (log ++ es)) (hw : Wired s' (log ++ es))
    {stmt : ℕ} {x : Exchange} {n : UInt32} (hx : s.shim.pc.exchange = some (stmt, x))
    (hshim : s'.shim = { s.shim with nextRequest := n }.retry x) : Bound s' (log ++ es) := by
  have hpc : PcOk { s.shim with nextRequest := n } := h.pc
  refine h.keep hn hw ?_ (awaitsOwn_of_none ?_) fun i st hst => ?_
  · rw [hshim]
    exact hpc.retry hx
  · rw [hshim]
    exact retry_awaited ..
  · rw [hshim] at hst
    exact retry_stmts hst

/-- The answer to an init or a re-opening was minted on the socket in use. -/
theorem Bound.answer_minted (h : Bound s log) {k : Sock} {f : Frame} {reply : Reply} {stmt : ℕ}
    {x : Exchange} {payload : Bytes} (hfd : s.shim.fd = some k)
    (hresponse : (s.links k).response = some (f, reply)) (hstatus : reply.status = .ok)
    (hx : s.shim.pc.exchange = some (stmt, x)) (hreq : x.req = .init payload) :
    MintedFor log k stmt (handleAt 0 reply.body) := by
  have hmem := mem_frames_response hresponse
  obtain ⟨hawait, -⟩ := h.wired.frames_eq hfd hmem
  obtain ⟨y, hy, hfreq⟩ := h.awaits f hawait
  cases hx.symm.trans hy
  rw [hreq] at hfreq
  exact ⟨f, payload, rfl, hfreq, h.wired.sent k f hmem,
    h.wired.response k f payload reply hresponse hfreq hstatus⟩

theorem Bound.answered (h : Bound s log) (hn : Numbered s' (log ++ [])) (hw : Wired s' (log ++ []))
    {k : Sock} {f : Frame} {reply : Reply} {stmtOk : Bool} (hfd : s.shim.fd = some k)
    (hresponse : (s.links k).response = some (f, reply)) (hshim : s'.shim = s.shim.answered reply stmtOk) :
    Bound s' (log ++ []) := by
  have hcases {i : ℕ} {st : Stmt} (hst : s'.shim.stmts i = some st) :=
    answered_stmts h.pc h.names (hshim ▸ hst)
  refine ⟨hn, hw, hshim ▸ h.pc.answered reply stmtOk,
    awaitsOwn_of_none (hshim ▸ answered_awaited ..), fun i st hst => ?_, fun i st hst => ?_⟩
  · rcases hcases hst with hold | ⟨hname, -⟩
    · exact h.names i st hold
    · exact hname
  · rw [List.append_nil]
    rcases hcases hst with hold | ⟨-, hgen, hhandle, hstatus, x, payload, hx, hreq⟩
    · exact h.minted i st hold
    · rw [hgen, hhandle]
      exact ⟨k, h.numbered.fd k hfd, h.answer_minted hfd hresponse hstatus hx hreq⟩

theorem callPayload_carries {shim : Shim} {stmt : ℕ} {st : Stmt} (hst : shim.stmts stmt = some st)
    (hname : st.name.length < 256) (token : UInt64) (nargs : ℕ) (args : Bytes) :
    CarriesHandle shim stmt (.call token (callPayload st.name st.handle nargs args)) := by
  refine ⟨st, token, _, hst, rfl, ?_, ?_, handleAt_callPayload ..⟩
  · rw [callPayload, List.headD_cons, UInt8.toNat_ofNat', Nat.mod_eq_of_lt hname]
  · simp only [callPayload, List.length_cons, List.length_append, leBytes_length]
    omega

theorem afterConnect_ne_send {pc : Pc} (h : pc.afterConnect = .send) (i : ℕ) (y : Exchange) :
    pc ≠ .call i y := by
  rintro rfl
  cases h

theorem afterConnect_ne_await (pc : Pc) (f : Frame) : pc.afterConnect ≠ .await f := by
  cases pc <;> nofun

theorem Bound.move (h : Bound s log) (hm : SystemMove fns s l s' es) : Bound s' (log ++ es) := by
  have hn := h.numbered.move hm
  have hw := h.wired.move hm
  cases hm with
  | udfInit hpc hname =>
    exact h.keep hn hw ⟨hname, _, rfl⟩ (awaitsOwn_of_none rfl) fun _ _ hst => hst
  | udfCall hpc hst =>
    exact h.keep hn hw ⟨callPayload_carries hst (h.names _ _ hst) _ _ _, nofun⟩
      (awaitsOwn_of_none rfl) fun _ _ hst => hst
  | udfDeinit hpc hst =>
    exact h.keep hn hw ⟨_, hst, rfl⟩ (awaitsOwn_of_none rfl) fun _ _ hst => hst
  | forget hpc hst =>
    refine h.keep hn hw ?_ (awaitsOwn_of_none ?_) fun _ _ hst => stmts_of_update_none hst
    · simp [PcOk, hpc]
    · simp [hpc, Pc.awaited, Pc.exchange]
  | keepConn hx | newConn hx =>
    exact h.keep hn hw (h.pc.repoint hx rfl rfl afterConnect_ne_send)
      (awaitsOwn_of_none (setExchange_awaited (afterConnect_ne_await _))) fun _ _ hst => hst
  | retry hx | writeFailed hx => exact h.retry hn hw hx rfl
  | hook hpc =>
    exact h.keep hn hw (h.pc.callReconnect hpc) (awaitsOwn_of_none (callReconnect_awaited ..))
      fun _ _ hst => by rwa [callReconnect_stmts] at hst
  | write hx hpoint hfd hf =>
    refine h.keep hn hw (h.pc.repoint hx rfl rfl nofun) (fun g hg => ?_) fun _ _ hst => hst
    cases (awaited_setPoint hx _).symm.trans hg
    rw [hf]
    exact ⟨_, exchange_setPoint hx, rfl⟩
  | recv hx hpoint hfd hresponse hshim =>
    rcases hshim with rfl | rfl | rfl
    · exact h.retry hn hw hx rfl
    · exact h.answered hn hw hfd hresponse rfl
    · exact h.keep hn hw h.pc.giveUp (awaitsOwn_of_none (giveUp_awaited _)) fun _ _ hst => giveUp_stmts hst
  | receive | daemon | restart => exact h.keep hn hw h.pc h.awaits fun _ _ hst => hst

end Step

theorem bound_init (base : UInt64) : Bound (System.initial base) [] where
  numbered := ⟨nofun, nofun, nofun, nofun⟩
  wired := {
    flight := fun _ h => nomatch h
    sent := fun _ _ h => nomatch h
    serving := fun _ _ _ _ h => nomatch h
    response := fun _ _ _ _ h => nomatch h }
  pc := trivial
  awaits := awaitsOwn_of_none rfl
  names := nofun
  minted := nofun

theorem bound_reachable {fns : List Fn} {base : UInt64} {labels : List SystemLabel}
    {cfg : Config System SystemEvent}
    (hrun : exec (System.step fns) ⟨System.initial base, []⟩ labels = some cfg) : Bound cfg.state cfg.log :=
  exec_invariant (fun h hs => h.move (system_move hs)) (bound_init base) hrun

/-! ### Calls -/

/-- What the request of the roundtrip in progress is. -/
theorem PcOk.request_cases {s : Shim} {stmt : ℕ} {x : Exchange} (h : PcOk s)
    (hx : s.pc.exchange = some (stmt, x)) :
    (∃ payload, x.req = .init payload) ∨
      (CarriesHandle s stmt x.req ∧ (x.point = .send → ∀ st, s.stmts stmt = some st → st.gen = s.gen)) ∨
      (s.pc = .deinit stmt x ∧
        ∃ st, s.stmts stmt = some st ∧ x.req = .deinit (leBytes 8 st.handle.toNat)) := by
  unfold PcOk at h
  cases hpc : s.pc with
  | idle =>
    rw [hpc] at hx
    cases hx
  | init i name nargs y =>
    rw [hpc] at h hx
    cases hx
    exact .inl h.2
  | call i y =>
    rw [hpc] at h hx
    cases hx
    exact .inr (.inl h)
  | reopen i y outer =>
    rw [hpc] at h hx
    cases hx
    exact .inl h.1
  | deinit i y =>
    rw [hpc] at h hx
    cases hx
    exact .inr (.inr ⟨rfl, h⟩)

/-- A call that is about to be sent has been through its hook. -/
theorem PcOk.send_call {s : Shim} {stmt : ℕ} {x : Exchange} {token : UInt64} {payload : Bytes} (h : PcOk s)
    (hx : s.pc.exchange = some (stmt, x)) (hpoint : x.point = .send) (hreq : x.req = .call token payload) :
    ∃ st, s.stmts stmt = some st ∧ st.gen = s.gen ∧ callHandle payload = st.handle := by
  rcases h.request_cases hx with ⟨p, hp⟩ | ⟨⟨st, token', payload', hst, hreq', hhead, -, hhandle⟩, hgen⟩ |
    ⟨-, st, -, hp⟩
  · cases hreq.symm.trans hp
  · cases hreq.symm.trans hreq'
    exact ⟨st, hst, hgen hpoint st hst, by rw [callHandle, hhead, hhandle]⟩
  · cases hreq.symm.trans hp

theorem PcOk.send_deinit {s : Shim} {stmt : ℕ} {x : Exchange} {payload : Bytes} (h : PcOk s)
    (hx : s.pc.exchange = some (stmt, x)) (hreq : x.req = .deinit payload) :
    ∃ st, s.pc = .deinit stmt x ∧ s.stmts stmt = some st ∧ payload = leBytes 8 st.handle.toNat := by
  rcases h.request_cases hx with ⟨p, hp⟩ | ⟨⟨st, token, p, -, hp, -⟩, -⟩ | ⟨hpc, st, hst, hp⟩
  · cases hreq.symm.trans hp
  · cases hreq.symm.trans hp
  · cases hreq.symm.trans hp
    exact ⟨st, hpc, hst, rfl⟩

theorem Bound.call_minted {s : System} {log : List SystemEvent} {stmt : ℕ} {x : Exchange} {k : Sock}
    {token : UInt64} {payload : Bytes} (h : Bound s log) (hx : s.shim.pc.exchange = some (stmt, x))
    (hpoint : x.point = .send) (hfd : s.shim.fd = some k) (hreq : x.req = .call token payload) :
    MintedFor log k stmt (callHandle payload) := by
  obtain ⟨st, hst, hgen, hhandle⟩ := h.pc.send_call hx hpoint hreq
  obtain ⟨k', hconn, hminted⟩ := h.minted stmt st hst
  rw [hgen] at hconn
  obtain rfl := h.numbered.oneSock k' k _ hconn (h.numbered.fd k hfd)
  rw [hhandle]
  exact hminted

/-- A frame is sent for the roundtrip in progress, on the socket in use. -/
theorem move_sent {fns : List Fn} {s s' : System} {l : SystemLabel} {es : List SystemEvent} {k : Sock}
    {f : Frame} (hm : SystemMove fns s l s' es) (hsent : .sent k f ∈ es) :
    ∃ x, s.shim.pc.exchange = some (f.stmt, x) ∧ x.point = .send ∧ s.shim.fd = some k ∧ f.req = x.req := by
  cases hm with
  | write hx hpoint hfd hf =>
    cases List.mem_singleton.mp hsent
    subst hf
    exact ⟨_, hx, hpoint, hfd, rfl⟩
  | writeFailed hx hpoint hfd hf =>
    cases List.mem_singleton.mp hsent
    subst hf
    exact ⟨_, hx, hpoint, hfd, rfl⟩
  | _ => simp at hsent

/-- In every run, a call that is written to a connection carries a handle the daemon
minted while it served an init of the same statement sent on that connection. -/
theorem call_carries_own_handle (fns : List Fn) (base : UInt64) (labels : List SystemLabel)
    (cfg : Config System SystemEvent)
    (hrun : exec (System.step fns) ⟨System.initial base, []⟩ labels = some cfg) (l : SystemLabel)
    (s' : System) (es : List SystemEvent) (hstep : cfg.state.step fns l = some (s', es)) (k : Sock) (f : Frame)
    (hsent : .sent k f ∈ es) (token : UInt64) (payload : Bytes) (hcall : f.req = .call token payload) :
    MintedFor cfg.log k f.stmt (callHandle payload) ∧
      ∀ call, parseCall payload = some call → call.handle = callHandle payload := by
  obtain ⟨x, hx, hpoint, hfd, hreq⟩ := move_sent (system_move hstep) hsent
  exact ⟨(bound_reachable hrun).call_minted hx hpoint hfd (hreq.symm.trans hcall),
    fun _ => parseCall_handle⟩

theorem call_carries_own_handle_resent :
    ∃ cfg s', exec (System.step sampleFns) ⟨System.initial 1, []⟩
        (sampleSentCall ++ sampleStart 1 ++ sampleReopen) = some cfg ∧
      cfg.state.step sampleFns (.send true) =
        some (s', [.sent ⟨0, 2⟩ ⟨4, 0, .call 1 (callPayload (ascii "f") 2 0 [])⟩]) ∧
      MintedFor cfg.log ⟨0, 2⟩ 0 2 := by
  have hevents : (logThen (System.step sampleFns) ⟨System.initial 1, []⟩
      (sampleSentCall ++ sampleStart 1 ++ sampleReopen) (.send true)).map Prod.snd =
        some [.sent ⟨0, 2⟩ ⟨4, 0, .call 1 (callPayload (ascii "f") 2 0 [])⟩] := by
    decide +kernel
  obtain ⟨⟨log, es⟩, hlog, rfl⟩ := Option.map_eq_some_iff.mp hevents
  obtain ⟨cfg, s', hrun, -, hstep⟩ := logThen_some hlog
  have h := call_carries_own_handle _ _ _ cfg hrun _ s' _ hstep _ _ (List.mem_singleton.mpr rfl) _ _ rfl
  have hhandle : callHandle (callPayload (ascii "f") 2 0 []) = 2 := by decide
  exact ⟨cfg, s', hrun, hstep, hhandle ▸ h.1⟩

end FractalSQL.Service
