import FractalSQL.Service.Moves
import FractalSQL.Service.System

/-!
# What a step of the system can do

The moves of the shim, of the network and of the daemon, again read off the step
function once. A failure of an attempt has the same effect wherever it strikes,
so all of them are one move.
-/
namespace FractalSQL.Service
open Lib

inductive SystemMove (fns : List Fn) (s : System) : SystemLabel → System → List SystemEvent → Prop
  | udfInit {name : Bytes} {args : List WireArg} (hpc : s.shim.pc = .idle) (hname : name.length < 256) :
      SystemMove fns s (.udfInit name args)
        { s with shim := { s.shim with
          nextStmt := s.shim.nextStmt + 1
          pc := .init s.shim.nextStmt name args.length
            { req := .init (initPayload name args), maxAttempts := 1 } } } []
  | udfCall {stmt : ℕ} {cls : RetryClass} {args : List WireArg} {st : Stmt} (hpc : s.shim.pc = .idle)
      (hst : s.shim.stmts stmt = some st) :
      SystemMove fns s (.udfCall stmt cls args)
        { s with shim := { s.shim with
          idemCounter := s.shim.idemCounter + 1
          pc := .call stmt
            { req := .call (s.shim.idemBase + s.shim.idemCounter)
                (callPayload st.name st.handle args.length (args.flatMap WireArg.encode))
              maxAttempts := attemptsFor cls } } } []
  | udfDeinit {stmt : ℕ} {st : Stmt} (hpc : s.shim.pc = .idle) (hst : s.shim.stmts stmt = some st) :
      SystemMove fns s (.udfDeinit stmt)
        { s with shim := { s.shim with
          pc := .deinit stmt { req := .deinit (leBytes 8 st.handle.toNat), maxAttempts := 1 } } } []
  /-- A statement without a handle is closed locally. -/
  | forget {stmt : ℕ} {st : Stmt} (hpc : s.shim.pc = .idle) (hst : s.shim.stmts stmt = some st) :
      SystemMove fns s (.udfDeinit stmt)
        { s with shim := { s.shim with stmts := Function.update s.shim.stmts stmt none } } []
  | keepConn {alive connectOk : Bool} {stmt : ℕ} {x : Exchange} {k : Sock}
      (hx : s.shim.pc.exchange = some (stmt, x)) (hpoint : x.point = .connect)
      (hfd : s.shim.fd = some k) :
      SystemMove fns s (.connect alive connectOk)
        { s with shim := s.shim.setPoint x s.shim.pc.afterConnect } []
  | newConn {alive connectOk : Bool} {stmt : ℕ} {x : Exchange}
      (hx : s.shim.pc.exchange = some (stmt, x)) (hpoint : x.point = .connect) :
      SystemMove fns s (.connect alive connectOk)
        ({ s with
            shim := { s.shim with
              fd := some ⟨s.epoch, s.daemon.nextConn⟩
              gen := s.shim.gen + 1 }.setPoint x s.shim.pc.afterConnect
            daemon := s.daemon.accept }.setLink ⟨s.epoch, s.daemon.nextConn⟩ { shim := true })
        [.connected ⟨s.epoch, s.daemon.nextConn⟩ (s.shim.gen + 1)]
  /-- An attempt fails; a request id may have been used up. -/
  | retry {l : SystemLabel} {stmt : ℕ} {x : Exchange} {n : UInt32}
      (hx : s.shim.pc.exchange = some (stmt, x)) (hl : l ≠ .restart) (hlabel : s.daemonLabel l = none) :
      SystemMove fns s l { s with shim := { s.shim with nextRequest := n }.retry x } []
  | hook {stmt : ℕ} {x : Exchange} (hpc : s.shim.pc = .call stmt x) (hpoint : x.point = .hook) :
      SystemMove fns s .hook { s with shim := s.shim.callReconnect stmt x } []
  | write {stmt : ℕ} {x : Exchange} {k : Sock} {f : Frame} (hx : s.shim.pc.exchange = some (stmt, x))
      (hpoint : x.point = .send) (hfd : s.shim.fd = some k) (hf : f = ⟨s.shim.nextRequest, stmt, x.req⟩) :
      SystemMove fns s (.send true)
        ({ s with shim := { s.shim with
            nextRequest := s.shim.nextRequest + 1 }.setPoint x (.await f) }.setLink k
          { s.links k with request := some f }) [.sent k f]
  | writeFailed {stmt : ℕ} {x : Exchange} {k : Sock} {f : Frame}
      (hx : s.shim.pc.exchange = some (stmt, x)) (hpoint : x.point = .send)
      (hfd : s.shim.fd = some k) (hf : f = ⟨s.shim.nextRequest, stmt, x.req⟩) :
      SystemMove fns s (.send false)
        { s with shim := { s.shim with nextRequest := s.shim.nextRequest + 1 }.retry x } [.sent k f]
  /-- A response is consumed: it does not fit the request, or it is the answer, or there
  is no memory for it. -/
  | recv {bodyOk stmtOk : Bool} {stmt : ℕ} {x : Exchange} {k : Sock} {f f' : Frame} {reply : Reply}
      {shim : Shim} (hx : s.shim.pc.exchange = some (stmt, x)) (hpoint : x.point = .await f)
      (hfd : s.shim.fd = some k) (hresponse : (s.links k).response = some (f', reply))
      (hshim : shim = s.shim.retry x ∨ shim = s.shim.answered reply stmtOk ∨ shim = s.shim.giveUp) :
      SystemMove fns s (.recv bodyOk stmtOk)
        { s.setLink k { s.links k with response := none } with shim } []
  | receive {conn : ℕ} {f : Frame} {d : Daemon} {es : List DaemonEvent}
      (hrequest : (s.links ⟨s.epoch, conn⟩).request = some f)
      (hstep : s.daemon.step fns (.receive conn f.req) = some (d, es)) :
      SystemMove fns s (.receive conn)
        ({ s with daemon := d }.setLink ⟨s.epoch, conn⟩
          { s.links ⟨s.epoch, conn⟩ with request := none, serving := some f })
        (es.map (.served ⟨s.epoch, conn⟩ (some f)))
  | daemon {l : DaemonLabel} {d : Daemon} {es : List DaemonEvent}
      (hstep : s.daemon.step fns l = some (d, es)) :
      SystemMove fns s (.daemon l)
        ({ s with daemon := d }.setLink ⟨s.epoch, l.conn s.daemon⟩
          ((s.links ⟨s.epoch, l.conn s.daemon⟩).after s.daemon l))
        (es.map (.served ⟨s.epoch, l.conn s.daemon⟩ (s.links ⟨s.epoch, l.conn s.daemon⟩).serving))
  | restart : SystemMove fns s .restart { s with epoch := s.epoch + 1, daemon := {} } []

section Inversion
variable {fns : List Fn} {s s' : System} {es : List SystemEvent}

theorem connect_move {stmt : ℕ} {x : Exchange} {alive connectOk : Bool}
    (hx : s.shim.pc.exchange = some (stmt, x)) (hpoint : x.point = .connect) :
    SystemMove fns s (.connect alive connectOk) (s.connect x alive connectOk).1
      (s.connect x alive connectOk).2 := by
  unfold System.connect
  split
  · rename_i hkeep
    obtain ⟨k, hfd⟩ := Option.isSome_iff_exists.mp hkeep.1
    exact .keepConn hx hpoint hfd
  · split
    · exact .newConn hx hpoint
    · exact .retry hx (by simp) rfl

theorem send_move {stmt : ℕ} {x : Exchange} {written : Bool}
    (hx : s.shim.pc.exchange = some (stmt, x)) (hpoint : x.point = .send) :
    SystemMove fns s (.send written) (s.send stmt x written).1 (s.send stmt x written).2 := by
  unfold System.send
  simp only
  split
  · exact .retry hx (by simp) rfl
  · rename_i k hfd
    cases written with
    | true => exact .write hx hpoint hfd rfl
    | false => exact .writeFailed hx hpoint hfd rfl

theorem recv_move {stmt : ℕ} {x : Exchange} {f : Frame} {bodyOk stmtOk : Bool}
    (hx : s.shim.pc.exchange = some (stmt, x)) (hpoint : x.point = .await f)
    (h : s.recv x f bodyOk stmtOk = some (s', es)) : SystemMove fns s (.recv bodyOk stmtOk) s' es := by
  unfold System.recv at h
  split at h
  · cases h
  rename_i k hfd
  split at h
  · cases h
  rename_i f' reply hresponse
  simp only at h
  split at h
  · cases h
    exact .recv hx hpoint hfd hresponse (.inl rfl)
  · split at h <;> cases h
    · exact .recv hx hpoint hfd hresponse (.inr (.inl rfl))
    · exact .recv hx hpoint hfd hresponse (.inr (.inr rfl))

theorem serve_some {l : DaemonLabel} {link : Link} (h : s.serve fns l link = some (s', es)) :
    ∃ d des, s.daemon.step fns l = some (d, des) ∧
      s' = { s with daemon := d }.setLink ⟨s.epoch, l.conn s.daemon⟩ (link.after s.daemon l) ∧
      es = des.map (.served ⟨s.epoch, l.conn s.daemon⟩ link.serving) := by
  unfold System.serve at h
  split at h
  · cases h
  · rename_i d des hstep
    cases h
    exact ⟨d, des, hstep, rfl, rfl⟩

/-- Every step of the system is one of the moves. -/
theorem system_move {l : SystemLabel} (h : s.step fns l = some (s', es)) : SystemMove fns s l s' es := by
  cases l with
  | udfInit name args =>
    simp only [System.step, Option.map_eq_some_iff, Shim.udfInit] at h
    obtain ⟨shim, hshim, heq⟩ := h
    cases heq
    split at hshim
    · rename_i hpc
      split at hshim <;> rename_i hfits <;> cases hshim
      exact .udfInit hpc hfits.1
    · cases hshim
  | udfCall stmt cls args =>
    simp only [System.step, Option.map_eq_some_iff, Shim.udfCall] at h
    obtain ⟨shim, hshim, heq⟩ := h
    cases heq
    split at hshim
    · rename_i st hpc hst
      split at hshim <;> cases hshim
      exact .udfCall hpc hst
    · cases hshim
  | udfDeinit stmt =>
    simp only [System.step, Option.map_eq_some_iff, Shim.udfDeinit] at h
    obtain ⟨shim, hshim, heq⟩ := h
    cases heq
    split at hshim
    · rename_i st hpc hst
      split at hshim <;> cases hshim
      · exact .udfDeinit hpc hst
      · exact .forget hpc hst
    · cases hshim
  | connect alive connectOk =>
    simp only [System.step] at h
    split at h
    · rename_i stmt x hx
      split at h
      · rename_i hpoint
        obtain ⟨rfl, rfl⟩ := Prod.mk.inj (Option.some.inj h)
        exact connect_move hx hpoint
      · cases h
    · cases h
  | hook =>
    simp only [System.step] at h
    split at h
    · rename_i stmt x hpc
      split at h <;> rename_i hpoint <;> cases h
      exact .hook hpc hpoint
    · cases h
  | send written =>
    simp only [System.step] at h
    split at h
    · rename_i stmt x hx
      split at h
      · rename_i hpoint
        obtain ⟨rfl, rfl⟩ := Prod.mk.inj (Option.some.inj h)
        exact send_move hx hpoint
      · cases h
    · cases h
  | lose =>
    simp only [System.step] at h
    split at h
    · rename_i stmt x hx
      split at h <;> cases h
      exact .retry hx (by simp) rfl
    · cases h
  | recv bodyOk stmtOk =>
    simp only [System.step] at h
    split at h
    · rename_i stmt x hx
      split at h
      · rename_i f hpoint
        exact recv_move hx hpoint h
      · cases h
    · cases h
  | receive conn =>
    simp only [System.step] at h
    split at h
    · rename_i f hrequest
      obtain ⟨d, des, hstep, rfl, rfl⟩ := serve_some h
      exact .receive hrequest hstep
    · cases h
  | daemon l =>
    simp only [System.step] at h
    split at h
    · obtain ⟨d, des, hstep, rfl, rfl⟩ := serve_some h
      exact .daemon hstep
    · cases h
  | restart =>
    cases h
    exact .restart

end Inversion

end FractalSQL.Service
