import FractalSQL.Service.Daemon

/-!
# The shim

The shim runs inside the database server. All statements of the process share
one socket, and a mutex admits one of them at a time, so the shim is a single
thread of control: idle, or inside one `fsq_roundtrip`, which for a call may be
inside the roundtrip its reconnect hook makes.
-/
namespace FractalSQL.Service
open Lib

/-- A connection: the daemon lifetime it was made in and its number there. -/
structure Sock where
  epoch : ℕ
  conn : ℕ
deriving DecidableEq

/-- The retry classes of `functions.def`. -/
inductive RetryClass where
  | r
  | s
  | e

/-- `fsq_attempts_for`. -/
def attemptsFor : RetryClass → ℕ
  | .r => 3
  | .s => 2
  | .e => 1

/-- `FSQ_MAX_ARG_BYTES`. -/
def maxArgBytes : ℕ := maxPayload - 4096

/-- `struct fsq_stmt`, with the name its stubs pass. -/
structure Stmt where
  name : Bytes
  handle : UInt64
  gen : ℕ
  initReq : Bytes

/-- A request frame, with the statement it is sent for. -/
structure Frame where
  requestId : UInt32
  stmt : ℕ
  req : Request
deriving DecidableEq

/-- Where an attempt of `fsq_roundtrip` stands. -/
inductive Point where
  /-- Before the liveness probe. -/
  | connect
  /-- Before the reconnect hook. -/
  | hook
  /-- Before the frame is built and written. -/
  | send
  | await (f : Frame)

/-- One activation of `fsq_roundtrip`. -/
structure Exchange where
  req : Request
  maxAttempts : ℕ
  attempt : ℕ := 1
  point : Point := .connect

inductive Pc where
  | idle
  | init (stmt : ℕ) (name : Bytes) (nargs : ℕ) (x : Exchange)
  | call (stmt : ℕ) (x : Exchange)
  /-- The hook of the call `outer` re-opens the statement. -/
  | reopen (stmt : ℕ) (x : Exchange) (outer : Exchange)
  | deinit (stmt : ℕ) (x : Exchange)

structure Shim where
  fd : Option Sock := none
  /-- `g_conn_gen`. -/
  gen : ℕ := 0
  nextRequest : UInt32 := 1
  idemBase : UInt64
  idemCounter : UInt64 := 0
  stmts : ℕ → Option Stmt := fun _ => none
  nextStmt : ℕ := 0
  pc : Pc := .idle

def Request.payload : Request → Bytes
  | .init payload | .call _ payload | .deinit payload | .cancel payload => payload

/-- `fsq_put_u64` into the handle field of a call that is being sent. -/
def Request.patch (off : ℕ) (handle : UInt64) : Request → Request
  | .call token payload => .call token (patchHandle off handle payload)
  | req => req

/-- The innermost roundtrip and its statement. -/
def Pc.exchange : Pc → Option (ℕ × Exchange)
  | .idle => none
  | .init stmt _ _ x | .call stmt x | .reopen stmt x _ | .deinit stmt x => some (stmt, x)

def Pc.setExchange (x : Exchange) : Pc → Pc
  | .idle => .idle
  | .init stmt name nargs _ => .init stmt name nargs x
  | .call stmt _ => .call stmt x
  | .reopen stmt _ outer => .reopen stmt x outer
  | .deinit stmt _ => .deinit stmt x

/-- Only a call passes a reconnect hook. -/
def Pc.afterConnect : Pc → Point
  | .call _ _ => .hook
  | _ => .send

def Shim.setPoint (s : Shim) (x : Exchange) (point : Point) : Shim :=
  { s with pc := s.pc.setExchange { x with point } }

/-- The roundtrip returns -1. The hook of a call then closes the socket, and the
call tries again while its attempts last. -/
def Shim.giveUp (s : Shim) : Shim :=
  match s.pc with
  | .idle | .init _ _ _ _ | .call _ _ => { s with pc := .idle }
  | .deinit stmt _ => { s with stmts := Function.update s.stmts stmt none, pc := .idle }
  | .reopen stmt _ outer =>
    if outer.attempt < outer.maxAttempts then
      { s with fd := none, pc := .call stmt { outer with attempt := outer.attempt + 1, point := .connect } }
    else { s with fd := none, pc := .idle }

/-- A transport failure: the socket is closed and the next attempt starts over, if
there is one. -/
def Shim.retry (s : Shim) (x : Exchange) : Shim :=
  if x.attempt < x.maxAttempts then
    { s with fd := none, pc := s.pc.setExchange { x with attempt := x.attempt + 1, point := .connect } }
  else { s with fd := none }.giveUp

/-- What `fsq_udf_init` accepts as a reply. -/
def initReplyOk (nargs : ℕ) (reply : Reply) : Bool :=
  reply.status = .ok ∧ 17 ≤ reply.body.length ∧ fieldAt 13 4 reply.body = nargs ∧
    17 + nargs ≤ reply.body.length ∧ handleAt 0 reply.body ≠ 0

/-- What `fsq_call_reconnect` accepts as a reply. -/
def reopenReplyOk (reply : Reply) : Bool :=
  reply.status = .ok ∧ 17 ≤ reply.body.length ∧ handleAt 0 reply.body ≠ 0

/-- The roundtrip returns 0 with a reply. The outcome of a call is the caller's and
leaves nothing behind here. -/
def Shim.answered (s : Shim) (reply : Reply) (stmtOk : Bool) : Shim :=
  match s.pc with
  | .idle | .call _ _ => { s with pc := .idle }
  | .deinit stmt _ => { s with stmts := Function.update s.stmts stmt none, pc := .idle }
  | .init stmt name nargs x =>
    if initReplyOk nargs reply ∧ stmtOk then
      { s with
        stmts := Function.update s.stmts stmt
          (some ⟨name, handleAt 0 reply.body, s.gen, x.req.payload⟩)
        pc := .idle }
    else { s with pc := .idle }
  | .reopen stmt _ outer =>
    match s.stmts stmt with
    | some st =>
      if reopenReplyOk reply then
        let handle := handleAt 0 reply.body
        { s with
          stmts := Function.update s.stmts stmt (some { st with handle, gen := s.gen })
          pc := .call stmt { outer with req := outer.req.patch (1 + st.name.length) handle, point := .send } }
      else { s with fd := none, pc := .idle }
    | none => { s with fd := none, pc := .idle }

/-! ### The entry points, up to their roundtrip -/

/-- `fsq_udf_init`. -/
def Shim.udfInit (s : Shim) (name : Bytes) (args : List WireArg) : Option Shim :=
  match s.pc with
  | .idle =>
    if name.length < 256 ∧ args.length ≤ maxArgs then
      some { s with
        nextStmt := s.nextStmt + 1
        pc := .init s.nextStmt name args.length
          { req := .init (initPayload name args), maxAttempts := 1 } }
    else none
  | _ => none

/-- `fsq_udf_call`: one token for all attempts. -/
def Shim.udfCall (s : Shim) (stmt : ℕ) (cls : RetryClass) (args : List WireArg) : Option Shim :=
  match s.pc, s.stmts stmt with
  | .idle, some st =>
    let payload := callPayload st.name st.handle args.length (args.flatMap WireArg.encode)
    if st.handle ≠ 0 ∧ args.length ≤ maxArgs ∧ payload.length ≤ maxArgBytes then
      some { s with
        idemCounter := s.idemCounter + 1
        pc := .call stmt
          { req := .call (s.idemBase + s.idemCounter) payload, maxAttempts := attemptsFor cls } }
    else none
  | _, _ => none

/-- `fsq_udf_deinit`: no hook, one attempt. -/
def Shim.udfDeinit (s : Shim) (stmt : ℕ) : Option Shim :=
  match s.pc, s.stmts stmt with
  | .idle, some st =>
    if st.handle ≠ 0 then
      some { s with
        pc := .deinit stmt { req := .deinit (leBytes 8 st.handle.toNat), maxAttempts := 1 } }
    else some { s with stmts := Function.update s.stmts stmt none }
  | _, _ => none

/-- `fsq_call_reconnect` up to its roundtrip. -/
def Shim.callReconnect (s : Shim) (stmt : ℕ) (x : Exchange) : Shim :=
  match s.stmts stmt with
  | some st =>
    if st.gen = s.gen then s.setPoint x .send
    else { s with pc := .reopen stmt { req := .init st.initReq, maxAttempts := 1 } x }
  | none => s.setPoint x .send

end FractalSQL.Service
