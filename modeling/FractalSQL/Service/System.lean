import FractalSQL.Service.Shim

/-!
# The shim and the daemon together

The shim talks to the daemon over connections that can be lost at any step: a
frame in flight, a request being served and a reply in flight all outlive the
closing of the shim's end. Other clients may be connected as well. A restart
ends every thread of the daemon and resets its counters.
-/
namespace FractalSQL.Service
open Lib

/-- What is under way on a connection. -/
structure Link where
  /-- A connection of the shim, not of another client. -/
  shim : Bool := false
  request : Option Frame := none
  /-- The frame the connection's thread has read and not answered yet. -/
  serving : Option Frame := none
  response : Option (Frame × Reply) := none

structure System where
  shim : Shim
  epoch : ℕ := 0
  daemon : Daemon := {}
  links : Sock → Link := fun _ => {}

/-- The initial state of a run, with the base the shim drew for its tokens. -/
def System.initial (base : UInt64) : System := { shim := { idemBase := base } }

inductive SystemLabel where
  | udfInit (name : Bytes) (args : List WireArg)
  | udfCall (stmt : ℕ) (cls : RetryClass) (args : List WireArg)
  | udfDeinit (stmt : ℕ)
  /-- The probe and, if there is no live socket, the connect. -/
  | connect (alive connectOk : Bool)
  | hook
  | send (written : Bool)
  /-- No usable response: a timeout, a lost connection or a bad frame. -/
  | lose
  | recv (bodyOk stmtOk : Bool)
  /-- A thread of the daemon reads the shim's frame. -/
  | receive (conn : ℕ)
  | daemon (l : DaemonLabel)
  | restart

inductive SystemEvent where
  | connected (k : Sock) (gen : ℕ)
  /-- The shim wrote a frame, or a part of it. -/
  | sent (k : Sock) (f : Frame)
  /-- What the daemon did on a connection, and the frame of the shim it served. -/
  | served (k : Sock) (f : Option Frame) (e : DaemonEvent)
deriving DecidableEq

def System.setLink (s : System) (k : Sock) (link : Link) : System :=
  { s with links := Function.update s.links k link }

/-- What a step of the daemon does to its connection. -/
def Link.after (d : Daemon) (l : DaemonLabel) (link : Link) : Link :=
  match l, link.serving, d.threads (l.conn d) with
  | .accept, _, _ => {}
  | .reply _ true, some f, some (.replying reply) =>
    { link with serving := none, response := some (f, reply) }
  | _, _, _ => link

/-! ### The steps of the shim -/

/-- The liveness probe and the connect of an attempt. -/
def System.connect (s : System) (x : Exchange) (alive connectOk : Bool) : System × List SystemEvent :=
  if s.shim.fd.isSome ∧ alive then
    ({ s with shim := s.shim.setPoint x s.shim.pc.afterConnect }, [])
  else if connectOk then
    let k := ⟨s.epoch, s.daemon.nextConn⟩
    let shim := { s.shim with fd := some k, gen := s.shim.gen + 1 }
    ({ s with shim := shim.setPoint x s.shim.pc.afterConnect, daemon := s.daemon.accept }.setLink k
      { shim := true }, [.connected k (s.shim.gen + 1)])
  else ({ s with shim := s.shim.retry x }, [])

/-- A fresh request id, and the frame is written. -/
def System.send (s : System) (stmt : ℕ) (x : Exchange) (written : Bool) : System × List SystemEvent :=
  let f := ⟨s.shim.nextRequest, stmt, x.req⟩
  let shim := { s.shim with nextRequest := s.shim.nextRequest + 1 }
  match s.shim.fd with
  | none => ({ s with shim := shim.retry x }, [])
  | some k =>
    if written then
      ({ s with shim := shim.setPoint x (.await f) }.setLink k { s.links k with request := some f },
        [.sent k f])
    else ({ s with shim := shim.retry x }, [.sent k f])

/-- A response is read whole and checked against the request id. -/
def System.recv (s : System) (x : Exchange) (f : Frame) (bodyOk stmtOk : Bool) :
    Option (System × List SystemEvent) :=
  match s.shim.fd with
  | none => none
  | some k =>
    match (s.links k).response with
    | none => none
    | some (f', reply) =>
      let s := s.setLink k { s.links k with response := none }
      if f'.requestId ≠ f.requestId then some ({ s with shim := s.shim.retry x }, [])
      else if bodyOk then some ({ s with shim := s.shim.answered reply stmtOk }, [])
      else some ({ s with shim := s.shim.giveUp }, [])

section Step
variable (fns : List Fn)

/-- A step of the daemon, on a connection in the given state. -/
def System.serve (s : System) (l : DaemonLabel) (link : Link) : Option (System × List SystemEvent) :=
  match s.daemon.step fns l with
  | none => none
  | some (d, es) =>
    let k := ⟨s.epoch, l.conn s.daemon⟩
    some ({ s with daemon := d }.setLink k (link.after s.daemon l), es.map (.served k link.serving))

/-- Other clients send what they like; the shim's frames come from its connections. -/
def System.allowed (s : System) : DaemonLabel → Bool
  | .receive conn _ => !(s.links ⟨s.epoch, conn⟩).shim
  | _ => true

/-- The label of the daemon that a label of the system runs. -/
def System.daemonLabel (s : System) : SystemLabel → Option DaemonLabel
  | .receive conn => (s.links ⟨s.epoch, conn⟩).request.map fun f => .receive conn f.req
  | .daemon l => some l
  | _ => none

def System.step (s : System) : SystemLabel → Option (System × List SystemEvent)
  | .udfInit name args => (s.shim.udfInit name args).map fun shim => ({ s with shim }, [])
  | .udfCall stmt cls args => (s.shim.udfCall stmt cls args).map fun shim => ({ s with shim }, [])
  | .udfDeinit stmt => (s.shim.udfDeinit stmt).map fun shim => ({ s with shim }, [])
  | .connect alive connectOk =>
    match s.shim.pc.exchange with
    | some (_, x) =>
      match x.point with
      | .connect => some (s.connect x alive connectOk)
      | _ => none
    | none => none
  | .hook =>
    match s.shim.pc with
    | .call stmt x =>
      match x.point with
      | .hook => some ({ s with shim := s.shim.callReconnect stmt x }, [])
      | _ => none
    | _ => none
  | .send written =>
    match s.shim.pc.exchange with
    | some (stmt, x) =>
      match x.point with
      | .send => some (s.send stmt x written)
      | _ => none
    | none => none
  | .lose =>
    match s.shim.pc.exchange with
    | some (_, x) =>
      match x.point with
      | .await _ => some ({ s with shim := s.shim.retry x }, [])
      | _ => none
    | none => none
  | .recv bodyOk stmtOk =>
    match s.shim.pc.exchange with
    | some (_, x) =>
      match x.point with
      | .await f => s.recv x f bodyOk stmtOk
      | _ => none
    | none => none
  | .receive conn =>
    let link := s.links ⟨s.epoch, conn⟩
    match link.request with
    | some f => s.serve fns (.receive conn f.req) { link with request := none, serving := some f }
    | none => none
  | .daemon l =>
    if s.allowed l then s.serve fns l (s.links ⟨s.epoch, l.conn s.daemon⟩) else none
  | .restart => some ({ s with epoch := s.epoch + 1, daemon := {} }, [])

end Step

/-! ### Sample runs -/

/-- The daemon answers the init that is on its way on a connection. -/
def sampleServeInit (conn : ℕ) : List SystemLabel :=
  [.receive conn, .daemon (.initialise conn (.accepted [] 0 false)), .daemon (.link conn true),
    .daemon (.reply conn true)]

/-- The first connection, the statement 0 with the handle 1, and a call of class `s`
that has been sent. -/
def sampleSentCall : List SystemLabel :=
  [SystemLabel.udfInit (ascii "f") [], SystemLabel.connect false true, SystemLabel.send true] ++ sampleServeInit 1 ++
    [SystemLabel.recv true true, SystemLabel.udfCall 0 .s [], SystemLabel.connect true false, SystemLabel.hook,
      SystemLabel.send true]

/-- The daemon serves a call up to the start of its body. -/
def sampleStart (conn : ℕ) : List SystemLabel :=
  [.receive conn, .daemon (.lookup conn true), .daemon (.find conn), .daemon (.checkpoint conn),
    .daemon (.marshal conn [] true)]

/-- The shim gives up waiting, connects again and re-opens the statement. -/
def sampleReopen : List SystemLabel :=
  [SystemLabel.lose, SystemLabel.connect false true, SystemLabel.hook, SystemLabel.connect true false,
      SystemLabel.send true] ++ sampleServeInit 2 ++
    [SystemLabel.recv true true]

end FractalSQL.Service
