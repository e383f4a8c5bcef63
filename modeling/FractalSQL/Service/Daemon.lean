import FractalSQL.Lib.Machine
import FractalSQL.Service.ResponseCache

/-!
# The daemon

One thread per connection serves requests in order. A request is cut into the
steps between which other threads can run: every critical section is one step,
and the body of a function lies between two of them. A label names the
connection and what its environment decides, such as the outcome of an
allocation or of the body.
-/
namespace FractalSQL.Service
open Lib

/-- `enum fsq_kind`. -/
inductive FnKind where
  | ctl
  | str
  | int
  | real
deriving DecidableEq

/-- A row of the function table. -/
structure Fn where
  name : Bytes
  kind : FnKind
deriving DecidableEq

/-- `struct fsq_handle`. -/
structure Handle where
  id : UInt64
  fn : Fn
  argTypes : List ItemResult
  maxLength : ℕ
  owner : ℕ
  cancelled : Bool := false
deriving DecidableEq

/-- A dispatched request. -/
inductive Request where
  | init (payload : Bytes)
  | call (token : UInt64) (payload : Bytes)
  | deinit (payload : Bytes)
  | cancel (payload : Bytes)
deriving DecidableEq

/-- Where a connection's thread stands. -/
inductive Phase where
  | reading
  /-- `handle_init` is about to allocate and to run the adapter's init. -/
  | initialising (req : InitRequest) (fn : Fn)
  /-- The id is taken, the reply body is not allocated yet. -/
  | linking (h : Handle) (maybeNull : Bool)
  /-- `handle_call` before `cache_replay`. -/
  | lookup (token : UInt64) (call : CallRequest)
  /-- Not answered from the cache: before the handle is looked up. -/
  | find (token : UInt64) (call : CallRequest)
  /-- Before the between-calls cancellation checkpoint. -/
  | checkpoint (token : UInt64) (call : CallRequest) (h : Handle)
  /-- The checkpoint saw the mark. -/
  | clearMark (h : Handle)
  /-- Before the argument values are set up. -/
  | marshal (token : UInt64) (call : CallRequest) (h : Handle)
  /-- The body of the function runs. -/
  | running (token : UInt64) (h : Handle)
  /-- The body reported an error: `core_fail` before it reads the mark. -/
  | coreFail (token : UInt64) (h : Handle)
  /-- `core_fail` saw the mark. -/
  | coreClear (token : UInt64) (h : Handle)
  /-- Before `cache_put`. -/
  | storing (token : UInt64) (name : Bytes) (reply : Reply)
  | replying (reply : Reply)

structure Daemon where
  handles : List Handle := []
  nextHandle : ℕ := 1
  nextConn : ℕ := 1
  cache : Cache := {}
  threads : ℕ → Option Phase := fun _ => none

/-- What the allocations and the adapter of `handle_init` did. -/
inductive InitOutcome where
  | noMemory
  | refused (msg : Bytes)
  | accepted (types : List ItemResult) (maxLength : ℕ) (maybeNull : Bool)

/-- What the body of a function returned: a string, or the bits of a number. -/
structure BodyOutcome where
  err : Bool
  isNull : Bool
  text : Bytes
  bits : UInt64

inductive DaemonLabel where
  | accept
  | receive (conn : ℕ) (req : Request)
  | initialise (conn : ℕ) (outcome : InitOutcome)
  | link (conn : ℕ) (bodyOk : Bool)
  | lookup (conn : ℕ) (cloneOk : Bool)
  | find (conn : ℕ)
  | checkpoint (conn : ℕ)
  | clearMark (conn : ℕ)
  | marshal (conn : ℕ) (argAllocs : List Bool) (resultOk : Bool)
  | finish (conn : ℕ) (outcome : BodyOutcome) (replyOk : Bool)
  | coreFail (conn : ℕ)
  | coreClear (conn : ℕ)
  | store (conn : ℕ) (copyOk : Bool)
  | reply (conn : ℕ) (sent : Bool)
  /-- The read of the next frame fails: closed, lost or idle. -/
  | hangUp (conn : ℕ)

/-- The connection whose thread a label moves. -/
def DaemonLabel.conn (d : Daemon) : DaemonLabel → ℕ
  | .accept => d.nextConn
  | .receive c _ | .initialise c _ | .link c _ | .lookup c _ | .find c | .checkpoint c | .clearMark c
  | .marshal c _ _ | .finish c _ _ | .coreFail c | .coreClear c | .store c _ | .reply c _
  | .hangUp c => c

inductive DaemonEvent where
  | minted (conn : ℕ) (id : UInt64)
  | removed (conn : ℕ) (id : UInt64)
  | started (conn : ℕ) (token : UInt64) (name : Bytes)
  /-- A body ran to its end; `stored` says that its reply went into the cache. -/
  | completed (conn : ℕ) (token : UInt64) (name : Bytes) (reply : Reply) (stored : Bool)
  | replayed (conn : ℕ) (token : UInt64) (name : Bytes) (reply : Reply)
deriving DecidableEq

/-! ### Pieces of the handlers -/

/-- `find_fn`. -/
def findFn (fns : List Fn) (name : Bytes) : Option Fn := fns.find? (fun f => f.name = name)

/-- `handle_find_locked`: a connection reaches its own handles only. -/
def handleFind (handles : List Handle) (conn : ℕ) (id : UInt64) : Option Handle :=
  handles.find? (fun h => h.id = id ∧ h.owner = conn)

/-- Set the mark of the first handle that `p` picks. -/
def setMark (p : Handle → Bool) (mark : Bool) : List Handle → List Handle
  | [] => []
  | h :: hs => if p h then { h with cancelled := mark } :: hs else h :: setMark p mark hs

/-- A constant number has eight bytes. -/
def initArgOk (a : WireArg) : Bool :=
  a.isNull ≠ 0 ∨ (wireToItem a.type ≠ .int ∧ wireToItem a.type ≠ .real) ∨ a.bytes.length = 8

/-- The argument loop of `handle_call`, with the outcomes of its allocations. -/
def marshalArgs : List ItemResult → List WireArg → List Bool → Option Status
  | t :: ts, a :: as, allocs =>
    if a.isNull ≠ 0 then marshalArgs ts as allocs
    else match t with
      | .int | .real => if a.bytes.length ≠ 8 then some .args else marshalArgs ts as allocs
      | .string | .decimal =>
        if allocs.headD true then marshalArgs ts as allocs.tail else some .internal
  | _, _, _ => none

theorem marshalArgs_status {types : List ItemResult} {args : List WireArg} {allocs : List Bool} {status : Status}
    (h : marshalArgs types args allocs = some status) : status = .args ∨ status = .internal := by
  fun_induction marshalArgs types args allocs <;> simp_all

/-- `tlv_result`. -/
def tlvResult (alloc : Bool) (type : ItemResult) (isNull : Bool) (bytes : Bytes) : Reply :=
  if alloc then
    ⟨.ok, 0, itemToWire type :: (if isNull then 1 else 0) :: (leBytes 4 bytes.length ++ bytes)⟩
  else setText .internal "out of memory"

/-- The reply to a body that reported no error. -/
def bodyReply (h : Handle) (out : BodyOutcome) (alloc : Bool) : Reply :=
  match h.fn.kind with
  | .str =>
    if out.isNull then tlvResult alloc .string true []
    else if h.maxLength < out.text.length then setText .limit ""
    else tlvResult alloc .string false out.text
  | .int => tlvResult alloc .int out.isNull (leBytes 8 out.bits.toNat)
  | .real => tlvResult alloc .real out.isNull (leBytes 8 out.bits.toNat)
  | .ctl => setText .notsup ""

/-- The reply body of a successful UDF_INIT. -/
def initBody (h : Handle) (maybeNull : Bool) : Bytes :=
  leBytes 8 h.id.toNat ++ (leBytes 4 h.maxLength ++ ((if maybeNull then 1 else 0) ::
    (leBytes 4 h.argTypes.length ++ h.argTypes.map itemToWire)))

def Daemon.setPhase (d : Daemon) (conn : ℕ) (phase : Phase) : Daemon :=
  { d with threads := Function.update d.threads conn (some phase) }

/-- A new connection and its thread. -/
def Daemon.accept (d : Daemon) : Daemon :=
  { d with nextConn := d.nextConn + 1 }.setPhase d.nextConn .reading

def Daemon.answer (d : Daemon) (conn : ℕ) (reply : Reply) : Daemon := d.setPhase conn (.replying reply)

/-- The end of a connection: `handle_release_owner` and the end of its thread. -/
def Daemon.release (d : Daemon) (conn : ℕ) : Daemon :=
  { d with
    handles := d.handles.filter (fun h => h.owner ≠ conn)
    threads := Function.update d.threads conn none }

/-- The mark of the handle a call runs for. -/
def Daemon.marked (d : Daemon) (conn : ℕ) (id : UInt64) : Bool :=
  match handleFind d.handles conn id with
  | some h => h.cancelled
  | none => false

def Daemon.unmark (d : Daemon) (conn : ℕ) (id : UInt64) : Daemon :=
  { d with handles := setMark (fun h => h.id = id ∧ h.owner = conn) false d.handles }

/-- What follows a body: `cache_put` for a token and a replayable status, else the
reply. -/
def afterBody (d : Daemon) (conn : ℕ) (token : UInt64) (h : Handle) (reply : Reply) :
    Daemon × List DaemonEvent :=
  if token ≠ 0 ∧ (reply.status = .ok ∨ reply.status = .core) then
    (d.setPhase conn (.storing token h.fn.name reply), [])
  else (d.answer conn reply, [.completed conn token h.fn.name reply false])

/-- The first step of `handle_deinit`; the reply is the same whether or not the
handle was there. -/
def handleDeinit (d : Daemon) (conn : ℕ) (payload : Bytes) : Daemon × List DaemonEvent :=
  match parseHandle payload with
  | none => (d.answer conn (setText .args ""), [])
  | some id =>
    let d' := { d with handles := d.handles.eraseP (fun h => h.id = id ∧ h.owner = conn) }
    (d'.answer conn (setText .ok ""),
      if (handleFind d.handles conn id).isSome then [.removed conn id] else [])

/-- `handle_cancel` marks a handle of any connection. -/
def handleCancel (d : Daemon) (conn : ℕ) (payload : Bytes) : Daemon × List DaemonEvent :=
  match parseHandle payload with
  | none => (d.answer conn (setText .args ""), [])
  | some id =>
    if d.handles.any (fun h => h.id = id) then
      ({ d with handles := setMark (fun h => h.id = id) true d.handles }.answer conn (setText .ok ""), [])
    else (d.answer conn (setText .args "unknown handle"), [])

/-! ### The step function -/

section Step
variable (fns : List Fn)

/-- `dispatch` up to the first point where another thread can run. -/
def Daemon.receive (d : Daemon) (conn : ℕ) : Request → Daemon × List DaemonEvent
  | .init payload =>
    match parseInit payload with
    | none => (d.answer conn (setText .args "malformed init request"), [])
    | some req =>
      match findFn fns req.name with
      | none => (d.answer conn (setText .notsup "unknown function"), [])
      | some fn => (d.setPhase conn (.initialising req fn), [])
  | .call token payload =>
    match parseCall payload with
    | none => (d.answer conn (setText .args ""), [])
    | some call =>
      if token ≠ 0 then (d.setPhase conn (.lookup token call), [])
      else (d.setPhase conn (.find token call), [])
  | .deinit payload => handleDeinit d conn payload
  | .cancel payload => handleCancel d conn payload

/-- The adapter's init and the id of its handle. -/
def Daemon.initialise (d : Daemon) (conn : ℕ) (req : InitRequest) (fn : Fn) :
    InitOutcome → Option (Daemon × List DaemonEvent)
  | .noMemory => some (d.answer conn (setText .internal "out of memory"), [])
  | .refused msg =>
    if req.args.all initArgOk then
      some (d.answer conn (if msg = [] then setText .args "initialization failed"
        else ⟨.args, 0, msg.take 511⟩), [])
    else some (d.answer conn (setText .args "malformed init request"), [])
  | .accepted types maxLength maybeNull =>
    if req.args.all initArgOk then
      if types.length = req.args.length then
        some ({ d with nextHandle := d.nextHandle + 1 }.setPhase conn
          (.linking ⟨UInt64.ofNat d.nextHandle, fn, types, maxLength, conn, false⟩ maybeNull), [])
      else none
    else some (d.answer conn (setText .args "malformed init request"), [])

def Daemon.findHandle (d : Daemon) (conn : ℕ) (token : UInt64) (call : CallRequest) : Daemon :=
  match handleFind d.handles conn call.handle with
  | none => d.answer conn (setText .args "")
  | some h =>
    if h.fn.name = call.name ∧ h.argTypes.length = call.args.length then
      d.setPhase conn (.checkpoint token call h)
    else d.answer conn (setText .args "")

/-- The argument values, the result buffer of a string function, and the start of
the body. -/
def Daemon.marshal (d : Daemon) (conn : ℕ) (token : UInt64) (call : CallRequest) (h : Handle)
    (argAllocs : List Bool) (resultOk : Bool) : Daemon × List DaemonEvent :=
  match marshalArgs h.argTypes call.args argAllocs with
  | some status => (d.answer conn (setText status ""), [])
  | none =>
    if h.fn.kind = .ctl then (d.answer conn (setText .notsup ""), [])
    else if h.fn.kind = .str ∧ resultOk = false then (d.answer conn (setText .internal ""), [])
    else (d.setPhase conn (.running token h), [.started conn token h.fn.name])

def Daemon.step (d : Daemon) : DaemonLabel → Option (Daemon × List DaemonEvent)
  | .accept => some (d.accept, [])
  | .receive conn req =>
    match d.threads conn with
    | some .reading => some (d.receive fns conn req)
    | _ => none
  | .initialise conn outcome =>
    match d.threads conn with
    | some (.initialising req fn) => d.initialise conn req fn outcome
    | _ => none
  | .link conn bodyOk =>
    match d.threads conn with
    | some (.linking h maybeNull) =>
      if bodyOk then
        some ({ d with handles := h :: d.handles }.answer conn ⟨.ok, 0, initBody h maybeNull⟩,
          [.minted conn h.id])
      else some (d.answer conn (setText .internal "out of memory"), [])
    | _ => none
  | .lookup conn cloneOk =>
    match d.threads conn with
    | some (.lookup token call) =>
      match cacheReplay d.cache token call.name cloneOk with
      | some reply => some (d.answer conn reply, [.replayed conn token call.name reply])
      | none => some (d.setPhase conn (.find token call), [])
    | _ => none
  | .find conn =>
    match d.threads conn with
    | some (.find token call) => some (d.findHandle conn token call, [])
    | _ => none
  | .checkpoint conn =>
    match d.threads conn with
    | some (.checkpoint token call h) =>
      if d.marked conn h.id then some (d.setPhase conn (.clearMark h), [])
      else some (d.setPhase conn (.marshal token call h), [])
    | _ => none
  | .clearMark conn =>
    match d.threads conn with
    | some (.clearMark h) =>
      some ((d.unmark conn h.id).answer conn (setText .busy "cancelled"), [])
    | _ => none
  | .marshal conn argAllocs resultOk =>
    match d.threads conn with
    | some (.marshal token call h) => some (d.marshal conn token call h argAllocs resultOk)
    | _ => none
  | .finish conn outcome replyOk =>
    match d.threads conn with
    | some (.running token h) =>
      if outcome.err then some (d.setPhase conn (.coreFail token h), [])
      else some (afterBody d conn token h (bodyReply h outcome replyOk))
    | _ => none
  | .coreFail conn =>
    match d.threads conn with
    | some (.coreFail token h) =>
      if d.marked conn h.id then some (d.setPhase conn (.coreClear token h), [])
      else some (afterBody d conn token h (setText .core ""))
    | _ => none
  | .coreClear conn =>
    match d.threads conn with
    | some (.coreClear token h) =>
      some (afterBody (d.unmark conn h.id) conn token h (setText .busy "cancelled"))
    | _ => none
  | .store conn copyOk =>
    match d.threads conn with
    | some (.storing token name reply) =>
      let (cache, stored) := cachePut d.cache token reply name copyOk
      some ({ d with cache }.answer conn reply, [.completed conn token name reply stored])
    | _ => none
  | .reply conn sent =>
    match d.threads conn with
    | some (.replying _) =>
      if sent then some (d.setPhase conn .reading, []) else some (d.release conn, [])
    | _ => none
  | .hangUp conn =>
    match d.threads conn with
    | some .reading => some (d.release conn, [])
    | _ => none

end Step

/-- A function table of one integer function without arguments. -/
def sampleFns : List Fn := [⟨ascii "f", .int⟩]

end FractalSQL.Service
