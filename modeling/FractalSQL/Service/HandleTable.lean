import FractalSQL.Service.Daemon

/-!
# The statement handles of the daemon

The registry `g_handles` with one thread per connection. A handle is an object of its own,
found under `g_handles_mu` but used and freed outside it, and the mark of CANCEL is read
and cleared in two steps. A 64-bit id is only how a request names a handle.
-/
namespace FractalSQL.Service.HandleTable
open Lib

/-- A handle whose init succeeded; the id and the owner are set later. -/
structure Node extends Handle where
  /-- The connection whose thread ran the init. -/
  creator : ℕ
deriving DecidableEq

/-- Where the thread of a connection stands. -/
inductive Place where
  | reading
  | initialising (req : InitRequest) (fn : Fn)
  /-- The init succeeded, `g_next_handle` is to be taken. -/
  | naming (n : ℕ)
  /-- Before the allocation of the reply body and the link. -/
  | linking (n : ℕ)
  | lookup (call : CallRequest)
  | find (call : CallRequest)
  | checkpoint (call : CallRequest) (n : ℕ)
  /-- The checkpoint saw the mark. -/
  | clearMark (n : ℕ)
  | marshal (call : CallRequest) (n : ℕ)
  | running (n : ℕ)
  | coreFail (n : ℕ)
  /-- `core_fail` saw the mark. -/
  | coreClear (n : ℕ)
  /-- The handle is not in the registry, its deinit is to be called. -/
  | deiniting (n : ℕ)
  | replying
  /-- `handle_release_owner` has unlinked these. -/
  | releasing (ns : List ℕ)
deriving DecidableEq

/-- What the environment of a thread decides at its next step. -/
structure Choice where
  /-- The frame read next, none when the connection is closed, lost or idle. -/
  request : Option Request := none
  init : InitOutcome := .noMemory
  /-- The allocation of a reply body or of a result buffer succeeds. -/
  alloc : Bool := true
  argAllocs : List Bool := []
  /-- The response cache answers. -/
  cached : Bool := false
  body : BodyOutcome := ⟨false, false, [], 0⟩
  sent : Bool := true

inductive Label where
  | accept
  | thread (conn : ℕ) (o : Choice)

inductive Event where
  /-- The init of a function succeeded. -/
  | created (conn n : ℕ)
  | linked (conn n : ℕ)
  | unlinked (conn n : ℕ)
  | deinited (conn n : ℕ)
  /-- A UDF_CALL passes the handle and argument-count check. -/
  | passed (conn n : ℕ)
  /-- The reply to such a call. -/
  | replied (conn n : ℕ) (status : Status)
  /-- A CANCEL is answered OK. -/
  | cancelled (conn n : ℕ)
  | ended (conn : ℕ)
deriving DecidableEq

structure Table where
  /-- Every handle whose init succeeded. -/
  nodes : List Node := []
  /-- `g_handles`. -/
  registry : List ℕ := []
  nextHandle : UInt64 := 1
  nextConn : ℕ := 1
  threads : ℕ → Option Place := fun _ => none

def Table.go (t : Table) (conn : ℕ) (place : Place) : Table :=
  { t with threads := Function.update t.threads conn (some place) }

/-- `FSQ_ATOMIC_GET` on the mark. -/
def Table.marked (t : Table) (n : ℕ) : Bool := (t.nodes[n]?).any fun x => x.cancelled

/-- `FSQ_ATOMIC_SET` on the mark. -/
def Table.mark (t : Table) (n : ℕ) (mark : Bool) : Table :=
  { t with nodes := t.nodes.modify n fun x => { x with cancelled := mark } }

/-- The first handle in the registry that `p` picks. -/
def Table.first (t : Table) (p : Node → Bool) : Option ℕ := t.registry.find? fun n => (t.nodes[n]?).any p

/-- `handle_find_locked`. -/
def Table.findLocked (t : Table) (conn : ℕ) (id : UInt64) : Option ℕ :=
  t.first fun x => x.id = id ∧ x.owner = conn

def Table.owns (t : Table) (conn n : ℕ) : Bool := (t.nodes[n]?).any fun x => x.owner = conn

/-- The loop of `handle_release_owner` under the lock, which builds its list in reverse. -/
def Table.leave (t : Table) (conn : ℕ) : Table × List Event :=
  let own := t.registry.filter (t.owns conn)
  ({ t with registry := t.registry.filter fun n => !t.owns conn n }.go conn (.releasing own.reverse),
    own.map (.unlinked conn))

/-- The first step of `handle_deinit`. -/
def Table.deinit (t : Table) (conn : ℕ) (payload : Bytes) : Table × List Event :=
  match (parseHandle payload).bind (t.findLocked conn) with
  | some n => ({ t with registry := t.registry.erase n }.go conn (.deiniting n), [.unlinked conn n])
  | none => (t.go conn .replying, [])

/-- `handle_cancel` marks a handle of any connection. -/
def Table.cancel (t : Table) (conn : ℕ) (payload : Bytes) : Table × List Event :=
  match (parseHandle payload).bind fun id => t.first fun x => x.id = id with
  | some n => ((t.mark n true).go conn .replying, [.cancelled conn n])
  | none => (t.go conn .replying, [])

section Step
variable (fns : List Fn)

/-- `dispatch` up to the first point where another thread can run. -/
def Table.receive (t : Table) (conn : ℕ) : Request → Table × List Event
  | .init payload =>
    match parseInit payload with
    | none => (t.go conn .replying, [])
    | some req =>
      match findFn fns req.name with
      | none => (t.go conn .replying, [])
      | some fn => (t.go conn (.initialising req fn), [])
  | .call token payload =>
    match parseCall payload with
    | none => (t.go conn .replying, [])
    | some call => (t.go conn (if token ≠ 0 then .lookup call else .find call), [])
  | .deinit payload => t.deinit conn payload
  | .cancel payload => t.cancel conn payload

def Table.initialise (t : Table) (conn : ℕ) (req : InitRequest) (fn : Fn) : InitOutcome → Option (Table × List Event)
  | .noMemory | .refused _ => some (t.go conn .replying, [])
  | .accepted types maxLength _ =>
    if req.args.all initArgOk then
      if types.length = req.args.length then
        let x : Node := ⟨⟨0, fn, types, maxLength, 0, false⟩, conn⟩
        some ({ t with nodes := t.nodes ++ [x] }.go conn (.naming t.nodes.length), [.created conn t.nodes.length])
      else none
    else some (t.go conn .replying, [])

/-- The name and the argument count are compared outside the lock. -/
def Table.findHandle (t : Table) (conn : ℕ) (call : CallRequest) : Table × List Event :=
  match (t.findLocked conn call.handle).filter fun n =>
      (t.nodes[n]?).any fun x => x.fn.name = call.name ∧ x.argTypes.length = call.args.length with
  | some n => (t.go conn (.checkpoint call n), [.passed conn n])
  | none => (t.go conn .replying, [])

/-- The reply to a call that has passed. -/
def Table.reply (t : Table) (conn n : ℕ) (status : Status) : Table × List Event :=
  (t.go conn .replying, [.replied conn n status])

def Table.marshal (t : Table) (conn : ℕ) (call : CallRequest) (n : ℕ) (x : Node) (o : Choice) : Table × List Event :=
  match marshalArgs x.argTypes call.args o.argAllocs with
  | some status => t.reply conn n status
  | none =>
    if x.fn.kind = .ctl then t.reply conn n .notsup
    else if x.fn.kind = .str ∧ o.alloc = false then t.reply conn n .internal
    else (t.go conn (.running n), [])

def Table.advance (t : Table) (conn : ℕ) (o : Choice) : Place → Option (Table × List Event)
  | .reading =>
    match o.request with
    | some req => some (t.receive fns conn req)
    | none => some (t.leave conn)
  | .initialising req fn => t.initialise conn req fn o.init
  | .naming n =>
    let named := t.nodes.modify n fun x => { x with id := t.nextHandle }
    some ({ t with nodes := named, nextHandle := t.nextHandle + 1 }.go conn (.linking n), [])
  | .linking n =>
    if o.alloc then
      let owned := t.nodes.modify n fun x => { x with owner := conn }
      some ({ t with nodes := owned, registry := n :: t.registry }.go conn .replying, [.linked conn n])
    else some (t.go conn (.deiniting n), [])
  | .lookup call => some (t.go conn (if o.cached then .replying else .find call), [])
  | .find call => some (t.findHandle conn call)
  | .checkpoint call n => some (t.go conn (if t.marked n then .clearMark n else .marshal call n), [])
  | .clearMark n => some ((t.mark n false).reply conn n .busy)
  | .marshal call n => (t.nodes[n]?).map fun x => t.marshal conn call n x o
  | .running n =>
    (t.nodes[n]?).map fun x =>
      if o.body.err then (t.go conn (.coreFail n), [])
      else t.reply conn n (bodyReply x.toHandle o.body o.alloc).status
  | .coreFail n => some (if t.marked n then (t.go conn (.coreClear n), []) else t.reply conn n .core)
  | .coreClear n => some ((t.mark n false).reply conn n .busy)
  | .deiniting n => some (t.go conn .replying, [.deinited conn n])
  | .replying => some (if o.sent then (t.go conn .reading, []) else t.leave conn)
  | .releasing [] => some ({ t with threads := Function.update t.threads conn none }, [.ended conn])
  | .releasing (n :: ns) => some (t.go conn (.releasing ns), [.deinited conn n])

def Table.step (t : Table) : Label → Option (Table × List Event)
  | .accept => some ({ t with nextConn := t.nextConn + 1 }.go t.nextConn .reading, [])
  | .thread conn o => (t.threads conn).bind (t.advance fns conn o)

end Step

/-! ### What a step can do -/

/-- The handles whose deinit is left to a thread. -/
def Place.owes : Place → List ℕ
  | .naming n | .linking n | .deiniting n => [n]
  | .releasing ns => ns
  | _ => []

/-- The handle a call executes on. -/
def Place.calls : Place → Option ℕ
  | .checkpoint _ n | .clearMark n | .marshal _ n | .running n | .coreFail n | .coreClear n => some n
  | _ => none

/-- The checkpoint between calls has not let the call through. -/
def Place.guards : Place → Option ℕ
  | .checkpoint _ n | .clearMark n => some n
  | _ => none

/-- The mark was seen. -/
def Place.clears : Place → Option ℕ
  | .clearMark n | .coreClear n => some n
  | _ => none

def Place.leaves : Place → Bool
  | .releasing _ => true
  | _ => false

inductive Move (t : Table) : Table → List Event → Prop
  | accept : Move t ({ t with nextConn := t.nextConn + 1 }.go t.nextConn .reading) []
  | walk {c : ℕ} {pc pc' : Place} (hpc : t.threads c = some pc) (howes : pc'.owes = pc.owes)
      (hcalls : pc'.calls = pc.calls) (hguards : ∀ n, pc.guards = some n → t.marked n → pc'.guards = some n)
      (hclears : ∀ n, pc'.clears = some n → t.marked n) (hstay : pc'.leaves = false) : Move t (t.go c pc') []
  | name {c n : ℕ} (hpc : t.threads c = some (.naming n)) :
      Move t ({ t with
        nodes := t.nodes.modify n fun x => { x with id := t.nextHandle }
        nextHandle := t.nextHandle + 1 }.go c (.linking n)) []
  | create {c : ℕ} {pc : Place} {x : Node} (hpc : t.threads c = some pc) (howes : pc.owes = [])
      (hcalls : pc.calls = none) (hx : x.creator = c) (hmark : x.cancelled = false) :
      Move t ({ t with nodes := t.nodes ++ [x] }.go c (.naming t.nodes.length)) [.created c t.nodes.length]
  | link {c n : ℕ} (hpc : t.threads c = some (.linking n)) :
      Move t ({ t with
        nodes := t.nodes.modify n fun x => { x with owner := c }
        registry := n :: t.registry }.go c .replying) [.linked c n]
  | cancel {c n : ℕ} (hpc : t.threads c = some .reading) (hn : n ∈ t.registry) :
      Move t ((t.mark n true).go c .replying) [.cancelled c n]
  | pass {c n : ℕ} {call : CallRequest} (hpc : t.threads c = some (.find call)) (hn : n ∈ t.registry)
      (hown : t.owns c n) : Move t (t.go c (.checkpoint call n)) [.passed c n]
  | refuse {c n : ℕ} {pc : Place} (hpc : t.threads c = some pc) (hclears : pc.clears = some n) :
      Move t ((t.mark n false).go c .replying) [.replied c n .busy]
  | reply {c n : ℕ} {pc : Place} {status : Status} (hpc : t.threads c = some pc) (hcalls : pc.calls = some n)
      (hguards : pc.guards = none) (hstatus : status ≠ .busy) : Move t (t.go c .replying) [.replied c n status]
  | unlink {c n : ℕ} (hpc : t.threads c = some .reading) (hn : n ∈ t.registry) (hown : t.owns c n) :
      Move t ({ t with registry := t.registry.erase n }.go c (.deiniting n)) [.unlinked c n]
  | leave {c : ℕ} {pc : Place} (hpc : t.threads c = some pc) (howes : pc.owes = []) (hcalls : pc.calls = none) :
      Move t (t.leave c).1 (t.leave c).2
  | deinit {c n : ℕ} {pc pc' : Place} (hpc : t.threads c = some pc) (howes : pc.owes = n :: pc'.owes)
      (hcalls : pc.calls = none) (hcalls' : pc'.calls = none) (hclears : pc'.clears = none)
      (hleaves : pc'.leaves = true → pc.leaves = true) : Move t (t.go c pc') [.deinited c n]
  | finish {c : ℕ} (hpc : t.threads c = some (.releasing [])) :
      Move t { t with threads := Function.update t.threads c none } [.ended c]

theorem Place.calls_of_clears {pc : Place} {n : ℕ} (h : pc.clears = some n) : pc.calls = some n := by
  cases pc <;> first | exact h | nomatch h

theorem first_some {t : Table} {p : Node → Bool} {n : ℕ} (h : t.first p = some n) :
    n ∈ t.registry ∧ ∃ x, t.nodes[n]? = some x ∧ p x := by
  have hp := List.find?_some (p := fun n => (t.nodes[n]?).any p) h
  exact ⟨List.mem_of_find?_eq_some h, (Option.any_eq_true _ _).mp hp⟩

theorem findLocked_some {t : Table} {conn : ℕ} {id : UInt64} {n : ℕ} (h : t.findLocked conn id = some n) :
    n ∈ t.registry ∧ t.owns conn n := by
  obtain ⟨hn, x, hx, hp⟩ := first_some h
  refine ⟨hn, ?_⟩
  rw [Table.owns, hx]
  exact decide_eq_true (of_decide_eq_true hp).2

theorem tlvResult_ne_busy (alloc : Bool) (type : ItemResult) (isNull : Bool) (bytes : Bytes) :
    (tlvResult alloc type isNull bytes).status ≠ Status.busy := by
  cases alloc <;> exact nofun

theorem bodyReply_ne_busy (h : Handle) (out : BodyOutcome) (alloc : Bool) : (bodyReply h out alloc).status ≠ Status.busy := by
  unfold bodyReply
  cases h.fn.kind with
  | ctl => exact nofun
  | int => exact tlvResult_ne_busy _ _ _ _
  | real => exact tlvResult_ne_busy _ _ _ _
  | str =>
    dsimp only
    split
    · exact tlvResult_ne_busy _ _ _ _
    · split
      · exact nofun
      · exact tlvResult_ne_busy _ _ _ _

section Step
variable {fns : List Fn} {t t' : Table} {es : List Event} {c : ℕ}

/-- A step between places where the thread neither owes a deinit nor is in a call. -/
theorem Move.idle {pc pc' : Place} (hpc : t.threads c = some pc) (howes : pc.owes = []) (hcalls : pc.calls = none)
    (howes' : pc'.owes = []) (hcalls' : pc'.calls = none) (hstay : pc'.leaves = false) : Move t (t.go c pc') [] := by
  have hguards : pc.guards = none := by
    cases pc <;> first | rfl | nomatch hcalls
  have hclears' : pc'.clears = none := by
    cases pc' <;> first | rfl | nomatch hcalls'
  refine .walk hpc (howes'.trans howes.symm) (hcalls'.trans hcalls.symm) (fun n hn => ?_) (fun n hn => ?_) hstay
  · rw [hguards] at hn
    cases hn
  · rw [hclears'] at hn
    cases hn

theorem Move.of_eq {r : Table × List Event} (h : Move t r.1 r.2) (heq : some r = some (t', es)) : Move t t' es := by
  cases Option.some.inj heq
  exact h

theorem receive_move {req : Request} (hpc : t.threads c = some .reading) :
    Move t (t.receive fns c req).1 (t.receive fns c req).2 := by
  have hreply : Move t (t.go c .replying) [] := .idle hpc rfl rfl rfl rfl rfl
  cases req with
  | init payload =>
    rw [Table.receive]
    split
    · exact hreply
    · split
      · exact hreply
      · exact .idle hpc rfl rfl rfl rfl rfl
  | call token payload =>
    rw [Table.receive]
    split
    · exact hreply
    · split <;> exact .idle hpc rfl rfl rfl rfl rfl
  | deinit payload =>
    rw [Table.receive, Table.deinit]
    split
    · rename_i n hn
      obtain ⟨id, -, hfind⟩ := Option.bind_eq_some_iff.mp hn
      obtain ⟨hmem, hown⟩ := findLocked_some hfind
      exact .unlink hpc hmem hown
    · exact hreply
  | cancel payload =>
    rw [Table.receive, Table.cancel]
    split
    · rename_i n hn
      obtain ⟨id, -, hfirst⟩ := Option.bind_eq_some_iff.mp hn
      exact .cancel hpc (first_some hfirst).1
    · exact hreply

theorem marshal_move {call : CallRequest} {n : ℕ} {x : Node} {o : Choice}
    (hpc : t.threads c = some (.marshal call n)) : Move t (t.marshal c call n x o).1 (t.marshal c call n x o).2 := by
  unfold Table.marshal
  split
  · rename_i status hstatus
    refine .reply hpc rfl rfl fun hbusy => ?_
    rcases marshalArgs_status (hbusy ▸ hstatus) with h | h <;> cases h
  · split
    · exact .reply hpc rfl rfl nofun
    · split
      · exact .reply hpc rfl rfl nofun
      · exact .walk hpc rfl rfl nofun nofun rfl

theorem advance_move {o : Choice} {pc : Place} (hpc : t.threads c = some pc)
    (h : t.advance fns c o pc = some (t', es)) : Move t t' es := by
  cases pc with
  | reading =>
    rw [Table.advance] at h
    split at h
    · exact (receive_move hpc).of_eq h
    · exact (Move.leave hpc rfl rfl).of_eq h
  | initialising req fn =>
    rw [Table.advance, Table.initialise.eq_def] at h
    split at h
    · cases h
      exact .idle hpc rfl rfl rfl rfl rfl
    · cases h
      exact .idle hpc rfl rfl rfl rfl rfl
    · split at h
      · split at h
        · cases h
          exact .create hpc rfl rfl rfl rfl
        · cases h
      · cases h
        exact .idle hpc rfl rfl rfl rfl rfl
  | naming n =>
    cases h
    exact .name hpc
  | linking n =>
    rw [Table.advance] at h
    split at h
    · cases h
      exact .link hpc
    · cases h
      exact .walk hpc rfl rfl nofun nofun rfl
  | lookup call =>
    cases h
    split <;> exact .idle hpc rfl rfl rfl rfl rfl
  | find call =>
    refine .of_eq ?_ h
    unfold Table.findHandle
    split
    · rename_i n hn
      obtain ⟨hfind, -⟩ := Option.filter_eq_some_iff.mp hn
      obtain ⟨hmem, hown⟩ := findLocked_some hfind
      exact .pass hpc hmem hown
    · exact .idle hpc rfl rfl rfl rfl rfl
  | checkpoint call n =>
    cases h
    split
    · rename_i hmark
      refine .walk hpc rfl rfl (fun m hm _ => hm) (fun m hm => ?_) rfl
      cases hm
      exact hmark
    · rename_i hmark
      refine .walk hpc rfl rfl (fun m hm hmarked => ?_) nofun rfl
      cases hm
      exact absurd hmarked hmark
  | clearMark n =>
    cases h
    exact .refuse hpc rfl
  | marshal call n =>
    obtain ⟨x, -, heq⟩ := Option.map_eq_some_iff.mp h
    exact (marshal_move hpc).of_eq (congrArg some heq)
  | running n =>
    obtain ⟨x, -, heq⟩ := Option.map_eq_some_iff.mp h
    split at heq
    · cases heq
      exact .walk hpc rfl rfl nofun nofun rfl
    · cases heq
      exact .reply hpc rfl rfl (bodyReply_ne_busy _ _ _)
  | coreFail n =>
    refine .of_eq ?_ h
    split
    · rename_i hmark
      refine .walk hpc rfl rfl nofun (fun m hm => ?_) rfl
      cases hm
      exact hmark
    · exact .reply hpc rfl rfl nofun
  | coreClear n =>
    cases h
    exact .refuse hpc rfl
  | deiniting n =>
    cases h
    exact .deinit hpc rfl rfl rfl rfl nofun
  | replying =>
    refine .of_eq ?_ h
    split
    · exact .idle hpc rfl rfl rfl rfl rfl
    · exact .leave hpc rfl rfl
  | releasing ns =>
    cases ns with
    | nil =>
      cases h
      exact .finish hpc
    | cons n ns =>
      cases h
      exact .deinit hpc rfl rfl rfl rfl fun _ => rfl

theorem step_move {a : Label} (h : t.step fns a = some (t', es)) : Move t t' es := by
  cases a with
  | accept =>
    cases h
    exact .accept
  | thread c o =>
    obtain ⟨pc, hpc, hadvance⟩ := Option.bind_eq_some_iff.mp h
    exact advance_move hpc hadvance

end Step

end FractalSQL.Service.HandleTable
