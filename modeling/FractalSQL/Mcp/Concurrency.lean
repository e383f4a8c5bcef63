import FractalSQL.Lib.Count
import FractalSQL.Lib.Machine
import FractalSQL.Lib.Text

/-!
# The concurrency gate

`ConcurrencyManager`: a cheap and an expensive semaphore, a map with each client's
expensive calls, and the tokens that hold what they were granted. Every critical section
is a step, so an acquisition and a release of one token interleave with those of others.
-/
namespace FractalSQL.Mcp.Gate
open Lib

inductive ToolClass where
  | cheap
  | expensive
deriving DecidableEq

/-- The limits, which the server refuses to start with below 1. -/
structure ConcurrencyConfig where
  cheapLimit : ℕ := 50
  expensiveLimit : ℕ := 5
  expensivePerClient : ℕ := 2
  cheap_pos : 1 ≤ cheapLimit := by decide
  expensive_pos : 1 ≤ expensiveLimit := by decide
  perClient_pos : 1 ≤ expensivePerClient := by decide

def ConcurrencyConfig.limit (cfg : ConcurrencyConfig) : ToolClass → ℕ
  | .cheap => cfg.cheapLimit
  | .expensive => cfg.expensiveLimit

/-- What follows a release. -/
inductive After where
  | kept
  | destroyed
  /-- The rest of a move assignment. -/
  | takes (src : ℕ)
deriving DecidableEq

/-- The code a token is in. -/
inductive Op where
  | idle
  /-- In `acquire`, before `acquireClientSlot`. -/
  | slot
  /-- In `acquire`, at `tryAcquire`. -/
  | wait
  /-- In `acquire`, after a wait that timed out. -/
  | rollback
  | dropClient (after : After)
  | dropGlobal (after : After)
  | clear (after : After)
  /-- The source of a move assignment to `dst`. -/
  | lent (dst : ℕ)
  | gone
deriving DecidableEq

/-- `Token`; `mgr` is whether `mgr_` is set. -/
structure Token where
  mgr : Bool := false
  cls : ToolClass := .cheap
  client : Bytes := []
  heldGlobal : Bool := false
  heldClient : Bool := false
  op : Op := .idle

structure State where
  /-- `inUse_` of the two semaphores. -/
  inUse : ToolClass → ℕ := fun _ => 0
  clientCounts : Bytes → Option ℕ := fun _ => none
  tokens : List Token := []

inductive Label where
  | declare
  | acquire (cls : ToolClass) (client : Bytes)
  | moveAssign (dst src : ℕ)
  | release (n : ℕ)
  | destroy (n : ℕ)
  /-- The next critical section of a token; `ok` whether a wait ends with a slot. -/
  | advance (n : ℕ) (ok : Bool)
  /-- Another exception on the way to a slot. -/
  | throw (n : ℕ)

variable (cfg : ConcurrencyConfig)

def State.put (s : State) (n : ℕ) (t : Token) : State := { s with tokens := s.tokens.set n t }

/-- `BoundedSemaphore::release`. -/
def State.releaseGlobal (s : State) (cls : ToolClass) : State :=
  { s with inUse := Function.update s.inUse cls (if 0 < s.inUse cls then s.inUse cls - 1 else s.inUse cls) }

/-- `releaseClient`. -/
def State.releaseClient (s : State) (client : Bytes) : State :=
  match s.clientCounts client with
  | none => s
  | some m =>
    let m := if 0 < m then m - 1 else m
    { s with clientCounts := Function.update s.clientCounts client (if m = 0 then none else some m) }

/-- `mgr_ = nullptr`, and what follows. -/
def State.settle (s : State) (n : ℕ) (t : Token) : After → Option State
  | .kept => some (s.put n { t with mgr := false, op := .idle })
  | .destroyed => some (s.put n { t with mgr := false, op := .gone })
  | .takes src =>
    let s := s.put n { t with mgr := false, op := .idle }
    (s.tokens[src]?).map fun o =>
      (s.put n { o with op := .idle }).put src
        { o with mgr := false, heldGlobal := false, heldClient := false, op := .idle }

def State.advance (s : State) (n : ℕ) (t : Token) (ok : Bool) : Option State :=
  match t.op with
  | .slot =>
    let m := (s.clientCounts t.client).getD 0
    if cfg.expensivePerClient ≤ m then
      some ({ s with clientCounts := Function.update s.clientCounts t.client (some m) }.put n
        { t with op := .dropClient .destroyed })
    else
      some ({ s with clientCounts := Function.update s.clientCounts t.client (some (m + 1)) }.put n
        { t with heldClient := true, op := .wait })
  | .wait =>
    if ok then
      if s.inUse t.cls < cfg.limit t.cls then
        some ({ s with inUse := Function.update s.inUse t.cls (s.inUse t.cls + 1) }.put n
          { t with heldGlobal := true, op := .idle })
      else none
    else some (s.put n { t with op := if t.heldClient then .rollback else .dropClient .destroyed })
  | .rollback => some ((s.releaseClient t.client).put n { t with heldClient := false, op := .dropClient .destroyed })
  | .dropClient after =>
    some ((if t.mgr && t.heldClient then s.releaseClient t.client else s).put n { t with op := .dropGlobal after })
  | .dropGlobal after =>
    some ((if t.mgr && t.heldGlobal then s.releaseGlobal t.cls else s).put n { t with op := .clear after })
  | .clear after => s.settle n t after
  | .idle | .lent _ | .gone => none

/-- A token that no code is in. -/
def State.free (s : State) (n : ℕ) : Option Token := (s.tokens[n]?).filter fun t => t.op = .idle

def State.step (s : State) : Label → Option (State × List Empty)
  | .declare => some ({ s with tokens := s.tokens ++ [{}] }, [])
  | .acquire cls client =>
    some ({ s with tokens := s.tokens ++
      [{ mgr := true, cls := cls, client := client, op := if cls = .expensive then .slot else .wait }] }, [])
  | .moveAssign dst src =>
    (s.free dst).bind fun t => (s.free src).map fun o =>
      ((s.put src { o with op := .lent dst }).put dst { t with op := .dropClient (.takes src) }, [])
  | .release n => (s.free n).map fun t => (s.put n { t with op := .dropClient .kept }, [])
  | .destroy n => (s.free n).map fun t => (s.put n { t with op := .dropClient .destroyed }, [])
  | .advance n ok => (s.tokens[n]?).bind fun t => (s.advance cfg n t ok).map fun s' => (s', [])
  | .throw n =>
    (s.tokens[n]?).bind fun t =>
      if t.op = .slot ∨ t.op = .wait then some (s.put n { t with op := .dropClient .destroyed }, []) else none

/-! ### What a token holds -/

/-- The token has a slot of the semaphore of `cls`. -/
def Token.holdsGlobal (cls : ToolClass) (t : Token) : Bool :=
  t.mgr && t.heldGlobal && t.cls = cls && match t.op with
    | .clear _ => false
    | _ => true

/-- The token has an expensive slot of `client`. -/
def Token.holdsClient (client : Bytes) (t : Token) : Bool :=
  t.mgr && t.heldClient && t.client = client && match t.op with
    | .dropGlobal _ | .clear _ => false
    | _ => true

/-- The slots are those the tokens hold. -/
structure Conserved (s : State) : Prop where
  global : ∀ cls, s.tokens.countP (Token.holdsGlobal cls) = s.inUse cls
  limit : ∀ cls, s.inUse cls ≤ cfg.limit cls
  client : ∀ k, s.tokens.countP (Token.holdsClient k) = (s.clientCounts k).getD 0
  perClient : ∀ k, (s.clientCounts k).getD 0 ≤ cfg.expensivePerClient
  settled : ∀ t ∈ s.tokens, t.op = .idle → t.mgr = true →
    t.heldGlobal = true ∧ (t.heldClient = true ↔ t.cls = .expensive)
  idle : (∀ t ∈ s.tokens, (∀ cls, t.holdsGlobal cls = false) ∧ ∀ k, t.holdsClient k = false) →
    (∀ cls, s.inUse cls = 0) ∧ ∀ k, s.clientCounts k = none

end FractalSQL.Mcp.Gate
