import FractalSQL.Lib.LinkedList
import FractalSQL.Session.Registry

/-!
# The session registry in memory

The entries as the process keeps them: allocated nodes, chained into a table of 1024
buckets and into a doubly linked list, with a counter. A read or a store through a
pointer to no node is a fault, and a loop over a chain that does not end runs out of
fuel; both are `none`.
-/
namespace FractalSQL.Session
open Lib

/-- `FSQL_SESSION_BUCKETS`. -/
def bucketCount : ℕ := 1024

abbrev Addr := ℕ

/-- `struct fsql_session_entry` with its links; `lruPrev` goes toward the most recently
used entry. -/
structure Node where
  entry : Entry
  bucketNext : Option Addr := none
  lruPrev : Option Addr := none
  lruNext : Option Addr := none
deriving DecidableEq

/-- The nodes that are allocated, `g_buckets`, `g_lru_head`, `g_lru_tail` and
`g_entry_count`. -/
structure Memory where
  nodes : Addr → Option Node := fun _ => none
  buckets : Fin bucketCount → Option Addr := fun _ => none
  lruHead : Option Addr := none
  lruTail : Option Addr := none
  entryCount : UInt32 := 0

/-- What the environment decides in a call: `calloc` fails, or gives an address that is
not in use. -/
structure HeapEnv where
  now : ℤ
  calloc : (Addr → Option Node) → Option Addr
  calloc_free : ∀ nodes a, calloc nodes = some a → nodes a = none
  ctxOk : Bool

def bucketOf (id : UInt64) : Fin bucketCount := ⟨id.toNat % bucketCount, Nat.mod_lt _ (by decide)⟩

namespace Memory

/-- A store through a pointer to a node. -/
def store (m : Memory) (a : Addr) (f : Node → Node) : Option Memory :=
  (m.nodes a).map fun n => { m with nodes := Function.update m.nodes a (some (f n)) }

def storeEntry (m : Memory) (a : Addr) (f : Entry → Entry) : Option Memory :=
  m.store a fun n => { n with entry := f n.entry }

def findEntryLoop (m : Memory) (id : UInt64) : ℕ → Option Addr → Option (Option Addr)
  | 0, _ => none
  | _ + 1, none => some none
  | fuel + 1, some a => do
    let n ← m.nodes a
    if n.entry.sessionId = id then some (some a) else m.findEntryLoop id fuel n.bucketNext

/-- `find_entry`. -/
def findEntry (fuel : ℕ) (m : Memory) (id : UInt64) : Option (Option Addr) :=
  m.findEntryLoop id fuel (m.buckets (bucketOf id))

/-- What `slot` points to: the first pointer of the bucket, or the one in the node `before`. -/
def readSlot (m : Memory) (b : Fin bucketCount) (before : Option Addr) : Option (Option Addr) :=
  match before with
  | none => some (m.buckets b)
  | some a => (m.nodes a).map Node.bucketNext

def writeSlot (m : Memory) (b : Fin bucketCount) (before q : Option Addr) : Option Memory :=
  match before with
  | none => some { m with buckets := Function.update m.buckets b q }
  | some a => m.store a fun n => { n with bucketNext := q }

def bucketUnlinkLoop (m : Memory) (b : Fin bucketCount) (e : Addr) : ℕ → Option Addr → Option Memory
  | 0, _ => none
  | fuel + 1, before => do
    match ← m.readSlot b before with
    | none => some m
    | some a =>
      if a = e then
        let n ← m.nodes e
        m.writeSlot b before n.bucketNext
      else m.bucketUnlinkLoop b e fuel (some a)

/-- `bucket_unlink`. -/
def bucketUnlink (fuel : ℕ) (m : Memory) (e : Addr) : Option Memory := do
  let n ← m.nodes e
  m.bucketUnlinkLoop (bucketOf n.entry.sessionId) e fuel none

/-- The pointer to the cell behind `before` in the list: the head, or the node's `lru_next`. -/
def setNext (m : Memory) (before q : Option Addr) : Option Memory :=
  match before with
  | some p => m.store p fun n => { n with lruNext := q }
  | none => some { m with lruHead := q }

/-- The pointer to the cell before `behind` in the list: the tail, or the node's `lru_prev`. -/
def setPrev (m : Memory) (behind q : Option Addr) : Option Memory :=
  match behind with
  | some p => m.store p fun n => { n with lruPrev := q }
  | none => some { m with lruTail := q }

/-- `lru_unlink`. -/
def lruUnlink (m : Memory) (e : Addr) : Option Memory := do
  let n ← m.nodes e
  let m ← m.setNext n.lruPrev n.lruNext
  let n ← m.nodes e
  let m ← m.setPrev n.lruNext n.lruPrev
  m.store e fun n => { n with lruPrev := none, lruNext := none }

/-- `lru_push_front`. -/
def lruPushFront (m : Memory) (e : Addr) : Option Memory := do
  let m ← m.store e fun n => { n with lruPrev := none, lruNext := m.lruHead }
  let m ← match m.lruHead with
    | some h => m.store h fun n => { n with lruPrev := some e }
    | none => some m
  let m := { m with lruHead := some e }
  if m.lruTail = none then some { m with lruTail := some e } else some m

/-- `entry_destroy`. -/
def entryDestroy (m : Memory) (e : Addr) : Option Memory :=
  (m.nodes e).map fun _ =>
    { m with nodes := Function.update m.nodes e none, entryCount := m.entryCount - 1 }

/-- An entry is unlinked from its bucket and from the list, and freed. -/
def remove (fuel : ℕ) (m : Memory) (e : Addr) : Option Memory := do
  let m ← m.bucketUnlink fuel e
  let m ← m.lruUnlink e
  m.entryDestroy e

def sweepLoop (fuel : ℕ) (now : ℤ) : ℕ → Memory → Option Addr → Option Memory
  | 0, m, _ => some m
  | _ + 1, m, none => some m
  | limit + 1, m, some e => do
    let n ← m.nodes e
    let m ← if n.entry.unheld ∧ idleTtlSeconds ≤ now - n.entry.lastUsed then m.remove fuel e else some m
    sweepLoop fuel now limit m n.lruPrev

/-- `sweep_stale`. -/
def sweepStale (fuel : ℕ) (m : Memory) (limit : ℕ) (now : ℤ) : Option Memory :=
  sweepLoop fuel now limit m m.lruTail

def evictLoop (bucketFuel : ℕ) (m : Memory) : ℕ → Option Addr → Option (Memory × Bool)
  | 0, _ => none
  | _ + 1, none => some (m, false)
  | fuel + 1, some e => do
    let n ← m.nodes e
    if n.entry.unheld then
      let m ← m.remove bucketFuel e
      some (m, true)
    else m.evictLoop bucketFuel fuel n.lruPrev

/-- `evict_one_lru`; the flag tells whether an entry was evicted. -/
def evictOneLru (fuel : ℕ) (m : Memory) : Option (Memory × Bool) := m.evictLoop fuel fuel m.lruTail

/-- The new node in front of its bucket and of the list. -/
def insert (m : Memory) (a : Addr) (e : Entry) : Option Memory := do
  let b := bucketOf e.sessionId
  let m := { m with nodes := Function.update m.nodes a (some { entry := e, bucketNext := m.buckets b }),
                    buckets := Function.update m.buckets b (some a) }
  let m ← m.lruPushFront a
  some { m with entryCount := m.entryCount + 1 }

/-- `calloc` and the linking of a new entry. -/
def createEntry (m : Memory) (id : UInt64) (env : HeapEnv) : Option (Memory × Option Addr) :=
  match env.calloc m.nodes with
  | none => some (m, none)
  | some a => do
    let m ← m.insert a { sessionId := id, refcount := 1, lastUsed := env.now }
    some (m, some a)

/-- `find_or_create_entry_locked`. -/
def findOrCreateEntry (fuel : ℕ) (m : Memory) (id : UInt64) (env : HeapEnv) :
    Option (Memory × Option Addr) := do
  match ← m.findEntry fuel id with
  | some a =>
    let m ← m.storeEntry a fun e => { e with refcount := e.refcount + 1, lastUsed := env.now }
    let m ← m.lruUnlink a
    let m ← m.lruPushFront a
    some (m, some a)
  | none =>
    if UInt32.ofNat maxEntries ≤ m.entryCount then
      match ← m.evictOneLru fuel with
      | (m, true) => m.createEntry id env
      | (m, false) => some (m, none)
    else m.createEntry id env

/-- The part of the two acquires up to the entry: the sweep, the refusal, and the entry
that is found or made. -/
def acquireEntry (fuel : ℕ) (m : Memory) (id : UInt64) (env : HeapEnv) (refuse : Entry → Bool) :
    Option (Memory × Option Addr) := do
  let m ← m.sweepStale fuel sweepScanLimit env.now
  match ← m.findEntry fuel id with
  | some a =>
    let n ← m.nodes a
    if refuse n.entry then some (m, none) else m.findOrCreateEntry fuel id env
  | none => m.findOrCreateEntry fuel id env

/-- The context is made on first use; when that fails the entry is given back. -/
def lazyCtx (m : Memory) (a : Addr) (env : HeapEnv) (giveBack : Entry → Entry) : Option (Memory × Bool) := do
  let n ← m.nodes a
  if n.entry.hasCtx then some (m, true)
  else if env.ctxOk then
    let m ← m.storeEntry a fun e => { e with hasCtx := true }
    some (m, true)
  else
    let m ← m.storeEntry a giveBack
    some (m, false)

/-- `fractal_session_acquire`; the flag tells whether a context was handed out. -/
def sessionAcquire (fuel : ℕ) (m : Memory) (id : UInt64) (env : HeapEnv) : Option (Memory × Bool) := do
  match ← m.acquireEntry fuel id env Entry.busy with
  | (m, none) => some (m, false)
  | (m, some a) =>
    match ← m.lazyCtx a env fun e => { e with refcount := e.refcount - 1 } with
    | (m, false) => some (m, false)
    | (m, true) =>
      let m ← m.storeEntry a fun e => { e with shared := e.shared + 1 }
      some (m, true)

/-- `fractal_session_acquire_exclusive`. -/
def sessionAcquireExclusive (fuel : ℕ) (m : Memory) (id : UInt64) (env : HeapEnv) :
    Option (Memory × Bool) := do
  match ← m.acquireEntry fuel id env fun e => e.busy ∨ 0 < e.shared with
  | (m, none) => some (m, false)
  | (m, some a) =>
    let m ← m.storeEntry a fun e => { e with busy := true }
    m.lazyCtx a env fun e => { e with refcount := e.refcount - 1, busy := false }

/-- A store to the entry of an id, when there is one. -/
def updateEntry (fuel : ℕ) (m : Memory) (id : UInt64) (f : Entry → Entry) : Option Memory := do
  match ← m.findEntry fuel id with
  | some a => m.storeEntry a f
  | none => some m

/-- `fractal_session_release`. -/
def sessionRelease (fuel : ℕ) (m : Memory) (id : UInt64) : Option Memory :=
  m.updateEntry fuel id fun e => { e with shared := e.shared - 1, refcount := e.refcount - 1 }

/-- `fractal_session_release_exclusive`. -/
def sessionReleaseExclusive (fuel : ℕ) (m : Memory) (id : UInt64) : Option Memory :=
  m.updateEntry fuel id fun e => { e with busy := false, refcount := e.refcount - 1 }

/-- A setter of one flag: the entry is made when it is missing, and not held. -/
def setFlag (fuel : ℕ) (m : Memory) (id : UInt64) (env : HeapEnv) (set : Entry → Entry) : Option Memory := do
  match ← m.findEntry fuel id with
  | some a => m.storeEntry a set
  | none =>
    match ← m.findOrCreateEntry fuel id env with
    | (m, none) => some m
    | (m, some a) =>
      let m ← m.storeEntry a fun e => { e with refcount := e.refcount - 1 }
      m.storeEntry a set

/-- `fractal_session_set_agent_partial`. -/
def setAgentPartial (fuel : ℕ) (m : Memory) (id : UInt64) (on : Bool) (env : HeapEnv) : Option Memory :=
  m.setFlag fuel id env fun e => { e with agentPartialFail := on }

/-- `fractal_session_set_diversify_enabled`. -/
def setDiversifyEnabled (fuel : ℕ) (m : Memory) (id : UInt64) (on : Bool) (env : HeapEnv) : Option Memory :=
  m.setFlag fuel id env fun e => { e with diversifyEnabled := on }

/-- A getter of one flag. -/
def getFlag (fuel : ℕ) (m : Memory) (id : UInt64) (flag : Entry → Bool) : Option Bool := do
  match ← m.findEntry fuel id with
  | some a =>
    let n ← m.nodes a
    some (flag n.entry)
  | none => some false

/-- `fractal_session_get_agent_partial`. -/
def getAgentPartial (fuel : ℕ) (m : Memory) (id : UInt64) : Option Bool := m.getFlag fuel id Entry.agentPartialFail

/-- `fractal_session_get_diversify_enabled`. -/
def getDiversifyEnabled (fuel : ℕ) (m : Memory) (id : UInt64) : Option Bool :=
  m.getFlag fuel id Entry.diversifyEnabled

/-- `fractal_session_registry_close`. -/
def sessionRegistryClose (fuel : ℕ) (m : Memory) (id : UInt64) : Option Memory := do
  match ← m.findEntry fuel id with
  | some a =>
    let n ← m.nodes a
    if n.entry.unheld then m.remove fuel a else some m
  | none => some m

end Memory

/-- The calls of the registry. -/
inductive Call where
  | acquire (id : UInt64) (env : HeapEnv)
  | acquireExclusive (id : UInt64) (env : HeapEnv)
  | release (id : UInt64)
  | releaseExclusive (id : UInt64)
  | setAgentPartial (id : UInt64) (on : Bool) (env : HeapEnv)
  | setDiversifyEnabled (id : UInt64) (on : Bool) (env : HeapEnv)
  | getAgentPartial (id : UInt64)
  | getDiversifyEnabled (id : UInt64)
  | close (id : UInt64)

def Memory.step (fuel : ℕ) (m : Memory) : Call → Option Memory
  | .acquire id env => (m.sessionAcquire fuel id env).map Prod.fst
  | .acquireExclusive id env => (m.sessionAcquireExclusive fuel id env).map Prod.fst
  | .release id => m.sessionRelease fuel id
  | .releaseExclusive id => m.sessionReleaseExclusive fuel id
  | .setAgentPartial id on env => m.setAgentPartial fuel id on env
  | .setDiversifyEnabled id on env => m.setDiversifyEnabled fuel id on env
  | .getAgentPartial id => (m.getAgentPartial fuel id).map fun _ => m
  | .getDiversifyEnabled id => (m.getDiversifyEnabled fuel id).map fun _ => m
  | .close id => m.sessionRegistryClose fuel id

/-- The memory after a sequence of calls. -/
def runCalls (fuel : ℕ) (calls : List Call) : Option Memory := calls.foldlM (Memory.step fuel) {}

end FractalSQL.Session
