import Mathlib.Tactic

/-!
# The session registry

One entry per session id, with a search context made on first use, the counts of
its holders and two flags. The entries are kept in the order of their last
acquire, most recent first; a stale entry is swept from the far end, and a full
table gives up its oldest entry that nobody holds. The clock, the allocations and
the creation of a context are decided by the environment.
-/
namespace FractalSQL.Session

/-- `FSQL_SESSION_MAX_ENTRIES`. -/
def maxEntries : ℕ := 4096

/-- `FSQL_SESSION_IDLE_TTL_SECONDS`. -/
def idleTtlSeconds : ℤ := 6 * 3600

/-- `FSQL_SESSION_SWEEP_SCAN_LIMIT`. -/
def sweepScanLimit : ℕ := 8

/-- `struct fsql_session_entry`, without the links of the table and of the list. -/
structure Entry where
  sessionId : UInt64
  hasCtx : Bool := false
  refcount : ℕ := 0
  agentPartialFail : Bool := false
  diversifyEnabled : Bool := false
  busy : Bool := false
  shared : ℕ := 0
  lastUsed : ℤ
deriving DecidableEq

/-- The entries, from the head to the tail of the list of recent use. -/
abbrev Registry := List Entry

def Entry.unheld (e : Entry) : Bool := e.refcount = 0 ∧ e.busy = false

def findEntry (reg : Registry) (id : UInt64) : Option Entry := reg.find? fun e => e.sessionId = id

def modifyEntry (reg : Registry) (id : UInt64) (f : Entry → Entry) : Registry :=
  reg.map fun e => if e.sessionId = id then f e else e

def removeEntry (reg : Registry) (id : UInt64) : Registry := reg.eraseP fun e => e.sessionId = id

/-- `sweep_stale`: the last `limit` entries of the list, less those that are idle. -/
def sweepStale (reg : Registry) (limit : ℕ) (now : ℤ) : Registry :=
  reg.take (reg.length - limit) ++
    (reg.drop (reg.length - limit)).filter fun e => ¬ (e.unheld ∧ idleTtlSeconds ≤ now - e.lastUsed)

/-- `evict_one_lru`; `none` when every entry is held. -/
def evictOneLru (reg : Registry) : Option Registry :=
  if reg.any Entry.unheld then some (reg.reverse.eraseP Entry.unheld).reverse else none

/-- What the environment decides in a call of the registry. -/
structure CallEnv where
  now : ℤ
  callocOk : Bool
  ctxOk : Bool

/-- `find_or_create_entry_locked`: the entry in front of the others, held once more. -/
def findOrCreateEntry (reg : Registry) (id : UInt64) (env : CallEnv) : Registry × Option Entry :=
  match findEntry reg id with
  | some e =>
    let e := { e with refcount := e.refcount + 1, lastUsed := env.now }
    (e :: removeEntry reg id, some e)
  | none =>
    let create (reg : Registry) : Registry × Option Entry :=
      if env.callocOk then
        let e : Entry := { sessionId := id, refcount := 1, lastUsed := env.now }
        (e :: reg, some e)
      else (reg, none)
    if maxEntries ≤ reg.length then
      match evictOneLru reg with
      | some reg => create reg
      | none => (reg, none)
    else create reg

/-- The lazy creation of the context, or the hold given back. -/
def withCtx (reg : Registry) (e : Entry) (env : CallEnv) (hold : Entry → Entry) : Registry × Bool :=
  if e.hasCtx ∨ env.ctxOk then (modifyEntry reg e.sessionId fun e => hold { e with hasCtx := true }, true)
  else (modifyEntry reg e.sessionId fun e => { e with refcount := e.refcount - 1 }, false)

/-- `fractal_session_acquire`; the flag tells whether a context was handed out. -/
def sessionAcquire (reg : Registry) (id : UInt64) (env : CallEnv) : Registry × Bool :=
  let reg := sweepStale reg sweepScanLimit env.now
  if (findEntry reg id).any Entry.busy then (reg, false)
  else match findOrCreateEntry reg id env with
    | (reg, none) => (reg, false)
    | (reg, some e) => withCtx reg e env fun e => { e with shared := e.shared + 1 }

/-- `fractal_session_acquire_exclusive`. -/
def sessionAcquireExclusive (reg : Registry) (id : UInt64) (env : CallEnv) : Registry × Bool :=
  let reg := sweepStale reg sweepScanLimit env.now
  if (findEntry reg id).any fun e => e.busy ∨ 0 < e.shared then (reg, false)
  else match findOrCreateEntry reg id env with
    | (reg, none) => (reg, false)
    | (reg, some e) => withCtx reg e env fun e => { e with busy := true }

/-- `fractal_session_release`. -/
def sessionRelease (reg : Registry) (id : UInt64) : Registry :=
  modifyEntry reg id fun e => { e with shared := e.shared - 1, refcount := e.refcount - 1 }

/-- `fractal_session_release_exclusive`. -/
def sessionReleaseExclusive (reg : Registry) (id : UInt64) : Registry :=
  modifyEntry reg id fun e => { e with busy := false, refcount := e.refcount - 1 }

/-- A setter of one flag: the entry is made when it is missing, and not held. -/
def setFlag (reg : Registry) (id : UInt64) (env : CallEnv) (set : Entry → Entry) : Registry :=
  match findEntry reg id with
  | some _ => modifyEntry reg id set
  | none =>
    match findOrCreateEntry reg id env with
    | (reg, some _) => modifyEntry reg id fun e => set { e with refcount := e.refcount - 1 }
    | (reg, none) => reg

/-- `fractal_session_set_agent_partial`. -/
def setAgentPartial (reg : Registry) (id : UInt64) (on : Bool) (env : CallEnv) : Registry :=
  setFlag reg id env fun e => { e with agentPartialFail := on }

/-- `fractal_session_set_diversify_enabled`. -/
def setDiversifyEnabled (reg : Registry) (id : UInt64) (on : Bool) (env : CallEnv) : Registry :=
  setFlag reg id env fun e => { e with diversifyEnabled := on }

/-- `fractal_session_registry_close`: nothing happens while the entry is held. -/
def sessionRegistryClose (reg : Registry) (id : UInt64) : Registry :=
  if (findEntry reg id).any Entry.unheld then removeEntry reg id else reg

end FractalSQL.Session
