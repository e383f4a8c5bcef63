import FractalSQL.Lib.Machine
import FractalSQL.Lib.Text

/-!
# The client registry of the MCP server

`ClientRegistry` of the HTTP transport: protocol sessions, context handles and one
connection for each credential. Every creating call evicts idle entries, checks the cap,
calls the session factory outside the lock and inserts, each in a critical section of its
own.
-/
namespace FractalSQL.Mcp
open Lib

/-- `std::map<std::string, Entry>` without its order. -/
structure Entry where
  srv : ℕ
  ownerFp : Bytes
  lastUse : ℕ

abbrev Entries := List (Bytes × Entry)

def Entries.find (m : Entries) (k : Bytes) : Option Entry := (List.find? (fun p => p.1 = k) m).map Prod.snd

/-- `m[k] = e`. -/
def Entries.set (m : Entries) (k : Bytes) (e : Entry) : Entries := (k, e) :: List.filter (fun p => p.1 ≠ k) m

def Entries.erase (m : Entries) (k : Bytes) : Entries := List.filter (fun p => p.1 ≠ k) m

/-- The entry `k` has just been used. -/
def Entries.touch (m : Entries) (k : Bytes) (now : ℕ) : Entries :=
  List.map (fun p => if p.1 = k then (p.1, { p.2 with lastUse := now }) else p) m

/-- The fingerprint of a bearer token has 32 hexadecimal digits; the name is that of the
token's client. -/
structure Credential where
  ownerFp : Block 32
  clientName : Bytes
deriving DecidableEq

/-- `ownerFp + "|" + cred.clientName`. -/
def Credential.key (c : Credential) : Bytes := c.ownerFp.val ++ 124 :: c.clientName

structure Registry where
  sessions : Entries := []
  contexts : Entries := []
  creds : Entries := []

/-- `sizeLocked`. -/
def Registry.size (r : Registry) : ℕ := r.sessions.length + r.contexts.length + r.creds.length

def Registry.entries (r : Registry) : Entries := r.sessions ++ r.contexts ++ r.creds

/-- A positive number in the environment, else the default. -/
def envNumber (v : Option Bytes) (default : ℕ) : ℕ :=
  match v.bind (strtoInt (-2 ^ 63) (2 ^ 63 - 1)) with
  | some (n, _) => if 0 < n then n.toNat else default
  | none => default

/-- `FSQL_MCP_MAX_SESSIONS` and `FSQL_MCP_SESSION_TTL_SECS`. -/
structure Limits where
  maxSessionsVar : Option Bytes := none
  sessionTtlVar : Option Bytes := none

def Limits.maxSessions (l : Limits) : ℕ := envNumber l.maxSessionsVar 64
def Limits.sessionTtl (l : Limits) : ℕ := envNumber l.sessionTtlVar 3600

def Entries.evict (m : Entries) (now ttl : ℕ) : Entries := List.filter (fun p => ¬ ttl < now - p.2.lastUse) m

/-- `evictIdle`. -/
def Registry.evict (r : Registry) (now ttl : ℕ) : Registry where
  sessions := r.sessions.evict now ttl
  contexts := r.contexts.evict now ttl
  creds := r.creds.evict now ttl

/-- The creating calls: `createSession`, `createContext`, `credentialContext`. -/
inductive Kind where
  | session (owner : Bytes)
  | context (owner : Bytes)
  | credential (c : Credential)
deriving DecidableEq

def Kind.owner : Kind → Bytes
  | .session owner | .context owner => owner
  | .credential c => c.ownerFp.val

/-- What a creating call does next; once it has its server, the request runs on it. -/
inductive Pc where
  | lookup
  | evict
  | check
  | factory
  | insert
  | running (srv : ℕ)
  | done
deriving DecidableEq

structure Call where
  kind : Kind
  pc : Pc
deriving DecidableEq

/-- Past the cap check, with the insertion to come. -/
def Pc.creating : Pc → Bool
  | .factory | .insert => true
  | _ => false

/-- On the way to a server of its own. -/
def Pc.preparing : Pc → Bool
  | .evict | .check | .factory | .insert => true
  | _ => false

/-- Begun and not ended. -/
def Pc.inFlight : Pc → Bool
  | .lookup | .done => false
  | _ => true

structure State where
  registry : Registry := {}
  now : ℕ := 0
  calls : List Call := []
  nextServer : ℕ := 0

inductive Label where
  | tick
  | start (kind : Kind)
  /-- The next step of a call; `id` is the handle it mints, `ok` whether the factory
  succeeds. -/
  | advance (n : ℕ) (id : Bytes) (ok : Bool)
  | findSession (id owner : Bytes)
  | findContext (id owner : Bytes)
  | eraseSession (id owner : Bytes)
  | evictIdle
  | endAll

def State.moveTo (s : State) (n : ℕ) (c : Call) (pc : Pc) : State :=
  { s with calls := s.calls.set n { c with pc := pc } }

/-- The insertion of the server `srv`. -/
def Registry.insert (r : Registry) (kind : Kind) (id : Bytes) (srv now : ℕ) : Registry :=
  match kind with
  | .session owner => { r with sessions := r.sessions.set id ⟨srv, owner, now⟩ }
  | .context owner => { r with contexts := r.contexts.set id ⟨srv, owner, now⟩ }
  | .credential c => { r with creds := r.creds.set c.key ⟨srv, c.ownerFp.val, now⟩ }

/-- The entry a credential may use. -/
def Registry.hit (r : Registry) (c : Credential) : Option Entry :=
  (r.creds.find c.key).filter fun e => e.ownerFp = c.ownerFp.val

variable (limits : Limits)

def State.advance (s : State) (n : ℕ) (c : Call) (id : Bytes) (ok : Bool) : Option State :=
  match c.pc with
  | .lookup =>
    match c.kind with
    | .credential cred =>
      match s.registry.hit cred with
      | some e =>
        some ({ s with registry := { s.registry with creds := s.registry.creds.touch cred.key s.now } }.moveTo n c
          (.running e.srv))
      | none => some (s.moveTo n c .evict)
    | _ => none
  | .evict =>
    some ({ s with registry := s.registry.evict s.now limits.sessionTtl }.moveTo n c .check)
  | .check => some (s.moveTo n c (if limits.maxSessions ≤ s.registry.size then .done else .factory))
  | .factory => some (s.moveTo n c (if ok then .insert else .done))
  | .insert =>
    some ({ s with
      registry := s.registry.insert c.kind id s.nextServer s.now
      nextServer := s.nextServer + 1 }.moveTo n c (.running s.nextServer))
  | .running _ => some (s.moveTo n c .done)
  | .done => none

/-- Where a call begins. -/
def Kind.first : Kind → Pc
  | .credential _ => .lookup
  | _ => .evict

/-- `findSession` and `findContext`: the owner's use is recorded. -/
def Entries.use (m : Entries) (id owner : Bytes) (now : ℕ) : Entries :=
  match m.find id with
  | some e => if e.ownerFp = owner then m.touch id now else m
  | none => m

/-- The entry `id`, if it is `owner`'s. -/
def Entries.owned (m : Entries) (id owner : Bytes) : Option Entry := (m.find id).filter fun e => e.ownerFp = owner

def State.step (s : State) : Label → Option (State × List Empty)
  | .tick => some ({ s with now := s.now + 1 }, [])
  | .start kind => some ({ s with calls := s.calls ++ [⟨kind, kind.first⟩] }, [])
  | .advance n id ok => (s.calls[n]?).bind fun c => (s.advance limits n c id ok).map fun s' => (s', [])
  | .findSession id owner =>
    some ({ s with registry := { s.registry with sessions := s.registry.sessions.use id owner s.now } }, [])
  | .findContext id owner =>
    some ({ s with registry := { s.registry with contexts := s.registry.contexts.use id owner s.now } }, [])
  | .eraseSession id owner =>
    match s.registry.sessions.find id with
    | some e =>
      if e.ownerFp = owner then
        some ({ s with registry := { s.registry with sessions := s.registry.sessions.erase id } }, [])
      else some (s, [])
    | none => some (s, [])
  | .evictIdle => some ({ s with registry := s.registry.evict s.now limits.sessionTtl }, [])
  | .endAll => some ({ s with registry := {} }, [])

/-! ### The maps -/

theorem Entries.mem_of_find {m : Entries} {k : Bytes} {e : Entry} (h : m.find k = some e) : (k, e) ∈ m := by
  obtain ⟨p, hp, rfl⟩ := Option.map_eq_some_iff.mp h
  have hk : p.1 = k := by simpa using List.find?_some hp
  exact hk ▸ List.mem_of_find?_eq_some hp

theorem Entries.find_eq_none {m : Entries} {k : Bytes} (h : m.find k = none) : ∀ p ∈ m, p.1 ≠ k := by
  rw [Entries.find, Option.map_eq_none_iff, List.find?_eq_none] at h
  simpa using h

theorem Entries.length_set_le (m : Entries) (k : Bytes) (e : Entry) : (m.set k e).length ≤ m.length + 1 :=
  Nat.succ_le_succ (List.length_filter_le ..)

theorem Entries.mem_set {m : Entries} {k : Bytes} {e : Entry} {p : Bytes × Entry} (h : p ∈ m.set k e) :
    p = (k, e) ∨ p ∈ m ∧ p.1 ≠ k := by
  obtain h | h := List.mem_cons.mp h
  · exact .inl h
  · exact .inr (by simpa using List.mem_filter.mp h)

@[simp] theorem Entries.length_touch (m : Entries) (k : Bytes) (now : ℕ) : (m.touch k now).length = m.length :=
  List.length_map _

@[simp] theorem Entries.length_use (m : Entries) (id owner : Bytes) (now : ℕ) :
    (m.use id owner now).length = m.length := by
  unfold Entries.use
  split
  · split <;> simp
  · rfl

/-- A use changes neither keys nor servers nor owners. -/
theorem Entries.mem_touch {m : Entries} {k : Bytes} {now : ℕ} {p : Bytes × Entry} (h : p ∈ m.touch k now) :
    ∃ q ∈ m, q.1 = p.1 ∧ q.2.srv = p.2.srv ∧ q.2.ownerFp = p.2.ownerFp := by
  obtain ⟨q, hq, rfl⟩ := List.mem_map.mp h
  refine ⟨q, hq, ?_⟩
  split <;> exact ⟨rfl, rfl, rfl⟩

/-- The entries of `m'` are entries of `m` up to their last use. -/
def Entries.Within (m' m : Entries) : Prop :=
  ∀ p ∈ m', ∃ q ∈ m, q.1 = p.1 ∧ q.2.srv = p.2.srv ∧ q.2.ownerFp = p.2.ownerFp

theorem Entries.Within.refl (m : Entries) : m.Within m := fun p hp => ⟨p, hp, rfl, rfl, rfl⟩

theorem Entries.within_filter (f : Bytes × Entry → Bool) (m : Entries) : Entries.Within (List.filter f m) m :=
  fun p hp => ⟨p, (List.mem_filter.mp hp).1, rfl, rfl, rfl⟩

theorem Entries.Within.trans {m m' m'' : Entries} (h : m''.Within m') (h' : m'.Within m) : m''.Within m := by
  intro p hp
  obtain ⟨q, hq, hk, hs, ho⟩ := h p hp
  obtain ⟨o, ho', hk', hs', hfp⟩ := h' q hq
  exact ⟨o, ho', hk'.trans hk, hs'.trans hs, hfp.trans ho⟩

theorem Entries.Within.append {m₁ m₂ l₁ l₂ : Entries} (h₁ : m₁.Within l₁) (h₂ : m₂.Within l₂) :
    Entries.Within (m₁ ++ m₂) (l₁ ++ l₂) := by
  intro p hp
  rcases List.mem_append.mp hp with hp | hp
  · obtain ⟨q, hq, h⟩ := h₁ p hp
    exact ⟨q, List.mem_append_left _ hq, h⟩
  · obtain ⟨q, hq, h⟩ := h₂ p hp
    exact ⟨q, List.mem_append_right _ hq, h⟩

theorem Entries.within_touch (m : Entries) (k : Bytes) (now : ℕ) : (m.touch k now).Within m :=
  fun _ hp => Entries.mem_touch hp

end FractalSQL.Mcp
