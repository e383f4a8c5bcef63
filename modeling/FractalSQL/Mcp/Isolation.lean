import FractalSQL.Lib.Count
import FractalSQL.Mcp.HttpServe

/-!
# Clients are kept apart by their credential

The requests of all clients on one registry, each critical section a step of its own. An
entry carries the fingerprint of the token that created it, and a request is given only the
entries of its own.
-/
namespace FractalSQL.Mcp.Http
open Lib

/-- Where a request stands. -/
inductive Pc where
  | begun
  | evicting
  | checking
  | building
  | inserting
  /-- About to call `handleLine` of that server; a new session's handle is for the reply. -/
  | running (srv : ℕ) (session : Option Bytes)
  | done (a : Answer)

structure Thread where
  token : Bytes
  clientName : Bytes
  flow : Flow
  isRequest : Bool
  pc : Pc := .begun

structure State where
  registry : Registry := {}
  now : ℕ := 0
  threads : List Thread := []
  nextServer : ℕ := 0

inductive Event where
  /-- A request with that token has created a server. -/
  | created (srv : ℕ) (token : Bytes)
  /-- `handleLine` of that server for a request with that token. -/
  | handled (srv : ℕ) (token : Bytes)

inductive Label where
  | tick
  /-- A request whose token was accepted, for that client of the credential files. -/
  | arrive (token clientName : Bytes) (modernEraOnly : Bool) (req : HttpRequest) (text : Bytes)
  /-- The next step of a request: the handle it mints, whether the factory succeeds, what
  `handleLine` returns. -/
  | advance (n : ℕ) (id : Bytes) (factory : Bool) (reply : Option JsonValue)
  | evictIdle
  | endAll

/-- The reply to a request whose handle is not there for it. -/
def Flow.unknown : Flow → Answer
  | .findContext _ => unknownContext
  | _ => sendStatus 404

def Flow.isModern : Flow → Bool
  | .findContext _ | .createContext | .credential => true
  | _ => false

variable (p : Platform) (limits : Limits) (fp : Bytes → Block 32)

/-- `tokenFingerprint`. -/
def Thread.owner (th : Thread) : Bytes := (fp th.token).val

def Thread.kind (th : Thread) : Option Kind :=
  match th.flow with
  | .handleInitialize => some (.session (th.owner fp))
  | .createContext => some (.context (th.owner fp))
  | .credential => some (.credential ⟨fp th.token, th.clientName⟩)
  | _ => none

/-- The first critical section: what is found, touched or erased. -/
def Thread.lookup (th : Thread) (r : Registry) (now : ℕ) : Registry × Pc :=
  match th.flow with
  | .answered a => (r, .done a)
  | .delete id =>
    match r.sessions.owned id (th.owner fp) with
    | some _ => ({ r with sessions := r.sessions.erase id }, .done (sendStatus 200))
    | none => (r, .done th.flow.unknown)
  | .legacy id named =>
    match r.sessions.owned id (th.owner fp) with
    | some e => ({ r with sessions := r.sessions.touch id now },
        if named ≠ [] ∧ named ≠ id then .done contextMismatch else .running e.srv none)
    | none => (r, .done th.flow.unknown)
  | .findContext id =>
    match r.contexts.owned id (th.owner fp) with
    | some e => ({ r with contexts := r.contexts.touch id now }, .running e.srv none)
    | none => (r, .done th.flow.unknown)
  | .handleInitialize | .createContext => (r, .evicting)
  | .credential =>
    let cred : Credential := ⟨fp th.token, th.clientName⟩
    match r.hit cred with
    | some e => ({ r with creds := r.creds.touch cred.key now }, .running e.srv none)
    | none => (r, .evicting)

def State.moveTo (s : State) (n : ℕ) (th : Thread) (pc : Pc) : State :=
  { s with threads := s.threads.set n { th with pc := pc } }

def State.advance (s : State) (n : ℕ) (th : Thread) (id : Bytes) (factory : Bool) (reply : Option JsonValue) :
    Option (State × List Event) :=
  match th.pc with
  | .begun =>
    let found := th.lookup fp s.registry s.now
    some ({ s with registry := found.1 }.moveTo n th found.2, [])
  | .evicting => some ({ s with registry := s.registry.evict s.now limits.sessionTtl }.moveTo n th .checking, [])
  | .checking =>
    some (s.moveTo n th (if limits.maxSessions ≤ s.registry.size then .done (sendStatus 503) else .building), [])
  | .building => some (s.moveTo n th (if factory then .inserting else .done (sendStatus 503)), [])
  | .inserting =>
    (th.kind fp).map fun kind =>
      ({ s with
        registry := s.registry.insert kind id s.nextServer s.now
        nextServer := s.nextServer + 1 }.moveTo n th
          (.running s.nextServer (if th.flow.isModern then none else some id)), [.created s.nextServer th.token])
  | .running srv session =>
    some (s.moveTo n th (.done (handled (th.flow.isModern && th.isRequest) session reply)), [.handled srv th.token])
  | .done _ => none

def State.step (s : State) : Label → Option (State × List Event)
  | .tick => some ({ s with now := s.now + 1 }, [])
  | .arrive token clientName modernEraOnly req text =>
    some ({ s with threads := s.threads ++
      [⟨token, clientName, Http.flow p modernEraOnly req text, isRequest p text, .begun⟩] }, [])
  | .advance n id factory reply => (s.threads[n]?).bind fun th => s.advance limits fp n th id factory reply
  | .evictIdle => some ({ s with registry := s.registry.evict s.now limits.sessionTtl }, [])
  | .endAll => some ({ s with registry := {} }, [])

/-! ### The registry only loses entries, but for the insertions -/

/-- Nothing new, and no key twice among the sessions. -/
structure Shrinks (r' r : Registry) : Prop where
  within : r'.entries.Within r.entries
  keys : (r'.sessions.map Prod.fst).Sublist (r.sessions.map Prod.fst)

theorem Shrinks.of_maps {r r' : Registry} (hs : r'.sessions.Within r.sessions) (hc : r'.contexts.Within r.contexts)
    (hd : r'.creds.Within r.creds) (hk : (r'.sessions.map Prod.fst).Sublist (r.sessions.map Prod.fst)) : Shrinks r' r :=
  ⟨(hs.append hc).append hd, hk⟩

theorem Shrinks.refl (r : Registry) : Shrinks r r := ⟨.refl _, .refl _⟩

theorem shrinks_evict (r : Registry) (now ttl : ℕ) : Shrinks (r.evict now ttl) r :=
  .of_maps (Entries.within_filter _ _) (Entries.within_filter _ _) (Entries.within_filter _ _)
    (List.filter_sublist.map _)

theorem map_fst_touch (m : Entries) (k : Bytes) (now : ℕ) : List.map Prod.fst (m.touch k now) = List.map Prod.fst m := by
  rw [Entries.touch, List.map_map]
  apply List.map_congr_left
  intro p _
  simp only [Function.comp_apply]
  split <;> rfl

theorem shrinks_lookup (th : Thread) (r : Registry) (now : ℕ) : Shrinks (th.lookup fp r now).1 r := by
  unfold Thread.lookup
  split
  · exact .refl r
  · split
    · exact .of_maps (Entries.within_filter _ _) (.refl _) (.refl _) (List.filter_sublist.map _)
    · exact .refl r
  · split
    · refine .of_maps (Entries.within_touch _ _ _) (.refl _) (.refl _) ?_
      dsimp only
      rw [map_fst_touch]
    · exact .refl r
  · split
    · exact .of_maps (.refl _) (Entries.within_touch _ _ _) (.refl _) (.refl _)
    · exact .refl r
  · exact .refl r
  · exact .refl r
  · dsimp only
    split
    · exact .of_maps (.refl _) (.refl _) (Entries.within_touch _ _ _) (.refl _)
    · exact .refl r

theorem mem_of_owned {m : Entries} {id owner : Bytes} {e : Entry} (h : m.owned id owner = some e) :
    (id, e) ∈ m ∧ e.ownerFp = owner := by
  obtain ⟨hfind, hown⟩ := Option.filter_eq_some_iff.mp h
  exact ⟨Entries.mem_of_find hfind, of_decide_eq_true hown⟩

theorem mem_of_hit {r : Registry} {c : Credential} {e : Entry} (h : r.hit c = some e) :
    (c.key, e) ∈ r.creds ∧ e.ownerFp = c.ownerFp.val := by
  obtain ⟨hfind, hown⟩ := Option.filter_eq_some_iff.mp h
  exact ⟨Entries.mem_of_find hfind, of_decide_eq_true hown⟩

/-- A request is given a server of its own token's. -/
theorem lookup_running {th : Thread} {r : Registry} {now srv : ℕ} {session : Option Bytes}
    (h : (th.lookup fp r now).2 = .running srv session) :
    ∃ q ∈ r.entries, q.2.srv = srv ∧ q.2.ownerFp = th.owner fp := by
  unfold Thread.lookup at h
  split at h
  · cases h
  · split at h <;> cases h
  · split at h
    · rename_i e he
      dsimp only at h
      split_ifs at h
      cases h
      obtain ⟨hmem, hown⟩ := mem_of_owned he
      exact ⟨_, List.mem_append_left _ (List.mem_append_left _ hmem), rfl, hown⟩
    · cases h
  · split at h
    · rename_i e he
      cases h
      obtain ⟨hmem, hown⟩ := mem_of_owned he
      exact ⟨_, List.mem_append_left _ (List.mem_append_right _ hmem), rfl, hown⟩
    · cases h
  · cases h
  · cases h
  · dsimp only at h
    split at h
    · rename_i e he
      cases h
      obtain ⟨hmem, hown⟩ := mem_of_hit he
      exact ⟨_, List.mem_append_right _ hmem, rfl, hown⟩
    · cases h

theorem lookup_delete {th : Thread} {r : Registry} {now : ℕ} {id : Bytes} (h : th.flow = .delete id) :
    ∃ a, (th.lookup fp r now).2 = .done a := by
  simp only [Thread.lookup, h]
  split
  · exact ⟨_, rfl⟩
  · exact ⟨_, rfl⟩

/-- An insertion adds one entry, of the kind's owner. -/
theorem mem_insert {r : Registry} {kind : Kind} {id : Bytes} {srv now : ℕ} {q : Bytes × Entry}
    (h : q ∈ (r.insert kind id srv now).entries) :
    q.2.srv = srv ∧ q.2.ownerFp = kind.owner ∨ q ∈ r.entries := by
  simp only [Registry.entries, List.mem_append] at h ⊢
  cases kind with
  | session owner =>
    obtain (h | h) | h := h
    · obtain rfl | ⟨h, -⟩ := Entries.mem_set h
      · exact .inl ⟨rfl, rfl⟩
      · exact .inr (.inl (.inl h))
    · exact .inr (.inl (.inr h))
    · exact .inr (.inr h)
  | context owner =>
    obtain (h | h) | h := h
    · exact .inr (.inl (.inl h))
    · obtain rfl | ⟨h, -⟩ := Entries.mem_set h
      · exact .inl ⟨rfl, rfl⟩
      · exact .inr (.inl (.inr h))
    · exact .inr (.inr h)
  | credential c =>
    obtain (h | h) | h := h
    · exact .inr (.inl (.inl h))
    · exact .inr (.inl (.inr h))
    · obtain rfl | ⟨h, -⟩ := Entries.mem_set h
      · exact .inl ⟨rfl, rfl⟩
      · exact .inr (.inr h)

/-- A session that is inserted replaces the one of its key. -/
theorem keys_insert {r : Registry} (kind : Kind) (id : Bytes) (srv now : ℕ)
    (h : (r.sessions.map Prod.fst).Nodup) : ((r.insert kind id srv now).sessions.map Prod.fst).Nodup := by
  cases kind with
  | session owner =>
    refine List.nodup_cons.mpr ⟨?_, h.sublist (List.filter_sublist.map _)⟩
    intro hmem
    obtain ⟨q, hq, hk⟩ := List.mem_map.mp hmem
    simpa [hk] using (List.mem_filter.mp hq).2
  | _ => exact h

theorem kind_owner {th : Thread} {kind : Kind} (h : th.kind fp = some kind) : kind.owner = th.owner fp := by
  unfold Thread.kind at h
  split at h <;> cases h <;> rfl

/-! ### The owner of an entry is its creator -/

/-- A thread runs on a server of its token's; a DELETE makes one step. -/
structure Thread.Sound (tokens : Set Bytes) (th : Thread) (log : List Event) : Prop where
  known : th.token ∈ tokens
  running : ∀ srv session, th.pc = .running srv session → .created srv th.token ∈ log
  delete : ∀ id, th.flow = .delete id → th.pc = .begun ∨ ∃ a, th.pc = .done a

/-- The invariant, where the requests carry those tokens. -/
structure Owned (tokens : Set Bytes) (s : State) (log : List Event) : Prop where
  keys : (s.registry.sessions.map Prod.fst).Nodup
  entry : ∀ q ∈ s.registry.entries, ∃ token ∈ tokens, .created q.2.srv token ∈ log ∧ (fp token).val = q.2.ownerFp
  below : ∀ srv token, .created srv token ∈ log → srv < s.nextServer
  sole : ∀ srv token token', .created srv token ∈ log → .created srv token' ∈ log → token = token'
  threads : ∀ th ∈ s.threads, th.Sound tokens log
  handled : ∀ srv token, .handled srv token ∈ log → .created srv token ∈ log

variable {fp} {tokens : Set Bytes} {s : State} {log : List Event}

theorem Thread.Sound.append {th : Thread} (h : th.Sound tokens log) (es : List Event) : th.Sound tokens (log ++ es) :=
  ⟨h.known, fun srv session hpc => List.mem_append_left _ (h.running srv session hpc), h.delete⟩

/-- Neither begun nor done: the request is no DELETE. -/
theorem Thread.Sound.not_delete {th : Thread} (h : th.Sound tokens log) (hbegun : th.pc ≠ .begun) (hdone : ∀ a, th.pc ≠ .done a)
    (id : Bytes) : th.flow ≠ .delete id := by
  intro hflow
  obtain hpc | ⟨a, hpc⟩ := h.delete id hflow
  · exact hbegun hpc
  · exact hdone a hpc

theorem sound_done {th : Thread} (h : th.token ∈ tokens) (a : Answer) (log : List Event) :
    Thread.Sound tokens { th with pc := .done a } log :=
  ⟨h, nofun, fun _ _ => .inr ⟨a, rfl⟩⟩

theorem Owned.shrink {s' : State} (h : Owned fp tokens s log) (hreg : Shrinks s'.registry s.registry)
    (hnext : s'.nextServer = s.nextServer) (hthreads : ∀ th ∈ s'.threads, th.Sound tokens log) : Owned fp tokens s' log where
  keys := h.keys.sublist hreg.keys
  entry q hq := by
    obtain ⟨o, ho, -, hsrv, hown⟩ := hreg.within q hq
    obtain ⟨token, hknown, hcreated, hfp⟩ := h.entry o ho
    exact ⟨token, hknown, hsrv ▸ hcreated, hfp.trans hown⟩
  below := hnext ▸ h.below
  sole := h.sole
  threads := hthreads
  handled := h.handled

/-- A step of one thread that reports nothing. -/
theorem Owned.moveTo {r : Registry} {n : ℕ} {th : Thread} {pc : Pc} (h : Owned fp tokens s log)
    (hreg : Shrinks r s.registry) (hsound : Thread.Sound tokens { th with pc := pc } log) :
    Owned fp tokens ({ s with registry := r }.moveTo n th pc) log := by
  refine @Owned.shrink fp tokens s log ({ s with registry := r }.moveTo n th pc) h hreg rfl ?_
  intro th' hth'
  obtain hmem | rfl := mem_of_mem_set hth'
  · exact h.threads th' hmem
  · exact hsound

/-- A thread gets a new server. -/
theorem Owned.insert {n : ℕ} {th : Thread} {kind : Kind} {id : Bytes} {session : Option Bytes} (h : Owned fp tokens s log)
    (hth : th.token ∈ tokens) (hkind : th.kind fp = some kind) :
    Owned fp tokens ({ s with
        registry := s.registry.insert kind id s.nextServer s.now
        nextServer := s.nextServer + 1 }.moveTo n th (.running s.nextServer session))
      (log ++ [.created s.nextServer th.token]) where
  keys := keys_insert kind id _ _ h.keys
  entry q hq := by
    obtain ⟨hsrv, hown⟩ | hq := mem_insert hq
    · exact ⟨th.token, hth, by simp [hsrv], (kind_owner fp hkind ▸ hown).symm⟩
    · obtain ⟨token, hknown, hcreated, hfp⟩ := h.entry q hq
      exact ⟨token, hknown, List.mem_append_left _ hcreated, hfp⟩
  below srv token hcreated := by
    obtain hcreated | hnew := List.mem_append.mp hcreated
    · exact Nat.lt_succ_of_lt (h.below srv token hcreated)
    · cases List.mem_singleton.mp hnew
      exact Nat.lt_succ_self _
  sole srv token token' hcreated hcreated' := by
    -- the new server is none of those created before
    have hfresh (t : Bytes) : .created s.nextServer t ∉ log := fun hmem => absurd (h.below _ _ hmem) (Nat.lt_irrefl _)
    simp only [List.mem_append, List.mem_singleton, Event.created.injEq] at hcreated hcreated'
    obtain hold | ⟨rfl, rfl⟩ := hcreated <;> obtain hold' | ⟨hsrv, rfl⟩ := hcreated'
    · exact h.sole srv token token' hold hold'
    · exact absurd (hsrv ▸ hold) (hfresh _)
    · exact absurd hold' (hfresh _)
    · rfl
  threads th' hth' := by
    obtain hmem | rfl := mem_of_mem_set hth'
    · exact (h.threads th' hmem).append _
    · refine ⟨hth, fun srv session' hrun => ?_, fun id hflow => ?_⟩
      · cases hrun
        simp
      · simp [Thread.kind, show th.flow = .delete id from hflow] at hkind
  handled srv token hmem := by
    apply List.mem_append_left
    exact h.handled srv token (by simpa using hmem)

/-- A thread calls `handleLine` of the server it was given. -/
theorem Owned.handle {n : ℕ} {th : Thread} {srv : ℕ} {session : Option Bytes} {a : Answer} (h : Owned fp tokens s log)
    (hth : th ∈ s.threads) (hpc : th.pc = .running srv session) :
    Owned fp tokens (s.moveTo n th (.done a)) (log ++ [.handled srv th.token]) where
  keys := h.keys
  entry q hq := by
    obtain ⟨token, hknown, hcreated, hfp⟩ := h.entry q hq
    exact ⟨token, hknown, List.mem_append_left _ hcreated, hfp⟩
  below srv token hcreated := h.below srv token (by simpa using hcreated)
  sole srv token token' hcreated hcreated' := h.sole srv token token' (by simpa using hcreated) (by simpa using hcreated')
  threads th' hth' := by
    obtain hmem | rfl := mem_of_mem_set hth'
    · exact (h.threads th' hmem).append _
    · exact sound_done (h.threads th hth).known a _
  handled srv' token hmem := by
    apply List.mem_append_left
    obtain hold | hnew := List.mem_append.mp hmem
    · exact h.handled srv' token hold
    · cases List.mem_singleton.mp hnew
      exact (h.threads th hth).running srv session hpc

theorem Owned.advance {limits : Limits} {s' : State} {es : List Event} {n : ℕ} {th : Thread} {id : Bytes} {factory : Bool}
    {reply : Option JsonValue} (hfp : Set.InjOn fp tokens) (h : Owned fp tokens s log) (hn : s.threads[n]? = some th)
    (hstep : s.advance limits fp n th id factory reply = some (s', es)) : Owned fp tokens s' (log ++ es) := by
  have hth := List.mem_of_getElem? hn
  have hsound := h.threads th hth
  unfold State.advance at hstep
  cases hpc : th.pc with
  | begun =>
    simp only [hpc, Option.some.injEq, Prod.mk.injEq] at hstep
    obtain ⟨rfl, rfl⟩ := hstep
    rw [List.append_nil]
    refine h.moveTo (shrinks_lookup fp th _ _) ⟨hsound.known, fun srv session hrun => ?_, fun did hflow => ?_⟩
    · obtain ⟨q, hq, rfl, hown⟩ := lookup_running fp hrun
      obtain ⟨token, hknown, hcreated, htoken⟩ := h.entry q hq
      obtain rfl : token = th.token := hfp hknown hsound.known (Subtype.ext (htoken.trans hown))
      exact hcreated
    · exact .inr (lookup_delete fp hflow)
  | evicting =>
    simp only [hpc, Option.some.injEq, Prod.mk.injEq] at hstep
    obtain ⟨rfl, rfl⟩ := hstep
    rw [List.append_nil]
    refine h.moveTo (shrinks_evict _ _ _) ⟨hsound.known, nofun, fun did hflow => ?_⟩
    exact absurd hflow (hsound.not_delete (by simp [hpc]) (by simp [hpc]) did)
  | checking =>
    simp only [hpc, Option.some.injEq, Prod.mk.injEq] at hstep
    obtain ⟨rfl, rfl⟩ := hstep
    rw [List.append_nil]
    refine h.moveTo (.refl _) ⟨hsound.known, ?_, fun did hflow => ?_⟩
    · split <;> exact nofun
    · exact absurd hflow (hsound.not_delete (by simp [hpc]) (by simp [hpc]) did)
  | building =>
    simp only [hpc, Option.some.injEq, Prod.mk.injEq] at hstep
    obtain ⟨rfl, rfl⟩ := hstep
    rw [List.append_nil]
    refine h.moveTo (.refl _) ⟨hsound.known, ?_, fun did hflow => ?_⟩
    · split <;> exact nofun
    · exact absurd hflow (hsound.not_delete (by simp [hpc]) (by simp [hpc]) did)
  | inserting =>
    simp only [hpc, Option.map_eq_some_iff, Prod.mk.injEq] at hstep
    obtain ⟨kind, hkind, rfl, rfl⟩ := hstep
    exact h.insert hsound.known hkind
  | running srv session =>
    simp only [hpc, Option.some.injEq, Prod.mk.injEq] at hstep
    obtain ⟨rfl, rfl⟩ := hstep
    exact h.handle hth hpc
  | done a => simp [hpc] at hstep

/-- The token of an arriving request is one of those. -/
def Label.Carries (tokens : Set Bytes) : Label → Prop
  | .arrive token .. => token ∈ tokens
  | _ => True

theorem Owned.step {p : Platform} {limits : Limits} {s' : State} {es : List Event} {l : Label}
    (hfp : Set.InjOn fp tokens) (hl : l.Carries tokens) (h : Owned fp tokens s log) (hstep : s.step p limits fp l = some (s', es)) :
    Owned fp tokens s' (log ++ es) := by
  cases l with
  | tick =>
    cases hstep
    rw [List.append_nil]
    exact h.shrink (.refl _) rfl h.threads
  | arrive token clientName modernEraOnly req text =>
    cases hstep
    rw [List.append_nil]
    refine h.shrink (.refl s.registry) rfl fun th hth => ?_
    obtain hmem | hnew := List.mem_append.mp hth
    · exact h.threads th hmem
    · obtain rfl := List.mem_singleton.mp hnew
      exact ⟨hl, nofun, fun _ _ => .inl rfl⟩
  | advance n id factory reply =>
    obtain ⟨th, hn, hstep⟩ := Option.bind_eq_some_iff.mp hstep
    exact h.advance hfp hn hstep
  | evictIdle =>
    cases hstep
    rw [List.append_nil]
    exact h.shrink (shrinks_evict _ _ _) rfl h.threads
  | endAll =>
    cases hstep
    rw [List.append_nil]
    exact h.shrink ⟨nofun, List.nil_sublist _⟩ rfl h.threads

/-! ### Handles of other tokens -/

inductive Handle where
  | session (id : Bytes)
  | context (id : Bytes)

/-- The entry of a handle, whoever it belongs to. -/
def entryAt (r : Registry) : Handle → Option Entry
  | .session id => r.sessions.find id
  | .context id => r.contexts.find id

/-- The registry without a handle. -/
def without (r : Registry) : Handle → Registry
  | .session id => { r with sessions := r.sessions.erase id }
  | .context id => { r with contexts := r.contexts.erase id }

/-- The handle a request is looked up by. -/
def Flow.handle : Flow → Option Handle
  | .delete id | .legacy id _ => some (.session id)
  | .findContext id => some (.context id)
  | _ => none

/-- The request with another handle. -/
def Flow.naming (id : Bytes) : Flow → Flow
  | .delete _ => .delete id
  | .legacy _ named => .legacy id named
  | .findContext _ => .findContext id
  | f => f

theorem unknown_naming (f : Flow) (id : Bytes) : (f.naming id).unknown = f.unknown := by
  cases f <;> rfl

/-- The handle is not there, or another's. -/
def Foreign (r : Registry) (owner : Bytes) (h : Handle) : Prop := ∀ e, entryAt r h = some e → e.ownerFp ≠ owner

theorem owned_eq_none {m : Entries} {id owner : Bytes} (h : ∀ e, m.find id = some e → e.ownerFp ≠ owner) :
    m.owned id owner = none := by
  rw [Entries.owned, Option.filter_eq_none_iff]
  intro e he
  simpa using h e he

variable (fp) in
theorem lookup_foreign {th : Thread} {r : Registry} {h : Handle} (hh : th.flow.handle = some h)
    (hf : Foreign r (th.owner fp) h) (now : ℕ) : th.lookup fp r now = (r, .done th.flow.unknown) := by
  cases hflow : th.flow with
  | delete id =>
    cases hflow ▸ hh
    simp [Thread.lookup, hflow, owned_eq_none hf]
  | legacy id named =>
    cases hflow ▸ hh
    simp [Thread.lookup, hflow, owned_eq_none hf]
  | findContext id =>
    cases hflow ▸ hh
    simp [Thread.lookup, hflow, owned_eq_none hf]
  | _ => cases hflow ▸ hh

theorem find_erase (m : Entries) (k id : Bytes) : (m.erase k).find id = if id = k then none else m.find id := by
  rw [Entries.erase, Entries.find, List.find?_filter]
  split_ifs with hid
  · simp [hid]
  · rw [Entries.find]
    congr 2
    funext q
    by_cases hq : q.1 = id
    · simp [hq, hid]
    · simp [hq]

/-- Another's entry is as good as none. -/
theorem owned_erase {m : Entries} {k owner : Bytes} (h : ∀ e, m.find k = some e → e.ownerFp ≠ owner) (id : Bytes) :
    (m.erase k).owned id owner = m.owned id owner := by
  by_cases hid : id = k
  · subst hid
    rw [owned_eq_none h, Entries.owned, find_erase, if_pos rfl]
    rfl
  · rw [Entries.owned, Entries.owned, find_erase, if_neg hid]

theorem erase_comm (m : Entries) (k k' : Bytes) : (m.erase k).erase k' = (m.erase k').erase k := by
  simp only [Entries.erase, List.filter_filter]
  congr 1
  funext q
  exact Bool.and_comm _ _

theorem touch_erase (m : Entries) (k k' : Bytes) (now : ℕ) : Entries.touch (m.erase k) k' now = (m.touch k' now).erase k := by
  simp only [Entries.erase, Entries.touch, List.filter_map]
  congr 2
  funext q
  simp only [Function.comp_apply]
  split <;> rfl

variable (fp) in
/-- What a request finds does not depend on another's entry. -/
theorem lookup_without {th : Thread} {r : Registry} {h : Handle} (hf : Foreign r (th.owner fp) h) (now : ℕ) :
    th.lookup fp (without r h) now = (without (th.lookup fp r now).1 h, (th.lookup fp r now).2) := by
  cases h with
  | session k =>
    have hown := owned_erase hf
    cases hflow : th.flow with
    | delete id =>
      simp only [Thread.lookup, hflow, without, hown]
      cases r.sessions.owned id (th.owner fp) <;> simp [erase_comm]
    | legacy id named =>
      simp only [Thread.lookup, hflow, without, hown]
      cases r.sessions.owned id (th.owner fp) <;> simp [touch_erase]
    | findContext id =>
      simp only [Thread.lookup, hflow, without]
      cases r.contexts.owned id (th.owner fp) <;> rfl
    | credential =>
      simp only [Thread.lookup, hflow, without, Registry.hit]
      split <;> rfl
    | _ => simp only [Thread.lookup, hflow, without]
  | context k =>
    have hown := owned_erase hf
    cases hflow : th.flow with
    | delete id =>
      simp only [Thread.lookup, hflow, without]
      cases r.sessions.owned id (th.owner fp) <;> rfl
    | legacy id named =>
      simp only [Thread.lookup, hflow, without]
      cases r.sessions.owned id (th.owner fp) <;> rfl
    | findContext id =>
      simp only [Thread.lookup, hflow, without, hown]
      cases r.contexts.owned id (th.owner fp) <;> simp [touch_erase]
    | credential =>
      simp only [Thread.lookup, hflow, without, Registry.hit]
      split <;> rfl
    | _ => simp only [Thread.lookup, hflow, without]

/-! ### Over whole runs -/

/-- A request with that token created the server, and none with another. -/
def CreatedBy (log : List Event) (srv : ℕ) (token : Bytes) : Prop :=
  .created srv token ∈ log ∧ ∀ token', .created srv token' ∈ log → token' = token

/-- Every call runs on a server of the request's own token, a DELETE removes entries of its
own token only, and another's handle is answered as one that does not exist. -/
structure Isolated (p : Platform) (limits : Limits) (fp : Bytes → Block 32) (s : State) (log : List Event) : Prop where
  server : ∀ srv token, .handled srv token ∈ log → CreatedBy log srv token
  delete : ∀ n th id, s.threads[n]? = some th → th.flow = .delete id → ∀ minted factory reply s' es,
    s.step p limits fp (.advance n minted factory reply) = some (s', es) →
      ∀ q ∈ s.registry.entries, q ∉ s'.registry.entries → CreatedBy log q.2.srv th.token
  /-- The reply is that to any request of the kind, in any state, for a handle that is not
  there. -/
  unknown : ∀ n th h e token, s.threads[n]? = some th → th.pc = .begun → th.flow.handle = some h →
    entryAt s.registry h = some e → CreatedBy log e.srv token → token ≠ th.token → ∀ minted factory reply,
      s.step p limits fp (.advance n minted factory reply) = some (s.moveTo n th (.done th.flow.unknown), []) ∧
      ∀ (r : State) m th' id h', r.threads[m]? = some th' → th'.pc = .begun → th'.flow = th.flow.naming id →
        th'.flow.handle = some h' → entryAt r.registry h' = none →
          r.step p limits fp (.advance m minted factory reply) = some (r.moveTo m th' (.done th.flow.unknown), [])
  /-- Nor does anything else a request finds depend on another's entry. -/
  invisible : ∀ n th h e token, s.threads[n]? = some th → th.pc = .begun →
    entryAt s.registry h = some e → CreatedBy log e.srv token → token ≠ th.token → ∀ minted factory reply,
      ∃ r pc, s.step p limits fp (.advance n minted factory reply) = some ({ s with registry := r }.moveTo n th pc, []) ∧
        { s with registry := without s.registry h }.step p limits fp (.advance n minted factory reply) =
          some ({ s with registry := without r h }.moveTo n th pc, [])

theorem Owned.createdBy {srv : ℕ} {token : Bytes} (h : Owned fp tokens s log) (hmem : .created srv token ∈ log) :
    CreatedBy log srv token :=
  ⟨hmem, fun _ hmem' => h.sole srv _ _ hmem' hmem⟩

theorem step_begun {p : Platform} {limits : Limits} {n : ℕ} {th : Thread} (hn : s.threads[n]? = some th)
    (hpc : th.pc = .begun) (minted : Bytes) (factory : Bool) (reply : Option JsonValue) :
    s.step p limits fp (.advance n minted factory reply) =
      some ({ s with registry := (th.lookup fp s.registry s.now).1 }.moveTo n th (th.lookup fp s.registry s.now).2, []) := by
  simp [State.step, hn, State.advance, hpc]

theorem mem_of_entryAt {r : Registry} {h : Handle} {e : Entry} (he : entryAt r h = some e) :
    ∃ k, (k, e) ∈ r.entries := by
  cases h with
  | session id => exact ⟨id, List.mem_append_left _ (List.mem_append_left _ (Entries.mem_of_find he))⟩
  | context id => exact ⟨id, List.mem_append_left _ (List.mem_append_right _ (Entries.mem_of_find he))⟩

/-- An entry of another token's has another fingerprint. -/
theorem Owned.foreign {th : Thread} {h : Handle} {e : Entry} {token : Bytes} (hfp : Set.InjOn fp tokens)
    (ho : Owned fp tokens s log) (hth : th ∈ s.threads) (he : entryAt s.registry h = some e) (hcreated : CreatedBy log e.srv token)
    (hne : token ≠ th.token) : Foreign s.registry (th.owner fp) h := by
  intro e' he' hown
  obtain rfl : e = e' := Option.some.inj (he.symm.trans he')
  obtain ⟨k, hmem⟩ := mem_of_entryAt he
  obtain ⟨token', hknown, hmem', hfp'⟩ := ho.entry _ hmem
  obtain rfl : token' = th.token := hfp hknown (ho.threads th hth).known (Subtype.ext (hfp'.trans hown))
  exact hne (hcreated.2 _ hmem').symm

/-- What a DELETE removes is the one session of that key. -/
theorem Owned.erased {q : Bytes × Entry} {id owner : Bytes} {e : Entry} (h : Owned fp tokens s log)
    (he : s.registry.sessions.owned id owner = some e) (hq : q ∈ s.registry.entries)
    (hgone : q ∉ Registry.entries { s.registry with sessions := s.registry.sessions.erase id }) : q = (id, e) := by
  simp only [Registry.entries, List.mem_append, not_or] at hq hgone
  obtain ⟨⟨hgone, hcontexts⟩, hcreds⟩ := hgone
  obtain (hmem | hmem) | hmem := hq
  · have hk : q.1 = id := by
      by_contra hne
      exact hgone (List.mem_filter.mpr ⟨hmem, by simpa using hne⟩)
    exact List.inj_on_of_nodup_map h.keys hmem (mem_of_owned he).1 hk
  · exact absurd hmem hcontexts
  · exact absurd hmem hcreds

theorem Owned.isolated {p : Platform} {limits : Limits} (hfp : Set.InjOn fp tokens) (h : Owned fp tokens s log) :
    Isolated p limits fp s log where
  server srv token hhandled := h.createdBy (h.handled srv token hhandled)
  delete n th id hn hflow minted factory reply s' es hstep q hq hgone := by
    obtain hpc | ⟨a, hpc⟩ := (h.threads th (List.mem_of_getElem? hn)).delete id hflow
    · rw [step_begun hn hpc] at hstep
      cases hstep
      simp only [State.moveTo, Thread.lookup, hflow] at hgone
      cases howned : s.registry.sessions.owned id (th.owner fp) with
      | none =>
        rw [howned] at hgone
        exact absurd hq hgone
      | some e =>
        rw [howned] at hgone
        obtain ⟨token, hknown, hcreated, htoken⟩ := h.entry q hq
        obtain rfl := h.erased howned hq hgone
        have hth := (h.threads th (List.mem_of_getElem? hn)).known
        obtain rfl : token = th.token := hfp hknown hth (Subtype.ext (htoken.trans (mem_of_owned howned).2))
        exact h.createdBy hcreated
    · simp [State.step, hn, State.advance, hpc] at hstep
  unknown n th h' e token hn hpc hhandle he hcreated hne minted factory reply := by
    constructor
    · rw [step_begun hn hpc, lookup_foreign fp hhandle (h.foreign hfp (List.mem_of_getElem? hn) he hcreated hne)]
    · intro r m th' id h'' hm hpc' hflow hhandle' hnone
      have hf : Foreign r.registry (th'.owner fp) h'' := by
        intro e' he'
        cases hnone.symm.trans he'
      rw [step_begun hm hpc', lookup_foreign fp hhandle' hf, hflow, unknown_naming]
  invisible n th h' e token hn hpc he hcreated hne minted factory reply := by
    refine ⟨_, _, step_begun hn hpc minted factory reply, ?_⟩
    have hn' : ({ s with registry := without s.registry h' } : State).threads[n]? = some th := hn
    rw [step_begun hn' hpc, lookup_without fp (h.foreign hfp (List.mem_of_getElem? hn) he hcreated hne)]

theorem owned_start (fp : Bytes → Block 32) (tokens : Set Bytes) : Owned fp tokens {} [] where
  keys := List.nodup_nil
  entry := nofun
  below := nofun
  sole := nofun
  threads := fun _ h => nomatch h
  handled := nofun

/-- The tokens that the requests of a run carry. -/
def tokensOf (as : List Label) : Set Bytes :=
  {token | ∃ clientName modernEraOnly req text, .arrive token clientName modernEraOnly req text ∈ as}

theorem carries_tokensOf {as : List Label} {l : Label} (h : l ∈ as) : l.Carries (tokensOf as) := by
  cases l with
  | arrive token clientName modernEraOnly req text => exact ⟨clientName, modernEraOnly, req, text, h⟩
  | _ => trivial

/-- With a fingerprint that tells the tokens of a run apart, whatever its requests ask for
and however they interleave, the clients stay apart. -/
theorem clients_isolated {p : Platform} {limits : Limits} {as : List Label} {c : Config State Event}
    (hfp : Set.InjOn fp (tokensOf as)) (hrun : exec (State.step p limits fp) ⟨{}, []⟩ as = some c) :
    Isolated p limits fp c.state c.log := by
  have howned := exec_invariant_of (P := fun _ _ l => l.Carries (tokensOf as)) (I := Owned fp (tokensOf as))
    (fun h hl hs => h.step hfp hl hs) (.of_forall (fun l hl _ _ => carries_tokensOf hl) _) (owned_start fp _) hrun
  exact howned.isolated hfp

def initializeText : Bytes :=
  (["\x7b\"jsonrpc\":\"2.0\",", "\"id\":1,", "\"method\":\"initialize\"\x7d"].map ascii).flatten

def initializePlatform : Platform :=
  .oneDocument initializeText
    (.obj [("id", .int 1), ("jsonrpc", .text "2.0"), ("method", .text "initialize")]) (by decide +kernel)

/-- The fingerprints of two tokens. -/
def twoFingerprints (token : Bytes) : Block 32 :=
  if token = ascii "alpha" then ⟨ascii "8ed3f6ad685b959ead7022518e1af76c", by decide +kernel⟩
  else ⟨ascii "f44e64e75f3948e9f73f8dfa94721c4c", by decide +kernel⟩

/-- One client opens a session, and another tries to delete it. -/
def foreignDelete : List Label :=
  Label.arrive (ascii "alpha") (ascii "one") false { method := ascii "POST" } initializeText ::
    List.replicate 6 (Label.advance 0 (ascii "cafe") true none) ++
    [Label.arrive (ascii "beta") (ascii "two") false { method := ascii "DELETE", sessionId := ascii "cafe" } [],
      .advance 1 [] true none]

theorem foreignDelete_tokens : tokensOf foreignDelete ⊆ {ascii "alpha", ascii "beta"} := by
  rintro token ⟨clientName, modernEraOnly, req, text, hmem⟩
  simp only [foreignDelete, List.cons_append, List.mem_cons, List.mem_append, List.mem_replicate, List.not_mem_nil,
    Label.arrive.injEq, reduceCtorEq, and_false, or_false, false_or] at hmem
  obtain ⟨rfl, -⟩ | ⟨rfl, -⟩ := hmem
  · exact .inl rfl
  · exact .inr rfl

theorem foreignDelete_isolated :
    ∃ c, exec (State.step initializePlatform {} twoFingerprints) ⟨{}, []⟩ foreignDelete = some c ∧
      c.state.registry.sessions.length = 1 ∧ Isolated initializePlatform {} twoFingerprints c.state c.log := by
  have hsome : (exec (State.step initializePlatform {} twoFingerprints) ⟨{}, []⟩ foreignDelete).any
      (fun c => c.state.registry.sessions.length = 1) = true := by
    decide +kernel
  have hne : twoFingerprints (ascii "alpha") ≠ twoFingerprints (ascii "beta") := by decide +kernel
  obtain ⟨c, hrun, hlen⟩ := (Option.any_eq_true _ _).mp hsome
  refine ⟨c, hrun, of_decide_eq_true hlen, clients_isolated (Set.InjOn.mono foreignDelete_tokens ?_) hrun⟩
  exact Set.injOn_pair.mpr fun heq => absurd heq hne

end FractalSQL.Mcp.Http
