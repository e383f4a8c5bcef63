import FractalSQL.Mcp.ClientRegistry

/-!
# The cap and the credential's connection over whole runs

The cap check does not count the creations that are past their own check, and a lookup
that misses does not see that another call of the credential is already making a server
or still running on an evicted one. Where neither happens, the registry stays within its
cap and each credential runs on one server.
-/
namespace FractalSQL.Mcp
open Lib

/-- The stateless requests of one credential that are running share their server. -/
def State.OneServer (s : State) : Prop :=
  ∀ cred srv srv', ⟨.credential cred, .running srv⟩ ∈ s.calls → ⟨.credential cred, .running srv'⟩ ∈ s.calls →
    srv = srv'

/-- The number of creations past their cap check. -/
def State.creating (s : State) : ℕ := s.calls.countP fun c => c.pc.creating

/-- A cap check that passes leaves room for the creations past theirs and for one more. -/
def CountsCreating (limits : Limits) (s : State) : Label → Bool
  | .advance n _ _ => (s.calls[n]?).all fun c =>
    c.pc ≠ .check || limits.maxSessions ≤ s.registry.size ||
      s.registry.size + s.creating < limits.maxSessions
  | _ => true

/-- A credential's lookup misses only while no other request of it is in flight. -/
def MissesAlone (s : State) : Label → Bool
  | .advance n _ _ => (s.calls[n]?).all fun c =>
    match c.pc, c.kind with
    | .lookup, .credential cred =>
      (s.registry.hit cred).isSome || s.calls.all fun d => d.kind ≠ .credential cred || !d.pc.inFlight
    | _, _ => true
  | _ => true

theorem Credential.key_inj {c c' : Credential} (h : c.key = c'.key) : c = c' := by
  obtain ⟨hfp, hname⟩ := List.append_inj h (by rw [c.ownerFp.property, c'.ownerFp.property])
  cases c
  cases c'
  simp only [Credential.mk.injEq]
  exact ⟨Subtype.ext hfp, (List.cons.inj hname).2⟩

/-! ### The cap -/

/-- The entries and the creations past their check fit under the cap. -/
def Bounded (limits : Limits) (s : State) : Prop :=
  s.registry.size + s.creating ≤ limits.maxSessions

theorem Registry.size_evict_le (r : Registry) (now ttl : ℕ) : (r.evict now ttl).size ≤ r.size := by
  have h := fun m : Entries => List.length_filter_le (fun p => ¬ ttl < now - p.2.lastUse) m
  exact Nat.add_le_add (Nat.add_le_add (h _) (h _)) (h _)

theorem Registry.size_insert_le (r : Registry) (kind : Kind) (id : Bytes) (srv now : ℕ) :
    (r.insert kind id srv now).size ≤ r.size + 1 := by
  cases kind with
  | session owner =>
    have h := Entries.length_set_le r.sessions id ⟨srv, owner, now⟩
    simp only [Registry.insert, Registry.size]
    omega
  | context owner =>
    have h := Entries.length_set_le r.contexts id ⟨srv, owner, now⟩
    simp only [Registry.insert, Registry.size]
    omega
  | credential c =>
    have h := Entries.length_set_le r.creds c.key ⟨srv, c.ownerFp.val, now⟩
    simp only [Registry.insert, Registry.size]
    omega

/-- How a move of one call changes the number of creations. -/
theorem creating_moveTo {s : State} {n : ℕ} {c : Call} {pc₀ : Pc} (hc : s.calls[n]? = some c) (hpc : c.pc = pc₀)
    (pc : Pc) : (s.moveTo n c pc).creating + pc₀.creating.toNat = s.creating + pc.creating.toNat := by
  obtain ⟨hn, hget⟩ := List.getElem?_eq_some_iff.mp hc
  have hpos : pc₀.creating = true → 0 < s.creating := fun h =>
    List.countP_pos_iff.mpr ⟨c, hget ▸ List.getElem_mem hn, by rw [hpc]; exact h⟩
  rw [State.creating, State.moveTo, List.countP_set hn, hget, hpc]
  change s.creating - _ + _ + _ = _
  cases h : pc₀.creating with
  | false => cases pc.creating <;> simp
  | true =>
    have := hpos h
    cases pc.creating <;> simp <;> omega

/-- A step that moves its call on and lets the registry grow by at most what the number
of creations leaves. -/
theorem Bounded.of_moveTo {limits : Limits} {s : State} {n : ℕ} {c : Call} {pc₀ pc : Pc} {r : Registry} {srv : ℕ}
    (h : Bounded limits s) (hc : s.calls[n]? = some c) (hpc : c.pc = pc₀)
    (hsize : r.size + pc.creating.toNat ≤ s.registry.size + pc₀.creating.toNat) :
    Bounded limits ({ s with registry := r, nextServer := srv }.moveTo n c pc) := by
  have hmove := creating_moveTo hc hpc pc
  have hsame : ({ s with registry := r, nextServer := srv }.moveTo n c pc).creating =
      (s.moveTo n c pc).creating := rfl
  unfold Bounded at *
  rw [hsame]
  change r.size + _ ≤ _
  omega

theorem Bounded.advance {limits : Limits} {s s' : State} {n : ℕ} {c : Call} {id : Bytes} {ok : Bool}
    (h : Bounded limits s) (hc : s.calls[n]? = some c) (hroom : CountsCreating limits s (.advance n id ok) = true)
    (hstep : s.advance limits n c id ok = some s') : Bounded limits s' := by
  cases hpc : c.pc with
  | lookup =>
    cases hkind : c.kind with
    | session | context => simp [State.advance, hpc, hkind] at hstep
    | credential cred =>
      cases hhit : s.registry.hit cred with
      | none =>
        simp only [State.advance, hpc, hkind, hhit] at hstep
        cases hstep
        exact h.of_moveTo hc hpc (Nat.le_refl _)
      | some e =>
        simp only [State.advance, hpc, hkind, hhit] at hstep
        cases hstep
        exact h.of_moveTo hc hpc (by simp [Registry.size, Pc.creating])
  | evict =>
    simp only [State.advance, hpc] at hstep
    cases hstep
    exact h.of_moveTo hc hpc (s.registry.size_evict_le s.now limits.sessionTtl)
  | check =>
    simp only [State.advance, hpc] at hstep
    cases hstep
    by_cases hfull : limits.maxSessions ≤ s.registry.size
    · rw [if_pos hfull]
      exact h.of_moveTo hc hpc (Nat.le_refl _)
    · have hroom' : limits.maxSessions ≤ s.registry.size ∨
          s.registry.size + s.creating < limits.maxSessions := by
        simpa [CountsCreating, hc, hpc] using hroom
      have hmove : (s.moveTo n c .factory).creating + 0 = s.creating + 1 := creating_moveTo hc hpc .factory
      rw [if_neg hfull]
      unfold Bounded
      change s.registry.size + _ ≤ _
      omega
  | factory =>
    simp only [State.advance, hpc] at hstep
    cases hstep
    cases ok with
    | false => exact h.of_moveTo hc hpc (Nat.le_succ _)
    | true => exact h.of_moveTo hc hpc (Nat.le_refl _)
  | insert =>
    simp only [State.advance, hpc] at hstep
    cases hstep
    exact h.of_moveTo hc hpc (s.registry.size_insert_le c.kind id s.nextServer s.now)
  | running srv =>
    simp only [State.advance, hpc] at hstep
    cases hstep
    exact h.of_moveTo hc hpc (Nat.le_refl _)
  | done => simp [State.advance, hpc] at hstep

theorem Bounded.of_registry {limits : Limits} {s : State} {r : Registry} (h : Bounded limits s)
    (hsize : r.size ≤ s.registry.size) : Bounded limits { s with registry := r } :=
  Nat.le_trans (Nat.add_le_add_right hsize _) h

theorem Bounded.step {limits : Limits} {s s' : State} {a : Label} {es : List Empty} (h : Bounded limits s)
    (hroom : CountsCreating limits s a = true) (hstep : s.step limits a = some (s', es)) : Bounded limits s' := by
  cases a with
  | tick =>
    cases hstep
    exact h
  | start kind =>
    cases hstep
    have hcount : State.creating { s with calls := s.calls ++ [⟨kind, kind.first⟩] } = s.creating := by
      cases kind <;> simp [State.creating, Kind.first, Pc.creating]
    unfold Bounded
    rw [hcount]
    exact h
  | advance n id ok =>
    obtain ⟨c, hc, hmap⟩ := Option.bind_eq_some_iff.mp hstep
    obtain ⟨s'', hadv, heq⟩ := Option.map_eq_some_iff.mp hmap
    cases heq
    exact h.advance hc hroom hadv
  | findSession id owner | findContext id owner =>
    cases hstep
    exact h.of_registry (by simp [Registry.size])
  | eraseSession id owner =>
    rw [State.step] at hstep
    split at hstep
    · split at hstep
      · cases hstep
        exact h.of_registry (Nat.add_le_add_right (Nat.add_le_add_right (List.length_filter_le ..) _) _)
      · cases hstep
        exact h
    · cases hstep
      exact h
  | evictIdle =>
    cases hstep
    exact h.of_registry (s.registry.size_evict_le s.now limits.sessionTtl)
  | endAll =>
    cases hstep
    exact h.of_registry (Nat.zero_le _)

/-! ### One server for a credential -/

/-- The call `m` is a stateless request of the credential. -/
def State.credAt (s : State) (m : ℕ) (cred : Credential) (pc : Pc) : Prop :=
  s.calls[m]? = some ⟨.credential cred, pc⟩

/-- A credential that is making a server is alone and has no entry, and the entry of one
that is running is the server it runs on. -/
structure OneCredential (s : State) : Prop where
  owner : ∀ cred : Credential, ∀ p ∈ s.registry.creds, p.1 = cred.key → p.2.ownerFp = cred.ownerFp.val
  unique : ∀ p ∈ s.registry.creds, ∀ q ∈ s.registry.creds, p.1 = q.1 → p.2.srv = q.2.srv
  alone : ∀ m n cred pc pc', s.credAt m cred pc → s.credAt n cred pc' → pc.preparing = true →
    pc'.inFlight = true → m = n
  absent : ∀ m cred pc, s.credAt m cred pc → pc.preparing = true → ∀ p ∈ s.registry.creds, p.1 ≠ cred.key
  entry : ∀ m cred srv, s.credAt m cred (.running srv) → ∀ p ∈ s.registry.creds, p.1 = cred.key → p.2.srv = srv
  same : ∀ m n cred srv srv', s.credAt m cred (.running srv) → s.credAt n cred (.running srv') → srv = srv'

theorem Pc.inFlight_of_preparing {pc : Pc} (h : pc.preparing = true) : pc.inFlight = true := by
  cases pc <;> first | rfl | cases h

theorem credAt_moveTo {s : State} {n : ℕ} {c : Call} (hc : s.calls[n]? = some c) {pc pc' : Pc} {m : ℕ}
    {cred : Credential} : (s.moveTo n c pc).credAt m cred pc' ↔
      m = n ∧ c.kind = .credential cred ∧ pc = pc' ∨ m ≠ n ∧ s.credAt m cred pc' := by
  obtain ⟨hn, -⟩ := List.getElem?_eq_some_iff.mp hc
  rw [State.credAt, State.moveTo, List.getElem?_set]
  by_cases hmn : n = m
  · subst hmn
    simp [hn]
  · simp [hmn, Ne.symm hmn, State.credAt]

/-- A step that moves no call and adds no entry. -/
theorem OneCredential.shrink {s s' : State} (h : OneCredential s) (hcalls : s'.calls = s.calls)
    (hr : s'.registry.creds.Within s.registry.creds) : OneCredential s' := by
  have hat : ∀ {m cred pc}, s'.credAt m cred pc → s.credAt m cred pc := fun hm => by
    rwa [State.credAt, hcalls] at hm
  refine ⟨fun cred p hp hk => ?_, fun p hp q hq hpq => ?_,
    fun m n cred p p' hm hn => h.alone m n cred p p' (hat hm) (hat hn), fun m cred pc hm hpc p hp hk => ?_,
    fun m cred srv hm p hp hk => ?_, fun m n cred srv srv' hm hn => h.same m n cred srv srv' (hat hm) (hat hn)⟩
  · obtain ⟨p₀, hp₀, hk₀, -, ho⟩ := hr p hp
    exact ho ▸ h.owner cred p₀ hp₀ (hk₀.trans hk)
  · obtain ⟨p₀, hp₀, hk₀, hs₀, -⟩ := hr p hp
    obtain ⟨q₀, hq₀, hk₁, hs₁, -⟩ := hr q hq
    rw [← hs₀, ← hs₁]
    exact h.unique p₀ hp₀ q₀ hq₀ (hk₀.trans (hpq.trans hk₁.symm))
  · obtain ⟨p₀, hp₀, hk₀, -⟩ := hr p hp
    exact h.absent m cred pc (hat hm) hpc p₀ hp₀ (hk₀.trans hk)
  · obtain ⟨p₀, hp₀, hk₀, hs₀, -⟩ := hr p hp
    exact hs₀ ▸ h.entry m cred srv (hat hm) p₀ hp₀ (hk₀.trans hk)

/-- A move within the preparation, or to the end. -/
theorem OneCredential.quiet {s : State} {n : ℕ} {c : Call} {pc₀ pc : Pc} (h : OneCredential s)
    (hc : s.calls[n]? = some c) (hpc : c.pc = pc₀) (hprep : pc.preparing = true → pc₀.preparing = true)
    (hend : pc.preparing = true ∨ pc = .done) : OneCredential (s.moveTo n c pc) := by
  have hat : ∀ cred, c.kind = .credential cred → s.credAt n cred pc₀ := fun cred hkind => by
    rw [State.credAt, hc, ← hkind, ← hpc]
  have hrun : ∀ srv, pc ≠ .running srv := by
    rintro srv rfl
    obtain h | h := hend <;> cases h
  refine ⟨h.owner, h.unique, fun m m' cred p p' hm hm' hp hp' => ?_, fun m cred p hm hp => ?_,
    fun m cred srv hm => ?_, fun m m' cred srv srv' hm hm' => ?_⟩
  · rw [credAt_moveTo hc] at hm hm'
    obtain ⟨rfl, hkind, rfl⟩ | ⟨hmn, hm⟩ := hm
    · obtain ⟨rfl, -⟩ | ⟨-, hm'⟩ := hm'
      · rfl
      · exact h.alone m m' cred pc₀ p' (hat cred hkind) hm' (hprep hp) hp'
    · obtain ⟨rfl, hkind, rfl⟩ | ⟨-, hm'⟩ := hm'
      · have hp₀ : pc.preparing = true := by
          obtain hend | rfl := hend
          · exact hend
          · cases hp'
        exact h.alone m m' cred p pc₀ hm (hat cred hkind) hp (Pc.inFlight_of_preparing (hprep hp₀))
      · exact h.alone m m' cred p p' hm hm' hp hp'
  · obtain ⟨rfl, hkind, rfl⟩ | ⟨-, hm⟩ := (credAt_moveTo hc).mp hm
    · exact h.absent m cred pc₀ (hat cred hkind) (hprep hp)
    · exact h.absent m cred p hm hp
  · obtain ⟨-, -, heq⟩ | ⟨-, hm⟩ := (credAt_moveTo hc).mp hm
    · exact absurd heq (hrun srv)
    · exact h.entry m cred srv hm
  · obtain ⟨-, -, heq⟩ | ⟨-, hm⟩ := (credAt_moveTo hc).mp hm
    · exact absurd heq (hrun srv)
    · obtain ⟨-, -, heq⟩ | ⟨-, hm'⟩ := (credAt_moveTo hc).mp hm'
      · exact absurd heq (hrun srv')
      · exact h.same m m' cred srv srv' hm hm'

/-- A lookup that misses, with no other request of the credential in flight. -/
theorem OneCredential.miss {s : State} {n : ℕ} {c : Call} {cred : Credential} (h : OneCredential s)
    (hc : s.calls[n]? = some c) (hkind : c.kind = .credential cred) (hhit : s.registry.hit cred = none)
    (halone : ∀ m pc, s.credAt m cred pc → pc.inFlight = false) : OneCredential (s.moveTo n c .evict) := by
  have hnone : ∀ p ∈ s.registry.creds, p.1 ≠ cred.key := by
    refine Entries.find_eq_none ?_
    cases hfind : s.registry.creds.find cred.key with
    | none => rfl
    | some e =>
      have howner : e.ownerFp = cred.ownerFp.val := h.owner cred _ (Entries.mem_of_find hfind) rfl
      simp [Registry.hit, hfind, howner] at hhit
  have hcred : ∀ cred', c.kind = .credential cred' → cred' = cred := fun cred' hk =>
    (Kind.credential.inj (hkind.symm.trans hk)).symm
  refine ⟨h.owner, h.unique, fun m m' cred' p p' hm hm' hp hp' => ?_, fun m cred' p hm hp => ?_,
    fun m cred' srv hm => ?_, fun m m' cred' srv srv' hm hm' => ?_⟩
  · obtain ⟨rfl, hk, rfl⟩ | ⟨-, hm⟩ := (credAt_moveTo hc).mp hm
    · obtain ⟨rfl, -⟩ | ⟨-, hm'⟩ := (credAt_moveTo hc).mp hm'
      · rfl
      · rw [halone m' p' (hcred cred' hk ▸ hm')] at hp'
        cases hp'
    · obtain ⟨-, hk, -⟩ | ⟨-, hm'⟩ := (credAt_moveTo hc).mp hm'
      · have hq := halone m p (hcred cred' hk ▸ hm)
        rw [Pc.inFlight_of_preparing hp] at hq
        cases hq
      · exact h.alone m m' cred' p p' hm hm' hp hp'
  · obtain ⟨-, hk, -⟩ | ⟨-, hm⟩ := (credAt_moveTo hc).mp hm
    · exact hcred cred' hk ▸ hnone
    · exact h.absent m cred' p hm hp
  · obtain ⟨-, -, heq⟩ | ⟨-, hm⟩ := (credAt_moveTo hc).mp hm
    · cases heq
    · exact h.entry m cred' srv hm
  · obtain ⟨-, -, heq⟩ | ⟨-, hm⟩ := (credAt_moveTo hc).mp hm
    · cases heq
    · obtain ⟨-, -, heq⟩ | ⟨-, hm'⟩ := (credAt_moveTo hc).mp hm'
      · cases heq
      · exact h.same m m' cred' srv srv' hm hm'

/-- A request that starts on the server `srv`, which is the one of the credential's entry. -/
theorem OneCredential.begin {s : State} {n : ℕ} {c : Call} {srv : ℕ} (h : OneCredential s)
    (hc : s.calls[n]? = some c)
    (hentry : ∀ cred, c.kind = .credential cred →
      (∃ p ∈ s.registry.creds, p.1 = cred.key) ∧ (∀ p ∈ s.registry.creds, p.1 = cred.key → p.2.srv = srv)) :
    OneCredential (s.moveTo n c (.running srv)) := by
  refine ⟨h.owner, h.unique, fun m m' cred p p' hm hm' hp hp' => ?_, fun m cred p hm hp => ?_,
    fun m cred srv' hm => ?_, fun m m' cred srv₁ srv₂ hm hm' => ?_⟩
  · obtain ⟨-, -, rfl⟩ | ⟨-, hm⟩ := (credAt_moveTo hc).mp hm
    · cases hp
    · obtain ⟨-, hk, -⟩ | ⟨-, hm'⟩ := (credAt_moveTo hc).mp hm'
      · obtain ⟨q, hq, hqk⟩ := (hentry cred hk).1
        exact absurd hqk (h.absent m cred p hm hp q hq)
      · exact h.alone m m' cred p p' hm hm' hp hp'
  · obtain ⟨-, -, rfl⟩ | ⟨-, hm⟩ := (credAt_moveTo hc).mp hm
    · cases hp
    · exact h.absent m cred p hm hp
  · obtain ⟨-, hk, heq⟩ | ⟨-, hm⟩ := (credAt_moveTo hc).mp hm
    · obtain rfl := Pc.running.inj heq
      exact (hentry cred hk).2
    · exact h.entry m cred srv' hm
  · have hsrv : ∀ m srv', (s.moveTo n c (.running srv)).credAt m cred (.running srv') →
        c.kind = .credential cred → srv' = srv := fun m srv' hm hk => by
      obtain ⟨-, -, heq⟩ | ⟨-, hm⟩ := (credAt_moveTo hc).mp hm
      · exact (Pc.running.inj heq).symm
      · obtain ⟨q, hq, hqk⟩ := (hentry cred hk).1
        rw [← h.entry m cred srv' hm q hq hqk, (hentry cred hk).2 q hq hqk]
    by_cases hk : c.kind = .credential cred
    · rw [hsrv m srv₁ hm hk, hsrv m' srv₂ hm' hk]
    · obtain ⟨-, hk', -⟩ | ⟨-, hm⟩ := (credAt_moveTo hc).mp hm
      · exact absurd hk' hk
      · obtain ⟨-, hk', -⟩ | ⟨-, hm'⟩ := (credAt_moveTo hc).mp hm'
        · exact absurd hk' hk
        · exact h.same m m' cred srv₁ srv₂ hm hm'

/-- The insertion of the new server of a credential. -/
theorem OneCredential.inserted {s : State} {n : ℕ} {c : Call} {cred : Credential} {srv : ℕ} (h : OneCredential s)
    (hc : s.calls[n]? = some c) (hkind : c.kind = .credential cred) (hpc : c.pc = .insert) :
    OneCredential ({ s with
      registry := { s.registry with creds := s.registry.creds.set cred.key ⟨srv, cred.ownerFp.val, s.now⟩ }
      nextServer := srv + 1 }.moveTo n c (.running srv)) := by
  have hat : s.credAt n cred .insert := by rw [State.credAt, hc, ← hkind, ← hpc]
  have hquiet : ∀ m pc, s.credAt m cred pc → pc.inFlight = true → m = n := fun m pc hm hp =>
    (h.alone n m cred .insert pc hat hm rfl hp).symm
  have hmem : ∀ p ∈ s.registry.creds.set cred.key ⟨srv, cred.ownerFp.val, s.now⟩,
      p = (cred.key, ⟨srv, cred.ownerFp.val, s.now⟩) ∨ p ∈ s.registry.creds ∧ p.1 ≠ cred.key :=
    fun p hp => Entries.mem_set hp
  have hc' : ∀ {m cred' pc}, (State.moveTo { s with
      registry := { s.registry with creds := s.registry.creds.set cred.key ⟨srv, cred.ownerFp.val, s.now⟩ }
      nextServer := srv + 1 } n c (.running srv)).credAt m cred' pc ↔
        m = n ∧ c.kind = .credential cred' ∧ Pc.running srv = pc ∨ m ≠ n ∧ s.credAt m cred' pc := credAt_moveTo hc
  have hcred : ∀ cred', c.kind = .credential cred' → cred' = cred := fun cred' hk =>
    (Kind.credential.inj (hkind.symm.trans hk)).symm
  refine ⟨fun cred' p hp hk => ?_, fun p hp q hq hpq => ?_, fun m m' cred' p p' hm hm' hp hp' => ?_,
    fun m cred' p hm hp q hq hk => ?_, fun m cred' srv' hm p hp hk => ?_,
    fun m m' cred' srv₁ srv₂ hm hm' => ?_⟩
  · obtain rfl | ⟨hp, -⟩ := hmem p hp
    · exact congrArg (fun c : Credential => c.ownerFp.val) (Credential.key_inj hk)
    · exact h.owner cred' p hp hk
  · obtain rfl | ⟨hp, hpk⟩ := hmem p hp
    · obtain rfl | ⟨-, hqk⟩ := hmem q hq
      · rfl
      · exact absurd hpq.symm hqk
    · obtain rfl | ⟨hq, -⟩ := hmem q hq
      · exact absurd hpq hpk
      · exact h.unique p hp q hq hpq
  · obtain ⟨-, -, rfl⟩ | ⟨hmn, hm⟩ := hc'.mp hm
    · cases hp
    · obtain ⟨-, hk, -⟩ | ⟨-, hm'⟩ := hc'.mp hm'
      · exact absurd (hquiet m p (hcred cred' hk ▸ hm) (Pc.inFlight_of_preparing hp)) hmn
      · exact h.alone m m' cred' p p' hm hm' hp hp'
  · obtain ⟨-, -, rfl⟩ | ⟨hmn, hm⟩ := hc'.mp hm
    · cases hp
    · obtain rfl | ⟨hq, -⟩ := hmem q hq
      · obtain rfl := Credential.key_inj hk
        exact hmn (hquiet m p hm (Pc.inFlight_of_preparing hp))
      · exact h.absent m cred' p hm hp q hq hk
  · obtain ⟨-, hk', heq⟩ | ⟨hmn, hm⟩ := hc'.mp hm
    · obtain rfl := Pc.running.inj heq
      obtain rfl | ⟨-, hpk⟩ := hmem p hp
      · rfl
      · exact absurd (hcred cred' hk' ▸ hk) hpk
    · obtain rfl | ⟨hp, -⟩ := hmem p hp
      · obtain rfl := Credential.key_inj hk
        exact absurd (hquiet m _ hm rfl) hmn
      · exact h.entry m cred' srv' hm p hp hk
  · obtain ⟨rfl, hk, heq⟩ | ⟨hmn, hm⟩ := hc'.mp hm
    · obtain rfl := Pc.running.inj heq
      obtain ⟨-, -, heq'⟩ | ⟨hmn', hm'⟩ := hc'.mp hm'
      · exact Pc.running.inj heq'
      · exact absurd (hquiet m' _ (hcred cred' hk ▸ hm') rfl) hmn'
    · obtain ⟨-, hk, -⟩ | ⟨-, hm'⟩ := hc'.mp hm'
      · exact absurd (hquiet m _ (hcred cred' hk ▸ hm) rfl) hmn
      · exact h.same m m' cred' srv₁ srv₂ hm hm'

theorem OneCredential.advance {limits : Limits} {s s' : State} {n : ℕ} {c : Call} {id : Bytes} {ok : Bool}
    (h : OneCredential s) (hc : s.calls[n]? = some c) (hmiss : MissesAlone s (.advance n id ok) = true)
    (hstep : s.advance limits n c id ok = some s') : OneCredential s' := by
  cases hpc : c.pc with
  | lookup =>
    cases hkind : c.kind with
    | session | context => simp [State.advance, hpc, hkind] at hstep
    | credential cred =>
      cases hhit : s.registry.hit cred with
      | none =>
        simp only [State.advance, hpc, hkind, hhit] at hstep
        cases hstep
        refine h.miss hc hkind hhit fun m pc hm => ?_
        have hall : ∀ d ∈ s.calls, d.kind ≠ .credential cred ∨ d.pc.inFlight = false := by
          simpa [MissesAlone, hc, hpc, hkind, hhit, List.all_eq_true] using hmiss
        exact (hall _ (List.mem_of_getElem? hm)).resolve_left fun hne => hne rfl
      | some e =>
        simp only [State.advance, hpc, hkind, hhit] at hstep
        cases hstep
        have hfind : s.registry.creds.find cred.key = some e := (Option.filter_eq_some_iff.mp hhit).1
        have hmem := Entries.mem_of_find hfind
        refine OneCredential.begin (h.shrink rfl (Entries.within_touch _ _ _)) hc fun cred' hk => ?_
        obtain rfl : cred = cred' := Kind.credential.inj (hkind.symm.trans hk)
        refine ⟨⟨_, List.mem_map.mpr ⟨_, hmem, rfl⟩, by rw [if_pos rfl]⟩, fun p hp hpk => ?_⟩
        obtain ⟨q, hq, hqk, hqs, -⟩ := Entries.mem_touch hp
        exact hqs ▸ h.unique q hq _ hmem (hqk.trans hpk)
  | evict =>
    simp only [State.advance, hpc] at hstep
    cases hstep
    have hevicted : OneCredential { s with registry := s.registry.evict s.now limits.sessionTtl } :=
      h.shrink rfl (Entries.within_filter _ _)
    exact hevicted.quiet hc hpc (fun _ => rfl) (.inl rfl)
  | check =>
    simp only [State.advance, hpc] at hstep
    cases hstep
    split
    · exact h.quiet hc hpc (fun _ => rfl) (.inr rfl)
    · exact h.quiet hc hpc (fun _ => rfl) (.inl rfl)
  | factory =>
    simp only [State.advance, hpc] at hstep
    cases hstep
    cases ok with
    | false => exact h.quiet hc hpc (fun _ => rfl) (.inr rfl)
    | true => exact h.quiet hc hpc (fun _ => rfl) (.inl rfl)
  | insert =>
    cases hkind : c.kind with
    | session owner | context owner =>
      simp only [State.advance, hpc, hkind, Registry.insert] at hstep
      cases hstep
      exact OneCredential.begin (h.shrink rfl (Entries.Within.refl _)) hc fun cred hk => by
        rw [hkind] at hk
        cases hk
    | credential cred =>
      simp only [State.advance, hpc, hkind, Registry.insert] at hstep
      cases hstep
      exact h.inserted hc hkind hpc
  | running srv =>
    simp only [State.advance, hpc] at hstep
    cases hstep
    exact h.quiet hc hpc (by rintro ⟨⟩) (.inr rfl)
  | done => simp [State.advance, hpc] at hstep

theorem OneCredential.step {limits : Limits} {s s' : State} {a : Label} {es : List Empty} (h : OneCredential s)
    (hmiss : MissesAlone s a = true) (hstep : s.step limits a = some (s', es)) : OneCredential s' := by
  cases a with
  | tick =>
    cases hstep
    exact h.shrink rfl (Entries.Within.refl _)
  | start kind =>
    cases hstep
    have hat : ∀ {m cred pc}, State.credAt { s with calls := s.calls ++ [⟨kind, kind.first⟩] } m cred pc →
        pc.inFlight = true → s.credAt m cred pc := fun {m cred pc} hm hfl => by
      rw [State.credAt, List.getElem?_append] at hm
      split at hm
      · exact hm
      · have heq : (⟨kind, kind.first⟩ : Call) = ⟨.credential cred, pc⟩ :=
          List.mem_singleton.mp (List.mem_of_getElem? hm) ▸ rfl
        obtain ⟨rfl, rfl⟩ := Call.mk.inj heq
        cases hfl
    exact ⟨h.owner, h.unique,
      fun m n cred p p' hm hn hp hp' =>
        h.alone m n cred p p' (hat hm (Pc.inFlight_of_preparing hp)) (hat hn hp') hp hp',
      fun m cred p hm hp => h.absent m cred p (hat hm (Pc.inFlight_of_preparing hp)) hp,
      fun m cred srv hm => h.entry m cred srv (hat hm rfl),
      fun m n cred srv srv' hm hn => h.same m n cred srv srv' (hat hm rfl) (hat hn rfl)⟩
  | advance n id ok =>
    obtain ⟨c, hc, hmap⟩ := Option.bind_eq_some_iff.mp hstep
    obtain ⟨s'', hadv, heq⟩ := Option.map_eq_some_iff.mp hmap
    cases heq
    exact h.advance hc hmiss hadv
  | findSession id owner | findContext id owner =>
    cases hstep
    exact h.shrink rfl (Entries.Within.refl _)
  | eraseSession id owner =>
    rw [State.step] at hstep
    split at hstep
    · split at hstep <;> cases hstep <;> exact h.shrink rfl (Entries.Within.refl _)
    · cases hstep
      exact h
  | evictIdle =>
    cases hstep
    exact h.shrink rfl (Entries.within_filter _ _)
  | endAll =>
    cases hstep
    exact h.shrink rfl fun p hp => absurd hp List.not_mem_nil

theorem OneCredential.oneServer {s : State} (h : OneCredential s) : s.OneServer := fun cred srv srv' hm hn => by
  obtain ⟨m, hm⟩ := List.getElem?_of_mem hm
  obtain ⟨n, hn⟩ := List.getElem?_of_mem hn
  exact h.same m n cred srv srv' hm hn

/-! ### Runs -/

/-- The condition on a step. -/
def Disciplined (limits : Limits) (s : State) (_ : List Empty) (a : Label) : Prop :=
  CountsCreating limits s a = true ∧ MissesAlone s a = true

instance (limits : Limits) (s : State) (log : List Empty) (a : Label) : Decidable (Disciplined limits s log a) :=
  inferInstanceAs (Decidable (_ ∧ _))

def someCredential : Credential := ⟨⟨List.replicate 32 48, rfl⟩, ascii "client"⟩

/-- The steps of one request up to its server. -/
def served (n : ℕ) : List Label := List.replicate 5 (.advance n [] true)

/-- One after the other: the second finds the server of the first. -/
def oneByOne : List Label :=
  [Label.start (.credential someCredential), .start (.credential someCredential)] ++ served 0 ++ [Label.advance 1 [] true]

/-- Side by side: both miss before either inserts. -/
def coldStart : List Label :=
  [Label.start (.credential someCredential), .start (.credential someCredential), .advance 0 [] true,
    .advance 1 [] true] ++ List.replicate 4 (Label.advance 0 [] true) ++ List.replicate 4 (Label.advance 1 [] true)

/-- Two handshakes with room for one session. -/
def twoHandshakes : List Label :=
  [.start (.session []), .start (.session []), .advance 0 [] true, .advance 0 [] true, .advance 1 [] true,
    .advance 1 [] true, .advance 0 [] true, .advance 0 [1] true, .advance 1 [] true, .advance 1 [2] true]

def oneSession : Limits := { maxSessionsVar := some (ascii "1") }

end FractalSQL.Mcp
