import FractalSQL.Session.LinkedSteps

/-!
# Runs of the linked registry

Over any sequence of calls the table, the list and the counter stay consistent, and the
list stays in the order of the last acquires, so a full table loses the entry that was
acquired least recently among those that nobody holds.
-/
namespace FractalSQL.Session
open Lib

/-- The memory that a call makes room in: the acquires sweep first. -/
def Call.table (fuel : ℕ) (m : Memory) : Call → Option Memory
  | .acquire _ env | .acquireExclusive _ env => m.sweepStale fuel sweepScanLimit env.now
  | _ => some m

/-- The id whose entry a setter makes, which it does for an id without one. -/
def Memory.flagAcquired (fuel : ℕ) (m : Memory) (id : UInt64) (env : HeapEnv) : Option UInt64 :=
  match m.findEntry fuel id with
  | some none => (m.findOrCreateEntry fuel id env).bind fun r => r.2.map fun _ => id
  | _ => none

/-- The id whose entry `find_or_create_entry_locked` hands to a call: the acquires come
to that point unless they refuse, and the setters for an id without an entry. -/
def Call.acquired (fuel : ℕ) (m : Memory) : Call → Option UInt64
  | .acquire id env => (m.acquireEntry fuel id env Entry.busy).bind fun r => r.2.map fun _ => id
  | .acquireExclusive id env =>
    (m.acquireEntry fuel id env fun e => e.busy ∨ 0 < e.shared).bind fun r => r.2.map fun _ => id
  | .setAgentPartial id _ env | .setDiversifyEnabled id _ env => m.flagAcquired fuel id env
  | _ => none

/-- What a call does to the entries on lists, when the outcome of `calloc` is known. -/
def Call.effect (callocOk : Bool) (reg : Registry) : Call → Registry
  | .acquire id env => (sessionAcquire reg id (env.callEnv callocOk)).1
  | .acquireExclusive id env => (sessionAcquireExclusive reg id (env.callEnv callocOk)).1
  | .release id => sessionRelease reg id
  | .releaseExclusive id => sessionReleaseExclusive reg id
  | .setAgentPartial id on env => Session.setAgentPartial reg id on (env.callEnv callocOk)
  | .setDiversifyEnabled id on env => Session.setDiversifyEnabled reg id on (env.callEnv callocOk)
  | .getAgentPartial _ | .getDiversifyEnabled _ => reg
  | .close id => sessionRegistryClose reg id

/-- What a call can do to the order of the ids: some are gone, and the acquired one is in front. -/
inductive Moves (before : List UInt64) : Option UInt64 → List UInt64 → Prop
  | stay {after : List UInt64} (h : after.Sublist before) : Moves before none after
  | front {rest : List UInt64} (id : UInt64) (h : rest.Sublist before) : Moves before (some id) (id :: rest)

namespace Memory

variable {m : Memory} {cells rest front back : Cells} {a : Addr} {e : Entry} {id : UInt64} {fuel : ℕ}

/-! ### The front entry -/

theorem Linked.front_node (h : m.Linked ((a, e) :: rest)) : ∃ n, m.nodes a = some n ∧ n.entry = e := by
  have hfront : m.Linked ([] ++ (a, e) :: rest) := h
  exact hfront.node

theorem storeFront_spec (h : m.Linked ((a, e) :: rest)) (f : Entry → Entry)
    (hid : (f e).sessionId = e.sessionId) :
    ∃ m', m.storeEntry a f = some m' ∧ m'.Linked ((a, f e) :: rest) := by
  have hfront : m.Linked ([] ++ (a, e) :: rest) := h
  exact storeEntry_spec hfront hid

theorem Linked.modifyFront_eq (h : m.Linked ((a, e) :: rest)) (f : Entry → Entry) :
    modifyEntry (e :: registry rest) e.sessionId f = f e :: registry rest := by
  have hfront : m.Linked ([] ++ (a, e) :: rest) := h
  exact hfront.modifyEntry_eq f

theorem lazyCtx_spec (h : m.Linked ((a, e) :: rest)) (env : HeapEnv) (giveBack : Entry → Entry)
    (hid : (giveBack e).sessionId = e.sessionId) :
    ∃ m', m.lazyCtx a env giveBack = some (m', e.hasCtx || env.ctxOk) ∧
      m'.Linked ((a, if (e.hasCtx || env.ctxOk) = true then { e with hasCtx := true } else giveBack e) :: rest) := by
  obtain ⟨n, hn, rfl⟩ := h.front_node
  cases hctx : n.entry.hasCtx with
  | true =>
    have hsame : { n.entry with hasCtx := true } = n.entry := by
      rw [← hctx]
    refine ⟨m, ?_, by simpa [hsame] using h⟩
    simp only [lazyCtx, hn, Option.bind_eq_bind, Option.bind_some, hctx, if_true, Bool.true_or]
  | false =>
    cases hok : env.ctxOk with
    | true =>
      obtain ⟨m', hm', hlink⟩ := storeFront_spec h (fun e => { e with hasCtx := true }) rfl
      refine ⟨m', ?_, by simpa using hlink⟩
      simp only [lazyCtx, hn, Option.bind_eq_bind, Option.bind_some, hctx, Bool.false_eq_true, if_false, hok,
        if_true, hm', Bool.or_true]
    | false =>
      obtain ⟨m', hm', hlink⟩ := storeFront_spec h giveBack hid
      refine ⟨m', ?_, by simpa using hlink⟩
      simp only [lazyCtx, hn, Option.bind_eq_bind, Option.bind_some, hctx, Bool.false_eq_true, if_false, hok, hm',
        Bool.or_false]

/-- The same on lists. -/
theorem withCtx_eq (h : m.Linked ((a, e) :: rest)) (env : CallEnv) (hold : Entry → Entry) :
    withCtx (e :: registry rest) e env hold =
      if (e.hasCtx || env.ctxOk) = true then (hold { e with hasCtx := true } :: registry rest, true)
      else ({ e with refcount := e.refcount - 1 } :: registry rest, false) := by
  have hmod := h.modifyFront_eq
  unfold withCtx
  by_cases hctx : e.hasCtx ∨ env.ctxOk
  · rw [if_pos hctx, if_pos (by simpa using hctx), hmod]
  · rw [if_neg hctx, if_neg (by simpa using hctx), hmod]

/-- A call runs without a fault, keeps the memory together, and does what it does on lists. -/
def Simulates (fuel : ℕ) (m : Memory) (cells : Cells) (call : Call) : Prop :=
  ∃ m' cells' ok, m.step fuel call = some m' ∧ m'.Linked cells' ∧
    registry cells' = call.effect ok (registry cells) ∧ Moves (ids cells) (call.acquired fuel m) (ids cells')

theorem acquire_simulates (h : m.Linked cells) (hfuel : maxEntries < fuel) (id : UInt64) (env : HeapEnv) :
    m.Simulates fuel cells (.acquire id env) := by
  obtain ⟨m₁, r, ok, h₁, hgives⟩ := acquireEntry_spec h hfuel id env Entry.busy
  have heffect := sessionAcquire_eq (registry cells) id (env.callEnv ok)
  have hacq : Call.acquired fuel m (.acquire id env) = r.map fun _ => id := by
    simp only [Call.acquired, h₁, Option.bind_some]
  generalize Session.acquireEntry (registry cells) id (env.callEnv ok) Entry.busy = out at hgives heffect
  cases hgives with
  | nothing cells' hlink hsub =>
    refine ⟨m₁, cells', ok, ?_, hlink, ?_, ?_⟩
    · simp only [step, sessionAcquire, h₁, Option.bind_eq_bind, Option.bind_some, Option.map_some]
    · exact (congrArg Prod.fst heffect).symm
    · rw [hacq]
      exact .stay hsub
  | entry a e rest hlink hsub hid =>
    obtain ⟨m₂, h₂, hlink₂⟩ := lazyCtx_spec hlink env (fun e => { e with refcount := e.refcount - 1 }) rfl
    simp only [withCtx_eq hlink] at heffect
    cases hok : e.hasCtx || env.ctxOk with
    | true =>
      rw [hok] at h₂ hlink₂
      have hcall : (e.hasCtx || (env.callEnv ok).ctxOk) = true := hok
      obtain ⟨m₃, h₃, hlink₃⟩ := storeFront_spec hlink₂ (fun e => { e with shared := e.shared + 1 }) rfl
      refine ⟨m₃, _, ok, ?_, hlink₃, ?_, ?_⟩
      · simp only [step, sessionAcquire, h₁, h₂, h₃, Option.bind_eq_bind, Option.bind_some, Option.map_some]
      · rw [if_pos hcall] at heffect
        exact (congrArg Prod.fst heffect).symm
      · rw [hacq, ← hid]
        exact .front e.sessionId hsub
    | false =>
      rw [hok] at h₂ hlink₂
      have hcall : ¬ (e.hasCtx || (env.callEnv ok).ctxOk) = true := by
        rw [Bool.not_eq_true]
        exact hok
      refine ⟨m₂, _, ok, ?_, hlink₂, ?_, ?_⟩
      · simp only [step, sessionAcquire, h₁, h₂, Option.bind_eq_bind, Option.bind_some, Option.map_some]
      · rw [if_neg hcall] at heffect
        exact (congrArg Prod.fst heffect).symm
      · rw [hacq, ← hid]
        exact .front e.sessionId hsub

theorem findOrCreateEntry_busy {reg : Registry} {env : CallEnv} (hfree : ∀ x ∈ Session.findEntry reg id, x.busy = false)
    (h : (Session.findOrCreateEntry reg id env).2 = some e) : e.busy = false := by
  cases hfind : Session.findEntry reg id with
  | some x =>
    simp only [Session.findOrCreateEntry, hfind, Option.some.injEq] at h
    subst h
    exact hfree x hfind
  | none =>
    simp only [Session.findOrCreateEntry, hfind] at h
    grind

/-- An acquire that refuses a busy entry holds no busy one. -/
theorem acquireEntry_busy {reg : Registry} {env : CallEnv} {refuse : Entry → Bool}
    (hrefuse : ∀ x : Entry, x.busy = true → refuse x = true)
    (h : (Session.acquireEntry reg id env refuse).2 = some e) : e.busy = false := by
  unfold Session.acquireEntry at h
  dsimp only at h
  by_cases hany : (Session.findEntry (Session.sweepStale reg sweepScanLimit env.now) id).any refuse = true
  · rw [if_pos hany] at h
    exact absurd h nofun
  · rw [if_neg hany] at h
    refine findOrCreateEntry_busy (fun x hx => Bool.eq_false_iff.mpr fun hb => hany ?_) h
    rw [Option.mem_def.mp hx]
    exact hrefuse x hb

theorem acquireExclusive_simulates (h : m.Linked cells) (hfuel : maxEntries < fuel) (id : UInt64) (env : HeapEnv) :
    m.Simulates fuel cells (.acquireExclusive id env) := by
  obtain ⟨m₁, r, ok, h₁, hgives⟩ := acquireEntry_spec h hfuel id env fun e => e.busy ∨ 0 < e.shared
  have heffect := sessionAcquireExclusive_eq (registry cells) id (env.callEnv ok)
  have hbusy {x : Entry} (hx : (Session.acquireEntry (registry cells) id (env.callEnv ok)
      fun e => e.busy ∨ 0 < e.shared).2 = some x) : x.busy = false :=
    acquireEntry_busy (fun y hy => by simp [hy]) hx
  have hacq : Call.acquired fuel m (.acquireExclusive id env) = r.map fun _ => id := by
    simp only [Call.acquired, h₁, Option.bind_some]
  generalize Session.acquireEntry (registry cells) id (env.callEnv ok) _ = out at hgives heffect hbusy
  cases hgives with
  | nothing cells' hlink hsub =>
    refine ⟨m₁, cells', ok, ?_, hlink, ?_, ?_⟩
    · simp only [step, sessionAcquireExclusive, h₁, Option.bind_eq_bind, Option.bind_some, Option.map_some]
    · exact (congrArg Prod.fst heffect).symm
    · rw [hacq]
      exact .stay hsub
  | entry a e rest hlink hsub hid =>
    have hidle : e.busy = false := hbusy rfl
    obtain ⟨m₂, h₂, hlink₂⟩ := storeFront_spec hlink (fun e => { e with busy := true }) rfl
    obtain ⟨m₃, h₃, hlink₃⟩ := lazyCtx_spec hlink₂ env
      (fun e => { e with refcount := e.refcount - 1, busy := false }) rfl
    simp only [withCtx_eq hlink] at heffect
    refine ⟨m₃, _, ok, ?_, hlink₃, ?_, ?_⟩
    · simp only [step, sessionAcquireExclusive, h₁, h₂, h₃, Option.bind_eq_bind, Option.bind_some, Option.map_some]
    · rw [Call.effect, heffect]
      by_cases hok : (e.hasCtx || env.ctxOk) = true
      · have hcall : (e.hasCtx || (env.callEnv ok).ctxOk) = true := hok
        rw [if_pos hcall, registry_cons, if_pos hok]
      · have hcall : ¬ (e.hasCtx || (env.callEnv ok).ctxOk) = true := hok
        have hback : { e with refcount := e.refcount - 1, busy := false } = { e with refcount := e.refcount - 1 } := by
          rw [← hidle]
        rw [if_neg hcall, registry_cons, if_neg hok, hback]
    · rw [hacq]
      have hfront : ids ((a, if (e.hasCtx || env.ctxOk) = true then { e with busy := true, hasCtx := true }
          else { e with refcount := e.refcount - 1, busy := false }) :: rest) = id :: ids rest := by
        rw [← hid]
        split <;> rfl
      exact hfront ▸ .front id hsub

/-- A store to the entry of an id, on both. -/
theorem updateEntry_spec (h : m.Linked cells) (hfuel : maxEntries < fuel) (id : UInt64) {f : Entry → Entry}
    (hf : ∀ e, (f e).sessionId = e.sessionId) :
    ∃ m' cells', m.updateEntry fuel id f = some m' ∧ m'.Linked cells' ∧
      registry cells' = modifyEntry (registry cells) id f ∧ ids cells' = ids cells := by
  rcases findEntry_spec h hfuel id with ⟨front, a, e, back, rfl, rfl, hfind⟩ | ⟨hnone, hfind⟩
  · obtain ⟨m', hm', hlink⟩ := storeEntry_spec h (hf e)
    refine ⟨m', _, ?_, hlink, (h.modifyEntry_eq f).symm, ?_⟩
    · simp only [updateEntry, hfind, Option.bind_eq_bind, Option.bind_some, hm']
    · simp [ids, hf]
  · refine ⟨m, cells, ?_, h, (modifyEntry_of_ne hnone).symm, rfl⟩
    simp only [updateEntry, hfind, Option.bind_eq_bind, Option.bind_some]

theorem release_simulates (h : m.Linked cells) (hfuel : maxEntries < fuel) (id : UInt64) :
    m.Simulates fuel cells (.release id) := by
  obtain ⟨m', cells', hm', hlink, hreg, hids⟩ := updateEntry_spec h hfuel id
    (f := fun e => { e with shared := e.shared - 1, refcount := e.refcount - 1 }) fun _ => rfl
  exact ⟨m', cells', true, hm', hlink, hreg, .stay (by rw [hids])⟩

theorem releaseExclusive_simulates (h : m.Linked cells) (hfuel : maxEntries < fuel) (id : UInt64) :
    m.Simulates fuel cells (.releaseExclusive id) := by
  obtain ⟨m', cells', hm', hlink, hreg, hids⟩ := updateEntry_spec h hfuel id
    (f := fun e => { e with busy := false, refcount := e.refcount - 1 }) fun _ => rfl
  exact ⟨m', cells', true, hm', hlink, hreg, .stay (by rw [hids])⟩

theorem setFlag_refused {reg reg' : Registry} {id : UInt64} {env : CallEnv} (set : Entry → Entry)
    (h : Session.findEntry reg id = none) (hcreate : Session.findOrCreateEntry reg id env = (reg', none)) :
    Session.setFlag reg id env set = reg' := by
  unfold Session.setFlag
  rw [h, hcreate]

theorem setFlag_created {reg reg' : Registry} {e : Entry} {id : UInt64} {env : CallEnv} (set : Entry → Entry)
    (h : Session.findEntry reg id = none) (hcreate : Session.findOrCreateEntry reg id env = (reg', some e)) :
    Session.setFlag reg id env set = modifyEntry reg' id fun e => set { e with refcount := e.refcount - 1 } := by
  unfold Session.setFlag
  rw [h, hcreate]

/-- A setter on both. -/
theorem setFlag_spec (h : m.Linked cells) (hfuel : maxEntries < fuel) (id : UInt64) (env : HeapEnv)
    {set : Entry → Entry} (hset : ∀ e, (set e).sessionId = e.sessionId) :
    ∃ m' cells' ok, m.setFlag fuel id env set = some m' ∧ m'.Linked cells' ∧
      registry cells' = Session.setFlag (registry cells) id (env.callEnv ok) set ∧
        Moves (ids cells) (m.flagAcquired fuel id env) (ids cells') := by
  rcases findEntry_spec h hfuel id with ⟨front, a, e, back, rfl, rfl, hfind⟩ | ⟨hnone, hfind⟩
  · obtain ⟨m', hm', hlink⟩ := storeEntry_spec h (hset e)
    refine ⟨m', _, true, ?_, hlink, ?_, ?_⟩
    · simp only [setFlag, hfind, Option.bind_eq_bind, Option.bind_some, hm']
    · simp only [Session.setFlag, h.findEntry_eq, h.modifyEntry_eq]
    · simp only [flagAcquired, hfind]
      exact .stay (by simp [ids, hset])
  · obtain ⟨m₁, r, ok, h₁, hgives⟩ := findOrCreateEntry_spec h hfuel id env
    have hacq : m.flagAcquired fuel id env = r.map fun _ => id := by
      simp only [flagAcquired, hfind, h₁, Option.bind_some]
    have hlook := findEntry_eq_none hnone
    generalize hout : Session.findOrCreateEntry (registry cells) id (env.callEnv ok) = out at hgives
    cases hgives with
    | nothing cells' hlink hsub =>
      refine ⟨m₁, cells', ok, ?_, hlink, (setFlag_refused set hlook hout).symm, ?_⟩
      · simp only [setFlag, hfind, h₁, Option.bind_eq_bind, Option.bind_some]
      · rw [hacq]
        exact .stay hsub
    | entry a e rest hlink hsub hid =>
      obtain ⟨m₂, h₂, hlink₂⟩ := storeFront_spec hlink (fun e => { e with refcount := e.refcount - 1 }) rfl
      obtain ⟨m₃, h₃, hlink₃⟩ := storeFront_spec hlink₂ set (hset _)
      refine ⟨m₃, _, ok, ?_, hlink₃, ?_, ?_⟩
      · simp only [setFlag, hfind, h₁, h₂, h₃, Option.bind_eq_bind, Option.bind_some]
      · rw [setFlag_created set hlook hout, ← hid]
        have hmod := hlink.modifyFront_eq fun e => set { e with refcount := e.refcount - 1 }
        exact hmod.symm
      · rw [hacq]
        have hfront : ids ((a, set { e with refcount := e.refcount - 1 }) :: rest) = id :: ids rest := by
          simp only [ids, List.map_cons, hset, hid]
        exact hfront ▸ .front id hsub

theorem getFlag_spec (h : m.Linked cells) (hfuel : maxEntries < fuel) (id : UInt64) (flag : Entry → Bool) :
    ∃ v, m.getFlag fuel id flag = some v := by
  rcases findEntry_spec h hfuel id with ⟨front, a, e, back, rfl, rfl, hfind⟩ | ⟨-, hfind⟩
  · obtain ⟨n, hn, -⟩ := h.node
    exact ⟨flag n.entry, by simp only [getFlag, hfind, Option.bind_eq_bind, Option.bind_some, hn]⟩
  · exact ⟨false, by simp only [getFlag, hfind, Option.bind_eq_bind, Option.bind_some]⟩

theorem close_simulates (h : m.Linked cells) (hfuel : maxEntries < fuel) (id : UInt64) :
    m.Simulates fuel cells (.close id) := by
  rcases findEntry_spec h hfuel id with ⟨front, a, e, back, rfl, rfl, hfind⟩ | ⟨hnone, hfind⟩
  · obtain ⟨n, hn, rfl⟩ := h.node
    by_cases hun : n.entry.unheld = true
    · obtain ⟨m', hm', hlink⟩ := remove_spec h hfuel
      refine ⟨m', _, true, ?_, hlink, ?_, .stay ?_⟩
      · simp only [step, sessionRegistryClose, hfind, hn, Option.bind_eq_bind, Option.bind_some, if_pos hun, hm']
      · simp only [Call.effect, Session.sessionRegistryClose, h.findEntry_eq, Option.any_some, if_pos hun,
          h.removeEntry_eq]
      · exact ids_sublist (List.Sublist.append_left (List.sublist_cons_self _ _) front)
    · refine ⟨m, _, true, ?_, h, ?_, .stay (.refl _)⟩
      · simp only [step, sessionRegistryClose, hfind, hn, Option.bind_eq_bind, Option.bind_some, if_neg hun]
      · simp only [Call.effect, Session.sessionRegistryClose, h.findEntry_eq, Option.any_some, if_neg hun]
  · refine ⟨m, cells, true, ?_, h, ?_, .stay (.refl _)⟩
    · simp only [step, sessionRegistryClose, hfind, Option.bind_eq_bind, Option.bind_some]
    · simp [Call.effect, Session.sessionRegistryClose, findEntry_eq_none hnone]

/-- Every call of the registry simulates the call on lists. -/
theorem step_simulates (h : m.Linked cells) (hfuel : maxEntries < fuel) (call : Call) :
    m.Simulates fuel cells call := by
  cases call with
  | acquire id env => exact acquire_simulates h hfuel id env
  | acquireExclusive id env => exact acquireExclusive_simulates h hfuel id env
  | release id => exact release_simulates h hfuel id
  | releaseExclusive id => exact releaseExclusive_simulates h hfuel id
  | setAgentPartial id on env => exact setFlag_spec h hfuel id env fun _ => rfl
  | setDiversifyEnabled id on env => exact setFlag_spec h hfuel id env fun _ => rfl
  | getAgentPartial id =>
    obtain ⟨v, hv⟩ := getFlag_spec h hfuel id Entry.agentPartialFail
    exact ⟨m, cells, true, by simp only [step, getAgentPartial, hv, Option.map_some], h, rfl, .stay (.refl _)⟩
  | getDiversifyEnabled id =>
    obtain ⟨v, hv⟩ := getFlag_spec h hfuel id Entry.diversifyEnabled
    exact ⟨m, cells, true, by simp only [step, getDiversifyEnabled, hv, Option.map_some], h, rfl, .stay (.refl _)⟩
  | close id => exact close_simulates h hfuel id

/-! ### The order of the last acquires -/

end Memory

/-- After the last acquire of `e` in this history, `f` was acquired. -/
def AcquiredBefore (hist : List UInt64) (e f : UInt64) : Prop :=
  ∃ before after, hist = before ++ e :: after ∧ e ∉ after ∧ f ∈ after

/-- The ids are in the order of their last acquires, the most recent one first. -/
structure Recent (hist ids : List UInt64) : Prop where
  mem : ∀ id ∈ ids, id ∈ hist
  order : ids.Pairwise fun newer older => AcquiredBefore hist older newer

variable {hist before after : List UInt64} {id e f : UInt64}

theorem AcquiredBefore.concat (h : AcquiredBefore hist e f) (he : e ≠ id) : AcquiredBefore (hist ++ [id]) e f := by
  obtain ⟨before, after, rfl, hafter, hf⟩ := h
  refine ⟨before, after ++ [id], by simp, ?_, List.mem_append_left _ hf⟩
  simp [hafter, he]

/-- Everything else was acquired before the acquire that comes now. -/
theorem AcquiredBefore.now (h : e ∈ hist) (he : e ≠ id) : AcquiredBefore (hist ++ [id]) e id := by
  obtain ⟨after, before, hrev, hafter⟩ := List.eq_append_cons_of_mem (List.mem_reverse.mpr h)
  refine ⟨before.reverse, after.reverse ++ [id], ?_, ?_, by simp⟩
  · have hhist := congrArg List.reverse hrev
    rw [List.reverse_reverse] at hhist
    simp [hhist]
  · simp [hafter, he]

/-- What one call does to the order. -/
theorem Recent.moves {acquired : Option UInt64} (h : Recent hist before) (hmoves : Moves before acquired after)
    (hnodup : after.Nodup) : Recent (hist ++ acquired.toList) after := by
  cases hmoves with
  | stay hsub =>
    rw [Option.toList_none, List.append_nil]
    exact ⟨fun id hid => h.mem id (hsub.subset hid), h.order.sublist hsub⟩
  | @front rest id hsub =>
    have hne {x : UInt64} (hx : x ∈ rest) : x ≠ id := ne_of_mem_of_not_mem hx (List.nodup_cons.mp hnodup).1
    rw [Option.toList_some]
    refine ⟨fun x hx => ?_, List.pairwise_cons.mpr ⟨fun x hx => ?_, ?_⟩⟩
    · rcases List.mem_cons.mp hx with rfl | hx
      · simp
      · exact List.mem_append_left _ (h.mem x (hsub.subset hx))
    · exact .now (h.mem x (hsub.subset hx)) (hne hx)
    · refine (h.order.sublist hsub).imp_of_mem fun _ hx hbefore => hbefore.concat (hne hx)

/-- The ids that a run acquires, in order. -/
def acquisitionsFrom (fuel : ℕ) : Memory → List Call → List UInt64
  | _, [] => []
  | m, call :: calls =>
    (call.acquired fuel m).toList ++
      match m.step fuel call with
      | some m => acquisitionsFrom fuel m calls
      | none => []

def acquisitions (fuel : ℕ) (calls : List Call) : List UInt64 := acquisitionsFrom fuel {} calls

/-- The registry of lists after the calls, with the outcomes of `calloc` in them. -/
def effects (reg : Registry) (calls : List (Call × Bool)) : Registry :=
  calls.foldl (fun reg call => call.1.effect call.2 reg) reg

variable {m : Memory} {cells : Cells} {fuel : ℕ}

/-- A run from a memory that holds together. -/
theorem run_linked (h : m.Linked cells) (hrecent : Recent hist (ids cells)) (hfuel : maxEntries < fuel)
    (calls : List Call) :
    ∃ m' cells' oks, calls.foldlM (Memory.step fuel) m = some m' ∧ m'.Linked cells' ∧
      Recent (hist ++ acquisitionsFrom fuel m calls) (ids cells') ∧
        oks.length = calls.length ∧ registry cells' = effects (registry cells) (calls.zip oks) := by
  induction calls generalizing m cells hist with
  | nil => exact ⟨m, cells, [], rfl, h, by simpa [acquisitionsFrom] using hrecent, rfl, rfl⟩
  | cons call calls ih =>
    obtain ⟨m₁, cells₁, ok, h₁, hlink₁, hreg₁, hmoves⟩ := Memory.step_simulates h hfuel call
    obtain ⟨m', cells', oks, h', hlink', hrecent', hlen, hreg'⟩ := ih hlink₁ (hrecent.moves hmoves hlink₁.ids)
    refine ⟨m', cells', ok :: oks, ?_, hlink', ?_, by simp [hlen], ?_⟩
    · rw [List.foldlM_cons, h₁]
      exact h'
    · simpa only [acquisitionsFrom, h₁, List.append_assoc] using hrecent'
    · rw [hreg', hreg₁]
      rfl

theorem runCalls_linked (hfuel : maxEntries < fuel) (calls : List Call) :
    ∃ m cells oks, runCalls fuel calls = some m ∧ m.Linked cells ∧
      Recent (acquisitions fuel calls) (ids cells) ∧
        oks.length = calls.length ∧ registry cells = effects [] (calls.zip oks) := by
  have hrecent : Recent [] (ids []) := ⟨nofun, .nil⟩
  exact run_linked Memory.linked_empty hrecent hfuel calls

/-- The linked registry is the registry on lists: every run of calls goes through without
a fault, and its entries are what the same calls make of the empty list. -/
theorem runCalls_refines (hfuel : maxEntries < fuel) (calls : List Call) :
    ∃ m cells oks, runCalls fuel calls = some m ∧ m.Linked cells ∧ oks.length = calls.length ∧
      registry cells = effects [] (calls.zip oks) := by
  obtain ⟨m, cells, oks, hrun, hlink, -, hlen, hreg⟩ := runCalls_linked hfuel calls
  exact ⟨m, cells, oks, hrun, hlink, hlen, hreg⟩

/-- The table, the list and the counter describe the same nodes. -/
structure Memory.Represents (m : Memory) (lru : List Addr) (chain : Fin bucketCount → List Addr) : Prop where
  forward : m.forward.Spells lru
  backward : m.backward.Spells lru.reverse
  bucket (b : Fin bucketCount) : (m.bucket b).Spells (chain b)
  same (a : Addr) : a ∈ lru ↔ ∃ b, a ∈ chain b
  allocated (a : Addr) : a ∈ lru ↔ (m.nodes a).isSome
  home (b : Fin bucketCount) : ∀ a ∈ chain b, ∃ n, m.nodes a = some n ∧ bucketOf n.entry.sessionId = b
  unique (a a' : Addr) (n n' : Node) (hn : m.nodes a = some n) (hn' : m.nodes a' = some n')
    (hid : n.entry.sessionId = n'.entry.sessionId) : a = a'
  next (a : Addr) (n : Node) (hn : m.nodes a = some n) :
    (∀ b, n.lruNext = some b ↔ ∃ n', m.nodes b = some n' ∧ n'.lruPrev = some a) ∧
      (n.lruNext = none ↔ m.lruTail = some a)
  prev (a : Addr) (n : Node) (hn : m.nodes a = some n) :
    (∀ b, n.lruPrev = some b ↔ ∃ n', m.nodes b = some n' ∧ n'.lruNext = some a) ∧
      (n.lruPrev = none ↔ m.lruHead = some a)
  count : m.entryCount.toNat = lru.length
  room : lru.length ≤ maxEntries

/-- When room is made, the node that goes is the one acquired least recently among those
that nobody holds; nothing goes only when all are held. -/
def Memory.EvictsOldest (fuel : ℕ) (m : Memory) (hist : List UInt64) : Prop :=
  (∃ after a n, m.evictOneLru fuel = some (after, true) ∧ m.nodes a = some n ∧ n.entry.unheld = true ∧
      (∀ d, after.entryAt d = if d = a then none else m.entryAt d) ∧
      ∀ d n', d ≠ a → m.nodes d = some n' → n'.entry.unheld = true →
        AcquiredBefore hist n.entry.sessionId n'.entry.sessionId) ∨
    m.evictOneLru fuel = some (m, false) ∧ ∀ a n, m.nodes a = some n → ¬ n.entry.unheld = true

namespace Memory

theorem Linked.mem_of_view {β : Type} {g : Node → β} {a : Addr} {v : β} (h : m.Linked cells)
    (hv : m.view g a = some v) : a ∈ cells.map Prod.fst := by
  obtain ⟨n, hn, -⟩ := view_eq_some.mp hv
  exact h.owned a n hn

theorem Linked.cell_of_node {a : Addr} {n : Node} (h : m.Linked cells) (hn : m.nodes a = some n) :
    (a, n.entry) ∈ cells := by
  obtain ⟨⟨a, e⟩, hc, rfl⟩ := List.mem_map.mp (h.owned a n hn)
  obtain ⟨n', hn', rfl⟩ := nodes_of_entryAt (h.entry _ hc)
  rwa [Option.some.inj (hn.symm.trans hn')]

theorem Linked.entryAt_iff {a : Addr} {e : Entry} (h : m.Linked cells) : m.entryAt a = some e ↔ (a, e) ∈ cells := by
  constructor
  · intro he
    obtain ⟨n, hn, rfl⟩ := nodes_of_entryAt he
    exact h.cell_of_node hn
  · exact fun hmem => h.entry _ hmem

/-- Each id has one node. -/
theorem Linked.unique {a a' : Addr} {n n' : Node} (h : m.Linked cells) (hn : m.nodes a = some n)
    (hn' : m.nodes a' = some n') (hid : n.entry.sessionId = n'.entry.sessionId) : a = a' := by
  have hinj := List.inj_on_of_nodup_map h.ids (h.cell_of_node hn) (h.cell_of_node hn') hid
  exact congrArg Prod.fst hinj

theorem Linked.represents (h : m.Linked cells) : ∃ lru chain, m.Represents lru chain := by
  choose chain hspells hmem using h.hashed
  have hcell {a : Addr} : a ∈ cells.map Prod.fst ↔ ∃ e, (a, e) ∈ cells := by simp
  have hsome {β : Type} {a : Addr} {n : Node} (g : Node → β) {v : β} (hn : m.nodes a = some n) :
      g n = v ↔ m.view g a = some v := by simp [view, hn]
  refine ⟨cells.map Prod.fst, chain, ?_⟩
  exact {
    forward := h.listed.forward
    backward := h.listed.backward
    bucket := hspells
    same a := by
      rw [hcell]
      constructor
      · rintro ⟨e, he⟩
        exact ⟨bucketOf e.sessionId, (hmem _ a).mpr ⟨e, he, rfl⟩⟩
      · rintro ⟨b, hb⟩
        exact ((hmem b a).mp hb).imp fun _ he => he.1
    allocated a := by
      rw [Option.isSome_iff_exists]
      constructor
      · intro ha
        obtain ⟨e, he⟩ := hcell.mp ha
        exact (nodes_of_entryAt (h.entry _ he)).imp fun _ hn => hn.1
      · rintro ⟨n, hn⟩
        exact h.owned a n hn
    home b a ha := by
      obtain ⟨e, he, hb⟩ := (hmem b a).mp ha
      obtain ⟨n, hn, rfl⟩ := nodes_of_entryAt (h.entry _ he)
      exact ⟨n, hn, hb⟩
    unique _ _ _ _ := h.unique
    next a n hn := by
      have ha := h.owned a n hn
      refine ⟨fun b => ?_, ?_⟩
      · rw [hsome Node.lruNext hn, ← view_eq_some]
        exact ⟨h.listed.prev_of_next ha, fun hb => h.listed.next_of_prev (h.mem_of_view hb) hb⟩
      · rw [hsome Node.lruNext hn, h.listed.next_none_iff ha]
    prev a n hn := by
      have ha := h.owned a n hn
      refine ⟨fun b => ?_, ?_⟩
      · rw [hsome Node.lruPrev hn, ← view_eq_some]
        exact ⟨h.listed.next_of_prev ha, fun hb => h.listed.prev_of_next (h.mem_of_view hb) hb⟩
      · rw [hsome Node.lruPrev hn, h.listed.prev_none_iff ha]
    count := by rw [h.count, List.length_map]
    room := by
      rw [List.length_map]
      exact h.room }

/-- The entries that nobody holds and that stand before the last such one were acquired later. -/
theorem Linked.evictsOldest (h : m.Linked cells) (hrecent : Recent hist (Session.ids cells)) (hfuel : maxEntries < fuel) :
    m.EvictsOldest fuel hist := by
  cases evictOneLru_spec h hfuel with
  | evicted after older a e held hcells hun hheld hloop hlink =>
    subst hcells
    rw [List.append_nil] at hlink
    obtain ⟨n, hn, rfl⟩ := h.node
    refine .inl ⟨after, a, n, hloop, hn, hun, fun d => ?_, fun d n' hda hn' hun' => ?_⟩
    · have hnot : ∀ x, (a, x) ∉ older ++ held := fun x hx => h.addr_notMem (by
        rw [← List.map_append]
        exact List.mem_map.mpr ⟨(a, x), hx, rfl⟩)
      refine Option.ext fun x => ?_
      rw [hlink.entryAt_iff]
      by_cases hda : d = a
      · rw [hda, if_pos rfl]
        exact iff_of_false (hnot x) nofun
      · rw [if_neg hda, h.entryAt_iff]
        simp [hda]
    · have horder := hrecent.order
      rw [Session.ids, List.map_append, List.map_cons] at horder
      have hcell := h.cell_of_node hn'
      rw [List.mem_append, List.mem_cons] at hcell
      obtain holder | heq | hin := hcell
      · exact (List.pairwise_append.mp horder).2.2 _ (List.mem_map_of_mem holder) _ List.mem_cons_self
      · exact absurd (Prod.mk.inj heq).1 hda
      · exact absurd hun' (hheld _ hin)
  | full hheld hloop =>
    refine .inr ⟨hloop, fun a n hn => ?_⟩
    exact hheld _ (h.cell_of_node hn)

end Memory

/-- In every state that the calls reach, the table, the list and the counter describe the
same nodes, and making room takes the node that was acquired least recently. -/
theorem registry_represented (fuel : ℕ) (hfuel : maxEntries < fuel) (calls : List Call) :
    ∃ m, runCalls fuel calls = some m ∧ (∃ lru chain, m.Represents lru chain) ∧
      ∀ call : Call, ∃ table, call.table fuel m = some table ∧ table.EvictsOldest fuel (acquisitions fuel calls) := by
  obtain ⟨m, cells, -, hrun, hlink, hrecent, -⟩ := runCalls_linked hfuel calls
  refine ⟨m, hrun, hlink.represents, fun call => ?_⟩
  have hswept (env : HeapEnv) : ∃ table, m.sweepStale fuel sweepScanLimit env.now = some table ∧
      table.EvictsOldest fuel (acquisitions fuel calls) := by
    obtain ⟨table, cells', htable, hlink', hsub, -⟩ := Memory.sweepStale_spec hlink hfuel sweepScanLimit env.now
    have hmoves := hrecent.moves (.stay (ids_sublist hsub)) hlink'.ids
    rw [Option.toList_none, List.append_nil] at hmoves
    exact ⟨table, htable, hlink'.evictsOldest hmoves hfuel⟩
  cases call with
  | acquire id env => exact hswept env
  | acquireExclusive id env => exact hswept env
  | _ => exact ⟨m, rfl, hlink.evictsOldest hrecent hfuel⟩

/-- A heap with room for two nodes. -/
def smallHeap (now : ℤ) : HeapEnv where
  now
  calloc nodes := if (nodes 1).isNone then some 1 else if (nodes 2).isNone then some 2 else none
  calloc_free nodes a h := by
    split at h
    · rename_i hfree
      exact Option.some.inj h ▸ Option.isNone_iff_eq_none.mp hfree
    · split at h
      · rename_i hfree
        exact Option.some.inj h ▸ Option.isNone_iff_eq_none.mp hfree
      · exact absurd h nofun
  ctxOk := true

/-- Two ids of one bucket, the first of which is acquired again. -/
def sharedBucket : List Call :=
  [.acquire 1 (smallHeap 0), .acquireExclusive 1025 (smallHeap 1), .release 1, .acquire 1 (smallHeap 2)]

example : (runCalls 5 sharedBucket).map (fun m => (m.lruHead, m.lruTail, m.entryCount, m.buckets (bucketOf 1))) =
    some (some 1, some 2, 2, some 2) := by rfl

theorem registry_represented_shared_bucket :
    ∃ m, runCalls (maxEntries + 1) sharedBucket = some m ∧ (∃ lru chain, m.Represents lru chain) ∧
      ∀ call : Call, ∃ table, call.table (maxEntries + 1) m = some table ∧
        table.EvictsOldest (maxEntries + 1) (acquisitions (maxEntries + 1) sharedBucket) :=
  registry_represented (maxEntries + 1) (Nat.lt_succ_self _) sharedBucket

end FractalSQL.Session
