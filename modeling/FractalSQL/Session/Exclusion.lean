import FractalSQL.Session.Latch

/-!
# Exclusive use of a search context

Plain and exclusive holders share one entry per session id. The counts of an entry are those
of its holders, an exclusive holder is alone, and the paths that free an entry (the idle
sweep, the eviction, the close) pass over every entry that somebody holds.
-/
namespace FractalSQL.Session

/-- How many holders each session id has: acquires that returned a context and were not
released. -/
structure Holders where
  plain : UInt64 → ℕ := fun _ => 0
  exclusive : UInt64 → ℕ := fun _ => 0

def Holders.total (hs : Holders) (id : UInt64) : ℕ := hs.plain id + hs.exclusive id

/-- Only a current holder releases. -/
def Op.Allowed (hs : Holders) : Op → Prop
  | .release id => 0 < hs.plain id
  | .releaseExclusive id => 0 < hs.exclusive id
  | _ => True

/-- The holders after a call. -/
def Holders.after (hs : Holders) (reg : Registry) : Op → Holders
  | .acquire id env =>
    if (sessionAcquire reg id env).2 then { hs with plain := Function.update hs.plain id (hs.plain id + 1) } else hs
  | .acquireExclusive id env =>
    if (sessionAcquireExclusive reg id env).2 then
      { hs with exclusive := Function.update hs.exclusive id (hs.exclusive id + 1) }
    else hs
  | .release id => { hs with plain := Function.update hs.plain id (hs.plain id - 1) }
  | .releaseExclusive id => { hs with exclusive := Function.update hs.exclusive id (hs.exclusive id - 1) }
  | _ => hs

/-! ### The entries a call frees -/

def sweepDestroyed (reg : Registry) (limit : ℕ) (now : ℤ) : List Entry :=
  (reg.drop (reg.length - limit)).filter fun e => e.unheld ∧ idleTtlSeconds ≤ now - e.lastUsed

def evictDestroyed (reg : Registry) : List Entry := (reg.reverse.find? Entry.unheld).toList

/-- What `find_or_create_entry_locked` frees. -/
def createDestroyed (reg : Registry) (id : UInt64) : List Entry :=
  if (findEntry reg id).isNone ∧ maxEntries ≤ reg.length then evictDestroyed reg else []

/-- The entries passed to `entry_destroy`. -/
def destroyedBy (reg : Registry) : Op → List Entry
  | .acquire id env =>
    let swept := sweepStale reg sweepScanLimit env.now
    sweepDestroyed reg sweepScanLimit env.now ++
      if (findEntry swept id).any Entry.busy then [] else createDestroyed swept id
  | .acquireExclusive id env =>
    let swept := sweepStale reg sweepScanLimit env.now
    sweepDestroyed reg sweepScanLimit env.now ++
      if (findEntry swept id).any fun e => e.busy ∨ 0 < e.shared then [] else createDestroyed swept id
  | .close id => ((findEntry reg id).filter Entry.unheld).toList
  | .setAgentPartial id _ _ => createDestroyed reg id
  | .setDiversifyEnabled id _ _ => createDestroyed reg id
  | _ => []

/-! ### Dropping entries that nobody holds -/

/-- What is left after some entries were freed. -/
structure Drops (reg reg' : Registry) (freed : List Entry) : Prop where
  sub : reg'.Sublist reg
  rest : ∀ e ∈ reg, e ∈ reg' ∨ e ∈ freed
  unheld : ∀ e ∈ freed, e ∈ reg ∧ e.unheld = true

theorem Drops.refl (reg : Registry) : Drops reg reg [] := ⟨.refl reg, fun _ h => .inl h, nofun⟩

theorem Drops.trans {reg reg' reg'' : Registry} {freed freed' : List Entry} (h : Drops reg reg' freed)
    (h' : Drops reg' reg'' freed') : Drops reg reg'' (freed ++ freed') where
  sub := h'.sub.trans h.sub
  rest := by
    intro e he
    rcases h.rest e he with he | he
    · exact (h'.rest e he).imp_right (List.mem_append_right _)
    · exact .inr (List.mem_append_left _ he)
  unheld := by
    intro e he
    rcases List.mem_append.mp he with he | he
    · exact h.unheld e he
    · exact (h'.unheld e he).imp_left fun hmem => h.sub.subset hmem

theorem sweepStale_drops (reg : Registry) (limit : ℕ) (now : ℤ) :
    Drops reg (sweepStale reg limit now) (sweepDestroyed reg limit now) where
  sub := by
    conv_rhs => rw [← List.take_append_drop (reg.length - limit) reg]
    exact List.Sublist.append (.refl _) List.filter_sublist
  rest := by
    intro e he
    rw [← List.take_append_drop (reg.length - limit) reg] at he
    rcases List.mem_append.mp he with he | he
    · exact .inl (List.mem_append_left _ he)
    · by_cases hidle : e.unheld ∧ idleTtlSeconds ≤ now - e.lastUsed
      · exact .inr (List.mem_filter.mpr ⟨he, decide_eq_true hidle⟩)
      · exact .inl (List.mem_append_right _ (List.mem_filter.mpr ⟨he, decide_eq_true hidle⟩))
  unheld := by
    intro e he
    obtain ⟨hmem, hidle⟩ := List.mem_filter.mp he
    exact ⟨List.mem_of_mem_drop hmem, (of_decide_eq_true hidle).1⟩

/-- An entry stays, or is the first one the predicate picks. -/
theorem mem_eraseP_or_find {p : Entry → Bool} {reg : Registry} {e : Entry} (h : e ∈ reg) :
    e ∈ reg.eraseP p ∨ reg.find? p = some e := by
  induction reg with
  | nil => cases h
  | cons a reg ih =>
    by_cases hp : p a = true
    · rw [List.eraseP_cons_of_pos hp, List.find?_cons_of_pos hp]
      rcases List.mem_cons.mp h with rfl | h
      · exact .inr rfl
      · exact .inl h
    · rw [List.eraseP_cons_of_neg hp, List.find?_cons_of_neg hp]
      rcases List.mem_cons.mp h with rfl | h
      · exact .inl (List.mem_cons_self ..)
      · exact (ih h).imp_left (List.mem_cons_of_mem a)

theorem evictOneLru_drops {reg reg' : Registry} (h : evictOneLru reg = some reg') :
    Drops reg reg' (evictDestroyed reg) := by
  rw [evictOneLru] at h
  split_ifs at h
  cases h
  refine ⟨?_, ?_, ?_⟩
  · have := (List.eraseP_sublist (p := Entry.unheld) (l := reg.reverse)).reverse
    rwa [List.reverse_reverse] at this
  · intro e he
    rw [List.mem_reverse]
    refine (mem_eraseP_or_find (List.mem_reverse.mpr he)).imp_right fun hfind => ?_
    rw [evictDestroyed, hfind]
    exact List.mem_singleton.mpr rfl
  · intro e he
    rw [evictDestroyed, Option.mem_toList] at he
    exact ⟨List.mem_reverse.mp (List.mem_of_find?_eq_some he), List.find?_some he⟩

theorem sessionRegistryClose_drops (reg : Registry) (id : UInt64) :
    Drops reg (sessionRegistryClose reg id) (destroyedBy reg (.close id)) := by
  rw [sessionRegistryClose, destroyedBy]
  cases hfind : findEntry reg id with
  | none => exact .refl reg
  | some e =>
    rw [Option.any_some]
    by_cases hunheld : e.unheld = true
    · rw [if_pos hunheld, Option.filter_some_pos hunheld]
      refine ⟨List.eraseP_sublist, ?_, ?_⟩
      · intro e' he'
        refine (mem_eraseP_or_find he').imp_right fun hfind' => ?_
        rw [findEntry] at hfind
        rw [hfind] at hfind'
        cases hfind'
        exact List.mem_singleton.mpr rfl
      · intro e' he'
        rw [List.mem_singleton.mp he']
        exact ⟨List.mem_of_find?_eq_some hfind, hunheld⟩
    · rw [if_neg hunheld, Option.filter_some_neg (Bool.eq_false_iff.mpr hunheld)]
      exact .refl reg

/-! ### The counts -/

/-- The counts of an entry are those of its holders. -/
structure Holders.Counts (hs : Holders) (e : Entry) : Prop where
  refcount : e.refcount = hs.plain e.sessionId + hs.exclusive e.sessionId
  shared : e.shared = hs.plain e.sessionId
  busy : e.busy = true ↔ 0 < hs.exclusive e.sessionId

theorem Holders.Counts.touch {hs : Holders} {e : Entry} (h : hs.Counts e) (now : ℤ) :
    hs.Counts { e with lastUsed := now } := ⟨h.refcount, h.shared, h.busy⟩

/-- One entry for each id that has holders, with a context and the right counts, and an
exclusive holder is the only one. -/
structure Held (reg : Registry) (hs : Holders) : Prop where
  distinct : (reg.map Entry.sessionId).Nodup
  counts : ∀ e ∈ reg, hs.Counts e
  alone (id : UInt64) : 0 < hs.exclusive id → hs.exclusive id = 1 ∧ hs.plain id = 0
  present (id : UInt64) : 0 < hs.total id → ∃ e ∈ reg, e.sessionId = id ∧ e.hasCtx = true

section Held
variable {reg : Registry} {hs : Holders}

theorem Held.empty : Held [] {} where
  distinct := .nil
  counts := nofun
  alone _ h := absurd h (Nat.lt_irrefl 0)
  present _ h := absurd h (Nat.lt_irrefl 0)

theorem Held.eq_of_id (h : Held reg hs) {e e' : Entry} (he : e ∈ reg) (he' : e' ∈ reg)
    (hid : e.sessionId = e'.sessionId) : e = e' := List.inj_on_of_nodup_map h.distinct he he' hid

/-- Nobody holds an entry that passes for unheld. -/
theorem Held.total_eq_zero (h : Held reg hs) {e : Entry} (he : e ∈ reg) (hun : e.unheld = true) :
    hs.total e.sessionId = 0 := by
  rw [Holders.total, ← (h.counts e he).refcount]
  exact (of_decide_eq_true hun).1

theorem Held.drops (h : Held reg hs) {reg' : Registry} {freed : List Entry} (hd : Drops reg reg' freed) :
    Held reg' hs where
  distinct := h.distinct.sublist (hd.sub.map Entry.sessionId)
  counts e he := h.counts e (hd.sub.subset he)
  alone := h.alone
  present := by
    intro id hpos
    obtain ⟨e, he, rfl, hctx⟩ := h.present id hpos
    rcases hd.rest e he with he' | hfreed
    · exact ⟨e, he', rfl, hctx⟩
    · rw [h.total_eq_zero he (hd.unheld e hfreed).2] at hpos
      cases hpos

/-- The holders of the other ids stay. -/
structure Holders.SameBut (hs hs' : Holders) (id : UInt64) : Prop where
  plain (j : UInt64) : j ≠ id → hs'.plain j = hs.plain j
  exclusive (j : UInt64) : j ≠ id → hs'.exclusive j = hs.exclusive j

theorem modifyEntry_ids {id : UInt64} {f : Entry → Entry} (hid : ∀ e, (f e).sessionId = e.sessionId) :
    (modifyEntry reg id f).map Entry.sessionId = reg.map Entry.sessionId := by
  rw [modifyEntry, List.map_map]
  refine List.map_congr_left fun e _ => ?_
  rw [Function.comp_apply]
  split_ifs
  · exact hid e
  · rfl

/-- A change of one entry, together with the holders of its id. -/
theorem Held.modify (h : Held reg hs) {hs' : Holders} {id : UInt64} {f : Entry → Entry}
    (hid : ∀ e, (f e).sessionId = e.sessionId) (hother : hs.SameBut hs' id)
    (hcounts : ∀ e ∈ reg, e.sessionId = id → hs'.Counts (f e))
    (halone : 0 < hs'.exclusive id → hs'.exclusive id = 1 ∧ hs'.plain id = 0)
    (hctx : 0 < hs'.total id → ∃ e ∈ reg, e.sessionId = id ∧ (f e).hasCtx = true) :
    Held (modifyEntry reg id f) hs' where
  distinct := by
    rw [modifyEntry_ids hid]
    exact h.distinct
  counts := by
    intro e' he'
    obtain ⟨e, he, rfl⟩ := List.mem_map.mp he'
    split_ifs with heq
    · exact hcounts e he heq
    · obtain ⟨hrefcount, hshared, hbusy⟩ := h.counts e he
      rw [← hother.plain _ heq, ← hother.exclusive _ heq] at hrefcount
      rw [← hother.plain _ heq] at hshared
      rw [← hother.exclusive _ heq] at hbusy
      exact ⟨hrefcount, hshared, hbusy⟩
  alone := by
    intro j hj
    by_cases heq : j = id
    · subst heq
      exact halone hj
    · rw [hother.exclusive j heq] at hj ⊢
      rw [hother.plain j heq]
      exact h.alone j hj
  present := by
    intro j hj
    by_cases heq : j = id
    · subst heq
      obtain ⟨e, he, rfl, hf⟩ := hctx hj
      exact ⟨f e, List.mem_map.mpr ⟨e, he, if_pos rfl⟩, hid e, hf⟩
    · rw [Holders.total, hother.plain j heq, hother.exclusive j heq] at hj
      obtain ⟨e, he, rfl, hctx'⟩ := h.present j hj
      exact ⟨e, List.mem_map.mpr ⟨e, he, if_neg heq⟩, rfl, hctx'⟩

theorem findEntry_some {id : UInt64} {e : Entry} (h : findEntry reg id = some e) : e ∈ reg ∧ e.sessionId = id :=
  ⟨List.mem_of_find?_eq_some h, by simpa using List.find?_some h⟩

theorem findEntry_none {id : UInt64} (h : findEntry reg id = none) : ∀ e ∈ reg, e.sessionId ≠ id := by
  simpa [findEntry] using h

theorem Held.findEntry_eq (h : Held reg hs) {e : Entry} (he : e ∈ reg) : findEntry reg e.sessionId = some e := by
  cases hfind : findEntry reg e.sessionId with
  | none => exact absurd rfl (findEntry_none hfind e he)
  | some e' =>
    obtain ⟨he', hid⟩ := findEntry_some hfind
    rw [h.eq_of_id he' he hid]

end Held

/-! ### The entry in front -/

/-- A call that freed some entries, with the holders after it. -/
structure Steps (reg reg' : Registry) (freed : List Entry) (hs : Holders) : Prop where
  held : Held reg' hs
  rest : ∀ e ∈ reg, e.sessionId ∈ reg'.map Entry.sessionId ∨ e ∈ freed
  unheld : ∀ e ∈ freed, e ∈ reg ∧ e.unheld = true

section Create
variable {reg : Registry} {hs : Holders} {id : UInt64} {env : CallEnv}

theorem Drops.steps {reg' : Registry} {freed : List Entry} (hd : Drops reg reg' freed) (h : Held reg hs) :
    Steps reg reg' freed hs where
  held := h.drops hd
  rest e he := (hd.rest e he).imp_left List.mem_map_of_mem
  unheld := hd.unheld

theorem Drops.trans_steps {reg' reg'' : Registry} {freed freed' : List Entry} (hd : Drops reg reg' freed)
    (hsteps : Steps reg' reg'' freed' hs) : Steps reg reg'' (freed ++ freed') hs where
  held := hsteps.held
  rest := by
    intro e he
    rcases hd.rest e he with he | he
    · exact (hsteps.rest e he).imp_right (List.mem_append_right _)
    · exact .inr (List.mem_append_left _ he)
  unheld := by
    intro e he
    rcases List.mem_append.mp he with he | he
    · exact hd.unheld e he
    · exact (hsteps.unheld e he).imp_left fun hmem => hd.sub.subset hmem

theorem Steps.modify {reg' : Registry} {freed : List Entry} {hs' : Holders} (h : Steps reg reg' freed hs)
    {f : Entry → Entry} (hid : ∀ e, (f e).sessionId = e.sessionId) (hheld : Held (modifyEntry reg' id f) hs') :
    Steps reg (modifyEntry reg' id f) freed hs' where
  held := hheld
  rest e he := by
    rw [modifyEntry_ids hid]
    exact h.rest e he
  unheld := h.unheld

/-- The entry that was found goes to the front. -/
theorem cons_eraseP_perm {p : Entry → Bool} {e : Entry} (h : reg.find? p = some e) : (e :: reg.eraseP p).Perm reg := by
  induction reg with
  | nil => cases h
  | cons a reg ih =>
    by_cases hp : p a = true
    · rw [List.find?_cons_of_pos hp] at h
      cases h
      rw [List.eraseP_cons_of_pos hp]
    · rw [List.find?_cons_of_neg hp] at h
      rw [List.eraseP_cons_of_neg hp]
      exact (List.Perm.swap a e _).trans ((ih h).cons a)

theorem Held.perm {reg' : Registry} (h : Held reg hs) (hp : reg'.Perm reg) : Held reg' hs where
  distinct := (hp.map Entry.sessionId).nodup_iff.mpr h.distinct
  counts e he := h.counts e (hp.subset he)
  alone := h.alone
  present j hj := by
    obtain ⟨e, he, hid, hctx⟩ := h.present j hj
    exact ⟨e, hp.symm.subset he, hid, hctx⟩

theorem Held.total_none (h : Held reg hs) (hfind : findEntry reg id = none) : hs.total id = 0 := by
  refine Nat.eq_zero_of_not_pos fun hpos => ?_
  obtain ⟨e, he, hid, -⟩ := h.present id hpos
  exact findEntry_none hfind e he hid

/-- A new entry has no holders. -/
theorem Held.cons (h : Held reg hs) (hfind : findEntry reg id = none) (now : ℤ) :
    Held ({ sessionId := id, lastUsed := now } :: reg) hs where
  distinct := by
    refine List.nodup_cons.mpr ⟨?_, h.distinct⟩
    rintro hmem
    obtain ⟨e, he, hid⟩ := List.mem_map.mp hmem
    exact findEntry_none hfind e he hid
  counts := by
    have hzero := h.total_none hfind
    rw [Holders.total] at hzero
    rintro e (_ | ⟨_, he⟩)
    · refine ⟨?_, ?_, ?_⟩
      · exact hzero.symm
      · change 0 = hs.plain id
        omega
      · change false = true ↔ 0 < hs.exclusive id
        exact iff_of_false nofun (by omega)
    · exact h.counts e he
  alone := h.alone
  present j hj := by
    obtain ⟨e, he, hid, hctx⟩ := h.present j hj
    exact ⟨e, List.mem_cons_of_mem _ he, hid, hctx⟩

/-- `find_or_create_entry_locked` holds the entry once more. -/
def Entry.bump (e : Entry) (now : ℤ) : Entry := { e with refcount := e.refcount + 1, lastUsed := now }

theorem createDestroyed_found {e : Entry} (hfind : findEntry reg id = some e) : createDestroyed reg id = [] := by
  rw [createDestroyed, hfind]
  exact if_neg fun h => by simp at h

theorem createDestroyed_room (hroom : ¬ maxEntries ≤ reg.length) : createDestroyed reg id = [] :=
  if_neg fun h => hroom h.2

theorem createDestroyed_full (hfind : findEntry reg id = none) (hfull : maxEntries ≤ reg.length) :
    createDestroyed reg id = evictDestroyed reg := if_pos ⟨by rw [hfind]; rfl, hfull⟩

/-- Nothing is left of an entry, or it stands in front, held once more. -/
theorem findOrCreateEntry_cases (h : Held reg hs) (id : UInt64) (env : CallEnv) :
    (∃ reg', findOrCreateEntry reg id env = (reg', none) ∧ Steps reg reg' (createDestroyed reg id) hs) ∨
      ∃ e rest, findOrCreateEntry reg id env = (e.bump env.now :: rest, some (e.bump env.now)) ∧ e.sessionId = id ∧
        Steps reg (e :: rest) (createDestroyed reg id) hs := by
  rw [findOrCreateEntry]
  cases hfind : findEntry reg id with
  | some e =>
    have hperm : (e :: removeEntry reg id).Perm reg := cons_eraseP_perm hfind
    rw [createDestroyed_found hfind]
    refine .inr ⟨e, removeEntry reg id, rfl, (findEntry_some hfind).2, h.perm hperm, ?_, nofun⟩
    exact fun e' he' => .inl (List.mem_map_of_mem (hperm.symm.subset he'))
  | none =>
    have hcreate {reg' : Registry} (hd : Drops reg reg' (createDestroyed reg id)) :
        Steps reg ({ sessionId := id, lastUsed := env.now } :: reg') (createDestroyed reg id) hs := by
      have hfind' : findEntry reg' id = none := by
        rw [findEntry, List.find?_eq_none] at hfind ⊢
        exact fun e he => hfind e (hd.sub.subset he)
      refine ⟨(h.drops hd).cons hfind' env.now, ?_, hd.unheld⟩
      exact fun e he => (hd.rest e he).imp_left fun hmem => List.mem_map_of_mem (List.mem_cons_of_mem _ hmem)
    dsimp only
    by_cases hfull : maxEntries ≤ reg.length
    · rw [if_pos hfull]
      rw [createDestroyed_full hfind hfull] at hcreate ⊢
      cases hevict : evictOneLru reg with
      | none =>
        have hnone : evictDestroyed reg = [] := by
          rw [evictOneLru] at hevict
          split_ifs at hevict with hany
          rw [evictDestroyed, List.find?_eq_none.mpr]
          · rfl
          · intro e he hun
            exact hany (List.any_eq_true.mpr ⟨e, List.mem_reverse.mp he, hun⟩)
        rw [hnone]
        exact .inl ⟨reg, rfl, (Drops.refl reg).steps h⟩
      | some reg' =>
        have hd := evictOneLru_drops hevict
        dsimp only
        split_ifs
        · exact .inr ⟨_, reg', rfl, rfl, hcreate hd⟩
        · exact .inl ⟨reg', rfl, hd.steps h⟩
    · rw [if_neg hfull]
      rw [createDestroyed_room hfull] at hcreate ⊢
      split_ifs
      · exact .inr ⟨_, reg, rfl, rfl, hcreate (.refl reg)⟩
      · exact .inl ⟨reg, rfl, (Drops.refl reg).steps h⟩

end Create

/-! ### The calls -/

section Calls
variable {reg : Registry} {hs : Holders} {id : UInt64} {env : CallEnv}

theorem Holders.SameBut.refl (hs : Holders) (id : UInt64) : hs.SameBut hs id := ⟨fun _ _ => rfl, fun _ _ => rfl⟩

theorem modifyEntry_front {e : Entry} {rest : Registry} {hs : Holders} (h : Held (e :: rest) hs)
    (hid : e.sessionId = id) (f : Entry → Entry) (e' : Entry) (hid' : e'.sessionId = id) :
    modifyEntry (e' :: rest) id f = f e' :: rest := by
  have hrest : modifyEntry rest id f = rest := by
    rw [modifyEntry]
    conv_rhs => rw [← List.map_id rest]
    refine List.map_congr_left fun a ha => if_neg fun heq => ?_
    refine (List.nodup_cons.mp h.distinct).1 ?_
    rw [hid, ← heq]
    exact List.mem_map_of_mem ha
  rw [modifyEntry, List.map_cons, if_pos hid']
  exact congrArg (f e' :: ·) hrest

/-- The context is handed out with one holder more, or the hold is given back. -/
theorem withCtx_steps {e : Entry} {rest : Registry} {freed : List Entry} (h : Steps reg (e :: rest) freed hs)
    (hid : e.sessionId = id) (env : CallEnv) {hold : Entry → Entry} {hs' : Holders}
    (hhold : ∀ e, (hold e).sessionId = e.sessionId ∧ (hold e).hasCtx = e.hasCtx) (hother : hs.SameBut hs' id)
    (hcounts : hs'.Counts (hold { e.bump env.now with hasCtx := true }))
    (halone : 0 < hs'.exclusive id → hs'.exclusive id = 1 ∧ hs'.plain id = 0) :
    Steps reg (withCtx (e.bump env.now :: rest) (e.bump env.now) env hold).1 freed
      (if (withCtx (e.bump env.now :: rest) (e.bump env.now) env hold).2 then hs' else hs) := by
  have hfront := modifyEntry_front h.held hid
  have honly : ∀ e' ∈ e :: rest, e'.sessionId = id → e' = e := fun e' he' heq =>
    h.held.eq_of_id he' (List.mem_cons_self ..) (heq.trans hid.symm)
  rw [withCtx]
  by_cases hctx : (e.bump env.now).hasCtx = true ∨ env.ctxOk = true
  · rw [if_pos hctx]
    dsimp only
    rw [if_pos rfl]
    have hmodify := h.modify (f := fun e => hold { e.bump env.now with hasCtx := true })
      (fun e => (hhold _).1) (h.held.modify (fun e => (hhold _).1) hother (fun e' he' heq => honly e' he' heq ▸ hcounts)
        halone fun _ => ⟨e, List.mem_cons_self .., hid, (hhold _).2⟩)
    rw [hfront _ _ hid] at hmodify
    rwa [show (e.bump env.now).sessionId = id from hid, hfront _ (e.bump env.now) hid]
  · rw [if_neg hctx]
    dsimp only
    rw [if_neg Bool.false_ne_true]
    have hmodify := h.modify (f := fun e => { e with lastUsed := env.now }) (fun _ => rfl)
      (h.held.modify (fun _ => rfl) (.refl hs id) (fun e' he' _ => (h.held.counts e' he').touch env.now) (h.held.alone id)
        fun hpos => h.held.present id hpos)
    rw [hfront _ _ hid] at hmodify
    rw [show (e.bump env.now).sessionId = id from hid, hfront _ (e.bump env.now) hid]
    exact hmodify

theorem Held.exclusive_eq_zero (h : Held reg hs) (hfree : (findEntry reg id).any Entry.busy = false) :
    hs.exclusive id = 0 := by
  refine Nat.eq_zero_of_not_pos fun hpos => ?_
  obtain ⟨e, he, rfl, -⟩ := h.present id (by rw [Holders.total]; omega)
  rw [h.findEntry_eq he, Option.any_some, (h.counts e he).busy.mpr hpos] at hfree
  cases hfree

theorem Held.total_eq_zero_of_free (h : Held reg hs)
    (hfree : ((findEntry reg id).any fun e => e.busy ∨ 0 < e.shared) = false) : hs.total id = 0 := by
  refine Nat.eq_zero_of_not_pos fun hpos => ?_
  obtain ⟨e, he, rfl, -⟩ := h.present id hpos
  rw [h.findEntry_eq he, Option.any_some, decide_eq_false_iff_not, not_or, (h.counts e he).busy,
    (h.counts e he).shared] at hfree
  rw [Holders.total] at hpos
  omega

theorem Holders.SameBut.plain_update (hs : Holders) (id : UInt64) (n : ℕ) :
    hs.SameBut { hs with plain := Function.update hs.plain id n } id :=
  ⟨fun _ hne => Function.update_of_ne hne _ _, fun _ _ => rfl⟩

theorem Holders.SameBut.exclusive_update (hs : Holders) (id : UInt64) (n : ℕ) :
    hs.SameBut { hs with exclusive := Function.update hs.exclusive id n } id :=
  ⟨fun _ _ => rfl, fun _ hne => Function.update_of_ne hne _ _⟩

theorem acquire_steps (h : Held reg hs) (id : UInt64) (env : CallEnv) :
    Steps reg (sessionAcquire reg id env).1 (destroyedBy reg (.acquire id env)) (hs.after reg (.acquire id env)) := by
  have hd := sweepStale_drops reg sweepScanLimit env.now
  have hswept := h.drops hd
  rw [Holders.after, destroyedBy, sessionAcquire]
  by_cases hbusy : (findEntry (sweepStale reg sweepScanLimit env.now) id).any Entry.busy = true
  · rw [if_pos hbusy, if_pos hbusy, List.append_nil]
    exact hd.steps h
  · rw [if_neg hbusy, if_neg hbusy]
    refine hd.trans_steps ?_
    have hexclusive := hswept.exclusive_eq_zero (Bool.eq_false_iff.mpr hbusy)
    rcases findOrCreateEntry_cases hswept id env with ⟨reg', hcreate, hsteps⟩ | ⟨e, rest, hcreate, hid, hsteps⟩
    · rw [hcreate]
      exact hsteps
    · rw [hcreate]
      obtain ⟨hrefcount, hshared, hbusy⟩ := hsteps.held.counts e (List.mem_cons_self ..)
      rw [hid] at hrefcount hshared hbusy
      refine withCtx_steps hsteps hid env (fun _ => ⟨rfl, rfl⟩) (.plain_update hs id _) ⟨?_, ?_, ?_⟩ ?_
      · simp only [Entry.bump, hid, hrefcount, Function.update_self]
        omega
      · simp only [Entry.bump, hid, hshared, Function.update_self]
      · simp only [Entry.bump, hid, hbusy]
      · intro hpos
        rw [hexclusive] at hpos
        cases hpos

theorem acquireExclusive_steps (h : Held reg hs) (id : UInt64) (env : CallEnv) :
    Steps reg (sessionAcquireExclusive reg id env).1 (destroyedBy reg (.acquireExclusive id env))
      (hs.after reg (.acquireExclusive id env)) := by
  have hd := sweepStale_drops reg sweepScanLimit env.now
  have hswept := h.drops hd
  rw [Holders.after, destroyedBy, sessionAcquireExclusive]
  by_cases hbusy : ((findEntry (sweepStale reg sweepScanLimit env.now) id).any fun e => e.busy ∨ 0 < e.shared) = true
  · rw [if_pos hbusy, if_pos hbusy, List.append_nil]
    exact hd.steps h
  · rw [if_neg hbusy, if_neg hbusy]
    refine hd.trans_steps ?_
    have hfree := hswept.total_eq_zero_of_free (Bool.eq_false_iff.mpr hbusy)
    rw [Holders.total] at hfree
    rcases findOrCreateEntry_cases hswept id env with ⟨reg', hcreate, hsteps⟩ | ⟨e, rest, hcreate, hid, hsteps⟩
    · rw [hcreate]
      exact hsteps
    · rw [hcreate]
      obtain ⟨hrefcount, hshared, -⟩ := hsteps.held.counts e (List.mem_cons_self ..)
      rw [hid] at hrefcount hshared
      refine withCtx_steps hsteps hid env (fun _ => ⟨rfl, rfl⟩) (.exclusive_update hs id _) ⟨?_, ?_, ?_⟩ ?_
      · simp only [Entry.bump, hid, hrefcount, Function.update_self]
        omega
      · simp only [Entry.bump, hid, hshared]
      · simp only [Entry.bump, hid, Function.update_self]
        exact iff_of_true trivial (Nat.succ_pos _)
      · intro _
        simp only [Function.update_self]
        omega

/-- A release by a current holder. -/
theorem release_steps (h : Held reg hs) (hpos : 0 < hs.plain id) :
    Steps reg (sessionRelease reg id) [] (hs.after reg (.release id)) := by
  rw [Holders.after]
  refine ((Drops.refl reg).steps h).modify (fun _ => rfl) (h.modify (fun _ => rfl) (.plain_update hs id _) ?_ ?_ ?_)
  · intro e he hid
    obtain ⟨hrefcount, hshared, hbusy⟩ := h.counts e he
    rw [hid] at hrefcount hshared hbusy
    refine ⟨?_, ?_, ?_⟩
    · simp only [hid, hrefcount, Function.update_self]
      omega
    · simp only [hid, hshared, Function.update_self]
    · simp only [hid, hbusy]
  · intro hexclusive
    have := (h.alone id hexclusive).2
    omega
  · intro _
    exact h.present id (by rw [Holders.total]; omega)

theorem releaseExclusive_steps (h : Held reg hs) (hpos : 0 < hs.exclusive id) :
    Steps reg (sessionReleaseExclusive reg id) [] (hs.after reg (.releaseExclusive id)) := by
  obtain ⟨hone, hplain⟩ := h.alone id hpos
  rw [Holders.after]
  refine ((Drops.refl reg).steps h).modify (fun _ => rfl) (h.modify (fun _ => rfl) (.exclusive_update hs id _) ?_ ?_ ?_)
  · intro e he hid
    obtain ⟨hrefcount, hshared, -⟩ := h.counts e he
    rw [hid] at hrefcount hshared
    refine ⟨?_, ?_, ?_⟩
    · simp only [hid, hrefcount, Function.update_self]
      omega
    · simp only [hid, hshared]
    · simp only [hid, Function.update_self, hone]
      exact iff_of_false nofun nofun
  · intro hexclusive
    simp only [Function.update_self, hone] at hexclusive
    cases hexclusive
  · intro _
    exact h.present id (by rw [Holders.total]; omega)

/-- A flag is set on an entry that is not held for it. -/
theorem setFlag_steps (h : Held reg hs) (id : UInt64) (env : CallEnv) {set : Entry → Entry}
    (hid : ∀ e, (set e).sessionId = e.sessionId) (hset : ∀ e, hs.Counts e → hs.Counts (set e))
    (hctx : ∀ e, (set e).hasCtx = e.hasCtx) :
    Steps reg (setFlag reg id env set) (createDestroyed reg id) hs := by
  have hmodify {reg' : Registry} {freed : List Entry} (hsteps : Steps reg reg' freed hs) {f : Entry → Entry}
      (hf : ∀ e, (f e).sessionId = e.sessionId) (hcounts : ∀ e, hs.Counts e → hs.Counts (f e))
      (hctx : ∀ e, (f e).hasCtx = e.hasCtx) : Steps reg (modifyEntry reg' id f) freed hs := by
    refine hsteps.modify hf (hsteps.held.modify hf (.refl hs id) (fun e he _ => hcounts e (hsteps.held.counts e he))
      (hsteps.held.alone id) fun hpos => ?_)
    obtain ⟨e, he, hid, hctx'⟩ := hsteps.held.present id hpos
    exact ⟨e, he, hid, (hctx e).trans hctx'⟩
  rw [setFlag]
  cases hfind : findEntry reg id with
  | some e =>
    rw [createDestroyed_found hfind]
    exact hmodify ((Drops.refl reg).steps h) hid hset hctx
  | none =>
    dsimp only
    rcases findOrCreateEntry_cases h id env with ⟨reg', hcreate, hsteps⟩ | ⟨e, rest, hcreate, hid', hsteps⟩
    · rw [hcreate]
      exact hsteps
    · rw [hcreate]
      have hfront := modifyEntry_front hsteps.held hid'
      have := hmodify hsteps (f := fun e => set { e with lastUsed := env.now }) (fun e => hid _)
        (fun e he => hset _ (he.touch env.now)) fun e => hctx _
      rw [hfront _ e hid'] at this
      dsimp only
      rw [hfront _ (e.bump env.now) hid']
      exact this

end Calls

/-! ### Runs -/

theorem step_steps {p : Process} {hs : Holders} (h : Held p.registry hs) {op : Op} (hop : op.Allowed hs) :
    Steps p.registry (p.step op).registry (destroyedBy p.registry op) (hs.after p.registry op) := by
  cases op with
  | lockDestructive id => cases id <;> exact (Drops.refl _).steps h
  | acquire id env => exact acquire_steps h id env
  | acquireExclusive id env => exact acquireExclusive_steps h id env
  | release id => exact release_steps h hop
  | releaseExclusive id => exact releaseExclusive_steps h hop
  | close id => exact (sessionRegistryClose_drops _ id).steps h
  | setAgentPartial id on env =>
    exact setFlag_steps h id env (fun _ => rfl) (fun _ hc => ⟨hc.refcount, hc.shared, hc.busy⟩) fun _ => rfl
  | setDiversifyEnabled id on env =>
    exact setFlag_steps h id env (fun _ => rfl) (fun _ hc => ⟨hc.refcount, hc.shared, hc.busy⟩) fun _ => rfl

/-- The states of the calls of a process in which only current holders release. -/
inductive Reached : Process → Holders → Prop
  | start : Reached {} {}
  | step {p : Process} {hs : Holders} {op : Op} (h : Reached p hs) (hop : op.Allowed hs) :
    Reached (p.step op) (hs.after p.registry op)

theorem Reached.held {p : Process} {hs : Holders} (h : Reached p hs) : Held p.registry hs := by
  induction h with
  | start => exact .empty
  | step _ hop ih => exact (step_steps ih hop).held

/-- In every state the counts of an entry are those of its holders, an exclusive holder is
alone, and the next call frees no entry that somebody holds. -/
theorem search_context_exclusion {p : Process} {hs : Holders} (h : Reached p hs) :
    (∀ e ∈ p.registry, e.refcount = hs.plain e.sessionId + hs.exclusive e.sessionId ∧
        e.shared = hs.plain e.sessionId ∧ (e.busy = true ↔ 0 < hs.exclusive e.sessionId)) ∧
      (∀ id, 0 < hs.exclusive id → hs.exclusive id = 1 ∧ hs.plain id = 0) ∧
      (∀ id, 0 < hs.total id → ∃ e, findEntry p.registry id = some e ∧ e.hasCtx = true) ∧
      ∀ op : Op, op.Allowed hs →
        (∀ e ∈ destroyedBy p.registry op, e ∈ p.registry ∧ hs.total e.sessionId = 0) ∧
          ∀ e ∈ p.registry, e.sessionId ∈ (p.step op).registry.map Entry.sessionId ∨ e ∈ destroyedBy p.registry op := by
  have hheld := h.held
  refine ⟨?_, hheld.alone, ?_, ?_⟩
  · intro e he
    obtain ⟨hrefcount, hshared, hbusy⟩ := hheld.counts e he
    exact ⟨hrefcount, hshared, hbusy⟩
  · intro id hpos
    obtain ⟨e, he, rfl, hctx⟩ := hheld.present id hpos
    exact ⟨e, hheld.findEntry_eq he, hctx⟩
  · intro op hop
    have hsteps := step_steps hheld hop
    refine ⟨?_, hsteps.rest⟩
    intro e he
    obtain ⟨hmem, hun⟩ := hsteps.unheld e he
    exact ⟨hmem, hheld.total_eq_zero hmem hun⟩

/-- A search that is still running while a second connection asks for the same session. -/
theorem search_context_exclusion_search :
    ((Process.step {} (.acquireExclusive 7 ⟨0, true, true⟩)).step (.acquire 7 ⟨0, true, true⟩)).registry ≠ [] ∧
    ∀ e ∈ ((Process.step {} (.acquireExclusive 7 ⟨0, true, true⟩)).step (.acquire 7 ⟨0, true, true⟩)).registry,
      e.busy = true ∧ e.shared = 0 := by
  have hreached : Reached (((Process.step {} (.acquireExclusive 7 ⟨0, true, true⟩)).step (.acquire 7 ⟨0, true, true⟩)))
      _ := .step (.step .start trivial) trivial
  obtain ⟨hcounts, -, -, -⟩ := search_context_exclusion hreached
  refine ⟨List.cons_ne_nil (⟨7, true, 1, false, false, true, 0, 0⟩ : Entry) [], fun e he => ?_⟩
  obtain ⟨-, hshared, hbusy⟩ := hcounts e he
  have hid : e.sessionId = 7 := by
    have hone : e ∈ [(⟨7, true, 1, false, false, true, 0, 0⟩ : Entry)] := he
    rw [List.mem_singleton.mp hone]
  rw [hid] at hshared hbusy
  exact ⟨hbusy.mpr (by decide), hshared⟩

end FractalSQL.Session
