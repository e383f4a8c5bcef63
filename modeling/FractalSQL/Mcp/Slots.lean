import FractalSQL.Mcp.Concurrency

/-!
# Slots are conserved

What each critical section gives to one token or takes from it, and the counts that hold
in every interleaving of them.
-/
namespace FractalSQL.Mcp.Gate
open Lib

variable {cfg : ConcurrencyConfig}

/-- The token whose content a release in progress is to make room for. -/
def Op.takes : Op → Option ℕ
  | .dropClient (.takes src) | .dropGlobal (.takes src) | .clear (.takes src) => some src
  | _ => none

/-- The flags agree with the code a token is in. -/
def Token.Ok (t : Token) : Prop :=
  match t.op with
  | .idle | .lent _ => t.mgr = true → t.heldGlobal = true ∧ (t.heldClient = true ↔ t.cls = .expensive)
  | .slot => t.mgr = true ∧ t.cls = .expensive ∧ t.heldGlobal = false ∧ t.heldClient = false
  | .wait => t.mgr = true ∧ t.heldGlobal = false ∧ (t.heldClient = true ↔ t.cls = .expensive)
  | .rollback => t.mgr = true ∧ t.heldGlobal = false ∧ t.heldClient = true
  | _ => True

structure Inv (cfg : ConcurrencyConfig) (s : State) : Prop where
  global : ∀ cls, s.tokens.countP (Token.holdsGlobal cls) = s.inUse cls
  limit : ∀ cls, s.inUse cls ≤ cfg.limit cls
  client : ∀ k, s.tokens.countP (Token.holdsClient k) = (s.clientCounts k).getD 0
  perClient : ∀ k, (s.clientCounts k).getD 0 ≤ cfg.expensivePerClient
  positive : ∀ k, s.clientCounts k ≠ some 0
  ok : ∀ t ∈ s.tokens, t.Ok
  lent : ∀ (n : ℕ) (t : Token) (src : ℕ), s.tokens[n]? = some t → t.op.takes = some src →
    src = n ∨ ∃ o, s.tokens[src]? = some o ∧ o.op = .lent n

/-! ### One token changes -/

theorem Inv.put {s : State} (h : Inv cfg s) {n : ℕ} {t t' : Token} {inUse : ToolClass → ℕ}
    {counts : Bytes → Option ℕ} (ht : s.tokens[n]? = some t)
    (hglobal : ∀ cls, inUse cls + (t.holdsGlobal cls).toNat = s.inUse cls + (t'.holdsGlobal cls).toNat)
    (hlimit : ∀ cls, inUse cls ≤ cfg.limit cls)
    (hclient : ∀ k, (counts k).getD 0 + (t.holdsClient k).toNat =
      (s.clientCounts k).getD 0 + (t'.holdsClient k).toNat)
    (hper : ∀ k, (counts k).getD 0 ≤ cfg.expensivePerClient) (hpos : ∀ k, counts k ≠ some 0) (hok : t'.Ok)
    (htakes : ∀ src, t'.op.takes = some src → src = n ∨ ∃ o, s.tokens[src]? = some o ∧ o.op = .lent n)
    (hlent : ∀ d, t.op = .lent d → d = n ∨ t'.op = .lent d) :
    Inv cfg ⟨inUse, counts, s.tokens.set n t'⟩ := by
  refine ⟨fun cls => ?_, hlimit, fun k => ?_, hper, hpos, fun u hu => ?_, fun m u src hu hsrc => ?_⟩
  · have hset := countP_set_add ht (Token.holdsGlobal cls) t'
    have hold := h.global cls
    have hnew := hglobal cls
    change (s.tokens.set n t').countP _ = inUse cls
    omega
  · have hset := countP_set_add ht (Token.holdsClient k) t'
    have hold := h.client k
    have hnew := hclient k
    change (s.tokens.set n t').countP _ = (counts k).getD 0
    omega
  · obtain hu | rfl := mem_of_mem_set hu
    · exact h.ok u hu
    · exact hok
  · change (s.tokens.set n t')[m]? = some u at hu
    have hget : ∀ i, i ≠ n → (s.tokens.set n t')[i]? = s.tokens[i]? := fun i hi => List.getElem?_set_ne (Ne.symm hi)
    have hself : (s.tokens.set n t')[n]? = some t' := getElem?_set_same ht _
    by_cases hmn : m = n
    · subst hmn
      cases hself.symm.trans hu
      obtain hsame | ⟨o, ho, hop⟩ := htakes src hsrc
      · exact .inl hsame
      · by_cases hs : src = m
        · exact .inl hs
        · exact .inr ⟨o, (hget src hs).trans ho, hop⟩
    · rw [hget m hmn] at hu
      obtain hsame | ⟨o, ho, hop⟩ := h.lent m u src hu hsrc
      · exact .inl hsame
      · by_cases hs : src = n
        · subst hs
          cases ht.symm.trans ho
          obtain hd | hd := hlent m hop
          · exact absurd hd hmn
          · exact .inr ⟨t', hself, hd⟩
        · exact .inr ⟨o, (hget src hs).trans ho, hop⟩

/-- A token moves on and keeps what it holds. -/
theorem Inv.move {s : State} (h : Inv cfg s) {n : ℕ} {t t' : Token} (ht : s.tokens[n]? = some t)
    (hglobal : ∀ cls, t.holdsGlobal cls = t'.holdsGlobal cls) (hclient : ∀ k, t.holdsClient k = t'.holdsClient k)
    (hok : t'.Ok)
    (htakes : ∀ src, t'.op.takes = some src → src = n ∨ ∃ o, s.tokens[src]? = some o ∧ o.op = .lent n)
    (hlent : ∀ d, t.op = .lent d → d = n ∨ t'.op = .lent d) : Inv cfg (s.put n t') :=
  h.put ht (fun cls => by rw [hglobal cls]) h.limit (fun k => by rw [hclient k]) h.perClient h.positive hok htakes hlent

/-- A new token that holds nothing. -/
theorem Inv.append {s : State} (h : Inv cfg s) {t : Token} (hglobal : ∀ cls, t.holdsGlobal cls = false)
    (hclient : ∀ k, t.holdsClient k = false) (hok : t.Ok) (htakes : t.op.takes = none) :
    Inv cfg { s with tokens := s.tokens ++ [t] } := by
  refine ⟨fun cls => ?_, h.limit, fun k => ?_, h.perClient, h.positive, fun u hu => ?_, fun m u src hu hsrc => ?_⟩
  · change (s.tokens ++ [t]).countP _ = s.inUse cls
    rw [countP_append_singleton, hglobal cls, h.global cls]
    rfl
  · change (s.tokens ++ [t]).countP _ = (s.clientCounts k).getD 0
    rw [countP_append_singleton, hclient k, h.client k]
    rfl
  · obtain hu | hu := List.mem_append.mp hu
    · exact h.ok u hu
    · cases List.mem_singleton.mp hu
      exact hok
  · have hold : ∀ {i o}, s.tokens[i]? = some o → (s.tokens ++ [t])[i]? = some o := fun {i o} ho => by
      rwa [List.getElem?_append_left (List.getElem?_eq_some_iff.mp ho).1]
    change (s.tokens ++ [t])[m]? = some u at hu
    obtain hlt | hge := Nat.lt_or_ge m s.tokens.length
    · rw [List.getElem?_append_left hlt] at hu
      obtain hs | ⟨o, ho, hop⟩ := h.lent m u src hu hsrc
      · exact .inl hs
      · exact .inr ⟨o, hold ho, hop⟩
    · rw [List.getElem?_append_right hge] at hu
      cases List.mem_singleton.mp (List.mem_of_getElem? hu)
      rw [htakes] at hsrc
      cases hsrc

/-! ### The map of the clients -/

theorem Inv.held_pos {s : State} (h : Inv cfg s) {n : ℕ} {t : Token} (ht : s.tokens[n]? = some t) {k : Bytes}
    (hk : t.holdsClient k = true) : 0 < (s.clientCounts k).getD 0 := by
  rw [← h.client k]
  exact List.countP_pos_iff.mpr ⟨t, List.mem_of_getElem? ht, hk⟩

/-- `releaseClient` takes one from the entry, which goes with its last one. -/
theorem getD_releaseClient {s : State} {client : Bytes} (hpos : 0 < (s.clientCounts client).getD 0) (k : Bytes) :
    ((s.releaseClient client).clientCounts k).getD 0 + (decide (client = k)).toNat = (s.clientCounts k).getD 0 := by
  unfold State.releaseClient
  cases hm : s.clientCounts client with
  | none => simp [hm] at hpos
  | some m =>
    have hm0 : 0 < m := by simpa [hm] using hpos
    simp only [if_pos hm0]
    by_cases hk : client = k
    · subst hk
      simp only [Function.update_self, hm, Option.getD_some, decide_true, Bool.toNat_true]
      split <;> simp only [Option.getD_none, Option.getD_some] <;> omega
    · simp [Function.update_of_ne (Ne.symm hk), hk]

theorem releaseClient_positive {s : State} (h : ∀ k, s.clientCounts k ≠ some 0) (client k : Bytes) :
    (s.releaseClient client).clientCounts k ≠ some 0 := by
  unfold State.releaseClient
  cases hm : s.clientCounts client with
  | none => exact h k
  | some m =>
    by_cases hk : k = client
    · subst hk
      simp only [Function.update_self]
      generalize (if 0 < m then m - 1 else m) = m'
      by_cases h0 : m' = 0
      · simp [h0]
      · simp [h0]
    · simp only [Function.update_of_ne hk]
      exact h k

@[simp] theorem releaseClient_inUse (s : State) (client : Bytes) : (s.releaseClient client).inUse = s.inUse := by
  unfold State.releaseClient
  split <;> rfl

@[simp] theorem releaseClient_tokens (s : State) (client : Bytes) : (s.releaseClient client).tokens = s.tokens := by
  unfold State.releaseClient
  split <;> rfl

/-- A token gives its client's slot back. -/
theorem Inv.dropClient {s : State} (h : Inv cfg s) {n : ℕ} {t t' : Token} (ht : s.tokens[n]? = some t)
    (hheld : ∀ k, t.holdsClient k = decide (t.client = k)) (hnot : ∀ k, t'.holdsClient k = false)
    (hglobal : ∀ cls, t.holdsGlobal cls = t'.holdsGlobal cls) (hok : t'.Ok)
    (htakes : ∀ src, t'.op.takes = some src → src = n ∨ ∃ o, s.tokens[src]? = some o ∧ o.op = .lent n)
    (hlent : ∀ d, t.op ≠ .lent d) : Inv cfg ((s.releaseClient t.client).put n t') := by
  have hpos := h.held_pos ht (k := t.client) (by simp [hheld])
  have hcount := getD_releaseClient hpos
  have hkept := @Inv.put cfg s h n t t' s.inUse (s.releaseClient t.client).clientCounts ht
    (fun cls => by rw [hglobal cls]) h.limit
    (fun k => by rw [hheld k, hnot k, hcount k]; rfl)
    (fun k => by have := hcount k; have := h.perClient k; omega)
    (releaseClient_positive h.positive t.client) hok htakes (fun d hd => absurd hd (hlent d))
  simpa only [State.put, releaseClient_inUse, releaseClient_tokens] using hkept

/-! ### The end of a release -/

theorem holdsGlobal_of_not_mgr {t : Token} (h : t.mgr = false) (cls : ToolClass) : t.holdsGlobal cls = false := by
  simp [Token.holdsGlobal, h]

theorem holdsClient_of_not_mgr {t : Token} (h : t.mgr = false) (k : Bytes) : t.holdsClient k = false := by
  simp [Token.holdsClient, h]

/-- The content of `src` moves to `n`, which holds nothing. -/
theorem Inv.takeOver {s : State} (h : Inv cfg s) {n src : ℕ} {t o : Token} (ht : s.tokens[n]? = some t)
    (hmgr : t.mgr = false) (hidle : t.op = .idle) (ho : s.tokens[src]? = some o) (hne : src ≠ n)
    (hop : o.op = .lent n) :
    Inv cfg ((s.put n { o with op := .idle }).put src
      { o with mgr := false, heldGlobal := false, heldClient := false, op := .idle }) := by
  have hget : ∀ x : Token, (s.tokens.set n x)[src]? = some o := fun x => (List.getElem?_set_ne hne.symm).trans ho
  have hoOk := h.ok o (List.mem_of_getElem? ho)
  rw [Token.Ok, hop] at hoOk
  refine ⟨fun cls => ?_, h.limit, fun k => ?_, h.perClient, h.positive, fun u hu => ?_, fun m u i hu hi => ?_⟩
  · have hfirst := countP_set_add ht (Token.holdsGlobal cls) { o with op := .idle }
    have hsecond := countP_set_add (hget { o with op := .idle }) (Token.holdsGlobal cls)
      { o with mgr := false, heldGlobal := false, heldClient := false, op := .idle }
    have hsame : Token.holdsGlobal cls { o with op := .idle } = o.holdsGlobal cls := by
      simp [Token.holdsGlobal, hop]
    rw [holdsGlobal_of_not_mgr hmgr, hsame] at hfirst
    rw [holdsGlobal_of_not_mgr (t := { o with mgr := false, heldGlobal := false, heldClient := false, op := .idle })
      rfl] at hsecond
    have hold := h.global cls
    change ((s.tokens.set n _).set src _).countP _ = s.inUse cls
    omega
  · have hfirst := countP_set_add ht (Token.holdsClient k) { o with op := .idle }
    have hsecond := countP_set_add (hget { o with op := .idle }) (Token.holdsClient k)
      { o with mgr := false, heldGlobal := false, heldClient := false, op := .idle }
    have hsame : Token.holdsClient k { o with op := .idle } = o.holdsClient k := by
      simp [Token.holdsClient, hop]
    rw [holdsClient_of_not_mgr hmgr, hsame] at hfirst
    rw [holdsClient_of_not_mgr (t := { o with mgr := false, heldGlobal := false, heldClient := false, op := .idle })
      rfl] at hsecond
    have hold := h.client k
    change ((s.tokens.set n _).set src _).countP _ = (s.clientCounts k).getD 0
    omega
  · obtain hu | rfl := mem_of_mem_set hu
    · obtain hu | rfl := mem_of_mem_set hu
      · exact h.ok u hu
      · exact hoOk
    · exact fun hm => nomatch hm
  · have hother : ∀ j, j ≠ n → j ≠ src →
        ((s.put n { o with op := .idle }).put src
          { o with mgr := false, heldGlobal := false, heldClient := false, op := .idle }).tokens[j]? = s.tokens[j]? := by
      intro j hjn hjs
      change ((s.tokens.set n _).set src _)[j]? = _
      rw [List.getElem?_set_ne (Ne.symm hjs), List.getElem?_set_ne (Ne.symm hjn)]
    have hnone : u.op ≠ .idle := fun hu => by rw [hu] at hi; cases hi
    have hms : m ≠ src := by
      rintro rfl
      change ((s.tokens.set n _).set m _)[m]? = some u at hu
      rw [getElem?_set_same (hget _)] at hu
      cases hu
      exact hnone rfl
    have hmn : m ≠ n := by
      rintro rfl
      change ((s.tokens.set m _).set src _)[m]? = some u at hu
      rw [List.getElem?_set_ne hne, getElem?_set_same ht] at hu
      cases hu
      exact hnone rfl
    rw [hother m hmn hms] at hu
    obtain hsame | ⟨x, hx, hxop⟩ := h.lent m u i hu hi
    · exact .inl hsame
    · refine .inr ⟨x, ?_, hxop⟩
      rw [hother i ?_ ?_]
      · exact hx
      · rintro rfl
        cases ht.symm.trans hx
        rw [hidle] at hxop
        cases hxop
      · rintro rfl
        cases ho.symm.trans hx
        rw [hop] at hxop
        exact hmn (Op.lent.inj hxop).symm

theorem Inv.settle {s s' : State} (h : Inv cfg s) {n : ℕ} {t : Token} {after : After}
    (ht : s.tokens[n]? = some t) (hop : t.op = .clear after) (hstep : s.settle n t after = some s') : Inv cfg s' := by
  have hempty : ∀ op, op = .idle ∨ op = .gone → Inv cfg (s.put n { t with mgr := false, op := op }) := by
    intro op hop'
    refine h.move ht (fun cls => ?_) (fun k => ?_) ?_ ?_ ?_
    · simp [Token.holdsGlobal, hop]
    · simp [Token.holdsClient, hop]
    · obtain rfl | rfl := hop'
      · exact fun hm => nomatch hm
      · exact trivial
    · obtain rfl | rfl := hop' <;> exact fun src hsrc => nomatch hsrc
    · intro d hd
      rw [hop] at hd
      cases hd
  cases after with
  | kept =>
    cases hstep
    exact hempty .idle (.inl rfl)
  | destroyed =>
    cases hstep
    exact hempty .gone (.inr rfl)
  | takes src =>
    obtain ⟨o, ho, heq⟩ := Option.map_eq_some_iff.mp hstep
    cases heq
    have hself : (s.put n { t with mgr := false, op := .idle }).tokens[n]? = some { t with mgr := false, op := .idle } := by
      exact getElem?_set_same ht _
    have hfirst := hempty .idle (.inl rfl)
    by_cases hsrc : src = n
    · subst hsrc
      cases hself.symm.trans ho
      have hlast := hempty .idle (.inl rfl)
      have hagain := @Inv.move cfg _ hlast src _
        { t with mgr := false, heldGlobal := false, heldClient := false, op := .idle } hself (fun cls => ?_) (fun k => ?_) (fun hm => nomatch hm) (fun i hi => nomatch hi) (fun d hd => nomatch hd)
      · simpa only [State.put, List.set_set] using hagain
      · simp [Token.holdsGlobal]
      · simp [Token.holdsClient]
    · refine hfirst.takeOver hself rfl rfl ho hsrc ?_
      obtain hsame | ⟨x, hx, hxop⟩ := h.lent n t src ht (by rw [hop]; rfl)
      · exact absurd hsame hsrc
      · change (s.tokens.set n _)[src]? = some o at ho
        rw [List.getElem?_set_ne (Ne.symm hsrc)] at ho
        cases ho.symm.trans hx
        exact hxop

/-! ### Steps -/

theorem Inv.advance {s s' : State} {n : ℕ} {t : Token} {ok : Bool} (h : Inv cfg s) (ht : s.tokens[n]? = some t)
    (hstep : s.advance cfg n t ok = some s') : Inv cfg s' := by
  have hOk := h.ok t (List.mem_of_getElem? ht)
  unfold State.advance at hstep
  cases hop : t.op with
  | slot =>
    simp only [hop] at hstep
    rw [Token.Ok, hop] at hOk
    obtain ⟨hmgr, hcls, hg, hc⟩ := hOk
    split at hstep
    · rename_i hfull
      cases hstep
      have hone : 0 < (s.clientCounts t.client).getD 0 := Nat.lt_of_lt_of_le cfg.perClient_pos hfull
      have hsame : Function.update s.clientCounts t.client (some ((s.clientCounts t.client).getD 0)) =
          s.clientCounts := by
        funext k
        by_cases hk : k = t.client
        · subst hk
          cases hm : s.clientCounts t.client with
          | none => simp [hm] at hone
          | some m => simp
        · simp [hk]
      rw [hsame]
      exact h.move ht (fun cls => by simp [Token.holdsGlobal, hg]) (fun k => by simp [Token.holdsClient, hc])
        trivial (fun i hi => nomatch hi) (fun d hd => by rw [hop] at hd; cases hd)
    · rename_i hroom
      cases hstep
      refine h.put ht (fun cls => by simp [Token.holdsGlobal, hg]) h.limit (fun k => ?_) (fun k => ?_) (fun k => ?_)
        ⟨hmgr, hg, by simp [hcls]⟩ (fun i hi => nomatch hi) (fun d hd => by rw [hop] at hd; cases hd)
      · by_cases hk : k = t.client
        · subst hk
          simp [Token.holdsClient, hmgr, hc]
        · simp [Token.holdsClient, hc, Function.update_of_ne hk, Ne.symm hk]
      · by_cases hk : k = t.client
        · subst hk
          simp only [Function.update_self, Option.getD_some]
          omega
        · simp only [Function.update_of_ne hk]
          exact h.perClient k
      · by_cases hk : k = t.client
        · subst hk
          simp
        · simp only [Function.update_of_ne hk]
          exact h.positive k
  | wait =>
    simp only [hop] at hstep
    rw [Token.Ok, hop] at hOk
    obtain ⟨hmgr, hg, hc⟩ := hOk
    cases ok with
    | true =>
      rw [if_pos rfl] at hstep
      split at hstep
      · rename_i hroom
        cases hstep
        refine h.put ht (fun cls => ?_) (fun cls => ?_)
          (fun k => by simp [Token.holdsClient, hop]) h.perClient h.positive ?_
          (fun i hi => nomatch hi) (fun d hd => by rw [hop] at hd; cases hd)
        · by_cases hcls : cls = t.cls
          · subst hcls
            simp [Token.holdsGlobal, hmgr, hg]
          · simp [Token.holdsGlobal, hg, Function.update_of_ne hcls, Ne.symm hcls]
        · by_cases hcls : cls = t.cls
          · subst hcls
            simp only [Function.update_self]
            exact hroom
          · simp only [Function.update_of_ne hcls]
            exact h.limit cls
        · exact fun _ => ⟨rfl, hc⟩
      · cases hstep
    | false =>
      rw [if_neg (by simp)] at hstep
      cases hstep
      refine h.move ht (fun cls => by simp [Token.holdsGlobal, hg]) (fun k => ?_) ?_ ?_
        (fun d hd => by rw [hop] at hd; cases hd)
      · cases hh : t.heldClient with
        | false => simp [Token.holdsClient, hh]
        | true => simp [Token.holdsClient, hh, hop]
      · cases hh : t.heldClient with
        | false => exact trivial
        | true => exact ⟨hmgr, hg, rfl⟩
      · intro i hi
        cases hh : t.heldClient <;> simp [hh, Op.takes] at hi
  | rollback =>
    simp only [hop] at hstep
    rw [Token.Ok, hop] at hOk
    obtain ⟨hmgr, hg, hc⟩ := hOk
    cases hstep
    exact h.dropClient ht (fun k => by simp [Token.holdsClient, hmgr, hc, hop])
      (fun k => by simp [Token.holdsClient]) (fun cls => by simp [Token.holdsGlobal, hg]) trivial
      (fun i hi => nomatch hi) (fun d hd => by rw [hop] at hd; cases hd)
  | dropClient after =>
    simp only [hop] at hstep
    cases hstep
    have htakes : ∀ src, Op.takes (.dropGlobal after) = some src →
        src = n ∨ ∃ o, s.tokens[src]? = some o ∧ o.op = .lent n := fun src hsrc =>
      h.lent n t src ht (by rw [hop]; cases after <;> exact hsrc)
    have hlent : ∀ d, t.op ≠ .lent d := fun d hd => by rw [hop] at hd; cases hd
    have hglobal : ∀ cls, t.holdsGlobal cls = Token.holdsGlobal cls { t with op := .dropGlobal after } := fun cls => by
      simp [Token.holdsGlobal, hop]
    cases hheld : t.mgr && t.heldClient with
    | true =>
      rw [if_pos rfl]
      exact h.dropClient ht (fun k => by simp [Token.holdsClient, hheld, hop]) (fun k => by simp [Token.holdsClient])
        hglobal trivial htakes hlent
    | false =>
      rw [if_neg (by simp)]
      exact h.move ht hglobal (fun k => by simp [Token.holdsClient, hheld]) trivial htakes
        (fun d hd => absurd hd (hlent d))
  | dropGlobal after =>
    simp only [hop] at hstep
    cases hstep
    have htakes : ∀ src, Op.takes (.clear after) = some src →
        src = n ∨ ∃ o, s.tokens[src]? = some o ∧ o.op = .lent n := fun src hsrc =>
      h.lent n t src ht (by rw [hop]; cases after <;> exact hsrc)
    have hlent : ∀ d, t.op = .lent d → d = n ∨ Op.clear after = .lent d := fun d hd => by rw [hop] at hd; cases hd
    have hclient : ∀ k, t.holdsClient k = Token.holdsClient k { t with op := .clear after } := fun k => by
      simp [Token.holdsClient, hop]
    cases hheld : t.mgr && t.heldGlobal with
    | true =>
      have hpos : 0 < s.inUse t.cls := by
        rw [← h.global t.cls]
        exact List.countP_pos_iff.mpr ⟨t, List.mem_of_getElem? ht, by simp [Token.holdsGlobal, hheld, hop]⟩
      rw [if_pos rfl, State.releaseGlobal, if_pos hpos]
      refine h.put ht (fun cls => ?_) (fun cls => ?_) (fun k => by rw [hclient k]) h.perClient h.positive trivial
        htakes hlent
      · by_cases hcls : cls = t.cls
        · subst hcls
          simp only [Token.holdsGlobal, hheld, hop, Function.update_self]
          simp
          omega
        · simp [Token.holdsGlobal, Function.update_of_ne hcls, Ne.symm hcls]
      · by_cases hcls : cls = t.cls
        · subst hcls
          simp only [Function.update_self]
          exact Nat.le_trans (Nat.sub_le _ _) (h.limit t.cls)
        · simp only [Function.update_of_ne hcls]
          exact h.limit cls
    | false =>
      rw [if_neg (by simp)]
      exact h.move ht (fun cls => by simp [Token.holdsGlobal, hheld]) hclient trivial htakes hlent
  | clear after =>
    simp only [hop] at hstep
    exact h.settle ht hop hstep
  | idle | lent d | gone =>
    simp only [hop] at hstep
    cases hstep

theorem free_some {s : State} {n : ℕ} {t : Token} (h : s.free n = some t) : s.tokens[n]? = some t ∧ t.op = .idle := by
  obtain ⟨ht, hop⟩ := Option.filter_eq_some_iff.mp h
  exact ⟨ht, of_decide_eq_true hop⟩

/-- A token that no code is in begins a release. -/
theorem Inv.begin {s : State} (h : Inv cfg s) {n : ℕ} {t : Token} {after : After} (ht : s.tokens[n]? = some t)
    (hop : t.op = .idle)
    (htakes : ∀ src, Op.takes (.dropClient after) = some src →
      src = n ∨ ∃ o, s.tokens[src]? = some o ∧ o.op = .lent n) : Inv cfg (s.put n { t with op := .dropClient after }) :=
  h.move ht (fun cls => by simp [Token.holdsGlobal, hop]) (fun k => by simp [Token.holdsClient, hop]) trivial htakes
    (fun d hd => by rw [hop] at hd; cases hd)

theorem Inv.moveAssign {s : State} (h : Inv cfg s) {dst src : ℕ} {t o : Token} (ht : s.free dst = some t)
    (ho : s.free src = some o) :
    Inv cfg ((s.put src { o with op := .lent dst }).put dst { t with op := .dropClient (.takes src) }) := by
  obtain ⟨ht, hidle⟩ := free_some ht
  obtain ⟨ho, hoidle⟩ := free_some ho
  by_cases hsame : src = dst
  · subst hsame
    cases ht.symm.trans ho
    have hput : (s.put src { t with op := .lent src }).put src { t with op := .dropClient (.takes src) } =
        s.put src { t with op := .dropClient (.takes src) } := by
      simp only [State.put, List.set_set]
    rw [hput]
    exact h.begin ht hidle fun i hi => .inl (Option.some.inj hi).symm
  · have hoOk := h.ok o (List.mem_of_getElem? ho)
    rw [Token.Ok, hoidle] at hoOk
    have hlent : Inv cfg (s.put src { o with op := .lent dst }) :=
      h.move ho (fun cls => by simp [Token.holdsGlobal, hoidle]) (fun k => by simp [Token.holdsClient, hoidle]) hoOk
        (fun i hi => nomatch hi) (fun d hd => by rw [hoidle] at hd; cases hd)
    have ht' : (s.put src { o with op := .lent dst }).tokens[dst]? = some t := by
      change (s.tokens.set src _)[dst]? = _
      rw [List.getElem?_set_ne hsame, ht]
    refine hlent.begin ht' hidle fun i hi => .inr ⟨{ o with op := .lent dst }, ?_, rfl⟩
    cases hi
    exact getElem?_set_same ho _

theorem Inv.step {s s' : State} {a : Label} {es : List Empty} (h : Inv cfg s) (hstep : s.step cfg a = some (s', es)) :
    Inv cfg s' := by
  cases a with
  | declare =>
    cases hstep
    exact h.append (fun _ => rfl) (fun _ => rfl) (fun hm => nomatch hm) rfl
  | acquire cls client =>
    cases hstep
    refine h.append (fun _ => by simp [Token.holdsGlobal]) (fun _ => by simp [Token.holdsClient]) ?_ ?_
    · cases cls with
      | cheap => exact ⟨rfl, rfl, by simp⟩
      | expensive => exact ⟨rfl, rfl, rfl, rfl⟩
    · cases cls <;> rfl
  | moveAssign dst src =>
    obtain ⟨t, ht, hmap⟩ := Option.bind_eq_some_iff.mp hstep
    obtain ⟨o, ho, heq⟩ := Option.map_eq_some_iff.mp hmap
    cases heq
    exact h.moveAssign ht ho
  | release n | destroy n =>
    obtain ⟨t, ht, heq⟩ := Option.map_eq_some_iff.mp hstep
    cases heq
    obtain ⟨ht, hidle⟩ := free_some ht
    exact h.begin ht hidle fun i hi => nomatch hi
  | advance n ok =>
    obtain ⟨t, ht, hmap⟩ := Option.bind_eq_some_iff.mp hstep
    obtain ⟨s'', hadv, heq⟩ := Option.map_eq_some_iff.mp hmap
    cases heq
    exact h.advance ht hadv
  | throw n =>
    obtain ⟨t, ht, hite⟩ := Option.bind_eq_some_iff.mp hstep
    simp only [Option.ite_none_right_eq_some] at hite
    obtain ⟨hop, heq⟩ := hite
    cases heq
    refine h.move ht (fun cls => ?_) (fun k => ?_) trivial (fun i hi => nomatch hi) (fun d hd => ?_)
    · obtain hop | hop := hop <;> simp [Token.holdsGlobal, hop]
    · obtain hop | hop := hop <;> simp [Token.holdsClient, hop]
    · obtain hop | hop := hop <;> rw [hop] at hd <;> cases hd

/-! ### Runs -/

theorem Inv.conserved {s : State} (h : Inv cfg s) : Conserved cfg s := by
  refine ⟨h.global, h.limit, h.client, h.perClient, fun t ht hop hm => ?_, fun hidle => ⟨fun cls => ?_, fun k => ?_⟩⟩
  · have hOk := h.ok t ht
    rw [Token.Ok, hop] at hOk
    exact hOk hm
  · rw [← h.global cls, List.countP_eq_zero]
    exact fun t ht => by simp [(hidle t ht).1 cls]
  · have hzero : (s.clientCounts k).getD 0 = 0 := by
      rw [← h.client k, List.countP_eq_zero]
      exact fun t ht => by simp [(hidle t ht).2 k]
    cases hk : s.clientCounts k with
    | none => rfl
    | some m =>
      rw [hk, Option.getD_some] at hzero
      exact absurd (hk.trans (by rw [hzero])) (h.positive k)

theorem slots_conserved {as : List Label} {c : Config State Empty}
    (hrun : exec (State.step cfg) ⟨{}, []⟩ as = some c) : Conserved cfg c.state := by
  have hinv : Inv cfg c.state := by
    refine exec_invariant (I := fun s _ => Inv cfg s) (fun hi hs => hi.step hs) ?_ hrun
    exact ⟨fun _ => rfl, fun _ => Nat.zero_le _, fun _ => rfl, fun _ => Nat.zero_le _, fun _ => by simp,
      by simp, by simp⟩
  exact hinv.conserved

/-- Two calls of one client, a third that its limit turns away, and one that waits in vain. -/
def fullHouse : List Label :=
  [.declare, .acquire .expensive [97], .advance 1 true, .advance 1 true, .moveAssign 0 1, .advance 0 true,
    .advance 0 true, .advance 0 true, .acquire .expensive [97], .advance 2 true, .acquire .expensive [98],
    .advance 3 true, .advance 3 false, .advance 3 true, .advance 3 true]

def oneOfEach : ConcurrencyConfig := { cheapLimit := 1, expensiveLimit := 1, expensivePerClient := 1 }

theorem fullHouse_conserved :
    ∃ c, exec (State.step oneOfEach) ⟨{}, []⟩ fullHouse = some c ∧ c.state.inUse .expensive = 1 ∧
      c.state.clientCounts [97] = some 1 ∧ c.state.clientCounts [98] = none ∧ Conserved oneOfEach c.state := by
  have hsome : (exec (State.step oneOfEach) ⟨{}, []⟩ fullHouse).any (fun c =>
      c.state.inUse .expensive = 1 ∧ c.state.clientCounts [97] = some 1 ∧ c.state.clientCounts [98] = none) = true := by
    decide
  obtain ⟨c, hrun, hc⟩ := (Option.any_eq_true _ _).mp hsome
  obtain ⟨hin, ha, hb⟩ := of_decide_eq_true hc
  exact ⟨c, hrun, hin, ha, hb, slots_conserved hrun⟩

end FractalSQL.Mcp.Gate
