import FractalSQL.Provider.Reloads

/-!
# Reloads in one order

When no reload overtakes another, every place is written last by the reload whose first
swap was the last, so the configuration in force comes from one parse.
-/
namespace FractalSQL.Provider
open Lib Service

/-! ### Order of occurrence -/

section Order

variable {α : Type*} {a b c : α} {l : List α}

theorem pair_sublist_concat : [a, b].Sublist (l ++ [c]) ↔ [a, b].Sublist l ∨ a ∈ l ∧ b = c := by
  constructor
  · intro h
    obtain ⟨l₁, l₂, heq, h₁, h₂⟩ := List.sublist_append_iff.mp h
    cases l₁ with
    | nil =>
      have hlen := h₂.length_le
      simp only [List.nil_append] at heq
      rw [← heq] at hlen
      simp at hlen
    | cons x l₁ =>
      rw [List.cons_append, List.cons.injEq] at heq
      obtain ⟨rfl, heq⟩ := heq
      cases l₁ with
      | nil =>
        rw [List.nil_append] at heq
        rw [← heq] at h₂
        exact .inr ⟨h₁.subset (by simp), List.mem_singleton.mp (h₂.subset (by simp))⟩
      | cons y l₁ =>
        rw [List.cons_append, List.cons.injEq] at heq
        obtain ⟨rfl, heq⟩ := heq
        obtain rfl : l₁ = [] := (List.append_eq_nil_iff.mp heq.symm).1
        exact .inl h₁
  · rintro (h | ⟨ha, rfl⟩)
    · exact h.trans (List.sublist_append_left _ _)
    · exact (List.singleton_sublist.mpr ha).append (List.Sublist.refl [b])

theorem pair_sublist_mem (h : [a, b].Sublist l) : a ∈ l ∧ b ∈ l := ⟨h.subset (by simp), h.subset (by simp)⟩

end Order

/-- The last event of `log` for the place `k` is that of `r`. -/
def LastSwap (log : List Event) (k : Swap) (r : ℕ) : Prop :=
  ∃ before after, log = before ++ ⟨r, k⟩ :: after ∧ ∀ e ∈ after, e.swap ≠ k

theorem LastSwap.concat_self (log : List Event) (k : Swap) (r : ℕ) : LastSwap (log ++ [⟨r, k⟩]) k r :=
  ⟨log, [], rfl, by simp⟩

theorem LastSwap.concat {log : List Event} {k : Swap} {r : ℕ} {e : Event} (h : LastSwap log k r)
    (he : e.swap ≠ k) : LastSwap (log ++ [e]) k r := by
  obtain ⟨before, after, rfl, hafter⟩ := h
  refine ⟨before, after ++ [e], by simp, fun e' he' => ?_⟩
  obtain he' | he' := List.mem_append.mp he'
  · exact hafter e' he'
  · exact List.mem_singleton.mp he' ▸ he

theorem LastSwap.mem {log : List Event} {k : Swap} {r : ℕ} (h : LastSwap log k r) : ⟨r, k⟩ ∈ log := by
  obtain ⟨before, after, rfl, -⟩ := h
  simp

/-- Another reload's swap of the same place came before the last one. -/
theorem LastSwap.before {log : List Event} {k : Swap} {r r' : ℕ} (h : LastSwap log k r)
    (hmem : ⟨r', k⟩ ∈ log) (hne : r' ≠ r) : List.Sublist [⟨r', k⟩, ⟨r, k⟩] log := by
  obtain ⟨before, after, rfl, hafter⟩ := h
  have hbefore : (⟨r', k⟩ : Event) ∈ before := by
    obtain hb | hb := List.mem_append.mp hmem
    · exact hb
    · obtain heq | ha := List.mem_cons.mp hb
      · exact absurd (Event.mk.inj heq).1 hne
      · exact absurd rfl (hafter _ ha)
  exact (List.singleton_sublist.mpr hbefore).append (List.singleton_sublist.mpr (List.mem_cons_self))

/-- A place that has been written has a last writer. -/
theorem exists_lastSwap {log : List Event} {k : Swap} {r : ℕ} (hmem : ⟨r, k⟩ ∈ log) : ∃ r', LastSwap log k r' := by
  induction log using List.reverseRecOn with
  | nil => simp at hmem
  | append_singleton log e ih =>
    by_cases he : e.swap = k
    · subst he
      exact ⟨e.reload, .concat_self log e.swap e.reload⟩
    · obtain h | h := List.mem_append.mp hmem
      · obtain ⟨r', hr'⟩ := ih h
        exact ⟨r', hr'.concat he⟩
      · exact absurd (List.mem_singleton.mp h ▸ rfl) he

/-! ### What a step does -/

section Run

variable {site : Site} {getenv : String → Option Bytes}

/-- The swaps a reload has made when it has come to a stage. -/
def Stage.made : Stage → Swap → Bool
  | .swap .textsql, .cognition => true
  | .swap .enterprise, .cognition | .swap .enterprise, .textsql => true
  | .swap .publish, .cognition | .swap .publish, .textsql | .swap .publish, .enterprise => true
  | .answered reply, _ => reply.status = .ok
  | _, _ => false

/-- A stage that is no refusal. -/
def Stage.Good (st : Stage) : Prop := ∀ reply, st = .answered reply → reply.status = .ok

theorem Swap.made_then (k k' : Swap) : k.then.made k' = ((Stage.swap k).made k' || k' = k) := by
  cases k <;> cases k' <;> rfl

theorem Swap.made_self (k : Swap) : (Stage.swap k).made k = false := by
  cases k <;> rfl

/-- One swap writes its own place and leaves the others. -/
theorem Daemon.swap_holds {d d' : Daemon} {next : Config} {k : Swap} (h : d.swap getenv next k = some d') :
    d'.Holds getenv next k ∧ ∀ k' ≠ k, ∀ cfg, d.Holds getenv cfg k' → d'.Holds getenv cfg k' := by
  cases k with
  | enterprise =>
    obtain ⟨e, he, rfl⟩ := Option.map_eq_some_iff.mp h
    refine ⟨?_, fun k' hk' cfg hd => ?_⟩
    · unfold Enterprise.applyProvider at he
      split at he
      · cases he
      · exact (congrArg Enterprise.config (Option.some.inj he)).symm
    · cases k' <;> first | exact hd | exact absurd rfl hk'
  | _ =>
    cases h
    exact ⟨rfl, fun k' hk' cfg hd => by cases k' <;> first | exact hd | exact absurd rfl hk'⟩

theorem Enterprise.ensureLib_config (e : Enterprise) (ok : Bool) : (e.ensureLib ok).config = e.config := by
  unfold Enterprise.ensureLib
  split
  · rfl
  · split <;> rfl

/-- How a reload moves without writing: to its checks, to its first swap, or out. -/
inductive Moved : Reload → Reload → Prop
  | refused (rl : Reload) (reply : Reply) (h : reply.status ≠ .ok) : Moved rl { rl with stage := .answered reply }
  | read (rl : Reload) (next : Config) (h : rl.stage = .read) : Moved rl { rl with next := next, stage := .check }
  | check (rl : Reload) (h : rl.stage = .check) : Moved rl { rl with stage := .swap .cognition }

/-- What a step can do to the reloads and to the places. -/
inductive Step (s s' : State) : Label → List Event → Prop
  | same (a : Label) (h : s'.reloads = s.reloads) (hn : s'.nextReload = s.nextReload)
    (hd : ∀ k cfg, s.daemon.Holds getenv cfg k → s'.daemon.Holds getenv cfg k) : Step s s' a []
  | request (a : Label) (cur : Config)
    (h : s'.reloads = Function.update s.reloads s.nextReload (some { cur := cur }))
    (hn : s'.nextReload = s.nextReload + 1) (hd : s'.daemon = s.daemon) : Step s s' a []
  | moved (r : ℕ) (rl rl' : Reload) (hrl : s.reloads r = some rl) (hmoved : Moved rl rl')
    (h : s'.reloads = Function.update s.reloads r (some rl')) (hn : s'.nextReload = s.nextReload)
    (hd : s'.daemon = s.daemon) : Step s s' (.advance r) []
  | swap (r : ℕ) (rl : Reload) (k : Swap) (hrl : s.reloads r = some rl) (hstage : rl.stage = .swap k)
    (h : s'.reloads = Function.update s.reloads r (some { rl with stage := k.then }))
    (hn : s'.nextReload = s.nextReload) (hself : s'.daemon.Holds getenv rl.next k)
    (hother : ∀ k' ≠ k, ∀ cfg, s.daemon.Holds getenv cfg k' → s'.daemon.Holds getenv cfg k') :
    Step s s' (.advance r) [⟨r, k⟩]

theorem State.advance_cases {s s' : State} {r : ℕ} {rl : Reload} {es : List Event} (hrl : s.reloads r = some rl)
    (h : s.advance site getenv r rl = some (s', es)) : @Step getenv s s' (.advance r) es := by
  cases hstage : rl.stage with
  | read =>
    cases hparse : reparse site rl.cur s.file with
    | error text =>
      simp only [State.advance, hstage, hparse] at h
      cases h
      exact .moved r rl _ hrl (.refused rl ⟨.args, text⟩ (by simp)) rfl rfl rfl
    | ok next =>
      simp only [State.advance, hstage, hparse] at h
      cases h
      exact .moved r rl _ hrl (.read rl next hstage) rfl rfl rfl
  | check =>
    by_cases hcheck : s.daemon.consumers.checkProvider rl.next = true
    · simp only [State.advance, hstage, hcheck, if_true] at h
      cases h
      exact .moved r rl _ hrl (.check rl hstage) rfl rfl rfl
    · simp only [State.advance, hstage, if_neg hcheck] at h
      cases h
      exact .moved r rl _ hrl (.refused rl ⟨.args, _⟩ (by simp)) rfl rfl rfl
  | swap k =>
    cases hd : s.daemon.swap getenv rl.next k with
    | none =>
      simp only [State.advance, hstage, hd] at h
      cases h
      exact .moved r rl _ hrl (.refused rl ⟨.args, _⟩ (by simp)) rfl rfl rfl
    | some d =>
      simp only [State.advance, hstage, hd] at h
      cases h
      obtain ⟨hself, hother⟩ := Daemon.swap_holds hd
      exact .swap r rl k hrl hstage rfl rfl hself hother
  | answered reply => simp [State.advance, hstage] at h

theorem State.step_cases {s s' : State} {a : Label} {es : List Event}
    (h : s.step site getenv a = some (s', es)) : @Step getenv s s' a es := by
  cases a with
  | setFile file | connect =>
    cases h
    exact .same _ rfl rfl fun _ _ hd => hd
  | request conn =>
    obtain ⟨cur, -, heq⟩ := Option.map_eq_some_iff.mp h
    cases heq
    exact .request _ cur rfl rfl rfl
  | advance r =>
    obtain ⟨rl, hrl, hadv⟩ := Option.bind_eq_some_iff.mp h
    exact State.advance_cases hrl hadv
  | ensureLib ok =>
    cases h
    refine .same _ rfl rfl fun k cfg hd => ?_
    cases k with
    | enterprise => exact (Enterprise.ensureLib_config _ ok).trans hd
    | _ => exact hd

/-! ### The invariant -/

/-- What every run of reloads in order keeps. -/
structure Kept (getenv : String → Option Bytes) (startup : Config) (s : State) (log : List Event) : Prop where
  known : ∀ r, r < s.nextReload ↔ ∃ rl, s.reloads r = some rl
  mem : ∀ e ∈ log, ∃ rl, s.reloads e.reload = some rl
  made : ∀ r rl, s.reloads r = some rl → rl.stage.Good → ∀ k, ⟨r, k⟩ ∈ log ↔ rl.stage.made k = true
  order : ∀ r r' k, List.Sublist [⟨r, .cognition⟩, ⟨r', .cognition⟩] log →
    ¬ List.Sublist [⟨r', k⟩, ⟨r, k⟩] log
  writer : ∀ k, (∀ e ∈ log, e.swap ≠ k) ∧ s.daemon.Holds getenv startup k ∨
    ∃ r rl, LastSwap log k r ∧ s.reloads r = some rl ∧ s.daemon.Holds getenv rl.next k

theorem Kept.initial {file : Bytes} {d : Daemon} (h : Daemon.start site getenv file = some d) :
    Kept getenv d.snapshot (.initial d) [] where
  known r := by simp [State.initial]
  mem e he := by simp at he
  made r rl hrl := by simp [State.initial] at hrl
  order r r' k hsub := by simp at hsub
  writer k := by
    refine .inl ⟨by simp, ?_⟩
    obtain ⟨cfg, -, hd⟩ := Option.bind_eq_some_iff.mp h
    dsimp only at hd
    split at hd
    · split at hd
      · rename_i consumers happly
        cases hd
        rw [Consumers.applyProvider] at happly
        split at happly
        · cases happly
        · rename_i e he
          cases happly
          cases k with
          | enterprise =>
            unfold Enterprise.applyProvider at he
            split at he
            · cases he
            · exact (congrArg Enterprise.config (Option.some.inj he)).symm
          | _ => rfl
      · cases hd
    · cases hd

/-- A reload that has made no swap yet is in no event. -/
theorem Kept.no_event {startup : Config} {s : State} {log : List Event} (h : Kept getenv startup s log) {r : ℕ}
    {rl : Reload} (hrl : s.reloads r = some rl) (hgood : rl.stage.Good) (hmade : ∀ k, rl.stage.made k = false)
    (k : Swap) : ⟨r, k⟩ ∉ log := by
  rw [h.made r rl hrl hgood, hmade]
  simp

theorem Moved.next_eq {rl rl' : Reload} (h : Moved rl rl') (hread : rl.stage ≠ .read) : rl'.next = rl.next := by
  cases h with
  | refused | check => rfl
  | read _ h => exact absurd h hread

theorem Moved.made_eq {rl rl' : Reload} (h : Moved rl rl') (hgood : rl'.stage.Good) :
    rl.stage.Good ∧ ∀ k, rl'.stage.made k = rl.stage.made k := by
  cases h with
  | refused reply h => exact absurd (hgood reply rfl) h
  | read next h | check h =>
    rw [h]
    exact ⟨by rintro _ ⟨⟩, fun k => by cases k <;> rfl⟩

theorem Kept.moved {startup : Config} {s s' : State} {log : List Event} (h : Kept getenv startup s log) {r : ℕ}
    {rl rl' : Reload} (hrl : s.reloads r = some rl) (hmoved : Moved rl rl')
    (hupd : s'.reloads = Function.update s.reloads r (some rl')) (hn : s'.nextReload = s.nextReload)
    (hd : s'.daemon = s.daemon) : Kept getenv startup s' log where
  known r' := by
    rw [hn, h.known, hupd]
    by_cases hr : r' = r
    · subst hr
      simp [hrl]
    · rw [Function.update_of_ne hr]
  mem e he := by
    rw [hupd]
    by_cases hr : e.reload = r
    · exact ⟨rl', by rw [hr, Function.update_self]⟩
    · rw [Function.update_of_ne hr]
      exact h.mem e he
  made r' rl₁ hrl₁ hgood k := by
    rw [hupd] at hrl₁
    by_cases hr : r' = r
    · subst hr
      rw [Function.update_self, Option.some.injEq] at hrl₁
      subst hrl₁
      obtain ⟨hgood', hmade⟩ := hmoved.made_eq hgood
      rw [hmade]
      exact h.made r' rl hrl hgood' k
    · rw [Function.update_of_ne hr] at hrl₁
      exact h.made r' rl₁ hrl₁ hgood k
  order := h.order
  writer k := by
    rw [hd, hupd]
    obtain hnone | ⟨r', rl₁, hlast, hrl₁, hholds⟩ := h.writer k
    · exact .inl hnone
    · refine .inr ⟨r', ?_⟩
      by_cases hr : r' = r
      · subst hr
        obtain rfl : rl = rl₁ := Option.some.inj (hrl.symm.trans hrl₁)
        have hread : rl.stage ≠ .read := fun hread =>
          h.no_event hrl (by rw [hread]; rintro _ ⟨⟩) (by rw [hread]; intro k; cases k <;> rfl) k hlast.mem
        exact ⟨rl', hlast, Function.update_self .., by rw [hmoved.next_eq hread]; exact hholds⟩
      · exact ⟨rl₁, hlast, by rw [Function.update_of_ne hr]; exact hrl₁, hholds⟩

theorem Kept.request {startup cur : Config} {s s' : State} {log : List Event} (h : Kept getenv startup s log)
    (hupd : s'.reloads = Function.update s.reloads s.nextReload (some { cur := cur }))
    (hn : s'.nextReload = s.nextReload + 1) (hd : s'.daemon = s.daemon) : Kept getenv startup s' log := by
  have hfresh : s.reloads s.nextReload = none := by
    by_contra hne
    obtain ⟨rl, hrl⟩ := Option.ne_none_iff_exists'.mp hne
    exact Nat.lt_irrefl _ ((h.known _).mpr ⟨rl, hrl⟩)
  have hold : ∀ r rl, s.reloads r = some rl → s'.reloads r = some rl := fun r rl hrl => by
    rw [hupd, Function.update_of_ne]
    · exact hrl
    · rintro rfl
      simp [hfresh] at hrl
  refine ⟨fun r => ?_, fun e he => ?_, fun r rl hrl hgood k => ?_, h.order, fun k => ?_⟩
  · rw [hn, hupd]
    by_cases hr : r = s.nextReload
    · subst hr
      simp
    · rw [Function.update_of_ne hr, ← h.known]
      omega
  · obtain ⟨rl, hrl⟩ := h.mem e he
    exact ⟨rl, hold _ _ hrl⟩
  · rw [hupd] at hrl
    by_cases hr : r = s.nextReload
    · subst hr
      rw [Function.update_self, Option.some.injEq] at hrl
      subst hrl
      refine iff_of_false (fun hmem => ?_) (by cases k <;> simp [Stage.made])
      obtain ⟨rl, hrl⟩ := h.mem _ hmem
      simp [hfresh] at hrl
    · rw [Function.update_of_ne hr] at hrl
      exact h.made r rl hrl hgood k
  · rw [hd]
    obtain hnone | ⟨r, rl, hlast, hrl, hholds⟩ := h.writer k
    · exact .inl hnone
    · exact .inr ⟨r, rl, hlast, hold _ _ hrl, hholds⟩

theorem Kept.swap {startup : Config} {s s' : State} {log : List Event} (h : Kept getenv startup s log) {r : ℕ}
    {rl : Reload} {k : Swap} (hrl : s.reloads r = some rl) (hstage : rl.stage = .swap k)
    (hin : overtaken log r k = false)
    (hupd : s'.reloads = Function.update s.reloads r (some { rl with stage := k.then }))
    (hn : s'.nextReload = s.nextReload) (hself : s'.daemon.Holds getenv rl.next k)
    (hother : ∀ k' ≠ k, ∀ cfg, s.daemon.Holds getenv cfg k' → s'.daemon.Holds getenv cfg k') :
    Kept getenv startup s' (log ++ [⟨r, k⟩]) := by
  have hgood : rl.stage.Good := by rw [hstage]; rintro _ ⟨⟩
  have hmade := h.made r rl hrl hgood
  have hnew : (⟨r, k⟩ : Event) ∉ log := by rw [hmade, hstage, Swap.made_self]; simp
  refine ⟨fun r' => ?_, fun e he => ?_, fun r' rl₁ hrl₁ hgood₁ k' => ?_, fun r₁ r₂ k' hfirst hlater => ?_,
    fun k' => ?_⟩
  · rw [hn, h.known, hupd]
    by_cases hr : r' = r
    · subst hr
      simp [hrl]
    · rw [Function.update_of_ne hr]
  · rw [hupd]
    by_cases hr : e.reload = r
    · exact ⟨_, by rw [hr, Function.update_self]⟩
    · rw [Function.update_of_ne hr]
      obtain he | he := List.mem_append.mp he
      · exact h.mem e he
      · exact absurd (List.mem_singleton.mp he ▸ rfl) hr
  · rw [hupd] at hrl₁
    by_cases hr : r' = r
    · subst hr
      rw [Function.update_self, Option.some.injEq] at hrl₁
      subst hrl₁
      rw [List.mem_append, hmade, hstage, Swap.made_then]
      simp
    · rw [Function.update_of_ne hr] at hrl₁
      rw [List.mem_append, h.made r' rl₁ hrl₁ hgood₁ k']
      simp [hr]
  · rw [pair_sublist_concat] at hfirst hlater
    obtain hfirst | ⟨-, heq⟩ := hfirst
    · obtain hlater | ⟨hmem, heq⟩ := hlater
      · exact h.order r₁ r₂ k' hfirst hlater
      · -- the swap that is made now would be the one overtaken
        obtain ⟨rfl, rfl⟩ := Event.mk.inj heq
        have hover : overtaken log r₁ k' = true :=
          List.any_eq_true.mpr ⟨⟨r₂, k'⟩, hmem, by simp [hfirst]⟩
        rw [hin] at hover
        cases hover
    · -- a reload at its first swap has made no other
      obtain ⟨rfl, rfl⟩ := Event.mk.inj heq
      have hmem : (⟨r₂, k'⟩ : Event) ∈ log := by
        obtain hlater | ⟨hmem, -⟩ := hlater
        · exact (pair_sublist_mem hlater).1
        · exact hmem
      rw [hmade, hstage] at hmem
      cases k' <;> cases hmem
  · by_cases hk : k' = k
    · subst hk
      exact .inr ⟨r, { rl with stage := k'.then }, .concat_self log k' r, by rw [hupd, Function.update_self], hself⟩
    · obtain ⟨hnone, hholds⟩ | ⟨r', rl₁, hlast, hrl₁, hholds⟩ := h.writer k'
      · refine .inl ⟨fun e he => ?_, hother k' hk _ hholds⟩
        obtain he | he := List.mem_append.mp he
        · exact hnone e he
        · exact List.mem_singleton.mp he ▸ Ne.symm hk
      · refine .inr ⟨r', ?_⟩
        by_cases hr : r' = r
        · subst hr
          obtain rfl : rl = rl₁ := Option.some.inj (hrl.symm.trans hrl₁)
          exact ⟨{ rl with stage := k.then }, hlast.concat (Ne.symm hk), by rw [hupd, Function.update_self], hother k' hk _ hholds⟩
        · exact ⟨rl₁, hlast.concat (Ne.symm hk), by rw [hupd, Function.update_of_ne hr]; exact hrl₁,
            hother k' hk _ hholds⟩

theorem Kept.step {startup : Config} {s s' : State} {log es : List Event} {a : Label}
    (h : Kept getenv startup s log) (hin : InOrder s log a) (hstep : s.step site getenv a = some (s', es)) :
    Kept getenv startup s' (log ++ es) := by
  cases State.step_cases hstep with
  | same _ hr hn hd =>
    rw [List.append_nil]
    refine ⟨by rw [hn, hr]; exact h.known, by rw [hr]; exact h.mem, by rw [hr]; exact h.made, h.order, fun k => ?_⟩
    rw [hr]
    obtain ⟨hnone, hholds⟩ | ⟨r, rl, hlast, hrl, hholds⟩ := h.writer k
    · exact .inl ⟨hnone, hd k _ hholds⟩
    · exact .inr ⟨r, rl, hlast, hrl, hd k _ hholds⟩
  | request _ cur hupd hn hd =>
    rw [List.append_nil]
    exact h.request hupd hn hd
  | moved r rl rl' hrl hmoved hupd hn hd =>
    rw [List.append_nil]
    exact h.moved hrl hmoved hupd hn hd
  | swap r rl k hrl hstage hupd hn hself hother =>
    refine h.swap hrl hstage ?_ hupd hn hself hother
    simpa [InOrder, hrl, hstage] using hin

/-- Once every reload has been answered, the last first swap and the last swap of every
place are the same reload's. -/
theorem Kept.oneConfiguration {startup : Config} {s : State} {log : List Event} (h : Kept getenv startup s log)
    (hok : s.AllOk) : s.OneConfiguration getenv startup := by
  have hstage : ∀ r rl, s.reloads r = some rl → rl.stage = .answered ⟨.ok, "reloaded"⟩ := fun r rl hrl => by
    simpa [hrl] using hok r ((h.known r).mpr ⟨rl, hrl⟩)
  have hall : ∀ r rl, s.reloads r = some rl → ∀ k, ⟨r, k⟩ ∈ log := fun r rl hrl k => by
    rw [h.made r rl hrl (by rw [hstage r rl hrl]; rintro _ ⟨⟩; rfl), hstage r rl hrl]
    rfl
  by_cases hlog : ∃ e, e ∈ log
  · obtain ⟨e, he⟩ := hlog
    obtain ⟨rl₀, hrl₀⟩ := h.mem e he
    obtain ⟨r, hlast⟩ := exists_lastSwap (hall e.reload rl₀ hrl₀ .cognition)
    obtain ⟨rl, hrl⟩ := h.mem _ hlast.mem
    refine ⟨rl.next, .inr ⟨r, rl, hrl, by rw [hstage r rl hrl]; simp, rfl⟩, fun k => ?_⟩
    obtain ⟨hnone, -⟩ | ⟨r', rl', hlast', hrl', hholds⟩ := h.writer k
    · exact absurd rfl (hnone _ (hall r rl hrl k))
    · by_cases hr : r' = r
      · subst hr
        obtain rfl : rl = rl' := Option.some.inj (hrl.symm.trans hrl')
        exact hholds
      · exact absurd (hlast'.before (hall r rl hrl k) (Ne.symm hr))
          (h.order r' r k (hlast.before (hall r' rl' hrl' .cognition) hr))
  · refine ⟨startup, .inl rfl, fun k => ?_⟩
    obtain ⟨-, hholds⟩ | ⟨r, rl, hlast, -⟩ := h.writer k
    · exact hholds
    · exact absurd ⟨_, hlast.mem⟩ hlog

/-- Reloads that do not overtake each other leave one configuration in force. -/
theorem inOrder_oneConfiguration {file : Bytes} {d : Daemon} {as : List Label} {c : Lib.Config State Event}
    (hstart : Daemon.start site getenv file = some d)
    (hmeet : StepsMeet (State.step site getenv) InOrder ⟨.initial d, []⟩ as)
    (hrun : exec (State.step site getenv) ⟨.initial d, []⟩ as = some c) (hok : c.state.AllOk) :
    c.state.OneConfiguration getenv d.snapshot := by
  have hstep : ∀ {s log a s' es}, Kept getenv d.snapshot s log → InOrder s log a →
      State.step site getenv s a = some (s', es) → Kept getenv d.snapshot s' (log ++ es) :=
    fun hi hin hs => hi.step hin hs
  have hkept : Kept getenv d.snapshot c.state c.log := exec_invariant_of hstep hmeet (.initial hstart) hrun
  exact hkept.oneConfiguration hok

end Run

/-! ### Two reloads -/

def otherFile : Bytes := ascii "socket_path=/s\nhmac_key_file=/k\nreasoning_url=http://c\n"

/-- Two requests; the second reads the file after it has changed. -/
def twoRequests : List Label :=
  [.connect, .connect, .setFile (some fileWithoutLib), .request 0, .request 1, .advance 0, .advance 0,
    .setFile (some otherFile), .advance 1, .advance 1]

/-- The reloads write the places one behind the other. -/
def sideBySide : List Label :=
  twoRequests ++ [Label.advance 0, .advance 1, .advance 0, .advance 1, .advance 0, .advance 1, .advance 0, .advance 1]

/-- The second reload starts and finishes inside the first. -/
def nested : List Label :=
  twoRequests ++ [Label.advance 0, .advance 1, .advance 1, .advance 1, .advance 1, .advance 0, .advance 0, .advance 0]

def runFrom (as : List Label) (d : Daemon) : Option (Lib.Config State Event) :=
  exec (State.step plainSite fun _ => none) ⟨.initial d, []⟩ as

/-- What the two orders of the steps come to. -/
theorem both_orders : (Daemon.start plainSite (fun _ => none) fileWithLib).any (fun d =>
    (decide (StepsMeet (State.step plainSite fun _ => none) InOrder ⟨.initial d, []⟩ sideBySide) &&
      (runFrom sideBySide d).any fun c => c.state.AllOk ∧ c.state.nextReload = 2) &&
    (runFrom nested d).any fun c => c.state.AllOk ∧
      c.state.daemon.consumers.cognition.httpUrl = some (ascii "http://c") ∧
      c.state.daemon.snapshot.provider.text .reasoningUrl = some (ascii "http://b")) = true := by
  rw [Daemon.start, loadConfig_fileWithLib, sideBySide, nested, twoRequests, fileWithoutLib, otherFile]
  repeat rw [ascii_ofList]
  decide +kernel

theorem sideBySide_oneConfiguration :
    ∃ d c, Daemon.start plainSite (fun _ => none) fileWithLib = some d ∧ runFrom sideBySide d = some c ∧
      c.state.nextReload = 2 ∧ c.state.OneConfiguration (fun _ => none) d.snapshot := by
  obtain ⟨d, hstart, hd⟩ := (Option.any_eq_true _ _).mp both_orders
  rw [Bool.and_eq_true, Bool.and_eq_true, decide_eq_true_eq] at hd
  obtain ⟨⟨hmeet, hrun⟩, -⟩ := hd
  obtain ⟨c, hrun, hok⟩ := (Option.any_eq_true _ _).mp hrun
  rw [decide_eq_true_eq] at hok
  exact ⟨d, c, hstart, hrun, hok.2, inOrder_oneConfiguration hstart hmeet hrun hok.1⟩

/-- Both nested reloads are answered `FSQ_OK`, and the cognition tier keeps the endpoint of
one while the snapshot is that of the other. -/
theorem nested_two_configurations :
    ¬ ∀ (site : Site) (getenv : String → Option Bytes) (file : Bytes) (d : Daemon) (as : List Label)
      (c : Lib.Config State Event), Daemon.start site getenv file = some d →
      exec (State.step site getenv) ⟨.initial d, []⟩ as = some c → c.state.AllOk →
        c.state.OneConfiguration getenv d.snapshot := by
  intro h
  obtain ⟨d, hstart, hd⟩ := (Option.any_eq_true _ _).mp both_orders
  rw [Bool.and_eq_true] at hd
  obtain ⟨c, hrun, hc⟩ := (Option.any_eq_true _ _).mp hd.2
  rw [decide_eq_true_eq] at hc
  obtain ⟨hok, hcog, hsnap⟩ := hc
  obtain ⟨cfg, -, hholds⟩ := h plainSite (fun _ => none) fileWithLib d nested c hstart hrun hok
  have hpublished : c.state.daemon.snapshot = cfg := hholds .publish
  have hurl : c.state.daemon.consumers.cognition.httpUrl = some (ascii "http://b") := by
    rw [hholds .cognition, ← hpublished, ProviderCfg.cognition, hsnap]
    rfl
  rw [hurl] at hcog
  revert hcog
  decide

end FractalSQL.Provider
