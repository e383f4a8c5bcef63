import FractalSQL.TextSql.Procedures

/-!
# What the procedures release

A statement that a procedure returns, reports or executes has been through its gates,
as long as no failed call of a gate meets a candidate that nothing else stops. To the
procedures a failed call is a pass.
-/
namespace FractalSQL.TextSql
open Lib Lib.Sql

/-- The allowlist ran to completion on the text and accepted it. -/
def Accepted (w : World) (calls : List GateCall) (sql : Bytes) : Prop :=
  ∃ k, .allowlist k sql ∈ calls ∧ ∃ env, w.allowlist k = some env ∧ checkAllowlist env (some sql) = .null

/-- The reviewer's answer to the text began with PASS. -/
def PassGiven (w : World) (calls : List GateCall) (question sql : Bytes) : Prop :=
  ∃ k, .review k sql ∈ calls ∧ SaidPass (w.review k) question sql

theorem Answer.value_eq_none {a : Answer} : a.value = none ↔ a = .null ∨ a = .failed := by
  cases a <;> simp [Answer.value]

theorem useReview_eq (w : World) (settings : Settings) : w.useReview settings = settings.useReview := by
  cases hs : w.spelling <;> cases hr : settings.useReview <;> simp [World.useReview, BoolSpelling.text, hs, hr]

theorem accepted_append {w : World} {calls more : List GateCall} {sql : Bytes} {k : ℤ}
    (hmore : ∀ j, .allowlist j sql ∈ more ↔ j = k) :
    Accepted w (calls ++ more) sql ↔ Accepted w calls sql ∨ allowlistCall (w.allowlist k) sql = .null := by
  rw [allowlistCall_null]
  constructor
  · rintro ⟨j, hmem, henv⟩
    rcases List.mem_append.mp hmem with hmem | hmem
    · exact .inl ⟨j, hmem, henv⟩
    · rw [(hmore j).mp hmem] at henv
      exact .inr henv
  · rintro (⟨j, hmem, henv⟩ | henv)
    · exact ⟨j, List.mem_append_left _ hmem, henv⟩
    · exact ⟨k, List.mem_append_right _ ((hmore k).mpr rfl), henv⟩

theorem passGiven_append {w : World} {calls more : List GateCall} {question sql : Bytes} {k : ℤ}
    (hmore : ∀ j, .review j sql ∈ more ↔ j = k) :
    PassGiven w (calls ++ more) question sql ↔ PassGiven w calls question sql ∨ SaidPass (w.review k) question sql := by
  constructor
  · rintro ⟨j, hmem, hpass⟩
    rcases List.mem_append.mp hmem with hmem | hmem
    · exact .inl ⟨j, hmem, hpass⟩
    · rw [(hmore j).mp hmem] at hpass
      exact .inr hpass
  · rintro (⟨j, hmem, hpass⟩ | hpass)
    · exact ⟨j, List.mem_append_left _ hmem, hpass⟩
    · exact ⟨k, List.mem_append_right _ ((hmore k).mpr rfl), hpass⟩

/-! ### `fractal_text_to_sql` -/

/-- Whatever is returned has passed the allowlist and, where it is switched on, the
review. -/
def T2sSound (w : World) (question : Option Bytes) : Prop :=
  ∀ final sql, textToSql w question = .ok final → final.outSql = some sql →
    Accepted w final.calls sql ∧
      ∀ settings q, w.config = some settings → question = some q → settings.useReview = true →
        PassGiven w final.calls q sql

/-- A failed call of a gate does not meet a candidate that nothing else stops, unless
the same text has passed that gate before. -/
def T2sState.Gated (w : World) (settings : Settings) (question schema : Bytes) (s : T2sState) : Prop :=
  ∀ candidate, s.Releases w settings question schema candidate →
    (allowlistCall (w.allowlist s.attempt) candidate = .failed → Accepted w s.calls candidate) ∧
      (settings.useReview = true → reviewCall (w.review s.attempt) question candidate = .failed →
        SaidPass (w.review s.attempt) question candidate ∨ PassGiven w s.calls question candidate)

/-- Every attempt is so. -/
def T2sGated (w : World) (question : Option Bytes) : Prop :=
  ∀ settings q schema, question = some q → trim q ≠ [] → w.config = some settings → w.schemaContext = some schema →
    ∀ s, (t2sLoop w settings q schema).Visits {} s → s.running settings = true → s.Gated w settings q schema

/-- What an attempt releases is sound where the attempt is gated. -/
theorem T2sState.step_sound_iff {w : World} {settings : Settings} {question schema : Bytes} {s : T2sState}
    {candidate : Bytes} (h : s.Releases w settings question schema candidate) :
    (Accepted w (s.step w settings question schema).calls candidate ∧
      (settings.useReview = true → PassGiven w (s.step w settings question schema).calls question candidate)) ↔
      (allowlistCall (w.allowlist s.attempt) candidate = .failed → Accepted w s.calls candidate) ∧
        (settings.useReview = true → reviewCall (w.review s.attempt) question candidate = .failed →
          SaidPass (w.review s.attempt) question candidate ∨ PassGiven w s.calls question candidate) := by
  rw [step_of_releases h]
  obtain ⟨-, hallow, hreview, -⟩ := h
  dsimp only
  rw [accepted_append (k := s.attempt) fun j => by simp [World.gateCalls]]
  rw [useReview_eq] at hreview
  refine and_congr ?_ ?_
  · rcases Answer.value_eq_none.mp hallow with ha | ha <;> simp [ha]
  · refine forall_congr' fun hon => ?_
    rw [passGiven_append (k := s.attempt) fun j => by simp [World.gateCalls, useReview_eq, hon]]
    rcases Answer.value_eq_none.mp (hreview hon) with ha | ha
    · simp [ha, saidPass_of_null ha]
    · simp [ha, or_comm]

/-- Nothing is returned while the loop goes on. -/
theorem outSql_of_running {w : World} {settings : Settings} {question schema : Bytes} {s : T2sState}
    (h : (t2sLoop w settings question schema).Visits {} s) (hrun : s.running settings = true) : s.outSql = none := by
  have hinv : s.done = true ∨ s.outSql = none := by
    refine h.invariant (I := fun s => s.done = true ∨ s.outSql = none) (.inr rfl) fun t _ ht htrun => ?_
    by_cases hrel : ∃ candidate, t.Releases w settings question schema candidate
    · obtain ⟨candidate, hrel⟩ := hrel
      left
      change (t.step w settings question schema).done = true
      rw [T2sState.step_of_releases hrel]
    · right
      change (t.step w settings question schema).outSql = none
      rw [(T2sState.step_of_not_releases fun candidate hc => hrel ⟨candidate, hc⟩).1]
      refine ht.resolve_left fun hdone => ?_
      simp [t2sLoop, T2sState.running, hdone] at htrun
  refine hinv.resolve_left fun hdone => ?_
  simp [T2sState.running, hdone] at hrun

/-- What is returned comes from an attempt that released it. -/
theorem textToSql_released {w : World} {question : Option Bytes} {final : T2sState} {sql : Bytes}
    (h : textToSql w question = .ok final) (hsql : final.outSql = some sql) :
    ∃ settings q schema s, question = some q ∧ trim q ≠ [] ∧ w.config = some settings ∧
      w.schemaContext = some schema ∧ (t2sLoop w settings q schema).Visits {} s ∧ s.running settings = true ∧
      s.Releases w settings q schema sql ∧ final = s.step w settings q schema := by
  unfold textToSql at h
  split at h
  · cases h
  · rename_i q
    split at h
    · cases h
    · rename_i hq
      split at h
      · cases h
      · rename_i schema hschema
        split at h
        · cases h
          cases hsql
        · rename_i settings hconfig
          dsimp only at h
          split at h
          · cases h
          · cases h
            rcases WhileLoop.run_cases (l := t2sLoop w settings q schema) {} with hrun | ⟨s, hvisit, hguard, hrun⟩
            · rw [hrun] at hsql
              cases hsql
            · refine ⟨settings, q, schema, s, rfl, hq, hconfig, hschema, hvisit, hguard, ?_, hrun⟩
              have hnone := outSql_of_running hvisit hguard
              rw [hrun] at hsql
              change (s.step w settings q schema).outSql = some sql at hsql
              by_contra hnot
              by_cases hrel : ∃ candidate, s.Releases w settings q schema candidate
              · obtain ⟨candidate, hrel⟩ := hrel
                rw [T2sState.step_of_releases hrel] at hsql
                exact hnot (Option.some.inj hsql ▸ hrel)
              · rw [(T2sState.step_of_not_releases fun candidate hc => hrel ⟨candidate, hc⟩).1, hnone] at hsql
                cases hsql

/-- An attempt that releases its candidate is the last. -/
theorem textToSql_of_releases {w : World} {settings : Settings} {q schema candidate : Bytes} {s : T2sState}
    (hq : trim q ≠ []) (hconfig : w.config = some settings) (hschema : w.schemaContext = some schema)
    (hvisit : (t2sLoop w settings q schema).Visits {} s) (hrun : s.running settings = true)
    (hrel : s.Releases w settings q schema candidate) :
    textToSql w (some q) = .ok (s.step w settings q schema) ∧ (s.step w settings q schema).outSql = some candidate := by
  have hstep := T2sState.step_of_releases hrel
  have hend : (t2sLoop w settings q schema).run {} = s.step w settings q schema := by
    rw [hvisit.run_eq, WhileLoop.run_of_guard hrun]
    refine WhileLoop.run_of_not_guard ?_
    change (s.step w settings q schema).running settings = false
    rw [hstep]
    simp [T2sState.running]
  have hraised : (s.step w settings q schema).raised = false := by
    simp only [T2sState.running, Bool.not_eq_true, decide_eq_true_eq] at hrun
    rw [hstep]
    exact hrun.2.2
  refine ⟨?_, by rw [hstep]⟩
  simp [textToSql, hq, hschema, hconfig, hend, hraised]

theorem t2sSound_iff (w : World) (question : Option Bytes) : T2sSound w question ↔ T2sGated w question := by
  constructor
  · rintro hsound settings q schema rfl hq hconfig hschema s hvisit hrun candidate hrel
    obtain ⟨hok, hsql⟩ := textToSql_of_releases hq hconfig hschema hvisit hrun hrel
    obtain ⟨hacc, hpass⟩ := hsound _ candidate hok hsql
    exact (T2sState.step_sound_iff hrel).mp ⟨hacc, hpass settings q hconfig rfl⟩
  · intro hgated final sql hok hsql
    obtain ⟨settings, q, schema, s, rfl, hq, hconfig, hschema, hvisit, hrun, hrel, rfl⟩ := textToSql_released hok hsql
    obtain ⟨hacc, hpass⟩ :=
      (T2sState.step_sound_iff hrel).mpr (hgated settings q schema rfl hq hconfig hschema s hvisit hrun sql hrel)
    refine ⟨hacc, fun settings' q' hconfig' hq' hon => ?_⟩
    obtain rfl := Option.some.inj (hconfig.symm.trans hconfig')
    obtain rfl := Option.some.inj hq'
    exact hpass hon

/-! ### `fractal_sql_agent` -/

/-- Whatever is reported as a success or executed has passed the allowlist. -/
def AgentSound (w : World) (question : Option Bytes) (maxRetries : Option ℤ) (autoExecute : Option Bool) : Prop :=
  ∀ r sql, sqlAgent w question maxRetries autoExecute = .ok r →
    (r.status = .success ∧ r.generatedSql = some sql ∨ ∃ stmt, r.ran = some (sql, stmt)) → Accepted w r.calls sql

/-- A candidate that passed is reported, or its statement gets as far as EXECUTE. -/
def Reported (w : World) (autoExecute : Option Bool) (candidate : Bytes) : Prop :=
  autoExecute.getD false = false ∨ ∃ kw, w.store kwSize (leadingWord candidate) = some kw ∧
    (w.execute (execSql kw candidate)).before (isQuery kw) = []

/-- A failed call of the allowlist does not meet a candidate that nothing else stops,
unless the same text has been accepted before. -/
def AgentGated (w : World) (question : Option Bytes) (maxRetries : Option ℤ) (autoExecute : Option Bool) : Prop :=
  ∀ q schema, question = some q → trim q ≠ [] → w.schemaContext = some schema →
    ∀ s, (agentLoop w (max 1 (maxRetries.getD 2)) q schema).Visits {} s →
      s.running (max 1 (maxRetries.getD 2)) = true →
        ∀ candidate, s.Passes w q schema candidate → Reported w autoExecute candidate →
          allowlistCall (w.allowlist s.attempt) candidate = .failed → Accepted w s.calls candidate

theorem passed_of_running {w : World} {maxRetries : ℤ} {question schema : Bytes} {s : AgentState}
    (h : (agentLoop w maxRetries question schema).Visits {} s) (hrun : s.running maxRetries = true) :
    s.passed = false := by
  have hinv : s.done = true ∨ s.passed = false := by
    refine h.invariant (I := fun s => s.done = true ∨ s.passed = false) (.inr rfl) fun t _ ht htrun => ?_
    by_cases hpass : ∃ candidate, t.Passes w question schema candidate
    · obtain ⟨candidate, hpass⟩ := hpass
      left
      change (t.step w question schema).done = true
      rw [AgentState.step_of_passes hpass]
    · right
      change (t.step w question schema).passed = false
      rw [(AgentState.step_of_not_passes fun candidate hc => hpass ⟨candidate, hc⟩).1]
      refine ht.resolve_left fun hdone => ?_
      simp [agentLoop, AgentState.running, hdone] at htrun
  refine hinv.resolve_left fun hdone => ?_
  simp [AgentState.running, hdone] at hrun

/-- The end of the procedure behind a candidate that passed. -/
theorem finish_passed {w : World} {autoExecute : Option Bool} {s : AgentState} {candidate : Bytes}
    (hpassed : s.passed = true) (hcand : s.candidate = some candidate) (hgen : s.generatedSql = some candidate) :
    (∀ r sql, s.finish w autoExecute = .ok r →
      (r.status = .success ∧ r.generatedSql = some sql ∨ ∃ stmt, r.ran = some (sql, stmt)) →
        sql = candidate ∧ r.calls = s.calls ∧ Reported w autoExecute candidate) ∧
      (Reported w autoExecute candidate → ∃ r, s.finish w autoExecute = .ok r ∧ r.calls = s.calls ∧
        (r.status = .success ∧ r.generatedSql = some candidate ∨ ∃ stmt, r.ran = some (candidate, stmt))) := by
  cases hauto : autoExecute.getD false with
  | false =>
    have hfinish : s.finish w autoExecute =
        .ok { generatedSql := s.generatedSql, status := .success, calls := s.calls } := by
      simp [AgentState.finish, hpassed, hauto]
    rw [hfinish]
    refine ⟨fun r sql h hr => ?_, fun _ => ⟨_, rfl, rfl, .inl ⟨rfl, hgen⟩⟩⟩
    cases h
    rcases hr with ⟨-, hsql⟩ | ⟨stmt, hran⟩
    · exact ⟨Option.some.inj (hsql.symm.trans hgen), rfl, .inl hauto⟩
    · cases hran
  | true =>
    cases hstore : w.store kwSize (leadingWord candidate) with
    | none =>
      have hfinish : s.finish w autoExecute = .error .server := by
        simp [AgentState.finish, hpassed, hauto, hcand, hstore]
      rw [hfinish]
      refine ⟨fun r sql h _ => absurd h (by simp), ?_⟩
      rintro (h | ⟨kw, hkw, -⟩)
      · simp [hauto] at h
      · simp [hstore] at hkw
    | some kw =>
      have hfinish : ∃ r, s.finish w autoExecute = .ok r ∧ r.calls = s.calls ∧ r.status ≠ .success ∧
          r.ran = if (w.execute (execSql kw candidate)).before (isQuery kw) = [] then
            some (candidate, execSql kw candidate) else none := by
        simp only [AgentState.finish, hpassed, hauto, hcand, Option.getD_some, hstore]
        refine ⟨_, rfl, rfl, ?_, rfl⟩
        dsimp only
        split <;> simp
      obtain ⟨r, hfinish, hcalls, hstatus, hran⟩ := hfinish
      rw [hfinish]
      constructor
      · intro r' sql h hr
        cases h
        obtain ⟨stmt, hr⟩ := hr.resolve_left fun h => hstatus h.1
        rw [hr] at hran
        split at hran
        · rename_i hbefore
          cases hran
          exact ⟨rfl, hcalls, .inr ⟨kw, hstore, hbefore⟩⟩
        · cases hran
      · rintro (h | ⟨kw', hkw, hbefore⟩)
        · simp [hauto] at h
        · obtain rfl := Option.some.inj (hstore.symm.trans hkw)
          exact ⟨r, rfl, hcalls, .inr ⟨execSql kw candidate, by rw [hran, if_pos hbefore]⟩⟩

/-- Nothing is reported behind a loop without a candidate that passed. -/
theorem finish_not_passed {w : World} {autoExecute : Option Bool} {s : AgentState} {r : AgentResult} {sql : Bytes}
    (hpassed : s.passed = false) (h : s.finish w autoExecute = .ok r) :
    ¬ (r.status = .success ∧ r.generatedSql = some sql ∨ ∃ stmt, r.ran = some (sql, stmt)) := by
  simp only [AgentState.finish, hpassed] at h
  cases h
  simp

/-- What is reported or executed comes from an attempt that it passed. -/
theorem sqlAgent_reported {w : World} {question : Option Bytes} {maxRetries : Option ℤ} {autoExecute : Option Bool}
    {r : AgentResult} {sql : Bytes} (h : sqlAgent w question maxRetries autoExecute = .ok r)
    (hr : r.status = .success ∧ r.generatedSql = some sql ∨ ∃ stmt, r.ran = some (sql, stmt)) :
    ∃ q schema s, question = some q ∧ trim q ≠ [] ∧ w.schemaContext = some schema ∧
      (agentLoop w (max 1 (maxRetries.getD 2)) q schema).Visits {} s ∧
      s.running (max 1 (maxRetries.getD 2)) = true ∧ s.Passes w q schema sql ∧ Reported w autoExecute sql ∧
      r.calls = s.calls ++ [.allowlist s.attempt sql] := by
  unfold sqlAgent at h
  split at h
  · cases h
  · rename_i q
    split at h
    · cases h
    · rename_i hq
      split at h
      · cases h
      · rename_i schema hschema
        dsimp only at h
        split at h
        · cases h
        · rcases WhileLoop.run_cases (l := agentLoop w (max 1 (maxRetries.getD 2)) q schema) {} with
            hrun | ⟨s, hvisit, hguard, hrun⟩
          · rw [hrun] at h
            exact absurd hr (finish_not_passed rfl h)
          · rw [hrun] at h
            change (s.step w q schema).finish w autoExecute = .ok r at h
            by_cases hpass : ∃ candidate, s.Passes w q schema candidate
            · obtain ⟨candidate, hpass⟩ := hpass
              rw [AgentState.step_of_passes hpass] at h
              obtain ⟨rfl, hcalls, hrep⟩ := (finish_passed rfl rfl rfl).1 r sql h hr
              exact ⟨q, schema, s, rfl, hq, hschema, hvisit, hguard, hpass, hrep, hcalls⟩
            · have hnot := (AgentState.step_of_not_passes fun candidate hc => hpass ⟨candidate, hc⟩).1
              exact absurd hr (finish_not_passed (hnot.trans (passed_of_running hvisit hguard)) h)

/-- An attempt that its candidate passes is the last. -/
theorem sqlAgent_of_passes {w : World} {maxRetries : Option ℤ} {autoExecute : Option Bool} {q schema candidate : Bytes}
    {s : AgentState} (hq : trim q ≠ []) (hschema : w.schemaContext = some schema)
    (hvisit : (agentLoop w (max 1 (maxRetries.getD 2)) q schema).Visits {} s)
    (hrun : s.running (max 1 (maxRetries.getD 2)) = true) (hpass : s.Passes w q schema candidate)
    (hrep : Reported w autoExecute candidate) :
    ∃ r, sqlAgent w (some q) maxRetries autoExecute = .ok r ∧ r.calls = s.calls ++ [.allowlist s.attempt candidate] ∧
      (r.status = .success ∧ r.generatedSql = some candidate ∨ ∃ stmt, r.ran = some (candidate, stmt)) := by
  have hstep := AgentState.step_of_passes hpass
  have hend : (agentLoop w (max 1 (maxRetries.getD 2)) q schema).run {} = s.step w q schema := by
    rw [hvisit.run_eq, WhileLoop.run_of_guard hrun]
    refine WhileLoop.run_of_not_guard ?_
    change (s.step w q schema).running _ = false
    rw [hstep]
    simp [AgentState.running]
  have hraised : s.raised = none := by
    simp only [AgentState.running, Bool.not_eq_true, decide_eq_true_eq, Option.isNone_iff_eq_none] at hrun
    exact hrun.2.2
  have hlast := @finish_passed w autoExecute (s.step w q schema) candidate (by rw [hstep]) (by rw [hstep]) (by rw [hstep])
  obtain ⟨r, hfinish, hcalls, hr⟩ := hlast.2 hrep
  refine ⟨r, ?_, by rw [hcalls, hstep], hr⟩
  simp only [sqlAgent, hq, hschema, hend]
  rw [show (s.step w q schema).raised = none by rw [hstep]; exact hraised]
  exact hfinish

theorem agentSound_iff (w : World) (question : Option Bytes) (maxRetries : Option ℤ) (autoExecute : Option Bool) :
    AgentSound w question maxRetries autoExecute ↔ AgentGated w question maxRetries autoExecute := by
  have hmore (k j : ℤ) (sql : Bytes) : GateCall.allowlist j sql ∈ [GateCall.allowlist k sql] ↔ j = k := by simp
  constructor
  · rintro hsound q schema rfl hq hschema s hvisit hrun candidate hpass hrep hfailed
    obtain ⟨r, hok, hcalls, hr⟩ := sqlAgent_of_passes hq hschema hvisit hrun hpass hrep
    have hacc := hsound r candidate hok hr
    rw [hcalls, accepted_append fun j => hmore s.attempt j candidate, hfailed] at hacc
    exact hacc.resolve_right (by simp)
  · intro hgated r sql hok hr
    obtain ⟨q, schema, s, hquestion, hq, hschema, hvisit, hrun, hpass, hrep, hcalls⟩ := sqlAgent_reported hok hr
    rw [hcalls, accepted_append fun j => hmore s.attempt j sql]
    rcases Answer.value_eq_none.mp hpass.2.1 with hnull | hfailed
    · exact .inr hnull
    · exact .inl (hgated q schema hquestion hq hschema s hvisit hrun sql hpass hrep hfailed)

/-- What the procedures release has passed its gates, exactly when no failed call of a
gate meets a candidate that nothing else stops and that has not passed before. -/
theorem release_sound_iff (w : World) (question : Option Bytes) (maxRetries : Option ℤ) (autoExecute : Option Bool) :
    (T2sSound w question ↔ T2sGated w question) ∧
      (AgentSound w question maxRetries autoExecute ↔ AgentGated w question maxRetries autoExecute) :=
  ⟨t2sSound_iff w question, agentSound_iff w question maxRetries autoExecute⟩

/-- A model that answers with DROP TABLE, and gates that cannot be reached. -/
def lostGates : World where
  spelling := .digits
  config := some { maxAttempts := 2, allowedStatements := "select", useReview := true }
  store _ text := some text
  jsonQuote text := text
  systemTag := ascii "mariadb1011"
  schemaContext := some []
  generate _ _ _ _ := some (ascii "DROP TABLE t;")
  allowlist _ := none
  review _ := none
  prepare _ _ := none
  execute _ := { savepoint := none, prepare := none, execute := none, settle := none, rows := some 0 }

/-- A statement is released that no gate has seen. -/
theorem lost_gates_release : ¬ ∀ w question maxRetries autoExecute,
    T2sSound w question ∧ AgentSound w question maxRetries autoExecute := by
  intro hall
  obtain ⟨hsound, -⟩ := hall lostGates (some (ascii "drop it")) none none
  have hcand : ({} : T2sState).candidate lostGates { maxAttempts := 2, allowedStatements := "select", useReview := true }
      (ascii "drop it") [] = .ok (ascii "DROP TABLE t") := by
    have htrim : trim (ascii "DROP TABLE t;") ≠ [] := by decide
    have hstrip : stripSemicolon (trim (ascii "DROP TABLE t;")) = ascii "DROP TABLE t" := by decide
    simp [T2sState.candidate, lostGates, htrim, hstrip]
  obtain ⟨hok, hsql⟩ := textToSql_of_releases (w := lostGates) (q := ascii "drop it") (by decide) rfl rfl .start
    (by decide) ⟨hcand, rfl, fun _ => rfl, rfl⟩
  obtain ⟨⟨k, -, env, henv, -⟩, -⟩ := hsound _ _ hok hsql
  cases henv

end FractalSQL.TextSql
