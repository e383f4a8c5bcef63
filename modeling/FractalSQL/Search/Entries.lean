import FractalSQL.Search.CoreParams
import FractalSQL.Search.Inputs

/-!
# The search entries

`fractal_search`, `fractal_search_debug` and `fractal_search_explore` read their arguments, take the context
of a session if one is named, check the sizes and call `fsql_search_ptr`. A run is what an entry does in
order, and how it replies.
-/
namespace FractalSQL.Search
open Lib Lib.JsonGrammar Vectors

/-! ### The work of a search -/

/-- `SEARCH_MAX_WORK`. -/
def searchMaxWork : ℤ := 2147483648

/-- The steps of a search. -/
def Knobs.work (k : Knobs) (dim : ℕ) : ℤ := k.iterations * k.populationSize * k.diffusionFactor * dim

/-- The product as the entries compute it, in 64 bits without a sign. -/
def Knobs.work64 (k : Knobs) (dim : ℕ) : ℤ :=
  (k.iterations % 2 ^ 64 * (k.populationSize % 2 ^ 64) % 2 ^ 64 * (k.diffusionFactor % 2 ^ 64) % 2 ^ 64 * (dim % 2 ^ 64)) % 2 ^ 64

def rangeMessage (name : Bytes) (k : Knobs) : Bytes :=
  name ++ ascii ": params out of range (iterations " ++ decimalInt k.iterations ++ ascii "..10000, population_size " ++
    decimalInt k.populationSize ++ ascii "..10000, diffusion_factor " ++ decimalInt k.diffusionFactor ++ ascii "..32)"

def workMessage (name : Bytes) : Bytes :=
  name ++ ascii ": search too large (iterations x population_size x diffusion_factor x dim exceeds " ++ decimalInt searchMaxWork ++
    ascii ")"

/-! ### Runs -/

/-- What `fractal_session_acquire_exclusive` finds. -/
inductive Grant where
  | context
  | busy
  | unavailable

/-- One call of `fsql_search_ptr`: the session whose context it uses, the rows, the query, `k`, and the text of the
parameters with what it was printed from. -/
structure CoreCall where
  session : Option ℕ
  corpus : List (List Signed)
  query : List Signed
  k : ℤ
  params : CoreParams
  text : Bytes

def CoreCall.work (call : CoreCall) : ℤ := call.params.knobs.work call.query.length

inductive Event where
  | acquired (id : ℕ)
  | compared (knobs : Knobs) (dim : ℕ)
  | searched (call : CoreCall)
  | released (id : ℕ)

inductive Reply where
  | null
  | error
  | refused (message : Bytes)
  | result

structure Run where
  events : List Event
  reply : Reply

/-- The C library, the registry of sessions, and the core. -/
structure Surroundings where
  underflow : ℚ → Bool
  fmt : Signed → Bytes
  grant : ℕ → Grant
  searches : CoreCall → Bool
  copies : CoreCall → Bool

def releases : Option ℕ → List Event
  | none => []
  | some id => [.released id]

/-- The context of a session for the rest of an entry; the entry's own when no session is named or the registry is full. -/
def withSession (env : Surroundings) (id : ℕ) (rest : Option ℕ → Run) : Run :=
  if id = 0 then rest none
  else
    match env.grant id with
    | .context => ⟨.acquired id :: (rest (some id)).events, (rest (some id)).reply⟩
    | .busy => ⟨[], .error⟩
    | .unavailable => rest none

def rangeChecked (name : Bytes) (k : Knobs) (session : Option ℕ) (rest : Run) : Run :=
  if k.inRange then rest else ⟨releases session, .refused (rangeMessage name k)⟩

def workChecked (name : Bytes) (k : Knobs) (dim : ℕ) (session : Option ℕ) (rest : Run) : Run :=
  if searchMaxWork < k.work64 dim then ⟨.compared k dim :: releases session, .refused (workMessage name)⟩
  else ⟨.compared k dim :: rest.events, rest.reply⟩

/-- The call of the core, and what is replied of its result. -/
def coreSearch (env : Surroundings) (call : CoreCall) : Run :=
  ⟨.searched call :: releases call.session,
    if env.searches call && (call.session.isNone || env.copies call) then .result else .error⟩

/-! ### The entries -/

/-- `0.5`. -/
def half : Signed := ⟨false, 1022 * 2 ^ 52⟩

def paramsText (params : Option Bytes) : Bytes := params.getD (ascii "\x7b\x7d")

def sessionId (s : Bytes) : ℕ := jsonGetU64 s (ascii "session_id") 0

def readKnobs (s : Bytes) (iterations : ℤ) : Knobs where
  iterations := jsonGetInt s (ascii "iterations") iterations
  populationSize := jsonGetInt s (ascii "population_size") 50
  diffusionFactor := jsonGetInt s (ascii "diffusion_factor") 2

def readSeed (s : Bytes) : Option ℕ := if jsonHasKey s (ascii "seed") then some (jsonGetU64 s (ascii "seed") 0) else none

/-- `clamp_to_int`. -/
def clampToInt (v : ℤ) : ℤ := if intMax < v then intMax else if v < intMin then intMin else v

def searchParams (underflow : ℚ → Bool) (s : Bytes) : CoreParams :=
  .search (readKnobs s 30) (jsonGetDouble underflow s (ascii "walk") half) (jsonGetBool s (ascii "debug") false) (readSeed s)

def exploreParams (underflow : ℚ → Bool) (s : Bytes) : CoreParams :=
  .explore (readKnobs s 15) (jsonGetDouble underflow s (ascii "walk") ⟨false, 0⟩) (readSeed s)

/-- An optional argument, the default where it is missing or `NULL`. -/
def argument (v : Option Int64) (fallback : ℤ) : ℤ :=
  match v with
  | none => fallback
  | some v => clampToInt v.toInt

def debugParams (iterations populationSize diffusionFactor seed : Option Int64) : CoreParams :=
  .debug ⟨argument iterations 60, argument populationSize 50, argument diffusionFactor 2⟩
    (seed.map fun s => if s.toInt < 0 then 0 else s.toInt.toNat)

/-- `fractal_search`. -/
def fractalSearch (env : Surroundings) (corpus query : Option Bytes) (k : Option Int64) (params : Option Bytes) : Run :=
  match query, k with
  | some query, some k =>
    match readInputs env.underflow corpus query with
    | none => ⟨[], .error⟩
    | some i =>
      if k.toInt < 1 ∨ 1000000 < k.toInt then ⟨[], .error⟩
      else
        let p := searchParams env.underflow (paramsText params)
        withSession env (sessionId (paramsText params)) fun session =>
          rangeChecked (ascii "fractal_search") p.knobs session <|
            workChecked (ascii "fractal_search") p.knobs i.query.length session <|
              coreSearch env ⟨session, if i.corpus = [] then [i.query] else i.corpus, i.query,
                if i.corpus = [] then 1 else min k.toInt i.corpus.length, p, p.buffer env.fmt⟩
  | _, _ => ⟨[], .null⟩

/-- `fractal_search_debug`. -/
def fractalSearchDebug (env : Surroundings) (query : Option Bytes) (iterations populationSize diffusionFactor seed : Option Int64) : Run :=
  match query with
  | none => ⟨[], .null⟩
  | some query =>
    match readQuery env.underflow query with
    | none => ⟨[], .error⟩
    | some q =>
      let p := debugParams iterations populationSize diffusionFactor seed
      rangeChecked (ascii "fractal_search_debug") p.knobs none <|
        workChecked (ascii "fractal_search_debug") p.knobs q.length none <|
          coreSearch env ⟨none, [], q, 1, p, p.buffer env.fmt⟩

/-- `fractal_search_explore`: it has no check of the work. -/
def fractalSearchExplore (env : Surroundings) (corpus query params : Option Bytes) : Run :=
  match query with
  | none => ⟨[], .null⟩
  | some query =>
    match readInputs env.underflow corpus query with
    | none => ⟨[], .error⟩
    | some i =>
      if i.corpus = [] then ⟨[], .null⟩
      else
        let p := exploreParams env.underflow (paramsText params)
        withSession env (sessionId (paramsText params)) fun session =>
          rangeChecked (ascii "fractal_search_explore") p.knobs session <|
            coreSearch env ⟨session, i.corpus, i.query, 1, p, p.buffer env.fmt⟩

/-- The arguments of an entry. -/
inductive Request where
  | search (corpus query : Option Bytes) (k : Option Int64) (params : Option Bytes)
  | debug (query : Option Bytes) (iterations populationSize diffusionFactor seed : Option Int64)
  | explore (corpus query params : Option Bytes)

def Request.run (env : Surroundings) : Request → Run
  | .search corpus query k params => fractalSearch env corpus query k params
  | .debug query iterations populationSize diffusionFactor seed =>
    fractalSearchDebug env query iterations populationSize diffusionFactor seed
  | .explore corpus query params => fractalSearchExplore env corpus query params

/-- The parameters that an entry reads. -/
def Request.coreParams (env : Surroundings) : Request → CoreParams
  | .search _ _ _ params => searchParams env.underflow (paramsText params)
  | .debug _ iterations populationSize diffusionFactor seed => debugParams iterations populationSize diffusionFactor seed
  | .explore _ _ params => exploreParams env.underflow (paramsText params)

/-! ### What a run contains -/

/-- An entry has a context: its own, or that of a session that nobody uses. -/
def Surroundings.Free (env : Surroundings) (id : ℕ) : Prop := id = 0 ∨ env.grant id ≠ .busy

/-- A call of `fractal_search_explore` that reaches the core with more work than the other entries allow. -/
def Request.Oversized (env : Surroundings) : Request → Prop
  | .explore corpus (some query) params =>
    let p := exploreParams env.underflow (paramsText params)
    ∃ i, readInputs env.underflow corpus query = some i ∧ i.corpus ≠ [] ∧
      env.Free (sessionId (paramsText params)) ∧
      p.knobs.inRange = true ∧ searchMaxWork < p.knobs.work i.query.length
  | _ => False

/-- What every event of a run is like. -/
def Request.Allows (env : Surroundings) (req : Request) : Event → Prop
  | .acquired _ | .released _ => True
  | .compared k dim => k.inRange = true ∧ dim ≤ maxQueryDim
  | .searched call => call.params = req.coreParams env ∧ call.text = call.params.buffer env.fmt ∧
    call.params.knobs.inRange = true ∧ (call.work ≤ searchMaxWork ∨ req.Oversized env)

def Run.Holds (P : Event → Prop) (r : Run) : Prop := ∀ e ∈ r.events, P e

/-- The product does not wrap. -/
theorem Knobs.work64_eq {k : Knobs} (h : k.inRange = true) {dim : ℕ} (hdim : dim ≤ maxQueryDim) : k.work64 dim = k.work dim := by
  obtain ⟨hi0, hi, hp0, hp, hd0, hd⟩ := of_decide_eq_true h
  have hdim' : (dim : ℤ) ≤ 1048576 := by exact_mod_cast hdim
  have htwo : 0 ≤ k.iterations * k.populationSize := mul_nonneg (by omega) (by omega)
  have htwo' : k.iterations * k.populationSize ≤ 10000 * 10000 := mul_le_mul hi hp (by omega) (by norm_num)
  have hthree : 0 ≤ k.iterations * k.populationSize * k.diffusionFactor := mul_nonneg htwo (by omega)
  have hthree' : k.iterations * k.populationSize * k.diffusionFactor ≤ 10000 * 10000 * 32 :=
    mul_le_mul htwo' hd (by omega) (by norm_num)
  have hfour : 0 ≤ k.iterations * k.populationSize * k.diffusionFactor * dim := mul_nonneg hthree (by omega)
  have hfour' : k.iterations * k.populationSize * k.diffusionFactor * dim ≤ 10000 * 10000 * 32 * 1048576 :=
    mul_le_mul hthree' hdim' (by omega) (by norm_num)
  rw [Knobs.work64, Knobs.work, Int.emod_eq_of_lt (a := k.iterations) (by omega) (by omega),
    Int.emod_eq_of_lt (a := k.populationSize) (by omega) (by omega), Int.emod_eq_of_lt (a := k.diffusionFactor) (by omega) (by omega),
    Int.emod_eq_of_lt (a := (dim : ℤ)) (by omega) (by omega), Int.emod_eq_of_lt htwo (by omega), Int.emod_eq_of_lt hthree (by omega),
    Int.emod_eq_of_lt hfour (by omega)]

section
variable {env : Surroundings} {P : Event → Prop}

theorem holds_nil (P : Event → Prop) (reply : Reply) : Run.Holds P ⟨[], reply⟩ := List.forall_mem_nil _

theorem holds_releases (hreleased : ∀ id, P (.released id)) (session : Option ℕ) : ∀ e ∈ releases session, P e := by
  cases session with
  | none => exact List.forall_mem_nil _
  | some id => exact List.forall_mem_singleton.mpr (hreleased id)

theorem holds_withSession (hacquired : ∀ id, P (.acquired id)) {id : ℕ} {rest : Option ℕ → Run}
    (h : env.Free id → ∀ session, (rest session).Holds P) : (withSession env id rest).Holds P := by
  rw [withSession]
  split_ifs with hid
  · exact h (.inl hid) none
  · cases hgrant : env.grant id with
    | context => exact List.forall_mem_cons.mpr ⟨hacquired id, h (.inr (by rw [hgrant]; nofun)) (some id)⟩
    | busy => exact holds_nil P _
    | unavailable => exact h (.inr (by rw [hgrant]; nofun)) none

theorem holds_rangeChecked (hreleased : ∀ id, P (.released id)) {name : Bytes} {k : Knobs} {session : Option ℕ} {rest : Run}
    (h : k.inRange = true → rest.Holds P) : (rangeChecked name k session rest).Holds P := by
  rw [rangeChecked]
  split_ifs with hrange
  · exact h hrange
  · exact holds_releases hreleased session

theorem holds_workChecked (hreleased : ∀ id, P (.released id)) {name : Bytes} {k : Knobs} {dim : ℕ} {session : Option ℕ} {rest : Run}
    (hcompared : P (.compared k dim)) (h : k.work64 dim ≤ searchMaxWork → rest.Holds P) :
    (workChecked name k dim session rest).Holds P := by
  rw [workChecked]
  split_ifs with hwork
  · exact List.forall_mem_cons.mpr ⟨hcompared, holds_releases hreleased session⟩
  · exact List.forall_mem_cons.mpr ⟨hcompared, h (not_lt.mp hwork)⟩

theorem holds_coreSearch (hreleased : ∀ id, P (.released id)) {call : CoreCall} (h : P (.searched call)) :
    (coreSearch env call).Holds P :=
  List.forall_mem_cons.mpr ⟨h, holds_releases hreleased call.session⟩

theorem readInputs_dim {underflow : ℚ → Bool} {corpus : Option Bytes} {query : Bytes} {i : Inputs}
    (h : readInputs underflow corpus query = some i) : i.query.length ≤ maxQueryDim := by
  rw [readInputs] at h
  split_ifs at h
  obtain ⟨q, hq, hrows⟩ := Option.bind_eq_some_iff.mp h
  obtain ⟨rows, -, rfl⟩ := Option.map_eq_some_iff.mp hrows
  exact (readQuery_dim hq).2

/-- Every event of a run is one that is allowed. -/
theorem Request.run_holds (env : Surroundings) (req : Request) : (req.run env).Holds (req.Allows env) := by
  have hacquired : ∀ id, req.Allows env (.acquired id) := fun _ => trivial
  have hreleased : ∀ id, req.Allows env (.released id) := fun _ => trivial
  cases req with
  | search corpus query k params =>
    rw [Request.run, fractalSearch.eq_def]
    split
    · rename_i query k
      cases hread : readInputs env.underflow corpus query with
      | none => exact holds_nil _ _
      | some i =>
        have hdim := readInputs_dim hread
        dsimp only
        by_cases hk : k.toInt < 1 ∨ 1000000 < k.toInt
        · rw [if_pos hk]
          exact holds_nil _ _
        · rw [if_neg hk]
          refine holds_withSession hacquired fun _ session => holds_rangeChecked hreleased fun hrange => ?_
          refine holds_workChecked hreleased ⟨hrange, hdim⟩ fun hwork => holds_coreSearch hreleased ?_
          rw [Knobs.work64_eq hrange hdim] at hwork
          exact ⟨rfl, rfl, hrange, .inl hwork⟩
    · exact holds_nil _ _
  | debug query iterations populationSize diffusionFactor seed =>
    rw [Request.run, fractalSearchDebug.eq_def]
    cases query with
    | none => exact holds_nil _ _
    | some query =>
      dsimp only
      cases hread : readQuery env.underflow query with
      | none => exact holds_nil _ _
      | some q =>
        have hdim := (readQuery_dim hread).2
        refine holds_rangeChecked hreleased fun hrange => ?_
        refine holds_workChecked hreleased ⟨hrange, hdim⟩ fun hwork => holds_coreSearch hreleased ?_
        rw [Knobs.work64_eq hrange hdim] at hwork
        exact ⟨rfl, rfl, hrange, .inl hwork⟩
  | explore corpus query params =>
    rw [Request.run, fractalSearchExplore.eq_def]
    cases query with
    | none => exact holds_nil _ _
    | some query =>
      dsimp only
      cases hread : readInputs env.underflow corpus query with
      | none => exact holds_nil _ _
      | some i =>
        dsimp only
        by_cases hrows : i.corpus = []
        · rw [if_pos hrows]
          exact holds_nil _ _
        · rw [if_neg hrows]
          refine holds_withSession hacquired fun hfree session => holds_rangeChecked hreleased fun hrange => ?_
          refine holds_coreSearch hreleased ⟨rfl, rfl, hrange, ?_⟩
          rw [or_iff_not_imp_left, not_le]
          exact fun hwork => ⟨i, hread, hrows, hfree, hrange, hwork⟩

/-! ### Sessions -/

def Event.isSession : Event → Bool
  | .acquired _ | .released _ => true
  | .compared .. | .searched _ => false

/-- What a run does with the registry. -/
def Run.sessions (r : Run) : List Event := r.events.filter Event.isSession

/-- Nothing is acquired, or one session is and is given back. -/
def Run.Paired (r : Run) : Prop := r.sessions = [] ∨ ∃ id, r.sessions = [.acquired id, .released id]

theorem paired_nil (reply : Reply) : Run.Paired ⟨[], reply⟩ := .inl rfl

theorem filter_releases (session : Option ℕ) : (releases session).filter Event.isSession = releases session := by
  cases session <;> rfl

theorem sessions_coreSearch (env : Surroundings) (call : CoreCall) : (coreSearch env call).sessions = releases call.session :=
  filter_releases call.session

theorem sessions_workChecked {name : Bytes} {k : Knobs} {dim : ℕ} {session : Option ℕ} {rest : Run}
    (h : rest.sessions = releases session) : (workChecked name k dim session rest).sessions = releases session := by
  rw [workChecked]
  split_ifs
  · exact filter_releases session
  · exact h

theorem sessions_rangeChecked {name : Bytes} {k : Knobs} {session : Option ℕ} {rest : Run}
    (h : rest.sessions = releases session) : (rangeChecked name k session rest).sessions = releases session := by
  rw [rangeChecked]
  split_ifs
  · exact h
  · exact filter_releases session

/-- A rest that gives its session back makes a pair of the acquisition. -/
theorem paired_withSession {id : ℕ} {rest : Option ℕ → Run} (h : ∀ session, (rest session).sessions = releases session) :
    (withSession env id rest).Paired := by
  rw [withSession]
  split_ifs
  · exact .inl (h none)
  · cases env.grant id with
    | context => exact .inr ⟨id, congrArg (Event.acquired id :: ·) (h (some id))⟩
    | busy => exact paired_nil _
    | unavailable => exact .inl (h none)

/-- Every session that an entry acquires is released exactly once, however the entry ends. -/
theorem Request.run_paired (env : Surroundings) (req : Request) : (req.run env).Paired := by
  cases req with
  | search corpus query k params =>
    rw [Request.run, fractalSearch.eq_def]
    split
    · rename_i query k
      cases readInputs env.underflow corpus query with
      | none => exact paired_nil _
      | some i =>
        dsimp only
        by_cases hk : k.toInt < 1 ∨ 1000000 < k.toInt
        · rw [if_pos hk]
          exact paired_nil _
        · rw [if_neg hk]
          apply paired_withSession
          intro session
          exact sessions_rangeChecked (sessions_workChecked (sessions_coreSearch env _))
    · exact paired_nil _
  | debug query iterations populationSize diffusionFactor seed =>
    rw [Request.run, fractalSearchDebug.eq_def]
    cases query with
    | none => exact paired_nil _
    | some query =>
      dsimp only
      cases readQuery env.underflow query with
      | none => exact paired_nil _
      | some q => exact .inl (sessions_rangeChecked (sessions_workChecked (sessions_coreSearch env _)))
  | explore corpus query params =>
    rw [Request.run, fractalSearchExplore.eq_def]
    cases query with
    | none => exact paired_nil _
    | some query =>
      dsimp only
      cases readInputs env.underflow corpus query with
      | none => exact paired_nil _
      | some i =>
        dsimp only
        by_cases hrows : i.corpus = []
        · rw [if_pos hrows]
          exact paired_nil _
        · rw [if_neg hrows]
          apply paired_withSession
          intro session
          exact sessions_rangeChecked (sessions_coreSearch env _)

/-! ### The bound -/

/-- The core's work is bounded, what is compared is the product itself, and sessions are released once. -/
structure Run.Bounded (r : Run) : Prop where
  work : ∀ call, .searched call ∈ r.events → call.work ≤ searchMaxWork
  exact : ∀ k dim, .compared k dim ∈ r.events → k.work64 dim = k.work dim
  paired : r.Paired

/-- An entry with a context to use goes on. -/
theorem withSession_goes {id : ℕ} (h : env.Free id) (rest : Option ℕ → Run) :
    ∃ session, ∀ e ∈ (rest session).events, e ∈ (withSession env id rest).events := by
  rw [withSession]
  split_ifs with hid
  · exact ⟨none, fun e he => he⟩
  · cases hgrant : env.grant id with
    | context => exact ⟨some id, fun e he => List.mem_cons_of_mem _ he⟩
    | busy => exact absurd hgrant (h.resolve_left hid)
    | unavailable => exact ⟨none, fun e he => he⟩

theorem explore_goes {corpus params : Option Bytes} {query : Bytes} {i : Inputs}
    (hread : readInputs env.underflow corpus query = some i) (hrows : i.corpus ≠ [])
    (hfree : env.Free (sessionId (paramsText params)))
    (hrange : (exploreParams env.underflow (paramsText params)).knobs.inRange = true) :
    ∃ call, .searched call ∈ (fractalSearchExplore env corpus (some query) params).events ∧
      call.params = exploreParams env.underflow (paramsText params) ∧ call.query = i.query := by
  rw [fractalSearchExplore, hread]
  dsimp only
  rw [if_neg hrows]
  let p := exploreParams env.underflow (paramsText params)
  let call session : CoreCall := ⟨session, i.corpus, i.query, 1, p, p.buffer env.fmt⟩
  obtain ⟨session, hsession⟩ := withSession_goes hfree fun session =>
    rangeChecked (ascii "fractal_search_explore") p.knobs session (coreSearch env (call session))
  refine ⟨call session, hsession _ ?_, rfl, rfl⟩
  rw [rangeChecked, if_pos hrange]
  exact List.mem_cons_self ..

theorem Request.Oversized.unbounded {req : Request} (h : req.Oversized env) : ¬ (req.run env).Bounded := by
  intro hbounded
  cases req with
  | search corpus query k params => exact h
  | debug query iterations populationSize diffusionFactor seed => exact h
  | explore corpus query params =>
    cases query with
    | none => exact h
    | some query =>
      obtain ⟨i, hread, hrows, hfree, hrange, hwork⟩ := h
      obtain ⟨call, hcall, hparams, hquery⟩ := explore_goes hread hrows hfree hrange
      have hle := hbounded.work call hcall
      rw [CoreCall.work, hparams, hquery] at hle
      exact absurd hwork (not_lt.mpr hle)

/-- The work is bounded on every call but those of `fractal_search_explore` that are too large. -/
theorem work_bounded_iff (env : Surroundings) (req : Request) : (req.run env).Bounded ↔ ¬ req.Oversized env := by
  constructor
  · exact fun hbounded hover => hover.unbounded hbounded
  · intro hover
    exact {
      work := fun call hcall => (req.run_holds env _ hcall).2.2.2.resolve_right hover
      exact := fun k dim hcompared => Knobs.work64_eq (req.run_holds env _ hcompared).1 (req.run_holds env _ hcompared).2
      paired := req.run_paired env }

/-- A core that always answers, and no sessions. -/
def alone : Surroundings where
  underflow _ := true
  fmt _ := ascii "0.5"
  grant _ := .unavailable
  searches _ := true
  copies _ := true

/-- 10000 iterations of 10000 particles that diffuse 32 times, over one row. -/
theorem explore_unbounded : ¬ ∀ env req, (Request.run env req).Bounded := by
  intro h
  obtain ⟨params, hparams⟩ : ∃ params, params =
      ascii "\x7b\"iterations\":10000,\"population_size\":10000,\"diffusion_factor\":32\x7d" := ⟨_, rfl⟩
  rw [ascii_ofList] at hparams
  have hread : readInputs alone.underflow (some (ascii "1")) (ascii "1") = some ⟨[⟨false, 1023 * 2 ^ 52⟩], [[⟨false, 1023 * 2 ^ 52⟩]]⟩ := by
    decide +kernel
  have hid : sessionId params = 0 := by
    rw [hparams]
    decide +kernel
  have hrange : (exploreParams alone.underflow params).knobs.inRange = true := by
    rw [hparams]
    decide +kernel
  have hwork : searchMaxWork < (exploreParams alone.underflow params).knobs.work 1 := by
    rw [hparams]
    decide +kernel
  have hover : (Request.explore (some (ascii "1")) (some (ascii "1")) (some params)).Oversized alone :=
    ⟨_, hread, List.cons_ne_nil _ _, .inl hid, hrange, hwork⟩
  exact hover.unbounded (h alone _)

/-! ### Parameters of a run -/

/-- The text of the parameters is whole, and an object with the members that are meant. -/
structure CoreCall.WellFormed (env : Surroundings) (req : Request) (call : CoreCall) : Prop where
  params : call.params = req.coreParams env
  whole : call.text = call.params.text env.fmt
  object : ∃ t, JsonText call.text t ∧ t.plain = .obj [] (call.params.members env.fmt)

/-- Whether the caller supplied a seed. -/
def Request.seeded : Request → Bool
  | .search _ _ _ params | .explore _ _ params => jsonHasKey (paramsText params) (ascii "seed")
  | .debug _ _ _ _ seed => seed.isSome

theorem readSeed_isSome (s : Bytes) : (readSeed s).isSome = jsonHasKey s (ascii "seed") := by
  rw [readSeed]
  cases jsonHasKey s (ascii "seed") <;> rfl

theorem Request.seed_isSome (env : Surroundings) (req : Request) : (req.coreParams env).seed.isSome = req.seeded := by
  cases req with
  | search corpus query k params => exact readSeed_isSome _
  | debug query iterations populationSize diffusionFactor seed => cases seed <;> rfl
  | explore corpus query params => exact readSeed_isSome _

theorem getU64_lt (s key : Bytes) {fallback : ℕ} (h : fallback < 2 ^ 64) : jsonGetU64 s key fallback < 2 ^ 64 := by
  rw [jsonGetU64]
  cases valueOf s key with
  | none => exact h
  | some v =>
    dsimp only
    split_ifs with _ _ _ hlarge
    · exact h
    · exact h
    · exact h
    · exact h
    · exact not_le.mp hlarge

theorem getDouble_finite (underflow : ℚ → Bool) (s key : Bytes) {fallback : Signed} (h : binary64.finite fallback = true) :
    binary64.finite (jsonGetDouble underflow s key fallback) = true := by
  rw [jsonGetDouble]
  cases valueOf s key with
  | none => exact h
  | some v =>
    dsimp only
    split_ifs
    · exact h
    · exact h
    · exact h
    · cases strtod underflow (v.take (jsonNumberEnd v)) with
      | none => rfl
      | some r =>
        dsimp only
        split_ifs with _ hfinite
        · exact h
        · exact h
        · simpa using hfinite

theorem readSeed_lt (s : Bytes) : ∀ seed ∈ readSeed s, seed < 2 ^ 64 := by
  intro seed hseed
  rw [readSeed] at hseed
  split_ifs at hseed
  · cases hseed
    exact getU64_lt s (ascii "seed") (by decide)
  · cases hseed

theorem Request.seed_lt (env : Surroundings) (req : Request) : ∀ seed ∈ (req.coreParams env).seed, seed < 2 ^ 64 := by
  cases req with
  | search corpus query k params => exact readSeed_lt _
  | debug query iterations populationSize diffusionFactor seed =>
    intro n hn
    obtain ⟨s, -, rfl⟩ := Option.map_eq_some_iff.mp hn
    have hlt := s.toInt_lt
    split_ifs <;> omega
  | explore corpus query params => exact readSeed_lt _

theorem Request.walk_finite (env : Surroundings) (req : Request) : (req.coreParams env).Finite := by
  cases req with
  | search corpus query k params => exact getDouble_finite env.underflow _ _ (by decide)
  | debug query iterations populationSize diffusionFactor seed => trivial
  | explore corpus query params => exact getDouble_finite env.underflow _ _ (by decide)

/-- The parameters that reach the core are well formed exactly when the caller supplied a seed. -/
theorem core_params_iff (env : Surroundings) (hfmt : Prints env.fmt) (req : Request) (call : CoreCall)
    (hcall : .searched call ∈ (req.run env).events) : call.WellFormed env req ↔ req.seeded = true := by
  obtain ⟨hparams, htext, hrange, -⟩ := req.run_holds env _ hcall
  have hwalk := req.walk_finite env
  have hseed := req.seed_isSome env
  have hlt := req.seed_lt env
  rw [← hparams] at hwalk hseed hlt
  have hwhole : call.text = call.params.text env.fmt := htext.trans (CoreParams.buffer_eq hfmt hwalk hrange hlt)
  rw [← hseed]
  constructor
  · intro h
    by_contra hnone
    rw [Option.not_isSome_iff_eq_none] at hnone
    have hobject := h.object
    rw [hwhole] at hobject
    exact CoreParams.invalid_of_none hfmt hwalk hnone hobject
  · intro h
    obtain ⟨seed, hsome⟩ := Option.isSome_iff_exists.mp h
    exact ⟨hparams, hwhole, by rw [hwhole]; exact CoreParams.valid_of_seed hfmt hwalk hsome⟩

end

theorem alone_prints : Prints alone.fmt := by
  intro x _
  have hhalf : IsNumber (ascii "0.5") := isNumber_sound (by decide)
  have hlength : (ascii "0.5").length ≤ 13 := by decide
  exact ⟨hhalf, hlength⟩

/-- One number, the defaults, and perhaps a seed: the core is called. -/
theorem debug_goes (seed : Option Int64) :
    ∃ call, .searched call ∈ (Request.run alone (.debug (some (ascii "1")) none none none seed)).events := by
  have hread : readQuery alone.underflow (ascii "1") = some [⟨false, 1023 * 2 ^ 52⟩] := by decide +kernel
  have hrange : (debugParams none none none seed).knobs.inRange = true := rfl
  have hwork : ¬ searchMaxWork < (debugParams none none none seed).knobs.work64 1 := by
    change ¬ searchMaxWork < Knobs.work64 ⟨60, 50, 2⟩ 1
    decide
  rw [Request.run, fractalSearchDebug, hread]
  dsimp only
  rw [rangeChecked, if_pos hrange, workChecked, List.length_singleton, if_neg hwork]
  exact ⟨_, List.mem_cons_of_mem _ (List.mem_cons_self ..)⟩

/-- With the seed 7. -/
theorem seeded_wellFormed : ∃ call, (Event.searched call ∈ (Request.run alone (.debug (some (ascii "1")) none none none (some 7))).events) ∧
    CoreCall.WellFormed alone (.debug (some (ascii "1")) none none none (some 7)) call := by
  obtain ⟨call, hcall⟩ := debug_goes (some 7)
  exact ⟨call, hcall, (core_params_iff alone alone_prints _ call hcall).mpr rfl⟩

/-- Without a seed the text ends with a zero behind `true`. -/
theorem seedless_malformed : ¬ ∀ env, Prints env.fmt → ∀ req call, .searched call ∈ (Request.run env req).events →
    CoreCall.WellFormed env req call := by
  intro h
  obtain ⟨call, hcall⟩ := debug_goes none
  have hwell := h alone alone_prints _ call hcall
  have hobject := hwell.object
  have hnone : call.params.seed = none := by rw [hwell.params]; rfl
  have hwalk : call.params.Finite := by
    rw [hwell.params]
    trivial
  rw [hwell.whole] at hobject
  exact CoreParams.invalid_of_none alone_prints hwalk hnone hobject

end FractalSQL.Search
