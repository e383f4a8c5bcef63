import FractalSQL.Service.Minting

/-!
# Closing a statement

A deinit is sent without the hook that revalidates a call, so its frame carries the
handle of whatever connection and daemon lifetime the statement was opened in. A
restarted daemon counts from 1 again, and the number can then belong to another
statement that is open on the current connection.
-/
namespace FractalSQL.Service
open Lib

/-- The handle numbers of the daemon have not wrapped, and a deinit that is about to
be sent is for a statement that was opened in the daemon lifetime of the socket in
use, or no other statement of the current generation has the same number. -/
def SafeDeinit (s : System) (log : List SystemEvent) (l : SystemLabel) : Prop :=
  s.daemon.nextHandle < 2 ^ 64 ∧
    ∀ written stmt x st k, l = .send written → s.shim.pc = .deinit stmt x →
      s.shim.stmts stmt = some st → s.shim.fd = some k →
        (∃ k', .connected k' st.gen ∈ log ∧ k'.epoch = k.epoch) ∨
          ∀ j other, j ≠ stmt → s.shim.stmts j = some other → other.gen = s.shim.gen →
            other.handle ≠ st.handle

/-- The connect of the statement's generation, in the daemon lifetime of `k`. -/
def SystemEvent.inLifetime (st : Stmt) (k : Sock) : SystemEvent → Bool
  | .connected k' g => g = st.gen ∧ k'.epoch = k.epoch
  | _ => false

/-- The first of the two ways to be safe, as a test: the statement was opened in the
daemon lifetime of the socket in use. -/
def deinitInLifetime (s : System) (log : List SystemEvent) (l : SystemLabel) : Bool :=
  s.daemon.nextHandle < 2 ^ 64 &&
    match l, s.shim.pc, s.shim.fd with
    | .send _, .deinit stmt _, some k =>
      match s.shim.stmts stmt with
      | some st => log.any (SystemEvent.inLifetime st k)
      | none => true
    | _, _, _ => true

/-- No deinit on its way names the handle that another open statement holds on the
same connection. -/
def DeinitsOwn (s : System) (log : List SystemEvent) : Prop :=
  ∀ k f payload, (s.links k).request = some f → f.req = .deinit payload →
    ∀ j st, j ≠ f.stmt → s.shim.stmts j = some st → .connected k st.gen ∈ log →
      parseHandle payload ≠ some st.handle

structure ClosingInv (s : System) (log : List SystemEvent) : Prop where
  bound : Bound s log
  minting : Minting s log
  deinits : DeinitsOwn s log

theorem safeDeinit_of_lifetime {s : System} {log : List SystemEvent} {l : SystemLabel}
    (h : deinitInLifetime s log l) : SafeDeinit s log l := by
  unfold deinitInLifetime at h
  rw [Bool.and_eq_true, decide_eq_true_eq] at h
  refine ⟨h.1, ?_⟩
  rintro written stmt x st k rfl hpc hst hfd
  have hlife := h.2
  rw [hpc, hfd] at hlife
  simp only [hst, List.any_eq_true] at hlife
  obtain ⟨e, he, hmatch⟩ := hlife
  cases e with
  | connected k' g =>
    obtain ⟨rfl, hepoch⟩ : g = st.gen ∧ k'.epoch = k.epoch := of_decide_eq_true hmatch
    exact .inl ⟨k', he, hepoch⟩
  | sent => cases hmatch
  | served => cases hmatch

section Step
variable {fns : List Fn} {s s' : System} {log es : List SystemEvent} {l : SystemLabel}

/-- A step that puts no request on a connection and opens no statement. -/
theorem DeinitsOwn.keep (h : DeinitsOwn s log)
    (hrequest : ∀ k f, (s'.links k).request = some f → (s.links k).request = some f)
    (hstmts : ∀ i st, s'.shim.stmts i = some st → s.shim.stmts i = some st)
    (hconn : ∀ i st k, s.shim.stmts i = some st → .connected k st.gen ∈ log ++ es →
      .connected k st.gen ∈ log) : DeinitsOwn s' (log ++ es) := by
  intro k f payload hreq hf j st hj hst hmem
  exact h k f payload (hrequest k f hreq) hf j st hj (hstmts j st hst) (hconn j st k (hstmts j st hst) hmem)

theorem connected_of_no_connect {k : Sock} {g : ℕ} (hes : ∀ k g, .connected k g ∉ es)
    (h : .connected k g ∈ log ++ es) : .connected k g ∈ log :=
  (List.mem_append.mp h).resolve_right (hes k g)

theorem parseHandle_leBytes (handle : UInt64) : parseHandle (leBytes 8 handle.toNat) = some handle := by
  have hexact : takeExact 8 (leBytes 8 handle.toNat) = some (leBlock 8 handle.toNat, []) :=
    takeExact_eq_some.mpr (by simp)
  rw [parseHandle, hexact, Option.map_some]
  exact congrArg some (uint64_leBytes handle)

/-- A statement of the current generation holds a handle of the socket in use. -/
theorem Bound.minted_on {stmt : ℕ} {st : Stmt} {k : Sock} (h : Bound s log)
    (hst : s.shim.stmts stmt = some st) (hconn : .connected k st.gen ∈ log) :
    ∃ f, f.stmt = stmt ∧ Minted log k (some f) st.handle := by
  obtain ⟨k', hk', f, payload, hstmt, -, -, hserved⟩ := h.minted stmt st hst
  obtain rfl := h.numbered.oneSock k' k _ hk' hconn
  exact ⟨f, hstmt, k'.conn, hserved⟩

/-- Two statements opened in one lifetime have different handles. -/
theorem ClosingInv.handles_ne (h : ClosingInv s log) {i j : ℕ} {st other : Stmt} {k k' : Sock}
    (hst : s.shim.stmts i = some st) (hother : s.shim.stmts j = some other)
    (hk : .connected k st.gen ∈ log) (hk' : .connected k' other.gen ∈ log) (hepoch : k.epoch = k'.epoch)
    (hne : j ≠ i) : other.handle ≠ st.handle := by
  intro heq
  obtain ⟨f, rfl, hf⟩ := h.bound.minted_on hst hk
  obtain ⟨g, rfl, hg⟩ := h.bound.minted_on hother hk'
  rw [heq] at hg
  cases h.minting.unique k k' _ _ _ hf hg hepoch
  exact hne rfl

theorem ClosingInv.write (h : ClosingInv s log) {stmt : ℕ} {x : Exchange} {k : Sock} {f : Frame}
    (hsafe : SafeDeinit s log (.send true)) (hx : s.shim.pc.exchange = some (stmt, x))
    (hfd : s.shim.fd = some k) (hf : f = ⟨s.shim.nextRequest, stmt, x.req⟩)
    (hlinks : s'.links = Function.update s.links k { s.links k with request := some f })
    (hstmts : s'.shim.stmts = s.shim.stmts) : DeinitsOwn s' (log ++ [.sent k f]) := by
  intro k' g payload hreq hg j other hj hother hmem
  rw [hstmts] at hother
  have hconn : .connected k' other.gen ∈ log := connected_of_no_connect (by simp) hmem
  by_cases hk : k' = k
  · subst hk
    rw [hlinks, Function.update_self] at hreq
    obtain rfl : g = f := (Option.some.inj hreq).symm
    subst hf
    obtain ⟨st, hpc, hst, rfl⟩ := h.bound.pc.send_deinit hx hg
    have hgen : other.gen = s.shim.gen :=
      h.bound.numbered.oneGen k' _ _ hconn (h.bound.numbered.fd k' hfd)
    have hne : other.handle ≠ st.handle := by
      rcases hsafe.2 true stmt x st k' rfl hpc hst hfd with ⟨k₀, hk₀, hepoch⟩ | hother'
      · exact h.handles_ne hst hother hk₀ hconn hepoch hj
      · exact hother' j other hj hother hgen
    rw [parseHandle_leBytes]
    exact fun heq => hne (Option.some.inj heq).symm
  · rw [hlinks, Function.update_of_ne hk] at hreq
    exact h.deinits k' g payload hreq hg j other hj hother hconn

/-- A request on one of the connections after one of them was changed. -/
theorem request_of_update {links : Sock → Link} {k k' : Sock} {link : Link} {f : Frame}
    (h : (Function.update links k link k').request = some f)
    (hlink : ∀ g, link.request = some g → (links k).request = some g) : (links k').request = some f := by
  rw [Function.update_apply] at h
  split at h
  · rename_i heq
    rw [heq]
    exact hlink f h
  · exact h

/-- The answer that opens a statement has emptied the socket in use. -/
theorem ClosingInv.answered (h : ClosingInv s log) {k : Sock} {f : Frame} {reply : Reply} {stmtOk : Bool}
    (hfd : s.shim.fd = some k) (hresponse : (s.links k).response = some (f, reply))
    (hlinks : s'.links = Function.update s.links k { s.links k with response := none })
    (hshim : s'.shim = s.shim.answered reply stmtOk) : DeinitsOwn s' (log ++ []) := by
  intro k' g payload hreq hg j st hj hst hmem
  rw [List.append_nil] at hmem
  rw [hshim] at hst
  rw [hlinks] at hreq
  have hrequest := request_of_update hreq fun _ hg => hg
  rcases answered_stmts h.bound.pc h.bound.names hst with hold | ⟨-, hgen, -⟩
  · exact h.deinits k' g payload hrequest hg j st hj hold hmem
  · rw [hgen] at hmem
    obtain rfl := h.bound.numbered.oneSock k' k _ hmem (h.bound.numbered.fd k hfd)
    have hframes := (h.bound.wired.frames_eq hfd (mem_frames_response hresponse)).2
    have hempty := (frames_recv hresponse hframes).2
    simp [Link.frames, hrequest] at hempty

theorem after_request {d : Daemon} {dl : DaemonLabel} {link : Link} {f : Frame}
    (h : (link.after d dl).request = some f) : link.request = some f := by
  rcases after_cases d dl link with ⟨heq, -⟩ | heq | ⟨conn, g, reply, -, -, -, heq⟩ <;> rw [heq] at h
  · exact h
  · cases h
  · exact h

theorem ClosingInv.move (h : ClosingInv s log) (hsafe : SafeDeinit s log l)
    (hm : SystemMove fns s l s' es) : ClosingInv s' (log ++ es) := by
  refine ⟨h.bound.move hm, h.minting.move hm hsafe.1, ?_⟩
  have hnil {k : Sock} {g : ℕ} (hmem : .connected k g ∈ log ++ []) : .connected k g ∈ log := by
    rwa [List.append_nil] at hmem
  cases hm with
  | udfInit | udfCall | udfDeinit | keepConn =>
    exact h.deinits.keep (fun _ _ hr => hr) (fun _ _ hst => hst) fun _ _ _ _ => hnil
  | forget =>
    exact h.deinits.keep (fun _ _ hr => hr) (fun _ _ hst => stmts_of_update_none hst) fun _ _ _ _ => hnil
  | newConn =>
    refine h.deinits.keep (fun k f hr => request_of_update hr (fun _ hg => (nomatch hg))) (fun _ _ hst => hst) ?_
    intro i st k hst hmem
    -- The generation of an open statement is an earlier one.
    obtain ⟨k₀, hk₀, -⟩ := h.bound.minted i st hst
    have hle := (h.bound.numbered.known k₀ _ hk₀).1
    rcases List.mem_append.mp hmem with hold | hnew
    · exact hold
    · obtain ⟨-, hg⟩ := SystemEvent.connected.inj (List.mem_singleton.mp hnew)
      omega
  | retry =>
    exact h.deinits.keep (fun _ _ hr => hr) (fun _ _ hst => retry_stmts hst) fun _ _ _ _ => hnil
  | hook =>
    exact h.deinits.keep (fun _ _ hr => hr) (fun _ _ hst => by rwa [callReconnect_stmts] at hst)
      fun _ _ _ _ => hnil
  | write hx hpoint hfd hf => exact h.write hsafe hx hfd hf rfl rfl
  | writeFailed =>
    exact h.deinits.keep (fun _ _ hr => hr) (fun _ _ hst => retry_stmts hst)
      fun _ _ _ _ => connected_of_no_connect (by simp)
  | recv hx hpoint hfd hresponse hshim =>
    rcases hshim with rfl | rfl | rfl
    · exact h.deinits.keep (fun _ _ hr => request_of_update hr fun _ hg => hg)
        (fun _ _ hst => retry_stmts hst) fun _ _ _ _ => hnil
    · exact h.answered hfd hresponse rfl rfl
    · exact h.deinits.keep (fun _ _ hr => request_of_update hr fun _ hg => hg)
        (fun _ _ hst => giveUp_stmts hst) fun _ _ _ _ => hnil
  | receive =>
    exact h.deinits.keep (fun _ _ hr => request_of_update hr (fun _ hg => (nomatch hg))) (fun _ _ hst => hst)
      fun _ _ _ _ => connected_of_no_connect (by simp)
  | daemon =>
    exact h.deinits.keep (fun _ _ hr => request_of_update hr fun _ hg => after_request hg)
      (fun _ _ hst => hst) fun _ _ _ _ => connected_of_no_connect (by simp)
  | restart => exact h.deinits.keep (fun _ _ hr => hr) (fun _ _ hst => hst) fun _ _ _ _ => hnil

end Step

theorem closingInv_init (base : UInt64) : ClosingInv (System.initial base) [] where
  bound := bound_init base
  minting := {
    below := fun _ _ _ h => nomatch h
    unique := fun _ _ _ _ _ h => nomatch h
    held := fun _ _ _ h => nomatch h
    distinct := fun _ _ _ _ _ _ h => nomatch h }
  deinits := nofun

/-! ### What a deinit removes -/

theorem move_removed {d d' : Daemon} {conn c : ℕ} {req : Request} {des : List DaemonEvent} {id : UInt64}
    (hm : Move d (.receive conn req) d' des) (hmem : .removed c id ∈ des) :
    ∃ payload, req = .deinit payload ∧ parseHandle payload = some id := by
  cases hm with
  | deinit _ hid hes =>
    rcases hes with rfl | rfl
    · cases List.mem_singleton.mp hmem
      exact ⟨_, rfl, hid⟩
    · cases hmem
  | _ => simp at hmem

theorem receive_removed {fns : List Fn} {s s' : System} {es : List SystemEvent} {conn c : ℕ} {k : Sock}
    {f : Frame} {id : UInt64} (hm : SystemMove fns s (.receive conn) s' es)
    (hmem : .served k (some f) (.removed c id) ∈ es) :
    (s.links k).request = some f ∧ ∃ payload, f.req = .deinit payload ∧ parseHandle payload = some id := by
  cases hm with
  | receive hrequest hstep =>
    obtain ⟨e, he, heq⟩ := List.mem_map.mp hmem
    cases heq
    exact ⟨hrequest, move_removed (step_move hstep) he⟩
  | retry => cases hmem

/-- In every run whose deinits are safe, the deinit of a statement never removes the
handle that another open statement holds. -/
theorem deinit_spares_others (fns : List Fn) (base : UInt64) (labels : List SystemLabel)
    (cfg : Config System SystemEvent)
    (hsafe : StepsMeet (System.step fns) SafeDeinit ⟨System.initial base, []⟩ labels)
    (hrun : exec (System.step fns) ⟨System.initial base, []⟩ labels = some cfg) (conn : ℕ) (s' : System)
    (es : List SystemEvent) (hstep : cfg.state.step fns (.receive conn) = some (s', es)) (k : Sock) (f : Frame)
    (c : ℕ) (id : UInt64) (hremoved : .served k (some f) (.removed c id) ∈ es) (j : ℕ) (st : Stmt)
    (hother : j ≠ f.stmt) (hst : cfg.state.shim.stmts j = some st) (hconn : .connected k st.gen ∈ cfg.log) :
    st.handle ≠ id := by
  have hinv : ClosingInv cfg.state cfg.log :=
    exec_invariant_of (fun h hl hs => h.move hl (system_move hs)) hsafe (closingInv_init base) hrun
  obtain ⟨hrequest, payload, hreq, hid⟩ := receive_removed (system_move hstep) hremoved
  rintro rfl
  exact hinv.deinits k f payload hrequest hreq j st hother hst hconn hid

/-! ### Sample runs -/

/-- A statement is opened, on a new connection or on the one in use. -/
def sampleOpenStmt (alive : Bool) : List SystemLabel :=
  [SystemLabel.udfInit (ascii "f") [], .connect alive true, .send true] ++ sampleServeInit 1 ++ [SystemLabel.recv true true]

/-- The statement 0 is closed over the connection in use, up to the daemon's reading
of the frame. -/
def sampleDeinit : List SystemLabel := [.udfDeinit 0, .connect true false, .send true]

/-- After a run, the generation and the handle of a statement, whether its generation
is the one of a connection, and what the daemon's next reading does. -/
def sampleReading (labels : List SystemLabel) (k : Sock) (j : ℕ) :
    Option (Option (ℕ × UInt64) × Bool × List SystemEvent) :=
  (exec (System.step sampleFns) ⟨System.initial 1, []⟩ labels).bind fun cfg =>
    (cfg.state.step sampleFns (.receive k.conn)).map fun (_, es) =>
      ((cfg.state.shim.stmts j).map fun st => (st.gen, st.handle),
        (cfg.state.shim.stmts j).any fun st => .connected k st.gen ∈ cfg.log, es)

theorem sampleReading_some {labels : List SystemLabel} {k : Sock} {j g : ℕ} {id : UInt64}
    {es : List SystemEvent} (h : sampleReading labels k j = some (some (g, id), true, es)) :
    ∃ cfg s' st, exec (System.step sampleFns) ⟨System.initial 1, []⟩ labels = some cfg ∧
      cfg.state.step sampleFns (.receive k.conn) = some (s', es) ∧ cfg.state.shim.stmts j = some st ∧
      .connected k st.gen ∈ cfg.log ∧ st.handle = id := by
  obtain ⟨cfg, hrun, hlast⟩ := Option.bind_eq_some_iff.mp h
  obtain ⟨⟨s', es'⟩, hstep, heq⟩ := Option.map_eq_some_iff.mp hlast
  cases hst : cfg.state.shim.stmts j with
  | none =>
    rw [hst] at heq
    cases heq
  | some st =>
    rw [hst] at heq
    simp only [Option.map_some, Option.any_some, Prod.mk.injEq, Option.some.injEq,
      decide_eq_true_eq] at heq
    obtain ⟨⟨-, hid⟩, hconn, rfl⟩ := heq
    exact ⟨cfg, s', st, hrun, hstep, hst, hconn, hid⟩

theorem deinit_spares_others_two_open :
    ∃ cfg s' st, exec (System.step sampleFns) ⟨System.initial 1, []⟩
        (sampleOpenStmt false ++ sampleOpenStmt true ++ sampleDeinit) = some cfg ∧
      cfg.state.step sampleFns (.receive 1) =
        some (s', [.served ⟨0, 1⟩ (some ⟨3, 0, .deinit (leBytes 8 1)⟩) (.removed 1 1)]) ∧
      cfg.state.shim.stmts 1 = some st ∧ .connected ⟨0, 1⟩ st.gen ∈ cfg.log ∧ st.handle ≠ 1 := by
  have hsafe : StepsMeet (System.step sampleFns) (fun s log l => deinitInLifetime s log l)
      ⟨System.initial 1, []⟩ (sampleOpenStmt false ++ sampleOpenStmt true ++ sampleDeinit) := by
    decide +kernel
  obtain ⟨cfg, s', st, hrun, hstep, hst, hconn, -⟩ := sampleReading_some
    (show sampleReading (sampleOpenStmt false ++ sampleOpenStmt true ++ sampleDeinit) ⟨0, 1⟩ 1 =
      some (some (1, 2), true, [.served ⟨0, 1⟩ (some ⟨3, 0, .deinit (leBytes 8 1)⟩) (.removed 1 1)]) by
      decide +kernel)
  exact ⟨cfg, s', st, hrun, hstep, hst, hconn, deinit_spares_others sampleFns 1 _ cfg
    (hsafe.mono safeDeinit_of_lifetime) hrun 1 s' _ hstep _ _ _ _ (List.mem_singleton.mpr rfl) 1 st
    (by decide) hst hconn⟩

/-- The statement 0 was opened before a restart of the daemon and the statement 1
after it: both have the handle 1, and closing the one removes the other's. -/
theorem deinit_removes_other :
    ¬ ∀ (fns : List Fn) (base : UInt64) (labels : List SystemLabel) (cfg : Config System SystemEvent),
      exec (System.step fns) ⟨System.initial base, []⟩ labels = some cfg →
        ∀ (conn : ℕ) (s' : System) (es : List SystemEvent),
          cfg.state.step fns (.receive conn) = some (s', es) →
            ∀ (k : Sock) (f : Frame) (c : ℕ) (id : UInt64), .served k (some f) (.removed c id) ∈ es →
              ∀ (j : ℕ) (st : Stmt), j ≠ f.stmt → cfg.state.shim.stmts j = some st →
                .connected k st.gen ∈ cfg.log → st.handle ≠ id := by
  intro hclaim
  obtain ⟨cfg, s', st, hrun, hstep, hst, hconn, hid⟩ := sampleReading_some
    (show sampleReading (sampleOpenStmt false ++ [.restart] ++ sampleOpenStmt false ++ sampleDeinit)
        ⟨1, 1⟩ 1 =
      some (some (2, 1), true, [.served ⟨1, 1⟩ (some ⟨3, 0, .deinit (leBytes 8 1)⟩) (.removed 1 1)]) by
      decide +kernel)
  exact hclaim sampleFns 1 _ cfg hrun 1 s' _ hstep _ _ _ _ (List.mem_singleton.mpr rfl) 1 st (by decide)
    hst hconn hid

end FractalSQL.Service
