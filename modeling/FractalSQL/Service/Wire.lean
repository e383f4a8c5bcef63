import FractalSQL.Service.Connections

/-!
# What is under way on a connection

A connection carries at most one frame of the shim at a time: on its way, being
served, or answered. So nothing is under way on the socket while the shim is not
waiting, and a reply it accepts answers its own frame. A good reply to an init
carries the handle the daemon minted while serving it.
-/
namespace FractalSQL.Service
open Lib

/-- The frames of the shim that are under way. -/
def Link.frames (link : Link) : List Frame :=
  link.request.toList ++ (link.serving.toList ++ (link.response.map Prod.fst).toList)

/-- The frame whose response the shim waits for. -/
def Pc.awaited (pc : Pc) : Option Frame :=
  match pc.exchange with
  | some (_, ⟨_, _, _, .await f⟩) => some f
  | _ => none

/-- A good reply to the frame carries a handle minted while it was served. -/
def ReplyMinted (log : List SystemEvent) (k : Sock) (f : Frame) (reply : Reply) : Prop :=
  reply.status = .ok → .served k (some f) (.minted k.conn (handleAt 0 reply.body)) ∈ log

/-- Where a thread can stand that serves an init. -/
def InitPhase (log : List SystemEvent) (k : Sock) (f : Frame) : Phase → Prop
  | .initialising _ _ | .linking _ _ => True
  | .replying reply => ReplyMinted log k f reply
  | _ => False

structure Wired (s : System) (log : List SystemEvent) : Prop where
  flight : ∀ k, s.shim.fd = some k → (s.links k).frames = [] ∨
    ∃ f, s.shim.pc.awaited = some f ∧ (s.links k).frames = [f]
  sent : ∀ k, ∀ f ∈ (s.links k).frames, .sent k f ∈ log
  serving : ∀ c phase f payload, s.daemon.threads c = some phase →
    (s.links ⟨s.epoch, c⟩).serving = some f → f.req = .init payload →
      InitPhase log ⟨s.epoch, c⟩ f phase
  response : ∀ k f payload reply, (s.links k).response = some (f, reply) → f.req = .init payload →
    ReplyMinted log k f reply

theorem InitPhase.mono {log es : List SystemEvent} {k : Sock} {f : Frame} {phase : Phase}
    (h : InitPhase log k f phase) : InitPhase (log ++ es) k f phase := by
  cases phase with
  | replying reply => exact fun hok => List.mem_append_left es (h hok)
  | _ => exact h

theorem handleAt_initBody (h : Handle) (maybeNull : Bool) : handleAt 0 (initBody h maybeNull) = h.id := by
  rw [handleAt, fieldAt, List.drop_zero, initBody, List.take_left' (leBytes_length 8 _), uint64_leBytes]

/-! ### Steps of the shim -/

section Shim
variable {s s' : System} {log es : List SystemEvent}

theorem awaited_setPoint {stmt : ℕ} {x : Exchange} (hx : s.shim.pc.exchange = some (stmt, x)) (f : Frame) :
    (s.shim.setPoint x (.await f)).pc.awaited = some f := by
  unfold Shim.setPoint Pc.awaited
  cases hpc : s.shim.pc with
  | idle =>
    rw [hpc] at hx
    cases hx
  | _ => rfl

theorem awaited_none {stmt : ℕ} {x : Exchange} (hx : s.shim.pc.exchange = some (stmt, x))
    (hpoint : ∀ f, x.point ≠ .await f) : s.shim.pc.awaited = none := by
  obtain ⟨req, max, attempt, point⟩ := x
  unfold Pc.awaited
  rw [hx]
  cases point with
  | await f => exact absurd rfl (hpoint f)
  | _ => rfl

/-- While the shim does not wait, nothing is under way on its socket. -/
theorem Wired.quiet (h : Wired s log) (hawait : s.shim.pc.awaited = none) {k : Sock}
    (hfd : s.shim.fd = some k) : (s.links k).frames = [] := by
  rcases h.flight k hfd with hnil | ⟨f, hf, -⟩
  · exact hnil
  · rw [hawait] at hf
    cases hf

/-- A step of the shim alone, which does not wait or gives the socket up. -/
theorem Wired.keep (h : Wired s log) {shim : Shim}
    (hfd : shim.fd = none ∨ shim.fd = s.shim.fd ∧ s.shim.pc.awaited = none) :
    Wired { s with shim } (log ++ es) where
  flight k hk := by
    rcases hfd with hnone | ⟨heq, hawait⟩
    · rw [hnone] at hk
      cases hk
    · exact .inl (h.quiet hawait (heq ▸ hk))
  sent k f hf := List.mem_append_left es (h.sent k f hf)
  serving c phase f payload hp hs hf := (h.serving c phase f payload hp hs hf).mono
  response k f payload reply hr hf hok := List.mem_append_left es (h.response k f payload reply hr hf hok)

/-- A step that changes one connection and its thread. -/
theorem Wired.relink (h : Wired s log) {shim : Shim} {d : Daemon} {k : Sock} {link : Link}
    (hflight : ∀ k', shim.fd = some k' → (Function.update s.links k link k').frames = [] ∨
      ∃ f, shim.pc.awaited = some f ∧ (Function.update s.links k link k').frames = [f])
    (hsent : ∀ f ∈ link.frames, .sent k f ∈ log ++ es)
    (hthreads : ∀ c, ⟨s.epoch, c⟩ ≠ k → d.threads c = s.daemon.threads c)
    (hserving : ∀ c phase f payload, k = ⟨s.epoch, c⟩ → d.threads c = some phase →
      link.serving = some f → f.req = .init payload → InitPhase (log ++ es) k f phase)
    (hresponse : ∀ f payload reply, link.response = some (f, reply) → f.req = .init payload →
      ReplyMinted (log ++ es) k f reply) :
    Wired ⟨shim, s.epoch, d, Function.update s.links k link⟩ (log ++ es) where
  flight := hflight
  sent k' f hf := by
    by_cases hk : k' = k
    · subst hk
      exact hsent f (by simpa using hf)
    · exact List.mem_append_left es (h.sent k' f (by simpa [hk] using hf))
  serving c phase f payload hp hs hf := by
    by_cases hk : ⟨s.epoch, c⟩ = k
    · subst hk
      exact hserving c phase f payload rfl hp (by simpa using hs) hf
    · exact (h.serving c phase f payload (hthreads c hk ▸ hp) (by simpa [hk] using hs) hf).mono
  response k' f payload reply hr hf := by
    by_cases hk : k' = k
    · subst hk
      exact hresponse f payload reply (by simpa using hr) hf
    · exact fun hok => List.mem_append_left es
        (h.response k' f payload reply (by simpa [hk] using hr) hf hok)

/-- What is left of the response it had when the shim has read it. -/
theorem frames_recv {link : Link} {f f' : Frame} {reply : Reply}
    (hresponse : link.response = some (f', reply)) (hframes : link.frames = [f]) :
    f' = f ∧ ({ link with response := none } : Link).frames = [] := by
  obtain ⟨shim, request, serving, response⟩ := link
  cases hresponse
  cases request <;> cases serving <;> simp_all [Link.frames]

theorem frames_request {link : Link} (f : Frame) (hquiet : link.frames = []) :
    ({ link with request := some f } : Link).frames = [f] := by
  obtain ⟨shim, request, serving, response⟩ := link
  cases request <;> cases serving <;> cases response <;> simp_all [Link.frames]

theorem Wired.write (h : Wired s log) {stmt : ℕ} {x : Exchange} {k : Sock} {f : Frame} {n : UInt32}
    (hx : s.shim.pc.exchange = some (stmt, x)) (hpoint : x.point = .send) (hfd : s.shim.fd = some k) :
    Wired ({ s with shim := { s.shim with nextRequest := n }.setPoint x (.await f) }.setLink k
      { s.links k with request := some f }) (log ++ [.sent k f]) := by
  have hframes := frames_request f (h.quiet (awaited_none hx (by simp [hpoint])) hfd)
  refine h.relink (fun k' hk' => ?_) (fun f' hf' => ?_) (fun _ _ => rfl)
    (fun c phase f' payload hk hp hs hf' => ?_) (fun f' payload reply hr hf' hok => ?_)
  · cases hfd.symm.trans hk'
    rw [Function.update_self]
    exact .inr ⟨f, awaited_setPoint hx f, hframes⟩
  · rw [hframes] at hf'
    cases List.mem_singleton.mp hf'
    exact List.mem_append_right _ (List.mem_singleton.mpr rfl)
  · subst hk
    exact (h.serving c phase f' payload hp hs hf').mono
  · exact List.mem_append_left _ (h.response k f' payload reply hr hf' hok)

/-- On the socket, the only frame is the one awaited. -/
theorem Wired.frames_eq (h : Wired s log) {k : Sock} {f' : Frame} (hfd : s.shim.fd = some k)
    (hmem : f' ∈ (s.links k).frames) : s.shim.pc.awaited = some f' ∧ (s.links k).frames = [f'] := by
  rcases h.flight k hfd with hnil | ⟨f, hawait, hf⟩
  · rw [hnil] at hmem
    cases hmem
  · rw [hf] at hmem
    cases List.mem_singleton.mp hmem
    exact ⟨hawait, hf⟩

theorem mem_frames_response {link : Link} {f : Frame} {reply : Reply}
    (h : link.response = some (f, reply)) : f ∈ link.frames := by
  simp [Link.frames, h]

/-- The shim has read the response of its frame; what it does with it is open. -/
theorem Wired.recv (h : Wired s log) {shim : Shim} {k : Sock} {f' : Frame} {reply : Reply}
    (hfd : s.shim.fd = some k) (hresponse : (s.links k).response = some (f', reply))
    (hshim : shim.fd = s.shim.fd ∨ shim.fd = none) :
    Wired { s.setLink k { s.links k with response := none } with shim } (log ++ []) := by
  have hempty := (frames_recv hresponse (h.frames_eq hfd (mem_frames_response hresponse)).2).2
  refine h.relink (fun k' hk' => ?_) (fun f hf => ?_) (fun _ _ => rfl)
    (fun c phase f payload hk hp hs hf => ?_) (fun f payload reply' hr => ?_)
  · rcases hshim with heq | hnone
    · cases hfd.symm.trans (heq.symm.trans hk')
      rw [Function.update_self]
      exact .inl hempty
    · cases hnone.symm.trans hk'
  · rw [hempty] at hf
    cases hf
  · subst hk
    exact (h.serving c phase f payload hp hs hf).mono
  · cases hr

theorem Wired.newConn (h : Wired s log) {shim : Shim} {k : Sock} {g : ℕ}
    (hk : k = ⟨s.epoch, s.daemon.nextConn⟩) (hfd : shim.fd = some k) :
    Wired ({ s with shim, daemon := s.daemon.accept }.setLink k { shim := true })
      (log ++ [.connected k g]) := by
  refine h.relink (fun k' hk' => ?_) (fun f hf => ?_) (fun c hc => ?_)
    (fun c phase f payload _ _ hs => ?_) (fun f payload reply' hr => ?_)
  · cases hfd.symm.trans hk'
    rw [Function.update_self]
    exact .inl rfl
  · cases hf
  · exact move_threads_of_ne .accept fun heq => hc (by rw [hk, heq]; rfl)
  · cases hs
  · cases hr

end Shim

/-! ### Steps of the daemon -/

section Daemon
variable {fns : List Fn} {s s' : System} {log : List SystemEvent} {d : Daemon} {es : List DaemonEvent}

theorem receive_reading {conn : ℕ} {req : Request} {d' : Daemon}
    (h : d.step fns (.receive conn req) = some (d', es)) : d.threads conn = some .reading := by
  simp only [Daemon.step] at h
  split at h
  · assumption
  · cases h

theorem frames_receive {link : Link} {f : Frame} (hrequest : link.request = some f) :
    (∀ g, link.frames = [g] → ({ link with request := none, serving := some f } : Link).frames = [g]) ∧
      ∀ g ∈ ({ link with request := none, serving := some f } : Link).frames, g ∈ link.frames := by
  obtain ⟨shim, request, serving, response⟩ := link
  cases hrequest
  cases serving <;> cases response <;> simp_all [Link.frames]

theorem setPhase_self {conn : ℕ} {phase phase' : Phase}
    (h : (d.setPhase conn phase).threads conn = some phase') : phase' = phase := by
  rw [setPhase_threads, if_pos rfl] at h
  exact (Option.some.inj h).symm

theorem release_self (d : Daemon) (conn : ℕ) : (d.release conn).threads conn = none := by
  rw [release_threads, if_pos rfl]

/-- A refusal is no good reply. -/
theorem initPhase_refused {k : Sock} {f : Frame} {reply : Reply} (h : reply.status ≠ .ok) :
    InitPhase log k f (.replying reply) := fun hok => absurd hok h

theorem initPhase_receive {conn : ℕ} {payload : Bytes} {d' : Daemon} {phase : Phase} {k : Sock} {f : Frame}
    (hm : Move d (.receive conn (.init payload)) d' es) (hreading : d.threads conn = some .reading)
    (hphase : d'.threads conn = some phase) : InitPhase log k f phase := by
  cases hm with
  | refuse _ hstatus =>
    cases setPhase_self hphase
    exact initPhase_refused hstatus
  | beginInit =>
    cases setPhase_self hphase
    trivial
  | kept hbefore hbody =>
    cases hreading.symm.trans hbefore
    rcases hbody with hb | hb <;> cases hb
  | unkept hbefore hbody =>
    cases hreading.symm.trans hbefore
    rcases hbody with hb | hb | hb <;> cases hb
  | close => cases (release_self d conn).symm.trans hphase

/-- A thread that serves an init stays with it until its reply is sent. -/
theorem initPhase_move {l : DaemonLabel} {d' : Daemon} {phase phase' : Phase} {e : ℕ} {f : Frame}
    (hm : Move d l d' es) (hbefore : d.threads (l.conn d) = some phase)
    (hin : InitPhase log ⟨e, l.conn d⟩ f phase) (haccept : l ≠ .accept)
    (hphase : d'.threads (l.conn d) = some phase') :
    InitPhase (log ++ es.map (.served ⟨e, l.conn d⟩ (some f))) ⟨e, l.conn d⟩ f phase' ∨
      ∃ conn reply, l = .reply conn true ∧ d.threads conn = some (.replying reply) := by
  cases hm with
  | accept => exact absurd rfl haccept
  | refuse _ hstatus =>
    cases setPhase_self hphase
    exact .inl (initPhase_refused hstatus)
  | takeId =>
    cases setPhase_self hphase
    exact .inl trivial
  | link =>
    cases setPhase_self hphase
    refine .inl fun _ => List.mem_append_right _ ?_
    rw [handleAt_initBody]
    exact List.mem_singleton.mpr rfl
  | sent hp => exact .inr ⟨_, _, rfl, hp⟩
  | close => cases (release_self d _).symm.trans hphase
  | kept hp hbody =>
    cases hbefore.symm.trans hp
    rcases hbody with rfl | rfl <;> cases hin
  | unkept hp hbody =>
    cases hbefore.symm.trans hp
    rcases hbody with rfl | rfl | rfl <;> cases hin
  | beginInit hp | beginCall hp | beginUntokened hp | deinit hp | cancel hp | replay hp | miss hp
  | found hp | sawMark hp | unmarked hp | clearMark hp | start hp | bodyFailed hp | coreMarked hp
  | store hp =>
    cases hbefore.symm.trans hp
    cases hin

theorem Wired.receive (h : Wired s log) {conn : ℕ} {f : Frame}
    (hrequest : (s.links ⟨s.epoch, conn⟩).request = some f)
    (hstep : s.daemon.step fns (.receive conn f.req) = some (d, es)) :
    Wired ({ s with daemon := d }.setLink ⟨s.epoch, conn⟩
        { s.links ⟨s.epoch, conn⟩ with request := none, serving := some f })
      (log ++ es.map (.served ⟨s.epoch, conn⟩ (some f))) := by
  obtain ⟨hsame, hsub⟩ := frames_receive hrequest
  have hmem : f ∈ (s.links ⟨s.epoch, conn⟩).frames := by simp [Link.frames, hrequest]
  refine h.relink (fun k hk => ?_) (fun g hg => ?_) (fun c hc => ?_)
    (fun c phase g payload hk hp hs hg => ?_) (fun g payload reply hr hg hok => ?_)
  · by_cases heq : k = ⟨s.epoch, conn⟩
    · subst heq
      obtain ⟨hawait, hframes⟩ := h.frames_eq hk hmem
      rw [Function.update_self]
      exact .inr ⟨f, hawait, hsame f hframes⟩
    · rw [Function.update_of_ne heq]
      exact h.flight k hk
  · exact List.mem_append_left _ (h.sent _ g (hsub g hg))
  · exact move_threads_of_ne (step_move hstep) fun heq => hc (by rw [heq]; rfl)
  · cases hk
    cases hs
    have hm := step_move hstep
    rw [hg] at hm
    exact initPhase_receive hm (receive_reading hstep) hp
  · exact List.mem_append_left _ (h.response _ g payload reply hr hg hok)

/-- What a step of the daemon does to its connection, case by case. -/
theorem after_cases (d : Daemon) (l : DaemonLabel) (link : Link) :
    (link.after d l = link ∧ l ≠ .accept ∧ ∀ conn f reply, l = .reply conn true → link.serving = some f →
        d.threads conn ≠ some (.replying reply)) ∨
      link.after d l = {} ∨
      ∃ conn f reply, l = .reply conn true ∧ link.serving = some f ∧
        d.threads conn = some (.replying reply) ∧
        link.after d l = { link with serving := none, response := some (f, reply) } := by
  unfold Link.after
  split
  · exact .inr (.inl rfl)
  · rename_i conn f reply hs hp
    exact .inr (.inr ⟨conn, f, reply, rfl, hs, hp, rfl⟩)
  · rename_i haccept hreply
    refine .inl ⟨rfl, haccept, ?_⟩
    rintro conn f reply rfl hs hp
    exact hreply conn f reply rfl hs hp

theorem frames_reply {link : Link} {f : Frame} {reply : Reply} (hserving : link.serving = some f) :
    (∀ g, link.frames = [g] →
        ({ link with serving := none, response := some (f, reply) } : Link).frames = [g]) ∧
      ∀ g ∈ ({ link with serving := none, response := some (f, reply) } : Link).frames,
        g ∈ link.frames := by
  obtain ⟨shim, request, serving, response⟩ := link
  cases hserving
  cases request <;> cases response <;> simp_all [Link.frames]

theorem after_frames (d : Daemon) (l : DaemonLabel) (link : Link) :
    (∀ g, link.frames = [g] → (link.after d l).frames = [] ∨ (link.after d l).frames = [g]) ∧
      ∀ g ∈ (link.after d l).frames, g ∈ link.frames := by
  rcases after_cases d l link with ⟨heq, -⟩ | heq | ⟨conn, f, reply, -, hs, -, heq⟩
  · rw [heq]
    exact ⟨fun _ hg => .inr hg, fun _ hg => hg⟩
  · rw [heq]
    exact ⟨fun _ _ => .inl rfl, fun _ hg => by cases hg⟩
  · rw [heq]
    exact ⟨fun g hg => .inr ((frames_reply hs).1 g hg), (frames_reply hs).2⟩

theorem Wired.daemon (h : Wired s log) {l : DaemonLabel} (hstep : s.daemon.step fns l = some (d, es)) :
    Wired ({ s with daemon := d }.setLink ⟨s.epoch, l.conn s.daemon⟩
        ((s.links ⟨s.epoch, l.conn s.daemon⟩).after s.daemon l))
      (log ++ es.map (.served ⟨s.epoch, l.conn s.daemon⟩
        (s.links ⟨s.epoch, l.conn s.daemon⟩).serving)) := by
  obtain ⟨hsame, hsub⟩ := after_frames s.daemon l (s.links ⟨s.epoch, l.conn s.daemon⟩)
  have hm := step_move hstep
  refine h.relink (fun k hk => ?_) (fun g hg => ?_) (fun c hc => ?_)
    (fun c phase g payload hk hp hs hg => ?_) (fun g payload reply hr hg => ?_)
  · by_cases heq : k = ⟨s.epoch, l.conn s.daemon⟩
    · subst heq
      rw [Function.update_self]
      rcases h.flight _ hk with hnil | ⟨f, hawait, hframes⟩
      · refine .inl (List.eq_nil_iff_forall_not_mem.mpr fun g hg => ?_)
        have hmem := hsub g hg
        rw [hnil] at hmem
        cases hmem
      · exact (hsame f hframes).imp_right fun hf => ⟨f, hawait, hf⟩
    · rw [Function.update_of_ne heq]
      exact h.flight k hk
  · exact List.mem_append_left _ (h.sent _ g (hsub g hg))
  · exact move_threads_of_ne hm fun heq => hc (by rw [heq])
  · obtain rfl : l.conn s.daemon = c := congrArg Sock.conn hk
    rcases after_cases s.daemon l (s.links ⟨s.epoch, l.conn s.daemon⟩) with
      ⟨heq, haccept, hreply⟩ | heq | ⟨conn, f, reply, -, -, -, heq⟩
    · rw [heq] at hs
      obtain ⟨rfl, -⟩ | ⟨⟨before, hbefore⟩, -⟩ := move_thread hm
      · exact absurd rfl haccept
      have hin := h.serving _ before g payload hbefore hs hg
      rw [hs]
      rcases initPhase_move hm hbefore hin haccept hp with hnew | ⟨conn, reply, hl, hreplying⟩
      · exact hnew
      · exact absurd hreplying (hreply conn g reply hl hs)
    · rw [heq] at hs
      cases hs
    · rw [heq] at hs
      cases hs
  · rcases after_cases s.daemon l (s.links ⟨s.epoch, l.conn s.daemon⟩) with
      ⟨heq, -⟩ | heq | ⟨conn, f, reply', rfl, hs, hreplying, heq⟩
    · rw [heq] at hr
      exact fun hok => List.mem_append_left _ (h.response _ g payload reply hr hg hok)
    · rw [heq] at hr
      cases hr
    · rw [heq] at hr
      cases hr
      exact fun hok => List.mem_append_left _ (h.serving _ _ g payload hreplying hs hg hok)

end Daemon

/-! ### Every step -/

theorem Wired.move {fns : List Fn} {s s' : System} {log es : List SystemEvent} {l : SystemLabel}
    (h : Wired s log) (hm : SystemMove fns s l s' es) : Wired s' (log ++ es) := by
  cases hm with
  | udfInit hpc | udfCall hpc | udfDeinit hpc | forget hpc =>
    exact h.keep (.inr ⟨rfl, by rw [hpc]; rfl⟩)
  | keepConn hx hpoint => exact h.keep (.inr ⟨rfl, awaited_none hx (by simp [hpoint])⟩)
  | newConn => exact h.newConn rfl rfl
  | retry | writeFailed => exact h.keep (.inl (retry_fd ..))
  | hook hpc hpoint =>
    refine h.keep (.inr ⟨callReconnect_fd .., awaited_none (by rw [hpc]; rfl) (by simp [hpoint])⟩)
  | write hx hpoint hfd => exact h.write hx hpoint hfd
  | recv _ _ hfd hresponse hshim =>
    apply h.recv hfd hresponse
    rcases hshim with rfl | rfl | rfl
    · exact .inr (retry_fd ..)
    · exact answered_fd ..
    · exact giveUp_fd _
  | receive hrequest hstep => exact h.receive hrequest hstep
  | daemon hstep => exact h.daemon hstep
  | restart =>
    rw [List.append_nil]
    exact ⟨h.flight, h.sent, fun _ _ _ _ hp => (nomatch hp), h.response⟩

end FractalSQL.Service
