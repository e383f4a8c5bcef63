import FractalSQL.Lib.ByteStream
import FractalSQL.Service.RoundTrip

/-!
# Frames over a socket

`read_all` and `write_all` around the calls of the socket, which move any part of what they
are asked for, are interrupted, time out or fail. The clients write a frame as header, tag
and payload, and the daemon reads it so. However the bytes are cut, what the daemon
dispatches are the frames that were written, from the first one on.
-/
namespace FractalSQL.Service
open Lib Lib.Stream

/-! ### The daemon's side -/

/-- The reads and checks of one turn of `serve_connection_body`, up to the tag. -/
def frameReader (turn : Turn) : Reader RawFrame :=
  .read 32 fun header =>
    match frameHeaderDecode header with
    | none => .refuse
    | some h =>
      if h.version ≠ protocolVersion ∨ h.authLen ≠ 32 then .refuse
      else if maxPayload < h.payloadLen.toNat then .refuse
      else if h.flags &&& 1 ≠ 0 then .refuse
      else .read 32 fun tag =>
        if h.payloadLen = 0 then .done ⟨header, tag, []⟩
        else if turn.payloadAlloc then .read h.payloadLen.toNat fun payload => .done ⟨header, tag, payload.val⟩
        else .refuse

/-- `serve_connection_body` on the calls of `recv`: the frames handed to `dispatch`. -/
def serveOn (hmac : Bytes → Block 32) : List Turn → List Xfer → Bytes → List RawFrame
  | [], _, _ => []
  | turn :: turns, calls, fd =>
    match (frameReader turn).runOn calls fd with
    | .done (f, fd, calls) =>
      if accepts hmac turn f then f :: if turn.replySent then serveOn hmac turns calls fd else []
      else []
    | .failed => []
    | .waiting => []

/-! ### The clients' side -/

/-- One frame: `write_all` of the header, of the tag, and of the payload unless it is empty. -/
def sendFrame (calls : List Xfer) (f : RawFrame) : Bytes × Ending (List Xfer) :=
  match writeAll calls f.header.val with
  | (wire, .done calls) =>
    match writeAll calls f.tag.val with
    | (more, .done calls) =>
      if f.payload = [] then (wire ++ more, .done calls)
      else (wire ++ (more ++ (writeAll calls f.payload).1), (writeAll calls f.payload).2)
    | (more, e) => (wire ++ more, e)
  | (wire, e) => (wire, e)

/-- The frames of a connection, one after the other until a write fails. -/
def sendFrames : List Xfer → List RawFrame → Bytes
  | _, [] => []
  | calls, f :: fs =>
    match sendFrame calls f with
    | (wire, .done calls) => wire ++ sendFrames calls fs
    | (wire, _) => wire

/-! ### What arrives -/

theorem readFrame_eq (turn : Turn) (fd : Bytes) : readFrame turn fd = (frameReader turn).run fd := by
  rw [readFrame, frameReader, Reader.run]
  apply congrArg (Option.bind (takeExact 32 fd))
  ext1 ⟨header, mid⟩
  dsimp only
  cases frameHeaderDecode header with
  | none => rfl
  | some h =>
    dsimp only [Option.bind_eq_bind, Option.bind_some]
    split_ifs <;> rfl

/-- The daemon dispatches on the calls what it dispatches on the bytes, up to where it stops. -/
theorem serveOn_front (hmac : Bytes → Block 32) (turns : List Turn) (calls : List Xfer) (fd : Bytes) :
    serveOn hmac turns calls fd <+: serveConnection hmac turns fd := by
  induction turns generalizing calls fd with
  | nil => exact List.nil_prefix
  | cons turn turns ih =>
    rw [serveOn, serveConnection, readFrame_eq]
    split
    · rename_i f rest left hread
      rw [Reader.run_of_runOn hread]
      dsimp only
      split_ifs with hacc hsent
      · exact (List.prefix_cons_inj f).mpr (ih left rest)
      · exact List.prefix_rfl
      · exact List.nil_prefix
    · exact List.nil_prefix
    · exact List.nil_prefix

theorem serveOn_quiet (hmac : Bytes → Block 32) (turns : List Turn) {calls : List Xfer} {fd : Bytes} (hquiet : Quiet calls)
    (hcalls : fd.length ≤ calls.countP Xfer.isMoves) : serveOn hmac turns calls fd = serveConnection hmac turns fd := by
  induction turns generalizing calls fd with
  | nil => rfl
  | cons turn turns ih =>
    rw [serveOn, serveConnection, readFrame_eq]
    cases hrun : (frameReader turn).run fd with
    | none =>
      split
      · rename_i f rest left hread
        rw [Reader.run_of_runOn hread] at hrun
        cases hrun
      · rfl
      · rfl
    | some p =>
      obtain ⟨f, rest⟩ := p
      obtain ⟨left, hread, hleft, hcount⟩ := Reader.runOn_of_run hrun hquiet hcalls
      rw [hread]
      dsimp only
      rw [ih hleft hcount]

/-- A whole frame is written, or a front part of one. -/
theorem sendFrame_spec (calls : List Xfer) (f : RawFrame) :
    (∃ left, sendFrame calls f = (f.bytes, .done left)) ∨
      (sendFrame calls f).1 <+: f.bytes ∧ ∀ left, (sendFrame calls f).2 ≠ .done left := by
  have hheader := writeAll_front calls f.header.val
  rw [sendFrame, RawFrame.bytes]
  cases hw : writeAll calls f.header.val with
  | mk wire ending =>
    rw [hw] at hheader
    cases ending with
    | failed | waiting => exact Or.inr ⟨hheader.trans (List.prefix_append ..), fun left h => by cases h⟩
    | done left =>
      obtain rfl := writeAll_done hw
      have htag := writeAll_front left f.tag.val
      dsimp only
      cases hw' : writeAll left f.tag.val with
      | mk more ending =>
        rw [hw'] at htag
        cases ending with
        | failed | waiting =>
          apply Or.inr
          refine ⟨(List.prefix_append_right_inj _).mpr (htag.trans (List.prefix_append ..)), fun left h => by cases h⟩
        | done left' =>
          obtain rfl := writeAll_done hw'
          dsimp only
          split_ifs with hempty
          · rw [hempty, List.append_nil]
            exact Or.inl ⟨left', rfl⟩
          · have hpayload := writeAll_front left' f.payload
            cases hw'' : writeAll left' f.payload with
            | mk last ending =>
              rw [hw''] at hpayload
              cases ending with
              | done left'' =>
                obtain rfl := writeAll_done hw''
                exact Or.inl ⟨left'', rfl⟩
              | failed | waiting =>
                apply Or.inr
                refine ⟨?_, fun left h => by cases h⟩
                exact (List.prefix_append_right_inj _).mpr ((List.prefix_append_right_inj _).mpr hpayload)

theorem sendFrames_front (calls : List Xfer) (fs : List RawFrame) : sendFrames calls fs <+: fs.flatMap RawFrame.bytes := by
  induction fs generalizing calls with
  | nil => exact List.nil_prefix
  | cons f fs ih =>
    rw [sendFrames, List.flatMap_cons]
    rcases sendFrame_spec calls f with ⟨left, hsent⟩ | ⟨hfront, hstop⟩
    · rw [hsent]
      exact (List.prefix_append_right_inj f.bytes).mpr (ih left)
    · split
      · rename_i wire left hsent
        exact absurd (congrArg Prod.snd hsent) (hstop left)
      · rename_i wire ending hsent
        rw [hsent] at hfront
        exact hfront.trans (List.prefix_append ..)

/-! ### What is dispatched -/

/-- The header gives the length of the payload. -/
def RawFrame.Sized (f : RawFrame) : Prop :=
  ∃ h, frameHeaderDecode f.header = some h ∧ h.payloadLen.toNat = f.payload.length

theorem takeExact_front {n : ℕ} {b c : Block n} {fd rest more : Bytes} (hfd : fd <+: b.val ++ more)
    (h : takeExact n fd = some (c, rest)) : c = b ∧ rest <+: more := by
  obtain rfl := takeExact_eq_some.mp h
  obtain ⟨tail, heq⟩ := hfd
  rw [List.append_assoc] at heq
  obtain ⟨hval, hmore⟩ := List.append_inj heq (c.property.trans b.property.symm)
  exact ⟨Subtype.ext hval, ⟨tail, hmore⟩⟩

/-- What is read from a front part of the frames is the first of them. -/
theorem readFrame_front {turn : Turn} {f g : RawFrame} {fd rest more : Bytes} (hf : f.Sized) (hfd : fd <+: f.bytes ++ more)
    (h : readFrame turn fd = some (g, rest)) : g = f ∧ rest <+: more := by
  obtain ⟨header, hdec, hlen⟩ := hf
  rw [RawFrame.bytes, List.append_assoc, List.append_assoc] at hfd
  rw [readFrame] at h
  obtain ⟨⟨hdr, mid⟩, hhdr, h⟩ := Option.bind_eq_some_iff.mp h
  obtain ⟨rfl, hmid⟩ := takeExact_front hfd hhdr
  dsimp only at h
  rw [hdec, Option.bind_eq_bind, Option.bind_some] at h
  split_ifs at h with hversion hmax hflags hzero halloc
  · obtain ⟨⟨tag, body⟩, htag, h⟩ := Option.bind_eq_some_iff.mp h
    obtain ⟨rfl, hbody⟩ := takeExact_front hmid htag
    obtain ⟨rfl, rfl⟩ := Prod.mk.inj (Option.some.inj h)
    have hempty : f.payload = [] := List.length_eq_zero_iff.mp (by rw [← hlen, hzero]; rfl)
    rw [hempty] at hbody
    exact ⟨by rw [← hempty], hbody⟩
  · obtain ⟨⟨tag, body⟩, htag, h⟩ := Option.bind_eq_some_iff.mp h
    obtain ⟨rfl, hbody⟩ := takeExact_front hmid htag
    obtain ⟨⟨payload, tail⟩, hpayload, h⟩ := Option.bind_eq_some_iff.mp h
    obtain ⟨hval, htail⟩ := takeExact_front (b := ⟨f.payload, hlen.symm⟩) hbody hpayload
    obtain ⟨rfl, rfl⟩ := Prod.mk.inj (Option.some.inj h)
    exact ⟨by rw [hval], htail⟩
  · obtain ⟨p, -, h⟩ := Option.bind_eq_some_iff.mp h
    cases h

theorem serveConnection_front (hmac : Bytes → Block 32) (turns : List Turn) {fs : List RawFrame} {fd : Bytes}
    (hfs : ∀ f ∈ fs, f.Sized) (hfd : fd <+: fs.flatMap RawFrame.bytes) : serveConnection hmac turns fd <+: fs := by
  induction turns generalizing fs fd with
  | nil => exact List.nil_prefix
  | cons turn turns ih =>
    rw [serveConnection]
    split
    · exact List.nil_prefix
    · rename_i g rest hread
      cases fs with
      | nil =>
        obtain rfl := List.prefix_nil.mp hfd
        cases hread
      | cons f fs =>
        rw [List.flatMap_cons] at hfd
        obtain ⟨rfl, hrest⟩ := readFrame_front (hfs f (List.mem_cons_self ..)) hfd hread
        split_ifs
        · exact (List.prefix_cons_inj g).mpr (ih (fun u hu => hfs u (List.mem_cons_of_mem g hu)) hrest)
        · exact (List.prefix_cons_inj g).mpr List.nil_prefix
        · exact List.nil_prefix

/-- Whatever the sockets do on both sides, the frames that the daemon dispatches are the frames
that the client wrote, from the first one on: none is cut, joined to another, lost in between or
taken twice. -/
theorem dispatched_front (hmac : Bytes → Block 32) (turns : List Turn) {fs : List RawFrame} (hfs : ∀ f ∈ fs, f.Sized)
    (sends recvs : List Xfer) : serveOn hmac turns recvs (sendFrames sends fs) <+: fs :=
  (serveOn_front hmac turns recvs _).trans (serveConnection_front hmac turns hfs (sendFrames_front sends fs))

/-! ### When no call fails -/

theorem sendFrame_quiet {calls : List Xfer} (f : RawFrame) (hquiet : Quiet calls)
    (hcalls : f.bytes.length ≤ calls.countP Xfer.isMoves) : ∃ left : List Xfer, sendFrame calls f = (f.bytes, .done left) ∧
      Quiet left ∧ calls.countP Xfer.isMoves ≤ left.countP Xfer.isMoves + f.bytes.length := by
  rw [RawFrame.bytes, List.length_append, List.length_append] at hcalls ⊢
  obtain ⟨mid, hheader, hmid, hcount⟩ := writeAll_quiet (p := f.header.val) hquiet (by omega)
  obtain ⟨mid', htag, hmid', hcount'⟩ := writeAll_quiet (p := f.tag.val) hmid (by omega)
  rw [sendFrame, hheader]
  dsimp only
  rw [htag]
  dsimp only
  split_ifs with hempty
  · rw [hempty, List.append_nil]
    exact ⟨mid', rfl, hmid', by rw [List.length_nil]; omega⟩
  · obtain ⟨left, hpayload, hleft, hcount''⟩ := writeAll_quiet (p := f.payload) hmid' (by omega)
    rw [hpayload]
    exact ⟨left, rfl, hleft, by omega⟩

theorem sendFrames_quiet {calls : List Xfer} {fs : List RawFrame} (hquiet : Quiet calls)
    (hcalls : (fs.flatMap RawFrame.bytes).length ≤ calls.countP Xfer.isMoves) :
    sendFrames calls fs = fs.flatMap RawFrame.bytes := by
  induction fs generalizing calls with
  | nil => rfl
  | cons f fs ih =>
    rw [List.flatMap_cons, List.length_append] at hcalls
    obtain ⟨left, hsent, hleft, hcount⟩ := sendFrame_quiet f hquiet (by omega)
    rw [sendFrames, hsent, List.flatMap_cons]
    dsimp only
    rw [ih hleft (by omega)]

/-- A request that the daemon takes: its version, tag length, flags, size and tag are right. -/
structure RawFrame.Proper (hmac : Bytes → Block 32) (f : RawFrame) (h : FrameHeader) : Prop where
  decodes : frameHeaderDecode f.header = some h
  version : h.version = protocolVersion
  authLen : h.authLen = 32
  request : h.flags &&& 1 = 0
  sized : h.payloadLen.toNat = f.payload.length
  short : f.payload.length ≤ maxPayload
  authentic : f.Authentic hmac

theorem readFrame_proper {hmac : Bytes → Block 32} {f : RawFrame} {h : FrameHeader} (hf : f.Proper hmac h) (rest : Bytes) :
    readFrame ⟨true, true, true⟩ (f.bytes ++ rest) = some (f, rest) := by
  have hversion : ¬ (h.version ≠ protocolVersion ∨ h.authLen ≠ 32) := by simp [hf.version, hf.authLen]
  have hmax : ¬ maxPayload < h.payloadLen.toNat := by
    rw [hf.sized]
    exact not_lt.mpr hf.short
  rw [readFrame, RawFrame.bytes, List.append_assoc, List.append_assoc]
  simp only [takeExact_append, Option.bind_eq_bind, Option.bind_some, hf.decodes]
  rw [if_neg hversion, if_neg hmax, if_neg (by simp [hf.request])]
  split_ifs with hzero
  · have hempty : f.payload = [] := List.length_eq_zero_iff.mp (by rw [← hf.sized, hzero]; rfl)
    rw [hempty, List.nil_append, ← hempty]
    rfl
  · have hpayload : takeExact h.payloadLen.toNat (f.payload ++ rest) = some (⟨f.payload, hf.sized.symm⟩, rest) :=
      takeExact_eq_some.mpr rfl
    rw [hpayload]
    rfl

theorem serveConnection_proper {hmac : Bytes → Block 32} {turns : List Turn} {fs : List RawFrame}
    (hfs : ∀ f ∈ fs, ∃ h, f.Proper hmac h) (hturns : ∀ t ∈ turns, t = ⟨true, true, true⟩) (hlen : fs.length ≤ turns.length) :
    serveConnection hmac turns (fs.flatMap RawFrame.bytes) = fs := by
  induction fs generalizing turns with
  | nil =>
    cases turns with
    | nil => rfl
    | cons turn turns => rfl
  | cons f fs ih =>
    cases turns with
    | nil => cases hlen
    | cons turn turns =>
      obtain ⟨h, hf⟩ := hfs f (List.mem_cons_self ..)
      obtain rfl := hturns turn (List.mem_cons_self ..)
      have hacc : accepts hmac ⟨true, true, true⟩ f = true := accepts_iff.mpr hf.authentic
      rw [List.flatMap_cons, serveConnection, readFrame_proper hf]
      dsimp only
      rw [if_pos hacc, if_pos rfl, ih (fun u hu => hfs u (List.mem_cons_of_mem f hu))
        (fun t ht => hturns t (List.mem_cons_of_mem _ ht)) (Nat.le_of_succ_le_succ hlen)]

/-- Proper requests are all dispatched when no call fails and the calls go on: interruptions and
the pieces that the bytes arrive in do not matter. -/
theorem all_dispatched {hmac : Bytes → Block 32} {turns : List Turn} {fs : List RawFrame}
    (hfs : ∀ f ∈ fs, ∃ h, f.Proper hmac h) (hturns : ∀ t ∈ turns, t = ⟨true, true, true⟩) (hlen : fs.length ≤ turns.length)
    {sends recvs : List Xfer} (hsends : Quiet sends) (hrecvs : Quiet recvs)
    (hwrites : (fs.flatMap RawFrame.bytes).length ≤ sends.countP Xfer.isMoves)
    (hreads : (fs.flatMap RawFrame.bytes).length ≤ recvs.countP Xfer.isMoves) :
    serveOn hmac turns recvs (sendFrames sends fs) = fs := by
  rw [sendFrames_quiet hsends hwrites, serveOn_quiet hmac turns hrecvs hreads, serveConnection_proper hfs hturns hlen]

/-! ### A request without arguments -/

def pingRequest : FrameHeader where
  version := protocolVersion
  opcode := 1
  flags := 0
  requestId := 7
  context := 0
  authLen := 32
  payloadLen := 0

def pingFrame : RawFrame := sealFrame (fun _ => Block.zero 32) pingRequest []

theorem pingFrame_proper : pingFrame.Proper (fun _ => Block.zero 32) pingRequest where
  decodes := frameHeaderDecode_block pingRequest
  version := rfl
  authLen := rfl
  request := rfl
  sized := rfl
  short := Nat.zero_le _
  authentic := rfl

theorem pingFrame_length : pingFrame.bytes.length = 64 := by
  rw [RawFrame.bytes, List.length_append, List.length_append, pingFrame.header.property, pingFrame.tag.property]
  rfl

theorem dispatched_front_ping :
    serveOn (fun _ => Block.zero 32) [⟨true, true, true⟩] [.moves 9, .interrupts, .moves 40]
      (sendFrames [.moves 3, .fails] [pingFrame]) <+: [pingFrame] := by
  apply dispatched_front
  intro f hf
  obtain rfl := List.mem_singleton.mp hf
  exact ⟨pingRequest, pingFrame_proper.decodes, pingFrame_proper.sized⟩

theorem all_dispatched_ping :
    serveOn (fun _ => Block.zero 32) [⟨true, true, true⟩] (.interrupts :: List.replicate 64 (.moves 0))
      (sendFrames (List.replicate 64 (.moves 2)) [pingFrame]) = [pingFrame] := by
  have hbytes : ([pingFrame].flatMap RawFrame.bytes).length = 64 := by
    rw [List.flatMap_singleton, pingFrame_length]
  apply all_dispatched
  · intro f hf
    obtain rfl := List.mem_singleton.mp hf
    exact ⟨pingRequest, pingFrame_proper⟩
  · simp
  · simp
  · intro c hc
    simp [List.eq_of_mem_replicate hc]
  · intro c hc
    rcases List.mem_cons.mp hc with rfl | hc
    · simp
    · simp [List.eq_of_mem_replicate hc]
  · rw [hbytes]
    decide
  · rw [hbytes]
    decide

end FractalSQL.Service
