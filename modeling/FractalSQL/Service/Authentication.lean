import FractalSQL.Service.Protocol

/-!
# Authentication of frames

The read loop of a connection thread: a frame is dispatched when its tag equals
the one `mac` computes. `mac` allocates a buffer for header and payload, and
leaves an all-zero tag when it cannot, which the comparison takes for a computed
one.
-/
namespace FractalSQL.Service
open Lib

/-- One frame as it was read from the socket. -/
structure RawFrame where
  header : Block 32
  tag : Block 32
  payload : Bytes
deriving DecidableEq

/-- What the environment decides in one turn of the loop: whether each allocation
succeeds, and whether the reply could be sent. -/
structure Turn where
  payloadAlloc : Bool
  macAlloc : Bool
  replySent : Bool

section Key
variable (hmac : Bytes → Block 32)

/-- `mac`, with the connection's key fixed in `hmac`. -/
def mac (alloc : Bool) (header : Block 32) (payload : Bytes) : Block 32 :=
  if alloc then hmac (header.val ++ payload) else Block.zero 32

/-- The part of a turn before the tag is checked: reads, header checks, limits. A
failed read, check or allocation ends the loop. -/
def readFrame (turn : Turn) (fd : Bytes) : Option (RawFrame × Bytes) := do
  let (header, fd) ← takeExact 32 fd
  let h ← frameHeaderDecode header
  if h.version ≠ protocolVersion ∨ h.authLen ≠ 32 then none
  else if maxPayload < h.payloadLen.toNat then none
  else if h.flags &&& 1 ≠ 0 then none
  else do
    let (tag, fd) ← takeExact 32 fd
    if h.payloadLen = 0 then return (⟨header, tag, []⟩, fd)
    else if turn.payloadAlloc then do
      let (payload, fd) ← takeExact h.payloadLen.toNat fd
      return (⟨header, tag, payload.val⟩, fd)
    else none

/-- The tag check in front of `dispatch`. -/
def accepts (turn : Turn) (f : RawFrame) : Bool :=
  ctEqual f.tag (mac hmac turn.macAlloc f.header f.payload)

/-- `serve_connection_body`: the frames handed to `dispatch`, for the given turns
of its loop. -/
def serveConnection : List Turn → Bytes → List RawFrame
  | [], _ => []
  | turn :: turns, fd =>
    match readFrame turn fd with
    | none => []
    | some (f, fd) =>
      if accepts hmac turn f then f :: if turn.replySent then serveConnection turns fd else []
      else []

/-- The frames whose tag is compared, with the turn each was read in. -/
def comparedFrames : List Turn → Bytes → List (Turn × RawFrame)
  | [], _ => []
  | turn :: turns, fd =>
    match readFrame turn fd with
    | none => []
    | some (f, fd) =>
      (turn, f) :: if accepts hmac turn f ∧ turn.replySent then comparedFrames turns fd else []

/-- The tag is the HMAC of header and payload under the connection's key. -/
def RawFrame.Authentic (f : RawFrame) : Prop := f.tag = hmac (f.header.val ++ f.payload)

/-- The comparison sees the fallback of `mac` and the sender chose it. -/
def FallbackAccepted (turn : Turn) (f : RawFrame) : Prop :=
  turn.macAlloc = false ∧ f.tag = Block.zero 32 ∧ hmac (f.header.val ++ f.payload) ≠ Block.zero 32

variable {hmac}

theorem accepts_iff {turn : Turn} {f : RawFrame} :
    accepts hmac turn f = true ↔
      (if turn.macAlloc then f.Authentic hmac else f.tag = Block.zero 32) := by
  rw [accepts, ctEqual_iff, mac]
  cases turn.macAlloc <;> simp [RawFrame.Authentic]

/-- An accepted frame is authentic exactly when it was not the fallback that was
accepted. -/
theorem accepted_authentic_iff {turn : Turn} {f : RawFrame} :
    (accepts hmac turn f = true → f.Authentic hmac) ↔ ¬ FallbackAccepted hmac turn f := by
  rw [accepts_iff]
  unfold FallbackAccepted RawFrame.Authentic
  cases turn.macAlloc with
  | true => simp
  | false =>
    by_cases hz : f.tag = Block.zero 32
    · simp [hz, eq_comm]
    · simp [hz]

theorem mem_serveConnection {turns : List Turn} {fd : Bytes} {f : RawFrame} :
    f ∈ serveConnection hmac turns fd ↔
      ∃ turn, (turn, f) ∈ comparedFrames hmac turns fd ∧ accepts hmac turn f = true := by
  induction turns generalizing fd with
  | nil => simp [serveConnection, comparedFrames]
  | cons turn turns ih =>
    simp only [serveConnection, comparedFrames]
    cases hr : readFrame turn fd with
    | none => simp
    | some p =>
      obtain ⟨g, rest⟩ := p
      simp only
      by_cases ha : accepts hmac turn g = true
      · cases hs : turn.replySent
        · simp only [ha, if_true, Bool.false_eq_true, if_false, and_false, List.mem_singleton]
          constructor
          · rintro rfl
            exact ⟨turn, rfl, ha⟩
          · rintro ⟨t, heq, -⟩
            exact (Prod.mk.inj heq).2
        · simp only [ha, if_true, and_self, List.mem_cons, ih]
          constructor
          · rintro (rfl | ⟨t, ht, hacc⟩)
            · exact ⟨turn, .inl rfl, ha⟩
            · exact ⟨t, .inr ht, hacc⟩
          · rintro ⟨t, heq | ht, hacc⟩
            · exact .inl (Prod.mk.inj heq).2
            · exact .inr ⟨t, ht, hacc⟩
      · simp only [ha, if_false, Bool.false_eq_true, false_and, List.not_mem_nil, false_iff,
          List.mem_singleton]
        rintro ⟨t, heq, hacc⟩
        cases heq
        exact ha hacc

end Key

/-- Over a whole connection, every dispatched frame carries the right tag exactly
when no frame with an all-zero tag meets a failed allocation in `mac`. -/
theorem dispatched_authentic_iff (hmac : Bytes → Block 32) (turns : List Turn) (fd : Bytes) :
    (∀ f ∈ serveConnection hmac turns fd, f.Authentic hmac) ↔
      ∀ p ∈ comparedFrames hmac turns fd, ¬ FallbackAccepted hmac p.1 p.2 := by
  constructor
  · rintro h ⟨turn, f⟩ hp
    exact accepted_authentic_iff.mp fun hacc => h f (mem_serveConnection.mpr ⟨turn, hp, hacc⟩)
  · intro h f hf
    obtain ⟨turn, hp, hacc⟩ := mem_serveConnection.mp hf
    exact accepted_authentic_iff.mpr (h _ hp) hacc

/-- An empty PING. -/
def pingHeader : Block 32 :=
  ⟨FrameHeader.encode ⟨protocolVersion, 1, 0, 1, 0, 32, 0⟩, FrameHeader.encode_length _⟩

/-- A PING with the all-zero tag is dispatched when `mac` cannot allocate, under an
HMAC that never gives that tag. -/
theorem zero_tag_dispatched :
    (∀ msg, (fun _ => leBlock 32 1 : Bytes → Block 32) msg ≠ Block.zero 32) ∧
      serveConnection (fun _ => leBlock 32 1) [⟨true, false, true⟩]
          (pingHeader.val ++ (Block.zero 32).val) = [⟨pingHeader, Block.zero 32, []⟩] ∧
      ¬ RawFrame.Authentic (fun _ => leBlock 32 1) ⟨pingHeader, Block.zero 32, []⟩ := by
  have hne : leBlock 32 1 ≠ Block.zero 32 := by decide
  exact ⟨fun _ => hne, by decide, fun h => hne h.symm⟩

end FractalSQL.Service
