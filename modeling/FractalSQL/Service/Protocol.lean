import FractalSQL.Lib.Text

/-!
# The wire protocol

Frames are a 32-byte header, a 32-byte tag and a payload. The payload of a
lifecycle request names its function and carries its arguments as type, null
flag, length and bytes. Every integer is little-endian.
-/
namespace FractalSQL.Service
open Lib

/-- `enum fsq_status`, the statuses the daemon answers with. -/
inductive Status where
  | ok
  | args
  | limit
  | core
  | internal
  | notsup
  | busy
deriving DecidableEq

/-- `enum Item_result`, the argument types of the server. -/
inductive ItemResult where
  | string
  | int
  | real
  | decimal
deriving DecidableEq

/-- `wire_to_item`. -/
def wireToItem (t : UInt8) : ItemResult :=
  if t = 2 then .int else if t = 3 then .real else if t = 4 then .decimal else .string

/-- `item_to_wire`. -/
def itemToWire : ItemResult → UInt8
  | .string => 1
  | .int => 2
  | .real => 3
  | .decimal => 4

/-- `FSQ_MAX_ARGS`. -/
def maxArgs : ℕ := 64

/-! ### The frame header -/

/-- `FSQ_MAGIC`. -/
def frameMagic : Bytes := [0x46, 0x53, 0x51, 0x31]

/-- `FSQ_PROTOCOL_VERSION`. -/
def protocolVersion : UInt16 := 2

/-- `FSQ_MAX_PAYLOAD`. -/
def maxPayload : ℕ := 80 * 1024 * 1024

structure FrameHeader where
  version : UInt16
  opcode : UInt16
  flags : UInt32
  requestId : UInt32
  context : UInt64
  authLen : UInt32
  payloadLen : UInt32
deriving DecidableEq

/-- `fsq_header_encode`. -/
def FrameHeader.encode (h : FrameHeader) : Bytes :=
  frameMagic ++ (leBytes 2 h.version.toNat ++ (leBytes 2 h.opcode.toNat ++ (leBytes 4 h.flags.toNat ++
    (leBytes 4 h.requestId.toNat ++ (leBytes 8 h.context.toNat ++ (leBytes 4 h.authLen.toNat ++
      leBytes 4 h.payloadLen.toNat))))))

theorem FrameHeader.encode_length (h : FrameHeader) : h.encode.length = 32 := by
  simp [encode, frameMagic]

/-- The integer field of width `w` at offset `off`. -/
def fieldAt (off w : ℕ) (bs : Bytes) : ℕ := leValue ((bs.drop off).take w)

/-- `fsq_header_decode`: only the magic is checked. -/
def frameHeaderDecode (hdr : Block 32) : Option FrameHeader :=
  if hdr.val.take 4 = frameMagic then
    some { version := UInt16.ofNat (fieldAt 4 2 hdr.val)
           opcode := UInt16.ofNat (fieldAt 6 2 hdr.val)
           flags := UInt32.ofNat (fieldAt 8 4 hdr.val)
           requestId := UInt32.ofNat (fieldAt 12 4 hdr.val)
           context := UInt64.ofNat (fieldAt 16 8 hdr.val)
           authLen := UInt32.ofNat (fieldAt 24 4 hdr.val)
           payloadLen := UInt32.ofNat (fieldAt 28 4 hdr.val) }
  else none

/-- `fsq_ct_equal`: all differences are accumulated before the verdict. -/
def ctEqual {w : ℕ} (a b : Block w) : Bool :=
  (List.zipWith (· ^^^ ·) a.val b.val).foldl (· ||| ·) 0 = 0

theorem foldl_or_eq_zero (ds : Bytes) (acc : UInt8) :
    ds.foldl (· ||| ·) acc = 0 ↔ acc = 0 ∧ ∀ d ∈ ds, d = 0 := by
  induction ds generalizing acc with
  | nil => simp
  | cons d ds ih => simp [ih, and_assoc]

theorem zipWith_xor_eq_zero {as bs : Bytes} (h : as.length = bs.length) :
    (∀ d ∈ List.zipWith (· ^^^ ·) as bs, d = 0) ↔ as = bs := by
  induction as generalizing bs with
  | nil => simp [List.length_eq_zero_iff.mp h.symm]
  | cons a as ih =>
    cases bs with
    | nil => simp at h
    | cons b bs => simp [ih (by simpa using h)]

/-- The comparison accepts equal tags only. -/
theorem ctEqual_iff {w : ℕ} {a b : Block w} : ctEqual a b = true ↔ a = b := by
  rw [ctEqual, decide_eq_true_eq, foldl_or_eq_zero, zipWith_xor_eq_zero (by simp), Subtype.ext_iff]
  simp

/-! ### Lifecycle payloads -/

/-- One argument of a request. -/
structure WireArg where
  type : UInt8
  isNull : UInt8
  bytes : Bytes
deriving DecidableEq

def WireArg.encode (a : WireArg) : Bytes :=
  a.type :: a.isNull :: (leBytes 4 a.bytes.length ++ a.bytes)

/-- `parse_args`: exactly `nargs` arguments and nothing after them. -/
def parseArgs : ℕ → Bytes → Option (List WireArg)
  | 0, [] => some []
  | 0, _ => none
  | nargs + 1, type :: isNull :: p => do
    let (len, p) ← takeExact 4 p
    let (bytes, p) ← takeExact (leValue len.val) p
    let args ← parseArgs nargs p
    return ⟨type, isNull, bytes.val⟩ :: args
  | _ + 1, _ => none

/-- The payload of a UDF_INIT: name, argument count and arguments. -/
structure InitRequest where
  name : Bytes
  args : List WireArg
deriving DecidableEq

/-- The payload of a UDF_CALL, which also names the statement's handle. -/
structure CallRequest where
  name : Bytes
  handle : UInt64
  args : List WireArg
deriving DecidableEq

def parseInit : Bytes → Option InitRequest
  | [] => none
  | namelen :: p => do
    let (name, p) ← takeExact namelen.toNat p
    let (nargs, p) ← takeExact 4 p
    if maxArgs < leValue nargs.val then none
    else do
      let args ← parseArgs (leValue nargs.val) p
      return ⟨name.val, args⟩

def parseCall : Bytes → Option CallRequest
  | [] => none
  | namelen :: p => do
    let (name, p) ← takeExact namelen.toNat p
    let (handle, p) ← takeExact 8 p
    let (nargs, p) ← takeExact 4 p
    if maxArgs < leValue nargs.val then none
    else do
      let args ← parseArgs (leValue nargs.val) p
      return ⟨name.val, UInt64.ofNat (leValue handle.val), args⟩

/-- The handle a UDF_DEINIT or CANCEL names: the first eight bytes. -/
def parseHandle (p : Bytes) : Option UInt64 :=
  (takeExact 8 p).map fun (handle, _) => UInt64.ofNat (leValue handle.val)

/-- The request the shim builds for an init: name, count, arguments. -/
def initPayload (name : Bytes) (args : List WireArg) : Bytes :=
  UInt8.ofNat name.length :: (name ++ (leBytes 4 args.length ++ args.flatMap WireArg.encode))

/-- The request the shim builds for a call: name, handle, count, arguments. -/
def callPayload (name : Bytes) (handle : UInt64) (nargs : ℕ) (args : Bytes) : Bytes :=
  UInt8.ofNat name.length :: (name ++ (leBytes 8 handle.toNat ++ (leBytes 4 nargs ++ args)))

/-- `fsq_put_u64` into a buffer at an offset. -/
def patchHandle (off : ℕ) (handle : UInt64) (req : Bytes) : Bytes :=
  req.take off ++ (leBytes 8 handle.toNat ++ req.drop (off + 8))

/-- The handle field of a buffer. -/
def handleAt (off : ℕ) (req : Bytes) : UInt64 := UInt64.ofNat (fieldAt off 8 req)

/-- The handle a call carries: the field after its name. -/
def callHandle (payload : Bytes) : UInt64 := handleAt (1 + (payload.headD 0).toNat) payload

theorem handleAt_callPayload (name : Bytes) (handle : UInt64) (nargs : ℕ) (args : Bytes) :
    handleAt (1 + name.length) (callPayload name handle nargs args) = handle := by
  have hdrop : (callPayload name handle nargs args).drop (1 + name.length) =
      leBytes 8 handle.toNat ++ (leBytes 4 nargs ++ args) := by
    rw [callPayload, Nat.add_comm, List.drop_succ_cons, List.drop_left]
  rw [handleAt, fieldAt, hdrop, List.take_left' (leBytes_length 8 _), uint64_leBytes]

theorem handleAt_patchHandle {off : ℕ} {req : Bytes} (h : off ≤ req.length) (handle : UInt64) :
    handleAt off (patchHandle off handle req) = handle := by
  have hdrop : (patchHandle off handle req).drop off =
      leBytes 8 handle.toNat ++ req.drop (off + 8) := by
    rw [patchHandle]
    exact List.drop_left' (by simp [h])
  rw [handleAt, fieldAt, hdrop, List.take_left' (leBytes_length 8 _), uint64_leBytes]

theorem patchHandle_length {off : ℕ} {req : Bytes} (h : off + 8 ≤ req.length) (handle : UInt64) :
    (patchHandle off handle req).length = req.length := by
  simp [patchHandle]
  omega

theorem patchHandle_headD {off : ℕ} {req : Bytes} (h0 : 0 < off) (h : off ≤ req.length) (handle : UInt64) :
    (patchHandle off handle req).headD 0 = req.headD 0 := by
  obtain ⟨n, rfl⟩ : ∃ n, off = n + 1 := ⟨off - 1, by omega⟩
  cases req with
  | nil => simp at h
  | cons b bs => rfl

/-- The daemon reads the handle where the shim puts it. -/
theorem parseCall_handle {payload : Bytes} {call : CallRequest} (h : parseCall payload = some call) :
    call.handle = callHandle payload := by
  cases payload with
  | nil => cases h
  | cons namelen p =>
    simp only [parseCall, Option.bind_eq_bind, Option.bind_eq_some_iff, Prod.exists] at h
    obtain ⟨name, p₁, hname, handle, p₂, hhandle, nargs, p₃, -, hrest⟩ := h
    obtain rfl := takeExact_eq_some.mp hname
    obtain rfl := takeExact_eq_some.mp hhandle
    have hcall : call.handle = UInt64.ofNat (leValue handle.val) := by
      split at hrest
      · cases hrest
      · obtain ⟨args, -, heq⟩ := Option.bind_eq_some_iff.mp hrest
        cases heq
        rfl
    have hdrop : (namelen :: (name.val ++ (handle.val ++ p₂))).drop (1 + namelen.toNat) =
        handle.val ++ p₂ := by
      rw [Nat.add_comm, List.drop_succ_cons, List.drop_left' name.property]
    rw [hcall, callHandle, List.headD_cons, handleAt, fieldAt, hdrop, List.take_left' handle.property]

/-! ### Replies -/

/-- `struct fsq_reply`. -/
structure Reply where
  status : Status
  coreRc : ℤ := 0
  body : Bytes := []
deriving DecidableEq

/-- `set_text`: the text, cut to the longest one a frame may carry. -/
def setText (status : Status) (text : String) : Reply := ⟨status, 0, (ascii text).take 511⟩

end FractalSQL.Service
