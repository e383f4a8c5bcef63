import FractalSQL.Service.Shim

/-!
# Building a request

`fsq_udf_init` and `fsq_udf_call` size their buffer in one loop and fill it in a second one.
The sizes are taken at their C widths, and the second loop is a list of stores, so what is
stored can be compared with what was allocated.
-/
namespace FractalSQL.Service
open Lib

/-- An argument as the server hands it over: its type and its value, if it is not NULL. -/
inductive UdfArg where
  | null (type : ItemResult)
  | int (v : UInt64)
  | real (bits : UInt64)
  | string (bytes : Bytes)
  | decimal (bytes : Bytes)
deriving DecidableEq

def UdfArg.type : UdfArg → ItemResult
  | .null type => type
  | .int _ => .int
  | .real _ => .real
  | .string _ => .string
  | .decimal _ => .decimal

def UdfArg.nullFlag : UdfArg → UInt8
  | .null _ => 1
  | _ => 0

/-- The bytes that are sent for the value. -/
def UdfArg.value : UdfArg → Bytes
  | .null _ => []
  | .int v => leBytes 8 v.toNat
  | .real bits => leBytes 8 bits.toNat
  | .string bytes => bytes
  | .decimal bytes => bytes

/-- `vlen`. -/
def UdfArg.vlen (a : UdfArg) : UInt32 := UInt32.ofNat a.value.length

def UdfArg.wire (a : UdfArg) : WireArg := ⟨itemToWire a.type, a.nullFlag, a.value⟩

/-- Where bytes are stored in the request, and which. -/
abbrev Store := ℕ × Bytes

/-- What the second loop stores for the arguments from `p` on. -/
def argStores : ℕ → List UdfArg → List Store
  | _, [] => []
  | p, a :: args =>
    (p, [itemToWire a.type]) :: (p + 1, [a.nullFlag]) :: (p + 2 + 4, a.value) :: (p + 2, leBytes 4 a.vlen.toNat) ::
      argStores (p + 2 + (4 + a.vlen).toNat) args

/-- The end of what is stored. -/
def extentFrom (stop : ℕ) (stores : List Store) : ℕ := stores.foldl (fun e s => max e (s.1 + s.2.length)) stop

def extent (stores : List Store) : ℕ := extentFrom 0 stores

/-- A store into a buffer. -/
def Store.apply (buf : Bytes) (s : Store) : Bytes := buf.take s.1 ++ (s.2 ++ buf.drop (s.1 + s.2.length))

section Requests
variable (name : Bytes) (args : List UdfArg)

/-! ### `fsq_udf_init` -/

/-- `req_len`. -/
def initReqLen : UInt32 := args.foldl (fun n a => n + (6 + a.vlen)) (UInt32.ofNat (1 + name.length + 4))

def initStores : List Store :=
  (0, [UInt8.ofNat name.length]) :: (1, name) :: (1 + name.length, leBytes 4 args.length) ::
    argStores (1 + name.length + 4) args

/-! ### `fsq_udf_call` -/

/-- The loop over the sizes; `none` over the cap. -/
def callTotalFrom : UInt64 → List UdfArg → Option UInt64
  | total, [] => some total
  | total, a :: args =>
    let total := total + (6 + UInt64.ofNat a.value.length)
    if UInt64.ofNat maxArgBytes < total then none else callTotalFrom total args

/-- `total`; `none` when the call is refused. -/
def callTotal (handle : UInt64) : Option UInt64 :=
  if handle = 0 ∨ maxArgs < args.length then none
  else callTotalFrom (UInt64.ofNat (1 + name.length + 8 + 4)) args

def callStores (handle : UInt64) : List Store :=
  (0, [UInt8.ofNat name.length]) :: (1, name) :: (1 + name.length, leBytes 8 handle.toNat) ::
    (1 + name.length + 8, leBytes 4 args.length) :: argStores (1 + name.length + 8 + 4) args

/-- The request of a call. -/
def encodeCall (handle : UInt64) : Option Bytes :=
  (callTotal name args handle).map fun total =>
    (callStores name args handle).foldl Store.apply (List.replicate total.toNat 0)

end Requests

/-! ### How much is stored -/

/-- The room the arguments take. -/
def argsLength (args : List UdfArg) : ℕ := (args.map fun a => 6 + a.value.length).sum

theorem UdfArg.wire_length (a : UdfArg) : a.wire.encode.length = 6 + a.value.length := by
  simp [wire, WireArg.encode]
  omega

theorem argsLength_eq (args : List UdfArg) : ((args.map UdfArg.wire).flatMap WireArg.encode).length = argsLength args := by
  induction args with
  | nil => rfl
  | cons a args ih =>
    rw [List.map_cons, List.flatMap_cons, List.length_append, ih, a.wire_length]
    simp [argsLength]

theorem extentFrom_mono (stores : List Store) (stop : ℕ) : stop ≤ extentFrom stop stores := by
  induction stores generalizing stop with
  | nil => exact le_rfl
  | cons s stores ih => exact (le_max_left _ _).trans (ih _)

theorem UdfArg.vlen_toNat {a : UdfArg} (h : a.value.length < 2 ^ 32) : a.vlen.toNat = a.value.length :=
  UInt32.toNat_ofNat_of_lt' h

/-- The stores of one argument end behind its value. -/
theorem extentFrom_arg (stop p : ℕ) (a : UdfArg) (args : List UdfArg) :
    extentFrom stop (argStores p (a :: args)) =
      extentFrom (max stop (p + 6 + a.value.length)) (argStores (p + 2 + (4 + a.vlen).toNat) args) := by
  have hstop : max (max (max (max stop (p + 1)) (p + 1 + 1)) (p + 2 + 4 + a.value.length)) (p + 2 + 4) =
      max stop (p + 6 + a.value.length) := by omega
  rw [← hstop, ← leBytes_length 4 a.vlen.toNat]
  rfl

/-- Without a length that wraps, the arguments end behind their room. -/
theorem extentFrom_argStores {args : List UdfArg} (h : ∀ a ∈ args, a.value.length + 4 < 2 ^ 32) (p : ℕ) :
    extentFrom p (argStores p args) = p + argsLength args := by
  induction args generalizing p with
  | nil => rfl
  | cons a args ih =>
    have hlt := h a (List.mem_cons_self ..)
    have hnext : p + 2 + (4 + a.vlen).toNat = p + 6 + a.value.length := by
      rw [UInt32.toNat_add, a.vlen_toNat (by omega)]
      have hfour : (4 : UInt32).toNat = 4 := rfl
      omega
    rw [extentFrom_arg, hnext, max_eq_right (by omega), ih fun b hb => h b (List.mem_cons_of_mem _ hb)]
    simp [argsLength]
    omega

/-- A length that wraps is stored all the same. -/
theorem extentFrom_wrap {args : List UdfArg} {a : UdfArg} (ha : a ∈ args) (hlen : 2 ^ 32 ≤ a.value.length + 4)
    (p stop : ℕ) : 2 ^ 32 ≤ extentFrom stop (argStores p args) := by
  induction args generalizing p stop with
  | nil => cases ha
  | cons b args ih =>
    rw [extentFrom_arg]
    rcases List.mem_cons.mp ha with rfl | ha
    · refine le_trans ?_ (extentFrom_mono _ _)
      omega
    · exact ih ha _ _

/-! ### `fsq_udf_init` -/

/-- The size of the request without wrapping. -/
def initLength (name : Bytes) (args : List UdfArg) : ℕ := 1 + name.length + 4 + argsLength args

theorem foldl_vlen_toNat (args : List UdfArg) (n : UInt32) :
    (args.foldl (fun n a => n + (6 + a.vlen)) n).toNat = (n.toNat + argsLength args) % 2 ^ 32 := by
  induction args generalizing n with
  | nil =>
    have := n.toNat_lt
    simp [argsLength, Nat.mod_eq_of_lt this]
  | cons a args ih =>
    have hlen : a.vlen.toNat = a.value.length % 2 ^ 32 := UInt32.toNat_ofNat'
    have hsix : (6 : UInt32).toNat = 6 := rfl
    rw [List.foldl_cons, ih, UInt32.toNat_add, UInt32.toNat_add, hlen, hsix]
    simp only [argsLength, List.map_cons, List.sum_cons]
    omega

theorem initReqLen_toNat {name : Bytes} (hname : name.length < 256) (args : List UdfArg) :
    (initReqLen name args).toNat = initLength name args % 2 ^ 32 := by
  rw [initReqLen, foldl_vlen_toNat, UInt32.toNat_ofNat_of_lt' (by have : UInt32.size = 2 ^ 32 := rfl; omega), initLength]

/-- The extent of the name and the count. -/
theorem extent_init (name : Bytes) (args : List UdfArg) :
    extent (initStores name args) = extentFrom (1 + name.length + 4) (argStores (1 + name.length + 4) args) := by
  change extentFrom (max (max (max 0 (0 + 1)) (1 + name.length)) (1 + name.length + (leBytes 4 args.length).length)) _ = _
  rw [leBytes_length, max_eq_right (by omega)]

/-- The buffer of an init is filled exactly, and is a payload. -/
structure InitExact (name : Bytes) (args : List UdfArg) : Prop where
  stored : extent (initStores name args) = (initReqLen name args).toNat
  fits : (initReqLen name args).toNat ≤ maxPayload

theorem length_le_argsLength {args : List UdfArg} {a : UdfArg} (ha : a ∈ args) : 6 + a.value.length ≤ argsLength args :=
  List.single_le_sum (fun _ _ => Nat.zero_le _) _ (List.mem_map_of_mem ha)

theorem maxPayload_lt : maxPayload < 2 ^ 32 := by decide

/-- Nothing checks the size of an init: it is exact while it does not pass the bound of a
payload. -/
theorem initExact_iff {name : Bytes} (hname : name.length < 256) (args : List UdfArg) :
    InitExact name args ↔ initLength name args ≤ maxPayload := by
  have hmax := maxPayload_lt
  have hreq := initReqLen_toNat hname args
  by_cases hwrap : ∀ a ∈ args, a.value.length + 4 < 2 ^ 32
  · have hextent : extent (initStores name args) = initLength name args := by
      rw [extent_init, extentFrom_argStores hwrap, initLength]
    constructor
    · rintro ⟨hstored, hfits⟩
      omega
    · intro hle
      rw [Nat.mod_eq_of_lt (by omega)] at hreq
      exact ⟨hextent.trans hreq.symm, hreq ▸ hle⟩
  · simp only [not_forall, not_lt] at hwrap
    obtain ⟨a, ha, hlen⟩ := hwrap
    refine iff_of_false ?_ ?_
    · rintro ⟨hstored, hfits⟩
      have hextent := extentFrom_wrap ha hlen (1 + name.length + 4) (1 + name.length + 4)
      rw [← extent_init] at hextent
      omega
    · have := length_le_argsLength ha
      rw [initLength]
      omega

/-! ### `fsq_udf_call` -/

/-- The size of the request of a call. -/
def callLength (name : Bytes) (args : List UdfArg) : ℕ := 1 + name.length + 8 + 4 + argsLength args

/-- No object is longer than `2 ^ 63` bytes, so the sizes do not wrap. -/
theorem callTotalFrom_some {args : List UdfArg} (hlen : ∀ a ∈ args, a.value.length < 2 ^ 63) {total result : UInt64}
    (htotal : total.toNat ≤ maxArgBytes) (h : callTotalFrom total args = some result) :
    result.toNat = total.toNat + argsLength args ∧ result.toNat ≤ maxArgBytes := by
  have hcap : maxArgBytes < 2 ^ 32 := by decide
  induction args generalizing total with
  | nil =>
    cases h
    exact ⟨rfl, htotal⟩
  | cons a args ih =>
    have hlt := hlen a (List.mem_cons_self ..)
    have hvalue : (UInt64.ofNat a.value.length).toNat = a.value.length :=
      UInt64.toNat_ofNat_of_lt' (by have : UInt64.size = 2 ^ 64 := rfl; omega)
    have hbytes : (UInt64.ofNat maxArgBytes).toNat = maxArgBytes := rfl
    have hadd : (total + (6 + UInt64.ofNat a.value.length)).toNat = total.toNat + (6 + a.value.length) := by
      have hsix : (6 : UInt64).toNat = 6 := rfl
      rw [UInt64.toNat_add, UInt64.toNat_add, hvalue, hsix]
      omega
    rw [callTotalFrom] at h
    split_ifs at h with hover
    rw [UInt64.lt_iff_toNat_lt, hbytes, hadd, not_lt] at hover
    obtain ⟨hresult, hle⟩ := ih (fun b hb => hlen b (List.mem_cons_of_mem _ hb)) (hadd ▸ hover) h
    refine ⟨?_, hle⟩
    rw [hresult, hadd]
    simp [argsLength]
    omega

/-- A call that is not refused has its size, within the cap. -/
theorem callTotal_some {name : Bytes} (hname : name.length < 256) {args : List UdfArg}
    (hlen : ∀ a ∈ args, a.value.length < 2 ^ 63) {handle total : UInt64} (h : callTotal name args handle = some total) :
    total.toNat = callLength name args ∧ callLength name args ≤ maxArgBytes := by
  have hstart : (UInt64.ofNat (1 + name.length + 8 + 4)).toNat = 1 + name.length + 8 + 4 :=
    UInt64.toNat_ofNat_of_lt' (by have : UInt64.size = 2 ^ 64 := rfl; omega)
  have hcap : 268 ≤ maxArgBytes := by decide
  rw [callTotal] at h
  split_ifs at h
  obtain ⟨htotal, hle⟩ := callTotalFrom_some hlen (by omega) h
  rw [hstart] at htotal
  exact ⟨htotal, by rw [callLength, ← htotal]; exact hle⟩

theorem extent_call (name : Bytes) (args : List UdfArg) (handle : UInt64) :
    extent (callStores name args handle) =
      extentFrom (1 + name.length + 8 + 4) (argStores (1 + name.length + 8 + 4) args) := by
  change extentFrom (max (max (max (max 0 (0 + 1)) (1 + name.length)) (1 + name.length + (leBytes 8 handle.toNat).length))
    (1 + name.length + 8 + (leBytes 4 args.length).length)) _ = _
  rw [leBytes_length, leBytes_length, max_eq_right (by omega)]

/-- The buffer of a call is filled exactly, and is a payload. -/
structure CallExact (name : Bytes) (args : List UdfArg) (handle total : UInt64) : Prop where
  stored : extent (callStores name args handle) = total.toNat
  fits : total.toNat ≤ maxPayload

theorem callExact {name : Bytes} (hname : name.length < 256) {args : List UdfArg}
    (hlen : ∀ a ∈ args, a.value.length < 2 ^ 32) {handle total : UInt64} (h : callTotal name args handle = some total) :
    CallExact name args handle total := by
  obtain ⟨htotal, hle⟩ := callTotal_some hname (fun a ha => (hlen a ha).trans (by decide)) h
  have hcap : maxArgBytes ≤ maxPayload := by decide
  have hwrap : ∀ a ∈ args, a.value.length + 4 < 2 ^ 32 := by
    intro a ha
    have := length_le_argsLength ha
    have hmax := maxPayload_lt
    rw [callLength] at hle
    omega
  constructor
  · rw [extent_call, extentFrom_argStores hwrap, htotal, callLength]
  · omega

/-- The buffers are exact where the request of an init does not pass the bound of a payload. -/
theorem buffers_exact_iff {name : Bytes} (hname : name.length < 256) {args : List UdfArg}
    (hlen : ∀ a ∈ args, a.value.length < 2 ^ 32) :
    ((args.length ≤ maxArgs → InitExact name args) ∧
        ∀ handle total, callTotal name args handle = some total → CallExact name args handle total) ↔
      (args.length ≤ maxArgs → initLength name args ≤ maxPayload) := by
  rw [initExact_iff hname]
  exact and_iff_left fun _ _ => callExact hname hlen

theorem buffers_exact_integer :
    InitExact (ascii "f") [.int 3] ∧
      ∀ handle total, callTotal (ascii "f") [.int 3] handle = some total → CallExact (ascii "f") [.int 3] handle total := by
  have hlen : ∀ a ∈ [UdfArg.int 3], a.value.length < 2 ^ 32 := by
    rintro a ha
    rw [List.mem_singleton.mp ha]
    decide
  obtain ⟨hinit, hcall⟩ := (@buffers_exact_iff (ascii "f") (by decide) _ hlen).mpr fun _ => by decide
  exact ⟨hinit (by decide), hcall⟩

/-- A constant string of one GiB. -/
def gibibyte : UdfArg := .string (List.replicate (2 ^ 30) 97)

/-- Four of them wrap the size of an init, which is stored past the end of its buffer. -/
theorem wrapped_init_overruns : ¬ InitExact (ascii "f") [gibibyte, gibibyte, gibibyte, gibibyte] := by
  rw [initExact_iff (by decide), initLength]
  have hlen : gibibyte.value.length = 2 ^ 30 := List.length_replicate
  simp only [argsLength, List.map_cons, List.map_nil, List.sum_cons, List.sum_nil, hlen, maxPayload]
  omega

/-! ### What is stored -/

/-- A store replaces what stood there. -/
theorem Store.apply_over (pre : Bytes) {old new : Bytes} (post : Bytes) (h : old.length = new.length) :
    Store.apply (pre ++ (old ++ post)) (pre.length, new) = pre ++ (new ++ post) := by
  rw [Store.apply, List.take_left, ← List.drop_drop, List.drop_left, List.drop_left' h]

/-- The stores of one argument: the value first, then its length in front of it. -/
theorem foldl_argStores_cons (pre junk : Bytes) (a : UdfArg) (args : List UdfArg) (hlen : a.value.length + 4 < 2 ^ 32)
    (hroom : 6 + a.value.length ≤ junk.length) :
    (argStores pre.length (a :: args)).foldl Store.apply (pre ++ junk) =
      (argStores (pre ++ a.wire.encode).length args).foldl Store.apply
        ((pre ++ a.wire.encode) ++ junk.drop (6 + a.value.length)) := by
  obtain ⟨type, junk, rfl⟩ := exists_block 1 junk (by omega)
  obtain ⟨null, junk, rfl⟩ := exists_block 1 junk (by simp at hroom; omega)
  obtain ⟨len, junk, rfl⟩ := exists_block 4 junk (by simp at hroom; omega)
  obtain ⟨value, junk, rfl⟩ := exists_block a.value.length junk (by simp at hroom; omega)
  have hvlen : a.vlen.toNat = a.value.length := a.vlen_toNat (by omega)
  have hnext : pre.length + 2 + (4 + a.vlen).toNat = (pre ++ a.wire.encode).length := by
    have hfour : (4 : UInt32).toNat = 4 := rfl
    rw [List.length_append, a.wire_length, UInt32.toNat_add, hvlen, hfour]
    omega
  have hdrop : (type.val ++ (null.val ++ (len.val ++ (value.val ++ junk)))).drop (6 + a.value.length) = junk := by
    have hhead : (type.val ++ (null.val ++ (len.val ++ value.val))).length = 6 + a.value.length := by
      simp
      omega
    rw [← hhead]
    simpa [List.append_assoc] using @List.drop_left _ (type.val ++ (null.val ++ (len.val ++ value.val))) junk
  have htype := Store.apply_over pre (null.val ++ (len.val ++ (value.val ++ junk)))
    (show type.val.length = [itemToWire a.type].length by simp)
  have hnull := Store.apply_over (pre ++ [itemToWire a.type]) (len.val ++ (value.val ++ junk))
    (show null.val.length = [a.nullFlag].length by simp)
  have hvalue := Store.apply_over (pre ++ [itemToWire a.type] ++ [a.nullFlag] ++ len.val) junk
    (show value.val.length = a.value.length by simp)
  have hfield := Store.apply_over (pre ++ [itemToWire a.type] ++ [a.nullFlag]) (a.value ++ junk)
    (show len.val.length = (leBytes 4 a.vlen.toNat).length by simp)
  simp only [List.append_assoc, List.length_append, List.length_cons, List.length_nil, Block.length_val,
    Nat.reduceAdd] at htype hnull hvalue hfield
  rw [hdrop, ← hnext, argStores, List.foldl_cons, List.foldl_cons, List.foldl_cons, List.foldl_cons, htype, hnull]
  simp only [Nat.add_assoc, Nat.reduceAdd]
  rw [hvalue, hfield, hvlen]
  simp [UdfArg.wire, WireArg.encode]

theorem foldl_argStores {args : List UdfArg} (h : ∀ a ∈ args, a.value.length + 4 < 2 ^ 32) (pre junk : Bytes)
    (hroom : junk.length = argsLength args) :
    (argStores pre.length args).foldl Store.apply (pre ++ junk) =
      pre ++ (args.map UdfArg.wire).flatMap WireArg.encode := by
  induction args generalizing pre junk with
  | nil =>
    rw [List.length_eq_zero_iff.mp hroom]
    rfl
  | cons a args ih =>
    have hsum : argsLength (a :: args) = 6 + a.value.length + argsLength args := by simp [argsLength]
    rw [foldl_argStores_cons pre junk a args (h a (List.mem_cons_self ..)) (by omega),
      ih (fun b hb => h b (List.mem_cons_of_mem _ hb)) _ _ (by simp [hroom, hsum]), List.map_cons, List.flatMap_cons,
      List.append_assoc]

/-- The stores of a call leave nothing of what stood in the buffer. -/
theorem foldl_callStores {name : Bytes} (handle : UInt64) {args : List UdfArg}
    (h : ∀ a ∈ args, a.value.length + 4 < 2 ^ 32) (junk : Bytes) (hroom : junk.length = callLength name args) :
    (callStores name args handle).foldl Store.apply junk =
      callPayload name handle args.length ((args.map UdfArg.wire).flatMap WireArg.encode) := by
  rw [callLength] at hroom
  obtain ⟨size, junk, rfl⟩ := exists_block 1 junk (by omega)
  obtain ⟨text, junk, rfl⟩ := exists_block name.length junk (by simp at hroom; omega)
  obtain ⟨number, junk, rfl⟩ := exists_block 8 junk (by simp at hroom; omega)
  obtain ⟨count, junk, rfl⟩ := exists_block 4 junk (by simp at hroom; omega)
  have hsize := Store.apply_over [] (text.val ++ (number.val ++ (count.val ++ junk)))
    (show size.val.length = [UInt8.ofNat name.length].length by simp)
  have htext := Store.apply_over [UInt8.ofNat name.length] (number.val ++ (count.val ++ junk))
    (show text.val.length = name.length by simp)
  have hnumber := Store.apply_over ([UInt8.ofNat name.length] ++ name) (count.val ++ junk)
    (show number.val.length = (leBytes 8 handle.toNat).length by simp)
  have hcount := Store.apply_over ([UInt8.ofNat name.length] ++ name ++ leBytes 8 handle.toNat) junk
    (show count.val.length = (leBytes 4 args.length).length by simp)
  have hargs := foldl_argStores h
    ([UInt8.ofNat name.length] ++ name ++ leBytes 8 handle.toNat ++ leBytes 4 args.length) junk
    (by simp at hroom; omega)
  simp only [List.append_assoc, List.length_append, List.length_cons, List.length_nil, leBytes_length, List.nil_append,
    Nat.zero_add] at hsize htext hnumber hcount hargs
  rw [callStores, List.foldl_cons, List.foldl_cons, List.foldl_cons, List.foldl_cons, hsize, htext]
  simp only [Nat.add_assoc, Nat.reduceAdd] at hnumber hcount hargs ⊢
  rw [hnumber, hcount, hargs]
  rfl

/-- The buffer of a call that is not refused holds its payload. -/
theorem encodeCall_some {name : Bytes} (hname : name.length < 256) {args : List UdfArg}
    (hlen : ∀ a ∈ args, a.value.length < 2 ^ 63) {handle : UInt64} {payload : Bytes}
    (h : encodeCall name args handle = some payload) :
    payload = callPayload name handle args.length ((args.map UdfArg.wire).flatMap WireArg.encode) ∧
      payload.length ≤ maxPayload ∧ args.length ≤ maxArgs := by
  obtain ⟨total, htotal, rfl⟩ := Option.map_eq_some_iff.mp h
  obtain ⟨hsize, hle⟩ := callTotal_some hname hlen htotal
  have hcap : maxArgBytes ≤ maxPayload := by decide
  have hmax := maxPayload_lt
  have hcount : args.length ≤ maxArgs := by
    rw [callTotal] at htotal
    split_ifs at htotal with hrefused
    omega
  have hwrap : ∀ a ∈ args, a.value.length + 4 < 2 ^ 32 := by
    intro a ha
    have := length_le_argsLength ha
    rw [callLength] at hle
    omega
  suffices hbuf : (callStores name args handle).foldl Store.apply (List.replicate total.toNat 0) =
      callPayload name handle args.length ((args.map UdfArg.wire).flatMap WireArg.encode) by
    refine ⟨hbuf, ?_, hcount⟩
    rw [hbuf]
    have := argsLength_eq args
    rw [callLength] at hle
    simp only [callPayload, List.length_cons, List.length_append, leBytes_length]
    omega
  exact foldl_callStores handle hwrap _ (by rw [List.length_replicate, hsize])

end FractalSQL.Service
