import FractalSQL.Vectors.Canonical

/-!
# Canonical vectors on two kinds of host

The encoder and the decoder with the byte order of the host that runs them. They take a pattern apart
by shifts, which no host does otherwise, but swap its bytes before that on a big-endian one.
-/
namespace FractalSQL.Vectors
open Lib

/-- `host_is_little_endian`. -/
inductive Host where
  | little
  | big
deriving DecidableEq

def Host.isLittleEndian : Host → Bool
  | .little => true
  | .big => false

/-- The swap of `le_float_put` and `le_float_get`. -/
def byteSwap (bits : UInt32) : UInt32 :=
  ((bits &&& 0x000000ff) <<< 24) ||| ((bits &&& 0x0000ff00) <<< 8) ||| ((bits &&& 0x00ff0000) >>> 8) |||
    ((bits &&& 0xff000000) >>> 24)

namespace Host
variable (host : Host)

/-- The pattern is the value of the float in a register, which `memcpy` leaves as it is. -/
def leFloatPut (f : UInt32) : Bytes :=
  let bits := if host.isLittleEndian then f else byteSwap f
  [(bits &&& 0xff).toUInt8, ((bits >>> 8) &&& 0xff).toUInt8, ((bits >>> 16) &&& 0xff).toUInt8, ((bits >>> 24) &&& 0xff).toUInt8]

def leFloatGet (p : Bytes) : UInt32 :=
  let bits := (p.getD 0 0).toUInt32 ||| ((p.getD 1 0).toUInt32 <<< 8) ||| ((p.getD 2 0).toUInt32 <<< 16) |||
    ((p.getD 3 0).toUInt32 <<< 24)
  if host.isLittleEndian then bits else byteSwap bits

def floatBytes (v : List UInt32) : Bytes := v.flatMap host.leFloatPut

def formatCanonicalHex (v : List UInt32) : Option Bytes :=
  if v.length < 1 ∨ maxDim < v.length then none
  else some (hexEncode (leBytes 2 v.length ++ (leBytes 2 0 ++ host.floatBytes v)))

def floatsOf : ℕ → Bytes → List UInt32
  | 0, _ => []
  | dim + 1, p => host.leFloatGet p :: floatsOf dim (p.drop 4)

def decodeCanonicalHex (s : Bytes) : Decoded :=
  if s = [] ∨ s.length % 2 ≠ 0 then .refused
  else if s.length / 2 < hdrSz then .refused
  else
    match hexDecode (s.length / 2) s with
    | none => .refused
    | some (bytes, _) =>
      let dim := le16Get bytes
      if dim < 1 ∨ maxDim < dim ∨ le16Get (bytes.drop 2) ≠ 0 ∨ bytes.length ≠ hdrSz + dim * 4 then .refused
      else
        let fv := host.floatsOf dim (bytes.drop hdrSz)
        match fv.findIdx? fun f => !isFinite f with
        | some i => .notFinite i
        | none => .vector fv

end Host

/-! ### Shifts and masks -/

/-- A mask of eight bits takes one base-256 digit. -/
theorem and_mask (n k : ℕ) : n &&& (255 * 2 ^ k) = n / 2 ^ k % 256 * 2 ^ k := by
  apply Nat.eq_of_testBit_eq
  intro i
  have hmask : 255 * 2 ^ k = (2 ^ 8 - 1) * 2 ^ k := rfl
  rw [Nat.testBit_and, hmask, Nat.testBit_mul_two_pow, Nat.testBit_mul_two_pow, Nat.testBit_two_pow_sub_one,
    show 256 = 2 ^ 8 from rfl, Nat.testBit_mod_two_pow, Nat.testBit_div_two_pow]
  by_cases hk : k ≤ i
  · simp [hk, Bool.and_comm]
  · simp [hk]

theorem or_high {a k : ℕ} (h : a < 2 ^ k) (b : ℕ) : a ||| b * 2 ^ k = a + b * 2 ^ k := by
  rw [Nat.or_comm, Nat.mul_comm, ← Nat.two_pow_add_eq_or_of_lt h, Nat.add_comm]

theorem or_low {b k : ℕ} (h : b < 2 ^ k) (a : ℕ) : a * 2 ^ k ||| b = a * 2 ^ k + b := by
  rw [Nat.mul_comm, Nat.two_pow_add_eq_or_of_lt h]

/-- The extracted bytes are the digits of the pattern. -/
theorem put_eq (bits : UInt32) :
    [(bits &&& 0xff).toUInt8, ((bits >>> 8) &&& 0xff).toUInt8, ((bits >>> 16) &&& 0xff).toUInt8,
      ((bits >>> 24) &&& 0xff).toUInt8] = leBytes 4 bits.toNat := by
  have hbyte (n : ℕ) : (n &&& 255) % 2 ^ 8 = n % 2 ^ 8 := by
    rw [Nat.and_two_pow_sub_one_eq_mod n 8, Nat.mod_mod]
  simp only [leBytes, List.cons.injEq, ← UInt8.toNat_inj, UInt32.toNat_toUInt8, UInt32.toNat_and, UInt32.toNat_shiftRight,
    UInt8.toNat_ofNat', and_true]
  refine ⟨hbyte _, (hbyte _).trans ?_, (hbyte _).trans ?_, (hbyte _).trans ?_⟩
  · change bits.toNat >>> 8 % 2 ^ 8 = _
    rw [Nat.shiftRight_eq_div_pow]
  · change bits.toNat >>> 16 % 2 ^ 8 = _
    rw [Nat.shiftRight_eq_div_pow]
    omega
  · change bits.toNat >>> 24 % 2 ^ 8 = _
    rw [Nat.shiftRight_eq_div_pow]
    omega

/-- Bytes that are put together are the digits of the pattern. -/
theorem get_eq (b₀ b₁ b₂ b₃ : UInt8) :
    (b₀.toUInt32 ||| (b₁.toUInt32 <<< 8) ||| (b₂.toUInt32 <<< 16) ||| (b₃.toUInt32 <<< 24)).toNat = leValue [b₀, b₁, b₂, b₃] := by
  have h₀ := b₀.toNat_lt
  have h₁ := b₁.toNat_lt
  have h₂ := b₂.toNat_lt
  have h₃ := b₃.toNat_lt
  simp only [UInt32.toNat_or, UInt32.toNat_shiftLeft, UInt8.toNat_toUInt32, leValue]
  change b₀.toNat ||| b₁.toNat <<< 8 % 2 ^ 32 ||| b₂.toNat <<< 16 % 2 ^ 32 ||| b₃.toNat <<< 24 % 2 ^ 32 = _
  simp only [Nat.shiftLeft_eq]
  rw [Nat.mod_eq_of_lt (by omega), Nat.mod_eq_of_lt (by omega), Nat.mod_eq_of_lt (by omega), or_high h₀]
  rw [or_high (k := 16) (by omega)]
  rw [or_high (k := 24) (by omega)]
  omega

/-- Four digits, each shifted to the place that the swap gives it. -/
theorem or_swapped {a b c d : ℕ} (ha : a < 256) (hb : b < 256) (hc : c < 256) (hd : d < 256) :
    a * 2 ^ 0 * 2 ^ 24 % 2 ^ 32 ||| b * 2 ^ 8 * 2 ^ 8 % 2 ^ 32 ||| c * 2 ^ 16 / 2 ^ 8 ||| d * 2 ^ 24 / 2 ^ 24 =
      d + 256 * (c + 256 * (b + 256 * a)) := by
  obtain ⟨hfirst, hsecond, hthird, hfourth⟩ : a * 2 ^ 0 * 2 ^ 24 % 2 ^ 32 = a * 2 ^ 24 ∧
      b * 2 ^ 8 * 2 ^ 8 % 2 ^ 32 = b * 2 ^ 16 ∧ c * 2 ^ 16 / 2 ^ 8 = c * 2 ^ 8 ∧ d * 2 ^ 24 / 2 ^ 24 = d := by
    refine ⟨?_, ?_, ?_, ?_⟩ <;> omega
  have hone : b * 2 ^ 16 < 2 ^ 24 := by
    clear hfirst hsecond hthird hfourth
    omega
  have hlast : c * 2 ^ 8 < 2 ^ 16 := by
    clear hfirst hsecond hthird hfourth hone
    omega
  have htwo : a * 2 ^ 24 + b * 2 ^ 16 = (a * 256 + b) * 2 ^ 16 := by ring
  have hthree : (a * 256 + b) * 2 ^ 16 + c * 2 ^ 8 = ((a * 256 + b) * 256 + c) * 2 ^ 8 := by ring
  rw [hfirst, hsecond, hthird, hfourth, or_low hone, htwo, or_low hlast, hthree, or_low hd]
  ring

/-- The swap reverses the bytes. -/
theorem byteSwap_toNat (f : UInt32) : (byteSwap f).toNat = leValue (leBytes 4 f.toNat).reverse := by
  have hbytes : leBytes 4 f.toNat = [UInt8.ofNat (f.toNat / 2 ^ 0 % 256), UInt8.ofNat (f.toNat / 2 ^ 8 % 256),
      UInt8.ofNat (f.toNat / 2 ^ 16 % 256), UInt8.ofNat (f.toNat / 2 ^ 24 % 256)] := by
    simp only [leBytes, List.cons.injEq, ← UInt8.toNat_inj, UInt8.toNat_ofNat', and_true]
    omega
  have hdigit (k : ℕ) : f.toNat / 2 ^ k % 256 < 256 := Nat.mod_lt _ (by decide)
  simp only [byteSwap, UInt32.toNat_or, UInt32.toNat_shiftLeft, UInt32.toNat_and, UInt32.toNat_shiftRight]
  change (f.toNat &&& 255 * 2 ^ 0) <<< 24 % 2 ^ 32 ||| (f.toNat &&& 255 * 2 ^ 8) <<< 8 % 2 ^ 32 |||
    (f.toNat &&& 255 * 2 ^ 16) >>> 8 ||| (f.toNat &&& 255 * 2 ^ 24) >>> 24 = _
  rw [and_mask, and_mask, and_mask, and_mask]
  simp only [Nat.shiftLeft_eq, Nat.shiftRight_eq_div_pow]
  rw [or_swapped (hdigit 0) (hdigit 8) (hdigit 16) (hdigit 24), hbytes]
  simp only [List.reverse_cons, List.reverse_nil, List.nil_append, List.cons_append, leValue, UInt8.toNat_ofNat', Nat.mod_mod]
  rfl

theorem leBytes_byteSwap (f : UInt32) : leBytes 4 (byteSwap f).toNat = (leBytes 4 f.toNat).reverse := by
  rw [byteSwap_toNat]
  exact leBytes_leValue (leBytes 4 f.toNat).reverse

theorem byteSwap_byteSwap (f : UInt32) : byteSwap (byteSwap f) = f := by
  rw [← uint32_leBytes (byteSwap (byteSwap f)), leBytes_byteSwap, leBytes_byteSwap, List.reverse_reverse, uint32_leBytes]

/-! ### Hosts as an order of bytes -/

/-- What the host makes of a pattern before it is taken apart and after it is put together. -/
def Host.order (host : Host) (f : UInt32) : UInt32 := if host.isLittleEndian then f else byteSwap f

namespace Host
variable (host : Host)

theorem order_order (f : UInt32) : host.order (host.order f) = f := by
  cases host with
  | little => rfl
  | big => exact byteSwap_byteSwap f

theorem leFloatPut_eq (f : UInt32) : host.leFloatPut f = leBytes 4 (host.order f).toNat := put_eq (host.order f)

theorem leFloatGet_eq (p : Bytes) : host.leFloatGet p = host.order (Vectors.leFloatGet p) := by
  have htake : leValue (p.take 4) = leValue [p.getD 0 0, p.getD 1 0, p.getD 2 0, p.getD 3 0] := by
    rcases p with - | ⟨b₀, - | ⟨b₁, - | ⟨b₂, - | ⟨b₃, p⟩⟩⟩⟩ <;> rfl
  have hbits := get_eq (p.getD 0 0) (p.getD 1 0) (p.getD 2 0) (p.getD 3 0)
  rw [← htake] at hbits
  rw [Vectors.leFloatGet, ← hbits, UInt32.ofNat_toNat]
  rfl

theorem floatBytes_eq (v : List UInt32) : host.floatBytes v = Vectors.floatBytes (v.map host.order) := by
  induction v with
  | nil => rfl
  | cons f v ih =>
    rw [List.map_cons, floatBytes_cons, ← ih, ← leFloatPut_eq]
    rfl

theorem floatsOf_eq (dim : ℕ) (p : Bytes) : host.floatsOf dim p = (Vectors.floatsOf dim p).map host.order := by
  induction dim generalizing p with
  | zero => rfl
  | succ dim ih => rw [floatsOf, Vectors.floatsOf, List.map_cons, leFloatGet_eq, ih]

/-- A host encodes the swapped patterns. -/
theorem format_eq (v : List UInt32) : host.formatCanonicalHex v = Vectors.formatCanonicalHex (v.map host.order) := by
  unfold formatCanonicalHex Vectors.formatCanonicalHex canonicalBytes
  rw [List.length_map, floatBytes_eq]

theorem decode_canonical {v : List UInt32} (hpos : 1 ≤ v.length) (hmax : v.length ≤ maxDim) :
    host.decodeCanonicalHex (hexEncode (canonicalBytes v)) =
      match (v.map host.order).findIdx? fun f => !isFinite f with
      | some i => .notFinite i
      | none => .vector (v.map host.order) := by
  obtain ⟨hnonempty, hhalf, hdecode⟩ := canonical_text v
  obtain ⟨hget, hreserved⟩ := le16Get_canonicalBytes (v := v) (by rw [maxDim] at hmax; omega)
  have hlen := canonicalBytes_length v
  unfold decodeCanonicalHex
  rw [if_neg hnonempty, hhalf, if_neg (by omega), hdecode]
  dsimp only
  rw [hget, hreserved, drop_canonicalBytes, floatsOf_eq, floatsOf_floatBytes, hlen, if_neg (by omega)]

end Host

/-- The encoder and the decoder of the other modules are those of a little-endian host. -/
theorem little_eq : Host.little.formatCanonicalHex = formatCanonicalHex ∧ Host.little.decodeCanonicalHex = decodeCanonicalHex := by
  have horder : Host.little.order = id := rfl
  constructor
  · funext v
    rw [Host.format_eq, horder, List.map_id]
  · funext s
    unfold Host.decodeCanonicalHex decodeCanonicalHex
    simp only [Host.floatsOf_eq, horder, List.map_id] <;> rfl

/-! ### One text on both hosts -/

/-- Every host writes the same text of the vector, and reads from what any host writes what was written: the
patterns, or the first that is not finite. -/
structure SameOnHosts (v : List UInt32) : Prop where
  format (host host' : Host) : host.formatCanonicalHex v = host'.formatCanonicalHex v
  decode (host host' : Host) (s : Bytes) : host.formatCanonicalHex v = some s →
    host'.decodeCanonicalHex s = match v.findIdx? fun f => !isFinite f with
      | some i => .notFinite i
      | none => .vector v

/-- The hosts agree on a vector exactly when each of its patterns reads the same from both ends, or the vector
has no canonical form. -/
theorem sameOnHosts_iff (v : List UInt32) :
    SameOnHosts v ↔ v.length < 1 ∨ maxDim < v.length ∨ ∀ f ∈ v, byteSwap f = f := by
  by_cases hdim : v.length < 1 ∨ maxDim < v.length
  · have hnone (host : Host) : host.formatCanonicalHex v = none := if_pos hdim
    refine iff_of_true ⟨fun host host' => by rw [hnone, hnone], fun host host' s hs => ?_⟩ (by tauto)
    rw [hnone] at hs
    cases hs
  · rw [not_or, not_lt, not_lt] at hdim
    have hformat (host : Host) : host.formatCanonicalHex v = some (hexEncode (canonicalBytes (v.map host.order))) := by
      rw [Host.format_eq]
      exact if_neg (by rw [List.length_map]; omega)
    have hswap : v.map byteSwap = v ↔ ∀ f ∈ v, byteSwap f = f := by
      simpa using List.map_inj_left (l := v) (f := byteSwap) (g := id)
    constructor
    · intro h
      refine .inr (.inr (hswap.mp ?_))
      have hsame := h.format .big .little
      rw [hformat, hformat] at hsame
      have hbytes := hexEncode_injective (Option.some.inj hsame)
      have hback := floatsOf_floatBytes (v.map Host.big.order)
      rw [← drop_canonicalBytes, hbytes, drop_canonicalBytes, List.length_map, ← List.length_map (f := Host.little.order),
        floatsOf_floatBytes] at hback
      exact hback.symm.trans (List.map_id v)
    · intro h
      have hsame : v.map byteSwap = v := by
        refine hswap.mpr ?_
        rcases h with h | h | h
        · omega
        · omega
        · exact h
      have hmap (host : Host) : v.map host.order = v := by
        cases host with
        | little => exact List.map_id v
        | big => exact hsame
      refine ⟨fun host host' => by rw [hformat, hformat, hmap, hmap], fun host host' s hs => ?_⟩
      rw [hformat, hmap] at hs
      cases hs
      rw [Host.decode_canonical host' hdim.1 hdim.2, hmap]

/-- The vector of the number 1 has two texts. -/
theorem one_has_two_texts : ¬ ∀ v : List UInt32, SameOnHosts v := by
  intro hall
  exact absurd ((hall [0x3f800000]).format .little .big) (by decide)

end FractalSQL.Vectors
