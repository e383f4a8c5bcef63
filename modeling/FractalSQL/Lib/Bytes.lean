import Mathlib.Tactic

/-!
# Byte strings and fixed-width little-endian fields

Files and frames are lists of bytes. A reader consumes an exact number of
bytes or fails, which is what `fread` and a blocking `recv` loop do, and an
integer field of width `w` is the list of its base-256 digits.
-/
namespace FractalSQL.Lib

abbrev Bytes := List UInt8

/-- A byte field whose width is part of its type. -/
abbrev Block (w : ℕ) := {bs : Bytes // bs.length = w}

/-- The all-zero field of width `w`. -/
def Block.zero (w : ℕ) : Block w := ⟨List.replicate w 0, List.length_replicate⟩

@[simp] theorem Block.length_val {w : ℕ} (b : Block w) : b.val.length = w := b.property

/-- Read exactly `w` bytes, or fail leaving nothing. -/
def takeExact (w : ℕ) (bs : Bytes) : Option (Block w × Bytes) :=
  if h : w ≤ bs.length then some (⟨bs.take w, by simp [h]⟩, bs.drop w) else none

theorem takeExact_eq_none {w : ℕ} {bs : Bytes} : takeExact w bs = none ↔ bs.length < w := by
  unfold takeExact
  split <;> simp_all

theorem takeExact_eq_some {w : ℕ} {bs rest : Bytes} {b : Block w} :
    takeExact w bs = some (b, rest) ↔ bs = b.val ++ rest := by
  unfold takeExact
  constructor
  · intro h
    split at h
    · obtain ⟨rfl, rfl⟩ := Prod.mk.inj (Option.some.inj h)
      exact (List.take_append_drop w bs).symm
    · cases h
  · rintro rfl
    have hw : w ≤ (b.val ++ rest).length := by simp
    rw [dif_pos hw]
    have ht : (b.val ++ rest).take w = b.val := List.take_left' b.property
    have hd : (b.val ++ rest).drop w = rest := List.drop_left' b.property
    exact congrArg some (Prod.ext (Subtype.ext ht) hd)

@[simp] theorem takeExact_append {w : ℕ} (b : Block w) (rest : Bytes) :
    takeExact w (b.val ++ rest) = some (b, rest) :=
  takeExact_eq_some.mpr rfl

theorem exists_block (w : ℕ) (bs : Bytes) (h : w ≤ bs.length) :
    ∃ (b : Block w) (rest : Bytes), bs = b.val ++ rest :=
  ⟨⟨bs.take w, by simp [h]⟩, bs.drop w, (List.take_append_drop w bs).symm⟩

/-- The `w` low base-256 digits of `n`, least significant first. -/
def leBytes : ℕ → ℕ → Bytes
  | 0, _ => []
  | w + 1, n => UInt8.ofNat n :: leBytes w (n / 256)

/-- The number a little-endian field spells. -/
def leValue : Bytes → ℕ
  | [] => 0
  | b :: bs => b.toNat + 256 * leValue bs

@[simp] theorem leBytes_length (w n : ℕ) : (leBytes w n).length = w := by
  induction w generalizing n with
  | zero => rfl
  | succ w ih => simp [leBytes, ih]

theorem leValue_lt (bs : Bytes) : leValue bs < 256 ^ bs.length := by
  induction bs with
  | nil => simp [leValue]
  | cons b bs ih =>
    have hb : b.toNat < 256 := b.toNat_lt
    rw [leValue, List.length_cons, pow_succ]
    omega

theorem leValue_leBytes {w n : ℕ} (h : n < 256 ^ w) : leValue (leBytes w n) = n := by
  induction w generalizing n with
  | zero => simp_all [leBytes, leValue]
  | succ w ih =>
    have hd : n / 256 < 256 ^ w := by
      rw [pow_succ] at h
      exact Nat.div_lt_of_lt_mul (by omega)
    rw [leBytes, leValue, ih hd, UInt8.toNat_ofNat']
    exact Nat.mod_add_div n 256

theorem leBytes_leValue (bs : Bytes) : leBytes bs.length (leValue bs) = bs := by
  induction bs with
  | nil => rfl
  | cons b bs ih =>
    have hb : b.toNat < 256 := b.toNat_lt
    have hq : (b.toNat + 256 * leValue bs) / 256 = leValue bs := by omega
    have hr : UInt8.ofNat (b.toNat + 256 * leValue bs) = b := by
      apply UInt8.toNat_inj.mp
      rw [UInt8.toNat_ofNat']
      omega
    rw [List.length_cons, leValue, leBytes, hq, hr, ih]

/-- A little-endian field as a fixed-width block. -/
def leBlock (w n : ℕ) : Block w := ⟨leBytes w n, leBytes_length w n⟩

@[simp] theorem leBlock_val (w n : ℕ) : (leBlock w n).val = leBytes w n := rfl

theorem leBlock_leValue {w : ℕ} (b : Block w) : leBlock w (leValue b.val) = b := by
  apply Subtype.ext
  obtain ⟨bs, rfl⟩ := b
  exact leBytes_leValue bs

/-- A `uint32_t` field read back after it was written. -/
theorem uint32_leBytes (k : UInt32) : UInt32.ofNat (leValue (leBytes 4 k.toNat)) = k := by
  rw [leValue_leBytes (by simpa using k.toNat_lt)]
  exact UInt32.ofNat_toNat

/-- A `uint64_t` field read back after it was written. -/
theorem uint64_leBytes (k : UInt64) : UInt64.ofNat (leValue (leBytes 8 k.toNat)) = k := by
  rw [leValue_leBytes (by simpa using k.toNat_lt)]
  exact UInt64.ofNat_toNat

theorem leBytes_uint32 (b : Block 4) : leBytes 4 (UInt32.ofNat (leValue b.val)).toNat = b.val := by
  have hv : leValue b.val < 2 ^ 32 := by simpa using leValue_lt b.val
  rw [UInt32.toNat_ofNat_of_lt' hv]
  exact congrArg Subtype.val (leBlock_leValue b)

theorem leBytes_uint64 (b : Block 8) : leBytes 8 (UInt64.ofNat (leValue b.val)).toNat = b.val := by
  have hv : leValue b.val < 2 ^ 64 := by simpa using leValue_lt b.val
  rw [UInt64.toNat_ofNat_of_lt' hv]
  exact congrArg Subtype.val (leBlock_leValue b)

/-- What holds of the 256 values holds of every byte. -/
theorem forall_byte {p : UInt8 → Prop} (h : ∀ n : Fin 256, p (UInt8.ofNat n)) (b : UInt8) : p b := by
  simpa using h ⟨b.toNat, b.toNat_lt⟩

/-- A class that holds none of some bytes is apart from them. -/
theorem notMem_of_class {p : UInt8 → Bool} {cs : Bytes} (h : (cs.all fun c => !p c) = true) {b : UInt8}
    (hb : p b = true) : b ∉ cs := by
  intro hmem
  have hno := List.all_eq_true.mp h b hmem
  rw [hb] at hno
  cases hno

end FractalSQL.Lib
