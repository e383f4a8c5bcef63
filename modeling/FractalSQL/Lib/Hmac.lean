import Mathlib.Data.List.DropRight
import FractalSQL.Lib.Bytes

/-!
# Keyed hashing with a nested pad

A hash function `H` with blocks of `B` bytes is keyed by two masked copies of the key,
filled with zeros to a block. A tag tells the message and the block of the key, for any
two uses between whose inputs `H` has no collision; the block tells the key up to the
zeros at its end.
-/
namespace FractalSQL.Lib.Hmac

variable (H : Bytes → Bytes) (B : ℕ)

/-- A key that is longer than a block is hashed. -/
def shortened (key : Bytes) : Bytes := if B < key.length then H key else key

/-- The key, filled with zeros to a block. -/
def keyBlock (key : Bytes) : Bytes := shortened H B key ++ List.replicate (B - (shortened H B key).length) 0

def masked (pad : UInt8) (block : Bytes) : Bytes := block.map (· ^^^ pad)

def inner (key m : Bytes) : Bytes := masked 0x36 (keyBlock H B key) ++ m

def outer (key m : Bytes) : Bytes := masked 0x5c (keyBlock H B key) ++ H (inner H B key m)

def hmac (key m : Bytes) : Bytes := H (outer H B key m)

/-! ### The block of a key -/

theorem masked_injective (pad : UInt8) : Function.Injective (masked pad) := by
  apply List.map_injective_iff.mpr
  intro a b h
  have hback : a ^^^ pad ^^^ pad = b ^^^ pad ^^^ pad := congrArg (· ^^^ pad) h
  rwa [UInt8.xor_assoc, UInt8.xor_assoc, UInt8.xor_self, UInt8.xor_zero, UInt8.xor_zero] at hback

@[simp] theorem masked_length (pad : UInt8) (block : Bytes) : (masked pad block).length = block.length := List.length_map _

theorem keyBlock_length {H : Bytes → Bytes} {B : ℕ} (hH : ∀ m, (H m).length ≤ B) (key : Bytes) :
    (keyBlock H B key).length = B := by
  have hshort : (shortened H B key).length ≤ B := by
    rw [shortened]
    split_ifs with h
    · exact hH key
    · omega
  rw [keyBlock, List.length_append, List.length_replicate]
  omega

/-- The key without the zeros at its end. -/
def trimmed (key : Bytes) : Bytes := key.rdropWhile (· == 0)

theorem trimmed_append_zeros (key : Bytes) (n : ℕ) : trimmed (key ++ List.replicate n 0) = trimmed key := by
  induction n with
  | zero => rw [List.replicate_zero, List.append_nil]
  | succ n ih =>
    rw [List.replicate_succ', ← List.append_assoc, trimmed, List.rdropWhile_concat_pos _ _ _ (by rfl)]
    exact ih

theorem exists_trimmed (key : Bytes) : ∃ n, key = trimmed key ++ List.replicate n 0 := by
  induction key using List.reverseRecOn with
  | nil => exact ⟨0, rfl⟩
  | append_singleton key b ih =>
    by_cases hb : b = 0
    · obtain ⟨n, hn⟩ := ih
      refine ⟨n + 1, ?_⟩
      rw [trimmed, List.rdropWhile_concat_pos _ _ _ (by simpa using hb), ← trimmed, List.replicate_succ', ← List.append_assoc,
        ← hn, hb]
    · refine ⟨0, ?_⟩
      rw [trimmed, List.rdropWhile_concat_neg _ _ _ (by simpa using hb), List.replicate_zero, List.append_nil]

/-- Two short keys have one block when they differ in zeros at their ends, and only then. -/
theorem keyBlock_eq_iff {H : Bytes → Bytes} {B : ℕ} {key key' : Bytes} (h : key.length ≤ B) (h' : key'.length ≤ B) :
    keyBlock H B key = keyBlock H B key' ↔ trimmed key = trimmed key' := by
  have hshort : shortened H B key = key := if_neg (by omega)
  have hshort' : shortened H B key' = key' := if_neg (by omega)
  rw [keyBlock, keyBlock, hshort, hshort']
  constructor
  · intro heq
    rw [← trimmed_append_zeros key, heq, trimmed_append_zeros]
  · intro heq
    obtain ⟨n, hn⟩ := exists_trimmed key
    obtain ⟨n', hn'⟩ := exists_trimmed key'
    have hlen : key.length = (trimmed key).length + n := by
      conv_lhs => rw [hn]
      rw [List.length_append, List.length_replicate]
    have hlen' : key'.length = (trimmed key).length + n' := by
      conv_lhs => rw [hn', ← heq]
      rw [List.length_append, List.length_replicate]
    have hzeros : n + (B - key.length) = n' + (B - key'.length) := by omega
    rw [hn, hn', ← heq, List.append_assoc, List.append_assoc, List.replicate_append_replicate,
      List.replicate_append_replicate, ← hn, heq, ← hn', hzeros]

/-- A key without zero bytes is known from its block. -/
theorem trimmed_eq_self {key : Bytes} (h : 0 ∉ key) : trimmed key = key := by
  rcases List.eq_nil_or_concat' key with rfl | ⟨front, b, rfl⟩
  · rfl
  · have hb : b ≠ 0 := by
      rintro rfl
      exact h (by simp)
    rw [trimmed, List.rdropWhile_concat_neg _ _ _ (by simpa using hb)]

/-! ### What a tag tells -/

/-- One tag for two messages comes from one block and one message, unless `H` has a
collision between the inner or the outer inputs. -/
theorem eq_of_hmac_eq {H : Bytes → Bytes} {B : ℕ} (hH : ∀ m, (H m).length ≤ B) {key key' m m' : Bytes}
    (hinner : H (inner H B key m) = H (inner H B key' m') → inner H B key m = inner H B key' m')
    (houter : H (outer H B key m) = H (outer H B key' m') → outer H B key m = outer H B key' m')
    (h : hmac H B key m = hmac H B key' m') : keyBlock H B key = keyBlock H B key' ∧ m = m' := by
  have hblocks (pad : UInt8) :
      (masked pad (keyBlock H B key)).length = (masked pad (keyBlock H B key')).length := by
    rw [masked_length, masked_length, keyBlock_length hH, keyBlock_length hH]
  obtain ⟨hkey, htag⟩ := List.append_inj (houter h) (hblocks 0x5c)
  exact ⟨masked_injective _ hkey, (List.append_inj (hinner htag) (hblocks 0x36)).2⟩

end FractalSQL.Lib.Hmac
