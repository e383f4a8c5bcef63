import FractalSQL.Session.OverlayMap

/-!
# Integers of the session overlay

`fractal_config_set` checks an integer on the whole value, and `fractal_config_lookup_long`
reads it again from a buffer of 64 bytes. The two agree exactly while the value fits into
the buffer.
-/
namespace FractalSQL.Session
open Lib

/-- What the string functions see of a copied argument. -/
def argText (arg : Bytes) : Bytes := arg.takeWhile (· ≠ 0)

/-- What `fractal_config_set` gives back: NULL, an error, a refusal with its reason, or the
text `ok`. -/
inductive SetReply where
  | null
  | error
  | refused (reason : Bytes)
  | ok
deriving DecidableEq

/-- `MYSQL_ERRMSG_SIZE`, the buffer of a reason. -/
def errmsgSize : ℕ := 512

/-- `cfg_return`; the reply is lost when its buffer cannot grow. -/
def cfgReturn (bufferOk : Bool) (reply : SetReply) : SetReply := if bufferOk then reply else .error

/-- The outcomes of the allocations of one call: the value, its stored copy, the reply. -/
structure SetEnv where
  valueOk : Bool
  copyOk : Bool
  bufferOk : Bool

/-- `fractal_config_set`. -/
def configSet (o : Overlay) (name value : Option Bytes) (sid : Option UInt64) (env : SetEnv) : Overlay × SetReply :=
  match name, value, sid with
  | some name, some value, some sid =>
    if 256 ≤ name.length then
      (o, cfgReturn env.bufferOk (.refused (ascii "refused: the configuration key name is too long")))
    else if cfgMaxValue ≤ value.length then
      (o, cfgReturn env.bufferOk
        (.refused (ascii "refused: the configuration value is too long (the limit is 8191 bytes)")))
    else if env.valueOk = false then (o, .error)
    else match setValue o sid (some (argText name)) (some (argText value)) env.copyOk with
      | (o, .error reason) =>
        let reason := reason.take (errmsgSize - 1)
        (o, cfgReturn env.bufferOk (.refused (if reason = [] then ascii "refused" else reason)))
      | (o, .ok _) => (o, cfgReturn env.bufferOk .ok)
  | _, _, _ => (o, .null)

/-- `char buf[64]` in `fractal_config_lookup_long`. -/
def longBuf : ℕ := 64

/-- `fractal_config_lookup_long`: the integer that it returns true with. -/
def lookupLong (o : Overlay) (sid : UInt64) (name : Option Bytes) : Overlay × Option ℤ :=
  match lookupStr o sid name longBuf with
  | (o, none) => (o, none)
  | (o, some buf) => (o, parseLong buf)

/-- The integer that the validation of a value checked is in the range of its key, and it is
what a lookup in the overlay finds. -/
def ReadsBack (o : Overlay) (sid : UInt64) (name : Option Bytes) (k : CfgKey) (value : Bytes) : Prop :=
  ∀ n, parseLong value = some n → k.row.min ≤ n ∧ n ≤ k.row.max ∧ (lookupLong o sid name).2 = some n

/-- The ranges of the integer keys are positive and far from the bounds of a `long`. -/
theorem int_key_range {k : CfgKey} (h : k.row.type = .int) : 0 < k.row.min ∧ k.row.max < 2 ^ 63 - 1 := by
  cases k <;> first | exact ⟨by decide, by decide⟩ | exact absurd h nofun

theorem parseLong_eq_some {v : Bytes} {n : ℤ} : parseLong v = some n ↔ strtoInt (-2 ^ 63) (2 ^ 63 - 1) v = some (n, []) := by
  unfold parseLong
  split
  · rename_i m heq
    rw [heq, Option.some.injEq, Option.some.injEq, Prod.mk.injEq]
    exact (and_iff_left rfl).symm
  · rename_i hno
    exact iff_of_false nofun fun heq => hno n heq

/-- A value of an integer key that is accepted is empty or an integer in the range. -/
theorem validateValue_int {k : CfgKey} {v : Bytes} {n : ℤ} (htype : k.row.type = .int)
    (hok : validateValue k.row (some v) = .ok ()) (hn : parseLong v = some n) : k.row.min ≤ n ∧ n ≤ k.row.max := by
  have hne : v ≠ [] := by
    rintro rfl
    exact absurd hn nofun
  rw [validateValue, if_neg hne, htype] at hok
  dsimp only at hok
  rw [hn] at hok
  dsimp only at hok
  split_ifs at hok with hrange
  omega

/-- What is accepted and not empty was read as an integer. -/
theorem parseLong_of_valid {k : CfgKey} {v : Bytes} (htype : k.row.type = .int) (hne : v ≠ [])
    (hok : validateValue k.row (some v) = .ok ()) : ∃ n, parseLong v = some n := by
  rw [validateValue, if_neg hne, htype] at hok
  dsimp only at hok
  cases hn : parseLong v with
  | some n => exact ⟨n, rfl⟩
  | none =>
    rw [hn] at hok
    exact absurd hok nofun

/-- A call that answers `ok` went through `fractal_config_set_value`. -/
theorem configSet_ok {o : Overlay} {name value : Bytes} {sid : UInt64} {env : SetEnv}
    (h : (configSet o (some name) (some value) (some sid) env).2 = .ok) :
    (setValue o sid (some (argText name)) (some (argText value)) env.copyOk).2 = .ok () ∧
      (configSet o (some name) (some value) (some sid) env).1 =
        (setValue o sid (some (argText name)) (some (argText value)) env.copyOk).1 := by
  unfold configSet cfgReturn at h ⊢
  dsimp only at h ⊢
  grind

/-- A value that validation accepts for the key of a call that answers `ok`. -/
theorem setValue_valid {o : Overlay} {sid : UInt64} {name value : Option Bytes} {mallocOk : Bool} {k : CfgKey}
    (h : (setValue o sid name value mallocOk).2 = .ok ()) (hkey : keyByName name = some k) :
    validateValue k.row value = .ok () := by
  rw [setValue, hkey] at h
  dsimp only at h
  rcases validateValue_cases k.row value with ⟨reason, hvalid⟩ | hvalid
  · rw [hvalid] at h
    dsimp only at h
    split_ifs at h
  · exact hvalid

/-- After every run of the overlay, an integer that `fractal_config_set` accepts for a key
reads back as validated exactly when its text, up to a NUL byte, fits into the reader's
buffer. -/
theorem integer_reads_back_iff (ops : List OverlayOp) (name value : Bytes) (sid : UInt64) (env : SetEnv) (k : CfgKey)
    (name' : Option Bytes) (hkey : keyByName (some (argText name)) = some k) (htype : k.row.type = .int)
    (hname' : keyByName name' = some k)
    (hok : (configSet (ops.foldl Overlay.step {}) (some name) (some value) (some sid) env).2 = .ok) :
    ReadsBack (configSet (ops.foldl Overlay.step {}) (some name) (some value) (some sid) env).1 sid name' k
        (argText value) ↔ (argText value).length < longBuf := by
  have h := stands_run .empty ops
  generalize ops.foldl Overlay.step {} = o at h hok ⊢
  obtain ⟨hset, hstate⟩ := configSet_ok hok
  have hvalid := setValue_valid hset hkey
  rw [hstate]
  by_cases hne : argText value = []
  · rw [hne]
    exact iff_of_true (fun n hn => absurd hn nofun) (by decide)
  have hvalue : nonEmpty (some (argText value)) = some (argText value) := by
    obtain ⟨b, v, hv⟩ := List.exists_cons_of_ne_nil hne
    rw [hv, nonEmpty]
  have hlong : (lookupLong (setValue o sid (some (argText name)) (some (argText value)) env.copyOk).1 sid name').2 =
      parseLong ((argText value).take (longBuf - 1)) := by
    have hisOk : (setValue o sid (some (argText name)) (some (argText value)) env.copyOk).2.isOk = true := by
      rw [hset]
      rfl
    have hfound := h.found_after_set hisOk hkey hvalue
    have hstr := ((h.set sid (some (argText name)) (some (argText value)) env.copyOk).1.lookup sid name' longBuf).2
    rw [hname', Option.bind_some, hfound, Option.map_some] at hstr
    rw [lookupLong]
    split
    · rename_i heq
      rw [heq] at hstr
      exact absurd hstr nofun
    · rename_i buf heq
      rw [heq, Option.some.injEq] at hstr
      rw [← hstr]
  constructor
  · intro hread
    by_contra hlen
    obtain ⟨n, hn⟩ := parseLong_of_valid htype hne hvalid
    obtain ⟨hmin, hmax, hlookup⟩ := hread n hn
    obtain ⟨hlow, hhigh⟩ := int_key_range htype
    rw [hlong, parseLong_eq_some] at hlookup
    rw [parseLong_eq_some, ← List.take_append_drop (longBuf - 1) (argText value)] at hn
    have hrest : (argText value).drop (longBuf - 1) ≠ [] := by
      rw [ne_eq, List.drop_eq_nil_iff]
      unfold longBuf at hlen ⊢
      omega
    exact strtoInt_cut hn hrest (by omega) (by omega) (by omega) hlookup
  · intro hlen n hn
    obtain ⟨hmin, hmax⟩ := validateValue_int htype hvalid hn
    refine ⟨hmin, hmax, ?_⟩
    rw [hlong, List.take_of_length_le (Nat.le_sub_one_of_lt hlen), hn]

/-- Sixty-three zeros and a seven. -/
def paddedSeven : Bytes := List.replicate 63 48 ++ [55]

/-- A padded value is accepted as 7 and read back as 0. -/
theorem padded_integer_lost :
    let set := configSet {} (some (ascii "t2s_max_attempts")) (some paddedSeven) (some 1) ⟨true, true, true⟩
    set.2 = .ok ∧ parseLong (argText paddedSeven) = some 7 ∧
      (lookupLong set.1 1 (some (ascii "t2s_max_attempts"))).2 = some 0 := by
  decide +kernel

theorem short_integer_reads_back :
    ReadsBack (configSet {} (some (ascii "t2s_max_attempts")) (some (ascii " +07")) (some 1) ⟨true, true, true⟩).1 1
        (some (ascii "fractalsql.t2s_max_attempts")) .t2sMaxAttempts (argText (ascii " +07")) ↔
      (argText (ascii " +07")).length < longBuf :=
  integer_reads_back_iff [] (ascii "t2s_max_attempts") (ascii " +07") 1 ⟨true, true, true⟩ .t2sMaxAttempts
    (some (ascii "fractalsql.t2s_max_attempts")) (by decide +kernel) rfl (by decide +kernel) (by decide +kernel)

end FractalSQL.Session
