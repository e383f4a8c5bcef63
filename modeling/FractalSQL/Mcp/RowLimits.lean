import FractalSQL.Mcp.Parameters
import FractalSQL.Mcp.ToolArguments

/-!
# The row ceiling

A tool asks the engine for at most `maxRowsCeiling` rows and cuts what comes back to the
caller's limit. The limit is raised to 1 when it is smaller, the top-k count is not; and of
several lists in one result only the first one that is too long is cut.
-/
namespace FractalSQL.Mcp.Tools
open Lib Rpc

/-- The conversion to an `int`. -/
def toInt (z : ℤ) : ℤ := z.bmod (2 ^ 32)

theorem toInt_eq {z : ℤ} (h0 : 0 ≤ z) (h : z < 2 ^ 31) : toInt z = z := Int.bmod_eq_of_le (by omega) (by omega)

theorem toInt_bounds (z : ℤ) : -2 ^ 31 ≤ toInt z ∧ toInt z < 2 ^ 31 := by
  rw [toInt, Int.bmod_def]
  omega

theorem toInt_le {z : ℤ} (h0 : 0 ≤ z) : toInt z ≤ z := by
  rw [toInt, Int.bmod_def]
  omega

/-! ### What the engine is asked for -/

section Limits
variable (args : JsonValue) (maxRowsCeiling : ℤ)

def effectiveLimit : Except ToolError ℤ :=
  match args.find (ascii "limit") with
  | none | some .null => .ok (min 100 maxRowsCeiling)
  | some v =>
    match integerValue v with
    | none => .error (schemaError (ascii "limit must be an integer"))
    | some z => .ok (min (max (toInt z) 1) maxRowsCeiling)

/-- The top-k count, when it is an integer. -/
def kArgument : Option ℤ := (args.find (ascii "k")).bind integerValue

def limitKCheck : Except ToolError Unit :=
  match kArgument args with
  | some z =>
    if maxRowsCeiling < toInt z then
      .error (schemaError (ascii "k must be <= the server row ceiling (" ++ decimalInt maxRowsCeiling ++
        ascii "); raise FSQL_MCP_MAX_ROWS_CEILING if you really need more"))
    else .ok ()
  | none => .ok ()

/-- The count that is bound, 5 when there is none. -/
def kOf : Except ToolError ℤ := do
  limitKCheck args maxRowsCeiling
  let limit ← effectiveLimit args maxRowsCeiling
  return min (match kArgument args with
    | some z => toInt z
    | none => 5) limit

/-- The limit is between 1 and the ceiling, and so is the count the server receives. -/
def RowsBounded : Prop :=
  (∀ limit, effectiveLimit args maxRowsCeiling = .ok limit → 1 ≤ limit ∧ limit ≤ maxRowsCeiling) ∧
    ∀ k, kOf args maxRowsCeiling = .ok k → ∀ path : Binding.Path, path ≠ .callProcResultSet →
      ∃ n, Binding.received path [.int64 (Int64.ofInt k)] = [.integer n] ∧ 1 ≤ n ∧ n ≤ maxRowsCeiling

/-- A limit that is neither an integer nor null. -/
def LimitRefused : Prop := ∃ v, args.find (ascii "limit") = some v ∧ v ≠ .null ∧ integerValue v = none

variable {args maxRowsCeiling}

theorem effectiveLimit_cases (h : 1 ≤ maxRowsCeiling) :
    (LimitRefused args ∧ ∃ e, effectiveLimit args maxRowsCeiling = .error e) ∨
      ¬ LimitRefused args ∧ ∃ limit, effectiveLimit args maxRowsCeiling = .ok limit ∧ 1 ≤ limit ∧ limit ≤ maxRowsCeiling := by
  have hnull {v : JsonValue} (hv : v = .null ∨ integerValue v ≠ none) (hfind : args.find (ascii "limit") = some v) :
      ¬ LimitRefused args := by
    rintro ⟨w, hw, hne, hint⟩
    rw [hfind] at hw
    cases hw
    exact hv.elim hne fun hsome => hsome hint
  unfold effectiveLimit
  split
  · rename_i hfind
    refine .inr ⟨?_, _, rfl, by omega, by omega⟩
    rintro ⟨v, hv, -⟩
    rw [hfind] at hv
    cases hv
  · rename_i hfind
    exact .inr ⟨hnull (.inl rfl) hfind, _, rfl, by omega, by omega⟩
  · rename_i v hne hfind
    cases hint : integerValue v with
    | none => exact .inl ⟨⟨v, hfind, hne, hint⟩, _, rfl⟩
    | some z => exact .inr ⟨hnull (.inr (by rw [hint]; exact nofun)) hfind, _, rfl, by omega, by omega⟩

/-- Both paths read the bound count as unsigned. -/
theorem received_count {path : Binding.Path} (hpath : path ≠ .callProcResultSet) {k : ℤ} (hlo : -2 ^ 31 ≤ k)
    (hhi : k < 2 ^ 31) :
    Binding.received path [.int64 (Int64.ofInt k)] = [.integer (if 0 ≤ k then k else k + 2 ^ 64)] := by
  have hvalue : (Int64.ofInt k).toInt = k := Int64.toInt_ofInt_of_le (by omega) (by omega)
  have hword := Binding.bmod_toUInt64 (Int64.ofInt k)
  have hlt : (Int64.ofInt k).toUInt64.toNat < 2 ^ 64 := (Int64.ofInt k).toUInt64.toNat_lt
  have hread : ((Int64.ofInt k).toUInt64.toNat : ℤ) = if 0 ≤ k then k else k + 2 ^ 64 := by
    rw [hvalue, Int.bmod_def] at hword
    split <;> omega
  rw [← hread, ← Binding.received_bindUnsigned]
  cases path with
  | callProcResultSet => exact absurd rfl hpath
  | _ => rfl

/-- A count in range is what arrives. -/
theorem countBounded_iff {k : ℤ} (hlo : -2 ^ 31 ≤ k) (hhi : k ≤ maxRowsCeiling) (hint : maxRowsCeiling < 2 ^ 31) :
    (∀ path : Binding.Path, path ≠ .callProcResultSet →
      ∃ n, Binding.received path [.int64 (Int64.ofInt k)] = [.integer n] ∧ 1 ≤ n ∧ n ≤ maxRowsCeiling) ↔ 1 ≤ k := by
  constructor
  · intro h
    have hpath : Binding.Path.callProc ≠ .callProcResultSet := nofun
    obtain ⟨n, hn, hlow, hhigh⟩ := h .callProc hpath
    rw [received_count hpath hlo (by omega)] at hn
    obtain ⟨hn, -⟩ := List.cons.inj hn
    have hvalue := Binding.Received.integer.inj hn
    split at hvalue <;> omega
  · intro h path hpath
    refine ⟨k, ?_, h, hhi⟩
    rw [received_count hpath hlo (by omega), if_pos (by omega)]

/-- For every arguments object the row ceiling bounds what the engine is asked for exactly when
the call is refused for its limit or the count, as an `int`, is at least 1. -/
theorem rows_bounded_iff (args : JsonValue) (maxRowsCeiling : ℤ) (h : 1 ≤ maxRowsCeiling)
    (hint : maxRowsCeiling < 2 ^ 31) :
    RowsBounded args maxRowsCeiling ↔ LimitRefused args ∨ ∀ z, kArgument args = some z → 1 ≤ toInt z := by
  rcases @effectiveLimit_cases args _ h with ⟨hrefused, e, herror⟩ | ⟨hrefused, limit, hlimit, hlow, hhigh⟩
  · have hk (k : ℤ) : kOf args maxRowsCeiling ≠ .ok k := by
      simp only [kOf, herror]
      cases limitKCheck args maxRowsCeiling <;> exact nofun
    refine iff_of_true ⟨fun limit hok => ?_, fun k hok => absurd hok (hk k)⟩ (.inl hrefused)
    rw [herror] at hok
    cases hok
  rw [or_iff_right hrefused]
  have hbounds : ∀ l, effectiveLimit args maxRowsCeiling = .ok l → 1 ≤ l ∧ l ≤ maxRowsCeiling := by
    intro l hl
    rw [hlimit] at hl
    cases hl
    exact ⟨hlow, hhigh⟩
  have hrows (k : ℤ) (hk : kOf args maxRowsCeiling = .ok k) (hlo : -2 ^ 31 ≤ k) (hhi : k ≤ maxRowsCeiling) :
      RowsBounded args maxRowsCeiling ↔ 1 ≤ k := by
    rw [RowsBounded, and_iff_right hbounds, ← countBounded_iff hlo hhi hint, hk]
    simp only [Except.ok.injEq, forall_eq']
  cases hz : kArgument args with
  | none =>
    have hk : kOf args maxRowsCeiling = .ok (min 5 limit) := by
      simp only [kOf, limitKCheck, hz, hlimit]
      rfl
    exact iff_of_true ((hrows _ hk (by omega) (by omega)).mpr (by omega)) nofun
  | some z =>
    have hrange := toInt_bounds z
    simp only [Option.some.injEq, forall_eq']
    by_cases hbig : maxRowsCeiling < toInt z
    · have hk (k : ℤ) : kOf args maxRowsCeiling ≠ .ok k := by
        simp only [kOf, limitKCheck, hz, if_pos hbig]
        exact nofun
      exact iff_of_true ⟨hbounds, fun k hok => absurd hok (hk k)⟩ (by omega)
    · have hk : kOf args maxRowsCeiling = .ok (min (toInt z) limit) := by
        simp only [kOf, limitKCheck, hz, if_neg hbig, hlimit]
        rfl
      rw [hrows _ hk (by omega) (by omega)]
      omega

theorem rows_bounded_seven : RowsBounded (.obj [("k", .number (ascii "7")), ("limit", .number (ascii "3"))]) 1000 := by
  apply (rows_bounded_iff _ 1000 (by decide) (by decide)).mpr
  right
  intro z hz
  have hk : kArgument (.obj [("k", .number (ascii "7")), ("limit", .number (ascii "3"))]) = some 7 := by rfl
  rw [hk] at hz
  cases hz
  decide

/-- A negative count is below every ceiling until it is bound. -/
theorem negative_count_unbounded :
    kOf (.obj [("k", .number (ascii "-1"))]) 1000 = .ok (-1) ∧
      Binding.received .callProc [.int64 (Int64.ofInt (-1))] = [.integer 18446744073709551615] ∧
      ¬ RowsBounded (.obj [("k", .number (ascii "-1"))]) 1000 := by
  have hk : kOf (.obj [("k", .number (ascii "-1"))]) 1000 = .ok (-1) := by rfl
  have hread : Binding.received .callProc [.int64 (Int64.ofInt (-1))] = [.integer 18446744073709551615] := by decide
  refine ⟨hk, hread, fun h => ?_⟩
  obtain ⟨n, hn, -, hhigh⟩ := h.2 (-1) hk .callProc nofun
  rw [hread] at hn
  obtain ⟨hn, -⟩ := List.cons.inj hn
  have hvalue := Binding.Received.integer.inj hn
  omega

end Limits

/-! ### What comes back -/

/-- `kTruncateFields`. -/
def kTruncateFields : List Bytes :=
  [ascii "top_k", ascii "population", ascii "candidates", ascii "cohort_matches", ascii "rows"]

def truncationNote : JsonValue :=
  .text ("result truncated at the MCP row ceiling; re-call with search-level " ++
    "filtering (smaller k / a cohort restriction) rather than just a higher limit")

/-- The first of the fields that is too long is cut. -/
def truncateFields (limit : ℕ) (result : JsonValue) : List Bytes → JsonValue
  | [] => result
  | field :: fields =>
    match result.find field with
    | some (.array xs) =>
      if limit < toInt xs.length then
        ((result.set field (.array (xs.take limit))).set (ascii "truncated") (.bool true)).set
          (ascii "total_scanned") (.int (toInt xs.length))
      else truncateFields limit result fields
    | _ => truncateFields limit result fields

def truncateResult (result : JsonValue) (limit : ℕ) : JsonValue :=
  match result with
  | .array xs =>
    if limit < toInt xs.length then
      .obj [("rows", .array (xs.take limit)), ("truncated", .bool true), ("total_scanned", .int (toInt xs.length)),
        ("_note", truncationNote)]
    else result
  | .object _ => truncateFields limit result kTruncateFields
  | _ => result

/-- The list of rows of a result that is a list, cut or not. -/
def rowsOf (result : JsonValue) : Option (List JsonValue) :=
  match result with
  | .array xs => some xs
  | _ => (result.find (ascii "rows")).map JsonValue.items

def Flagged (result : JsonValue) : Prop := result.find (ascii "truncated") = some (.bool true)

/-- The list is too long. -/
def Over (limit : ℕ) (result : JsonValue) (field : Bytes) (xs : List JsonValue) : Prop :=
  field ∈ kTruncateFields ∧ result.find field = some (.array xs) ∧ limit < xs.length

/-- What is to hold of a result that is a list. -/
structure ListTruncated (xs : List JsonValue) (limit : ℕ) (out : JsonValue) : Prop where
  rows : ∃ ys, rowsOf out = some ys ∧ ys.length ≤ limit ∧ ys <+: xs
  flagged : Flagged out ↔ limit < xs.length
  scanned : limit < xs.length → out.find (ascii "total_scanned") = some (.int xs.length)
  same : xs.length ≤ limit → out = .array xs

/-- What is to hold of a result that is an object. -/
structure FieldsTruncated (result : JsonValue) (limit : ℕ) (out : JsonValue) : Prop where
  rows : ∀ field ∈ kTruncateFields, ∀ xs, result.find field = some (.array xs) →
    ∃ ys, out.find field = some (.array ys) ∧ ys.length ≤ limit ∧ ys <+: xs
  flagged : Flagged out ↔ ∃ field xs, Over limit result field xs
  scanned : ∀ field xs, Over limit result field xs → out.find (ascii "total_scanned") = some (.int xs.length)
  others : ∀ key, key ≠ ascii "truncated" → key ≠ ascii "total_scanned" → (∀ xs, ¬ Over limit result key xs) →
    out.find key = result.find key
  same : (∀ field xs, ¬ Over limit result field xs) → out = result

/-- Every list is at most `limit` long and a prefix, `truncated` and `total_scanned` say what was
cut, and the rest is left alone. -/
def Truncated (result : JsonValue) (limit : ℕ) (out : JsonValue) : Prop :=
  match result with
  | .array xs => ListTruncated xs limit out
  | .object _ => FieldsTruncated result limit out
  | _ => out = result

/-- The lengths fit an `int`, at most one list is too long, and a result in which none is does
not call itself truncated. -/
def Cuttable (result : JsonValue) (limit : ℕ) : Prop :=
  match result with
  | .array xs => limit < xs.length → xs.length < 2 ^ 31
  | .object _ =>
    (∀ field xs, Over limit result field xs → xs.length < 2 ^ 31) ∧
      (∀ field xs field' xs', Over limit result field xs → Over limit result field' xs' → field = field') ∧
      ((∀ field xs, ¬ Over limit result field xs) → ¬ Flagged result)
  | _ => True

theorem jsonInt_inj {m n : ℕ} (h : JsonValue.int m = .int n) : m = n := by
  have hdecimal : decimal m = decimal n := JsonValue.number.inj h
  rw [← digitsValue_decimal m, hdecimal, digitsValue_decimal]

/-- The count that is reported is the length exactly when the length fits. -/
theorem scanned_iff {limit n : ℕ} (h : limit < toInt n) : JsonValue.int (toInt n) = .int n ↔ n < 2 ^ 31 := by
  constructor
  · intro heq
    obtain ⟨m, hm⟩ := Int.eq_ofNat_of_zero_le (by omega : 0 ≤ toInt n)
    rw [hm] at heq
    have hmn := jsonInt_inj heq
    have hbound := (toInt_bounds n).2
    omega
  · intro hn
    rw [toInt_eq (by omega) (by omega)]

theorem over_of_toInt {limit n : ℕ} (h : limit < toInt n) : limit < n := by
  have hle := toInt_le (z := n) (by omega)
  omega

theorem toInt_of_over {limit n : ℕ} (h : limit < n) (hn : n < 2 ^ 31) : limit < toInt n := by
  rw [toInt_eq (by omega) (by omega)]
  omega

theorem list_truncated_iff (xs : List JsonValue) (limit : ℕ) :
    ListTruncated xs limit (truncateResult (.array xs) limit) ↔ (limit < xs.length → xs.length < 2 ^ 31) := by
  have hlen : (xs.take limit).length ≤ limit := List.length_take_le _ _
  by_cases hcut : limit < toInt xs.length
  · have hover := over_of_toInt hcut
    have hout : truncateResult (.array xs) limit = .obj [("rows", .array (xs.take limit)), ("truncated", .bool true),
        ("total_scanned", .int (toInt xs.length)), ("_note", truncationNote)] := by
      simp only [truncateResult, if_pos hcut]
    rw [hout, forall_prop_of_true hover, ← scanned_iff hcut]
    constructor
    · intro h
      have hscanned := h.scanned hover
      rw [JsonValue.find_obj_of_ne (by decide), JsonValue.find_obj_of_ne (by decide), JsonValue.find_obj_self] at hscanned
      exact Option.some.inj hscanned
    · intro heq
      refine ⟨⟨xs.take limit, ?_, hlen, List.take_prefix _ _⟩, iff_of_true ?_ hover, fun _ => ?_, fun hle => ?_⟩
      · change Option.map JsonValue.items (JsonValue.find (ascii "rows") (JsonValue.obj _)) = _
        rw [JsonValue.find_obj_self]
        rfl
      · rw [Flagged, JsonValue.find_obj_of_ne (by decide), JsonValue.find_obj_self]
      · rw [JsonValue.find_obj_of_ne (by decide), JsonValue.find_obj_of_ne (by decide), JsonValue.find_obj_self, heq]
      · omega
  · have hout : truncateResult (.array xs) limit = .array xs := by
      simp only [truncateResult, if_neg hcut]
    rw [hout]
    constructor
    · intro h hover
      obtain ⟨ys, hys, hle, -⟩ := h.rows
      cases hys
      omega
    · intro h
      have hle : xs.length ≤ limit := by
        by_contra hover
        exact hcut (toInt_of_over (by omega) (h (by omega)))
      refine ⟨⟨xs, rfl, hle, List.prefix_rfl⟩, iff_of_false nofun (by omega), fun hover => ?_, fun _ => rfl⟩
      omega

/-! ### Fields -/

/-- The result with one field cut. -/
def cutField (result : JsonValue) (limit : ℕ) (field : Bytes) (xs : List JsonValue) : JsonValue :=
  ((result.set field (.array (xs.take limit))).set (ascii "truncated") (.bool true)).set
    (ascii "total_scanned") (.int (toInt xs.length))

/-- The loop over the fields leaves the result alone or cuts the first that is too long. -/
theorem truncateFields_cases (limit : ℕ) (result : JsonValue) (fields : List Bytes) :
    (truncateFields limit result fields = result ∧
        ∀ field ∈ fields, ∀ xs, result.find field = some (.array xs) → ¬ limit < toInt xs.length) ∨
      ∃ field ∈ fields, ∃ xs, result.find field = some (.array xs) ∧ limit < toInt xs.length ∧
        truncateFields limit result fields = cutField result limit field xs := by
  induction fields with
  | nil => exact .inl ⟨rfl, nofun⟩
  | cons field fields ih =>
    have hskip (hno : ∀ xs, result.find field = some (.array xs) → ¬ limit < toInt xs.length)
        (heq : truncateFields limit result (field :: fields) = truncateFields limit result fields) :
        (truncateFields limit result (field :: fields) = result ∧
          ∀ f ∈ field :: fields, ∀ xs, result.find f = some (.array xs) → ¬ limit < toInt xs.length) ∨
        ∃ f ∈ field :: fields, ∃ xs, result.find f = some (.array xs) ∧ limit < toInt xs.length ∧
          truncateFields limit result (field :: fields) = cutField result limit f xs := by
      rw [heq]
      rcases ih with ⟨hsame, hrest⟩ | ⟨f, hf, xs, hxs⟩
      · exact .inl ⟨hsame, List.forall_mem_cons.mpr ⟨hno, hrest⟩⟩
      · exact .inr ⟨f, List.mem_cons_of_mem _ hf, xs, hxs⟩
    cases hfind : result.find field with
    | none =>
      apply hskip
      · simp [hfind]
      · rw [truncateFields, hfind]
    | some v =>
      cases v with
      | array xs =>
        by_cases hcut : limit < toInt xs.length
        · refine .inr ⟨field, List.mem_cons_self .., xs, hfind, hcut, ?_⟩
          rw [truncateFields, hfind]
          exact if_pos hcut
        · apply hskip
          · rw [hfind]
            rintro _ ⟨⟩
            exact hcut
          · rw [truncateFields, hfind]
            exact if_neg hcut
      | _ =>
        apply hskip
        · simp [hfind]
        · rw [truncateFields, hfind]

theorem truncateField_ne {field : Bytes} (h : field ∈ kTruncateFields) :
    field ≠ ascii "truncated" ∧ field ≠ ascii "total_scanned" := by
  have hall : kTruncateFields.all (fun f => f ≠ ascii "truncated" ∧ f ≠ ascii "total_scanned") = true := by decide
  exact of_decide_eq_true (List.all_eq_true.mp hall field h)

section Cut
variable {result : JsonValue} {limit : ℕ} {field : Bytes} {xs : List JsonValue}

theorem cutField_self (hobj : result.isObject = true) (h : field ∈ kTruncateFields) :
    (cutField result limit field xs).find field = some (.array (xs.take limit)) := by
  obtain ⟨hflag, hscan⟩ := truncateField_ne h
  rw [cutField, JsonValue.find_set_of_ne _ _ hscan, JsonValue.find_set_of_ne _ _ hflag, JsonValue.find_set_self hobj]

theorem cutField_other {key : Bytes} (hflag : key ≠ ascii "truncated") (hscan : key ≠ ascii "total_scanned")
    (hne : key ≠ field) : (cutField result limit field xs).find key = result.find key := by
  rw [cutField, JsonValue.find_set_of_ne _ _ hscan, JsonValue.find_set_of_ne _ _ hflag,
    JsonValue.find_set_of_ne _ _ hne]

theorem cutField_flagged (hobj : result.isObject = true) : Flagged (cutField result limit field xs) := by
  have hset := (JsonValue.isObject_set result (.array (xs.take limit)) field).trans hobj
  rw [Flagged, cutField, JsonValue.find_set_of_ne _ _ (by decide), JsonValue.find_set_self hset]

theorem cutField_scanned (hobj : result.isObject = true) :
    (cutField result limit field xs).find (ascii "total_scanned") = some (.int (toInt xs.length)) := by
  rw [cutField]
  apply JsonValue.find_set_self
  rw [JsonValue.isObject_set, JsonValue.isObject_set, hobj]

theorem fields_uncut_iff
    (hno : ∀ field ∈ kTruncateFields, ∀ xs, result.find field = some (.array xs) → ¬ limit < toInt xs.length) :
    FieldsTruncated result limit result ↔
      (∀ field xs, Over limit result field xs → xs.length < 2 ^ 31) ∧
        (∀ field xs field' xs', Over limit result field xs → Over limit result field' xs' → field = field') ∧
        ((∀ field xs, ¬ Over limit result field xs) → ¬ Flagged result) := by
  constructor
  · intro h
    have hnone (f : Bytes) (ys : List JsonValue) : ¬ Over limit result f ys := by
      rintro ⟨hf, hys, hover⟩
      obtain ⟨zs, hzs, hle, -⟩ := h.rows f hf ys hys
      rw [hys] at hzs
      cases hzs
      omega
    exact ⟨fun f ys hover => absurd hover (hnone f ys), fun f ys _ _ hover => absurd hover (hnone f ys),
      fun _ hflag => (h.flagged.mp hflag).elim fun f hf => hf.elim fun ys hover => hnone f ys hover⟩
  · rintro ⟨hfits, -, hflag⟩
    have hnone (f : Bytes) (ys : List JsonValue) : ¬ Over limit result f ys := fun hover =>
      hno f hover.1 ys hover.2.1 (toInt_of_over hover.2.2 (hfits f ys hover))
    refine ⟨fun f hf ys hys => ⟨ys, hys, ?_, List.prefix_rfl⟩, ?_, fun f ys hover => absurd hover (hnone f ys),
      fun _ _ _ _ => rfl, fun _ => rfl⟩
    · by_contra hlong
      exact hnone f ys ⟨hf, hys, by omega⟩
    · exact iff_of_false (hflag hnone) fun ⟨f, ys, hover⟩ => hnone f ys hover

theorem fields_cut_iff (hobj : result.isObject = true) (hmem : field ∈ kTruncateFields)
    (hfind : result.find field = some (.array xs)) (hcut : limit < toInt xs.length) :
    FieldsTruncated result limit (cutField result limit field xs) ↔
      (∀ field xs, Over limit result field xs → xs.length < 2 ^ 31) ∧
        (∀ field xs field' xs', Over limit result field xs → Over limit result field' xs' → field = field') ∧
        ((∀ field xs, ¬ Over limit result field xs) → ¬ Flagged result) := by
  have hover : Over limit result field xs := ⟨hmem, hfind, over_of_toInt hcut⟩
  constructor
  · intro h
    -- a second list that is too long would have been left as it was
    have hone (f : Bytes) (ys : List JsonValue) (hf : Over limit result f ys) : f = field := by
      by_contra hne
      obtain ⟨hflag, hscan⟩ := truncateField_ne hf.1
      obtain ⟨zs, hzs, hle, -⟩ := h.rows f hf.1 ys hf.2.1
      rw [cutField_other hflag hscan hne, hf.2.1] at hzs
      cases hzs
      have hlt := hf.2.2
      omega
    have hfits : xs.length < 2 ^ 31 := by
      have hscanned := h.scanned field xs hover
      rw [cutField_scanned hobj] at hscanned
      exact (scanned_iff hcut).mp (Option.some.inj hscanned)
    refine ⟨fun f ys hf => ?_, fun f ys g zs hf hg => (hone f ys hf).trans (hone g zs hg).symm,
      fun hnone => absurd hover (hnone field xs)⟩
    obtain rfl := hone f ys hf
    obtain rfl : ys = xs := by
      have hsame := hf.2.1.symm.trans hfind
      cases hsame
      rfl
    exact hfits
  · rintro ⟨hfits, hone, -⟩
    have hsame {f : Bytes} {ys : List JsonValue} (hf : Over limit result f ys) : f = field ∧ ys = xs := by
      obtain rfl := hone f ys field xs hf hover
      have heq := hf.2.1.symm.trans hfind
      cases heq
      exact ⟨rfl, rfl⟩
    refine ⟨fun f hf ys hys => ?_, iff_of_true (cutField_flagged hobj) ⟨field, xs, hover⟩, fun f ys hf => ?_,
      fun key hflag hscan hkey => ?_, fun hnone => absurd hover (hnone field xs)⟩
    · by_cases hlong : limit < ys.length
      · obtain ⟨rfl, rfl⟩ := hsame ⟨hf, hys, hlong⟩
        exact ⟨ys.take limit, cutField_self hobj hf, List.length_take_le _ _, List.take_prefix _ _⟩
      · have hne : f ≠ field := by
          rintro rfl
          rw [hfind] at hys
          cases hys
          exact hlong hover.2.2
        obtain ⟨hflag, hscan⟩ := truncateField_ne hf
        exact ⟨ys, (cutField_other hflag hscan hne).trans hys, by omega, List.prefix_rfl⟩
    · obtain ⟨rfl, rfl⟩ := hsame hf
      rw [cutField_scanned hobj, (scanned_iff hcut).mpr (hfits f ys hf)]
    · exact cutField_other hflag hscan fun heq => hkey xs (heq ▸ hover)

end Cut

/-- For every result and limit what comes back is truncated as it should be exactly when the
lengths fit an `int`, at most one list is too long, and the result does not call itself
truncated when none is. -/
theorem result_truncated_iff (result : JsonValue) (limit : ℕ) :
    Truncated result limit (truncateResult result limit) ↔ Cuttable result limit := by
  cases result with
  | array xs => exact list_truncated_iff xs limit
  | object ms =>
    rcases truncateFields_cases limit (.object ms) kTruncateFields with
      ⟨hsame, hno⟩ | ⟨field, hmem, xs, hfind, hcut, hout⟩
    · change FieldsTruncated (.object ms) limit (truncateFields limit (.object ms) kTruncateFields) ↔ _
      rw [hsame]
      exact fields_uncut_iff hno
    · change FieldsTruncated (.object ms) limit (truncateFields limit (.object ms) kTruncateFields) ↔ _
      rw [hout]
      exact fields_cut_iff rfl hmem hfind hcut
  | _ => exact iff_of_true rfl trivial

/-- Of two lists that are too long the second comes back whole. -/
theorem second_list_left_whole :
    truncateResult (.obj [("population", .array [.null, .null]), ("rows", .array [.null, .null])]) 1 =
        .obj [("total_scanned", .int 2), ("truncated", .bool true), ("population", .array [.null]),
          ("rows", .array [.null, .null])] ∧
      ¬ Truncated (.obj [("population", .array [.null, .null]), ("rows", .array [.null, .null])]) 1
        (truncateResult (.obj [("population", .array [.null, .null]), ("rows", .array [.null, .null])]) 1) := by
  have hout : truncateResult (.obj [("population", .array [.null, .null]), ("rows", .array [.null, .null])]) 1 =
      .obj [("total_scanned", .int 2), ("truncated", .bool true), ("population", .array [.null]),
        ("rows", .array [.null, .null])] := by rfl
  refine ⟨hout, fun h => ?_⟩
  rw [hout] at h
  have hrows : ascii "rows" ∈ kTruncateFields := by decide
  obtain ⟨ys, hys, hle, -⟩ := FieldsTruncated.rows h (ascii "rows") hrows [.null, .null] (by rfl)
  cases hys
  exact absurd hle (by decide)

end FractalSQL.Mcp.Tools
