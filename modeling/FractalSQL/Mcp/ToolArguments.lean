import FractalSQL.Lib.JsonSchema
import FractalSQL.Mcp.Dispatch

/-!
# The arguments of a tool

The argument checker and the schema that is advertised for a tool, both built from the
tool's list of parameters.
-/
namespace FractalSQL.Mcp.Tools
open Lib Rpc

/-! ### Numbers -/

/-- The integer a number is held as: `strtoull`, or `strtoll` behind a minus sign. What has a
fraction or an exponent, or does not fit, is held as a double. -/
def integerOf (text : Bytes) : Option ℤ :=
  if text.head? = some 45 then
    if text.tail ≠ [] ∧ text.tail.all isDigit ∧ digitsValue text.tail ≤ 2 ^ 63 then
      some (-digitsValue text.tail)
    else none
  else if text ≠ [] ∧ text.all isDigit ∧ digitsValue text < 2 ^ 64 then some (digitsValue text)
  else none

/-- The value of what is `is_number_integer`. -/
def integerValue : JsonValue → Option ℤ
  | .number text => integerOf text
  | _ => none

/-! ### Types -/

/-- `JsonType`, with the names of `jsonTypeName`. -/
abbrev JsonType := SchemaType

def jsonTypeName (t : JsonType) : String := t.name

def jsonTypeMatches (t : JsonType) (v : JsonValue) : Bool :=
  match t, v with
  | .string, .string _ => true
  | .integer, .number text => (integerOf text).isSome
  | .number, .number _ => true
  | .boolean, .bool _ => true
  | .object, .object _ => true
  | .array, .array _ => true
  | .null, .null => true
  | _, _ => false

structure ToolParam where
  name : Bytes
  type : JsonType
  required : Bool
  defaultValue : JsonValue := .null
  description : Bytes := []
  nullable : Bool := false
  itemType : JsonType := .number

structure ToolSpec where
  params : List ToolParam

/-! ### The checker -/

def schemaError (message : Bytes) : ToolError := ⟨.schema, message⟩

/-- One turn of the loop of `validateArgs`. -/
def validateParam (args : JsonValue) (p : ToolParam) : Except ToolError Unit :=
  match args.find p.name with
  | none | some .null =>
    if p.required then .error (schemaError (ascii "missing required argument: " ++ p.name)) else .ok ()
  | some v =>
    if ! jsonTypeMatches p.type v then .error (schemaError (p.name ++ ascii " has the wrong type"))
    else if p.type = .array ∧ ! v.items.all (jsonTypeMatches p.itemType) then
      .error (schemaError (p.name ++ ascii (" elements must be " ++ jsonTypeName p.itemType)))
    else .ok ()

def validateArgs (spec : ToolSpec) (args : JsonValue) : Except ToolError Unit :=
  if ! args.isObject then .error (schemaError (ascii "arguments must be a JSON object"))
  else spec.params.forM (validateParam args)

def withoutNullDefaults (spec : ToolSpec) (args : JsonValue) : JsonValue :=
  spec.params.foldl
    (fun out p => if p.nullable then out else if (out.find p.name).any JsonValue.isNull then out.erase p.name else out)
    args

/-! ### The schema -/

/-- The property of a parameter. -/
def propertySchema (p : ToolParam) : JsonValue :=
  let type := JsonValue.text (jsonTypeName p.type)
  let prop := JsonValue.obj [("type", type)]
  let prop := if p.type = .array then
      prop.set (ascii "items") (.obj [("type", .text (jsonTypeName p.itemType))])
    else prop
  let prop := if p.nullable then prop.set (ascii "type") (.array [type, .text "null"]) else prop
  let prop := prop.set (ascii "description") (.string p.description)
  if ! p.required && ! p.defaultValue.isNull then prop.set (ascii "default") p.defaultValue else prop

/-- The properties of all parameters; of two of the same name the later one stays. -/
def properties (params : List ToolParam) : JsonValue :=
  params.foldl (fun props p => props.set p.name (propertySchema p)) (.obj [])

def buildInputSchema (spec : ToolSpec) : JsonValue :=
  let props := properties spec.params
  let required := (spec.params.filter (·.required)).map fun p => JsonValue.string p.name
  let schema := JsonValue.obj [("type", .text "object"), ("properties", props), ("additionalProperties", .bool false)]
  let schema := if required ≠ [] then schema.set (ascii "required") (.array required) else schema
  if spec.params = [] then schema.set (ascii "x-fractalsql-no-arguments") (.bool true) else schema

/-! ### What the checker accepts -/

theorem integral_of_integerOf {text : Bytes} {z : ℤ} (h : integerOf text = some z) : Integral text := by
  unfold integerOf at h
  split at h
  · rename_i hminus
    split at h
    · rename_i hdigits
      have htext : text = 45 :: text.tail := (List.cons_head?_tail hminus).symm
      rw [htext]
      exact integral_neg_digits hdigits.1 hdigits.2.1
    · cases h
  · split at h
    · rename_i hdigits
      exact integral_digits hdigits.1 hdigits.2.1
    · cases h

/-- A value matches a type when it has it and an integer is held as one. -/
theorem jsonTypeMatches_iff {t : JsonType} {v : JsonValue} :
    jsonTypeMatches t v = true ↔ v.HasType t ∧ (t = .integer → integerValue v ≠ none) := by
  cases t with
  | integer =>
    cases v with
    | number text =>
      simp only [jsonTypeMatches, JsonValue.HasType, integerValue, Option.isSome_iff_ne_none, forall_const]
      refine ⟨fun h => ⟨?_, h⟩, fun h => h.2⟩
      obtain ⟨z, hz⟩ := Option.ne_none_iff_exists'.mp h
      exact integral_of_integerOf hz
    | _ => simp [jsonTypeMatches, JsonValue.HasType]
  | _ => cases v <;> simp [jsonTypeMatches, JsonValue.HasType]

/-- What the checker wants of a parameter's member. -/
def Checked (p : ToolParam) : Option JsonValue → Prop
  | none | some .null => p.required = false
  | some v => jsonTypeMatches p.type v = true ∧ (p.type = .array → ∀ x ∈ v.items, jsonTypeMatches p.itemType x = true)

theorem validateParam_ok_iff {args : JsonValue} {p : ToolParam} :
    validateParam args p = .ok () ↔ Checked p (args.find p.name) := by
  unfold validateParam
  split
  · rename_i hfind
    rw [hfind]
    cases hreq : p.required <;> simp [Checked, hreq]
  · rename_i hfind
    rw [hfind]
    cases hreq : p.required <;> simp [Checked, hreq]
  · rename_i v hnull hfind
    rw [hfind]
    have hchecked : Checked p (some v) ↔
        jsonTypeMatches p.type v = true ∧ (p.type = .array → ∀ x ∈ v.items, jsonTypeMatches p.itemType x = true) := by
      cases v with
      | null => exact absurd rfl hnull
      | _ => rfl
    rw [hchecked]
    by_cases htype : jsonTypeMatches p.type v = true
    · rw [htype]
      simp only [Bool.not_true, Bool.false_eq_true, if_false, true_and]
      by_cases harray : p.type = .array
      · simp only [harray, true_and, forall_const, ← List.all_eq_true]
        cases v.items.all (jsonTypeMatches p.itemType) <;> simp
      · simp [harray]
    · simp [htype]

theorem forM_ok_iff {α ε : Type} (f : α → Except ε Unit) (l : List α) :
    l.forM f = .ok () ↔ ∀ a ∈ l, f a = .ok () := by
  induction l with
  | nil => simp [List.forM, pure, Except.pure]
  | cons a l ih =>
    rw [List.forall_mem_cons, ← ih]
    change (f a >>= fun _ => l.forM f) = .ok () ↔ _
    cases h : f a with
    | error e => simp [bind, Except.bind]
    | ok u => simp [bind, Except.bind]

theorem validateArgs_ok_iff {spec : ToolSpec} {args : JsonValue} :
    validateArgs spec args = .ok () ↔ args.isObject = true ∧ ∀ p ∈ spec.params, Checked p (args.find p.name) := by
  unfold validateArgs
  cases hobj : args.isObject with
  | false => simp
  | true => simp only [Bool.not_true, Bool.false_eq_true, if_false, forM_ok_iff, validateParam_ok_iff, true_and]

/-! ### Dropping nulls -/

/-- `out` is `args` without some of its nulls. -/
structure LessNulls (args out : JsonValue) : Prop where
  object : out.isObject = args.isObject
  find : ∀ name, out.find name = args.find name ∨ args.find name = some .null ∧ out.find name = none

/-- Erases a member that is null. -/
def eraseNull (out : JsonValue) (name : Bytes) : JsonValue :=
  if (out.find name).any JsonValue.isNull then out.erase name else out

theorem LessNulls.eraseNull {args out : JsonValue} (h : LessNulls args out) (key : Bytes) :
    LessNulls args (eraseNull out key) := by
  unfold Tools.eraseNull
  split
  · rename_i hnull
    have hkey : out.find key = some .null := by
      cases hfind : out.find key with
      | none => simp [hfind] at hnull
      | some v =>
        rw [hfind] at hnull
        cases v with
        | null => rfl
        | _ => cases hnull
    refine ⟨(JsonValue.isObject_erase key out).trans h.object, fun name => ?_⟩
    rw [JsonValue.find_erase]
    split
    · rename_i hname
      subst hname
      rcases h.find name with heq | hgone
      · exact .inr ⟨heq.symm.trans hkey, rfl⟩
      · rw [hgone.2] at hkey
        cases hkey
    · exact h.find name
  · exact h

/-- Both the copy a handler gets and the object the schema is about are made by such a loop. -/
theorem LessNulls.foldl {args out : JsonValue} (h : LessNulls args out) (keep : ToolParam → Bool) (ps : List ToolParam) :
    LessNulls args (ps.foldl (fun out p => if keep p then out else Tools.eraseNull out p.name) out) := by
  induction ps generalizing out with
  | nil => exact h
  | cons p ps ih =>
    rw [List.foldl_cons]
    apply ih
    split
    · exact h
    · exact h.eraseNull p.name

theorem lessNulls_refl (args : JsonValue) : LessNulls args args := ⟨rfl, fun _ => .inl rfl⟩

theorem withoutNullDefaults_lessNulls (spec : ToolSpec) (args : JsonValue) :
    LessNulls args (withoutNullDefaults spec args) :=
  (lessNulls_refl args).foldl (·.nullable) spec.params

/-- The checker does not tell a null from an absent member. -/
theorem LessNulls.validateArgs {args out : JsonValue} (h : LessNulls args out) (spec : ToolSpec) :
    validateArgs spec out = .ok () ↔ validateArgs spec args = .ok () := by
  rw [validateArgs_ok_iff, validateArgs_ok_iff, h.object]
  apply and_congr_right
  intro _
  apply forall₂_congr
  intro p _
  rcases h.find p.name with heq | ⟨hnull, hnone⟩
  · rw [heq]
  · rw [hnull, hnone]
    rfl

/-! ### What the schema accepts -/

theorem valid_type {t : JsonType} {v : JsonValue} :
    JsonValue.Valid (.obj [("type", .text t.name)]) v ↔ v.HasType t := by
  rw [JsonValue.Valid]
  simp (disch := decide) only [JsonValue.find_obj_self, JsonValue.find_obj_of_ne, JsonValue.find_obj_nil, reduceCtorEq,
    Option.some.injEq, forall_eq', JsonValue.typeKeyword_text, false_implies, implies_true, and_true]

/-- The advertised type of a parameter. -/
def typeOf (p : ToolParam) : JsonValue :=
  if p.nullable then .array [.text p.type.name, .text SchemaType.null.name] else .text p.type.name

theorem find_annotated {prop description : JsonValue} {key : Bytes} (p : ToolParam) (hdesc : key ≠ ascii "description")
    (hdefault : key ≠ ascii "default") :
    (if ! p.required && ! p.defaultValue.isNull then
        (prop.set (ascii "description") description).set (ascii "default") p.defaultValue
      else prop.set (ascii "description") description).find key = prop.find key := by
  split
  · rw [JsonValue.find_set_of_ne _ _ hdefault, JsonValue.find_set_of_ne _ _ hdesc]
  · rw [JsonValue.find_set_of_ne _ _ hdesc]

theorem propertySchema_type (p : ToolParam) : (propertySchema p).find (ascii "type") = some (typeOf p) := by
  have hobject (items : JsonValue) : ((JsonValue.obj [("type", .text p.type.name)]).set (ascii "items") items).isObject = true :=
    rfl
  simp only [propertySchema, jsonTypeName, typeOf]
  rw [find_annotated p (by decide) (by decide)]
  by_cases harray : p.type = .array <;> cases hnull : p.nullable
  · simp (disch := decide) only [harray, if_true, JsonValue.find_set_of_ne, JsonValue.find_obj_self, Bool.false_eq_true,
      if_false]
  · rw [if_pos harray, if_pos rfl, if_pos rfl, JsonValue.find_set_self (hobject _)]
    rfl
  · simp only [harray, if_false, Bool.false_eq_true, JsonValue.find_obj_self]
  · rw [if_neg harray, if_pos rfl, if_pos rfl, JsonValue.find_set_self rfl]
    rfl

theorem propertySchema_items (p : ToolParam) : (propertySchema p).find (ascii "items") =
    if p.type = .array then some (.obj [("type", .text p.itemType.name)]) else none := by
  simp only [propertySchema, jsonTypeName]
  rw [find_annotated p (by decide) (by decide)]
  by_cases harray : p.type = .array
  · have hset := JsonValue.find_set_self (j := .obj [("type", .text p.type.name)]) rfl (ascii "items")
      (.obj [("type", .text p.itemType.name)])
    cases p.nullable <;>
      simp (disch := decide) only [harray, if_true, if_false, Bool.false_eq_true, JsonValue.find_set_of_ne] <;>
      rwa [harray] at hset
  · cases p.nullable <;>
      simp (disch := decide) only [harray, if_true, if_false, Bool.false_eq_true, JsonValue.find_set_of_ne,
        JsonValue.find_obj_of_ne, JsonValue.find_obj_nil]

theorem propertySchema_other (p : ToolParam) {key : Bytes} (htype : key ≠ ascii "type") (hitems : key ≠ ascii "items")
    (hdesc : key ≠ ascii "description") (hdefault : key ≠ ascii "default") : (propertySchema p).find key = none := by
  have hbase : (JsonValue.obj [("type", .text p.type.name)]).find key = none :=
    JsonValue.find_obj_of_ne (Ne.symm htype) _ _
  simp only [propertySchema, jsonTypeName]
  rw [find_annotated p hdesc hdefault]
  by_cases harray : p.type = .array <;> cases p.nullable <;>
    simp only [harray, if_true, if_false, Bool.false_eq_true, JsonValue.find_set_of_ne _ _ hitems,
      JsonValue.find_set_of_ne _ _ htype] <;>
    first | exact hbase | rwa [harray] at hbase

/-- The value is one that is advertised for the parameter. -/
def Fits (p : ToolParam) (v : JsonValue) : Prop :=
  (v.HasType p.type ∨ p.nullable = true ∧ v = .null) ∧ (p.type = .array → ∀ x ∈ v.items, x.HasType p.itemType)

theorem typeKeyword_typeOf {p : ToolParam} {v : JsonValue} :
    JsonValue.TypeKeyword (typeOf p) v ↔ v.HasType p.type ∨ p.nullable = true ∧ v = .null := by
  have hnull : v.HasType .null ↔ v = .null := by
    cases v <;> simp [JsonValue.HasType]
  unfold typeOf
  cases p.nullable with
  | true => simp only [if_true, JsonValue.typeKeyword_pair, hnull, true_and]
  | false => simp only [Bool.false_eq_true, if_false, JsonValue.typeKeyword_text, false_and, or_false]

theorem valid_propertySchema {p : ToolParam} {v : JsonValue} : JsonValue.Valid (propertySchema p) v ↔ Fits p v := by
  rw [JsonValue.Valid, Fits]
  simp (disch := decide) only [propertySchema_type, propertySchema_items, propertySchema_other, Option.some.injEq,
    forall_eq', typeKeyword_typeOf, reduceCtorEq, false_implies, implies_true, and_true, true_and]
  apply and_congr_right
  intro _
  by_cases harray : p.type = .array
  · simp only [harray, if_true, Option.some.injEq, forall_eq', valid_type, forall_const]
  · simp only [harray, if_false, reduceCtorEq, false_implies, implies_true]

/-- The parameter whose property the schema has under a name: the last one of that name. -/
def advertised (spec : ToolSpec) (name : Bytes) : Option ToolParam :=
  spec.params.reverse.find? fun p => p.name = name

theorem find_properties (ps : List ToolParam) :
    (properties ps).isObject = true ∧
      ∀ name, (properties ps).find name = (ps.reverse.find? fun p => p.name = name).map propertySchema := by
  induction ps using List.reverseRecOn with
  | nil => exact ⟨rfl, fun _ => rfl⟩
  | append_singleton ps p ih =>
    have hset : properties (ps ++ [p]) = (properties ps).set p.name (propertySchema p) := by
      simp only [properties, List.foldl_append, List.foldl_cons, List.foldl_nil]
    rw [hset]
    refine ⟨(JsonValue.isObject_set _ _ _).trans ih.1, fun name => ?_⟩
    rw [List.reverse_append, List.reverse_singleton, List.singleton_append, List.find?_cons]
    by_cases h : p.name = name
    · subst h
      simp only [JsonValue.find_set_self ih.1, decide_true, Option.map_some]
    · simp only [JsonValue.find_set_of_ne _ _ (Ne.symm h), ih.2, decide_eq_false h]

/-- A member no parameter is named by. -/
def Stray (spec : ToolSpec) (args : JsonValue) : Prop := ∃ m ∈ args.members, ∀ p ∈ spec.params, p.name ≠ m.1

/-- Every required member is there and every member is advertised with its type. -/
structure Advertised (spec : ToolSpec) (args : JsonValue) : Prop where
  object : args.isObject = true
  given : ∀ p ∈ spec.params, p.required = true → args.find p.name ≠ none
  typed : ∀ name p, advertised spec name = some p → ∀ v, args.find name = some v → Fits p v

def requiredNames (spec : ToolSpec) : List JsonValue :=
  (spec.params.filter (·.required)).map fun p => JsonValue.string p.name

theorem requiredNames_mem {spec : ToolSpec} {name : Bytes} :
    JsonValue.string name ∈ requiredNames spec ↔ ∃ p ∈ spec.params, p.required = true ∧ p.name = name := by
  simp only [requiredNames, List.mem_map, List.mem_filter, JsonValue.string.injEq]
  constructor
  · rintro ⟨p, ⟨hp, hreq⟩, rfl⟩
    exact ⟨p, hp, hreq, rfl⟩
  · rintro ⟨p, hp, hreq, rfl⟩
    exact ⟨p, ⟨hp, hreq⟩, rfl⟩

/-- The keywords of a tool's schema. -/
theorem buildInputSchema_find (spec : ToolSpec) :
    (buildInputSchema spec).find (ascii "type") = some (.text SchemaType.object.name) ∧
    (buildInputSchema spec).find (ascii "properties") = some (properties spec.params) ∧
    (buildInputSchema spec).find (ascii "items") = none ∧
    (buildInputSchema spec).find (ascii "additionalProperties") = some (.bool false) ∧
    (buildInputSchema spec).find (ascii "required") =
      if requiredNames spec ≠ [] then some (.array (requiredNames spec)) else none := by
  have hbase (members : List (String × JsonValue)) : (JsonValue.obj members).isObject = true := rfl
  unfold buildInputSchema
  rw [← requiredNames]
  by_cases hempty : spec.params = [] <;> by_cases hnil : requiredNames spec = []
  all_goals
    simp (disch := first | exact hbase _ | (rw [ascii_ofList, ascii_ofList]; decide)) only [hempty, hnil, ne_eq,
      not_true, not_false_eq_true, if_true, if_false, JsonValue.find_set_of_ne, JsonValue.find_set_self, JsonValue.find_obj_self,
      JsonValue.find_obj_of_ne, JsonValue.find_obj_nil, SchemaType.name, and_self]

theorem required_iff {spec : ToolSpec} {name : Bytes} :
    (∃ names, (buildInputSchema spec).find (ascii "required") = some names ∧ .string name ∈ names.items) ↔
      ∃ p ∈ spec.params, p.required = true ∧ p.name = name := by
  rw [← requiredNames_mem, (buildInputSchema_find spec).2.2.2.2]
  by_cases hnil : requiredNames spec = []
  · simp [hnil]
  · simp [hnil, JsonValue.items]

theorem advertised_mem {spec : ToolSpec} {name : Bytes} {p : ToolParam} (h : advertised spec name = some p) :
    p ∈ spec.params ∧ p.name = name :=
  ⟨List.mem_reverse.mp (List.mem_of_find?_eq_some h), by simpa using List.find?_some h⟩

theorem advertised_eq_none {spec : ToolSpec} {name : Bytes} :
    advertised spec name = none ↔ ∀ p ∈ spec.params, p.name ≠ name := by
  simp [advertised, List.find?_eq_none]

/-- The advertised schema accepts the objects of advertised members and no others. -/
theorem valid_buildInputSchema {spec : ToolSpec} {args : JsonValue} :
    JsonValue.Valid (buildInputSchema spec) args ↔ Advertised spec args ∧ ¬ Stray spec args := by
  obtain ⟨htype, hprops, hitems, hadd, -⟩ := buildInputSchema_find spec
  have hfind (name : Bytes) : (properties spec.params).find name = (advertised spec name).map propertySchema :=
    (find_properties spec.params).2 name
  have hobject : args.HasType .object ↔ args.isObject = true := by
    cases args <;> simp [JsonValue.HasType, JsonValue.isObject]
  rw [JsonValue.Valid]
  simp only [htype, hprops, hitems, hadd, Option.some.injEq, forall_eq', JsonValue.typeKeyword_text, hobject, hfind,
    Option.map_eq_some_iff, reduceCtorEq, false_implies, implies_true, true_and, exists_eq_left', ne_eq,
    Option.map_eq_none_iff, advertised_eq_none, forall_const]
  constructor
  · rintro ⟨hobj, htyped, hgiven, hknown⟩
    refine ⟨⟨hobj, fun p hp hpreq => ?_, fun name p hp v hv => ?_⟩, ?_⟩
    · obtain ⟨names, hnames, hmem⟩ := required_iff.mpr ⟨p, hp, hpreq, rfl⟩
      exact hgiven names hnames hobj p.name hmem
    · exact valid_propertySchema.mp (htyped name _ ⟨p, hp, rfl⟩ v hv)
    · rintro ⟨m, hm, hstray⟩
      exact hknown m hm hstray
  · rintro ⟨⟨hobj, hgiven, htyped⟩, hknown⟩
    refine ⟨hobj, fun name sub hsub v hv => ?_, fun names hnames _ name hmem => ?_, fun m hm hstray => ?_⟩
    · obtain ⟨p, hp, rfl⟩ := hsub
      exact valid_propertySchema.mpr (htyped name p hp v hv)
    · obtain ⟨p, hp, hpreq, rfl⟩ := required_iff.mp ⟨names, hnames, hmem⟩
      exact hgiven p hp hpreq
    · exact hknown ⟨m, hm, hstray⟩

/-! ### Agreement -/

/-- The arguments without the explicit nulls of optional parameters that take none. -/
def dropNulls (spec : ToolSpec) (args : JsonValue) : JsonValue :=
  spec.params.foldl (fun out p => if p.required || p.nullable then out else eraseNull out p.name) args

theorem dropNulls_lessNulls (spec : ToolSpec) (args : JsonValue) : LessNulls args (dropNulls spec args) :=
  (lessNulls_refl args).foldl (fun p => p.required || p.nullable) spec.params

/-- The checker takes the arguments and the copy a handler gets. -/
def Accepts (spec : ToolSpec) (args : JsonValue) : Prop :=
  validateArgs spec args = .ok () ∧ validateArgs spec (withoutNullDefaults spec args) = .ok ()

theorem accepts_iff {spec : ToolSpec} {args : JsonValue} :
    Accepts spec args ↔ validateArgs spec (dropNulls spec args) = .ok () := by
  rw [Accepts, (withoutNullDefaults_lessNulls spec args).validateArgs, (dropNulls_lessNulls spec args).validateArgs,
    and_self]

/-- The checker refuses the member of a parameter that the schema may take: a null that is
required to be there, an integral number that is not held as an integer, at the top or in an
array, or, of a parameter that another one of its name has replaced in the schema, any value
that is not its own. -/
def Odd (p : ToolParam) (args : JsonValue) : Prop :=
  p.required = true ∧ args.find p.name = some .null ∨
    ∃ v, args.find p.name = some v ∧ v ≠ .null ∧
      (p.type = .integer ∧ integerValue v = none ∨
        p.type = .array ∧ p.itemType = .integer ∧ (∃ x ∈ v.items, integerValue x = none) ∨ ¬ Fits p v)

theorem checked_some_iff {p : ToolParam} {v : JsonValue} (hv : v ≠ .null) :
    Checked p (some v) ↔ Fits p v ∧ ¬ (p.type = .integer ∧ integerValue v = none) ∧
      ¬ (p.type = .array ∧ p.itemType = .integer ∧ ∃ x ∈ v.items, integerValue x = none) := by
  have hchecked : Checked p (some v) ↔
      jsonTypeMatches p.type v = true ∧ (p.type = .array → ∀ x ∈ v.items, jsonTypeMatches p.itemType x = true) := by
    cases v with
    | null => exact absurd rfl hv
    | _ => rfl
  rw [hchecked, Fits]
  simp only [jsonTypeMatches_iff, hv, and_false, or_false, not_and, not_exists]
  constructor
  · rintro ⟨⟨htype, hint⟩, hitems⟩
    exact ⟨⟨htype, fun ha x hx => (hitems ha x hx).1⟩, hint, fun ha hi x hx => (hitems ha x hx).2 hi⟩
  · rintro ⟨⟨htype, htypes⟩, hint, hints⟩
    exact ⟨⟨htype, hint⟩, fun ha x hx => ⟨htypes ha x hx, fun hi => hints ha hi x hx⟩⟩

/-- Where every required member is given, the checker refuses what is odd. -/
theorem not_checked_iff {p : ToolParam} {args : JsonValue} (hgiven : p.required = true → args.find p.name ≠ none) :
    ¬ Checked p (args.find p.name) ↔ Odd p args := by
  cases hfind : args.find p.name with
  | none =>
    have hopt : p.required = false := Bool.eq_false_iff.mpr fun hreq => hgiven hreq hfind
    simp [Checked, Odd, hopt, hfind]
  | some v =>
    by_cases hv : v = .null
    · subst hv
      simp [Checked, Odd, hfind]
    · rw [checked_some_iff hv]
      simp only [Odd, hfind, Option.some.injEq, hv, and_false, false_or, exists_eq_left', ne_eq, not_false_eq_true,
        true_and]
      rw [not_and_or, not_and_or, not_not, not_not, or_comm, or_assoc]

theorem foldl_eraseNull_find {args : JsonValue} {keep : ToolParam → Bool} {ps : List ToolParam} {p : ToolParam}
    (hp : p ∈ ps) (hkeep : keep p = false) :
    (ps.foldl (fun out p => if keep p then out else eraseNull out p.name) args).find p.name ≠ some .null := by
  induction ps generalizing args with
  | nil => cases hp
  | cons q ps ih =>
    rw [List.foldl_cons]
    rcases List.mem_cons.mp hp with rfl | hp
    · -- the loop leaves no null behind it, and later turns only drop members
      have hgone : (eraseNull args p.name).find p.name ≠ some .null := by
        unfold eraseNull
        split
        · rw [JsonValue.find_erase, if_pos rfl]
          exact nofun
        · rename_i hnull
          intro hfind
          exact hnull (by rw [hfind]; rfl)
      rw [hkeep, if_neg Bool.false_ne_true]
      rcases ((lessNulls_refl (eraseNull args p.name)).foldl keep ps).find p.name with heq | ⟨hnull, -⟩
      · rw [heq]
        exact hgone
      · exact absurd hnull hgone
    · exact ih hp

/-- What the checker accepts is advertised. -/
theorem advertised_of_checked {spec : ToolSpec} {args : JsonValue} (hobj : (dropNulls spec args).isObject = true)
    (h : ∀ p ∈ spec.params, Checked p ((dropNulls spec args).find p.name)) : Advertised spec (dropNulls spec args) := by
  refine ⟨hobj, fun p hp hreq hnone => ?_, fun name p hadv v hfind => ?_⟩
  · have hchecked := h p hp
    rw [hnone] at hchecked
    exact Bool.false_ne_true (Eq.symm hchecked |>.trans hreq)
  · obtain ⟨hp, rfl⟩ := advertised_mem hadv
    have hchecked := h p hp
    rw [hfind] at hchecked
    by_cases hv : v = .null
    · subst hv
      have hopt : p.required = false := hchecked
      have hnullable : p.nullable = true := by
        by_contra hnot
        have hkeep : (p.required || p.nullable) = false := by rw [hopt, Bool.eq_false_iff.mpr hnot]; rfl
        exact foldl_eraseNull_find hp hkeep hfind
      exact ⟨.inr ⟨hnullable, rfl⟩, fun _ x hx => absurd hx List.not_mem_nil⟩
    · exact ((checked_some_iff hv).mp hchecked).1

/-- For every tool and every arguments object the checker and the schema agree exactly when the
object is not advertised anyway, or has a stray member just when it has an odd one. -/
theorem arguments_agree_iff (spec : ToolSpec) (args : JsonValue) :
    (Accepts spec args ↔ JsonValue.Valid (buildInputSchema spec) (dropNulls spec args)) ↔
      (Advertised spec (dropNulls spec args) →
        (Stray spec (dropNulls spec args) ↔ ∃ p ∈ spec.params, Odd p (dropNulls spec args))) := by
  rw [accepts_iff, validateArgs_ok_iff, valid_buildInputSchema]
  by_cases hadv : Advertised spec (dropNulls spec args)
  · have hodd : (∃ p ∈ spec.params, Odd p (dropNulls spec args)) ↔
        ¬ ∀ p ∈ spec.params, Checked p ((dropNulls spec args).find p.name) := by
      simp only [not_forall, exists_prop]
      exact exists_congr fun p => and_congr_right fun hp => (not_checked_iff (hadv.given p hp)).symm
    rw [hodd]
    simp only [hadv.object, hadv, true_and, true_implies]
    tauto
  · have hno : ¬ ((dropNulls spec args).isObject = true ∧
        ∀ p ∈ spec.params, Checked p ((dropNulls spec args).find p.name)) :=
      fun h => hadv (advertised_of_checked h.1 h.2)
    simp only [hno, hadv, false_and, false_implies]

/-- A tool with one optional integer. -/
def oneInteger : ToolSpec := ⟨[{ name := ascii "k", type := .integer, required := false }]⟩

theorem arguments_disagree :
    (Accepts oneInteger (.obj [("zz", .int 1)]) ∧
      ¬ JsonValue.Valid (buildInputSchema oneInteger) (dropNulls oneInteger (.obj [("zz", .int 1)]))) ∧
    ¬ Accepts oneInteger (.obj [("k", .number (ascii "1.0"))]) ∧
      JsonValue.Valid (buildInputSchema oneInteger) (dropNulls oneInteger (.obj [("k", .number (ascii "1.0"))])) := by
  have hstray : dropNulls oneInteger (.obj [("zz", .int 1)]) = .obj [("zz", .int 1)] := rfl
  have hodd : dropNulls oneInteger (.obj [("k", .number (ascii "1.0"))]) = .obj [("k", .number (ascii "1.0"))] := rfl
  rw [hstray, hodd, valid_buildInputSchema, valid_buildInputSchema]
  refine ⟨⟨⟨rfl, rfl⟩, fun h => h.2 ⟨_, List.mem_cons_self .., ?_⟩⟩, ?_, ⟨⟨rfl, ?_, ?_⟩, ?_⟩⟩
  · simp only [oneInteger, List.forall_mem_cons]
    exact ⟨by decide, by simp⟩
  · rintro ⟨h, -⟩
    have hcheck : validateArgs oneInteger (.obj [("k", .number (ascii "1.0"))]) =
        .error (schemaError (ascii "k" ++ ascii " has the wrong type")) := rfl
    rw [hcheck] at h
    cases h
  · simp [oneInteger]
  · intro name p hp v hv
    obtain ⟨hmem, rfl⟩ := advertised_mem hp
    simp only [oneInteger, List.mem_singleton] at hmem
    subst hmem
    rw [JsonValue.find_obj_self] at hv
    cases hv
    exact ⟨.inl (by decide : Integral (ascii "1.0")), by simp⟩
  · rintro ⟨m, hm, hno⟩
    obtain rfl := List.mem_singleton.mp hm
    exact hno _ (List.mem_cons_self ..) rfl

end FractalSQL.Mcp.Tools
