import FractalSQL.Audit.Document

/-!
# Attribution of audit records

The members that a reader finds in a stored record. The attribution block is the
last member of the entry, and the only one with its name unless the payload spells
that name with an escape: the reserved name is looked for as raw bytes.
-/
namespace FractalSQL.Audit
open Lib Lib.Json Ledger

/-- The members of the document's `entry` object. -/
def entryMembers (doc : Bytes) : Option (List (Bytes × List Token)) := do
  let ts ← tokens doc
  let ms ← objectMembers ts
  let entry ← ms.find? fun m => Spells m.1 "entry"
  objectMembers entry.2

/-- The entry has one member whose key decodes to `_actor`, and its value is the
block. -/
def Attributed (doc block : Bytes) : Prop :=
  ∃ ms key value, entryMembers doc = some ms ∧ ms.filter (fun m => Spells m.1 "_actor") = [(key, value)] ∧
    tokens block = some value

/-- The payload is an object with a member whose key decodes to `_actor`. -/
def spellsActor (payload : Bytes) : Bool :=
  ((tokens payload).bind objectMembers).any fun ms => ms.any fun m => Spells m.1 "_actor"

/-! ### The shape of the entry -/

theorem run_actorEnd {st : St} (hst : st ≠ .value) {bt : List Token} (hbt : OneValue bt) :
    Frames.run ⟨[.curly], st⟩ ([Token.str (ascii "_actor"), Token.colon] ++ bt ++ [Token.closing .curly]) =
      some ⟨[], .value⟩ := by
  rw [Frames.run_append, Frames.run_append]
  simp [Frames.run, Frames.step, hst, hbt.run_member]

theorem nesting_actorEnd {bt : List Token} (hbt : OneValue bt) (hflat : nesting 0 bt = 1) :
    nesting 1 ([Token.str (ascii "_actor"), Token.colon] ++ bt ++ [Token.closing .curly]) = 2 := by
  obtain ⟨hdepth, hn⟩ := hbt.shift 1
  rw [hflat] at hn
  simp [nesting, nesting_append, Token.depth, hdepth, hn]

/-! ### Members -/

section
variable {payload : Bytes} {ts bt : List Token} (hts : tokens payload = some ts) (hv : OneValue ts)
include hts hv

/-- The entry's members: those of an object payload, or the payload as `value`. -/
theorem objectMembers_entryTokens (hbt : OneValue bt) :
    objectMembers (entryTokens payload ts bt) =
      some ((if isObject (trimWs payload) then (objectMembers ts).getD [] else [(ascii "value", ts)]) ++
        [(ascii "_actor", bt)]) := by
  have hactor := members_single (ascii "_actor") hbt.items
  unfold entryTokens entryFront
  cases hobj : isObject (trimWs payload) with
  | true =>
    obtain ⟨body, rfl, hdrop⟩ := tokens_isObject (tokens_trimWs hts) hobj
    obtain ⟨hdepth, -⟩ := hv.body
    cases hempty : isEmptyObject (trimWs payload) with
    | true =>
      obtain rfl := (isEmptyObject_iff hobj hdrop).mp hempty
      have hcat : [Token.opening .curly] ++ ([Token.str (ascii "_actor"), Token.colon] ++ bt ++ [Token.closing .curly]) =
          Token.opening .curly :: (Token.str (ascii "_actor") :: Token.colon :: bt ++ [Token.closing .curly]) := by simp
      simp only [if_true]
      rw [hcat, objectMembers_braces, objectMembers_braces, hactor]
      rfl
    | false =>
      have hcat : (Token.opening .curly :: (body ++ [Token.closing .curly])).dropLast ++ [Token.comma] ++
          ([Token.str (ascii "_actor"), Token.colon] ++ bt ++ [Token.closing .curly]) =
          Token.opening .curly :: (body ++ Token.comma :: (Token.str (ascii "_actor") :: Token.colon :: bt) ++
            [Token.closing .curly]) := by
        simp [List.dropLast_cons_of_ne_nil]
      simp only [if_true, Bool.false_eq_true, if_false]
      rw [hcat, objectMembers_braces, objectMembers_braces, members_append_comma hdepth, hactor]
      rfl
  | false =>
    have hcat : [Token.opening .curly, Token.str (ascii "value"), Token.colon] ++ ts ++ [Token.comma] ++
        ([Token.str (ascii "_actor"), Token.colon] ++ bt ++ [Token.closing .curly]) =
        Token.opening .curly :: ((Token.str (ascii "value") :: Token.colon :: ts) ++ Token.comma ::
          (Token.str (ascii "_actor") :: Token.colon :: bt) ++ [Token.closing .curly]) := by simp
    have hdepth : depthAfter 0 (Token.str (ascii "value") :: Token.colon :: ts) = 0 := (hv.shift 0).1
    simp only [Bool.false_eq_true, if_false]
    rw [hcat, objectMembers_braces, members_append_comma hdepth, members_single _ hv.items, hactor]

/-- The entry in front of the attribution member is an open object. -/
theorem entryFront_open : ∃ st, st ≠ .value ∧ Frames.run {} (entryFront payload ts) = some ⟨[.curly], st⟩ ∧
    nesting 0 (entryFront payload ts) = if isObject (trimWs payload) then nesting 0 ts else nesting 0 ts + 1 := by
  unfold entryFront
  cases hobj : isObject (trimWs payload) with
  | true =>
    obtain ⟨body, rfl, hdrop⟩ := tokens_isObject (tokens_trimWs hts) hobj
    obtain ⟨-, st, hrun, hst⟩ := hv.body
    cases hempty : isEmptyObject (trimWs payload) with
    | true =>
      obtain rfl := (isEmptyObject_iff hobj hdrop).mp hempty
      exact ⟨.empty, by simp, rfl, rfl⟩
    | false =>
      have hne : body ≠ [] := fun h => by simp [(isEmptyObject_iff hobj hdrop).mpr h] at hempty
      obtain rfl := hst hne
      have hfront : Frames.run {} (Token.opening .curly :: body) = some ⟨[.curly], .value⟩ := hrun
      have hdepth : depthAfter 0 (Token.opening .curly :: body) = 1 := (Frames.run_depth hfront).symm
      have hcat : Token.opening .curly :: (body ++ [Token.closing .curly]) =
          (Token.opening .curly :: body) ++ [Token.closing .curly] := rfl
      refine ⟨.sep, by simp, ?_, ?_⟩
      · simp only [if_true, Bool.false_eq_true, if_false]
        rw [hcat, List.dropLast_concat, Frames.run_append, hfront]
        rfl
      · simp only [if_true, Bool.false_eq_true, if_false]
        rw [hcat, List.dropLast_concat, nesting_append, nesting_append, hdepth]
        rfl
  | false =>
    obtain ⟨hdepth, hn⟩ := hv.shift 1
    refine ⟨.sep, by simp, ?_, ?_⟩
    · simp only [Bool.false_eq_true, if_false]
      rw [Frames.run_append, Frames.run_append]
      simp [Frames.run, Frames.step, hv.run_member]
    · simp [nesting, nesting_append, Token.depth, hdepth, hn]

theorem oneValue_entryTokens (hbt : OneValue bt) : OneValue (entryTokens payload ts bt) := by
  obtain ⟨st, hst, hrun, -⟩ := entryFront_open hts hv
  rw [OneValue, entryTokens, Frames.run_append, hrun, Option.bind_some, run_actorEnd hst hbt]

theorem nesting_entryTokens (hbt : OneValue bt) (hflat : nesting 0 bt = 1) :
    nesting 0 (entryTokens payload ts bt) =
      max (if isObject (trimWs payload) then nesting 0 ts else nesting 0 ts + 1) 2 := by
  obtain ⟨st, -, hrun, hn⟩ := entryFront_open hts hv
  have hdepth : depthAfter 0 (entryFront payload ts) = 1 := (Frames.run_depth hrun).symm
  rw [entryTokens, nesting_append, hn, hdepth, nesting_actorEnd hbt hflat]

end

/-! ### The record around the entry -/

theorem objectMembers_recordTokens (entryType : Bytes) {et : List Token} (h : OneValue et) :
    objectMembers (recordTokens entryType et) =
      some [(ascii "type", [Token.str (jsonEscape entryType)]), (ascii "entry", et)] := by
  have hcat : recordTokens entryType et = Token.opening .curly :: ((Token.str (ascii "type") :: Token.colon ::
      [Token.str (jsonEscape entryType)]) ++ Token.comma :: (Token.str (ascii "entry") :: Token.colon :: et) ++
        [Token.closing .curly]) := by
    simp [recordTokens]
  rw [hcat, objectMembers_braces, members_append_comma rfl, members_single _ rfl, members_single _ h.items]
  rfl

theorem oneValue_recordTokens (entryType : Bytes) {et : List Token} (h : OneValue et) :
    OneValue (recordTokens entryType et) ∧ nesting 0 (recordTokens entryType et) = nesting 0 et + 1 := by
  obtain ⟨hdepth, hn⟩ := h.shift 1
  constructor
  · rw [OneValue, recordTokens, Frames.run_append, Frames.run_append]
    simp [Frames.run, Frames.step, h.run_member]
  · simp [recordTokens, nesting, nesting_append, Token.depth, hdepth, hn]

/-! ### Who is named -/

theorem head_of_opening {x : Bytes} {ts : List Token} (h : tokens x = some (.opening .curly :: ts))
    (hhead : ∀ b ∈ x.head?, isWs b = false) : x.head? = some 123 := by
  cases x with
  | nil => simp at h
  | cons b x =>
    rw [tokens_cons, if_neg (by simp [hhead b rfl])] at h
    split at h
    · obtain ⟨p, -, hp⟩ := Option.bind_eq_some_iff.mp h
      obtain ⟨us, -, hus⟩ := Option.map_eq_some_iff.mp hp
      cases hus
    · split at h
      · rename_i t hp
        obtain ⟨us, -, hus⟩ := Option.map_eq_some_iff.mp h
        obtain rfl := (List.cons.inj hus).1
        unfold punctuation at hp
        split_ifs at hp <;> cases hp
        rename_i hb
        rw [hb]
        rfl
      · obtain ⟨rest, -, hrest⟩ := Option.bind_eq_some_iff.mp h
        obtain ⟨us, -, hus⟩ := Option.map_eq_some_iff.mp hrest
        cases hus

/-- A payload that reads as an object is taken for one. -/
theorem isObject_of_objectMembers {payload : Bytes} {ts : List Token} {ms : List (Bytes × List Token)}
    (hts : tokens payload = some ts) (hms : objectMembers ts = some ms) : isObject (trimWs payload) = true := by
  have htrim := tokens_trimWs hts
  obtain ⟨hhead, hlast⟩ := trimWs_ends payload
  unfold objectMembers at hms
  split at hms
  · rename_i us
    split at hms
    · rename_i hclose
      have hlast' : (Token.opening .curly :: us).getLast? = some (.closing .curly) := by
        cases us with
        | nil => cases hclose
        | cons u us => simpa using hclose
      simp only [isObject, decide_eq_true_eq]
      exact ⟨head_of_opening htrim hhead, getLast_of_closing htrim hlast' hlast⟩
    · cases hms
  · cases hms

/-- The members the entry has besides the block. -/
theorem spellsActor_eq {payload : Bytes} {ts : List Token} (hts : tokens payload = some ts) :
    spellsActor payload = (if isObject (trimWs payload) then (objectMembers ts).getD []
      else [(ascii "value", ts)]).any fun m => Spells m.1 "_actor" := by
  rw [spellsActor, hts, Option.bind_some]
  cases hms : objectMembers ts with
  | none =>
    split
    · rfl
    · have hvalue : ¬ Spells (ascii "value") "_actor" := by decide
      simp [hvalue]
  | some ms =>
    rw [if_pos (isObject_of_objectMembers hts hms)]
    rfl

theorem entryMembers_recordText (entryType : Bytes) {payload block : Bytes} {ts bt : List Token}
    (hts : tokens payload = some ts) (hv : OneValue ts) (hbt : tokens block = some bt) (hbv : OneValue bt)
    (hzero : (0 : UInt8) ∉ payload) :
    entryMembers (recordText entryType payload block) =
      some ((if isObject (trimWs payload) then (objectMembers ts).getD [] else [(ascii "value", ts)]) ++
        [(ascii "_actor", bt)]) := by
  have htype : ¬ Spells (ascii "type") "entry" := by decide
  have hentry : Spells (ascii "entry") "entry" := rfl
  have hdoc := tokens_recordText entryType (tokens_entryValue hts hbt hzero)
  have hms := objectMembers_recordTokens entryType (oneValue_entryTokens hts hv hbv)
  simp [entryMembers, hdoc, hms, htype, hentry, objectMembers_entryTokens hts hv hbv]

/-- A call from a process with no locked session. -/
def plainEnv : AuditEnv where
  enterpriseLoaded := true
  latch := Ring.empty 0
  requireActor := false
  escAlloc := true
  actorAlloc := true
  bufAlloc := true

def plainArgs (payload : Bytes) : AuditArgs where
  entryType := some (ascii "note")
  payload := some payload
  sessionId := some 7
  actor := some (ascii "ada")

def plainPayload : Bytes := ascii "\x7b\"a\":1\x7d"

def plainBlock : Bytes := actorBlock (some 7) (some (ascii "ada"))

def forgedPayload : Bytes := ascii "\x7b\"\\u005factor\":1\x7d"

end FractalSQL.Audit
