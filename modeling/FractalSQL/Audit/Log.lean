import FractalSQL.Audit.WellFormed
import FractalSQL.Ledger.Record
import FractalSQL.Session.Latch

/-!
# `fractal_audit_log`

The record of an audit entry: the escaped entry type, and the payload with an
attribution block spliced into it before the closing brace of an object, or beside
it when it is no object. The text is assembled with `%.*s`, which also stops at a
zero byte.
-/
namespace FractalSQL.Audit
open Lib Lib.Json Ledger

/-- One byte of `ent_json_escape`. -/
def escapeByte (b : UInt8) : Bytes :=
  if b = 34 then [92, 34]
  else if b = 92 then [92, 92]
  else if b = 8 then [92, 98]
  else if b = 12 then [92, 102]
  else if b = 10 then [92, 110]
  else if b = 13 then [92, 114]
  else if b = 9 then [92, 116]
  else if b < 32 then 92 :: 117 :: 48 :: 48 :: hexEncode [b]
  else [b]

/-- `ent_json_escape`. -/
def jsonEscape (s : Bytes) : Bytes := s.flatMap escapeByte

/-- What `%.*s` prints of a buffer cut to its precision. -/
def cString (s : Bytes) : Bytes := s.takeWhile (· ≠ 0)

/-- The arguments; an argument that is missing or NULL is `none`. -/
structure AuditArgs where
  entryType : Option Bytes
  payload : Option Bytes
  sessionId : Option Int64 := none
  actor : Option Bytes := none

/-- What the process and its environment decide. -/
structure AuditEnv where
  enterpriseLoaded : Bool
  latch : Session.Latch
  requireActor : Bool
  escAlloc : Bool
  actorAlloc : Bool
  bufAlloc : Bool

inductive AuditOutcome where
  | null
  | error
  | record (text : Bytes)
deriving DecidableEq

/-- `ent_memmem` finds the needle. -/
def contains (needle : Bytes) : Bytes → Bool
  | [] => needle.isPrefixOf []
  | b :: hay => needle.isPrefixOf (b :: hay) || contains needle hay

/-- The optional last member of the attribution block. -/
def actorMember : Option Bytes → Bytes
  | some actor => ascii ",\"actor\":\"" ++ (cString (jsonEscape actor) ++ [34])
  | none => []

def boolText (b : Bool) : Bytes := if b then ascii "true" else ascii "false"

/-- The attribution block, before its length is checked. -/
def actorBlock (sid : Option Int64) (actor : Option Bytes) : Bytes :=
  ascii "\x7b\"session\":" ++ (decimalInt (sid.getD 0).toInt ++ (ascii ",\"attested\":" ++
    (boolText sid.isSome ++ (actorMember actor ++ [125]))))

/-- The payload without white space at its ends: `pb` to `pe`. -/
def trimWs (s : Bytes) : Bytes := ((s.dropWhile isWs).reverse.dropWhile isWs).reverse

/-- `is_obj`. -/
def isObject (trimmed : Bytes) : Bool := trimmed.head? = some 123 ∧ trimmed.getLast? = some 125

/-- `obj_empty`: only white space between the braces. -/
def isEmptyObject (trimmed : Bytes) : Bool := (trimmed.drop 1).dropWhile isWs = [125]

/-- The three shapes of the entry value. -/
def entryValue (payload block : Bytes) : Bytes :=
  let trimmed := trimWs payload
  if isObject trimmed ∧ ¬ isEmptyObject trimmed then
    cString trimmed.dropLast ++ (ascii ",\"_actor\":" ++ (block ++ [125]))
  else if isObject trimmed then ascii "\x7b\"_actor\":" ++ (block ++ [125])
  else ascii "\x7b\"value\":" ++ (cString trimmed ++ (ascii ",\"_actor\":" ++ (block ++ [125])))

/-- The text of the record. -/
def recordText (entryType payload block : Bytes) : Bytes :=
  ascii "\x7b\"type\":\"" ++ (cString (jsonEscape entryType) ++
    (ascii "\",\"entry\":" ++ (entryValue payload block ++ [125])))

/-- The buffer for the escaped form of `n` bytes: on the stack up to 512 bytes. -/
def escapeFits (n : ℕ) (alloc : Bool) : Bool := n * 6 + 1 ≤ 512 ∨ alloc

/-- `fractal_audit_log` up to the call of `fractal_ledger_write_kind2`, which is
handed the text of the record. -/
def auditRecord (env : AuditEnv) (args : AuditArgs) : AuditOutcome :=
  match args.entryType with
  | none => .null
  | some entryType =>
    if ¬ env.enterpriseLoaded then .null
    else
      let payload := args.payload.getD (ascii "null")
      if args.sessionId.any fun sid => Session.destructiveLocked env.latch sid.toUInt64 then .error
      else if args.sessionId.isNone ∧ env.requireActor then .error
      else if 256 < entryType.length then .error
      else if maxBlobBytes < payload.length then .error
      else if ¬ jsonWellFormed payload then .error
      else if contains (ascii "\"_actor\"") payload then .error
      else if ¬ escapeFits entryType.length env.escAlloc then .error
      else if args.actor.any fun a => 256 < a.length ∨ ¬ escapeFits a.length env.actorAlloc then .error
      else
        let block := actorBlock args.sessionId args.actor
        if 1024 ≤ block.length then .error
        else if ¬ env.bufAlloc then .error
        else
          let text := recordText entryType payload block
          if (jsonEscape entryType).length + payload.length + block.length + 64 ≤ text.length then .error
          else .record text

end FractalSQL.Audit
