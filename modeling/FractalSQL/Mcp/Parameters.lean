import FractalSQL.Lib.Bytes

/-!
# Bound parameters

Three functions of the database layer bind a list of values to a statement, each with its
own loop. The server reads an integer as signed or unsigned as the binding says: two of the
loops say unsigned for every integer, so a negative one arrives 2^64 too large.
-/
namespace FractalSQL.Mcp.Binding
open Lib

/-- A parameter value; a double is its eight bytes. -/
inductive SqlValue where
  | null
  | int64 (n : Int64)
  | double (bits : UInt64)
  | string (s : Bytes)
deriving DecidableEq

/-- `MYSQL_TYPE_NULL`, `_LONG`, `_LONGLONG`, `_DOUBLE`, `_STRING`. -/
inductive BufferType where
  | null
  | long
  | longlong
  | double
  | string
deriving DecidableEq

/-- `MYSQL_BIND`, with the memory its buffer points at. -/
structure MysqlBind where
  bufferType : BufferType
  buffer : Bytes := []
  bufferLength : ℕ := 0
  isUnsigned : Bool := false

/-! ### The loops -/

/-- The binding loop, but for the integers. -/
def bindLoop (bindInt : Int64 → MysqlBind) (params : List SqlValue) : List MysqlBind :=
  params.map fun v =>
    match v with
    | .null => { bufferType := .null }
    | .int64 n => bindInt n
    | .double bits => { bufferType := .double, buffer := leBytes 8 bits.toNat }
    | .string s => { bufferType := .string, buffer := s, bufferLength := s.length }

def bindUnsigned (n : Int64) : MysqlBind :=
  { bufferType := .longlong, buffer := leBytes 8 n.toUInt64.toNat, isUnsigned := true }

/-- A value that fits 32 bits goes out as a `LONG`. -/
def bindNarrow (n : Int64) : MysqlBind :=
  if -2 ^ 31 ≤ n.toInt ∧ n.toInt ≤ 2 ^ 31 - 1 then
    { bufferType := .long, buffer := leBytes 4 n.toInt32.toUInt32.toNat }
  else { bufferType := .longlong, buffer := leBytes 8 n.toUInt64.toNat }

def callProc (params : List SqlValue) : List MysqlBind := bindLoop bindUnsigned params
def callProcResultSet (params : List SqlValue) : List MysqlBind := bindLoop bindNarrow params
def scalarTextLocked (binds : List SqlValue) : List MysqlBind := bindLoop bindUnsigned binds

inductive Path where
  | callProc
  | callProcResultSet
  | scalarTextLocked
deriving DecidableEq

def Path.binds : Path → List SqlValue → List MysqlBind
  | .callProc => Binding.callProc
  | .callProcResultSet => Binding.callProcResultSet
  | .scalarTextLocked => Binding.scalarTextLocked

/-! ### The server -/

/-- A parameter as the server has it: an integer is its mathematical value. -/
inductive Received where
  | null
  | integer (z : ℤ)
  | double (bits : UInt64)
  | string (s : Bytes)
deriving DecidableEq

/-- The integer in `w` bytes of memory. -/
def readInteger (w : ℕ) (isUnsigned : Bool) (buffer : Bytes) : ℤ :=
  let value := leValue (buffer.take w)
  if isUnsigned then value else (value : ℤ).bmod (256 ^ w)

def MysqlBind.received (b : MysqlBind) : Received :=
  match b.bufferType with
  | .null => .null
  | .long => .integer (readInteger 4 b.isUnsigned b.buffer)
  | .longlong => .integer (readInteger 8 b.isUnsigned b.buffer)
  | .double => .double (UInt64.ofNat (leValue (b.buffer.take 8)))
  | .string => .string (b.buffer.take b.bufferLength)

/-- The parameter list the server receives. -/
def received (path : Path) (params : List SqlValue) : List Received :=
  (path.binds params).map MysqlBind.received

/-- The value a parameter is. -/
def SqlValue.meaning : SqlValue → Received
  | .null => .null
  | .int64 n => .integer n.toInt
  | .double bits => .double bits
  | .string s => .string s

/-! ### What arrives -/

theorem readInteger_unsigned {w n : ℕ} (h : n < 256 ^ w) : readInteger w true (leBytes w n) = n := by
  have htake : (leBytes w n).take w = leBytes w n := List.take_of_length_le (leBytes_length w n).le
  rw [readInteger, htake, leValue_leBytes h]
  rfl

theorem readInteger_signed {w n : ℕ} (h : n < 256 ^ w) :
    readInteger w false (leBytes w n) = (n : ℤ).bmod (256 ^ w) := by
  have htake : (leBytes w n).take w = leBytes w n := List.take_of_length_le (leBytes_length w n).le
  rw [readInteger, htake, leValue_leBytes h]
  rfl

/-- An unsigned binding keeps the 64 bits. -/
theorem received_bindUnsigned (n : Int64) : (bindUnsigned n).received = .integer n.toUInt64.toNat := by
  have hlt : n.toUInt64.toNat < 256 ^ 8 := n.toUInt64.toNat_lt
  simp only [bindUnsigned, MysqlBind.received, readInteger_unsigned hlt]

theorem bmod_toUInt64 (n : Int64) : (n.toUInt64.toNat : ℤ).bmod (256 ^ 8) = n.toInt :=
  (BitVec.toInt_eq_toNat_bmod n.toBitVec).symm

theorem received_bindNarrow (n : Int64) : (bindNarrow n).received = .integer n.toInt := by
  unfold bindNarrow
  split
  · rename_i hfits
    have hlt : n.toInt32.toUInt32.toNat < 256 ^ 4 := n.toInt32.toUInt32.toNat_lt
    have hword : (n.toInt32.toUInt32.toNat : ℤ).bmod (256 ^ 4) = n.toInt32.toInt :=
      (BitVec.toInt_eq_toNat_bmod n.toInt32.toBitVec).symm
    have hvalue : n.toInt32.toInt = n.toInt := by
      rw [Int64.toInt_toInt32]
      exact Int.bmod_eq_of_le (by omega) (by omega)
    simp only [MysqlBind.received, readInteger_signed hlt, hword, hvalue]
  · have hlt : n.toUInt64.toNat < 256 ^ 8 := n.toUInt64.toNat_lt
    simp only [MysqlBind.received, readInteger_signed hlt, bmod_toUInt64]

/-- Read as unsigned, an integer is itself exactly when it is not negative. -/
theorem toUInt64_eq_iff (n : Int64) : (n.toUInt64.toNat : ℤ) = n.toInt ↔ 0 ≤ n.toInt := by
  have hbmod := bmod_toUInt64 n
  constructor
  · intro h
    rw [← h]
    exact Int.natCast_nonneg _
  · intro h
    have hlt : n.toUInt64.toNat < 2 ^ 64 := n.toUInt64.toNat_lt
    rw [Int.bmod_def] at hbmod
    omega

theorem received_bindLoop {bindInt : Int64 → MysqlBind} {params : List SqlValue} :
    (bindLoop bindInt params).map MysqlBind.received = params.map SqlValue.meaning ↔
      ∀ n, .int64 n ∈ params → (bindInt n).received = .integer n.toInt := by
  rw [bindLoop, List.map_map, List.map_inj_left]
  constructor
  · intro h n hn
    exact h (.int64 n) hn
  · intro h v hv
    cases v with
    | null => rfl
    | int64 n => exact h n hv
    | double bits =>
      have htake : (leBytes 8 bits.toNat).take 8 = leBytes 8 bits.toNat :=
        List.take_of_length_le (leBytes_length 8 _).le
      simp only [Function.comp, MysqlBind.received, SqlValue.meaning, htake, uint64_leBytes]
    | string s => simp only [Function.comp, MysqlBind.received, SqlValue.meaning, List.take_length]

theorem received_unsigned {params : List SqlValue} :
    (bindLoop bindUnsigned params).map MysqlBind.received = params.map SqlValue.meaning ↔
      ∀ n, .int64 n ∈ params → 0 ≤ n.toInt := by
  simp only [received_bindLoop, received_bindUnsigned, Received.integer.injEq, toUInt64_eq_iff]

/-- The server receives the values that were bound, in their order, through
`callProcResultSet` always and through the two others exactly when no integer is negative. -/
theorem parameters_arrive_iff (path : Path) (params : List SqlValue) :
    received path params = params.map SqlValue.meaning ↔
      path = .callProcResultSet ∨ ∀ n, .int64 n ∈ params → 0 ≤ n.toInt := by
  cases path with
  | callProc =>
    simp only [reduceCtorEq, false_or]
    exact received_unsigned
  | callProcResultSet =>
    simp only [true_or, iff_true]
    exact received_bindLoop.mpr fun n _ => received_bindNarrow n
  | scalarTextLocked =>
    simp only [reduceCtorEq, false_or]
    exact received_unsigned

theorem negative_arrives_unsigned :
    received .callProc [.int64 (-1)] = [.integer 18446744073709551615] ∧
      received .scalarTextLocked [.int64 (-1)] = [.integer 18446744073709551615] ∧
      [SqlValue.int64 (-1)].map SqlValue.meaning = [.integer (-1)] := by
  decide

end FractalSQL.Mcp.Binding
