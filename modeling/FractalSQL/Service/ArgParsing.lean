import FractalSQL.Service.Protocol

/-!
# Parsing the arguments

`parse_args` with its 32-bit offsets and its reads. The loop keeps the offset inside the
payload, so nothing wraps and nothing is read past the end, and it accepts what the
grammar of the arguments says.
-/
namespace FractalSQL.Service
open Lib

/-! ### The grammar -/

/-- The list reader accepts the concatenations of as many entries, and no others. -/
theorem parseArgs_iff (nargs : ℕ) (p : Bytes) (args : List WireArg) :
    parseArgs nargs p = some args ↔
      args.length = nargs ∧ p = args.flatMap WireArg.encode ∧ ∀ a ∈ args, a.bytes.length < 2 ^ 32 := by
  induction nargs generalizing p args with
  | zero =>
    cases p with
    | nil =>
      rw [parseArgs, Option.some.injEq]
      constructor
      · rintro rfl
        exact ⟨rfl, rfl, nofun⟩
      · exact fun h => (List.length_eq_zero_iff.mp h.1).symm
    | cons b p =>
      have hnone : parseArgs 0 (b :: p) = none := rfl
      rw [hnone]
      refine iff_of_false nofun ?_
      rintro ⟨hlen, hp, -⟩
      rw [List.length_eq_zero_iff.mp hlen] at hp
      cases hp
  | succ nargs ih =>
    constructor
    · intro h
      cases p with
      | nil => cases h
      | cons type p =>
      cases p with
      | nil => cases h
      | cons isNull p =>
        simp only [parseArgs, Option.bind_eq_bind, Option.bind_eq_some_iff, Prod.exists] at h
        obtain ⟨len, p₁, hlen, bytes, p₂, hbytes, args', hargs', heq⟩ := h
        cases heq
        obtain rfl := takeExact_eq_some.mp hlen
        obtain rfl := takeExact_eq_some.mp hbytes
        obtain ⟨hcount, rfl, hall⟩ := (ih p₂ args').mp hargs'
        have hlt : leValue len.val < 2 ^ 32 := by simpa using leValue_lt len.val
        have hfield : leBytes 4 (leValue len.val) = len.val := congrArg Subtype.val (leBlock_leValue len)
        refine ⟨by simp [hcount], ?_, ?_⟩
        · simp [WireArg.encode, hfield]
        · intro a ha
          rcases List.mem_cons.mp ha with rfl | ha
          · simpa using hlt
          · exact hall a ha
    · rintro ⟨hcount, rfl, hall⟩
      cases args with
      | nil => cases hcount
      | cons a args =>
        have hlt := hall a (List.mem_cons_self ..)
        have htail := (ih (args.flatMap WireArg.encode) args).mpr
          ⟨by simpa using hcount, rfl, fun b hb => hall b (List.mem_cons_of_mem _ hb)⟩
        have hlen : takeExact 4 (leBytes 4 a.bytes.length ++ (a.bytes ++ args.flatMap WireArg.encode)) =
            some (leBlock 4 a.bytes.length, a.bytes ++ args.flatMap WireArg.encode) :=
          takeExact_append (leBlock 4 a.bytes.length) _
        have hvalue : leValue (leBlock 4 a.bytes.length).val = a.bytes.length :=
          leValue_leBytes (by simpa using hlt)
        have hbytes : takeExact (leValue (leBlock 4 a.bytes.length).val) (a.bytes ++ args.flatMap WireArg.encode) =
            some (⟨a.bytes, hvalue.symm⟩, args.flatMap WireArg.encode) :=
          takeExact_eq_some.mpr rfl
        simp only [List.flatMap_cons, WireArg.encode, List.cons_append, List.append_assoc, parseArgs,
          Option.bind_eq_bind, hlen, hbytes, Option.bind_some, htail]
        rfl

/-! ### The loop -/

/-- `struct fsq_arg`; `off` is where the value begins in the payload. -/
structure ArgSlice where
  type : UInt8
  isNull : UInt8
  off : ℕ
  len : UInt32
deriving DecidableEq

/-- What the loop does with the payload and with its offset. -/
inductive Access where
  | read (i : ℕ)
  /-- `n - off`. -/
  | sub (n off : UInt32)
  /-- `off += k`. -/
  | add (off k : UInt32)

/-- A read inside the payload, a difference and a sum that do not wrap. -/
def Access.Safe (p : Bytes) : Access → Prop
  | .read i => i < p.length
  | .sub n off => off ≤ n
  | .add off k => off.toNat + k.toNat < 2 ^ 32

/-- `p[i]`. -/
def byteAt (p : Bytes) (i : ℕ) : UInt8 := p.getD i 0

/-- `fsq_get_u32`. -/
def getU32 (p : Bytes) (i : ℕ) : UInt32 :=
  UInt32.ofNat (leValue [byteAt p i, byteAt p (i + 1), byteAt p (i + 2), byteAt p (i + 3)])

/-- The accesses up to the second test of a turn of the loop. -/
def entryAccesses (n off : UInt32) : List Access :=
  .sub n off :: .read off.toNat :: .read (off.toNat + 1) ::
    ((List.range 4).map fun i => Access.read (off.toNat + 2 + i)) ++ [.add off 6, .sub n (off + 6)]

/-- The loop of `parse_args`, with `nargs` turns left. -/
def parseArgsFrom (p : Bytes) (n : UInt32) : ℕ → UInt32 → Option (List ArgSlice) × List Access
  | 0, off => (if off = n then some [] else none, [])
  | nargs + 1, off =>
    if n - off < 6 then (none, [.sub n off])
    else
      let len := getU32 p (off.toNat + 2)
      if n - (off + 6) < len then (none, entryAccesses n off)
      else
        let r := parseArgsFrom p n nargs (off + 6 + len)
        (r.1.map (⟨byteAt p off.toNat, byteAt p (off.toNat + 1), (off + 6).toNat, len⟩ :: ·),
          entryAccesses n off ++ .add (off + 6) len :: r.2)

/-- `parse_args` of a payload of `n` bytes. -/
def parseArgsC (p : Bytes) (n : UInt32) (nargs : ℕ) : Option (List ArgSlice) × List Access := parseArgsFrom p n nargs 0

/-- The entry a slice stands for. -/
def ArgSlice.entry (p : Bytes) (s : ArgSlice) : WireArg := ⟨s.type, s.isNull, (p.drop s.off).take s.len.toNat⟩

/-- Where the entries stand from an offset on. -/
def slicesFrom : ℕ → List WireArg → List ArgSlice
  | _, [] => []
  | off, a :: args =>
    ⟨a.type, a.isNull, off + 6, UInt32.ofNat a.bytes.length⟩ :: slicesFrom (off + 6 + a.bytes.length) args

theorem byteAt_eq (p : Bytes) (off i : ℕ) : byteAt p (off + i) = byteAt (p.drop off) i := by
  simp [byteAt, List.getD_eq_getElem?_getD, List.getElem?_drop]

theorem getU32_eq {p : Bytes} {off : ℕ} {len : Block 4} {rest : Bytes} (h : p.drop off = len.val ++ rest) :
    getU32 p off = UInt32.ofNat (leValue len.val) := by
  obtain ⟨bytes, hlen⟩ := len
  obtain ⟨a, b, c, d, rfl⟩ : ∃ a b c d, bytes = [a, b, c, d] := List.length_eq_four.mp hlen
  have hbyte (i : ℕ) : byteAt p (off + i) = byteAt ([a, b, c, d] ++ rest) i := (byteAt_eq p off i).trans (h ▸ rfl)
  rw [getU32, ← Nat.add_zero off, hbyte 0, Nat.add_zero, hbyte 1, hbyte 2, hbyte 3]
  rfl

theorem parseArgs_short {nargs : ℕ} {p : Bytes} (h : p.length < 6) : parseArgs (nargs + 1) p = none := by
  cases hargs : parseArgs (nargs + 1) p with
  | none => rfl
  | some args =>
    obtain ⟨hcount, rfl, -⟩ := (parseArgs_iff _ _ _).mp hargs
    cases args with
    | nil => cases hcount
    | cons a args =>
      simp [WireArg.encode] at h
      omega

/-- One entry: its value is all there, or it is refused. -/
theorem parseArgs_entry (nargs : ℕ) (type isNull : UInt8) (len : Block 4) (rest : Bytes) :
    parseArgs (nargs + 1) (type :: isNull :: (len.val ++ rest)) =
      if rest.length < leValue len.val then none
      else (parseArgs nargs (rest.drop (leValue len.val))).map (⟨type, isNull, rest.take (leValue len.val)⟩ :: ·) := by
  rw [parseArgs]
  simp only [takeExact_append, Option.bind_eq_bind, Option.bind_some]
  split_ifs with hshort
  · rw [takeExact_eq_none.mpr hshort]
    rfl
  · obtain ⟨bytes, tail, rfl⟩ := exists_block (leValue len.val) rest (not_lt.mp hshort)
    rw [takeExact_append, List.drop_left' bytes.property, List.take_left' bytes.property, Option.map_eq_bind]
    rfl

theorem entryAccesses_safe {p : Bytes} {n off : UInt32} (hn : n.toNat = p.length) (hoff : off.toNat + 6 ≤ p.length)
    (hsix : (off + 6).toNat = off.toNat + 6) : ∀ a ∈ entryAccesses n off, a.Safe p := by
  have hlt := n.toNat_lt
  have hsix' : (6 : UInt32).toNat = 6 := rfl
  intro a ha
  simp only [entryAccesses, List.cons_append, List.mem_cons, List.mem_append, List.mem_map, List.mem_range,
    List.not_mem_nil, or_false] at ha
  rcases ha with rfl | rfl | rfl | ⟨i, hi, rfl⟩ | rfl | rfl <;>
    simp only [Access.Safe, UInt32.le_iff_toNat_le, hsix'] <;> omega

/-- From an offset inside the payload, the loop reads what the list reader reads, and every
access is safe. -/
theorem parseArgsFrom_spec {p : Bytes} {n : UInt32} (hn : n.toNat = p.length) (nargs : ℕ) {off : UInt32}
    (hoff : off.toNat ≤ p.length) :
    (parseArgsFrom p n nargs off).1 = (parseArgs nargs (p.drop off.toNat)).map (slicesFrom off.toNat) ∧
      ∀ a ∈ (parseArgsFrom p n nargs off).2, a.Safe p := by
  have hlt := n.toNat_lt
  induction nargs generalizing off with
  | zero =>
    refine ⟨?_, nofun⟩
    rw [parseArgsFrom]
    by_cases hend : off = n
    · subst hend
      rw [if_pos rfl, hn, List.drop_length]
      rfl
    · have hne : off.toNat ≠ p.length := fun h => hend (UInt32.toNat_inj.mp (h.trans hn.symm))
      obtain ⟨b, q, hq⟩ := List.exists_cons_of_length_pos (l := p.drop off.toNat) (by simp; omega)
      rw [if_neg hend, hq]
      rfl
  | succ nargs ih =>
    have hle : off ≤ n := by
      rw [UInt32.le_iff_toNat_le, hn]
      exact hoff
    have hsub : (n - off).toNat = p.length - off.toNat := by rw [UInt32.toNat_sub_of_le _ _ hle, hn]
    rw [parseArgsFrom]
    by_cases hshort : n - off < 6
    · rw [if_pos hshort]
      rw [UInt32.lt_iff_toNat_lt, hsub] at hshort
      refine ⟨?_, ?_⟩
      · rw [parseArgs_short (by simpa using hshort)]
        rfl
      · intro a ha
        rw [List.mem_singleton.mp ha]
        exact hle
    · rw [if_neg hshort]
      rw [UInt32.lt_iff_toNat_lt, hsub, not_lt] at hshort
      have hroom : off.toNat + 6 ≤ p.length := by
        have hsix : (6 : UInt32).toNat = 6 := rfl
        omega
      have hsix : (off + 6).toNat = off.toNat + 6 := by
        rw [UInt32.toNat_add]
        have hsix : (6 : UInt32).toNat = 6 := rfl
        omega
      -- the entry's head, and what follows it
      obtain ⟨type, q, hq⟩ := List.exists_cons_of_length_pos (l := p.drop off.toNat) (by simp; omega)
      obtain ⟨isNull, q', rfl⟩ := List.exists_cons_of_length_pos (l := q) (by
        have := congrArg List.length hq
        simp at this
        omega)
      obtain ⟨len, rest, rfl⟩ := exists_block 4 q' (by
        have := congrArg List.length hq
        simp at this
        omega)
      have hdrop (k : ℕ) : p.drop (off.toNat + k) = (type :: isNull :: (len.val ++ rest)).drop k := by
        rw [← List.drop_drop, hq]
      have hrest : p.drop (off + 6).toNat = rest := by
        rw [hsix, hdrop]
        exact List.drop_left' len.property
      have hrestlen : rest.length = p.length - (off + 6).toNat := by rw [← hrest, List.length_drop]
      have hlenlt : leValue len.val < 2 ^ 32 := by simpa using leValue_lt len.val
      have hlen : getU32 p (off.toNat + 2) = UInt32.ofNat (leValue len.val) := getU32_eq (hdrop 2)
      have hlenNat : (UInt32.ofNat (leValue len.val)).toNat = leValue len.val := UInt32.toNat_ofNat_of_lt' hlenlt
      have htype : byteAt p off.toNat = type := by
        have := byteAt_eq p off.toNat 0
        rwa [hq] at this
      have hnull : byteAt p (off.toNat + 1) = isNull := by rw [byteAt_eq, hq]; rfl
      have hle' : off + 6 ≤ n := by
        rw [UInt32.le_iff_toNat_le, hn, hsix]
        exact hroom
      have hsub' : (n - (off + 6)).toNat = p.length - (off + 6).toNat := by rw [UInt32.toNat_sub_of_le _ _ hle', hn]
      have hsafe := entryAccesses_safe hn hroom hsix
      rw [hq, parseArgs_entry, hlen, htype, hnull]
      dsimp only
      by_cases hlong : rest.length < leValue len.val
      · rw [if_pos hlong, if_pos (by rw [UInt32.lt_iff_toNat_lt, hsub', hlenNat]; omega)]
        exact ⟨rfl, hsafe⟩
      · rw [if_neg hlong, if_neg (by rw [UInt32.lt_iff_toNat_lt, hsub', hlenNat]; omega)]
        have hnext : (off + 6 + UInt32.ofNat (leValue len.val)).toNat = off.toNat + 6 + leValue len.val := by
          rw [UInt32.toNat_add, hlenNat, hsix]
          omega
        obtain ⟨hargs, haccesses⟩ := @ih (off + 6 + UInt32.ofNat (leValue len.val)) (by omega)
        constructor
        · have hdropRest : p.drop (off + 6 + UInt32.ofNat (leValue len.val)).toNat = rest.drop (leValue len.val) := by
            rw [hnext, ← hsix, ← List.drop_drop, hrest]
          have htake : (rest.take (leValue len.val)).length = leValue len.val := List.length_take_of_le (not_lt.mp hlong)
          rw [hargs, hdropRest, hnext, hsix, Option.map_map, Option.map_map]
          dsimp only
          congr 1
          funext args
          simp [slicesFrom, htake]
        · intro a ha
          rcases List.mem_append.mp ha with ha | ha
          · exact hsafe a ha
          · rcases List.mem_cons.mp ha with rfl | ha
            · rw [Access.Safe, hlenNat, hsix]
              omega
            · exact haccesses a ha

theorem slicesFrom_entry {p : Bytes} {args : List WireArg} {off : ℕ} (hall : ∀ a ∈ args, a.bytes.length < 2 ^ 32)
    (hp : p.drop off = args.flatMap WireArg.encode) : (slicesFrom off args).map (·.entry p) = args := by
  induction args generalizing off with
  | nil => rfl
  | cons a args ih =>
    have hlen : (UInt32.ofNat a.bytes.length).toNat = a.bytes.length :=
      UInt32.toNat_ofNat_of_lt' (hall a (List.mem_cons_self ..))
    have hvalue : p.drop (off + 6) = a.bytes ++ args.flatMap WireArg.encode := by
      rw [← List.drop_drop, hp, List.flatMap_cons, WireArg.encode]
      rfl
    have hnext : p.drop (off + 6 + a.bytes.length) = args.flatMap WireArg.encode := by
      rw [← List.drop_drop, hvalue, List.drop_left]
    rw [slicesFrom, List.map_cons, ih (fun b hb => hall b (List.mem_cons_of_mem _ hb)) hnext, ArgSlice.entry, hlen, hvalue,
      List.take_left]

/-- `parse_args` accepts exactly the concatenations of `nargs` entries, with safe accesses
on every payload, and what it records are the entries in their order. -/
theorem parseArgsC_exact {p : Bytes} (hp : p.length ≤ maxPayload) (nargs : ℕ) :
    ((parseArgsC p (UInt32.ofNat p.length) nargs).1.isSome = true ↔
        ∃ args : List WireArg, args.length = nargs ∧ p = args.flatMap WireArg.encode) ∧
      (∀ slices, (parseArgsC p (UInt32.ofNat p.length) nargs).1 = some slices →
        (slices.map (·.entry p)).length = nargs ∧ p = (slices.map (·.entry p)).flatMap WireArg.encode ∧
          slices = slicesFrom 0 (slices.map (·.entry p))) ∧
      ∀ a ∈ (parseArgsC p (UInt32.ofNat p.length) nargs).2, a.Safe p := by
  have hmax : maxPayload < 2 ^ 32 := by decide
  have hn : (UInt32.ofNat p.length).toNat = p.length := UInt32.toNat_ofNat_of_lt' (lt_of_le_of_lt hp hmax)
  obtain ⟨hloop, hsafe⟩ := @parseArgsFrom_spec p _ hn nargs 0 (Nat.zero_le _)
  have hzero : (0 : UInt32).toNat = 0 := rfl
  rw [hzero, List.drop_zero] at hloop
  refine ⟨?_, ?_, hsafe⟩
  · rw [parseArgsC, hloop, Option.isSome_map, Option.isSome_iff_exists]
    simp only [parseArgs_iff]
    constructor
    · rintro ⟨args, hcount, hargs, -⟩
      exact ⟨args, hcount, hargs⟩
    · rintro ⟨args, hcount, rfl⟩
      refine ⟨args, hcount, rfl, fun a ha => ?_⟩
      have hle : a.encode.length ≤ (args.flatMap WireArg.encode).length :=
        (List.sublist_flatten_of_mem (List.mem_map_of_mem ha)).length_le.trans_eq (by rw [List.flatMap])
      have hbytes : a.bytes.length ≤ a.encode.length := by
        simp [WireArg.encode]
        omega
      omega
  · intro slices hslices
    rw [parseArgsC, hloop, Option.map_eq_some_iff] at hslices
    obtain ⟨args, hargs, rfl⟩ := hslices
    obtain ⟨hcount, hpargs, hall⟩ := (parseArgs_iff _ _ _).mp hargs
    rw [slicesFrom_entry hall (by rw [List.drop_zero]; exact hpargs)]
    exact ⟨hcount, hpargs, rfl⟩

/-- Two entries, one of them empty. -/
theorem parseArgsC_exact_two :
    (parseArgsC [1, 0, 1, 0, 0, 0, 97, 4, 1, 0, 0, 0, 0] 13 2).1 = some [⟨1, 0, 6, 1⟩, ⟨4, 1, 13, 0⟩] ∧
      ∀ a ∈ (parseArgsC [1, 0, 1, 0, 0, 0, 97, 4, 1, 0, 0, 0, 0] 13 2).2,
        a.Safe [1, 0, 1, 0, 0, 0, 97, 4, 1, 0, 0, 0, 0] :=
  ⟨by decide, (parseArgsC_exact (p := [1, 0, 1, 0, 0, 0, 97, 4, 1, 0, 0, 0, 0]) (by decide) 2).2.2⟩

end FractalSQL.Service
