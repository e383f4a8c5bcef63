import FractalSQL.Lib.Count
import FractalSQL.Session.Overlay
import Mathlib.Data.List.AList

/-!
# The overlay as a map

The table stands for a map from session ids to overrides, ordered by the last touch. Setting,
unsetting and reading move a session to the front; a session that needs a slot of a full
table takes the place of the last one. The table and the map give the same answers over
every run.
-/
namespace FractalSQL.Session
open Lib

/-- The sessions with their overrides, the last one touched first. -/
abbrev Sessions := AList fun _ : UInt64 => Overrides

/-! ### Calls -/

inductive OverlayOp where
  | set (sid : UInt64) (name value : Option Bytes) (mallocOk : Bool)
  | lookup (sid : UInt64) (name : Option Bytes) (outcap : ℕ)
  | json (sid : UInt64) (allocOk : Bool)
  | reset (sid : UInt64)

def OverlayOp.session : OverlayOp → UInt64
  | .set sid _ _ _ => sid
  | .lookup sid _ _ => sid
  | .json sid _ => sid
  | .reset sid => sid

def Overlay.step (o : Overlay) : OverlayOp → Overlay
  | .set sid name value mallocOk => (setValue o sid name value mallocOk).1
  | .lookup sid name outcap => (lookupStr o sid name outcap).1
  | .json _ _ => o
  | .reset sid => (resetSession o sid).1

/-- The key and the value that a set call stores, `none` as the value to unset. -/
def storedBy (name value : Option Bytes) (mallocOk : Bool) : Option (CfgKey × Option Bytes) :=
  (keyByName name).bind fun k =>
    if k.row.sessionOk ∧ (validateValue k.row value).isOk ∧ ((nonEmpty value).isNone ∨ mallocOk) then
      some (k, nonEmpty value)
    else none

/-- A session moves to the front with new overrides. Without room the last one gives way. -/
def Sessions.put (m : Sessions) (sid : UInt64) (values : Overrides) : Sessions :=
  if sid ∈ m ∨ m.keys.length < cfgMaxSessions then m.insert sid values
  else match m.keys.getLast? with
    | some last => (m.erase last).insert sid values
    | none => m.insert sid values

/-- The map after a call. -/
def Sessions.step (m : Sessions) : OverlayOp → Sessions
  | .set sid name value mallocOk =>
    match storedBy name value mallocOk with
    | some (k, some v) => m.put sid (Function.update ((m.lookup sid).getD noOverrides) k (some v))
    | some (k, none) =>
      match m.lookup sid with
      | some values => m.insert sid (Function.update values k none)
      | none => m
    | none => m
  | .lookup sid name _ =>
    match keyByName name, m.lookup sid with
    | some k, some values => if (values k).isSome then m.insert sid values else m
    | _, _ => m
  | .json _ _ => m
  | .reset sid => m.erase sid

/-! ### Slots -/

/-- The slot of a session. -/
structure Overlay.Owns (o : Overlay) (sid : UInt64) (i : ℕ) (s : Slot) : Prop where
  slot : o.slots[i]? = some s
  owns : s.owns sid = true

/-- At most one slot for each session, its stamp not ahead of the clock and its own, and only keys
that a session may set. -/
structure Overlay.Sound (o : Overlay) : Prop where
  length : o.slots.length = cfgMaxSessions
  one {sid : UInt64} {i j : ℕ} {s s' : Slot} : o.Owns sid i s → o.Owns sid j s' → i = j
  count : o.count = o.slots.countP Slot.used
  stamp {i : ℕ} {s : Slot} : o.slots[i]? = some s → s.touched ≤ o.clock
  keys {i : ℕ} {s : Slot} {k : CfgKey} : o.slots[i]? = some s → s.values k ≠ none → k.row.sessionOk = true

/-- The overrides of a session. -/
def Overlay.overrides (o : Overlay) (sid : UInt64) : Overrides :=
  ((o.find sid).bind fun i => o.slots[i]?).elim noOverrides Slot.values

section Slots
variable {o : Overlay} {sid : UInt64} {i : ℕ} {s : Slot}

theorem Slot.owns_iff : s.owns sid = true ↔ s.used = true ∧ s.sessionId = sid := by simp [owns]

theorem Overlay.find_some (h : o.find sid = some i) : ∃ s, o.Owns sid i s := by
  obtain ⟨hlt, howns, -⟩ := List.findIdx?_eq_some_iff_getElem.mp h
  exact ⟨o.slots[i], List.getElem?_eq_getElem hlt, howns⟩

theorem Overlay.find_none (h : o.find sid = none) (i : ℕ) (s : Slot) : ¬ o.Owns sid i s := by
  rintro ⟨hslot, howns⟩
  rw [Overlay.find, List.findIdx?_eq_none_iff] at h
  rw [h s (List.mem_of_getElem? hslot)] at howns
  cases howns

theorem Overlay.Sound.find_eq (h : o.Sound) (hs : o.Owns sid i s) : o.find sid = some i := by
  cases hfind : o.find sid with
  | none => exact absurd hs (Overlay.find_none hfind i s)
  | some j =>
    obtain ⟨s', hs'⟩ := Overlay.find_some hfind
    rw [h.one hs' hs]

theorem Overlay.Sound.overrides_eq (h : o.Sound) (hs : o.Owns sid i s) : o.overrides sid = s.values := by
  rw [Overlay.overrides, h.find_eq hs, Option.bind_some, hs.slot]
  rfl

theorem Overlay.overrides_none (h : o.find sid = none) : o.overrides sid = noOverrides := by
  rw [Overlay.overrides, h]
  rfl

end Slots

/-! ### What the table stands for -/

structure Stands (o : Overlay) (m : Sessions) : Prop where
  sound : o.Sound
  values {sid : UInt64} {i : ℕ} {s : Slot} : o.Owns sid i s → m.lookup sid = some s.values
  absent {sid : UInt64} : o.find sid = none → m.lookup sid = none
  size : m.keys.length = o.slots.countP Slot.used
  recent : m.keys.Pairwise fun sid sid' =>
    ∀ {i j : ℕ} {s s' : Slot}, o.Owns sid i s → o.Owns sid' j s' → s'.touched < s.touched

section Stands
variable {o : Overlay} {m : Sessions} {sid : UInt64} {i : ℕ} {s : Slot}

theorem slot_empty (h : ({} : Overlay).slots[i]? = some s) : s = {} :=
  List.eq_of_mem_replicate (n := cfgMaxSessions) (List.mem_of_getElem? h)

theorem countP_empty : ({} : Overlay).slots.countP Slot.used = 0 := List.countP_replicate

theorem Stands.empty : Stands {} ∅ where
  sound :=
    { length := List.length_replicate
      one := by
        rintro sid i j s s' ⟨hslot, howns⟩ -
        rw [slot_empty hslot] at howns
        cases howns
      count := countP_empty.symm
      stamp := by
        intro i s hslot
        rw [slot_empty hslot]
      keys := by
        intro i s k hslot hne
        rw [slot_empty hslot] at hne
        exact absurd rfl hne }
  values := by
    rintro sid i s ⟨hslot, howns⟩
    rw [slot_empty hslot] at howns
    cases howns
  absent _ := rfl
  size := countP_empty.symm
  recent := .nil

theorem Stands.mem_iff (h : Stands o m) : sid ∈ m ↔ ∃ i s, o.Owns sid i s := by
  rw [← AList.lookup_isSome]
  constructor
  · intro hsome
    cases hfind : o.find sid with
    | none =>
      rw [h.absent hfind] at hsome
      cases hsome
    | some i => exact ⟨i, Overlay.find_some hfind⟩
  · rintro ⟨i, s, hs⟩
    rw [h.values hs]
    rfl

theorem Stands.overrides (h : Stands o m) (sid : UInt64) : o.overrides sid = (m.lookup sid).getD noOverrides := by
  cases hfind : o.find sid with
  | none => rw [Overlay.overrides_none hfind, h.absent hfind, Option.getD_none]
  | some i =>
    obtain ⟨s, hs⟩ := Overlay.find_some hfind
    rw [h.sound.overrides_eq hs, h.values hs, Option.getD_some]

/-- The owners after slot `i` was given to a session. -/
theorem owns_set {o' : Overlay} {s' x : Slot} {sid' : UInt64} {j : ℕ} (hslots : o'.slots = o.slots.set i s')
    (h : o'.Owns sid' j x) : (j = i ∧ x = s' ∧ s'.owns sid' = true) ∨ (j ≠ i ∧ o.Owns sid' j x) := by
  obtain ⟨hslot, howns⟩ := h
  rw [hslots] at hslot
  rcases getElem?_set_cases hslot with ⟨rfl, rfl⟩ | ⟨hne, hslot⟩
  · exact .inl ⟨rfl, rfl, howns⟩
  · exact .inr ⟨hne, hslot, howns⟩

theorem owns_of_ne {o' : Overlay} {s' x : Slot} {sid' : UInt64} {j : ℕ} (hslots : o'.slots = o.slots.set i s')
    (hne : j ≠ i) (h : o.Owns sid' j x) : o'.Owns sid' j x :=
  ⟨by rw [hslots, List.getElem?_set_ne (Ne.symm hne)]; exact h.slot, h.owns⟩

/-- A slot that is given up. -/
theorem Stands.free (h : Stands o m) (hs : o.Owns sid i s) {o' : Overlay} (hslots : o'.slots = o.slots.set i s.free)
    (hcount : o'.count = o'.slots.countP Slot.used) (hclock : o.clock ≤ o'.clock) : Stands o' (m.erase sid) := by
  have howner {sid' : UInt64} {j : ℕ} {x : Slot} (hx : o'.Owns sid' j x) : j ≠ i ∧ sid' ≠ sid ∧ o.Owns sid' j x := by
    rcases owns_set hslots hx with ⟨-, -, howns⟩ | ⟨hne, hx⟩
    · cases howns
    · refine ⟨hne, ?_, hx⟩
      rintro rfl
      exact hne (h.sound.one hx hs)
  have hmem : sid ∈ m.keys := AList.mem_keys.mp (h.mem_iff.mpr ⟨i, s, hs⟩)
  refine ⟨⟨?_, ?_, hcount, ?_, ?_⟩, ?_, ?_, ?_, ?_⟩
  · rw [hslots, List.length_set, h.sound.length]
  · exact fun hx hy => h.sound.one (howner hx).2.2 (howner hy).2.2
  · intro j x hx
    rw [hslots] at hx
    rcases getElem?_set_cases hx with ⟨rfl, rfl⟩ | ⟨-, hx⟩
    · exact (h.sound.stamp hs.slot).trans hclock
    · exact (h.sound.stamp hx).trans hclock
  · intro j x k hx hne
    rw [hslots] at hx
    rcases getElem?_set_cases hx with ⟨rfl, rfl⟩ | ⟨-, hx⟩
    · exact absurd rfl hne
    · exact h.sound.keys hx hne
  · intro sid' j x hx
    obtain ⟨-, hne, hx⟩ := howner hx
    rw [AList.lookup_erase_ne hne, h.values hx]
  · intro sid' hfind
    by_cases heq : sid' = sid
    · rw [heq, AList.lookup_erase]
    · rw [AList.lookup_erase_ne heq]
      refine h.absent ?_
      cases hfind' : o.find sid' with
      | none => rfl
      | some j =>
        obtain ⟨x, hx⟩ := Overlay.find_some hfind'
        refine absurd (owns_of_ne hslots ?_ hx) (Overlay.find_none hfind j x)
        rintro rfl
        have hsame := hx.slot.symm.trans hs.slot
        cases hsame
        exact heq ((Slot.owns_iff.mp hx.owns).2.symm.trans (Slot.owns_iff.mp hs.owns).2)
  · have hused : s.used = true := (Slot.owns_iff.mp hs.owns).1
    have hcountP := countP_set_add hs.slot Slot.used s.free
    rw [AList.keys_erase, List.length_erase_of_mem hmem, h.size, hslots]
    simp only [hused, Slot.free, Bool.toNat_true, Bool.toNat_false] at hcountP ⊢
    omega
  · rw [AList.keys_erase]
    exact (h.recent.sublist List.erase_sublist).imp fun hlt _ _ _ _ hx hy => hlt (howner hx).2.2 (howner hy).2.2

/-- A free slot, or its own one, that a session gets with a new stamp. -/
theorem Stands.fill (h : Stands o m) {old : Slot} (hold : o.slots[i]? = some old)
    (hfree : (old.used = false ∧ o.find sid = none) ∨ o.Owns sid i old) {o' : Overlay} (howns : s.owns sid = true)
    (hslots : o'.slots = o.slots.set i s) (hcount : o'.count = o'.slots.countP Slot.used) (hstamp : o.clock < s.touched)
    (hclock : s.touched ≤ o'.clock) (hkeys : ∀ k, s.values k ≠ none → k.row.sessionOk = true) :
    Stands o' (m.insert sid s.values) := by
  have hself : o'.Owns sid i s := ⟨by rw [hslots, List.getElem?_set_self (List.getElem?_eq_some_iff.mp hold).1], howns⟩
  have hsid : s.sessionId = sid := (Slot.owns_iff.mp howns).2
  have honly {j : ℕ} {x : Slot} (hx : o.Owns sid j x) : j = i := by
    rcases hfree with ⟨-, hfind⟩ | hown
    · exact absurd hx (Overlay.find_none hfind j x)
    · exact h.sound.one hx hown
  have howner {sid' : UInt64} {j : ℕ} {x : Slot} (hx : o'.Owns sid' j x) :
      (sid' = sid ∧ j = i ∧ x = s) ∨ (sid' ≠ sid ∧ j ≠ i ∧ o.Owns sid' j x) := by
    rcases owns_set hslots hx with ⟨rfl, rfl, howns'⟩ | ⟨hne, hx⟩
    · exact .inl ⟨(Slot.owns_iff.mp howns').2.symm.trans hsid, rfl, rfl⟩
    · refine .inr ⟨?_, hne, hx⟩
      rintro rfl
      exact hne (honly hx)
  refine ⟨⟨?_, ?_, hcount, ?_, ?_⟩, ?_, ?_, ?_, ?_⟩
  · rw [hslots, List.length_set, h.sound.length]
  · intro sid' j j' x x' hx hx'
    rcases howner hx with ⟨rfl, rfl, rfl⟩ | ⟨hne, -, hx⟩
    · rcases howner hx' with ⟨-, rfl, -⟩ | ⟨hne, -, -⟩
      · rfl
      · exact absurd rfl hne
    · rcases howner hx' with ⟨rfl, -, -⟩ | ⟨-, -, hx'⟩
      · exact absurd rfl hne
      · exact h.sound.one hx hx'
  · intro j x hx
    rw [hslots] at hx
    rcases getElem?_set_cases hx with ⟨rfl, rfl⟩ | ⟨-, hx⟩
    · exact hclock
    · exact (h.sound.stamp hx).trans (hstamp.le.trans hclock)
  · intro j x k hx hne
    rw [hslots] at hx
    rcases getElem?_set_cases hx with ⟨rfl, rfl⟩ | ⟨-, hx⟩
    · exact hkeys k hne
    · exact h.sound.keys hx hne
  · intro sid' j x hx
    rcases howner hx with ⟨rfl, -, rfl⟩ | ⟨hne, -, hx⟩
    · exact AList.lookup_insert m
    · rw [AList.lookup_insert_ne hne, h.values hx]
  · intro sid' hfind
    have hne : sid' ≠ sid := by
      rintro rfl
      exact Overlay.find_none hfind i s hself
    rw [AList.lookup_insert_ne hne]
    refine h.absent ?_
    cases hfind' : o.find sid' with
    | none => rfl
    | some j =>
      obtain ⟨x, hx⟩ := Overlay.find_some hfind'
      refine absurd (owns_of_ne hslots ?_ hx) (Overlay.find_none hfind j x)
      rintro rfl
      cases hx.slot.symm.trans hold
      rcases hfree with ⟨hunused, -⟩ | hown
      · rw [(Slot.owns_iff.mp hx.owns).1] at hunused
        cases hunused
      · exact hne ((Slot.owns_iff.mp hx.owns).2.symm.trans (Slot.owns_iff.mp hown.owns).2)
  · have hused : s.used = true := (Slot.owns_iff.mp howns).1
    have hcountP := countP_set_add hold Slot.used s
    rw [AList.keys_insert, List.length_cons, hslots]
    simp only [hused, Bool.toNat_true] at hcountP
    rcases hfree with ⟨hunused, hfind⟩ | hown
    · have hmem : sid ∉ m.keys := by
        rw [← AList.mem_keys, h.mem_iff]
        rintro ⟨j, x, hx⟩
        exact Overlay.find_none hfind j x hx
      rw [List.erase_of_not_mem hmem, h.size]
      simp only [hunused, Bool.toNat_false] at hcountP
      omega
    · have hmem : sid ∈ m.keys := AList.mem_keys.mp (h.mem_iff.mpr ⟨i, old, hown⟩)
      have hpos := List.length_pos_of_mem hmem
      rw [List.length_erase_of_mem hmem]
      simp only [(Slot.owns_iff.mp hown.owns).1, Bool.toNat_true] at hcountP
      rw [h.size] at hpos ⊢
      omega
  · rw [AList.keys_insert]
    refine List.pairwise_cons.mpr ⟨?_, ?_⟩
    · intro sid' hmem j j' x x' hx hx'
      have hne : sid' ≠ sid := ((m.keys_nodup.mem_erase_iff).mp hmem).1
      rcases howner hx with ⟨-, -, rfl⟩ | ⟨hne', -, -⟩
      · rcases howner hx' with ⟨heq, -, -⟩ | ⟨-, -, hx'⟩
        · exact absurd heq hne
        · exact lt_of_le_of_lt (h.sound.stamp hx'.slot) hstamp
      · exact absurd rfl hne'
    · refine (h.recent.sublist List.erase_sublist).imp_of_mem ?_
      intro a b ha hb hlt j j' x x' hx hx'
      have hna := ((m.keys_nodup.mem_erase_iff).mp ha).1
      have hnb := ((m.keys_nodup.mem_erase_iff).mp hb).1
      rcases howner hx with ⟨heq, -, -⟩ | ⟨-, -, hx⟩
      · exact absurd heq hna
      · rcases howner hx' with ⟨heq, -, -⟩ | ⟨-, -, hx'⟩
        · exact absurd heq hnb
        · exact hlt hx hx'

/-! ### The operations -/

theorem oldest_some {slots : List Slot} (h : oldest slots = some (i, s)) :
    slots[i]? = some s ∧ ∀ x ∈ slots, s.touched ≤ x.touched := by
  induction slots generalizing i s with
  | nil => cases h
  | cons a slots ih =>
    rw [oldest] at h
    cases hrest : oldest slots with
    | none =>
      rw [hrest] at h
      cases h
      cases slots with
      | nil => exact ⟨rfl, fun x hx => by rw [List.mem_singleton.mp hx]⟩
      | cons b slots =>
        rw [oldest] at hrest
        split at hrest
        · cases hrest
        · split_ifs at hrest
    | some best =>
      obtain ⟨j, b⟩ := best
      obtain ⟨hget, hleast⟩ := ih hrest
      rw [hrest] at h
      dsimp only at h
      split_ifs at h with hlt
      · cases h
        refine ⟨hget, ?_⟩
        rintro x (_ | ⟨_, hx⟩)
        · exact hlt.le
        · exact hleast x hx
      · cases h
        refine ⟨rfl, ?_⟩
        rintro x (_ | ⟨_, hx⟩)
        · exact le_rfl
        · exact (not_lt.mp hlt).trans (hleast x hx)

theorem oldest_isSome {slots : List Slot} (h : 0 < slots.length) : (oldest slots).isSome = true := by
  cases slots with
  | nil => cases h
  | cons a slots =>
    rw [oldest]
    split
    · rfl
    · split_ifs <;> rfl

theorem touch_slots (hslot : o.slots[i]? = some s) (f : Overrides → Overrides) :
    (o.touch i f).slots = o.slots.set i { s with touched := o.clock + 1, values := f s.values } := by
  refine List.ext_getElem? fun j => ?_
  obtain ⟨hlt, -⟩ := List.getElem?_eq_some_iff.mp hslot
  rw [Overlay.touch, List.getElem?_modify, List.getElem?_set]
  by_cases heq : i = j
  · subst heq
    rw [if_pos rfl, if_pos hlt, hslot]
    simp
  · rw [if_neg heq]
    simp [heq]

/-- A session that has a slot moves to the front. -/
theorem Stands.touch (h : Stands o m) (hs : o.Owns sid i s) {f : Overrides → Overrides}
    (hf : ∀ k, f s.values k ≠ none → k.row.sessionOk = true) : Stands (o.touch i f) (m.insert sid (f s.values)) := by
  have hcount := countP_set_add hs.slot Slot.used { s with touched := o.clock + 1, values := f s.values }
  refine h.fill (s := { s with touched := o.clock + 1, values := f s.values }) hs.slot (.inr hs) hs.owns
    (touch_slots hs.slot f) ?_ (Nat.lt_succ_self _) le_rfl hf
  rw [touch_slots hs.slot f]
  exact h.sound.count.trans (Nat.add_right_cancel hcount).symm

/-- With every slot in use, the slot with the least stamp is that of the last session. -/
theorem Stands.getLast (h : Stands o m) (hused : ∀ x ∈ o.slots, x.used = true) (hold : oldest o.slots = some (i, s)) :
    m.keys.getLast? = some s.sessionId := by
  obtain ⟨hslot, hleast⟩ := oldest_some hold
  have hs : o.Owns s.sessionId i s := ⟨hslot, Slot.owns_iff.mpr ⟨hused s (List.mem_of_getElem? hslot), rfl⟩⟩
  have hmem : s.sessionId ∈ m.keys := AList.mem_keys.mp (h.mem_iff.mpr ⟨i, s, hs⟩)
  obtain ⟨init, last, hkeys⟩ := List.eq_nil_or_concat m.keys |>.resolve_left (List.ne_nil_of_mem hmem)
  have hrecent := h.recent
  rw [List.concat_eq_append] at hkeys
  rw [hkeys] at hmem hrecent ⊢
  rw [List.getLast?_concat, Option.some.injEq]
  rcases List.mem_append.mp hmem with hin | hin
  · obtain ⟨j, x, hx⟩ := h.mem_iff.mp (AList.mem_keys.mpr (show last ∈ m.keys by rw [hkeys]; simp))
    have hlt := (List.pairwise_append.mp hrecent).2.2 _ hin last (List.mem_singleton.mpr rfl) hs hx
    exact absurd (hleast x (List.mem_of_getElem? hx.slot)) (not_le.mpr hlt)
  · exact (List.mem_singleton.mp hin).symm

/-- The new slot of a session that had none, in one store. -/
theorem touch_set {slots : List Slot} {new : Slot} {count clock : ℕ} (hlt : i < slots.length) (f : Overrides → Overrides) :
    (Overlay.touch ⟨slots.set i new, count, clock⟩ i f).slots =
      slots.set i { new with touched := clock + 1, values := f new.values } := by
  rw [touch_slots (List.getElem?_set_self hlt), List.set_set]

/-- A session that stores an override. -/
theorem Stands.put (h : Stands o m) (sid : UInt64) {f : Overrides → Overrides}
    (hf : ∀ values, (∀ k, values k ≠ none → k.row.sessionOk = true) → ∀ k, f values k ≠ none → k.row.sessionOk = true) :
    ∃ o' i, o.newEntry sid = some (o', i) ∧ Stands (o'.touch i f) (m.put sid (f ((m.lookup sid).getD noOverrides))) := by
  have hnone : ∀ k, noOverrides k ≠ none → k.row.sessionOk = true := fun k hk => absurd rfl hk
  rw [Overlay.newEntry, Sessions.put]
  cases hfind : o.find sid with
  | some i =>
    obtain ⟨s, hs⟩ := Overlay.find_some hfind
    rw [if_pos (.inl (h.mem_iff.mpr ⟨i, s, hs⟩)), h.values hs, Option.getD_some]
    exact ⟨o, i, rfl, h.touch hs (hf s.values fun k => h.sound.keys hs.slot)⟩
  | none =>
    have hmem : sid ∉ m := fun hmem => by
      obtain ⟨i, s, hs⟩ := h.mem_iff.mp hmem
      exact Overlay.find_none hfind i s hs
    have howns (values : Overrides) (stamp : ℕ) : Slot.owns sid ⟨sid, true, stamp, values⟩ = true :=
      Slot.owns_iff.mpr ⟨rfl, rfl⟩
    rw [h.absent hfind, Option.getD_none]
    dsimp only
    cases hfree : o.slots.findIdx? fun s => !s.used with
    | some i =>
      obtain ⟨hlt, hunused, -⟩ := List.findIdx?_eq_some_iff_getElem.mp hfree
      have hslot : o.slots[i]? = some o.slots[i] := List.getElem?_eq_getElem hlt
      have hunused' : o.slots[i].used = false := by simpa using hunused
      have hcount := countP_set_add hslot Slot.used ⟨sid, true, o.clock + 1, f noOverrides⟩
      have hroom : m.keys.length < cfgMaxSessions := by
        have hle : (o.slots.set i ⟨sid, true, o.clock + 1, f noOverrides⟩).countP Slot.used ≤ o.slots.length :=
          List.countP_le_length.trans_eq (List.length_set)
        rw [h.size, ← h.sound.length]
        simp only [hunused', Bool.toNat_false, Bool.toNat_true] at hcount
        omega
      rw [if_pos (.inr hroom)]
      refine ⟨_, i, rfl, ?_⟩
      refine h.fill (s := ⟨sid, true, o.clock + 1, f noOverrides⟩) hslot (.inl ⟨hunused', hfind⟩) (howns _ _)
        (touch_set hlt f) ?_ (Nat.lt_succ_self _) le_rfl (hf noOverrides hnone)
      rw [touch_set hlt f]
      simp only [hunused', Bool.toNat_false, Bool.toNat_true] at hcount
      exact (congrArg (· + 1) h.sound.count).trans hcount.symm
    | none =>
      have hused : ∀ x ∈ o.slots, x.used = true := by
        rw [List.findIdx?_eq_none_iff] at hfree
        intro x hx
        simpa using hfree x hx
      have hfull : ¬ (sid ∈ m ∨ m.keys.length < cfgMaxSessions) := by
        rw [not_or, h.size, List.countP_eq_length.mpr hused, h.sound.length]
        exact ⟨hmem, lt_irrefl _⟩
      obtain ⟨⟨i, s⟩, hold⟩ := Option.isSome_iff_exists.mp
        (@oldest_isSome o.slots (by rw [h.sound.length]; decide))
      rw [if_neg hfull, h.getLast hused hold, hold, Option.map_some]
      refine ⟨_, i, rfl, ?_⟩
      -- the last session gives its slot up, and the new one fills it
      have hslot := (oldest_some hold).1
      have hlt := (List.getElem?_eq_some_iff.mp hslot).1
      have hsused := hused s (List.mem_of_getElem? hslot)
      have hs : o.Owns s.sessionId i s := ⟨hslot, Slot.owns_iff.mpr ⟨hsused, rfl⟩⟩
      have hfreed : Stands ⟨o.slots.set i s.free, (o.slots.set i s.free).countP Slot.used, o.clock⟩
          (m.erase s.sessionId) := h.free hs rfl rfl le_rfl
      have hfind' : (⟨o.slots.set i s.free, (o.slots.set i s.free).countP Slot.used, o.clock⟩ : Overlay).find sid = none := by
        rw [Overlay.find, List.findIdx?_eq_none_iff] at hfind ⊢
        intro x hx
        rcases mem_of_mem_set hx with hx | rfl
        · exact hfind x hx
        · rfl
      have hcount := countP_set_add hslot Slot.used ⟨sid, s.used, o.clock + 1 + 1, f noOverrides⟩
      refine hfreed.fill (s := ⟨sid, s.used, o.clock + 1 + 1, f noOverrides⟩) (List.getElem?_set_self hlt)
        (.inl ⟨rfl, hfind'⟩) (Slot.owns_iff.mpr ⟨hsused, rfl⟩) ?_ ?_ (by dsimp only; omega) le_rfl (hf noOverrides hnone)
      · rw [touch_set hlt f, List.set_set]
      · rw [touch_set hlt f]
        exact h.sound.count.trans (Nat.add_right_cancel hcount).symm

theorem validateValue_cases (k : CfgRow) (value : Option Bytes) :
    (∃ reason, validateValue k value = .error reason) ∨ validateValue k value = .ok () := by
  cases validateValue k value with
  | error reason => exact .inl ⟨reason, rfl⟩
  | ok u => exact .inr rfl

theorem update_keys {k : CfgKey} (hk : k.row.sessionOk = true) (v : Option Bytes) (values : Overrides)
    (hvalues : ∀ k, values k ≠ none → k.row.sessionOk = true) :
    ∀ k', Function.update values k v k' ≠ none → k'.row.sessionOk = true := by
  intro k' hne
  by_cases heq : k' = k
  · rwa [heq]
  · rw [Function.update_of_ne heq] at hne
    exact hvalues k' hne

/-- A set call stores, unsets, or is refused and changes nothing. -/
theorem Stands.set (h : Stands o m) (sid : UInt64) (name value : Option Bytes) (mallocOk : Bool) :
    Stands (setValue o sid name value mallocOk).1 (m.step (.set sid name value mallocOk)) ∧
      ((setValue o sid name value mallocOk).2.isOk = true ↔ (storedBy name value mallocOk).isSome = true) := by
  rw [setValue, Sessions.step, storedBy]
  cases hkey : keyByName name with
  | none => exact ⟨h, iff_of_false nofun nofun⟩
  | some k =>
    rw [Option.bind_some]
    dsimp only
    by_cases hk : k.row.sessionOk = false
    · rw [if_pos hk, if_neg (by simp [hk])]
      exact ⟨h, iff_of_false nofun nofun⟩
    rw [if_neg hk]
    have hk' : k.row.sessionOk = true := by simpa using hk
    rcases validateValue_cases k.row value with ⟨reason, hvalid⟩ | hvalid
    · rw [hvalid, if_neg (by simp [Except.isOk, Except.toBool])]
      exact ⟨h, iff_of_false nofun nofun⟩
    rw [hvalid]
    dsimp only
    cases hvalue : nonEmpty value with
    | none =>
      rw [if_pos (by simp [hk', Except.isOk, Except.toBool])]
      dsimp only
      cases hfind : o.find sid with
      | none =>
        rw [h.absent hfind]
        exact ⟨h, iff_of_true rfl rfl⟩
      | some i =>
        obtain ⟨s, hs⟩ := Overlay.find_some hfind
        have htouch := h.touch hs (f := fun values => Function.update values k none)
          (update_keys hk' none s.values fun k => h.sound.keys hs.slot)
        rw [h.values hs]
        exact ⟨htouch, iff_of_true rfl rfl⟩
    | some v =>
      dsimp only
      by_cases hmalloc : mallocOk = false
      · rw [if_pos hmalloc, if_neg (by simp [hmalloc])]
        exact ⟨h, iff_of_false nofun nofun⟩
      · obtain ⟨o', i, hnew, hput⟩ := h.put sid (f := fun values => Function.update values k (some v))
          fun values hvalues => update_keys hk' (some v) values hvalues
        rw [if_neg hmalloc, hnew, if_pos (by simp [hk', hmalloc, Except.isOk, Except.toBool])]
        exact ⟨hput, iff_of_true rfl rfl⟩

/-- A lookup finds what the map holds. -/
theorem Stands.lookup (h : Stands o m) (sid : UInt64) (name : Option Bytes) (outcap : ℕ) :
    Stands (lookupStr o sid name outcap).1 (m.step (.lookup sid name outcap)) ∧
      (lookupStr o sid name outcap).2 =
        ((keyByName name).bind fun k => (m.lookup sid).bind fun values => values k).map (List.take (outcap - 1)) := by
  rw [lookupStr, Sessions.step]
  cases hkey : keyByName name with
  | none => exact ⟨h, rfl⟩
  | some k =>
    rw [Option.bind_some]
    dsimp only
    cases hfind : o.find sid with
    | none =>
      rw [h.absent hfind]
      exact ⟨h, rfl⟩
    | some i =>
      obtain ⟨s, hs⟩ := Overlay.find_some hfind
      rw [h.values hs]
      dsimp only
      rw [hs.slot, Option.bind_some, Option.bind_some]
      cases hv : s.values k with
      | none => exact ⟨h, rfl⟩
      | some v => exact ⟨h.touch hs fun k => h.sound.keys hs.slot, rfl⟩

/-- A reset gives up the slot, if there is one. -/
theorem Stands.reset (h : Stands o m) (sid : UInt64) : Stands (resetSession o sid).1 (m.erase sid) := by
  cases hfind : o.find sid with
  | none =>
    have hnone : ∀ s ∈ o.slots, s.owns sid = false := by simpa [Overlay.find] using hfind
    have hslots : (o.slots.map fun s => if s.owns sid then s.free else s) = o.slots := by
      conv_rhs => rw [← List.map_id o.slots]
      exact List.map_congr_left fun s hs => by simp [hnone s hs]
    have hcount : o.slots.countP (Slot.owns sid) = 0 := by
      rw [List.countP_eq_zero]
      intro s hs
      simp [hnone s hs]
    have herase : m.erase sid = m := by
      refine AList.ext (List.kerase_of_notMem_keys ?_)
      exact fun hmem => by
        obtain ⟨i, s, hs⟩ := h.mem_iff.mp (AList.mem_keys.mpr hmem)
        exact Overlay.find_none hfind i s hs
    rw [resetSession, hslots, hcount, herase]
    exact h
  | some i =>
    obtain ⟨s, hs⟩ := Overlay.find_some hfind
    have hslots : (o.slots.map fun s => if s.owns sid then s.free else s) = o.slots.set i s.free := by
      refine List.ext_getElem? fun j => ?_
      rw [List.getElem?_map, List.getElem?_set]
      by_cases heq : i = j
      · subst heq
        rw [if_pos rfl, if_pos (List.getElem?_eq_some_iff.mp hs.slot).1, hs.slot, Option.map_some, if_pos hs.owns]
      · rw [if_neg heq]
        cases hslot : o.slots[j]? with
        | none => rfl
        | some x =>
          rw [Option.map_some, if_neg]
          exact fun howns => heq (h.sound.one hs ⟨hslot, howns⟩)
    have hnone : (o.slots.set i s.free).countP (Slot.owns sid) = 0 := by
      rw [List.countP_eq_zero]
      intro x hx howns
      obtain ⟨j, hj⟩ := List.getElem?_of_mem hx
      rcases getElem?_set_cases hj with ⟨-, rfl⟩ | ⟨hne, hj⟩
      · cases howns
      · exact hne (h.sound.one ⟨hj, howns⟩ hs)
    have howned := countP_set_add hs.slot (Slot.owns sid) s.free
    have hused := countP_set_add hs.slot Slot.used s.free
    have hcount := h.sound.count
    rw [hnone, hs.owns, Bool.toNat_true, show s.free.owns sid = false from rfl, Bool.toNat_false] at howned
    rw [(Slot.owns_iff.mp hs.owns).1, Bool.toNat_true, show s.free.used = false from rfl, Bool.toNat_false] at hused
    rw [resetSession, hslots]
    refine h.free hs rfl ?_ le_rfl
    dsimp only
    omega

theorem Stands.step (h : Stands o m) (op : OverlayOp) : Stands (o.step op) (m.step op) := by
  cases op with
  | set sid name value mallocOk => exact (h.set sid name value mallocOk).1
  | lookup sid name outcap => exact (h.lookup sid name outcap).1
  | json sid allocOk => exact h
  | reset sid => exact h.reset sid

end Stands

/-! ### Runs -/

/-- The session that a call takes the slot of: the last one of a full map. -/
def Sessions.victim (m : Sessions) : OverlayOp → Option UInt64
  | .set sid name value mallocOk =>
    match storedBy name value mallocOk with
    | some (_, some _) => if sid ∈ m ∨ m.keys.length < cfgMaxSessions then none else m.keys.getLast?
    | _ => none
  | _ => none

/-- The call sets or unsets the key, resets the session, or takes its slot. -/
def Sessions.Forgets (m : Sessions) (sid : UInt64) (k : CfgKey) : OverlayOp → Prop
  | .set sid' name value mallocOk =>
    (sid' = sid ∧ (storedBy name value mallocOk).map Prod.fst = some k) ∨
      m.victim (.set sid' name value mallocOk) = some sid
  | .reset sid' => sid' = sid
  | _ => False

/-- No call of a run forgets the override. -/
def Sessions.Keeps (sid : UInt64) (k : CfgKey) : Sessions → List OverlayOp → Prop
  | _, [] => True
  | m, op :: ops => ¬ m.Forgets sid k op ∧ (m.step op).Keeps sid k ops

section Map
variable {m : Sessions} {sid : UInt64}

theorem lookup_put (m : Sessions) (sid : UInt64) (values : Overrides) : (m.put sid values).lookup sid = some values := by
  rw [Sessions.put]
  split
  · exact AList.lookup_insert m
  · split <;> exact AList.lookup_insert _

theorem lookup_put_ne {sid' : UInt64} (hne : sid' ≠ sid) (values : Overrides) :
    (m.put sid values).lookup sid' =
      if (if sid ∈ m ∨ m.keys.length < cfgMaxSessions then none else m.keys.getLast?) = some sid' then none
      else m.lookup sid' := by
  rw [Sessions.put]
  by_cases hroom : sid ∈ m ∨ m.keys.length < cfgMaxSessions
  · rw [if_pos hroom, if_pos hroom, if_neg nofun, AList.lookup_insert_ne hne]
  · rw [if_neg hroom, if_neg hroom]
    cases hlast : m.keys.getLast? with
    | none => rw [if_neg nofun, AList.lookup_insert_ne hne]
    | some last =>
      dsimp only
      rw [AList.lookup_insert_ne hne]
      by_cases heq : last = sid'
      · rw [heq, if_pos rfl, AList.lookup_erase]
      · rw [if_neg (fun h => heq (Option.some.inj h)), AList.lookup_erase_ne (Ne.symm heq)]

/-- What a call does to the overrides of another session. -/
theorem lookup_step_ne (op : OverlayOp) (hne : sid ≠ op.session) :
    (m.step op).lookup sid = if m.victim op = some sid then none else m.lookup sid := by
  cases op with
  | set sid' name value mallocOk =>
    rw [OverlayOp.session] at hne
    rcases hstored : storedBy name value mallocOk with _ | ⟨k, _ | v⟩
    · simp [Sessions.step, Sessions.victim, hstored]
    · simp only [Sessions.step, Sessions.victim, hstored, reduceCtorEq, if_false]
      cases hlookup : m.lookup sid' with
      | none => rfl
      | some values => exact AList.lookup_insert_ne hne
    · simp only [Sessions.step, Sessions.victim, hstored]
      exact lookup_put_ne hne _
  | lookup sid' name outcap =>
    rw [OverlayOp.session] at hne
    simp only [Sessions.step, Sessions.victim, reduceCtorEq, if_false]
    split
    · split_ifs
      · exact AList.lookup_insert_ne hne
      · rfl
    · rfl
  | json sid' allocOk => rfl
  | reset sid' => exact AList.lookup_erase_ne hne

/-- An override stays under a call that does not forget it. -/
theorem override_step {k : CfgKey} {v : Bytes} (h : ((m.lookup sid).bind fun values => values k) = some v)
    {op : OverlayOp} (hop : ¬ m.Forgets sid k op) :
    (((m.step op).lookup sid).bind fun values => values k) = some v := by
  by_cases hne : sid ≠ op.session
  · have hvictim : m.victim op ≠ some sid := by
      cases op with
      | set sid' name value mallocOk => exact fun hv => hop (.inr hv)
      | _ => simp [Sessions.victim]
    rwa [lookup_step_ne op hne, if_neg hvictim]
  rw [not_not] at hne
  obtain ⟨values, hvalues, hv⟩ := Option.bind_eq_some_iff.mp h
  cases op with
  | set sid' name value mallocOk =>
    obtain rfl : sid = sid' := hne
    rcases hstored : storedBy name value mallocOk with _ | ⟨k', v'⟩
    · simpa only [Sessions.step, hstored] using h
    have hk : k ≠ k' := fun heq => hop (.inl ⟨rfl, by rw [hstored, heq]; rfl⟩)
    cases v' with
    | none =>
      simp only [Sessions.step, hstored, hvalues]
      rw [AList.lookup_insert, Option.bind_some, Function.update_of_ne hk, hv]
    | some v' =>
      simp only [Sessions.step, hstored, hvalues, Option.getD_some]
      rw [lookup_put, Option.bind_some, Function.update_of_ne hk, hv]
  | lookup sid' name outcap =>
    obtain rfl : sid = sid' := hne
    rw [Sessions.step, hvalues]
    split
    · rename_i heq
      cases heq
      split_ifs
      · rw [AList.lookup_insert, Option.bind_some, hv]
      · exact h
    · exact h
  | json sid' allocOk => exact h
  | reset sid' => exact absurd hne.symm hop

theorem override_keeps {k : CfgKey} {v : Bytes} {ops : List OverlayOp}
    (h : ((m.lookup sid).bind fun values => values k) = some v) (hops : m.Keeps sid k ops) :
    (((ops.foldl Sessions.step m).lookup sid).bind fun values => values k) = some v := by
  induction ops generalizing m with
  | nil => exact h
  | cons op ops ih => exact ih (override_step h hops.1) hops.2

end Map

theorem stands_run {o : Overlay} {m : Sessions} (h : Stands o m) (ops : List OverlayOp) :
    Stands (ops.foldl Overlay.step o) (ops.foldl Sessions.step m) := by
  induction ops generalizing o m with
  | nil => exact h
  | cons op ops ih => exact ih (h.step op)

/-- A set call that is not refused stores its value. -/
theorem Stands.found_after_set {o : Overlay} {m : Sessions} (h : Stands o m) {sid : UInt64} {name value : Option Bytes}
    {mallocOk : Bool} {k : CfgKey} {v : Bytes} (hok : (setValue o sid name value mallocOk).2.isOk = true)
    (hkey : keyByName name = some k) (hvalue : nonEmpty value = some v) :
    (((m.step (.set sid name value mallocOk)).lookup sid).bind fun values => values k) = some v := by
  have hstored : storedBy name value mallocOk = some (k, some v) := by
    have hsome := (h.set sid name value mallocOk).2.mp hok
    rw [storedBy, hkey, Option.bind_some] at hsome ⊢
    split_ifs at hsome ⊢ with hvalid
    · rw [hvalue]
    · cases hsome
  simp only [Sessions.step, hstored]
  rw [lookup_put, Option.bind_some, Function.update_self]

/-- After every run of calls the table is a bounded map from sessions to overrides: one slot
for each session, the slots counted, no key stored that a session may not set; a call changes
no other session's overrides, except that a new session takes the slot of the one touched
longest ago; and what a set call stored is found until a call forgets it. -/
theorem overlay_map (ops : List OverlayOp) :
    let o := ops.foldl Overlay.step {}
    let m := ops.foldl Sessions.step ∅
    (∀ sid i j s s', o.Owns sid i s → o.Owns sid j s' → i = j) ∧ o.count = o.slots.countP Slot.used ∧
      (∀ (i : ℕ) (s : Slot) (k : CfgKey), o.slots[i]? = some s → s.values k ≠ none → k.row.sessionOk = true) ∧
      (∀ sid, o.overrides sid = (m.lookup sid).getD noOverrides) ∧
      (∀ op sid, sid ≠ op.session →
        (o.step op).overrides sid = if m.victim op = some sid then noOverrides else o.overrides sid) ∧
      ∀ sid name value mallocOk k v later, (setValue o sid name value mallocOk).2.isOk = true → keyByName name = some k →
        nonEmpty value = some v → (m.step (.set sid name value mallocOk)).Keeps sid k later → ∀ name' outcap,
          keyByName name' = some k →
            (lookupStr (later.foldl Overlay.step (setValue o sid name value mallocOk).1) sid name' outcap).2 =
              some (v.take (outcap - 1)) := by
  intro o m
  have h : Stands o m := stands_run .empty ops
  refine ⟨fun _ _ _ _ _ => h.sound.one, h.sound.count, fun _ _ _ => h.sound.keys, h.overrides, ?_, ?_⟩
  · intro op sid hne
    rw [(h.step op).overrides, lookup_step_ne op hne, h.overrides]
    split_ifs <;> rfl
  · intro sid name value mallocOk k v later hok hkey hvalue hkeeps name' outcap hkey'
    have hset := (h.set sid name value mallocOk).1
    have hfound := h.found_after_set hok hkey hvalue
    rw [((stands_run hset later).lookup sid name' outcap).2, hkey', Option.bind_some, override_keeps hfound hkeeps,
      Option.map_some]

end FractalSQL.Session
