import Mathlib.Data.List.Basic
import Mathlib.Tactic

/-!
# Linked lists in memory

A chain is a first pointer and the pointer that each cell holds. It spells a list of
cells when following the pointers from the first visits them and ends at null. A cell
is put between two others, or taken out, with one store before it; a doubly linked list
is two chains that spell a list and its reverse, so each half of it is such a chain.
-/
namespace FractalSQL.Lib

/-- The pointer that each cell holds; `none` where there is no cell. -/
abbrev Links (α : Type*) := α → Option (Option α)

structure Chain (α : Type*) where
  first : Option α
  link : Links α

variable {α : Type*}

/-- Following the links from `p` visits the cells `as` and then stands at `q`. -/
def Path (link : Links α) : Option α → List α → Option α → Prop
  | p, [], q => p = q
  | p, a :: as, q => p = some a ∧ ∃ s, link a = some s ∧ Path link s as q

@[simp] theorem Path.nil {link : Links α} {p q : Option α} : Path link p [] q ↔ p = q := Iff.rfl

@[simp] theorem Path.cons {link : Links α} {p q : Option α} {a : α} {as : List α} :
    Path link p (a :: as) q ↔ p = some a ∧ ∃ s, link a = some s ∧ Path link s as q := Iff.rfl

theorem Path.append {link : Links α} {p q : Option α} {as bs : List α} :
    Path link p (as ++ bs) q ↔ ∃ s, Path link p as s ∧ Path link s bs q := by
  induction as generalizing p with
  | nil => simp
  | cons a as ih =>
    simp only [List.cons_append, Path.cons, ih]
    constructor
    · rintro ⟨hp, t, ht, s, has, hbs⟩
      exact ⟨s, ⟨hp, t, ht, has⟩, hbs⟩
    · rintro ⟨s, ⟨hp, t, ht, has⟩, hbs⟩
      exact ⟨hp, t, ht, s, has, hbs⟩

theorem Path.congr {link link' : Links α} {p q : Option α} {as : List α} (h : Path link p as q)
    (hlink : ∀ a ∈ as, link' a = link a) : Path link' p as q := by
  induction as generalizing p with
  | nil => exact h
  | cons a as ih =>
    obtain ⟨hp, s, hs, htail⟩ := h
    exact ⟨hp, s, (hlink a List.mem_cons_self).trans hs,
      ih htail fun b hb => hlink b (List.mem_cons_of_mem a hb)⟩

/-- The pointers decide the way to null. -/
theorem Path.unique {link : Links α} {p : Option α} {as bs : List α} (h : Path link p as none)
    (h' : Path link p bs none) : as = bs := by
  induction as generalizing p bs with
  | nil =>
    cases bs with
    | nil => rfl
    | cons b bs => exact absurd (h.symm.trans h'.1) nofun
  | cons a as ih =>
    cases bs with
    | nil => exact absurd (h'.symm.trans h.1) nofun
    | cons b bs =>
      obtain ⟨hp, s, hs, htail⟩ := h
      obtain ⟨hp', s', hs', htail'⟩ := h'
      obtain rfl : a = b := Option.some.inj (hp.symm.trans hp')
      obtain rfl : s = s' := Option.some.inj (hs.symm.trans hs')
      rw [ih htail htail']

theorem Path.first {link : Links α} {p : Option α} {as : List α} (h : Path link p as none) : p = as.head? := by
  cases as with
  | nil => exact h
  | cons a as => exact h.1

/-- A way that ends visits no cell twice: from a cell there is one way only. -/
theorem Path.nodup {link : Links α} {p : Option α} {as : List α} (h : Path link p as none) : as.Nodup := by
  induction as generalizing p with
  | nil => exact List.nodup_nil
  | cons a as ih =>
    obtain ⟨hp, s, hs, htail⟩ := h
    refine List.nodup_cons.mpr ⟨fun ha => ?_, ih htail⟩
    obtain ⟨before, after, rfl⟩ := List.append_of_mem ha
    obtain ⟨t, -, hmid⟩ := Path.append.mp htail
    obtain rfl : t = some a := hmid.1
    have hsame := Path.unique (Path.cons.mpr ⟨rfl, s, hs, htail⟩) hmid
    have hlen := congrArg List.length hsame
    simp only [List.length_cons, List.length_append] at hlen
    omega

namespace Chain

/-- The chain visits exactly these cells, in this order. -/
def Spells (c : Chain α) (as : List α) : Prop := Path c.link c.first as none

variable {c : Chain α} {as l r : List α} {a : α}

theorem Spells.unique {bs : List α} (h : c.Spells as) (h' : c.Spells bs) : as = bs := Path.unique h h'

theorem Spells.nodup (h : c.Spells as) : as.Nodup := Path.nodup h

theorem Spells.first (h : c.Spells as) : c.first = as.head? := Path.first h

/-- Each cell points to the one behind it. -/
theorem Spells.link_eq (h : c.Spells (l ++ a :: r)) : c.link a = some r.head? := by
  obtain ⟨p, -, hmid⟩ := Path.append.mp h
  obtain ⟨-, s, hs, htail⟩ := hmid
  rw [hs, htail.first]

theorem Spells.congr {c' : Chain α} (h : c.Spells as) (hfirst : c'.first = c.first)
    (hlink : ∀ a ∈ as, c'.link a = c.link a) : c'.Spells as := by
  rw [Spells, hfirst]
  exact Path.congr h hlink

section Stores
variable [DecidableEq α]

/-- A store of `q` at the pointer that follows the cell `before`, the first one when
there is no such cell. -/
def point (c : Chain α) (before q : Option α) : Chain α :=
  match before with
  | none => { c with first := q }
  | some b => { c with link := Function.update c.link b (some q) }

theorem point_link_of_ne {before q : Option α} {b : α} (h : before ≠ some b) :
    (c.point before q).link b = c.link b := by
  cases before with
  | none => rfl
  | some d => exact Function.update_of_ne (fun hb : b = d => h (congrArg some hb.symm)) _ _

/-- The pointer behind the cells `l` is moved to another way to null. -/
theorem Spells.point {q : Option α} (h : c.Spells (l ++ as)) (hr : Path c.link q r none)
    (hdisj : ∀ b ∈ l, b ∉ r) : (c.point l.getLast? q).Spells (l ++ r) := by
  rcases List.eq_nil_or_concat l with rfl | ⟨l, b, rfl⟩
  · exact hr
  · have hnodup := h.nodup
    rw [List.concat_eq_append, List.append_assoc] at h hnodup
    rw [List.concat_eq_append, List.getLast?_append, List.append_assoc]
    obtain ⟨p, hl, hp, s, -, -⟩ := Path.append.mp h
    have hb : b ∉ l := fun hb => (List.nodup_append.mp hnodup).2.2 b hb b List.mem_cons_self rfl
    refine Path.append.mpr ⟨p, hl.congr fun d hd => ?_, hp, q, Function.update_self .., ?_⟩
    · exact Function.update_of_ne (ne_of_mem_of_not_mem hd hb) _ _
    · have hbr : b ∉ r := hdisj b (by simp)
      exact hr.congr fun d hd => Function.update_of_ne (ne_of_mem_of_not_mem hd hbr) _ _

/-- A cell is taken out: the pointer to it goes to the cell behind it. -/
theorem Spells.delete (h : c.Spells (l ++ a :: r)) : (c.point l.getLast? r.head?).Spells (l ++ r) := by
  obtain ⟨p, -, -, s, -, htail⟩ := Path.append.mp h
  refine Spells.point h (htail.first ▸ htail) fun b hb hbr => ?_
  exact (List.nodup_append.mp h.nodup).2.2 b hb b (List.mem_cons_of_mem a hbr) rfl

/-- A new cell that already points behind is put in: the pointer goes to it. -/
theorem Spells.insert (h : c.Spells (l ++ r)) (ha : a ∉ l ++ r) (hlink : c.link a = some r.head?) :
    (c.point l.getLast? (some a)).Spells (l ++ a :: r) := by
  obtain ⟨p, -, hr⟩ := Path.append.mp h
  refine Spells.point h ⟨rfl, r.head?, hlink, hr.first ▸ hr⟩ fun b hb hbr => ?_
  rcases List.mem_cons.mp hbr with rfl | hbr
  · exact ha (List.mem_append_left r hb)
  · exact (List.nodup_append.mp h.nodup).2.2 b hb b hbr rfl

/-- A store at a cell that the chain does not visit. -/
theorem Spells.store_of_not_mem (h : c.Spells as) (ha : a ∉ as) (q : Option (Option α)) :
    ({ c with link := Function.update c.link a q } : Chain α).Spells as :=
  h.congr rfl fun _ hb => Function.update_of_ne (ne_of_mem_of_not_mem hb ha) _ _

end Stores
end Chain
end FractalSQL.Lib
