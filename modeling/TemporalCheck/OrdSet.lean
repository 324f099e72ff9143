/-!
# Finite sets as strictly ascending lists

The order of a set is part of what the checker shows, so a set is the ascending
list of its members. Two sets with the same members are then equal, and the
first member is the smallest one.
-/

namespace TemporalCheck

universe u

def Ascending {α : Type u} [Ord α] (l : List α) : Prop :=
  l.Pairwise fun a b => compare a b = .lt

theorem ascending_nil {α : Type u} [Ord α] : Ascending ([] : List α) := List.Pairwise.nil

structure OrdSet (α : Type u) [Ord α] where
  toList : List α
  ascending : Ascending toList

namespace OrdSet

section Order

variable {α : Type u} [Ord α]

theorem ext_toList {s t : OrdSet α} (h : s.toList = t.toList) : s = t := by
  cases s; cases t; cases h; rfl

instance [DecidableEq α] : DecidableEq (OrdSet α) := fun s t =>
  decidable_of_iff (s.toList = t.toList) ⟨ext_toList, congrArg toList⟩

instance : Membership α (OrdSet α) := ⟨fun s a => a ∈ s.toList⟩

theorem mem_def {a : α} {s : OrdSet α} : a ∈ s ↔ a ∈ s.toList := Iff.rfl

def contains (s : OrdSet α) (a : α) : Bool := s.toList.any fun b => compare a b == .eq

def empty : OrdSet α := ⟨[], ascending_nil⟩

instance : Inhabited (OrdSet α) := ⟨empty⟩

def singleton (a : α) : OrdSet α := ⟨[a], List.pairwise_singleton _ _⟩

def isEmpty (s : OrdSet α) : Bool := s.toList.isEmpty

def size (s : OrdSet α) : Nat := s.toList.length

def min? (s : OrdSet α) : Option α := s.toList.head?

def filter (s : OrdSet α) (p : α → Bool) : OrdSet α :=
  ⟨s.toList.filter p, List.Pairwise.filter p s.ascending⟩

def erase (s : OrdSet α) (a : α) : OrdSet α := s.filter fun b => compare a b != .eq

def inter (s t : OrdSet α) : OrdSet α := s.filter t.contains

def diff (s t : OrdSet α) : OrdSet α := s.filter fun a => !t.contains a

def Subset (s t : OrdSet α) : Prop := ∀ a, a ∈ s → a ∈ t

instance : Ord (OrdSet α) := ⟨fun s t => compare s.toList t.toList⟩

@[simp] theorem not_mem_empty (a : α) : a ∉ (empty : OrdSet α) := List.not_mem_nil

@[simp] theorem mem_singleton {a b : α} : a ∈ singleton b ↔ a = b := List.mem_singleton

@[simp] theorem mem_filter {a : α} {s : OrdSet α} {p : α → Bool} :
    a ∈ s.filter p ↔ a ∈ s ∧ p a = true := List.mem_filter

theorem isEmpty_iff {s : OrdSet α} : s.isEmpty = true ↔ ∀ a, a ∉ s := by
  simp [isEmpty, mem_def, List.isEmpty_iff, List.eq_nil_iff_forall_not_mem]

theorem isEmpty_eq_false_iff {s : OrdSet α} : s.isEmpty = false ↔ ∃ a, a ∈ s := by
  rw [← Bool.not_eq_true, isEmpty_iff]
  simp

end Order

section Lawful

variable {α : Type u} [Ord α] [Std.LawfulEqOrd α]

@[simp] theorem contains_iff {s : OrdSet α} {a : α} : s.contains a = true ↔ a ∈ s := by
  simp [contains, mem_def]

instance (a : α) (s : OrdSet α) : Decidable (a ∈ s) :=
  decidable_of_iff (s.contains a = true) contains_iff

@[simp] theorem mem_erase {s : OrdSet α} {a b : α} : b ∈ s.erase a ↔ b ∈ s ∧ b ≠ a := by
  simp only [erase, mem_filter, bne_iff_ne, ne_eq, Std.LawfulEqOrd.compare_eq_iff_eq]
  exact and_congr_right fun _ => not_congr eq_comm

@[simp] theorem mem_inter {s t : OrdSet α} {a : α} : a ∈ s.inter t ↔ a ∈ s ∧ a ∈ t := by
  simp [inter]

@[simp] theorem mem_diff {s t : OrdSet α} {a : α} : a ∈ s.diff t ↔ a ∈ s ∧ a ∉ t := by
  rw [diff, mem_filter, Bool.not_eq_true', ← Bool.not_eq_true, contains_iff]

theorem nodup_toList (s : OrdSet α) : s.toList.Nodup :=
  s.ascending.imp fun {a b} h e => by
    subst e
    simp at h

theorem least_of_min? {s : OrdSet α} {a : α} (h : s.min? = some a) :
    a ∈ s ∧ ∀ b ∈ s, (compare a b).isLE = true := by
  obtain ⟨rest, hl⟩ := List.head?_eq_some_iff.1 h
  have hasc := s.ascending
  rw [hl] at hasc
  constructor
  · rw [mem_def, hl]
    exact List.mem_cons_self
  · intro b hb
    rw [mem_def, hl] at hb
    rcases List.mem_cons.1 hb with rfl | hb
    · rw [Std.ReflOrd.compare_self]
      rfl
    · rw [List.rel_of_pairwise_cons hasc hb]
      rfl

def insertInto (a : α) : List α → List α
  | [] => [a]
  | b :: l => match compare a b with
    | .lt => a :: b :: l
    | .eq => b :: l
    | .gt => b :: insertInto a l

theorem mem_insertInto {a b : α} {l : List α} : b ∈ insertInto a l ↔ b = a ∨ b ∈ l := by
  induction l with
  | nil => simp [insertInto]
  | cons c l ih =>
    rw [insertInto]
    split
    · simp
    · next h =>
      rw [Std.LawfulEqCmp.eq_of_compare h]
      simp
    · simp only [List.mem_cons, ih]
      exact or_left_comm

variable [Std.TransOrd α]

instance : Std.TransOrd (OrdSet α) where
  eq_swap := Std.OrientedOrd.eq_swap (α := List α)
  isLE_trans := Std.TransOrd.isLE_trans (α := List α)

instance : Std.LawfulEqOrd (OrdSet α) where
  compare_self := Std.ReflOrd.compare_self (α := List α)
  eq_of_compare h := ext_toList (Std.LawfulEqOrd.eq_of_compare h)

theorem ascending_insertInto {a : α} {l : List α} (h : Ascending l) :
    Ascending (insertInto a l) := by
  induction l with
  | nil => exact List.pairwise_singleton _ _
  | cons c l ih =>
    obtain ⟨hc, hl⟩ := List.pairwise_cons.1 h
    rw [insertInto]
    split
    · next hac =>
      refine List.pairwise_cons.2 ⟨fun b hb => ?_, h⟩
      rcases List.mem_cons.1 hb with rfl | hb
      · exact hac
      · exact Std.TransCmp.lt_trans hac (hc b hb)
    · exact h
    · next hac =>
      refine List.pairwise_cons.2 ⟨fun b hb => ?_, ih hl⟩
      rcases mem_insertInto.1 hb with rfl | hb
      · exact Std.OrientedCmp.gt_iff_lt.1 hac
      · exact hc b hb

def insert (s : OrdSet α) (a : α) : OrdSet α :=
  ⟨insertInto a s.toList, ascending_insertInto s.ascending⟩

def ofList (l : List α) : OrdSet α := l.foldr (fun a s => s.insert a) empty

def union (s t : OrdSet α) : OrdSet α := s.toList.foldr (fun a r => r.insert a) t

@[simp] theorem mem_insert {s : OrdSet α} {a b : α} : b ∈ s.insert a ↔ b = a ∨ b ∈ s :=
  mem_insertInto

@[simp] theorem mem_ofList {l : List α} {a : α} : a ∈ ofList l ↔ a ∈ l := by
  induction l with
  | nil => simp [ofList]
  | cons b l ih => rw [ofList, List.foldr_cons, mem_insert, ← ofList, ih, List.mem_cons]

@[simp] theorem mem_union {s t : OrdSet α} {a : α} : a ∈ s.union t ↔ a ∈ s ∨ a ∈ t := by
  have key (l : List α) : a ∈ l.foldr (fun b r => r.insert b) t ↔ a ∈ l ∨ a ∈ t := by
    induction l with
    | nil => simp
    | cons b l ih => rw [List.foldr_cons, mem_insert, ih, List.mem_cons, or_assoc]
  exact key s.toList

@[ext] theorem ext_mem {s t : OrdSet α} (h : ∀ a, a ∈ s ↔ a ∈ t) : s = t := by
  refine ext_toList (List.Perm.eq_of_pairwise ?_ s.ascending t.ascending ?_)
  · intro a b _ _ hab hba
    exact absurd hba (Std.OrientedCmp.not_lt_of_lt hab)
  · exact (List.perm_ext_iff_of_nodup s.nodup_toList t.nodup_toList).2 h

end Lawful

end OrdSet

end TemporalCheck
