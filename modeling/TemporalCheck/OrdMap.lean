import TemporalCheck.OrdSet

/-!
# Finite maps as lists with strictly ascending keys

The view of a map is `get?`: two maps that look up alike are equal.
-/

namespace TemporalCheck

universe u v w

structure OrdMap (κ : Type u) (β : Type v) [Ord κ] where
  toList : List (κ × β)
  ascending : Ascending (toList.map Prod.fst)

namespace OrdMap

variable {κ : Type u} {β : Type v} {γ : Type w} [Ord κ]

theorem ext_toList {m n : OrdMap κ β} (h : m.toList = n.toList) : m = n := by
  cases m; cases n; cases h; rfl

instance [DecidableEq κ] [DecidableEq β] : DecidableEq (OrdMap κ β) := fun m n =>
  decidable_of_iff (m.toList = n.toList) ⟨ext_toList, congrArg toList⟩

def empty : OrdMap κ β := ⟨[], ascending_nil⟩

instance : Inhabited (OrdMap κ β) := ⟨empty⟩

def isEmpty (m : OrdMap κ β) : Bool := m.toList.isEmpty

def size (m : OrdMap κ β) : Nat := m.toList.length

def keys (m : OrdMap κ β) : OrdSet κ := ⟨m.toList.map Prod.fst, m.ascending⟩

def values (m : OrdMap κ β) : List β := m.toList.map Prod.snd

def lookup (k : κ) : List (κ × β) → Option β
  | [] => none
  | (j, b) :: l => if compare k j = .eq then some b else lookup k l

def get? (m : OrdMap κ β) (k : κ) : Option β := lookup k m.toList

def contains (m : OrdMap κ β) (k : κ) : Bool := (m.get? k).isSome

theorem ascending_map_fst_filter {l : List (κ × β)} (p : κ × β → Bool)
    (h : Ascending (l.map Prod.fst)) : Ascending ((l.filter p).map Prod.fst) :=
  List.Pairwise.sublist (List.Sublist.map _ List.filter_sublist) h

def erase (m : OrdMap κ β) (k : κ) : OrdMap κ β :=
  ⟨m.toList.filter fun e => compare k e.1 != .eq, ascending_map_fst_filter _ m.ascending⟩

def mapValues (m : OrdMap κ β) (f : β → γ) : OrdMap κ γ :=
  ⟨m.toList.map fun e => (e.1, f e.2), by
    rw [List.map_map]
    exact m.ascending⟩

@[simp] theorem get?_empty (k : κ) : (empty : OrdMap κ β).get? k = none := rfl

theorem get?_mapValues (m : OrdMap κ β) (f : β → γ) (k : κ) :
    (m.mapValues f).get? k = (m.get? k).map f := by
  have key (l : List (κ × β)) :
      lookup k (l.map fun e => (e.1, f e.2)) = (lookup k l).map f := by
    induction l with
    | nil => rfl
    | cons e l ih =>
      simp only [List.map_cons, lookup, ih]
      split <;> rfl
  exact key m.toList

section Lawful

variable [Std.LawfulEqOrd κ]

theorem get?_erase [DecidableEq κ] (m : OrdMap κ β) (k j : κ) :
    (m.erase k).get? j = if j = k then none else m.get? j := by
  have key (l : List (κ × β)) : lookup j (l.filter fun e => compare k e.1 != .eq) =
      if j = k then none else lookup j l := by
    induction l with
    | nil => simp [lookup]
    | cons e l ih =>
      by_cases hk : k = e.1
      · subst hk
        by_cases hj : j = e.1
        · simpa [lookup, hj] using ih
        · simpa [lookup, hj] using ih
      · by_cases hj : j = k
        · simpa [lookup, hk, hj] using ih
        · simp [lookup, hk, hj, ih]
  exact key m.toList

theorem lookup_eq_some_iff {l : List (κ × β)} (h : Ascending (l.map Prod.fst)) {k : κ} {b : β} :
    lookup k l = some b ↔ (k, b) ∈ l := by
  induction l with
  | nil => simp [lookup]
  | cons e l ih =>
    obtain ⟨he, hl⟩ := List.pairwise_cons.1 h
    rw [lookup, List.mem_cons]
    by_cases hk : k = e.1
    · subst hk
      have absent : (e.1, b) ∉ l := fun hm => by
        have := he e.1 (List.mem_map.2 ⟨_, hm, rfl⟩)
        simp at this
      simp [absent, Prod.ext_iff, eq_comm]
    · have hne : ¬ compare k e.1 = .eq := fun h' => hk (Std.LawfulEqOrd.eq_of_compare h')
      simp [hne, ih hl, Prod.ext_iff, hk]

theorem get?_eq_some_iff {m : OrdMap κ β} {k : κ} {b : β} :
    m.get? k = some b ↔ (k, b) ∈ m.toList :=
  lookup_eq_some_iff m.ascending

theorem contains_iff {m : OrdMap κ β} {k : κ} : m.contains k = true ↔ k ∈ m.keys := by
  rw [contains, Option.isSome_iff_exists]
  simp [get?_eq_some_iff, keys, OrdSet.mem_def]

theorem size_erase_lt {m : OrdMap κ β} {k : κ} (h : m.contains k = true) :
    (m.erase k).size < m.size := by
  obtain ⟨b, hb⟩ := Option.isSome_iff_exists.1 h
  exact List.length_filter_lt_length_iff_exists.2 ⟨(k, b), get?_eq_some_iff.1 hb, by simp⟩

def insertInto (k : κ) (b : β) : List (κ × β) → List (κ × β)
  | [] => [(k, b)]
  | e :: l => match compare k e.1 with
    | .lt => (k, b) :: e :: l
    | .eq => (k, b) :: l
    | .gt => e :: insertInto k b l

theorem map_fst_insertInto (k : κ) (b : β) (l : List (κ × β)) :
    (insertInto k b l).map Prod.fst = OrdSet.insertInto k (l.map Prod.fst) := by
  induction l with
  | nil => rfl
  | cons e l ih =>
    rw [insertInto, List.map_cons, OrdSet.insertInto]
    cases h : compare k e.1
    · rfl
    · simp [Std.LawfulEqOrd.eq_of_compare h]
    · simp [ih]

theorem lookup_insertInto [DecidableEq κ] (k j : κ) (b : β) (l : List (κ × β)) :
    lookup j (insertInto k b l) = if j = k then some b else lookup j l := by
  induction l with
  | nil => simp [insertInto, lookup]
  | cons e l ih =>
    rw [insertInto]
    split
    · simp [lookup]
    · next h =>
      have hk := Std.LawfulEqOrd.eq_of_compare h
      simp only [lookup, ← hk, Std.LawfulEqOrd.compare_eq_iff_eq]
      split <;> rfl
    · next h =>
      simp only [lookup, ih, Std.LawfulEqOrd.compare_eq_iff_eq]
      by_cases hj : j = k
      · subst hj
        have : j ≠ e.1 := fun he => by
          rw [← he, Std.ReflOrd.compare_self] at h
          cases h
        simp [this]
      · simp [hj]

variable [Std.TransOrd κ]

def insert (m : OrdMap κ β) (k : κ) (b : β) : OrdMap κ β :=
  ⟨insertInto k b m.toList, by
    rw [map_fst_insertInto]
    exact OrdSet.ascending_insertInto m.ascending⟩

def ofList (l : List (κ × β)) : OrdMap κ β := l.foldl (fun m e => m.insert e.1 e.2) empty

theorem get?_insert [DecidableEq κ] (m : OrdMap κ β) (k j : κ) (b : β) :
    (m.insert k b).get? j = if j = k then some b else m.get? j :=
  lookup_insertInto k j b m.toList

theorem ext_get? {m n : OrdMap κ β} (h : ∀ k, m.get? k = n.get? k) : m = n := by
  have mem (e : κ × β) : e ∈ m.toList ↔ e ∈ n.toList := by
    rw [← get?_eq_some_iff, h, get?_eq_some_iff]
  have asc (m : OrdMap κ β) :
      m.toList.Pairwise fun a b => compare a.1 b.1 = .lt := List.pairwise_map.1 m.ascending
  have nodup (m : OrdMap κ β) : m.toList.Nodup :=
    (asc m).imp fun {a b} hab e => by
      subst e
      simp at hab
  refine ext_toList (List.Perm.eq_of_pairwise ?_ (asc m) (asc n)
    ((List.perm_ext_iff_of_nodup (nodup m) (nodup n)).2 mem))
  intro a b _ _ hab hba
  exact absurd hba (Std.OrientedCmp.not_lt_of_lt hab)

theorem get?_ofList_eq_some_iff [DecidableEq κ] {l : List (κ × β)}
    (hl : (l.map Prod.fst).Nodup) {k : κ} {b : β} :
    (ofList l).get? k = some b ↔ (k, b) ∈ l := by
  have key (m : OrdMap κ β) : (l.foldl (fun m e => m.insert e.1 e.2) m).get? k = some b ↔
      (k, b) ∈ l ∨ k ∉ l.map Prod.fst ∧ m.get? k = some b := by
    induction l generalizing m with
    | nil => simp
    | cons e l ih =>
      obtain ⟨he, hl⟩ := List.nodup_cons.1 hl
      rw [List.foldl_cons, ih hl, get?_insert, List.mem_cons, Prod.ext_iff, List.map_cons,
        List.mem_cons]
      by_cases hk : k = e.1
      · subst hk
        have absent : (e.1, b) ∉ l := fun hm => he (List.mem_map.2 ⟨_, hm, rfl⟩)
        simp [absent, he, eq_comm]
      · simp [hk]
  rw [ofList, key]
  simp

end Lawful

end OrdMap

theorem option_ext_mem {γ : Type u} {α : Type v} {R : γ → α → Prop} {x y : Option γ}
    (ext : ∀ s t, (∀ a, R s a ↔ R t a) → s = t) (hx : ∀ s, x = some s → ∃ a, R s a)
    (hy : ∀ s, y = some s → ∃ a, R s a)
    (h : ∀ a, (∃ s, x = some s ∧ R s a) ↔ ∃ s, y = some s ∧ R s a) : x = y := by
  cases x with
  | none =>
    cases y with
    | none => rfl
    | some t =>
      obtain ⟨a, ha⟩ := hy t rfl
      obtain ⟨s, hs, -⟩ := (h a).2 ⟨t, rfl, ha⟩
      cases hs
  | some s =>
    cases y with
    | none =>
      obtain ⟨a, ha⟩ := hx s rfl
      obtain ⟨t, ht, -⟩ := (h a).1 ⟨s, rfl, ha⟩
      cases ht
    | some t => exact congrArg some (ext s t fun a => by simpa using h a)

end TemporalCheck
