import TemporalCheck.Proofs.Normal
import TemporalCheck.Tableau.Node

/-!
# Expanding a node

A formula in normal form holds in one of a few ways, each of which asks for formulas at
once and at the next position. A child of a node takes one way of the formula that is
looked at. A node that fits a word at a position has a child that fits it too, and a
child supports every formula that it commits to.
-/

namespace TemporalCheck

namespace OrdSet

variable {α : Type} [Ord α] [Std.TransOrd α] [Std.LawfulEqOrd α] {s : OrdSet α} {a : α}

theorem insert_of_mem (h : a ∈ s) : s.insert a = s := by
  refine ext_mem fun b => ?_
  rw [mem_insert]
  exact ⟨fun hb => hb.elim (fun he => he ▸ h) id, Or.inr⟩

theorem size_insert (h : a ∉ s) : (s.insert a).size = s.size + 1 := by
  have nodup : (a :: s.toList).Nodup := List.nodup_cons.2 ⟨h, s.nodup_toList⟩
  have perm : (s.insert a).toList.Perm (a :: s.toList) :=
    (List.perm_ext_iff_of_nodup (s.insert a).nodup_toList nodup).2 fun b => by
      rw [← mem_def, mem_insert, List.mem_cons, mem_def]
  exact perm.length_eq

end OrdSet

namespace Formula

variable {w : Word Letter} {f g h : Formula} {i : Nat}

theorem Subformula.trans (hf : Subformula f g) (hg : Subformula g h) : Subformula f h := by
  induction hg with
  | refl => exact hf
  | unary op _ ih => exact .unary op ih
  | left op r _ ih => exact .left op r ih
  | right op l _ ih => exact .right op l ih

theorem Subformula.isNormal (hg : Subformula g f) (hf : f.IsNormal) : g.IsNormal := by
  induction hg with
  | refl => exact hf
  | @unary f op _ ih =>
    cases op with
    | not =>
      cases f with
      | var name => exact ih trivial
      | _ => cases hf
    | next => exact ih hf
    | always => cases hf
    | eventually => cases hf
  | left op r _ ih => cases op <;> first | exact ih hf.1 | cases hf
  | right op l _ ih => cases op <;> first | exact ih hf.2 | cases hf

theorem Subformula.names_subset (hg : Subformula g f) : g.names.Subset f.names := by
  induction hg with
  | refl => exact fun _ ha => ha
  | unary op _ ih =>
    rw [names_unary]
    exact ih
  | left op r _ ih =>
    rw [names_binary]
    exact fun a ha => OrdSet.mem_union.2 (Or.inl (ih a ha))
  | right op l _ ih =>
    rw [names_binary]
    exact fun a ha => OrdSet.mem_union.2 (Or.inr (ih a ha))

/-- The ways in which a formula in normal form can hold: what it takes at once and what at
the next position. -/
def ways : Formula → List (List Formula × List Formula)
  | const _ | var _ | unary .not (var _) => [([], [])]
  | unary .next f => [([], [f])]
  | binary .and l r => [([l, r], [])]
  | binary .or l r => [([l], []), ([r], [])]
  | binary .until l r => [([l], [binary .until l r]), ([r], [])]
  | binary .release l r => [([r], [binary .release l r]), ([l, r], [])]
  | _ => []

theorem subformula_of_mem_ways {way : List Formula × List Formula} (hw : way ∈ g.ways) :
    ∀ x, x ∈ way.1 ∨ x ∈ way.2 → Subformula x g := by
  have left (op : BinaryOp) (l r : Formula) : Subformula l (binary op l r) := .left op r (.refl l)
  have right (op : BinaryOp) (l r : Formula) : Subformula r (binary op l r) := .right op l (.refl r)
  intro x hx
  fun_cases ways g <;> simp only [ways, List.mem_cons, List.not_mem_nil, or_false] at hw
  · subst hw; simp at hx
  · subst hw; simp at hx
  · subst hw; simp at hx
  · subst hw
    obtain rfl : x = _ := by simpa using hx
    exact .unary .next (.refl x)
  · subst hw
    rcases (by simpa using hx : x = _ ∨ x = _) with rfl | rfl
    · exact left _ _ _
    · exact right _ _ _
  · rcases hw with rfl | rfl
    · obtain rfl : x = _ := by simpa using hx
      exact left _ _ _
    · obtain rfl : x = _ := by simpa using hx
      exact right _ _ _
  · rcases hw with rfl | rfl
    · rcases (by simpa using hx : x = _ ∨ x = _) with rfl | rfl
      · exact left _ _ _
      · exact .refl _
    · obtain rfl : x = _ := by simpa using hx
      exact right _ _ _
  · rcases hw with rfl | rfl
    · rcases (by simpa using hx : x = _ ∨ x = _) with rfl | rfl
      · exact right _ _ _
      · exact .refl _
    · rcases (by simpa using hx : x = _ ∨ x = _) with rfl | rfl
      · exact left _ _ _
      · exact right _ _ _

theorem length_le_of_mem_ways {way : List Formula × List Formula} (hw : way ∈ g.ways) :
    way.1.length ≤ 2 := by
  fun_cases ways g <;> simp only [ways, List.mem_cons, List.not_mem_nil, or_false] at hw
  all_goals first
    | (subst hw; simp)
    | (rcases hw with rfl | rfl <;> simp)

/-- A formula that holds does so in one of its ways; an until whose goal holds now can take
the way that asks for the goal. -/
theorem exists_way_of_holds (hg : g.IsNormal) (h : g.Holds w i) : ∃ way ∈ g.ways,
    (∀ x ∈ way.1, x.Holds w i) ∧ (∀ x ∈ way.2, x.Holds w (i + 1)) ∧
      ∀ l r, g = binary .until l r → r.Holds w i → r ∈ way.1 := by
  fun_cases ways g
  · exact ⟨([], []), by simp, by simp⟩
  · exact ⟨([], []), by simp, by simp⟩
  · exact ⟨([], []), by simp, by simp⟩
  · next f => exact ⟨([], [f]), by simp, by simp, by simpa [Holds] using h, by simp⟩
  · next l r => exact ⟨([l, r], []), by simp, by simpa [Holds] using h, by simp, by simp⟩
  · next l r =>
    rcases h with hl | hr
    · exact ⟨([l], []), by simp, by simpa using hl⟩
    · exact ⟨([r], []), by simp, by simpa using hr⟩
  · next l r =>
    by_cases hr : r.Holds w i
    · exact ⟨([r], []), by simp, by simpa using hr, by simp, by simp⟩
    · obtain ⟨hl, hu⟩ := (holds_until_iff.1 h).resolve_left hr
      refine ⟨([l], [binary .until l r]), by simp, by simpa using hl, by simpa using hu, ?_⟩
      intro l' r' he hr'
      cases he
      exact absurd hr' hr
  · next l r =>
    obtain ⟨hr, hl | hn⟩ := holds_release_iff.1 h
    · exact ⟨([l, r], []), by simp, by simpa using ⟨hl, hr⟩, by simp, by simp⟩
    · exact ⟨([r], [binary .release l r]), by simp, by simpa using hr, by simpa using hn,
        by simp⟩
  · cases g <;> simp_all [IsNormal]

theorem isLiteral_cases (h : f.isLiteral = true) :
    (∃ b, f = const b) ∨ (∃ a, f = var a) ∨ ∃ a, f = unary .not (var a) := by
  unfold isLiteral at h
  split at h
  · exact Or.inl ⟨_, rfl⟩
  · exact Or.inr (Or.inl ⟨_, rfl⟩)
  · exact Or.inr (Or.inr ⟨_, rfl⟩)
  · cases h

theorem complement_eq_some_iff :
    f.complement = some g ↔ f.isLiteral = true ∧ f.invert = g := by
  simp [complement]

theorem complement_symm (h : f.complement = some g) : g.complement = some f := by
  obtain ⟨hf, rfl⟩ := complement_eq_some_iff.1 h
  rcases isLiteral_cases hf with ⟨b, rfl⟩ | ⟨a, rfl⟩ | ⟨a, rfl⟩
  · cases b <;> rfl
  · rfl
  · rfl

theorem complement_ne_self (f : Formula) : f.complement ≠ some f := by
  intro h
  obtain ⟨hf, he⟩ := complement_eq_some_iff.1 h
  rcases isLiteral_cases hf with ⟨b, rfl⟩ | ⟨a, rfl⟩ | ⟨a, rfl⟩
  · cases b <;> cases he
  · cases he
  · cases he

theorem not_holds_of_complement (h : f.complement = some g) (hf : f.Holds w i) : ¬ g.Holds w i := by
  obtain ⟨hl, rfl⟩ := complement_eq_some_iff.1 h
  rcases isLiteral_cases hl with ⟨b, rfl⟩ | ⟨a, rfl⟩ | ⟨a, rfl⟩
  · simp_all [invert, Holds]
  · simpa [invert, Holds] using hf
  · exact hf

end Formula

namespace Tableau

namespace Node

variable {n m : Node} {f g x : Formula} {way : List Formula × List Formula}

def Asks (n : Node) (g : Formula) : Prop := g ∈ n.old ∨ g ∈ n.todo

theorem asks_require : (n.require f).Asks x ↔ n.Asks x ∨ x = f := by
  unfold require
  split
  · next h =>
    constructor
    · exact Or.inl
    · intro hx
      rcases hx with hx | rfl
      · exact hx
      · exact h
  · simp only [Asks, List.mem_cons]
    exact ⟨fun h => by rcases h with h | h | h <;> simp [h],
      fun h => by rcases h with (h | h) | h <;> simp [h]⟩

theorem foldl_require (l : List Formula) (n : Node) :
    (l.foldl require n).id = n.id ∧ (l.foldl require n).incoming = n.incoming ∧
      (l.foldl require n).old = n.old ∧ (l.foldl require n).next = n.next ∧
        (l.foldl require n).todo.length ≤ n.todo.length + l.length ∧
          ∀ x, (l.foldl require n).Asks x ↔ n.Asks x ∨ x ∈ l := by
  induction l generalizing n with
  | nil => simp
  | cons f l ih =>
    obtain ⟨hid, hin, hold, hnext, hlen, hasks⟩ := ih (n.require f)
    have fields : (n.require f).id = n.id ∧ (n.require f).incoming = n.incoming ∧
        (n.require f).old = n.old ∧ (n.require f).next = n.next ∧
          (n.require f).todo.length ≤ n.todo.length + 1 := by
      unfold require
      split <;> simp
    obtain ⟨fid, fin, fold, fnext, flen⟩ := fields
    rw [List.foldl_cons, hid, hin, hold, hnext, List.length_cons]
    refine ⟨fid, fin, fold, fnext, by omega, fun x => ?_⟩
    rw [hasks, asks_require, List.mem_cons, or_assoc]

theorem foldl_postpone (l : List Formula) (n : Node) :
    (l.foldl postpone n).id = n.id ∧ (l.foldl postpone n).incoming = n.incoming ∧
      (l.foldl postpone n).old = n.old ∧ (l.foldl postpone n).todo = n.todo ∧
        ∀ x, x ∈ (l.foldl postpone n).next ↔ x ∈ n.next ∨ x ∈ l := by
  induction l generalizing n with
  | nil => simp
  | cons f l ih =>
    obtain ⟨hid, hin, hold, htodo, hnext⟩ := ih (n.postpone f)
    refine ⟨hid, hin, hold, htodo, fun x => ?_⟩
    rw [List.foldl_cons, hnext, List.mem_cons, postpone, OrdSet.mem_insert, or_comm (a := x = f),
      or_assoc]

def take (n : Node) (g : Formula) (way : List Formula × List Formula) : Node :=
  (way.2.foldl postpone (way.1.foldl require n)).keep g

def drop (n : Node) : Node := ⟨n.id, n.incoming, n.todo.tail, n.old, n.next⟩

structure Takes (n : Node) (g : Formula) (way : List Formula × List Formula) (m : Node) : Prop where
  incoming : m.incoming = n.incoming
  old : m.old = n.old.insert g
  asks : ∀ x, m.Asks x ↔ n.Asks x ∨ x ∈ way.1
  next : ∀ x, x ∈ m.next ↔ x ∈ n.next ∨ x ∈ way.2
  length : m.todo.length < n.todo.length + way.1.length

theorem asks_iff_drop {todo : List Formula} (hn : n.todo = g :: todo) :
    n.Asks x ↔ n.drop.Asks x ∨ x = g := by
  simp only [Asks, drop, hn, List.mem_cons, List.tail_cons, or_assoc, or_comm (a := x = g)]

theorem takes_drop {todo : List Formula} (hn : n.todo = g :: todo) (hg : g ∈ n.old) :
    n.Takes g ([], []) n.drop := by
  refine ⟨rfl, (OrdSet.insert_of_mem hg).symm, fun x => ?_, by simp [drop], by simp [drop, hn]⟩
  rw [asks_iff_drop hn]
  constructor
  · exact fun h => Or.inl (Or.inl h)
  · intro h
    rcases h with (h | rfl) | h
    · exact h
    · exact Or.inl hg
    · cases h

theorem id_take (n : Node) (g : Formula) (way : List Formula × List Formula) :
    (n.take g way).id = n.id :=
  (foldl_postpone _ _).1.trans (foldl_require _ _).1

theorem takes_take {todo : List Formula} (hn : n.todo = g :: todo)
    (way : List Formula × List Formula) (k : Nat) : n.Takes g way ((n.drop.take g way).withId k) := by
  obtain ⟨-, rin, rold, rnext, rlen, rasks⟩ := foldl_require way.1 n.drop
  obtain ⟨-, pin, pold, ptodo, pnext⟩ := foldl_postpone way.2 (way.1.foldl require n.drop)
  refine ⟨pin.trans rin, ?_, fun x => ?_, fun x => ?_, ?_⟩
  · change (OrdSet.insert _ g) = _
    rw [pold, rold]
    rfl
  · have hasks : ((n.drop.take g way).withId k).Asks x ↔
        x = g ∨ (way.1.foldl require n.drop).Asks x := by
      simp only [Asks, withId, take, keep, OrdSet.mem_insert, pold, ptodo, or_assoc]
    rw [hasks, rasks, asks_iff_drop hn, or_assoc, or_left_comm]
  · change x ∈ (way.2.foldl postpone (way.1.foldl require n.drop)).next ↔ _
    rw [pnext, rnext]
    rfl
  · have hlen : n.drop.todo.length + 1 = n.todo.length := by simp [drop, hn]
    change (way.2.foldl postpone (way.1.foldl require n.drop)).todo.length < _
    rw [ptodo]
    omega

end Node

def Outcome.nodes (k : Nat) : Outcome → List Node
  | .discard | .stuck _ => []
  | .refine n => [n]
  | .split first second => [first, second.withId k]

namespace Node

variable {n m : Node} {f g x : Formula} {todo : List Formula} {w : Word Letter} {i k : Nat}

theorem contradicts_iff : n.contradicts g = true ↔
    g = .const false ∨ ∃ c, g.complement = some c ∧ c ∈ n.old := by
  simp [contradicts, Option.any_eq_true]

theorem contradicts_of_not_isLiteral (hg : g.isLiteral = false) : n.contradicts g = false := by
  rw [← Bool.not_eq_true, contradicts_iff]
  intro h
  rcases h with rfl | ⟨c, hc, -⟩
  · cases hg
  · rw [(Formula.complement_eq_some_iff.1 hc).1] at hg
    cases hg

theorem nodes_expand (hg : g.IsNormal) (n : Node) (k : Nat) : (n.expand g).nodes k =
    if g ∈ n.old then [n] else if n.contradicts g then []
      else List.zipWith withId (g.ways.map (n.take g)) [n.id, k] := by
  have first (way : List Formula × List Formula) : (n.take g way).withId n.id = n.take g way := by
    rw [← id_take n g way]
    rfl
  unfold expand
  by_cases hold : g ∈ n.old
  · simp [hold, Outcome.nodes]
  · rw [if_neg hold, if_neg hold]
    by_cases hl : g.isLiteral = true
    · have hways : g.ways = [([], [])] := by
        rcases Formula.isLiteral_cases hl with ⟨b, rfl⟩ | ⟨a, rfl⟩ | ⟨a, rfl⟩ <;> rfl
      rw [if_pos hl, hways]
      split
      · rfl
      · exact congrArg (· :: []) (first ([], [])).symm
    · rw [if_neg hl, contradicts_of_not_isLiteral (Bool.not_eq_true _ ▸ hl), if_neg Bool.false_ne_true]
      fun_cases Formula.ways g
      · simp [Formula.isLiteral] at hl
      · simp [Formula.isLiteral] at hl
      · simp [Formula.isLiteral] at hl
      iterate 5
        · simp only [List.map_cons, List.map_nil, List.zipWith, first]
          rfl
      · cases g <;> simp_all [Formula.IsNormal]

theorem expand_ne_stuck (hg : g.IsNormal) (n : Node) (f : Formula) : n.expand g ≠ .stuck f := by
  unfold expand
  split
  · exact nofun
  · split
    · split <;> exact nofun
    · next hl => cases g with
      | const b => exact absurd rfl hl
      | var a => exact absurd rfl hl
      | unary op g => cases op <;> cases g <;> simp_all [Formula.IsNormal, Formula.isLiteral]
      | binary op l r => cases op <;> simp_all [Formula.IsNormal]

theorem map_id_nodes_expand (hg : g.IsNormal) (n : Node) (k : Nat) :
    ((n.expand g).nodes k).map Node.id <+: [n.id, k] := by
  have zip (l : List Node) : (List.zipWith withId l [n.id, k]).map Node.id <+: [n.id, k] := by
    match l with
    | [] => simp
    | [m] => simp [withId]
    | m :: m' :: _ => simp [withId]
  rw [nodes_expand hg]
  split
  · simp
  · split
    · simp
    · exact zip _

theorem child_cases (hg : g.IsNormal) (hn : n.todo = g :: todo)
    (hm : m ∈ (n.drop.expand g).nodes k) : g ∈ n.old ∧ n.Takes g ([], []) m ∨
      g ∉ n.old ∧ n.contradicts g = false ∧ ∃ way ∈ g.ways, n.Takes g way m := by
  rw [nodes_expand hg] at hm
  split at hm
  · next hold =>
    rw [List.mem_singleton.1 hm]
    exact Or.inl ⟨hold, takes_drop hn hold⟩
  · next hold =>
    split at hm
    · cases hm
    · next hc =>
      obtain ⟨j, hj, rfl⟩ := List.mem_iff_getElem.1 hm
      rw [List.getElem_zipWith, List.getElem_map]
      exact Or.inr ⟨hold, Bool.not_eq_true _ ▸ hc, _, List.getElem_mem _, takes_take hn _ _⟩

theorem exists_child (hg : g.IsNormal) (hn : n.todo = g :: todo) (hold : g ∉ n.old)
    (hc : n.contradicts g = false) {way : List Formula × List Formula} (hw : way ∈ g.ways) (k : Nat) :
    ∃ m ∈ (n.drop.expand g).nodes k, n.Takes g way m := by
  have hways : g.ways.length ≤ 2 := by fun_cases Formula.ways g <;> simp
  have hold : g ∉ n.drop.old := hold
  have hc : n.drop.contradicts g = false := hc
  rw [nodes_expand hg, if_neg hold, hc, if_neg Bool.false_ne_true]
  obtain ⟨j, hj, rfl⟩ := List.mem_iff_getElem.1 hw
  have hlt : j < (List.zipWith withId (g.ways.map (n.drop.take g)) [n.drop.id, k]).length := by
    simp
    omega
  refine ⟨_, List.getElem_mem hlt, ?_⟩
  rw [List.getElem_zipWith, List.getElem_map]
  exact takes_take hn _ _

def Supports (n : Node) (g : Formula) : Prop :=
  ∃ way ∈ g.ways, (∀ x ∈ way.1, n.Asks x) ∧ ∀ x ∈ way.2, x ∈ n.next

structure Sound (f : Formula) (n : Node) : Prop where
  within : ∀ g, n.Asks g ∨ g ∈ n.next → g.Subformula f
  supports : ∀ g ∈ n.old, n.Supports g
  consistent : ∀ g ∈ n.old, n.contradicts g = false

theorem Takes.supports {way : List Formula × List Formula} (ht : n.Takes g way m)
    (hx : n.Supports x) : m.Supports x := by
  obtain ⟨v, hv, hnow, hlater⟩ := hx
  exact ⟨v, hv, fun y hy => (ht.asks y).2 (Or.inl (hnow y hy)),
    fun y hy => (ht.next y).2 (Or.inl (hlater y hy))⟩

theorem Takes.consistent {way : List Formula × List Formula} (ht : n.Takes g way m)
    (hn : ∀ x ∈ n.old, n.contradicts x = false) (hg : n.contradicts g = false) :
    ∀ x ∈ m.old, m.contradicts x = false := by
  simp only [← Bool.not_eq_true, contradicts_iff] at hn hg ⊢
  rw [ht.old]
  have old (x : Formula) (hx : x = g ∨ x ∈ n.old) :
      ¬ (x = .const false ∨ ∃ c, x.complement = some c ∧ c ∈ n.old) := by
    rcases hx with rfl | hx
    · exact hg
    · exact hn x hx
  intro x hx hbad
  rw [OrdSet.mem_insert] at hx
  rcases hbad with rfl | ⟨c, hc, hm⟩
  · exact old _ hx (Or.inl rfl)
  · rcases OrdSet.mem_insert.1 hm with rfl | hm
    · rcases hx with rfl | hx
      · exact absurd hc (Formula.complement_ne_self x)
      · exact hg (Or.inr ⟨x, Formula.complement_symm hc, hx⟩)
    · exact old x hx (Or.inr ⟨c, hc, hm⟩)

theorem Sound.child (h : n.Sound f) (hf : f.IsNormal) (hn : n.todo = g :: todo)
    (hm : m ∈ (n.drop.expand g).nodes k) : m.Sound f := by
  have hg : g.Subformula f := h.within g (Or.inl (Or.inr (by simp [hn])))
  rcases child_cases (hg.isNormal hf) hn hm with ⟨hold, ht⟩ | ⟨hold, hc, way, hw, ht⟩
  · refine ⟨fun x hx => h.within x ?_, fun x hx => ht.supports (h.supports x ?_), ?_⟩
    · simpa [ht.asks, ht.next] using hx
    · rwa [ht.old, OrdSet.insert_of_mem hold] at hx
    · exact ht.consistent h.consistent (h.consistent g hold)
  · refine ⟨fun x hx => ?_, fun x hx => ?_, ht.consistent h.consistent hc⟩
    · have parts := Formula.subformula_of_mem_ways hw x
      rw [ht.asks, ht.next] at hx
      rcases hx with (hx | hx) | (hx | hx)
      · exact h.within x (Or.inl hx)
      · exact (parts (Or.inl hx)).trans hg
      · exact h.within x (Or.inr hx)
      · exact (parts (Or.inr hx)).trans hg
    · rw [ht.old, OrdSet.mem_insert] at hx
      rcases hx with rfl | hx
      · exact ⟨way, hw, fun y hy => (ht.asks y).2 (Or.inr hy), fun y hy => (ht.next y).2 (Or.inr hy)⟩
      · exact ht.supports (h.supports x hx)

/-- The suffix of `w` from `i` on has what the node asks for. An until that has been looked at
was not put off without need. -/
structure Fits (w : Word Letter) (i : Nat) (n : Node) : Prop where
  now : ∀ g, n.Asks g → g.Holds w i
  later : ∀ g ∈ n.next, g.Holds w (i + 1)
  goal : ∀ l r, .binary .until l r ∈ n.old → r.Holds w i → n.Asks r

theorem Fits.exists_child (h : n.Fits w i) (hg : g.IsNormal) (hn : n.todo = g :: todo) (k : Nat) :
    ∃ m ∈ (n.drop.expand g).nodes k, m.Fits w i ∧ m.incoming = n.incoming := by
  have hold : g.Holds w i := h.now g (Or.inr (by simp [hn]))
  by_cases hmem : g ∈ n.old
  · have ht := takes_drop hn hmem
    refine ⟨n.drop, ?_, ⟨fun x hx => h.now x ?_, h.later, fun l r hu hr => ?_⟩, rfl⟩
    · have hmem : g ∈ n.drop.old := hmem
      rw [nodes_expand hg, if_pos hmem]
      exact List.mem_singleton.2 rfl
    · simpa [ht.asks] using hx
    · exact (ht.asks r).2 (Or.inl (h.goal l r hu hr))
  · have hc : n.contradicts g = false := by
      rw [← Bool.not_eq_true, contradicts_iff]
      intro hc
      rcases hc with rfl | ⟨c, hc, hin⟩
      · cases hold
      · exact Formula.not_holds_of_complement hc hold (h.now c (Or.inl hin))
    obtain ⟨way, hw, hnow, hlater, hgoal⟩ := Formula.exists_way_of_holds hg hold
    obtain ⟨m, hm, ht⟩ := Node.exists_child hg hn hmem hc hw k
    refine ⟨m, hm, ⟨fun x hx => ?_, fun x hx => ?_, fun l r hu hr => ?_⟩, ht.incoming⟩
    · exact ((ht.asks x).1 hx).elim (h.now x) (hnow x)
    · exact ((ht.next x).1 hx).elim (h.later x) (hlater x)
    · rw [ht.asks]
      rw [ht.old, OrdSet.mem_insert] at hu
      rcases hu with he | hu
      · exact Or.inr (hgoal l r he.symm hr)
      · exact Or.inl (h.goal l r hu hr)

end Node

end Tableau

end TemporalCheck
