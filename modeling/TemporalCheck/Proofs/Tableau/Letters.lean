import TemporalCheck.Proofs.Builder
import TemporalCheck.Proofs.Tableau.Masks
import TemporalCheck.Proofs.Tableau.Node

/-!
# Letters of a node

The letters that are enumerated for a node are those over the names of the formula that
agree with the literals of the node. The constraint of the node has a value at each of them
and rejects none, since a sound node has no literals that contradict each other.
-/

namespace TemporalCheck.Tableau

variable {n : Node} {f g : Formula} {l : Letter}

def Node.Admits (n : Node) (l : Letter) : Prop :=
  (∀ a, .var a ∈ n.old → a ∈ l) ∧ ∀ a, .unary .not (.var a) ∈ n.old → a ∉ l

theorem exists_filterAuxM {α ε : Type} {p : α → Except ε Bool} {Q : α → Prop}
    (h : ∀ x, ∃ b, p x = .ok b ∧ (b = true ↔ Q x)) (l acc : List α) :
    ∃ kept, l.filterAuxM p acc = .ok kept ∧ ∀ x, x ∈ kept ↔ x ∈ acc ∨ x ∈ l ∧ Q x := by
  induction l generalizing acc with
  | nil => exact ⟨acc, rfl, by simp⟩
  | cons y l ih =>
    obtain ⟨b, hb, hQ⟩ := h y
    obtain ⟨kept, hk, hmem⟩ := ih (cond b (y :: acc) acc)
    have hcond (x : α) : x ∈ cond b (y :: acc) acc ↔ x ∈ acc ∨ x = y ∧ Q x := by
      cases b with
      | true =>
        have hy : Q y := hQ.1 rfl
        rw [cond_true, List.mem_cons, or_comm]
        exact or_congr_right ⟨fun he => ⟨he, he ▸ hy⟩, And.left⟩
      | false =>
        have hy : ¬ Q y := fun hq => Bool.false_ne_true (hQ.2 hq)
        rw [cond_false]
        exact ⟨Or.inl, fun hx => hx.resolve_right fun he => hy (he.1 ▸ he.2)⟩
    refine ⟨kept, by simpa [List.filterAuxM, hb, bind, Except.bind] using hk, fun x => ?_⟩
    rw [hmem, hcond, List.mem_cons, or_and_right, or_assoc]

theorem exists_filterM {α ε : Type} {p : α → Except ε Bool} {Q : α → Prop}
    (h : ∀ x, ∃ b, p x = .ok b ∧ (b = true ↔ Q x)) (l : List α) :
    ∃ kept, l.filterM p = .ok kept ∧ ∀ x, x ∈ kept ↔ x ∈ l ∧ Q x := by
  obtain ⟨kept, hk, hmem⟩ := exists_filterAuxM h l []
  exact ⟨kept.reverse, by simp [List.filterM, hk, bind, Except.bind, pure, Except.pure],
    by simpa using hmem⟩

theorem exists_evaluate_literal (hg : g.isLiteral = true) (l : Letter) :
    ∃ b, g.evaluate l = .ok b ∧ (b = true ↔ g.Holds (fun _ => l) 0) := by
  rcases Formula.isLiteral_cases hg with ⟨b, rfl⟩ | ⟨a, rfl⟩ | ⟨a, rfl⟩
  · exact ⟨b, rfl, Iff.rfl⟩
  · exact ⟨_, rfl, OrdSet.contains_iff⟩
  · refine ⟨_, rfl, ?_⟩
    rw [Bool.not_eq_true', ← Bool.not_eq_true, OrdSet.contains_iff]
    rfl

theorem exists_evaluate_conjunction {P : Prop} {fs : List Formula} {b : Bool}
    (hf : f.evaluate l = .ok b) (hb : b = true ↔ P) (hfs : ∀ g ∈ fs, g.isLiteral = true) :
    ∃ c, (fs.foldl (.binary .and) f).evaluate l = .ok c ∧
      (c = true ↔ P ∧ ∀ g ∈ fs, g.Holds (fun _ => l) 0) := by
  induction fs generalizing f b P with
  | nil => exact ⟨b, hf, by simp [hb]⟩
  | cons g fs ih =>
    obtain ⟨d, hd, hdg⟩ := exists_evaluate_literal (hfs g List.mem_cons_self) l
    have hand : (Formula.binary .and f g).evaluate l = .ok (b && d) := by
      simp [Formula.evaluate, hf, hd, bind, Except.bind, pure, Except.pure]
    obtain ⟨c, hc, hP⟩ := ih hand (by rw [Bool.and_eq_true, hb, hdg])
      fun x hx => hfs x (List.mem_cons_of_mem g hx)
    refine ⟨c, hc, ?_⟩
    rw [hP, and_assoc, List.forall_mem_cons]

theorem exists_evaluate_constraint (n : Node) (l : Letter) :
    ∃ b, n.constraint.evaluate l = .ok b ∧
      (b = true ↔ ∀ g ∈ n.literals, g.Holds (fun _ => l) 0) := by
  have literal : ∀ g ∈ n.literals, g.isLiteral = true := fun g hg => (List.mem_filter.1 hg).2
  unfold Node.constraint
  cases hl : n.literals with
  | nil => exact ⟨true, rfl, by simp⟩
  | cons f fs =>
    rw [hl] at literal
    obtain ⟨b, hb, hbf⟩ := exists_evaluate_literal (literal f List.mem_cons_self) l
    obtain ⟨c, hc, hall⟩ := exists_evaluate_conjunction hb hbf
      fun g hg => literal g (List.mem_cons_of_mem f hg)
    exact ⟨c, hc, by rw [hall, List.forall_mem_cons]⟩

theorem forall_literals_hold_iff (h : n.Sound f) :
    (∀ g ∈ n.literals, g.Holds (fun _ => l) 0) ↔ n.Admits l := by
  simp only [Node.literals, List.mem_filter]
  constructor
  · intro hl
    exact ⟨fun a ha => hl _ ⟨ha, rfl⟩, fun a ha => hl _ ⟨ha, rfl⟩⟩
  · intro ha g hg
    rcases Formula.isLiteral_cases hg.2 with ⟨b, rfl⟩ | ⟨a, rfl⟩ | ⟨a, rfl⟩
    · cases b with
      | true => rfl
      | false => exact absurd (h.consistent _ hg.1) (by simp [Node.contradicts])
    · exact ha.1 a hg.1
    · exact ha.2 a hg.1

theorem mem_positive {a : String} : a ∈ n.positive ↔ .var a ∈ n.old := by
  simp only [Node.positive, OrdSet.mem_ofList, List.mem_filterMap, Node.literals, List.mem_filter]
  constructor
  · intro h
    obtain ⟨g, ⟨hg, -⟩, he⟩ := h
    split at he
    · cases he
      exact hg
    · cases he
  · intro h
    exact ⟨.var a, ⟨h, rfl⟩, rfl⟩

theorem mem_fixed {a : String} :
    a ∈ n.fixed ↔ .var a ∈ n.old ∨ .unary .not (.var a) ∈ n.old := by
  simp only [Node.fixed, OrdSet.mem_ofList, List.mem_flatMap, Node.literals, List.mem_filter]
  constructor
  · intro h
    obtain ⟨g, ⟨hg, hl⟩, ha⟩ := h
    rcases Formula.isLiteral_cases hl with ⟨b, rfl⟩ | ⟨c, rfl⟩ | ⟨c, rfl⟩
    · cases ha
    · rw [List.mem_singleton.1 ha]
      exact Or.inl hg
    · rw [List.mem_singleton.1 ha]
      exact Or.inr hg
  · intro h
    rcases h with h | h
    · exact ⟨_, ⟨h, rfl⟩, List.mem_singleton.2 rfl⟩
    · exact ⟨_, ⟨h, rfl⟩, List.mem_singleton.2 rfl⟩

theorem mem_candidate {names : OrdSet String} {mask : UInt64} {a : String} :
    a ∈ n.candidate names mask ↔ .var a ∈ n.old ∨ a ∈ select mask (n.free names).toList := by
  rw [Node.candidate, OrdSet.mem_union, OrdSet.mem_ofList, mem_positive]

theorem mem_free {names : OrdSet String} {a : String} : a ∈ n.free names ↔
    a ∈ names ∧ .var a ∉ n.old ∧ .unary .not (.var a) ∉ n.old := by
  rw [Node.free, OrdSet.mem_diff, mem_fixed, not_or]

theorem Node.Sound.not_mem_old_of_var (h : n.Sound f) {a : String} (ha : .var a ∈ n.old) :
    .unary .not (.var a) ∉ n.old := by
  intro hn
  have hc := h.consistent _ ha
  rw [← Bool.not_eq_true, Node.contradicts_iff] at hc
  exact hc (Or.inr ⟨_, rfl, hn⟩)

theorem Node.Sound.admits_candidate (h : n.Sound f) (names : OrdSet String) (mask : UInt64) :
    n.Admits (n.candidate names mask) := by
  refine ⟨fun a ha => mem_candidate.2 (Or.inl ha), fun a hn ha => ?_⟩
  rcases mem_candidate.1 ha with ha | ha
  · exact h.not_mem_old_of_var ha hn
  · exact (mem_free.1 (mem_of_mem_select ha)).2.2 hn

theorem mem_candidates_iff (h : n.Sound f) (hfree : (n.free f.names).size < 64) :
    (∃ mask ∈ masks (n.free f.names).size, n.candidate f.names mask = l) ↔
      l.Subset f.names ∧ n.Admits l := by
  constructor
  · intro hl
    obtain ⟨mask, -, rfl⟩ := hl
    refine ⟨fun a ha => ?_, h.admits_candidate f.names mask⟩
    rcases mem_candidate.1 ha with ha | ha
    · have hsub := (h.within (.var a) (Or.inl (Or.inl ha))).names_subset
      exact hsub a (by simp [Formula.names, Formula.propositions])
    · exact (mem_free.1 (mem_of_mem_select ha)).1
  · intro hl
    obtain ⟨hsub, hpos, hneg⟩ := hl
    obtain ⟨mask, hmask, hselect⟩ := exists_mask hfree l.contains
    refine ⟨mask, hmask, OrdSet.ext_mem fun a => ?_⟩
    rw [mem_candidate, hselect, OrdSet.contains_iff, ← OrdSet.mem_def, mem_free]
    constructor
    · intro hx
      rcases hx with hx | hx
      · exact hpos a hx
      · exact hx.2
    · intro hx
      by_cases hp : .var a ∈ n.old
      · exact Or.inl hp
      · exact Or.inr ⟨⟨hsub a hx, hp, fun hn => hneg a hn hx⟩, hx⟩

theorem Node.Sound.letters_eq (h : n.Sound f) {names : OrdSet String} {limit : Nat}
    {letters : OrdSet Letter} (hok : n.letters names limit = .ok letters) :
    (n.free names).size ≤ limit ∧
      letters = .ofList ((masks (n.free names).size).map (n.candidate names)) := by
  obtain ⟨kept, hk, hmem⟩ := exists_filterM (exists_evaluate_constraint n)
    ((masks (n.free names).size).map (n.candidate names))
  simp only [Node.letters] at hok
  split at hok
  · cases hok
  · next hle =>
    obtain ⟨kept', hk', he⟩ := bind_eq_ok_iff.1 hok
    rw [mapError_eq_ok_iff, hk] at hk'
    cases hk'
    cases he
    refine ⟨Nat.not_lt.1 hle, OrdSet.ext_mem fun l => ?_⟩
    rw [OrdSet.mem_ofList, OrdSet.mem_ofList, hmem]
    refine and_iff_left_of_imp fun hl => (forall_literals_hold_iff h).2 ?_
    obtain ⟨mask, -, rfl⟩ := List.mem_map.1 hl
    exact h.admits_candidate names mask

theorem mem_letters_iff (h : n.Sound f) {limit : Nat} (hlimit : limit < 64)
    {letters : OrdSet Letter} (hok : n.letters f.names limit = .ok letters) :
    l ∈ letters ↔ l.Subset f.names ∧ n.Admits l := by
  obtain ⟨hle, rfl⟩ := h.letters_eq hok
  rw [OrdSet.mem_ofList, List.mem_map]
  exact mem_candidates_iff h (Nat.lt_of_le_of_lt hle hlimit)

end TemporalCheck.Tableau
