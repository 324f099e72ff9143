import TemporalCheck.Proofs.Limit

/-!
# The letters of a committed node

The letters of a node are enumerated by masks over the names without a literal. Two masks never
give the same letter, and the constraint of a committed node keeps every one of them, so a node
with `m` such names has `2 ^ m` letters: those over the names of the formula that satisfy its
literals.
-/

namespace TemporalCheck

theorem OrdSet.size_ofList {α : Type} [Ord α] [Std.TransOrd α] [Std.LawfulEqOrd α] {l : List α}
    (h : l.Nodup) : (OrdSet.ofList l).size = l.length := by
  have perm : (OrdSet.ofList l).toList.Perm l :=
    (List.perm_ext_iff_of_nodup (OrdSet.ofList l).nodup_toList h).2 fun _ => mem_ofList
  exact perm.length_eq

namespace Tableau

variable {f : Formula} {n : Node} {nodes : List Node} {names : OrdSet String} {limit : Nat}
  {letters : OrdSet Letter}

theorem eq_of_candidate_eq (hfree : (n.free names).size < 64) {mask mask' : UInt64}
    (hmask : mask ∈ masks (n.free names).size) (hmask' : mask' ∈ masks (n.free names).size)
    (h : n.candidate names mask = n.candidate names mask') : mask = mask' := by
  refine eq_of_select_iff hfree (n.free names).nodup_toList hmask hmask' fun a ha => ?_
  have hvar : .var a ∉ n.old := (mem_free.1 ha).2.1
  have shows (k : UInt64) : a ∈ n.candidate names k ↔ a ∈ select k (n.free names).toList := by
    rw [mem_candidate, or_iff_right hvar]
  rw [← shows, ← shows, h]

theorem Node.Sound.size_letters (h : n.Sound f) (hlimit : limit < 64)
    (hok : n.letters names limit = .ok letters) : letters.size = 2 ^ (n.free names).size := by
  obtain ⟨hle, rfl⟩ := h.letters_eq hok
  have hfree : (n.free names).size < 64 := Nat.lt_of_le_of_lt hle hlimit
  have hnodup : ((masks (n.free names).size).map (n.candidate names)).Nodup :=
    List.Nodup.map_on (fun _ hmask _ hmask' he => eq_of_candidate_eq hfree hmask hmask' he)
      (nodup_masks _)
  rw [OrdSet.size_ofList hnodup, List.length_map, length_masks hfree]

theorem Node.Sound.evaluate_candidate (h : n.Sound f) (names : OrdSet String) (mask : UInt64) :
    n.constraint.evaluate (n.candidate names mask) = .ok true := by
  obtain ⟨b, hb, hiff⟩ := exists_evaluate_constraint n (n.candidate names mask)
  rw [forall_literals_hold_iff h] at hiff
  rw [hb, hiff.2 (h.admits_candidate names mask)]

theorem Node.Sound.admits_iff (h : n.Sound f) {l : Letter} : n.Admits l ↔
    ∀ g ∈ n.old, g.isLiteral = true → g.Satisfies fun _ => l := by
  rw [← forall_literals_hold_iff h]
  simp only [Node.literals, List.mem_filter, and_imp]
  rfl

/-- When the letters of a committed node are enumerated, they are the letters over the names of
the formula that satisfy all literals of the node, two to the number of names without a literal.
Each mask has a value under the constraint, which rejects none, and the shifts stay within the
word. -/
theorem letters_exact_enumeration (hf : f.IsNormal) (hnodes : expand f = .ok nodes)
    (hn : n ∈ nodes) (maxFree : Nat)
    (hok : n.letters f.names (min maxFree freeLimit) = .ok letters) :
    (∀ l, l ∈ letters ↔
      l.Subset f.names ∧ ∀ g ∈ n.old, g.isLiteral = true → g.Satisfies fun _ => l) ∧
    (∃ l, l ∈ letters) ∧ letters.size = 2 ^ (n.undecided f.names).size ∧
    (∀ mask ∈ masks (n.undecided f.names).size,
      n.constraint.evaluate (n.candidate f.names mask) = .ok true) ∧
    ∀ i ≤ (n.undecided f.names).size, i < 64 ∧ (bit i).toNat = 2 ^ i := by
  obtain ⟨t, rfl, ht⟩ := exists_sound_of_expand hf hnodes
  have h := ht.node_of_mem hn
  have hlimit : min maxFree freeLimit < 64 := min_freeLimit_lt maxFree
  have hle := (h.letters_eq hok).1
  have hsize := h.size_letters hlimit hok
  rw [free_eq_undecided] at hle hsize
  have hpos : 0 < letters.size := by
    rw [hsize]
    exact Nat.two_pow_pos _
  refine ⟨fun l => ?_, List.exists_mem_of_length_pos hpos, hsize,
    fun mask _ => h.evaluate_candidate f.names mask, fun i hi => ?_⟩
  · rw [mem_letters_iff h hlimit hok, h.admits_iff]
  · have hi : i < 64 := by omega
    exact ⟨hi, toNat_bit hi⟩

def early : Formula :=
  .binary .and (.var "p") (.unary .next (.binary .or (.var "q") (.unary .not (.var "r"))))

theorem letters_exact_enumeration_early : ∃ nodes n letters, expand early = .ok nodes ∧
    n ∈ nodes ∧ n.letters early.names (min 2 freeLimit) = .ok letters ∧ letters.size = 4 ∧
      .ofList ["p", "q"] ∈ letters ∧ .ofList ["q", "r"] ∉ letters := by
  have hfirst : (expand early).map (fun nodes => nodes.head?.map fun n =>
      (n.literals, (n.undecided early.names).size)) = .ok (some ([.var "p"], 2)) := by
    decide +kernel
  have hnormal : early.IsNormal := by simp [early, Formula.IsNormal]
  obtain ⟨t, hnodes, -⟩ := exists_expand hnormal
  rw [hnodes] at hfirst
  obtain ⟨n, hhead, hn⟩ := Option.map_eq_some_iff.1 (Except.ok.inj hfirst)
  obtain ⟨hliterals, hopen⟩ := Prod.mk.inj hn
  have hmem : n ∈ t.nodes := List.mem_of_head? hhead
  have hlimit : n.exceeds early.names (min 2 freeLimit) = false := by
    rw [Node.exceeds, hopen]
    decide
  obtain ⟨letters, hok⟩ := exists_letters hlimit
  obtain ⟨hexact, -, hsize, -⟩ := letters_exact_enumeration hnormal hnodes hmem 2 hok
  have literal (g : Formula) : g ∈ n.old ∧ g.isLiteral = true ↔ g = .var "p" := by
    have hfilter : g ∈ n.literals ↔ g ∈ n.old ∧ g.isLiteral = true := List.mem_filter
    rw [← hfilter, hliterals, List.mem_singleton]
  refine ⟨t.nodes, n, letters, hnodes, hmem, hok, by simp [hsize, hopen], ?_, fun hq => ?_⟩
  · refine (hexact _).2 ⟨fun a ha => ?_, fun g hg hl => ?_⟩
    · have hnames : a = "p" ∨ a = "q" := by simpa using ha
      rcases hnames with rfl | rfl <;> decide
    · rw [(literal g).1 ⟨hg, hl⟩]
      exact OrdSet.mem_ofList.2 List.mem_cons_self
  · obtain ⟨hg, hl⟩ := (literal (.var "p")).2 rfl
    have hp : "p" ∈ OrdSet.ofList ["q", "r"] := ((hexact _).1 hq).2 _ hg hl
    exact absurd hp (by decide)

end Tableau

end TemporalCheck
