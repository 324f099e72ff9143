/-!
# Ranges of code points

A class of characters as the ranges of its code points. The ranges stand in
ascending order, so a look-up ends at the first one that lies above.
-/

namespace TemporalCheck.Text

abbrev Ranges := List (Nat × Nat)

namespace Ranges

def contains : Ranges → Nat → Bool
  | [], _ => false
  | (first, last) :: rest, n =>
    if n < first then false else if n ≤ last then true else contains rest n

theorem contains_iff {rs : Ranges} (ascending : rs.Pairwise fun a b => a.1 ≤ b.1) {n : Nat} :
    rs.contains n = true ↔ ∃ r ∈ rs, r.1 ≤ n ∧ n ≤ r.2 := by
  induction rs with
  | nil => simp [contains]
  | cons r rest ih =>
    obtain ⟨above, ascending⟩ := List.pairwise_cons.1 ascending
    have ih := ih ascending
    simp only [contains]
    split
    · next below =>
      simp only [Bool.false_eq_true, false_iff, not_exists, not_and]
      intro s hs
      rcases List.mem_cons.1 hs with rfl | hs
      · omega
      · have := above s hs
        omega
    · split
      · simp only [true_iff]
        exact ⟨r, List.mem_cons_self, by omega, by omega⟩
      · rw [ih]
        constructor
        · rintro ⟨s, hs, h⟩
          exact ⟨s, List.mem_cons_of_mem _ hs, h⟩
        · rintro ⟨s, hs, h⟩
          rcases List.mem_cons.1 hs with rfl | hs
          · omega
          · exact ⟨s, hs, h⟩

end Ranges

end TemporalCheck.Text
