import TemporalCheck.Automaton.Degeneralize
import TemporalCheck.Automaton.Product
import TemporalCheck.Tableau.Node

/-!
# Distinct states have distinct labels

Copies of a state in different rounds, tableau nodes and product states are told
apart by texts that are made from their parts. Numerals hold digits only, so a
text that ends with a separator and a numeral determines both of its parts, and a
search for a free label never runs out of candidates.
-/

namespace TemporalCheck

theorem toString_nat_inj {m n : Nat} (h : toString m = toString n) : m = n := by
  have hd := congrArg String.toList h
  rw [show toString m = m.repr from rfl, show toString n = n.repr from rfl, Nat.toList_repr,
    Nat.toList_repr] at hd
  rw [← Nat.ofDigitChars_ten_toDigits (n := m), hd, Nat.ofDigitChars_ten_toDigits]

theorem isDigit_of_mem_toString {n : Nat} {c : Char} (h : c ∈ (toString n).toList) :
    c.isDigit = true := by
  rw [show toString n = n.repr from rfl, Nat.toList_repr] at h
  exact Nat.isDigit_of_mem_toDigits (by decide) (by decide) h

theorem not_mem_toString {n : Nat} {c : Char} (hc : c.isDigit = false) :
    c ∉ (toString n).toList := by
  intro h
  rw [isDigit_of_mem_toString h] at hc
  cases hc

theorem append_cons_inj {α : Type} {l l' d d' : List α} {c : α}
    (h : l ++ c :: d = l' ++ c :: d') (hd : c ∉ d) (hd' : c ∉ d') : l = l' ∧ d = d' := by
  rcases List.append_eq_append_iff.1 h with ⟨m, rfl, hm⟩ | ⟨m, rfl, hm⟩
  · cases m with
    | nil => exact ⟨by simp, by simpa using hm⟩
    | cons x m =>
      obtain ⟨rfl, rfl⟩ := List.cons_eq_cons.1 hm
      exact absurd (by simp) hd
  · cases m with
    | nil => exact ⟨by simp, by simpa using hm.symm⟩
    | cons x m =>
      obtain ⟨rfl, rfl⟩ := List.cons_eq_cons.1 hm
      exact absurd (by simp) hd'

theorem copyLabel_inj {p q : String} {m n : Nat}
    (h : Automaton.copyLabel p m = Automaton.copyLabel q n) : p = q ∧ m = n := by
  have spell (p : String) (m : Nat) : (Automaton.copyLabel p m).toList =
      '(' :: (p.toList ++ [',']) ++ ' ' :: ((toString m).toList ++ [')']) := by
    simp [Automaton.copyLabel]
  have blank (k : Nat) : ' ' ∉ (toString k).toList ++ [')'] := by
    simpa using not_mem_toString (n := k) (by decide : ' '.isDigit = false)
  have hl := congrArg String.toList h
  rw [spell, spell] at hl
  obtain ⟨hp, hm⟩ := append_cons_inj hl (blank m) (blank n)
  refine ⟨String.ext ?_, toString_nat_inj (String.ext ?_)⟩
  · simpa using hp
  · simpa using hm

theorem Tableau.Origin.label_inj {a b : Tableau.Origin} (h : a.label = b.label) : a = b := by
  have entry_ne (n : Nat) : "init" ≠ toString n := by
    intro he
    have hi : 'i' ∈ (toString n).toList := by simp [← he]
    exact not_mem_toString (by decide) hi
  cases a with
  | entry =>
    cases b with
    | entry => rfl
    | node n => exact absurd h (entry_ne n)
  | node m =>
    cases b with
    | entry => exact absurd h.symm (entry_ne m)
    | node n => rw [toString_nat_inj h]

namespace Product

theorem candidate_inj {base : String} {m n : Nat} (h : candidate base m = candidate base n) :
    m = n := by
  have longer (k : Nat) : base ≠ base ++ "#" ++ toString k := by
    intro he
    have hl := congrArg (fun s => s.toList.length) he
    simp at hl
  cases m with
  | zero =>
    cases n with
    | zero => rfl
    | succ n => exact absurd h (longer (n + 1))
  | succ m =>
    cases n with
    | zero => exact absurd h.symm (longer (m + 1))
    | succ n =>
      have hl := congrArg String.toList h
      simp only [candidate, String.toList_append] at hl
      exact toString_nat_inj (String.ext (List.append_cancel_left hl))

theorem firstFree_not_mem {taken : List String} {base : String} {fuel i : Nat}
    (h : firstFree taken base fuel i ∈ taken) :
    ∀ j, i ≤ j → j ≤ i + fuel → candidate base j ∈ taken := by
  induction fuel generalizing i with
  | zero =>
    intro j hi hj
    obtain rfl : j = i := by omega
    exact h
  | succ fuel ih =>
    rw [firstFree] at h
    split at h
    · next hc =>
      intro j hi hj
      by_cases he : j = i
      · exact he ▸ hc
      · exact ih h j (by omega) (by omega)
    · next hc => exact absurd h hc

theorem freshLabel_not_mem (taken : List String) (base : String) :
    freshLabel taken base ∉ taken := by
  intro h
  have all := firstFree_not_mem h
  -- There are more candidates than labels are taken.
  have hnodup : ((List.range (taken.length + 1)).map (candidate base)).Nodup :=
    List.pairwise_map.2 (List.nodup_range.imp fun hne he => hne (candidate_inj he))
  have hsub : ((List.range (taken.length + 1)).map (candidate base)) ⊆ taken := by
    intro c hc
    obtain ⟨j, hj, rfl⟩ := List.mem_map.1 hc
    have hlt := List.mem_range.1 hj
    exact all j (by omega) (by omega)
  have hlen := hnodup.length_le_of_subset hsub
  rw [List.length_map, List.length_range] at hlen
  omega

theorem map_fst_assignLabels (taken : List String) (ts : List Triple) :
    (assignLabels taken ts).map Prod.fst = ts := by
  induction ts generalizing taken with
  | nil => rfl
  | cons t ts ih => rw [assignLabels, List.map_cons, ih]

theorem assignLabels_fresh (taken : List String) (ts : List Triple) :
    (∀ e ∈ assignLabels taken ts, e.2 ∉ taken) ∧
      ((assignLabels taken ts).map Prod.snd).Nodup := by
  induction ts generalizing taken with
  | nil => simp [assignLabels]
  | cons t ts ih =>
    obtain ⟨hf, hn⟩ := ih (freshLabel taken t.text :: taken)
    rw [assignLabels]
    constructor
    · intro e he
      rcases List.mem_cons.1 he with rfl | he
      · exact freshLabel_not_mem taken t.text
      · exact fun hm => hf e he (List.mem_cons_of_mem _ hm)
    · refine List.nodup_cons.2 ⟨fun hm => ?_, hn⟩
      obtain ⟨e, he, heq⟩ := List.mem_map.1 hm
      exact hf e he (heq ▸ List.mem_cons_self)

end Product

end TemporalCheck
