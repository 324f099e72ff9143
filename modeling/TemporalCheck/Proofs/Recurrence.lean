import TemporalCheck.Automaton.Language

/-!
# What happens again and again

Facts about infinite sequences that the arguments about runs share: a sequence is
made from single steps, one of finitely many values comes back for ever, and a
counter that goes round `k` rounds, leaving round `m` when the event of `m`
happens, leaves every round again and again exactly when every event happens again
and again.
-/

namespace TemporalCheck

def Often (Q : Nat → Prop) : Prop := ∀ i, ∃ j, i ≤ j ∧ Q j

theorem Often.mono {P Q : Nat → Prop} (h : ∀ i, P i → Q i) (hP : Often P) : Often Q := by
  intro i
  obtain ⟨j, hj, hp⟩ := hP i
  exact ⟨j, hj, h j hp⟩

theorem often_shift {Q : Nat → Prop} : Often (fun i => Q (i + 1)) ↔ Often Q := by
  constructor
  · intro h i
    obtain ⟨j, hj, hq⟩ := h i
    exact ⟨j + 1, by omega, hq⟩
  · intro h i
    obtain ⟨j, hj, hq⟩ := h (i + 1)
    cases j with
    | zero => omega
    | succ j => exact ⟨j, by omega, hq⟩

def enter {α : Type} (entry : α) (x : Nat → α) : Nat → α
  | 0 => entry
  | i + 1 => x i

theorem exists_sequence {α : Type} {P : Nat → α → Prop} {R : Nat → α → α → Prop} {a : α}
    (start : P 0 a) (step : ∀ i a, P i a → ∃ b, R i a b ∧ P (i + 1) b) :
    ∃ r : Nat → α, r 0 = a ∧ (∀ i, P i (r i)) ∧ ∀ i, R i (r i) (r (i + 1)) := by
  let next (i : Nat) (x : { a // P i a }) : { b // P (i + 1) b } :=
    ⟨(step i x.1 x.2).choose, (step i x.1 x.2).choose_spec.2⟩
  let s : ∀ i, { a // P i a } := fun i => Nat.rec ⟨a, start⟩ next i
  refine ⟨fun i => (s i).1, rfl, fun i => (s i).2, fun i => ?_⟩
  exact (step i (s i).1 (s i).2).choose_spec.1

theorem exists_mem_often {α : Type} {l : List α} {r : Nat → α} (h : Often fun i => r i ∈ l) :
    ∃ a ∈ l, Often fun i => r i = a := by
  induction l with
  | nil =>
    obtain ⟨j, -, hj⟩ := h 0
    cases hj
  | cons a l ih =>
    by_cases ha : Often fun i => r i = a
    · exact ⟨a, List.mem_cons_self, ha⟩
    · obtain ⟨i₀, hi₀⟩ := Classical.not_forall.1 ha
      have rest : Often fun i => r i ∈ l := by
        intro i
        obtain ⟨j, hj, hm⟩ := h (max i i₀)
        refine ⟨j, by omega, ?_⟩
        rcases List.mem_cons.1 hm with he | hm
        · exact absurd ⟨j, by omega, he⟩ hi₀
        · exact hm
      obtain ⟨b, hb, hr⟩ := ih rest
      exact ⟨b, List.mem_cons_of_mem a hb, hr⟩

structure Rotates (k : Nat) (P : Nat → Nat → Prop) (c : Nat → Nat) : Prop where
  lt : ∀ i, c i < k
  move : ∀ i, P (c i) i → c (i + 1) = (c i + 1) % k
  stay : ∀ i, ¬ P (c i) i → c (i + 1) = c i

namespace Rotates

variable {k : Nat} {P : Nat → Nat → Prop} {c : Nat → Nat}

theorem stays_or_leaves (h : Rotates k P c) (i n : Nat) :
    c (i + n) = c i ∨ ∃ j, i ≤ j ∧ c j = c i ∧ P (c i) j := by
  induction n with
  | zero => exact Or.inl rfl
  | succ n ih =>
    rcases ih with hs | hl
    · by_cases hp : P (c (i + n)) (i + n)
      · exact Or.inr ⟨i + n, by omega, hs, hs ▸ hp⟩
      · exact Or.inl ((h.stay (i + n) hp).trans hs)
    · exact Or.inr hl

theorem exists_leave (h : Rotates k P c) (hP : ∀ m < k, Often (P m)) (i : Nat) :
    ∃ j, i ≤ j ∧ c j = c i ∧ P (c i) j := by
  obtain ⟨j, hj, hp⟩ := hP (c i) (h.lt i) i
  have he : i + (j - i) = j := by omega
  rcases h.stays_or_leaves i (j - i) with hs | hl
  · rw [he] at hs
    exact ⟨j, hj, hs, hp⟩
  · exact hl

theorem exists_advance (h : Rotates k P c) (hP : ∀ m < k, Often (P m)) (i t : Nat) :
    ∃ j, i ≤ j ∧ c j = (c i + t) % k ∧ P (c j) j := by
  induction t with
  | zero =>
    obtain ⟨j, hj, hc, hp⟩ := h.exists_leave hP i
    exact ⟨j, hj, by rw [hc, Nat.add_zero, Nat.mod_eq_of_lt (h.lt i)], hc ▸ hp⟩
  | succ t ih =>
    obtain ⟨j, hj, hc, hp⟩ := ih
    obtain ⟨l, hl, hcl, hpl⟩ := h.exists_leave hP (j + 1)
    refine ⟨l, by omega, ?_, hcl ▸ hpl⟩
    rw [hcl, h.move j hp, hc, Nat.mod_add_mod, Nat.add_assoc]

theorem add_sub_mod {m n : Nat} (hm : m < k) (hn : n < k) : (m + (k - m + n)) % k = n := by
  have he : m + (k - m + n) = k + n := by omega
  rw [he, Nat.add_mod_left, Nat.mod_eq_of_lt hn]

theorem often_leave_of_often (h : Rotates k P c) (hP : ∀ m < k, Often (P m)) {m : Nat}
    (hm : m < k) : Often fun i => c i = m ∧ P m i := by
  intro i
  obtain ⟨j, hj, hc, hp⟩ := h.exists_advance hP i (k - c i + m)
  rw [add_sub_mod (h.lt i) hm] at hc
  exact ⟨j, hj, hc, hc ▸ hp⟩

theorem often_leave_next (h : Rotates k P c) {m : Nat} (hm : Often fun i => c i = m ∧ P m i) :
    Often fun i => c i = (m + 1) % k ∧ P ((m + 1) % k) i := by
  intro i
  obtain ⟨j, hj, hcj, hpj⟩ := hm i
  obtain ⟨l, hl, hcl, hpl⟩ := hm (j + 1)
  have hnext : c (j + 1) = (m + 1) % k := by
    rw [h.move j (hcj.symm ▸ hpj), hcj]
  by_cases he : (m + 1) % k = m
  · rw [he]
    exact ⟨l, by omega, hcl, hpl⟩
  · have hjl : j + 1 + (l - (j + 1)) = l := by omega
    rcases h.stays_or_leaves (j + 1) (l - (j + 1)) with hs | ⟨n, hn, hcn, hpn⟩
    · rw [hjl, hcl, hnext] at hs
      exact absurd hs.symm he
    · rw [hnext] at hcn hpn
      exact ⟨n, by omega, hcn, hpn⟩

theorem often_leave_of_leave (h : Rotates k P c) {m n : Nat} (hmk : m < k) (hn : n < k)
    (hm : Often fun i => c i = m ∧ P m i) : Often fun i => c i = n ∧ P n i := by
  have turn (t : Nat) : Often fun i => c i = (m + t) % k ∧ P ((m + t) % k) i := by
    induction t with
    | zero => rwa [Nat.add_zero, Nat.mod_eq_of_lt hmk]
    | succ t ih =>
      have hs := h.often_leave_next ih
      rwa [Nat.mod_add_mod, Nat.add_assoc] at hs
  have ht := turn (k - m + n)
  rwa [add_sub_mod hmk hn] at ht

theorem often_leave_iff (h : Rotates k P c) {m : Nat} (hm : m < k) :
    (Often fun i => c i = m ∧ P m i) ↔ ∀ n < k, Often (P n) := by
  constructor
  · intro hl n hn
    exact (h.often_leave_of_leave hm hn hl).mono fun _ hi => hi.2
  · intro hP
    exact h.often_leave_of_often hP hm

end Rotates

namespace Automaton

variable {σ δ : Type} [Ord σ] {A : Automaton σ δ} {w : Word σ}

theorem accepts_buchi_iff {finals : OrdSet String} (h : A.acceptance = .buchi finals) :
    A.Accepts w ↔ ∃ r, A.Run w r ∧ Often fun i => r i ∈ finals := by
  have hs : A.finalSets = [finals] := by rw [finalSets, h]; rfl
  simp only [Accepts, hs, List.mem_singleton, forall_eq, Recurs, Often]

end Automaton

end TemporalCheck
