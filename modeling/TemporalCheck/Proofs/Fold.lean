/-!
# Computations that may fail

A sequence of steps succeeds when each of them does, and a fold ends with the first error of its
steps.
-/

namespace TemporalCheck

variable {α β ε : Type} {f : β → α → Except ε β} {l : List α} {b c : β}

theorem bind_eq_ok_iff {x : Except ε α} {g : α → Except ε β} {r : β} :
    x >>= g = .ok r ↔ ∃ a, x = .ok a ∧ g a = .ok r := by
  cases x with
  | error e => simp [bind, Except.bind]
  | ok a => simp [bind, Except.bind]

theorem bind_eq_error_iff {x : Except ε α} {g : α → Except ε β} {e : ε} :
    x >>= g = .error e ↔ x = .error e ∨ ∃ a, x = .ok a ∧ g a = .error e := by
  cases x with
  | error e => simp [bind, Except.bind]
  | ok a => simp [bind, Except.bind]

theorem mapError_eq_ok_iff {ε' : Type} {h : ε → ε'} {x : Except ε α} {a : α} :
    x.mapError h = .ok a ↔ x = .ok a := by
  cases x with
  | error e =>
    constructor
    · intro he
      cases he
    · intro he
      cases he
  | ok b => exact ⟨fun he => congrArg _ (Except.ok.inj he), fun he => congrArg _ (Except.ok.inj he)⟩

theorem exists_eq_ok_of_isOk {x : Except ε α} (h : x.isOk = true) : ∃ a, x = .ok a := by
  cases x with
  | error e => cases h
  | ok a => exact ⟨a, rfl⟩

theorem foldlM_cons_eq_ok_iff {a : α} :
    (a :: l).foldlM f b = .ok c ↔ ∃ d, f b a = .ok d ∧ l.foldlM f d = .ok c := by
  rw [List.foldlM_cons, bind_eq_ok_iff]

theorem exists_foldlM_eq_ok (P : β → Prop)
    (step : ∀ x ∈ l, ∀ b, P b → ∃ c, f b x = .ok c ∧ P c) (hb : P b) :
    ∃ c, l.foldlM f b = .ok c := by
  induction l generalizing b with
  | nil => exact ⟨b, rfl⟩
  | cons x l ih =>
    obtain ⟨d, hd, hp⟩ := step x List.mem_cons_self b hb
    obtain ⟨c, hc⟩ := ih (fun y hy => step y (List.mem_cons_of_mem x hy)) hp
    exact ⟨c, foldlM_cons_eq_ok_iff.2 ⟨d, hd, hc⟩⟩

theorem exists_of_foldlM_eq_error {e : ε} (h : l.foldlM f b = .error e) :
    ∃ before x after c, l = before ++ x :: after ∧ before.foldlM f b = .ok c ∧
      f c x = .error e := by
  induction l generalizing b with
  | nil => cases h
  | cons x l ih =>
    rw [List.foldlM_cons] at h
    rcases bind_eq_error_iff.1 h with hx | ⟨d, hd, h⟩
    · exact ⟨[], x, l, b, rfl, rfl, hx⟩
    · obtain ⟨before, y, after, c, rfl, hc, hy⟩ := ih h
      exact ⟨x :: before, y, after, c, rfl, foldlM_cons_eq_ok_iff.2 ⟨d, hd, hc⟩, hy⟩

/-- A fold whose steps go through but for the bad elements ends with the error of the first of
them. -/
theorem foldlM_eq_error_of_find? (P : β → Prop) {bad : α → Bool} {x : α} {e : ε}
    (step : ∀ y ∈ l, bad y = false → ∀ b, P b → ∃ c, f b y = .ok c ∧ P c)
    (hx : l.find? bad = some x) (stop : ∀ b, P b → f b x = .error e) (hb : P b) :
    l.foldlM f b = .error e := by
  induction l generalizing b with
  | nil => cases hx
  | cons y l ih =>
    rw [List.foldlM_cons]
    cases hy : bad y with
    | true =>
      rw [List.find?_cons_of_pos hy] at hx
      cases hx
      rw [stop b hb]
      rfl
    | false =>
      rw [List.find?_cons_of_neg (by simp [hy])] at hx
      obtain ⟨d, hd, hp⟩ := step y List.mem_cons_self hy b hb
      rw [hd]
      exact ih (fun z hz => step z (List.mem_cons_of_mem y hz)) hx hp

end TemporalCheck
