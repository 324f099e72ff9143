import TemporalCheck.Proofs.Alphabet
import TemporalCheck.Proofs.Printing

/-!
# The text of a counterexample shows one word

Letters are written one after the other, without a separator, and so are the stem and the cycle.
A name that was read from a formula holds neither braces nor commas, so each brace that closes a
letter is the first one after its names, and what follows a letter is another letter or a
parenthesis. A text is then divided in one way only.
-/

namespace TemporalCheck

theorem append_cons_inj_of_forall {α : Type} {p : α → Bool} {l l' d d' : List α} {c c' : α}
    (h : l ++ c :: d = l' ++ c' :: d') (hl : ∀ x ∈ l, p x = true) (hl' : ∀ x ∈ l', p x = true)
    (hc : p c = false) (hc' : p c' = false) : l = l' ∧ c = c' ∧ d = d' := by
  have hneg {x : α} (hx : p x = false) : ¬ p x = true := Bool.not_eq_true _ ▸ hx
  have htake := congrArg (List.takeWhile p) h
  have hdrop := congrArg (List.dropWhile p) h
  rw [List.takeWhile_append_of_pos hl, List.takeWhile_append_of_pos hl',
    List.takeWhile_cons_of_neg (hneg hc), List.takeWhile_cons_of_neg (hneg hc'),
    List.append_nil, List.append_nil] at htake
  rw [List.dropWhile_append_of_pos hl, List.dropWhile_append_of_pos hl',
    List.dropWhile_cons_of_neg (hneg hc), List.dropWhile_cons_of_neg (hneg hc')] at hdrop
  exact ⟨htake, List.cons_eq_cons.1 hdrop⟩

/-- Items that end where their own texts say so can be told apart up to a mark that begins none
of them. -/
theorem flatMap_append_cons_inj {α β : Type} {text : α → List β} {P : α → Prop} {c : β}
    (hitem : ∀ a a' x x', P a → P a' → text a ++ x = text a' ++ x' → a = a' ∧ x = x')
    (hmark : ∀ a x x', P a → text a ++ x ≠ c :: x') {u u' : List α} {x x' : List β}
    (hu : ∀ a ∈ u, P a) (hu' : ∀ a ∈ u', P a)
    (h : u.flatMap text ++ c :: x = u'.flatMap text ++ c :: x') : u = u' ∧ x = x' := by
  induction u generalizing u' with
  | nil =>
    cases u' with
    | nil => exact ⟨rfl, (List.cons_eq_cons.1 h).2⟩
    | cons a' u' =>
      rw [List.flatMap_cons, List.append_assoc] at h
      exact absurd h.symm (hmark a' _ _ (hu' a' List.mem_cons_self))
  | cons a u ih =>
    rw [List.flatMap_cons, List.append_assoc] at h
    cases u' with
    | nil => exact absurd h (hmark a _ _ (hu a List.mem_cons_self))
    | cons a' u' =>
      rw [List.flatMap_cons, List.append_assoc] at h
      obtain ⟨rfl, hrest⟩ := hitem a a' _ _ (hu a List.mem_cons_self) (hu' a' List.mem_cons_self) h
      obtain ⟨rfl, hx⟩ := ih (fun b hb => hu b (List.mem_cons_of_mem a hb))
        (fun b hb => hu' b (List.mem_cons_of_mem a hb)) hrest
      exact ⟨rfl, hx⟩

theorem Token.IsName.forall_isNameChar {name : String} (h : IsName name) :
    ∀ c ∈ name.toList, isNameChar c = true := by
  obtain ⟨c, cs, hname, hstart, hall⟩ := h
  rw [hname]
  intro d hd
  rcases List.mem_cons.1 hd with rfl | hd
  · rw [isNameChar, hstart, Bool.true_or, Bool.true_or]
  · exact hall d hd

theorem Token.IsName.append_ne_cons {name : String} (h : IsName name) {c : Char}
    (hc : Token.isNameChar c = false) {x x' : List Char} : name.toList ++ x ≠ c :: x' := by
  intro he
  have hchars := h.forall_isNameChar
  obtain ⟨d, ds, hname, -⟩ := h
  rw [hname, List.cons_append] at he
  rw [hname, (List.cons_eq_cons.1 he).1] at hchars
  exact absurd (hchars c List.mem_cons_self) (by simp [hc])

namespace Letter

def Named (l : Letter) : Prop := ∀ a ∈ l, Token.IsName a

theorem toList_render (l : Letter) : l.render.toList =
    '\x7b' :: ([',', ' '].intercalate (l.toList.map String.toList) ++ ['\x7d']) := by
  simp [render]

theorem intercalate_cons_cases (a : String) (l : List String) (x : List Char) : ∃ c d,
    [',', ' '].intercalate ((a :: l).map String.toList) ++ '\x7d' :: x = a.toList ++ c :: d ∧
      Token.isNameChar c = false ∧ (l = [] ∧ c = '\x7d' ∧ d = x ∨ c = ',' ∧
        d = ' ' :: ([',', ' '].intercalate (l.map String.toList) ++ '\x7d' :: x)) := by
  cases l with
  | nil => exact ⟨'\x7d', x, by simp, by decide, Or.inl ⟨rfl, rfl, rfl⟩⟩
  | cons b l => exact ⟨',', _, by simp, by decide, Or.inr ⟨rfl, rfl⟩⟩

theorem intercalate_append_inj {l l' : List String} (hl : ∀ a ∈ l, Token.IsName a)
    (hl' : ∀ a ∈ l', Token.IsName a) {x x' : List Char}
    (h : [',', ' '].intercalate (l.map String.toList) ++ '\x7d' :: x =
      [',', ' '].intercalate (l'.map String.toList) ++ '\x7d' :: x') : l = l' ∧ x = x' := by
  have brace : Token.isNameChar '\x7d' = false := by decide
  induction l generalizing l' with
  | nil =>
    cases l' with
    | nil => exact ⟨rfl, (List.cons_eq_cons.1 h).2⟩
    | cons a' l' =>
      obtain ⟨c, d, he, -⟩ := intercalate_cons_cases a' l' x'
      rw [he] at h
      exact absurd h.symm ((hl' a' List.mem_cons_self).append_ne_cons brace)
  | cons a l ih =>
    obtain ⟨c, d, he, hc, htail⟩ := intercalate_cons_cases a l x
    rw [he] at h
    cases l' with
    | nil => exact absurd h ((hl a List.mem_cons_self).append_ne_cons brace)
    | cons a' l' =>
      obtain ⟨c', d', he', hc', htail'⟩ := intercalate_cons_cases a' l' x'
      rw [he'] at h
      obtain ⟨ha, rfl, rfl⟩ := append_cons_inj_of_forall h
        (hl a List.mem_cons_self).forall_isNameChar (hl' a' List.mem_cons_self).forall_isNameChar
        hc hc'
      obtain rfl := String.toList_inj.1 ha
      -- Both lists end here or both go on, since a brace is no comma.
      rcases htail with ⟨rfl, rfl, rfl⟩ | ⟨rfl, rfl⟩
      · rcases htail' with ⟨rfl, -, rfl⟩ | ⟨hbad, -⟩
        · exact ⟨rfl, rfl⟩
        · exact absurd hbad (by decide)
      · rcases htail' with ⟨-, hbad, -⟩ | ⟨-, hrest⟩
        · exact absurd hbad (by decide)
        · obtain ⟨rfl, hx⟩ := ih (fun b hb => hl b (List.mem_cons_of_mem a hb))
            (fun b hb => hl' b (List.mem_cons_of_mem a hb)) (List.cons_eq_cons.1 hrest).2
          exact ⟨rfl, hx⟩

theorem render_append_inj (l l' : Letter) (x x' : List Char) (hl : l.Named) (hl' : l'.Named)
    (h : l.render.toList ++ x = l'.render.toList ++ x') : l = l' ∧ x = x' := by
  rw [toList_render, toList_render] at h
  simp only [List.cons_append, List.append_assoc, List.nil_append] at h
  obtain ⟨he, hx⟩ := intercalate_append_inj hl hl' (List.cons_eq_cons.1 h).2
  exact ⟨OrdSet.ext_toList he, hx⟩

theorem render_append_ne_cons {c : Char} (hc : c ≠ '\x7b') (l : Letter) (x x' : List Char) :
    l.render.toList ++ x ≠ c :: x' := by
  intro h
  rw [toList_render] at h
  exact hc (List.cons_eq_cons.1 h).1.symm

end Letter

namespace LassoWord

variable {w w' : LassoWord Letter}

def Named (w : LassoWord Letter) : Prop := ∀ l ∈ w.stem ++ w.cycle, l.Named

theorem toList_render (w : LassoWord Letter) : (w.render Letter.render).toList =
    w.stem.flatMap (fun l => l.render.toList) ++
      '(' :: (w.cycle.flatMap (fun l => l.render.toList) ++ [')']) := by
  simp [render, List.flatMap_map]

theorem render_inj (hw : w.Named) (hw' : w'.Named)
    (h : w.render Letter.render = w'.render Letter.render) : w = w' := by
  have hlist := congrArg String.toList h
  rw [toList_render, toList_render] at hlist
  obtain ⟨hstem, hrest⟩ := flatMap_append_cons_inj Letter.render_append_inj
    (fun l x x' _ => Letter.render_append_ne_cons (by decide) l x x')
    (fun l hl => hw l (List.mem_append.2 (Or.inl hl)))
    (fun l hl => hw' l (List.mem_append.2 (Or.inl hl))) hlist
  obtain ⟨hcycle, -⟩ := flatMap_append_cons_inj Letter.render_append_inj
    (fun l x x' _ => Letter.render_append_ne_cons (by decide) l x x')
    (fun l hl => hw l (List.mem_append.2 (Or.inr hl)))
    (fun l hl => hw' l (List.mem_append.2 (Or.inr hl))) hrest
  cases w
  cases w'
  cases hstem
  cases hcycle
  rfl

theorem Spells.unique {u u' : Word Letter} (h : w.Spells u) (h' : w.Spells u') : u = u' :=
  funext fun i => Option.some.inj ((h i).symm.trans (h' i))

end LassoWord

/-- The text is the rendering of a lasso word over names, and `u` is the word that it spells. -/
def Denotes (text : String) (u : Word Letter) : Prop :=
  ∃ w : LassoWord Letter, w.Named ∧ w.render Letter.render = text ∧ w.Spells u

theorem LassoWord.existsUnique_denotes {w : LassoWord Letter} {u : Word Letter} (hw : w.Named)
    (hu : w.Spells u) : ∃! u, Denotes (w.render Letter.render) u := by
  refine ⟨u, ⟨w, hw, rfl, hu⟩, fun u' hu' => ?_⟩
  obtain ⟨w', hw', he, hs⟩ := hu'
  rw [LassoWord.render_inj hw' hw he] at hs
  exact hs.unique hu

theorem Formula.AllNames.of_mem_names {f : Formula} {p : String → Prop} (h : f.AllNames p)
    {a : String} (ha : a ∈ f.names) : p a := by
  induction f with
  | const b => exact absurd ha (OrdSet.not_mem_empty a)
  | var name =>
    rw [OrdSet.mem_singleton.1 ha]
    exact h
  | unary op f ih =>
    rw [names_unary] at ha
    exact ih h ha
  | binary op l r ihl ihr =>
    rw [names_binary, OrdSet.mem_union] at ha
    rcases ha with ha | ha
    · exact ihl h.1 ha
    · exact ihr h.2 ha

theorem Automaton.exists_edge_of_mem_symbolsAlong {δ : Type} {A : Automaton Letter δ} {a : Letter}
    {states : List String} (h : a ∈ A.symbolsAlong states) : ∃ p q, A.Edge p a q := by
  fun_induction symbolsAlong A states with
  | case1 p q rest ih =>
    rcases List.mem_append.1 h with h | h
    · obtain ⟨symbols, hs, ha⟩ := Option.bind_eq_some_iff.1 (Option.mem_toList.1 h)
      exact ⟨p, q, symbols, hs, (OrdSet.least_of_min? ha).1⟩
    · exact ih h
  | case2 => cases h

theorem Lasso.named_word {δ : Type} {A : Automaton Letter δ} (l : Lasso)
    (hA : ∀ p a q, A.Edge p a q → a.Named) : (l.word A).Named := by
  intro a ha
  obtain ⟨p, q, he⟩ : ∃ p q, A.Edge p a q := by
    rcases List.mem_append.1 ha with ha | ha
    · exact Automaton.exists_edge_of_mem_symbolsAlong ha
    · exact Automaton.exists_edge_of_mem_symbolsAlong ha
  exact hA p a q he

section Text

variable {k : Kripke} {text : String} {f : Formula} {config : Config} {v : Verification}

theorem exists_parse_of_verifyText (h : k.verifyText text = .ok v) :
    ∃ f, Formula.parse text = .ok f ∧ k.verify f .standard = .ok v := by
  obtain ⟨f, hf, hv⟩ := bind_eq_ok_iff.1 h
  exact ⟨f, mapError_eq_ok_iff.1 hf, hv⟩

theorem named_of_edge_product (hf : Formula.parse text = .ok f) (hv : k.verify f config = .ok v)
    {p q : String} {a : Letter} (he : v.product.Edge p a q) : a.Named := by
  intro x hx
  have hnames : x ∈ f.names := (sharesAlphabet_of_verify hv).product p a q he x hx
  exact (allNames_of_parse hf).of_mem_names hnames

theorem existsUnique_denotes_of_verifyText (hk : k.Built) (h : k.verifyText text = .ok v) :
    ∀ c ∈ v.counterexamples, ∃! u, Denotes c u := by
  obtain ⟨f, hf, hv⟩ := exists_parse_of_verifyText h
  have hV := verifies_of_verify hk hv
  obtain ⟨H, -, -, hwords⟩ := hV.result
  intro c hc
  rw [hwords] at hc
  have hc := limit_subset _ _ c hc
  rw [OrdSet.mem_ofList] at hc
  obtain ⟨l, hl, rfl⟩ := List.mem_map.1 hc
  obtain ⟨q, -, hs⟩ := Automaton.sound_of_mem_lassos hV.checks.wellFormed hl
  obtain ⟨u, hu, -⟩ := hs.exists_run hV.checks.wellFormed
  have hnamed := l.named_word fun _ _ _ he => named_of_edge_product hf hv he
  exact LassoWord.existsUnique_denotes hnamed hu

end Text

/-- Two stems and cycles over names have the same text only if they are the same. The letters of
the product are over names when the formula was read from a text, so each counterexample of such
a formula denotes one infinite word. -/
theorem counterexample_denotes_one_word :
    (∀ u v u' v' : List Letter, (∀ l ∈ u ++ v, l.Named) → (∀ l ∈ u' ++ v', l.Named) →
      LassoWord.render Letter.render ⟨u, v⟩ = LassoWord.render Letter.render ⟨u', v'⟩ →
        u = u' ∧ v = v') ∧
    (∀ k text f config v, Formula.parse text = .ok f → Kripke.verify k f config = .ok v →
      ∀ p a q, v.product.Edge p a q → a.Named) ∧
    ∀ k text v, Kripke.Built k → k.verifyText text = .ok v →
      ∀ c ∈ v.counterexamples, ∃! u, Denotes c u := by
  refine ⟨fun u v u' v' hw hw' h => ?_, fun k text f config v hf hv p a q he => ?_,
    fun k text v hk h => existsUnique_denotes_of_verifyText hk h⟩
  · have he : (⟨u, v⟩ : LassoWord Letter) = ⟨u', v'⟩ := LassoWord.render_inj hw hw' h
    cases he
    exact ⟨rfl, rfl⟩
  · exact named_of_edge_product hf hv he

theorem counterexample_denotes_lost :
    (∀ u v : List Letter, (∀ l ∈ u ++ v, l.Named) →
      LassoWord.render Letter.render ⟨u, v⟩ = "\x7bp, q2\x7d\x7b\x7d(\x7bp\x7d)" →
        u = [.ofList ["p", "q2"], .empty] ∧ v = [.singleton "p"]) ∧
    ∃ v c, lost.verifyText "G p" = .ok v ∧ c ∈ v.counterexamples ∧ ∃! u, Denotes c u := by
  obtain ⟨hinj, -, hverify⟩ := counterexample_denotes_one_word
  constructor
  · intro u v hw h
    have hp : Token.IsName "p" := ⟨'p', [], by decide, by decide, List.forall_mem_nil _⟩
    have hq : Token.IsName "q2" :=
      ⟨'q', ['2'], by decide, by decide, List.forall_mem_singleton.2 (by decide)⟩
    refine hinj u v _ _ hw (fun l hl a ha => ?_) (h.trans (by decide))
    have hnames : a = "p" ∨ a = "q2" := by
      rcases (by simpa using hl : l = _ ∨ l = _ ∨ l = _) with rfl | rfl | rfl
      · simpa using ha
      · exact absurd ha (OrdSet.not_mem_empty a)
      · exact Or.inl (OrdSet.mem_singleton.1 ha)
    rcases hnames with rfl | rfl
    · exact hp
    · exact hq
  · obtain ⟨v, hv⟩ := exists_verify_lost none
    have hV := verifies_of_verify built_lost hv
    have hfalse : v.confirmed = false := by
      rw [← Bool.not_eq_true, hV.confirmed_iff, not_not]
      exact exists_lostPath_violates
    obtain ⟨c, hc⟩ := (hV.exists_counterexample_iff rfl).2 hfalse
    have hparse : Formula.parse "G p" = .ok (.unary .always (.var "p")) := rfl
    have htext : lost.verifyText "G p" = .ok v :=
      bind_eq_ok_iff.2 ⟨_, mapError_eq_ok_iff.2 hparse, hv⟩
    exact ⟨v, c, htext, hc, hverify lost "G p" v built_lost htext c hc⟩

example : Letter.render (.singleton "p, q") = Letter.render (.ofList ["p", "q"]) ∧
    Letter.render (.singleton "") = Letter.render .empty := by
  decide

end TemporalCheck
