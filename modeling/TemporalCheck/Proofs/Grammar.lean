import TemporalCheck.Formula.Grammar
import TemporalCheck.Formula.Parser
import TemporalCheck.Proofs.Fold

/-!
# The parser reads the grammar

A stack of frames is a formula with a gap, and a phrase of some level fits into the gap. What the
parser has read is at any time such a stack and an operand, so what it returns is a phrase. The
other way round, a phrase is read onto any stack whose gap admits its level, and leaves an operand
and operators that close to its tree as soon as something looser follows.
-/

namespace TemporalCheck

variable {L M : Level} {ts us : List TokenKind} {f g l r : Formula} {op next : BinaryOp}
  {stack rest : List Frame}

def Level.floor : Level → Nat
  | .implication => 0
  | .disjunction => 1
  | .conjunction => 2
  | .binding => 3
  | .prefixed => 4

namespace BinaryOp

def level : BinaryOp → Level
  | .implies => .implication
  | .or => .disjunction
  | .and => .conjunction
  | .until | .release => .binding

def leftLevel : BinaryOp → Level
  | .implies | .or => .disjunction
  | .and => .conjunction
  | .until | .release => .prefixed

def rightLevel : BinaryOp → Level
  | .implies => .implication
  | .or => .conjunction
  | .and | .until | .release => .binding

theorem precedes_iff : op.precedes next = true ↔ next.leftLevel.floor ≤ op.level.floor := by
  cases op <;> cases next <;> decide

theorem not_precedes_iff : op.precedes next = false ↔ op.rightLevel.floor ≤ next.level.floor := by
  cases op <;> cases next <;> decide

theorem level_le_rightLevel (op : BinaryOp) : op.level.floor ≤ op.rightLevel.floor := by
  cases op <;> decide

theorem level_le_leftLevel (op : BinaryOp) : op.level.floor ≤ op.leftLevel.floor := by
  cases op <;> decide

theorem rightLevel_le (op : BinaryOp) : op.rightLevel.floor ≤ 3 := by
  cases op <;> decide

end BinaryOp

namespace Derives

theorem binary (op : BinaryOp) (hl : Derives op.leftLevel ts l) (hr : Derives op.rightLevel us r) :
    Derives op.level (ts ++ .binary op :: us) (.binary op l r) := by
  cases op with
  | and => exact .and hl hr
  | or => exact .or hl hr
  | implies => exact .implies hl hr
  | «until» => exact .until hl hr
  | release => exact .release hl hr

theorem loosen (h : L.floor ≤ M.floor) (hd : Derives M ts f) : Derives L ts f := by
  have binding (hM : 3 ≤ M.floor) : Derives .binding ts f := by
    by_cases he : M = .binding
    · exact he ▸ hd
    · have he : M = .prefixed := by cases M <;> simp_all [Level.floor]
      exact .ofPrefixed (he ▸ hd)
  have conjunction (hM : 2 ≤ M.floor) : Derives .conjunction ts f := by
    by_cases he : M = .conjunction
    · exact he ▸ hd
    · exact .ofBinding (binding (by cases M <;> simp_all [Level.floor]))
  have disjunction (hM : 1 ≤ M.floor) : Derives .disjunction ts f := by
    by_cases he : M = .disjunction
    · exact he ▸ hd
    · exact .ofConjunction (conjunction (by cases M <;> simp_all [Level.floor]))
  cases L with
  | prefixed =>
    have he : M = .prefixed := by cases M <;> simp_all [Level.floor]
    exact he ▸ hd
  | binding => exact binding h
  | conjunction => exact conjunction h
  | disjunction => exact disjunction h
  | implication =>
    by_cases he : M = .implication
    · exact he ▸ hd
    · exact .ofDisjunction (disjunction (by cases M <;> simp_all [Level.floor]))

end Derives

/-- The stack comes from reading `ts`, and a phrase of the level fits into its gap. -/
inductive Opened : Level → List Frame → List TokenKind → Prop
  | start : Opened .implication [] []
  | group {L : Level} {stack : List Frame} {ts : List TokenKind} :
      Opened L stack ts → Opened .implication (.group :: stack) (ts ++ [.leftParen])
  | unary {L : Level} {stack : List Frame} {ts : List TokenKind} (op : UnaryOp) :
      Opened L stack ts → Opened .prefixed (.unary op :: stack) (ts ++ [.unary op])
  | binary {L : Level} {stack : List Frame} {ts us : List TokenKind} {l : Formula} (op : BinaryOp) :
      Opened L stack ts → L.floor ≤ op.level.floor → Derives op.leftLevel us l →
        Opened op.rightLevel (.binary op l :: stack) (ts ++ (us ++ [.binary op]))

namespace Parser

/-- The state of the parser after the tokens `ts`. -/
inductive Explains : Parser → List TokenKind → Prop
  | wanting {L : Level} {stack : List Frame} {ts : List TokenKind} :
      Opened L stack ts → Explains (.wanting stack) ts
  | holding {L : Level} {stack : List Frame} {ts us : List TokenKind} {f : Formula} :
      Opened L stack ts → L.floor ≤ 3 → Derives .prefixed us f →
        Explains (.holding stack f) (ts ++ us)

theorem explains_complete (h : Opened L stack ts) (hd : Derives .prefixed us f) :
    Explains (complete stack f) (ts ++ us) := by
  induction h generalizing us f with
  | start => exact .holding .start (by decide) hd
  | group h => exact .holding (.group h) (by decide) hd
  | unary op h ih =>
    have hrest := ih (.unary op hd)
    rwa [complete, List.append_assoc]
  | binary op h hle hl => exact .holding (.binary op h hle hl) op.rightLevel_le hd

theorem closeFor_opened (h : Opened L stack ts) (hL : L.floor ≤ 3) (hd : Derives M us f)
    (hfit : L.floor ≤ M.floor) (hleft : next.leftLevel.floor ≤ M.floor) :
    ∃ L' ts' us', Opened L' (closeFor next stack f).1 ts' ∧ L'.floor ≤ next.level.floor ∧
      Derives next.leftLevel us' (closeFor next stack f).2 ∧ ts ++ us = ts' ++ us' := by
  induction h generalizing M us f with
  | start => exact ⟨_, _, us, .start, Nat.zero_le _, hd.loosen hleft, rfl⟩
  | group h => exact ⟨_, _, us, .group h, Nat.zero_le _, hd.loosen hleft, rfl⟩
  | unary op h => exact absurd hL (by decide)
  | @binary L stack ts vs l op h hle hl ih =>
    rw [closeFor]
    split
    · next hp =>
      have hclosed := Derives.binary op hl (hd.loosen hfit)
      have hfloor : L.floor ≤ 3 :=
        Nat.le_trans hle (Nat.le_trans op.level_le_rightLevel op.rightLevel_le)
      obtain ⟨L', ts', us', ho, hlevel, hd', he⟩ :=
        ih hfloor hclosed hle (BinaryOp.precedes_iff.1 hp)
      refine ⟨L', ts', us', ho, hlevel, hd', ?_⟩
      rw [← he]
      simp only [List.append_assoc, List.cons_append, List.nil_append]
    · next hp =>
      have hlevel := BinaryOp.not_precedes_iff.1 (Bool.not_eq_true _ ▸ hp)
      exact ⟨_, _, us, .binary op h hle hl, hlevel, hd.loosen hleft, rfl⟩

theorem closeGroup_opened (h : Opened L stack ts) (hd : Derives M us f)
    (hfit : L.floor ≤ M.floor) :
    (∃ g, closeGroup stack f = (none, g) ∧ Derives .implication (ts ++ us) g) ∨
      ∃ rest g L' ts' us', closeGroup stack f = (some rest, g) ∧ Opened L' rest ts' ∧
        Derives .implication us' g ∧ ts ++ us = ts' ++ .leftParen :: us' := by
  induction h generalizing M us f with
  | start => exact Or.inl ⟨f, rfl, hd.loosen (Nat.zero_le _)⟩
  | @group L stack ts h =>
    refine Or.inr ⟨stack, f, L, ts, us, rfl, h, hd.loosen (Nat.zero_le _), ?_⟩
    rw [List.append_assoc, List.singleton_append]
  | @unary L stack ts op h ih =>
    have hfloor : L.floor ≤ Level.prefixed.floor := by cases L <;> decide
    rw [closeGroup, List.append_assoc, List.singleton_append]
    exact ih (.unary op (hd.loosen hfit)) hfloor
  | @binary L stack ts vs l op h hle hl ih =>
    have hrest := ih (Derives.binary op hl (hd.loosen hfit)) hle
    rwa [closeGroup, List.append_assoc, List.append_assoc, List.singleton_append]

theorem Explains.step {p q : Parser} {token : Token} (h : Explains p ts)
    (hs : p.step token = .ok q) : Explains q (ts ++ [token.kind]) := by
  cases h with
  | wanting h =>
    rw [Parser.step] at hs
    split at hs
    · next hk =>
      cases hs
      rw [hk]
      exact .wanting (.group h)
    · next op hk =>
      cases hs
      rw [hk]
      exact .wanting (.unary op h)
    · next b hk =>
      cases hs
      rw [hk]
      exact explains_complete h (.const b)
    · next n hk =>
      cases hs
      rw [hk]
      exact explains_complete h (.name n)
    · cases hs
    · cases hs
  | @holding L stack ts us f h hL hd =>
    have hfit : L.floor ≤ Level.prefixed.floor := Nat.le_trans hL (by decide)
    rw [Parser.step] at hs
    split at hs
    · next op hk =>
      cases hs
      have hleft : op.leftLevel.floor ≤ Level.prefixed.floor := by cases op <;> decide
      obtain ⟨L', ts', us', ho, hlevel, hd', he⟩ := closeFor_opened h hL hd hfit hleft
      rw [hk, he, List.append_assoc]
      exact .wanting (.binary op ho hlevel hd')
    · next hk =>
      rcases closeGroup_opened h hd hfit with ⟨g, hg, -⟩ | ⟨rest, g, L', ts', us', hg, ho, hd', he⟩
      · rw [hg] at hs
        cases hs
      · rw [hg] at hs
        cases hs
        rw [hk, he, List.append_assoc]
        exact explains_complete ho (.group hd')
    all_goals
      split at hs <;> cases hs

theorem Explains.foldlM {p q : Parser} {tokens : List Token} (h : Explains p ts)
    (hs : tokens.foldlM Parser.step p = .ok q) : Explains q (ts ++ tokens.map Token.kind) := by
  induction tokens generalizing p ts with
  | nil =>
    cases hs
    simpa using h
  | cons token tokens ih =>
    obtain ⟨p', hp', hs⟩ := foldlM_cons_eq_ok_iff.1 hs
    have hrest := ih (h.step hp') hs
    rwa [List.append_assoc] at hrest

theorem Explains.finish {p : Parser} (h : Explains p ts) (hf : p.finish = .ok f) :
    Derives .implication ts f := by
  cases h with
  | wanting h => cases hf
  | @holding L stack ts us f h hL hd =>
    rw [Parser.finish] at hf
    have hfit : L.floor ≤ Level.prefixed.floor := Nat.le_trans hL (by decide)
    rcases closeGroup_opened h hd hfit with ⟨g, hg, hd'⟩ | ⟨_, _, _, _, _, hg, -⟩
    · rw [hg] at hf
      cases hf
      exact hd'
    · rw [hg] at hf
      cases hf

def gap : List Frame → Nat
  | [] | .group :: _ => 0
  | .unary _ :: _ => Level.prefixed.floor
  | .binary op _ :: _ => op.rightLevel.floor

/-- The stack `rest` with the operand `g` stands for `stack` with the operand `f`, from which
operators of the given floor or tighter have not been closed yet. -/
inductive Defers : Nat → List Frame → Formula → List Frame → Formula → Prop
  | refl (n : Nat) (stack : List Frame) (f : Formula) : Defers n stack f stack f
  | binary {n : Nat} {stack rest : List Frame} {l r g : Formula} (op : BinaryOp) :
      n ≤ op.level.floor → Defers op.rightLevel.floor (.binary op l :: stack) r rest g →
        Defers n stack (.binary op l r) rest g

namespace Defers

variable {m n : Nat}

theorem mono (h : Defers n stack f rest g) (hmn : m ≤ n) : Defers m stack f rest g := by
  cases h with
  | refl => exact .refl m stack f
  | binary op hle h => exact .binary op (Nat.le_trans hmn hle) h

theorem closeGroup_eq (h : Defers n stack f rest g) : closeGroup rest g = closeGroup stack f := by
  induction h with
  | refl => rfl
  | binary op hle h ih => exact ih

theorem closeFor_eq (h : Defers n stack f rest g) (hn : next.leftLevel.floor ≤ n) :
    closeFor next rest g = closeFor next stack f := by
  induction h with
  | refl => rfl
  | binary op hle h ih =>
    have hlevel : next.leftLevel.floor ≤ op.level.floor := Nat.le_trans hn hle
    rw [ih (Nat.le_trans hlevel op.level_le_rightLevel), closeFor,
      if_pos (BinaryOp.precedes_iff.2 hlevel)]

theorem eq_of_prefixed (h : Defers Level.prefixed.floor stack f rest g) : rest = stack ∧ g = f := by
  cases h with
  | refl => exact ⟨rfl, rfl⟩
  | binary op hle h => exact absurd hle (by cases op <;> decide)

theorem complete_eq (h : Defers n stack f rest g) (hgap : gap stack ≤ 3) :
    complete rest g = .holding rest g := by
  induction h with
  | refl n stack f =>
    cases stack with
    | nil => rfl
    | cons frame stack =>
      cases frame with
      | group => rfl
      | unary op => simp [gap, Level.floor] at hgap
      | binary op l => rfl
  | binary op hle h ih => exact ih op.rightLevel_le

end Defers

theorem closeFor_eq_self (h : gap stack ≤ next.level.floor) :
    closeFor next stack f = (stack, f) := by
  cases stack with
  | nil => rfl
  | cons frame stack =>
    cases frame with
    | group => rfl
    | unary op => rfl
    | binary op l => rw [closeFor, BinaryOp.not_precedes_iff.2 h, if_neg Bool.false_ne_true]

def Reads (p : Parser) (ts : List TokenKind) (q : Parser) : Prop :=
  ∀ tokens : List Token, tokens.map Token.kind = ts → tokens.foldlM step p = .ok q

theorem Reads.cons {p q r : Parser} {kind : TokenKind}
    (hstep : ∀ position, p.step ⟨kind, position⟩ = .ok q) (h : Reads q ts r) :
    Reads p (kind :: ts) r := by
  intro tokens he
  obtain ⟨token, rest, rfl, rfl, hrest⟩ := List.map_eq_cons_iff.1 he
  exact foldlM_cons_eq_ok_iff.2 ⟨q, hstep token.position, h rest hrest⟩

theorem Reads.single {p q : Parser} {kind : TokenKind}
    (hstep : ∀ position, p.step ⟨kind, position⟩ = .ok q) : Reads p [kind] q := by
  apply Reads.cons hstep
  intro tokens he
  rw [List.map_eq_nil_iff.1 he]
  rfl

theorem Reads.append {p q r : Parser} (h : Reads p ts q) (h' : Reads q us r) :
    Reads p (ts ++ us) r := by
  intro tokens he
  obtain ⟨first, second, rfl, hfirst, hsecond⟩ := List.map_eq_append_iff.1 he
  rw [List.foldlM_append]
  exact bind_eq_ok_iff.2 ⟨q, h first hfirst, h' second hsecond⟩

/-- The phrase is read onto every stack whose gap it fits, and its tree may be left to be closed. -/
def Admits (L : Level) (ts : List TokenKind) (f : Formula) : Prop :=
  ∀ stack, gap stack ≤ L.floor → ∃ rest g,
    Defers L.floor stack f rest g ∧ Reads (.wanting stack) ts (complete rest g)

theorem Admits.loosen (h : Admits M ts f) (hle : L.floor ≤ M.floor) : Admits L ts f := by
  intro stack hgap
  obtain ⟨rest, g, hd, hr⟩ := h stack (Nat.le_trans hgap hle)
  exact ⟨rest, g, hd.mono hle, hr⟩

theorem admits_atom {kind : TokenKind} (h : ∀ stack position,
    step (.wanting stack) ⟨kind, position⟩ = .ok (complete stack f)) :
    Admits .prefixed [kind] f := by
  intro stack _
  exact ⟨stack, f, .refl _ stack f, .single (h stack)⟩

theorem Admits.group (h : Admits .implication ts f) :
    Admits .prefixed (.leftParen :: ts ++ [.rightParen]) f := by
  intro stack _
  obtain ⟨rest, g, hd, hr⟩ := h (.group :: stack) (Nat.le_refl 0)
  rw [hd.complete_eq (Nat.zero_le 3)] at hr
  have hclose : closeGroup rest g = (some stack, f) := hd.closeGroup_eq
  have hparen : Reads (.holding rest g) [.rightParen] (complete stack f) :=
    .single fun position => by simp only [step, hclose]
  exact ⟨stack, f, .refl _ stack f, .cons (fun _ => rfl) (hr.append hparen)⟩

theorem Admits.unary (op : UnaryOp) (h : Admits .prefixed ts f) :
    Admits .prefixed (.unary op :: ts) (.unary op f) := by
  intro stack _
  obtain ⟨rest, g, hd, hr⟩ := h (.unary op :: stack) (Nat.le_refl _)
  obtain ⟨rfl, rfl⟩ := hd.eq_of_prefixed
  exact ⟨stack, .unary op g, .refl _ stack _, .cons (fun _ => rfl) hr⟩

theorem Admits.binary (op : BinaryOp) (hl : Admits op.leftLevel ts l)
    (hr : Admits op.rightLevel us r) :
    Admits op.level (ts ++ .binary op :: us) (.binary op l r) := by
  intro stack hgap
  obtain ⟨rest, g, hd, hreads⟩ := hl stack (Nat.le_trans hgap op.level_le_leftLevel)
  have hthree : gap stack ≤ 3 :=
    Nat.le_trans hgap (Nat.le_trans op.level_le_rightLevel op.rightLevel_le)
  rw [hd.complete_eq hthree] at hreads
  have hclose : closeFor op rest g = (stack, l) :=
    (hd.closeFor_eq (Nat.le_refl _)).trans (closeFor_eq_self hgap)
  have hop (position : Nat) : step (.holding rest g) ⟨.binary op, position⟩ =
      .ok (.wanting (.binary op l :: stack)) := by
    simp only [step, hclose]
  obtain ⟨rest', g', hd', hreads'⟩ := hr (.binary op l :: stack) (Nat.le_refl _)
  exact ⟨rest', g', .binary op (Nat.le_refl _) hd', hreads.append (.cons hop hreads')⟩

theorem admits_of_derives (h : Derives L ts f) : Admits L ts f := by
  induction h with
  | const b => exact admits_atom fun _ _ => rfl
  | name n => exact admits_atom fun _ _ => rfl
  | group _ ih => exact ih.group
  | unary op _ ih => exact ih.unary op
  | ofPrefixed _ ih => exact ih.loosen (by decide)
  | «until» _ _ ihl ihr => exact .binary .until ihl ihr
  | release _ _ ihl ihr => exact .binary .release ihl ihr
  | ofBinding _ ih => exact ih.loosen (by decide)
  | and _ _ ihl ihr => exact .binary .and ihl ihr
  | ofConjunction _ ih => exact ih.loosen (by decide)
  | or _ _ ihl ihr => exact .binary .or ihl ihr
  | ofDisjunction _ ih => exact ih.loosen (by decide)
  | implies _ _ ihl ihr => exact .binary .implies ihl ihr

end Parser

theorem ofTokens_eq_ok_iff {tokens : List Token} :
    Formula.ofTokens tokens = .ok f ↔ Derives .implication (tokens.map Token.kind) f := by
  rw [Formula.ofTokens]
  constructor
  · intro h
    split at h
    · cases h
    · obtain ⟨p, hp, hf⟩ := bind_eq_ok_iff.1 h
      have hstart : Parser.Explains .start [] := .wanting .start
      exact (hstart.foldlM hp).finish hf
  · intro h
    obtain ⟨rest, g, hd, hr⟩ := Parser.admits_of_derives h [] (Nat.le_refl 0)
    have hp := hr tokens rfl
    rw [hd.complete_eq (Nat.zero_le 3)] at hp
    cases tokens with
    | nil => cases hp
    | cons token tokens =>
      refine bind_eq_ok_iff.2 ⟨_, hp, ?_⟩
      simp only [Parser.finish, hd.closeGroup_eq, Parser.closeGroup]

theorem Derives.unique (hf : Derives .implication ts f) (hg : Derives .implication ts g) :
    f = g := by
  let tokens := ts.map fun kind => Token.mk kind 0
  have hkinds : tokens.map Token.kind = ts := by simp [tokens, Function.comp_def]
  have hf' : Formula.ofTokens tokens = .ok f := ofTokens_eq_ok_iff.2 (hkinds ▸ hf)
  have hg' : Formula.ofTokens tokens = .ok g := ofTokens_eq_ok_iff.2 (hkinds ▸ hg)
  exact Except.ok.inj (hf'.symm.trans hg')

theorem parse_eq_ok_iff {text : String} : Formula.parse text = .ok f ↔
    ∃ tokens, Token.scan text = .ok tokens ∧ Derives .implication (tokens.map Token.kind) f := by
  rw [Formula.parse, bind_eq_ok_iff]
  simp only [ofTokens_eq_ok_iff]

/-- A text is read as a formula exactly when its tokens are a phrase with this tree. So no phrase
is rejected, and no list of tokens has two trees. -/
theorem parse_accepts_exactly_phrases (text : String) :
    (∀ f, Formula.parse text = .ok f ↔ ∃ tokens, Token.scan text = .ok tokens ∧
      Derives .implication (tokens.map Token.kind) f) ∧
    (∀ tokens, Token.scan text = .ok tokens → Grammatical (tokens.map Token.kind) →
      ∃ f, Formula.parse text = .ok f) ∧
    ∀ ts f g, Derives .implication ts f → Derives .implication ts g → f = g := by
  refine ⟨fun f => parse_eq_ok_iff, fun tokens hscan hg => ?_, fun ts f g => Derives.unique⟩
  obtain ⟨f, hf⟩ := hg
  exact ⟨f, parse_eq_ok_iff.2 ⟨tokens, hscan, hf⟩⟩

theorem parse_accepts_mixed : ∃ tokens f, Token.scan "a || b && !c U d -> 0" = .ok tokens ∧
    f = .binary .implies (.binary .or (.var "a") (.binary .and (.var "b")
      (.binary .until (.unary .not (.var "c")) (.var "d")))) (.const false) ∧
    Formula.parse "a || b && !c U d -> 0" = .ok f ∧
      ∀ g, Derives .implication (tokens.map Token.kind) g → g = f := by
  obtain ⟨hiff, -, hunique⟩ := parse_accepts_exactly_phrases "a || b && !c U d -> 0"
  have hphrase : Derives .implication [.name "a", .binary .or, .name "b", .binary .and, .unary .not,
      .name "c", .binary .until, .name "d", .binary .implies, .const false]
      (.binary .implies (.binary .or (.var "a") (.binary .and (.var "b")
        (.binary .until (.unary .not (.var "c")) (.var "d")))) (.const false)) := by
    have huntil := Derives.until (.unary .not (.name "c")) (.ofPrefixed (.name "d"))
    have hand := Derives.and (.ofBinding (.ofPrefixed (.name "b"))) huntil
    have hor := Derives.or (.ofConjunction (.ofBinding (.ofPrefixed (.name "a")))) hand
    exact .implies hor (.loosen (Nat.zero_le _) (.const false))
  refine ⟨_, _, rfl, rfl, (hiff _).2 ⟨_, rfl, hphrase⟩, fun g hg => hunique _ g _ hg hphrase⟩

end TemporalCheck
