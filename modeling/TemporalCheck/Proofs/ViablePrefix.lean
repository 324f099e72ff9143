import TemporalCheck.Proofs.Grammar

/-!
# Errors stand at the first impossible token

Whatever the parser has read without error can be completed: an operand where one is wanted, and a
parenthesis for each open group. So an error is never late, and as every phrase is read it is
never early: the tokens before it begin a phrase, and together with the token that it names they
begin none.
-/

namespace TemporalCheck

variable {L M : Level} {ts us : List TokenKind} {f : Formula} {stack : List Frame}

def Viable (ts : List TokenKind) : Prop := ∃ us, Grammatical us ∧ ts <+: us

def Unfinished (ts : List TokenKind) : Prop := ∃ us, Grammatical us ∧ ts <+: us ∧ ts ≠ us

theorem unfinished_of_append (h : Grammatical (ts ++ us)) (hus : us ≠ []) : Unfinished ts :=
  ⟨ts ++ us, h, List.prefix_append ts us, by simpa using hus⟩

def closers : List Frame → List TokenKind
  | [] => []
  | .group :: stack => .rightParen :: closers stack
  | .unary _ :: stack | .binary _ _ :: stack => closers stack

theorem closers_eq_nil_iff : closers stack = [] ↔ Parser.insideGroup stack = false := by
  induction stack with
  | nil => simp [closers, Parser.insideGroup]
  | cons frame stack ih =>
    cases frame with
    | group => simp [closers, Parser.insideGroup]
    | unary op => simpa [closers, Parser.insideGroup] using ih
    | binary op l => simpa [closers, Parser.insideGroup] using ih

theorem Opened.grammatical (h : Opened L stack ts) (hfit : L.floor ≤ M.floor)
    (hd : Derives M us f) : Grammatical (ts ++ us ++ closers stack) := by
  have tight (L : Level) : L.floor ≤ Level.prefixed.floor := by cases L <;> decide
  induction h generalizing M us f with
  | start => exact ⟨f, by simpa [closers] using hd.loosen (Nat.zero_le _)⟩
  | @group L stack ts h ih =>
    have hgroup := Derives.group (hd.loosen hfit)
    simpa [closers] using ih (tight L) hgroup
  | @unary L stack ts op h ih =>
    have hunary := Derives.unary op (hd.loosen hfit)
    simpa [closers] using ih (tight L) hunary
  | binary op h hle hl ih =>
    have hbinary := Derives.binary op hl (hd.loosen hfit)
    simpa [closers] using ih hle hbinary

namespace Parser

theorem Explains.grammatical_of_wanting (h : Explains (.wanting stack) ts) :
    Grammatical (ts ++ .const true :: closers stack) := by
  cases h with
  | @wanting L _ _ h =>
    have hfit : L.floor ≤ Level.prefixed.floor := by cases L <;> decide
    simpa using h.grammatical hfit (.const true)

theorem Explains.grammatical_of_holding (h : Explains (.holding stack f) ts) :
    Grammatical (ts ++ closers stack) := by
  cases h with
  | holding h hL hd => exact h.grammatical (Nat.le_trans hL (by decide)) hd

variable {p : Parser} {token : Token} {e : ParseError} {before : List Token}

theorem closeGroup_fst_eq_none_iff :
    (closeGroup stack f).1 = none ↔ insideGroup stack = false := by
  induction stack generalizing f with
  | nil => simp [closeGroup, insideGroup]
  | cons frame stack ih =>
    cases frame with
    | group => simp [closeGroup, insideGroup]
    | unary op => simpa [closeGroup, insideGroup] using ih
    | binary op l => simpa [closeGroup, insideGroup] using ih

theorem step_eq_error_cases (h : p.step token = .error e) :
    (∃ stack, p = .wanting stack ∧ e = .unexpectedToken token .operand) ∨
      ∃ stack f, p = .holding stack f ∧
        (insideGroup stack = true ∧ e = .unexpectedToken token .rightParen ∨
          insideGroup stack = false ∧ e = .trailingInput token) := by
  cases p with
  | wanting stack =>
    refine Or.inl ⟨stack, rfl, ?_⟩
    rw [step] at h
    split at h <;> cases h <;> rfl
  | holding stack f =>
    refine Or.inr ⟨stack, f, rfl, ?_⟩
    rw [step] at h
    split at h
    · cases h
    · split at h
      · cases h
      · next hclose =>
        cases h
        exact Or.inr ⟨closeGroup_fst_eq_none_iff.1 (congrArg Prod.fst hclose), rfl⟩
    all_goals
      split at h
      · next hinside =>
        cases h
        exact Or.inl ⟨hinside, rfl⟩
      · next hinside =>
        cases h
        exact Or.inr ⟨Bool.not_eq_true _ ▸ hinside, rfl⟩

theorem finish_eq_error_cases (h : p.finish = .error e) :
    (∃ stack, p = .wanting stack ∧ e = .unexpectedEnd .operand) ∨
      ∃ stack f, p = .holding stack f ∧ insideGroup stack = true ∧
        e = .unexpectedEnd .rightParen := by
  cases p with
  | wanting stack =>
    cases h
    exact Or.inl ⟨stack, rfl, rfl⟩
  | holding stack f =>
    rw [finish] at h
    split at h
    · next hclose =>
      cases h
      refine Or.inr ⟨stack, f, rfl, ?_, rfl⟩
      rw [← Bool.not_eq_false, ← closeGroup_fst_eq_none_iff (f := f), hclose]
      exact Option.some_ne_none _
    · cases h

/-- Every phrase is read, so none begins with tokens at which the parser stops. -/
theorem not_viable_of_step_eq_error (hp : before.foldlM step start = .ok p)
    (hs : p.step token = .error e) : ¬ Viable ((before ++ [token]).map Token.kind) := by
  rintro ⟨_, ⟨f, hd⟩, rest, rfl⟩
  let tokens := before ++ token :: rest.map fun kind => Token.mk kind 0
  have hkinds : tokens.map Token.kind = (before ++ [token]).map Token.kind ++ rest := by
    simp [tokens, Function.comp_def]
  have hread : Formula.ofTokens tokens = .ok f := ofTokens_eq_ok_iff.2 (hkinds ▸ hd)
  rw [Formula.ofTokens, if_neg (by simp [tokens])] at hread
  obtain ⟨q, hq, -⟩ := bind_eq_ok_iff.1 hread
  rw [List.foldlM_append, hp] at hq
  obtain ⟨r, hr, -⟩ := foldlM_cons_eq_ok_iff.1 hq
  rw [hs] at hr
  cases hr

end Parser

/-- The error stands where the tokens stop being the beginning of a phrase. -/
def ParseError.Located (tokens : List Token) : ParseError → Prop
  | .unexpectedToken found _ => ∃ k, tokens[k]? = some found ∧
      Unfinished ((tokens.take k).map Token.kind) ∧
        ¬ Viable ((tokens.take (k + 1)).map Token.kind)
  | .trailingInput found => ∃ k, tokens[k]? = some found ∧
      Grammatical ((tokens.take k).map Token.kind) ∧
        ¬ Viable ((tokens.take (k + 1)).map Token.kind)
  | .unexpectedEnd _ => Unfinished (tokens.map Token.kind) ∧
      ¬ Grammatical (tokens.map Token.kind)
  | .empty | .unexpectedChar _ _ => False

variable {tokens : List Token} {e : ParseError}

theorem located_of_foldlM_eq_error (h : tokens.foldlM Parser.step Parser.start = .error e) :
    e.Located tokens := by
  obtain ⟨before, token, after, p, rfl, hp, hs⟩ := exists_of_foldlM_eq_error h
  have hstart : Parser.Explains .start [] := .wanting .start
  have hread : Parser.Explains p (before.map Token.kind) := hstart.foldlM hp
  have hnot := Parser.not_viable_of_step_eq_error hp hs
  have hat : (before ++ token :: after)[before.length]? = some token := by simp
  have hbefore : (before ++ token :: after).take before.length = before := by simp
  have hwith : (before ++ token :: after).take (before.length + 1) = before ++ [token] := by
    simp [List.take_append, List.take_of_length_le]
  rw [← hwith] at hnot
  rw [← hbefore] at hread
  rcases Parser.step_eq_error_cases hs with
    ⟨stack, rfl, rfl⟩ | ⟨stack, f, rfl, ⟨hinside, rfl⟩ | ⟨houtside, rfl⟩⟩
  · have hphrase := hread.grammatical_of_wanting
    exact ⟨before.length, hat, unfinished_of_append hphrase (List.cons_ne_nil _ _), hnot⟩
  · have hphrase := hread.grammatical_of_holding
    have hopen : closers stack ≠ [] := by simp [closers_eq_nil_iff, hinside]
    exact ⟨before.length, hat, unfinished_of_append hphrase hopen, hnot⟩
  · have hphrase := hread.grammatical_of_holding
    rw [closers_eq_nil_iff.2 houtside, List.append_nil] at hphrase
    exact ⟨before.length, hat, hphrase, hnot⟩

theorem located_of_finish_eq_error {p : Parser}
    (hp : tokens.foldlM Parser.step Parser.start = .ok p) (h : p.finish = .error e)
    (hnot : ¬ Grammatical (tokens.map Token.kind)) : e.Located tokens := by
  have hstart : Parser.Explains .start [] := .wanting .start
  have hread : Parser.Explains p (tokens.map Token.kind) := hstart.foldlM hp
  rcases Parser.finish_eq_error_cases h with ⟨stack, rfl, rfl⟩ | ⟨stack, f, rfl, hinside, rfl⟩
  · exact ⟨unfinished_of_append hread.grammatical_of_wanting (List.cons_ne_nil _ _), hnot⟩
  · have hopen : closers stack ≠ [] := by simp [closers_eq_nil_iff, hinside]
    exact ⟨unfinished_of_append hread.grammatical_of_holding hopen, hnot⟩

/-- A text that has tokens and is not read fails at the first token with which no phrase can begin
any more, or at its end. The error names this token with its position. Trailing input begins behind
a phrase, and a text ends unexpectedly only where more tokens would make it a phrase. -/
theorem parse_errors_located {text : String} (hscan : Token.scan text = .ok tokens)
    (hne : tokens ≠ []) (h : Formula.parse text = .error e) : e.Located tokens := by
  have hread : Formula.ofTokens tokens = .error e := by
    rwa [Formula.parse, hscan] at h
  have hnot : ¬ Grammatical (tokens.map Token.kind) := by
    rintro ⟨f, hd⟩
    rw [ofTokens_eq_ok_iff.2 hd] at hread
    cases hread
  rw [Formula.ofTokens, if_neg (by simpa using hne)] at hread
  rcases bind_eq_error_iff.1 hread with hfold | ⟨p, hp, hfinish⟩
  · exact located_of_foldlM_eq_error hfold
  · exact located_of_finish_eq_error hp hfinish hnot

theorem parse_errors_located_group :
    (∃ tokens, Token.scan "(a U G b b)" = .ok tokens ∧
      Formula.parse "(a U G b b)" = .error (.unexpectedToken ⟨.name "b", 9⟩ .rightParen) ∧
      ∃ k, tokens[k]? = some ⟨.name "b", 9⟩ ∧ Unfinished ((tokens.take k).map Token.kind) ∧
        ¬ Viable ((tokens.take (k + 1)).map Token.kind)) ∧
    (∃ tokens, Token.scan "a U G b b" = .ok tokens ∧
      Formula.parse "a U G b b" = .error (.trailingInput ⟨.name "b", 8⟩) ∧
      ∃ k, tokens[k]? = some ⟨.name "b", 8⟩ ∧ Grammatical ((tokens.take k).map Token.kind) ∧
        ¬ Viable ((tokens.take (k + 1)).map Token.kind)) ∧
    ∃ tokens, Token.scan "(a U G b" = .ok tokens ∧
      Formula.parse "(a U G b" = .error (.unexpectedEnd .rightParen) ∧
      Unfinished (tokens.map Token.kind) ∧ ¬ Grammatical (tokens.map Token.kind) := by
  have hgroup : Token.scan "(a U G b b)" = .ok [⟨.leftParen, 0⟩, ⟨.name "a", 1⟩,
      ⟨.binary .until, 3⟩, ⟨.unary .always, 5⟩, ⟨.name "b", 7⟩, ⟨.name "b", 9⟩,
      ⟨.rightParen, 10⟩] := rfl
  have hflat : Token.scan "a U G b b" = .ok [⟨.name "a", 0⟩, ⟨.binary .until, 2⟩,
      ⟨.unary .always, 4⟩, ⟨.name "b", 6⟩, ⟨.name "b", 8⟩] := rfl
  have hopen : Token.scan "(a U G b" = .ok [⟨.leftParen, 0⟩, ⟨.name "a", 1⟩,
      ⟨.binary .until, 3⟩, ⟨.unary .always, 5⟩, ⟨.name "b", 7⟩] := rfl
  exact ⟨⟨_, hgroup, rfl, parse_errors_located hgroup (List.cons_ne_nil _ _) rfl⟩,
    ⟨_, hflat, rfl, parse_errors_located hflat (List.cons_ne_nil _ _) rfl⟩,
    ⟨_, hopen, rfl, parse_errors_located hopen (List.cons_ne_nil _ _) rfl⟩⟩

end TemporalCheck
