import TemporalCheck.Proofs.Grammar

/-!
# What is printed is read back

The printed form of a formula is divided into the tokens that show its tree, provided that its
names can be read as names. Names that come from a text can, so a formula that was read once is
read back from its printed form.
-/

namespace TemporalCheck

variable {f : Formula} {c : Char} {kind : TokenKind} {name : String}

namespace Token

theorem isName_singleton (h : isNameStart c = true) : IsName c.toString :=
  ⟨c, [], by simp [Char.toString], h, fun d hd => absurd hd List.not_mem_nil⟩

theorem isName_push (hn : IsName name) (h : isNameChar c = true) : IsName (name.push c) := by
  obtain ⟨d, ds, hd, hstart, hall⟩ := hn
  refine ⟨d, ds ++ [c], by simp [hd], hstart, fun e he => ?_⟩
  rcases List.mem_append.1 he with he | he
  · exact hall e he
  · exact List.mem_singleton.1 he ▸ h

theorem isBlank_of_single? (h : single? c = some kind) : Text.isBlank c = false := by
  unfold single? at h
  split at h <;> cases h <;> decide

theorem single?_ne_name {text : String} : single? c ≠ some (.name text) := by
  intro h
  unfold single? at h
  split at h <;> cases h

theorem single?_of_isNameStart (h : isNameStart c = true) : single? c = none := by
  cases hs : single? c with
  | none => rfl
  | some kind =>
    unfold single? at hs
    split at hs <;> cases hs <;> exact absurd h (by decide)

theorem double?_of_isNameStart (h : isNameStart c = true) : double? c = none := by
  cases hd : double? c with
  | none => rfl
  | some op =>
    unfold double? at hd
    split at hd <;> cases hd <;> exact absurd h (by decide)

theorem isBlank_of_isNameStart (h : isNameStart c = true) : Text.isBlank c = false := by
  have hrange : 97 ≤ c.toNat ∧ c.toNat ≤ 122 := by
    simpa [isNameStart, Char.le_def, UInt32.le_iff_toNat_le] using h
  have houtside : ∀ r ∈ Text.blankRanges, r.2 < 97 ∨ 122 < r.1 := by decide
  rw [← Bool.not_eq_true, Text.isBlank, Text.Ranges.contains_iff (by decide)]
  intro hblank
  obtain ⟨r, hr, hfirst, hlast⟩ := hblank
  have := houtside r hr
  omega

end Token

namespace Scanner

variable {s s' : Scanner}

theorem beginToken_cases (h : s.beginToken c = .ok s') :
    (Text.isBlank c = true ∧ s' = ⟨s.position + c.utf8Size, s.tokens, .none⟩) ∨
    (∃ kind, Token.single? c = some kind ∧
      s' = ⟨s.position + c.utf8Size, ⟨kind, s.position⟩ :: s.tokens, .none⟩) ∨
    (∃ op second, Token.double? c = some (op, second) ∧
      s' = ⟨s.position + c.utf8Size, s.tokens, .operator op second s.position⟩) ∨
    (Token.isNameStart c = true ∧
      s' = ⟨s.position + c.utf8Size, s.tokens, .name c.toString s.position⟩) := by
  rw [beginToken] at h
  split at h
  · next hblank =>
    cases h
    exact Or.inl ⟨hblank, rfl⟩
  · split at h
    · next kind hsingle =>
      cases h
      exact Or.inr (Or.inl ⟨kind, hsingle, rfl⟩)
    · split at h
      · next op second hdouble =>
        cases h
        exact Or.inr (Or.inr (Or.inl ⟨op, second, hdouble, rfl⟩))
      · split at h
        · next hstart =>
          cases h
          exact Or.inr (Or.inr (Or.inr ⟨hstart, rfl⟩))
        · cases h

theorem step_cases (h : s.step c = .ok s') :
    (s.pending = .none ∧ s.beginToken c = .ok s') ∨
    (∃ text start, s.pending = .name text start ∧ Token.isNameChar c = true ∧
      s' = ⟨s.position + c.utf8Size, s.tokens, .name (text.push c) start⟩) ∨
    (∃ text start, s.pending = .name text start ∧ Token.isNameChar c = false ∧
      beginToken ⟨s.position, ⟨.name text, start⟩ :: s.tokens, .none⟩ c = .ok s') ∨
    ∃ op start, s.pending = .operator op c start ∧
      s' = ⟨s.position + c.utf8Size, ⟨.binary op, start⟩ :: s.tokens, .none⟩ := by
  rw [step] at h
  split at h
  · next hp => exact Or.inl ⟨hp, h⟩
  · next text start hp =>
    split at h
    · next hc =>
      cases h
      exact Or.inr (Or.inl ⟨text, start, hp, hc, rfl⟩)
    · next hc => exact Or.inr (Or.inr (Or.inl ⟨text, start, hp, Bool.not_eq_true _ ▸ hc, h⟩))
  · next op second start hp =>
    split at h
    · next hc =>
      cases h
      exact Or.inr (Or.inr (Or.inr ⟨op, start, hc ▸ hp, rfl⟩))
    · cases h

structure Between (s : Scanner) (ts : List TokenKind) : Prop where
  pending : s.pending = .none
  kinds : s.tokens.reverse.map Token.kind = ts

/-- As `Between`, or the scanner stands behind a name that might go on. -/
inductive Behind (s : Scanner) : List TokenKind → Prop
  | token {ts : List TokenKind} : s.Between ts → Behind s ts
  | name {text : String} {start : Nat} : s.pending = .name text start →
      Behind s (s.tokens.reverse.map Token.kind ++ [.name text])

/-- From a state with `P`, the characters are read as the kinds `ks` into a state with `Q`. -/
def Emits (P : Scanner → List TokenKind → Prop) (cs : List Char) (ks : List TokenKind)
    (Q : Scanner → List TokenKind → Prop) : Prop :=
  ∀ s ts, P s ts → ∃ s', cs.foldlM step s = .ok s' ∧ Q s' (ts ++ ks)

variable {P Q R : Scanner → List TokenKind → Prop} {cs ds : List Char} {ks js : List TokenKind}

theorem Emits.append (h : Emits P cs ks Q) (h' : Emits Q ds js R) :
    Emits P (cs ++ ds) (ks ++ js) R := by
  intro s ts hs
  obtain ⟨s', hs', hQ⟩ := h s ts hs
  obtain ⟨s'', hs'', hR⟩ := h' s' (ts ++ ks) hQ
  refine ⟨s'', ?_, by rwa [← List.append_assoc]⟩
  rw [List.foldlM_append]
  exact bind_eq_ok_iff.2 ⟨s', hs', hs''⟩

theorem Emits.mono (h : Emits P cs ks Between) : Emits P cs ks Behind := by
  intro s ts hs
  obtain ⟨s', hs', hb⟩ := h s ts hs
  exact ⟨s', hs', .token hb⟩

theorem Emits.behind (h : Emits Between (c :: cs) ks Q) (hc : Token.isNameChar c = false) :
    Emits Behind (c :: cs) ks Q := by
  intro s ts hs
  cases hs with
  | token hb => exact h s ts hb
  | @name text start hp =>
    have hb : Between ⟨s.position, ⟨.name text, start⟩ :: s.tokens, .none⟩
        (s.tokens.reverse.map Token.kind ++ [.name text]) := ⟨rfl, by simp⟩
    obtain ⟨s', hs', hQ⟩ := h _ _ hb
    refine ⟨s', ?_, hQ⟩
    rw [← hs', List.foldlM_cons, List.foldlM_cons]
    simp only [step, hp, hc, Bool.false_eq_true, if_false]

theorem emits_single (h : Token.single? c = some kind) : Emits Between [c] [kind] Between := by
  intro s ts hs
  refine ⟨⟨s.position + c.utf8Size, ⟨kind, s.position⟩ :: s.tokens, .none⟩, ?_, rfl, ?_⟩
  · simp [step, beginToken, hs.pending, Token.isBlank_of_single? h, h]
  · simp [← hs.kinds]

theorem emits_unary (op : UnaryOp) : Emits Between op.symbol.toList [.unary op] Between := by
  cases op with
  | not => exact emits_single rfl
  | next => exact emits_single rfl
  | always => exact emits_single rfl
  | eventually => exact emits_single rfl

theorem emits_blanks (h : ∀ c ∈ cs, Text.isBlank c = true) : Emits Between cs [] Between := by
  intro s ts hs
  rw [List.append_nil]
  induction cs generalizing s with
  | nil => exact ⟨s, rfl, hs⟩
  | cons c cs ih =>
    obtain ⟨hc, hcs⟩ := List.forall_mem_cons.1 h
    have hstep : s.step c = .ok ⟨s.position + c.utf8Size, s.tokens, .none⟩ := by
      simp [step, beginToken, hs.pending, hc]
    obtain ⟨s', hs', hb⟩ := ih hcs ⟨s.position + c.utf8Size, s.tokens, .none⟩ ⟨rfl, hs.kinds⟩
    exact ⟨s', foldlM_cons_eq_ok_iff.2 ⟨_, hstep, hs'⟩, hb⟩

theorem emits_space : Emits Between [' '] [] Between :=
  emits_blanks (List.forall_mem_singleton.2 rfl)

theorem emits_binary (op : BinaryOp) : Emits Between op.symbol.toList [.binary op] Between := by
  intro s ts hs
  obtain ⟨position, tokens, pending⟩ := s
  obtain rfl : pending = .none := hs.pending
  obtain rfl := hs.kinds
  cases op with
  | and => exact ⟨_, rfl, rfl, by simp⟩
  | or => exact ⟨_, rfl, rfl, by simp⟩
  | implies => exact ⟨_, rfl, rfl, by simp⟩
  | «until» => exact ⟨_, rfl, rfl, by simp⟩
  | release => exact ⟨_, rfl, rfl, by simp⟩

theorem foldlM_name (hcs : ∀ d ∈ cs, Token.isNameChar d = true) (position : Nat)
    (tokens : List Token) (text : String) (start : Nat) :
    ∃ position', cs.foldlM step ⟨position, tokens, .name text start⟩ =
      .ok ⟨position', tokens, .name (text ++ String.ofList cs) start⟩ := by
  induction cs generalizing position text with
  | nil => exact ⟨position, by simp [pure, Except.pure]⟩
  | cons d cs ih =>
    obtain ⟨hd, hcs⟩ := List.forall_mem_cons.1 hcs
    obtain ⟨position', hrest⟩ := ih hcs (position + d.utf8Size) (text.push d)
    refine ⟨position', foldlM_cons_eq_ok_iff.2 ⟨_, if_pos hd, ?_⟩⟩
    rw [hrest]
    congr 3
    apply String.toList_inj.1
    simp

theorem emits_name (h : Token.IsName name) : Emits Between name.toList [.name name] Behind := by
  intro s ts hs
  obtain ⟨c, cs, hname, hstart, hcs⟩ := h
  obtain ⟨position, hrest⟩ :=
    foldlM_name hcs (s.position + c.utf8Size) s.tokens c.toString s.position
  have htext : c.toString ++ String.ofList cs = name := by
    apply String.toList_inj.1
    simp [hname, Char.toString]
  have hfirst : s.step c =
      .ok ⟨s.position + c.utf8Size, s.tokens, .name c.toString s.position⟩ := by
    simp [step, beginToken, hs.pending, Token.isBlank_of_isNameStart hstart,
      Token.single?_of_isNameStart hstart, Token.double?_of_isNameStart hstart, hstart]
  rw [htext] at hrest
  rw [hname, ← hs.kinds]
  exact ⟨_, foldlM_cons_eq_ok_iff.2 ⟨_, hfirst, hrest⟩, .name rfl⟩

theorem Behind.finish {s : Scanner} (h : s.Behind ks) :
    ∃ tokens, s.finish = .ok tokens ∧ tokens.map Token.kind = ks := by
  cases h with
  | token hb => exact ⟨s.tokens.reverse, by rw [Scanner.finish, hb.pending], hb.kinds⟩
  | name hp => exact ⟨_, by rw [Scanner.finish, hp], by simp⟩

end Scanner

def Formula.kinds : Formula → List TokenKind
  | const b => [.const b]
  | var name => [.name name]
  | unary op f => .unary op :: f.kinds
  | binary op l r => .leftParen :: (l.kinds ++ .binary op :: r.kinds) ++ [.rightParen]

theorem derives_kinds (f : Formula) : Derives .prefixed f.kinds f := by
  induction f with
  | const b => exact .const b
  | var name => exact .name name
  | unary op f ih => exact .unary op ih
  | binary op l r ihl ihr =>
    have hl : Derives op.leftLevel l.kinds l := ihl.loosen (by cases op <;> decide)
    have hr : Derives op.rightLevel r.kinds r := ihr.loosen (by cases op <;> decide)
    exact .group ((Derives.binary op hl hr).loosen (Nat.zero_le _))

namespace Scanner

theorem emits_render (h : f.AllNames Token.IsName) :
    Emits Between f.render.toList f.kinds Behind := by
  induction f with
  | const b =>
    cases b with
    | false => exact (emits_single rfl).mono
    | true => exact (emits_single rfl).mono
  | var name => exact emits_name h
  | unary op f ih =>
    have hspaced := ((emits_unary op).append emits_space).append (ih h)
    cases op with
    | not =>
      have htight := (emits_unary .not).append (ih h)
      simpa [Formula.render, Formula.kinds, UnaryOp.symbol] using htight
    | next => simpa [Formula.render, Formula.kinds] using hspaced
    | always => simpa [Formula.render, Formula.kinds] using hspaced
    | eventually => simpa [Formula.render, Formula.kinds] using hspaced
  | binary op l r ihl ihr =>
    -- the space and the parenthesis end a name that the operand before them may end with
    have hspace : Emits Behind [' '] [] Between := emits_space.behind (by decide)
    have hopen : Emits Between ['('] [.leftParen] Between := emits_single rfl
    have hclose : Emits Behind [')'] [.rightParen] Between := (emits_single rfl).behind (by decide)
    have hleft := hopen.append ((ihl h.1).append hspace)
    have hright := (emits_space.append (ihr h.2)).append hclose
    have hwhole := (hleft.append ((emits_binary op).append hright)).mono
    simpa [Formula.render, Formula.kinds] using hwhole

end Scanner

theorem parse_render (h : f.AllNames Token.IsName) : Formula.parse f.render = .ok f := by
  obtain ⟨s, hs, hb⟩ := Scanner.emits_render h Scanner.start [] ⟨rfl, rfl⟩
  obtain ⟨tokens, htokens, hkinds⟩ := hb.finish
  refine parse_eq_ok_iff.2 ⟨tokens, bind_eq_ok_iff.2 ⟨s, hs, htokens⟩, ?_⟩
  rw [hkinds]
  exact (derives_kinds f).loosen (Nat.zero_le _)

theorem Derives.allNames {L : Level} {ts : List TokenKind} {p : String → Prop} (h : Derives L ts f)
    (hp : ∀ n, .name n ∈ ts → p n) : f.AllNames p := by
  induction h with
  | const b => trivial
  | name n => exact hp n List.mem_cons_self
  | group _ ih => exact ih fun n hn => hp n (by simp [hn])
  | unary op _ ih => exact ih fun n hn => hp n (List.mem_cons_of_mem _ hn)
  | ofPrefixed _ ih => exact ih hp
  | ofBinding _ ih => exact ih hp
  | ofConjunction _ ih => exact ih hp
  | ofDisjunction _ ih => exact ih hp
  | «until» _ _ ihl ihr | release _ _ ihl ihr | and _ _ ihl ihr | or _ _ ihl ihr
  | implies _ _ ihl ihr =>
    exact ⟨ihl fun n hn => hp n (by simp [hn]), ihr fun n hn => hp n (by simp [hn])⟩

namespace Scanner

structure Named (s : Scanner) : Prop where
  tokens : ∀ n, .name n ∈ s.tokens.map Token.kind → Token.IsName n
  pending : ∀ n start, s.pending = .name n start → Token.IsName n

variable {s s' : Scanner} {cs : List Char} {tokens : List Token}

theorem Named.push (h : s.Named) (hkind : ∀ n, kind = .name n → Token.IsName n)
    (position start : Nat) : Named ⟨position, ⟨kind, start⟩ :: s.tokens, .none⟩ := by
  refine ⟨fun n hn => ?_, fun _ _ hp => nomatch hp⟩
  rcases List.mem_cons.1 hn with he | hn
  · exact hkind n he.symm
  · exact h.tokens n hn

theorem Named.beginToken (h : s.Named) (hs : s.beginToken c = .ok s') : s'.Named := by
  rcases beginToken_cases hs with ⟨-, rfl⟩ | ⟨kind, hsingle, rfl⟩ | ⟨_, _, -, rfl⟩ | ⟨hstart, rfl⟩
  · exact ⟨h.tokens, fun _ _ hp => nomatch hp⟩
  · exact h.push (fun n he => absurd (he ▸ hsingle) Token.single?_ne_name) _ _
  · exact ⟨h.tokens, fun _ _ hp => nomatch hp⟩
  · refine ⟨h.tokens, fun n start hp => ?_⟩
    cases hp
    exact Token.isName_singleton hstart

theorem Named.step (h : s.Named) (hs : s.step c = .ok s') : s'.Named := by
  rcases step_cases hs with ⟨-, hs⟩ | ⟨text, start, hp, hc, rfl⟩ | ⟨text, start, hp, -, hs⟩ |
    ⟨_, _, -, rfl⟩
  · exact h.beginToken hs
  · refine ⟨h.tokens, fun n start' hp' => ?_⟩
    cases hp'
    exact Token.isName_push (h.pending text start hp) hc
  · have hname : Token.IsName text := h.pending text start hp
    exact (h.push (fun n he => TokenKind.name.inj he ▸ hname) _ _).beginToken hs
  · exact h.push (fun n he => TokenKind.noConfusion he) _ _

theorem Named.foldlM (h : s.Named) (hs : cs.foldlM Scanner.step s = .ok s') : s'.Named := by
  induction cs generalizing s with
  | nil =>
    cases hs
    exact h
  | cons c cs ih =>
    obtain ⟨s₁, hs₁, hs⟩ := foldlM_cons_eq_ok_iff.1 hs
    exact ih (h.step hs₁) hs

theorem Named.finish {n : String} (h : s.Named) (hs : s.finish = .ok tokens)
    (hn : .name n ∈ tokens.map Token.kind) : Token.IsName n := by
  rw [Scanner.finish] at hs
  split at hs
  · cases hs
    rw [List.map_reverse, List.mem_reverse] at hn
    exact h.tokens n hn
  · next text start hp =>
    cases hs
    rw [List.map_reverse, List.mem_reverse] at hn
    have hname := h.pending text start hp
    exact (h.push (fun n he => TokenKind.name.inj he ▸ hname) s.position start).tokens n hn
  · cases hs

end Scanner

theorem allNames_of_parse {text : String} (h : Formula.parse text = .ok f) :
    f.AllNames Token.IsName := by
  obtain ⟨tokens, hscan, hd⟩ := parse_eq_ok_iff.1 h
  obtain ⟨s, hs, hfinish⟩ := bind_eq_ok_iff.1 hscan
  have hstart : Scanner.start.Named :=
    ⟨fun _ hn => absurd hn List.not_mem_nil, fun _ _ hp => nomatch hp⟩
  exact hd.allNames fun n hn => (hstart.foldlM hs).finish hfinish hn

/-- A formula is read back from its printed form exactly when its names can be read as names, and
so it is whenever it was read from any text at all. -/
theorem parse_render_iff_names (f : Formula) :
    (Formula.parse f.render = .ok f ↔ f.AllNames Token.IsName) ∧
    ∀ text, Formula.parse text = .ok f → Formula.parse f.render = .ok f :=
  ⟨⟨allNames_of_parse, parse_render⟩, fun _ h => parse_render (allNames_of_parse h)⟩

theorem parse_render_microwave : ∃ f, Formula.parse "G(!close&&start->F cooking)" = .ok f ∧
    f.render = "G ((!close && start) -> F cooking)" ∧ Formula.parse f.render = .ok f ∧
    Formula.parse (Formula.var "Ga").render ≠ .ok (.var "Ga") := by
  have hread : Formula.parse "G(!close&&start->F cooking)" = .ok (.unary .always (.binary .implies
      (.binary .and (.unary .not (.var "close")) (.var "start"))
      (.unary .eventually (.var "cooking")))) := rfl
  refine ⟨_, hread, by decide, (parse_render_iff_names _).2 _ hread, fun h => ?_⟩
  obtain ⟨c, cs, hname, hstart, -⟩ := (parse_render_iff_names _).1.1 h
  cases hname
  exact absurd hstart (by decide)

end TemporalCheck
