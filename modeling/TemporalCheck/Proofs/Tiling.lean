import TemporalCheck.Proofs.Printing

/-!
# Tokens tile the text

A pending token stands for characters that have been read but not assigned yet. Together with them,
the rest of the text is divided into blanks and tokens, one behind the other, and a name goes on as
far as it can. An error is met at one character, whatever follows it, and what was read before the
error can be completed to tokens.
-/

namespace TemporalCheck

variable {c : Char} {cs before after : List Char} {kind : TokenKind} {tokens : List Token}

def byteSize (cs : List Char) : Nat := (String.ofList cs).utf8ByteSize

@[simp] theorem byteSize_nil : byteSize [] = 0 := by simp [byteSize]

@[simp] theorem byteSize_append (cs ds : List Char) :
    byteSize (cs ++ ds) = byteSize cs + byteSize ds := by
  simp [byteSize, String.utf8ByteSize_append]

@[simp] theorem byteSize_cons (c : Char) (cs : List Char) :
    byteSize (c :: cs) = c.utf8Size + byteSize cs := by
  have hsingle : byteSize [c] = c.utf8Size := by
    rw [byteSize, ← String.singleton_eq_ofList, String.utf8ByteSize_singleton]
  rw [← List.singleton_append, byteSize_append, hsingle]

theorem byteSize_toList (s : String) : byteSize s.toList = s.utf8ByteSize := by
  rw [byteSize, String.ofList_toList]

theorem byteSize_pos (h : cs ≠ []) : 0 < byteSize cs := by
  obtain ⟨c, cs, rfl⟩ := List.exists_cons_of_ne_nil h
  have := c.utf8Size_pos
  rw [byteSize_cons]
  omega

namespace Token

theorem text_of_single? (h : single? c = some kind) : kind.text.toList = [c] := by
  unfold single? at h
  split at h <;> cases h <;> rfl

theorem symbol_of_double? {op : BinaryOp} {second : Char} (h : double? c = some (op, second)) :
    op.symbol.toList = [c, second] := by
  unfold double? at h
  split at h <;> cases h <;> rfl

theorem isSome_double?_iff : (double? c).isSome = true ↔ c ∈ ['&', '|', '-'] := by
  unfold double?
  split <;> simp_all

theorem not_begins_of_double? (h : (double? c).isSome = true) :
    Text.isBlank c = false ∧ single? c = none ∧ isNameChar c = false := by
  have hc := isSome_double?_iff.1 h
  simp only [List.mem_cons, List.not_mem_nil, or_false] at hc
  rcases hc with rfl | rfl | rfl <;> decide

theorem isNameChar_of_isBlank (h : Text.isBlank c = true) : isNameChar c = false := by
  rw [Text.isBlank, Text.Ranges.contains_iff (by decide)] at h
  obtain ⟨r, hr, hfirst, hlast⟩ := h
  have houtside : ∀ r ∈ Text.blankRanges, r.2 < 48 ∨ 122 < r.1 := by decide
  have hrange := houtside r hr
  rw [← Bool.not_eq_true]
  intro hname
  have : 48 ≤ c.toNat ∧ c.toNat ≤ 122 := by
    simp only [isNameChar, isNameStart, Bool.or_eq_true, Bool.and_eq_true, decide_eq_true_eq,
      beq_iff_eq, Char.le_def, UInt32.le_iff_toNat_le] at hname
    rcases hname with (⟨hl, hr⟩ | ⟨hl, hr⟩) | rfl
    · exact ⟨Nat.le_trans (by decide) hl, hr⟩
    · exact ⟨hl, Nat.le_trans hr (by decide)⟩
    · decide
  omega

end Token

namespace Scanner

variable {s s' : Scanner} {e : ParseError}

theorem beginToken_eq_error (h : s.beginToken c = .error e) :
    e = .unexpectedChar c s.position := by
  rw [beginToken] at h
  split at h
  · cases h
  · split at h
    · cases h
    · split at h
      · cases h
      · split at h <;> cases h
        rfl

theorem step_eq_error (h : s.step c = .error e) : e = .unexpectedChar c s.position := by
  rw [step] at h
  split at h
  · exact beginToken_eq_error h
  · split at h
    · cases h
    · have hbegin := beginToken_eq_error h
      exact hbegin
  · split at h <;> cases h
    rfl

theorem position_beginToken (h : s.beginToken c = .ok s') :
    s'.position = s.position + c.utf8Size := by
  rcases beginToken_cases h with ⟨-, rfl⟩ | ⟨_, -, rfl⟩ | ⟨_, _, -, rfl⟩ | ⟨-, rfl⟩ <;> rfl

theorem position_step (h : s.step c = .ok s') : s'.position = s.position + c.utf8Size := by
  rcases step_cases h with ⟨-, h⟩ | ⟨_, _, -, -, rfl⟩ | ⟨_, _, -, -, h⟩ | ⟨_, _, -, rfl⟩
  · exact position_beginToken h
  · rfl
  · have hbegin := position_beginToken h
    exact hbegin
  · rfl

theorem position_foldlM (h : cs.foldlM step s = .ok s') :
    s'.position = s.position + byteSize cs := by
  induction cs generalizing s with
  | nil =>
    cases h
    simp
  | cons c cs ih =>
    obtain ⟨t, ht, h⟩ := foldlM_cons_eq_ok_iff.1 h
    rw [ih h, position_step ht, byteSize_cons, Nat.add_assoc]

end Scanner

/-- The characters from an offset on, divided into blanks and tokens. A token has the offset at
which its text begins, and a name is not followed by a character that could belong to it. -/
inductive Tiles : Nat → List Char → List Token → Prop
  | done (offset : Nat) : Tiles offset [] []
  | blank {offset : Nat} {c : Char} {cs : List Char} {tokens : List Token} :
      Text.isBlank c = true → Tiles (offset + c.utf8Size) cs tokens → Tiles offset (c :: cs) tokens
  | token {offset : Nat} {kind : TokenKind} {cs : List Char} {tokens : List Token} :
      kind.text.toList ≠ [] →
      (∀ n, kind = .name n → ∀ c, cs.head? = some c → Token.isNameChar c = false) →
      Tiles (offset + byteSize kind.text.toList) cs tokens →
        Tiles offset (kind.text.toList ++ cs) (⟨kind, offset⟩ :: tokens)

theorem Tiles.name {offset : Nat} {text : String} (ht : text.toList ≠ [])
    (hends : ∀ c, cs.head? = some c → Token.isNameChar c = false)
    (h : Tiles (offset + byteSize text.toList) cs tokens) :
    Tiles offset (text.toList ++ cs) (⟨.name text, offset⟩ :: tokens) :=
  @Tiles.token offset (.name text) cs tokens ht (fun _ _ => hends) h

theorem Tiles.operator {offset : Nat} {op : BinaryOp} (hs : op.symbol.toList ≠ [])
    (h : Tiles (offset + byteSize op.symbol.toList) cs tokens) :
    Tiles offset (op.symbol.toList ++ cs) (⟨.binary op, offset⟩ :: tokens) :=
  @Tiles.token offset (.binary op) cs tokens hs (fun _ hn => nomatch hn) h

namespace Scanner

variable {s s' : Scanner}

def held (s : Scanner) : List Char :=
  match s.pending with
  | .none => []
  | .name text _ => text.toList
  | .operator op _ _ => op.symbol.toList.take 1

def origin (s : Scanner) : Nat :=
  match s.pending with
  | .none => s.position
  | .name _ start | .operator _ _ start => start

structure Coherent (s : Scanner) : Prop where
  position : s.position = s.origin + byteSize s.held
  name : ∀ text start, s.pending = .name text start → text.toList ≠ []
  operator : ∀ op second start, s.pending = .operator op second start →
    op.symbol.toList = s.held ++ [second]

theorem coherent_of_pending_eq_none (h : s.pending = .none) : s.Coherent := by
  obtain ⟨position, tokens, pending⟩ := s
  cases h
  refine ⟨by simp [origin, held], fun _ _ hp => ?_, fun _ _ _ hp => ?_⟩
  · cases hp
  · cases hp

theorem Coherent.beginToken (h : s.beginToken c = .ok s') : s'.Coherent := by
  rcases beginToken_cases h with ⟨-, rfl⟩ | ⟨_, -, rfl⟩ | ⟨op, second, hdouble, rfl⟩ |
    ⟨-, rfl⟩
  · exact coherent_of_pending_eq_none rfl
  · exact coherent_of_pending_eq_none rfl
  · have hsymbol := Token.symbol_of_double? hdouble
    refine ⟨by simp [origin, held, hsymbol], fun _ _ hp => ?_, fun _ _ _ hp => ?_⟩
    · cases hp
    · cases hp
      simp [held, hsymbol]
  · refine ⟨by simp [origin, held], fun _ _ hp => ?_, fun _ _ _ hp => nomatch hp⟩
    cases hp
    simp

theorem Coherent.step (hs : s.Coherent) (h : s.step c = .ok s') : s'.Coherent := by
  rcases step_cases h with ⟨-, h⟩ | ⟨text, start, hp, -, rfl⟩ | ⟨_, _, -, -, h⟩ | ⟨_, _, -, rfl⟩
  · exact .beginToken h
  · have hposition := hs.position
    simp only [origin, held, hp] at hposition
    refine ⟨by simp [origin, held, hposition, Nat.add_assoc], fun _ _ hp => ?_,
      fun _ _ _ hp => nomatch hp⟩
    cases hp
    simp
  · exact .beginToken h
  · exact coherent_of_pending_eq_none rfl

/-- The statement about the end of a run that is carried back through its steps. -/
def Divides (s : Scanner) (cs : List Char) (tokens : List Token) : Prop :=
  ∃ later, tokens = s.tokens.reverse ++ later ∧ Tiles s.origin (s.held ++ cs) later

theorem Divides.of_beginToken (h : s.beginToken c = .ok s') (hd : s'.Divides cs tokens)
    (hs : s.pending = .none) : s.Divides (c :: cs) tokens := by
  obtain ⟨later, rfl, ht⟩ := hd
  obtain ⟨position, read, pending⟩ := s
  obtain rfl : pending = .none := hs
  rcases beginToken_cases h with ⟨hblank, rfl⟩ | ⟨kind, hsingle, rfl⟩ | ⟨op, second, hdouble, rfl⟩ |
    ⟨-, rfl⟩
  · exact ⟨later, rfl, .blank hblank ht⟩
  · have htext := Token.text_of_single? hsingle
    have hname : ∀ n, kind = .name n → ∀ d, cs.head? = some d → Token.isNameChar d = false :=
      fun n hn => absurd (hn ▸ hsingle) Token.single?_ne_name
    have hrest : Tiles (position + byteSize kind.text.toList) cs later := by
      simpa [htext, origin, held] using ht
    have htoken := Tiles.token (by simp [htext]) hname hrest
    rw [htext] at htoken
    exact ⟨⟨kind, position⟩ :: later, by simp, htoken⟩
  · exact ⟨later, rfl, by simpa [origin, held, Token.symbol_of_double? hdouble] using ht⟩
  · exact ⟨later, rfl, by simpa [origin, held] using ht⟩

theorem Divides.of_step (hs : s.Coherent) (h : s.step c = .ok s') (hd : s'.Divides cs tokens) :
    s.Divides (c :: cs) tokens := by
  rcases step_cases h with ⟨hp, h⟩ | ⟨text, start, hp, -, rfl⟩ | ⟨text, start, hp, hc, h⟩ |
    ⟨op, start, hp, rfl⟩
  · exact hd.of_beginToken h hp
  · obtain ⟨later, rfl, ht⟩ := hd
    exact ⟨later, rfl, by simpa [origin, held, hp] using ht⟩
  · -- the name ends here, and the next token begins with the character
    obtain ⟨later, rfl, ht⟩ := hd.of_beginToken h rfl
    have hposition := hs.position
    simp only [origin, held, hp] at hposition
    refine ⟨⟨.name text, start⟩ :: later, by simp, ?_⟩
    simp only [origin, held, hp]
    refine .name (hs.name text start hp) (fun d hd => ?_) ?_
    · obtain rfl : c = d := by simpa using hd
      exact hc
    · rwa [← hposition]
  · obtain ⟨later, rfl, ht⟩ := hd
    have hsymbol := hs.operator op c start hp
    have hposition := hs.position
    simp only [origin, hp] at hposition
    have hrest : Tiles (start + byteSize op.symbol.toList) cs later := by
      simpa [hsymbol, origin, held, hposition, Nat.add_assoc] using ht
    have htoken := Tiles.operator (by simp [hsymbol]) hrest
    refine ⟨⟨.binary op, start⟩ :: later, by simp, ?_⟩
    simpa [hsymbol, origin, hp] using htoken

theorem divides_of_finish (hs : s.Coherent) (h : s.finish = .ok tokens) : s.Divides [] tokens := by
  rw [finish] at h
  split at h
  · next hp =>
    cases h
    exact ⟨[], by simp, by simpa [origin, held, hp] using Tiles.done s.position⟩
  · next text start hp =>
    cases h
    refine ⟨[⟨.name text, start⟩], by simp, ?_⟩
    simp only [origin, held, hp]
    exact .name (hs.name text start hp) (by simp) (.done _)
  · cases h

theorem divides_of_foldlM (hs : s.Coherent) (h : cs.foldlM step s = .ok s')
    (hf : s'.finish = .ok tokens) : s.Divides cs tokens := by
  induction cs generalizing s with
  | nil =>
    cases h
    exact divides_of_finish hs hf
  | cons c cs ih =>
    obtain ⟨t, ht, h⟩ := foldlM_cons_eq_ok_iff.1 h
    exact (ih (hs.step ht) h).of_step hs ht

end Scanner

theorem tiles_of_scan {text : String} (h : Token.scan text = .ok tokens) :
    Tiles 0 text.toList tokens := by
  obtain ⟨s, hs, hf⟩ := bind_eq_ok_iff.1 h
  have hstart := Scanner.coherent_of_pending_eq_none (s := Scanner.start) rfl
  obtain ⟨later, rfl, ht⟩ := Scanner.divides_of_foldlM hstart hs hf
  exact ht

namespace Tiles

variable {offset : Nat} {t : Token}

theorem le_position (h : Tiles offset cs tokens) (ht : t ∈ tokens) : offset ≤ t.position := by
  induction h with
  | done => cases ht
  | blank _ _ ih => exact Nat.le_trans (Nat.le_add_right _ _) (ih ht)
  | token _ _ _ ih =>
    rcases List.mem_cons.1 ht with rfl | ht
    · exact Nat.le_refl _
    · exact Nat.le_trans (Nat.le_add_right _ _) (ih ht)

theorem pairwise_position (h : Tiles offset cs tokens) : tokens.Pairwise fun s t =>
    s.position < t.position ∧ s.position + s.kind.text.utf8ByteSize ≤ t.position := by
  induction h with
  | done => exact .nil
  | blank _ _ ih => exact ih
  | @token offset kind _ _ htext _ hrest ih =>
    refine List.pairwise_cons.2 ⟨fun t ht => ?_, ih⟩
    have hle := hrest.le_position ht
    have hpos := byteSize_pos htext
    rw [byteSize_toList] at hle hpos
    have hlt : offset < t.position := by omega
    exact ⟨hlt, hle⟩

theorem exists_at (h : Tiles offset cs tokens) (ht : t ∈ tokens) : ∃ before after,
    cs = before ++ (t.kind.text.toList ++ after) ∧ offset + byteSize before = t.position ∧
      ∀ n, t.kind = .name n → ∀ c, after.head? = some c → Token.isNameChar c = false := by
  induction h with
  | done => cases ht
  | @blank offset c cs _ _ _ ih =>
    obtain ⟨before, after, rfl, hposition, hname⟩ := ih ht
    exact ⟨c :: before, after, rfl, by rw [byteSize_cons, ← hposition, Nat.add_assoc], hname⟩
  | @token offset kind cs _ _ hends _ ih =>
    rcases List.mem_cons.1 ht with rfl | ht
    · exact ⟨[], cs, rfl, by simp, hends⟩
    · obtain ⟨before, after, rfl, hposition, hname⟩ := ih ht
      refine ⟨kind.text.toList ++ before, after, by simp, ?_, hname⟩
      rw [byteSize_append, ← hposition, Nat.add_assoc]

theorem isBlank_or_mem (h : Tiles offset cs tokens) (hcs : cs = before ++ c :: after) :
    Text.isBlank c = true ∨ ∃ t ∈ tokens, t.position ≤ offset + byteSize before ∧
      offset + byteSize before < t.position + byteSize t.kind.text.toList := by
  induction h generalizing before with
  | done => simp at hcs
  | @blank offset d cs tokens hblank _ ih =>
    cases before with
    | nil =>
      cases hcs
      exact Or.inl hblank
    | cons d' before =>
      obtain ⟨rfl, hrest⟩ := List.cons_eq_cons.1 hcs
      rw [byteSize_cons, ← Nat.add_assoc]
      exact ih hrest
  | @token offset kind cs tokens _ _ _ ih =>
    have behind {m : List Char} (hb : before = kind.text.toList ++ m) (hm : cs = m ++ c :: after) :
        Text.isBlank c = true ∨ ∃ t ∈ (⟨kind, offset⟩ : Token) :: tokens,
          t.position ≤ offset + byteSize before ∧
            offset + byteSize before < t.position + byteSize t.kind.text.toList := by
      rw [hb, byteSize_append, ← Nat.add_assoc]
      rcases ih hm with hblank | ⟨t, ht, hle, hlt⟩
      · exact Or.inl hblank
      · exact Or.inr ⟨t, List.mem_cons_of_mem _ ht, hle, hlt⟩
    rcases List.append_eq_append_iff.1 hcs with ⟨m, hb, hm⟩ | ⟨m, htext, hm⟩
    · exact behind hb hm
    · cases m with
      | nil =>
        have hb : before = kind.text.toList ++ [] := by simpa using htext.symm
        exact behind hb hm.symm
      | cons d m =>
        -- the token begins before the character and ends after it
        obtain ⟨rfl, -⟩ := List.cons_eq_cons.1 hm
        have hpos := c.utf8Size_pos
        refine Or.inr ⟨⟨kind, offset⟩, List.mem_cons_self, Nat.le_add_right _ _, ?_⟩
        simp only [htext, byteSize_append, byteSize_cons]
        omega

end Tiles

/-- The tokens stand one behind the other at the byte offsets that they have, outside of them there
are blanks only, and no name could go on. -/
structure Token.Tile (text : String) (tokens : List Token) : Prop where
  ascending : tokens.Pairwise fun s t =>
    s.position < t.position ∧ s.position + s.kind.text.utf8ByteSize ≤ t.position
  placed : ∀ t ∈ tokens, ∃ before after, text = before ++ t.kind.text ++ after ∧
    before.utf8ByteSize = t.position ∧
      ∀ n, t.kind = .name n → ∀ c, after.toList.head? = some c → isNameChar c = false
  blank : ∀ before c after, text = before ++ String.singleton c ++ after →
    Text.isBlank c = true ∨ ∃ t ∈ tokens, t.position ≤ before.utf8ByteSize ∧
      before.utf8ByteSize < t.position + t.kind.text.utf8ByteSize

theorem tile_of_scan {text : String} (h : Token.scan text = .ok tokens) :
    Token.Tile text tokens := by
  have htiles := tiles_of_scan h
  refine ⟨htiles.pairwise_position, fun t ht => ?_, fun before c after htext => ?_⟩
  · obtain ⟨before, after, htext, hposition, hname⟩ := htiles.exists_at ht
    refine ⟨.ofList before, .ofList after, ?_, by simpa [byteSize] using hposition,
      by simpa using hname⟩
    apply String.toList_inj.1
    simpa using htext
  · have hchars : text.toList = before.toList ++ c :: after.toList := by simp [htext]
    simpa [byteSize_toList] using htiles.isBlank_or_mem hchars

inductive TokenKind.Joined : List TokenKind → String → Prop
  | nil : Joined [] ""
  | single (kind : TokenKind) : Joined [kind] kind.text
  | cons {kind next : TokenKind} {kinds : List TokenKind} {gap text : String} :
      gap ≠ "" → (∀ c ∈ gap.toList, Text.isBlank c = true) → Joined (next :: kinds) text →
        Joined (kind :: next :: kinds) (kind.text ++ gap ++ text)

namespace Scanner

theorem emits_gap (hne : cs ≠ []) (h : ∀ c ∈ cs, Text.isBlank c = true) :
    Emits Behind cs [] Between := by
  obtain ⟨c, cs, rfl⟩ := List.exists_cons_of_ne_nil hne
  exact (emits_blanks h).behind (Token.isNameChar_of_isBlank (h c List.mem_cons_self))

theorem emits_kind (h : ∀ n, kind = .name n → Token.IsName n) :
    Emits Between kind.text.toList [kind] Behind := by
  cases kind with
  | leftParen => exact (emits_single rfl).mono
  | rightParen => exact (emits_single rfl).mono
  | const b =>
    cases b with
    | false => exact (emits_single rfl).mono
    | true => exact (emits_single rfl).mono
  | name n => exact emits_name (h n rfl)
  | unary op => exact (emits_unary op).mono
  | binary op => exact (emits_binary op).mono

theorem emits_joined {kinds : List TokenKind} {text : String} (h : TokenKind.Joined kinds text)
    (hnames : ∀ n, .name n ∈ kinds → Token.IsName n) : Emits Between text.toList kinds Behind := by
  induction h with
  | nil => exact (emits_blanks fun c hc => absurd hc List.not_mem_nil).mono
  | single kind => exact emits_kind fun n hn => hnames n (hn ▸ List.mem_cons_self)
  | @cons kind next kinds gap text hne hblank _ ih =>
    have hkind : Emits Between kind.text.toList [kind] Behind :=
      emits_kind fun n hn => hnames n (hn ▸ List.mem_cons_self)
    have hgap : Emits Behind gap.toList [] Between := emits_gap (by simpa using hne) hblank
    have hrest := ih fun n hn => hnames n (List.mem_cons_of_mem kind hn)
    simpa using (hkind.append hgap).append hrest

end Scanner

theorem scan_joined {kinds : List TokenKind} {text : String} (h : TokenKind.Joined kinds text)
    (hnames : ∀ n, .name n ∈ kinds → Token.IsName n) :
    ∃ tokens, Token.scan text = .ok tokens ∧ tokens.map Token.kind = kinds := by
  obtain ⟨s, hs, hb⟩ := Scanner.emits_joined h hnames Scanner.start [] ⟨rfl, rfl⟩
  obtain ⟨tokens, htokens, hkinds⟩ := hb.finish
  exact ⟨tokens, bind_eq_ok_iff.2 ⟨s, hs, htokens⟩, hkinds⟩

namespace Scanner

variable {s s' : Scanner} {e : ParseError}

/-- The first half of an operator has been read. -/
def Halfway (s : Scanner) : Prop := ∃ op second start, s.pending = .operator op second start

theorem finish_eq_error_iff : s.finish = .error e ↔ e = .unexpectedEnd .operator ∧ s.Halfway := by
  obtain ⟨position, tokens, pending⟩ := s
  cases pending with
  | none => simp [finish, Halfway]
  | name text start => simp [finish, Halfway]
  | operator op second start => simp [finish, Halfway, eq_comm]

theorem exists_finish_iff : (∃ tokens, s.finish = .ok tokens) ↔ ¬ s.Halfway := by
  cases hf : s.finish with
  | ok tokens =>
    refine iff_of_true ⟨tokens, rfl⟩ fun hs => ?_
    rw [finish_eq_error_iff.2 ⟨rfl, hs⟩] at hf
    cases hf
  | error e => exact iff_of_false (fun ⟨_, h⟩ => nomatch h) fun h => h (finish_eq_error_iff.1 hf).2

theorem not_halfway_name {text : String} {start : Nat} (h : s.pending = .name text start) :
    ¬ s.Halfway := by
  rintro ⟨_, _, _, hp⟩
  rw [h] at hp
  cases hp

theorem not_halfway_none (h : s.pending = .none) : ¬ s.Halfway := by
  rintro ⟨_, _, _, hp⟩
  rw [h] at hp
  cases hp

theorem exists_completion (s : Scanner) : ∃ (cs : List Char) (s' : Scanner),
    cs.foldlM step s = .ok s' ∧ ¬ s'.Halfway := by
  by_cases hs : s.Halfway
  · obtain ⟨op, second, start, hp⟩ := hs
    have hstep : s.step second =
        .ok ⟨s.position + second.utf8Size, ⟨.binary op, start⟩ :: s.tokens, .none⟩ := by
      rw [step, hp]
      exact if_pos rfl
    exact ⟨[second], _, foldlM_cons_eq_ok_iff.2 ⟨_, hstep, rfl⟩, not_halfway_none rfl⟩
  · exact ⟨[], s, rfl, hs⟩

theorem isSome_double?_of_beginToken (h : s.beginToken c = .ok s') (hs : s'.Halfway) :
    (Token.double? c).isSome = true := by
  rcases beginToken_cases h with ⟨-, rfl⟩ | ⟨_, -, rfl⟩ | ⟨_, _, hdouble, -⟩ | ⟨-, rfl⟩
  · exact absurd hs (not_halfway_none rfl)
  · exact absurd hs (not_halfway_none rfl)
  · rw [hdouble]
    rfl
  · exact absurd hs (not_halfway_name rfl)

theorem Halfway.of_step (hs : s'.Halfway) (h : s.step c = .ok s') :
    (Token.double? c).isSome = true ∧ ¬ s.Halfway := by
  rcases step_cases h with ⟨hp, h⟩ | ⟨_, _, -, -, rfl⟩ | ⟨_, _, hp, -, h⟩ | ⟨_, _, -, rfl⟩
  · exact ⟨isSome_double?_of_beginToken h hs, not_halfway_none hp⟩
  · exact absurd hs (not_halfway_name rfl)
  · exact ⟨isSome_double?_of_beginToken h hs, not_halfway_name hp⟩
  · exact absurd hs (not_halfway_none rfl)

theorem exists_halfway_step (hs : ¬ s.Halfway) (hc : (Token.double? c).isSome = true) :
    ∃ s', s.step c = .ok s' ∧ s'.Halfway := by
  obtain ⟨hblank, hsingle, hname⟩ := Token.not_begins_of_double? hc
  obtain ⟨⟨op, second⟩, hdouble⟩ := Option.isSome_iff_exists.1 hc
  have hbegin (t : Scanner) : t.beginToken c =
      .ok ⟨t.position + c.utf8Size, t.tokens, .operator op second t.position⟩ := by
    simp [beginToken, hblank, hsingle, hdouble]
  obtain ⟨position, tokens, pending⟩ := s
  cases pending with
  | none => exact ⟨_, hbegin _, op, second, position, rfl⟩
  | name text start =>
    have hstep : step ⟨position, tokens, .name text start⟩ c =
        beginToken ⟨position, ⟨.name text, start⟩ :: tokens, .none⟩ c := by simp [step, hname]
    exact ⟨_, hstep.trans (hbegin _), op, second, position, rfl⟩
  | operator op second start => exact absurd ⟨op, second, start, rfl⟩ hs

end Scanner

variable {text : String}

theorem exists_scan_iff : (∃ tokens, Token.scan text = .ok tokens) ↔
    ∃ s, text.toList.foldlM Scanner.step Scanner.start = .ok s ∧ ¬ s.Halfway := by
  constructor
  · rintro ⟨tokens, h⟩
    obtain ⟨s, hs, hf⟩ := bind_eq_ok_iff.1 h
    exact ⟨s, hs, Scanner.exists_finish_iff.1 ⟨tokens, hf⟩⟩
  · rintro ⟨s, hs, hhalf⟩
    obtain ⟨tokens, hf⟩ := Scanner.exists_finish_iff.2 hhalf
    exact ⟨tokens, bind_eq_ok_iff.2 ⟨s, hs, hf⟩⟩

theorem scan_error_cases {e : ParseError} (h : Token.scan text = .error e) :
    (∃ before c after s, text.toList = before ++ c :: after ∧
      before.foldlM Scanner.step Scanner.start = .ok s ∧
        s.step c = .error (.unexpectedChar c s.position) ∧
          e = .unexpectedChar c s.position) ∨
    ∃ s, text.toList.foldlM Scanner.step Scanner.start = .ok s ∧ s.Halfway ∧
      e = .unexpectedEnd .operator := by
  rcases bind_eq_error_iff.1 h with hfold | ⟨s, hs, hf⟩
  · obtain ⟨before, c, after, s, htext, hs, hstep⟩ := exists_of_foldlM_eq_error hfold
    obtain rfl := Scanner.step_eq_error hstep
    exact Or.inl ⟨before, c, after, s, htext, hs, hstep, rfl⟩
  · obtain ⟨he, hhalf⟩ := Scanner.finish_eq_error_iff.1 hf
    exact Or.inr ⟨s, hs, hhalf, he⟩

theorem unexpectedChar_of_scan {position : Nat}
    (h : Token.scan text = .error (.unexpectedChar c position)) : ∃ before after,
    text = before ++ String.singleton c ++ after ∧ before.utf8ByteSize = position ∧
      (∀ other, Token.scan (before ++ String.singleton c ++ other) =
        .error (.unexpectedChar c position)) ∧
      ∃ rest tokens, Token.scan (before ++ rest) = .ok tokens := by
  rcases scan_error_cases h with ⟨before, d, after, s, htext, hs, hstep, he⟩ | ⟨_, -, -, he⟩
  · cases he
    have hposition : s.position = byteSize before := by
      simpa [Scanner.start] using Scanner.position_foldlM hs
    refine ⟨.ofList before, .ofList after, ?_, hposition.symm, fun other => ?_, ?_⟩
    · apply String.toList_inj.1
      simpa using htext
    · apply bind_eq_error_iff.2
      refine Or.inl ?_
      simp [List.foldlM_append, hs, hstep, bind, Except.bind]
    · obtain ⟨cs, s', hcs, hhalf⟩ := s.exists_completion
      refine ⟨.ofList cs, exists_scan_iff.2 ⟨s', ?_, hhalf⟩⟩
      simp [List.foldlM_append, hs, hcs, bind, Except.bind]
  · cases he

theorem scan_eq_unexpectedEnd_iff {expected : Expectation} :
    Token.scan text = .error (.unexpectedEnd expected) ↔ expected = .operator ∧
      ∃ before c, text = before.push c ∧ c ∈ ['&', '|', '-'] ∧
        ∃ tokens, Token.scan before = .ok tokens := by
  constructor
  · intro h
    rcases scan_error_cases h with ⟨_, _, _, _, -, -, -, he⟩ | ⟨s, hs, hhalf, he⟩
    · cases he
    · cases he
      rcases List.eq_nil_or_concat text.toList with hnil | ⟨cs, c, htext⟩
      · rw [hnil] at hs
        cases hs
        exact absurd hhalf (Scanner.not_halfway_none rfl)
      · rw [htext, List.concat_eq_append, List.foldlM_append] at hs
        obtain ⟨t, ht, hstep⟩ := bind_eq_ok_iff.1 hs
        have hstep : t.step c = .ok s := by simpa using hstep
        obtain ⟨hdouble, hbefore⟩ := hhalf.of_step hstep
        refine ⟨rfl, .ofList cs, c, ?_, Token.isSome_double?_iff.1 hdouble,
          exists_scan_iff.2 ⟨t, by simpa using ht, hbefore⟩⟩
        apply String.toList_inj.1
        simpa using htext
  · rintro ⟨rfl, before, c, rfl, hc, htokens⟩
    obtain ⟨t, ht, hbefore⟩ := exists_scan_iff.1 htokens
    obtain ⟨s, hstep, hhalf⟩ := Scanner.exists_halfway_step hbefore (Token.isSome_double?_iff.2 hc)
    apply bind_eq_error_iff.2
    refine Or.inr ⟨s, ?_, Scanner.finish_eq_error_iff.2 ⟨rfl, hhalf⟩⟩
    simp [List.foldlM_append, ht, hstep, bind, Except.bind, pure, Except.pure]

/-- The tokens of a text tile it. Kinds whose texts are joined with blanks between them are read
back. An unexpected character stands at the reported offset and is reported whatever follows it,
and the text before it can be completed to tokens. A text ends unexpectedly exactly when it is the
text of tokens, followed by a character that only begins an operator. -/
theorem scan_tiles_text (text : String) :
    (∀ tokens, Token.scan text = .ok tokens → Token.Tile text tokens) ∧
    (∀ kinds, (∀ n, .name n ∈ kinds → Token.IsName n) → TokenKind.Joined kinds text →
      ∃ tokens, Token.scan text = .ok tokens ∧ tokens.map Token.kind = kinds) ∧
    (∀ c position, Token.scan text = .error (.unexpectedChar c position) → ∃ before after,
      text = before ++ String.singleton c ++ after ∧ before.utf8ByteSize = position ∧
        (∀ other, Token.scan (before ++ String.singleton c ++ other) =
          .error (.unexpectedChar c position)) ∧
        ∃ rest tokens, Token.scan (before ++ rest) = .ok tokens) ∧
    ∀ expected, Token.scan text = .error (.unexpectedEnd expected) ↔ expected = .operator ∧
      ∃ before c, text = before.push c ∧ c ∈ ['&', '|', '-'] ∧
        ∃ tokens, Token.scan before = .ok tokens :=
  ⟨fun _ => tile_of_scan, fun _ hnames hjoined => scan_joined hjoined hnames,
    fun _ _ => unexpectedChar_of_scan, fun _ => scan_eq_unexpectedEnd_iff⟩

theorem scan_tiles_wide_blank :
    (∃ tokens, Token.scan "a1\u3000&& b" = .ok tokens ∧ Token.Tile "a1\u3000&& b" tokens ∧
      tokens.map Token.kind = [.name "a1", .binary .and, .name "b"]) ∧
    (∃ before, before.utf8ByteSize = 3 ∧ ∀ other,
      Token.scan (before ++ String.singleton 'b' ++ other) = .error (.unexpectedChar 'b' 3)) ∧
    Token.scan "a &&&" = .error (.unexpectedEnd .operator) := by
  have hlast : TokenKind.Joined [.name "b"] "b" := .single _
  have hspace : ∀ c ∈ " ".toList, Text.isBlank c = true := List.forall_mem_singleton.2 rfl
  have hwide : ∀ c ∈ "\u3000".toList, Text.isBlank c = true := List.forall_mem_singleton.2 rfl
  have hrest : TokenKind.Joined [.binary .and, .name "b"] "&& b" :=
    @TokenKind.Joined.cons (.binary .and) (.name "b") [] " " "b" (by decide) hspace hlast
  have hjoined : TokenKind.Joined [.name "a1", .binary .and, .name "b"] "a1\u3000&& b" :=
    @TokenKind.Joined.cons (.name "a1") (.binary .and) [.name "b"] "\u3000" "&& b" (by decide)
      hwide hrest
  have hnames : ∀ n, TokenKind.name n ∈ [.name "a1", .binary .and, .name "b"] →
      Token.IsName n := by
    intro n hn
    simp only [List.mem_cons, TokenKind.name.injEq, reduceCtorEq, List.not_mem_nil, or_false,
      false_or] at hn
    rcases hn with rfl | rfl
    · exact ⟨'a', ['1'], rfl, rfl, List.forall_mem_singleton.2 rfl⟩
    · exact ⟨'b', [], rfl, rfl, List.forall_mem_nil _⟩
  obtain ⟨htile, hread, -⟩ := scan_tiles_text "a1\u3000&& b"
  obtain ⟨tokens, hscan, hkinds⟩ := hread _ hnames hjoined
  obtain ⟨-, -, hchar, -⟩ := scan_tiles_text "a &b c"
  obtain ⟨before, -, -, hsize, hsame, -⟩ := hchar 'b' 3 rfl
  obtain ⟨-, -, -, hend⟩ := scan_tiles_text "a &&&"
  exact ⟨⟨tokens, hscan, htile tokens hscan, hkinds⟩, ⟨before, hsize, hsame⟩,
    (hend .operator).2 ⟨rfl, "a &&", '&', by decide, by decide, _, rfl⟩⟩

end TemporalCheck
