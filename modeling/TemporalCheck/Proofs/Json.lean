import Mathlib.Data.List.DropRight
import TemporalCheck.Json.Printer
import TemporalCheck.Json.Reader

/-!
# Reading back what was written

A string comes back from its escapes, whatever characters it has. A value that reads back does so
at every depth and before any text, so what holds of the items of an array and of the members of an
object holds of the whole. The reader calls itself at most twice for each character.
-/

namespace TemporalCheck.JsonValue

variable {cs rest : List Char} {t : JsonText} {fuel : Nat} {v : JsonValue}

theorem hexDigit?_digitChar : ∀ n < 16, hexDigit? n.digitChar = some n := by
  decide

theorem codeUnit?_fourDigits {n : Nat} (hn : n < 65536) :
    codeUnit? (n / 4096 % 16).digitChar (n / 256 % 16).digitChar (n / 16 % 16).digitChar
      (n % 16).digitChar = some n := by
  simp only [codeUnit?, hexDigit?_digitChar _ (Nat.mod_lt _ (by decide : 0 < 16)),
    Option.bind_eq_bind, Option.bind_some, Option.pure_def, Option.some.injEq]
  omega

theorem readChars_short {e c : Char} (he : shortEscape? e = some c)
    (h : readChars cs = some (t, rest)) :
    readChars ('\\' :: e :: cs) = some (.scalar c :: t, rest) := by
  have hu : e ≠ 'u' := by
    rintro rfl
    cases he
  rw [readChars]
  · simp [he, h]
  · rintro a b c d rest rfl
    simp at hu

theorem readChars_unit {n : Nat} (hn : n < 65536) (h : readChars cs = some (t, rest)) :
    readChars ('\\' :: 'u' :: (fourDigits n).toList ++ cs) = some (ofUnit n :: t, rest) := by
  simp only [fourDigits, String.toList_ofList, List.map_cons, List.map_nil, List.cons_append,
    List.nil_append, readChars, codeUnit?_fourDigits hn, h, Option.bind_eq_bind, Option.bind_some,
    Option.pure_def]

theorem readChars_plain {c : Char} (hq : c ≠ '"') (hb : c ≠ '\\') (hc : 32 ≤ c.toNat)
    (h : readChars cs = some (t, rest)) : readChars (c :: cs) = some (.scalar c :: t, rest) := by
  rw [readChars]
  · simp [h, hc]
  · simp [hq]
  · simp [hb]
  · simp [hb]

theorem readChars_escapeChar (c : Char) (h : readChars cs = some (t, rest)) :
    readChars ((escapeChar c).toList ++ cs) = some (.scalar c :: t, rest) := by
  unfold escapeChar
  -- seven characters have a short escape
  iterate 7
    split
    · next hc => exact hc ▸ readChars_short rfl h
  split
  · next hc =>
    have hunit : ofUnit c.toNat = .scalar c := by
      rw [ofUnit, if_neg (by omega), Char.ofNat_toNat]
    rw [← hunit]
    simpa using readChars_unit (by omega) h
  · next hq hb _ _ _ _ _ hc =>
    have hplain := readChars_plain hq hb (by omega) h
    simpa [Char.toString] using hplain

theorem readChars_escapes (l : List Char) (rest : List Char) :
    readChars (l.flatMap (fun c => (escapeChar c).toList) ++ '"' :: rest) =
      some (l.map .scalar, rest) := by
  induction l with
  | nil => rfl
  | cons c l ih =>
    rw [List.flatMap_cons, List.append_assoc, List.map_cons]
    exact readChars_escapeChar c ih

theorem joinSurrogates_map_scalar (l : List Char) :
    joinSurrogates (l.map .scalar) = l.map .scalar := by
  induction l with
  | nil => rfl
  | cons c l ih => rw [List.map_cons, joinSurrogates, ih]; simp

theorem toList_quote (s : String) : (quote (.ofString s)).toList =
    '"' :: s.toList.flatMap (fun c => (escapeChar c).toList) ++ ['"'] := by
  simp [quote, JsonText.ofString, escapeUnit, String.toList_join, List.flatMap_map]

theorem readText_quote (s : String) (rest : List Char) :
    ∃ cs, (quote (.ofString s)).toList ++ rest = '"' :: cs ∧
      readText cs = some (.ofString s, rest) := by
  refine ⟨s.toList.flatMap (fun c => (escapeChar c).toList) ++ '"' :: rest, ?_, ?_⟩
  · simp [toList_quote]
  · rw [readText, readChars_escapes, Option.map_some, joinSurrogates_map_scalar]
    rfl

theorem skipBlanks_append {bs : List Char} (h : ∀ c ∈ bs, isBlank c = true) (cs : List Char) :
    skipBlanks (bs ++ cs) = skipBlanks cs :=
  List.dropWhile_append_of_pos h

theorem skipBlanks_skipBlanks (cs : List Char) : skipBlanks (skipBlanks cs) = skipBlanks cs :=
  List.dropWhile_idempotent isBlank cs

theorem readValue_congr {ds : List Char} (h : skipBlanks cs = skipBlanks ds) :
    readValue fuel cs = readValue fuel ds := by
  cases fuel with
  | zero => rfl
  | succ fuel => rw [readValue, readValue, h]

theorem readItems_congr {ds : List Char} (h : skipBlanks cs = skipBlanks ds) :
    readItems fuel cs = readItems fuel ds := by
  cases fuel with
  | zero => rfl
  | succ fuel => rw [readItems, readItems, readValue_congr h]

theorem readMembers_congr {ds : List Char} (h : skipBlanks cs = skipBlanks ds) :
    readMembers fuel cs = readMembers fuel ds := by
  cases fuel with
  | zero => rfl
  | succ fuel => rw [readMembers, readMembers, h]

def newLine (depth : Nat) : List Char := '\n' :: (margin depth).toList

theorem skipBlanks_newLine (depth : Nat) (cs : List Char) :
    skipBlanks (newLine depth ++ cs) = skipBlanks cs := by
  apply skipBlanks_append
  intro c hc
  rcases List.mem_cons.1 hc with rfl | hc
  · rfl
  · rw [margin, String.toList_ofList] at hc
    rw [List.eq_of_mem_replicate hc]
    rfl

def afterLine (right : Char) (depth : Nat) : List String → List Char
  | [] => newLine depth ++ [right]
  | line :: lines =>
      ',' :: newLine (depth + 1) ++ line.toList ++ afterLine right depth lines

theorem toList_block (left right : Char) (depth : Nat) (line : String) (lines : List String) :
    (block left.toString right.toString depth (line :: lines)).toList =
      left :: newLine (depth + 1) ++ line.toList ++ afterLine right depth lines := by
  have key : newLine (depth + 1) ++ line.toList ++ afterLine right depth lines =
      '\n' :: (",\n".intercalate ((line :: lines).map (margin (depth + 1) ++ ·))).toList ++
        newLine depth ++ [right] := by
    induction lines generalizing line with
    | nil => simp [afterLine, newLine]
    | cons next lines ih =>
      rw [afterLine, List.cons_append, List.cons_append, ih]
      simp [newLine]
  rw [block, if_neg (by simp), List.cons_append, List.cons_append, key]
  simp [Char.toString, newLine]

theorem toList_array (depth : Nat) (v : JsonValue) (vs : List JsonValue) :
    (pretty depth (.array (v :: vs))).toList = '[' :: newLine (depth + 1) ++
      (pretty (depth + 1) v).toList ++ afterLine ']' depth (prettyItems (depth + 1) vs) := by
  rw [pretty, prettyItems]
  exact toList_block '[' ']' depth _ _

theorem toList_object (depth : Nat) (m : JsonText × JsonValue) (ms : List (JsonText × JsonValue)) :
    (pretty depth (.object (m :: ms))).toList = '\x7b' :: newLine (depth + 1) ++
      (quote m.1 ++ ": " ++ pretty (depth + 1) m.2).toList ++
        afterLine '\x7d' depth (prettyMembers (depth + 1) ms) := by
  rw [pretty, prettyMembers]
  exact toList_block '\x7b' '\x7d' depth _ _

/-- The printed form is read back at every depth, whatever text follows it, with two calls for each
of its characters. -/
def ReadsBack (v : JsonValue) : Prop :=
  ∀ depth fuel rest, 2 * (pretty depth v).length < fuel →
    readValue fuel ((pretty depth v).toList ++ rest) = some (v, rest)

theorem readsBack_bool (b : Bool) : ReadsBack (.bool b) := by
  intro depth fuel rest hfuel
  obtain ⟨fuel, rfl⟩ := Nat.exists_eq_add_one.2 (Nat.zero_lt_of_lt hfuel)
  cases b with
  | true => rw [pretty]; rfl
  | false => rw [pretty]; rfl

theorem readsBack_string (s : String) : ReadsBack (.string (.ofString s)) := by
  intro depth fuel rest hfuel
  obtain ⟨fuel, rfl⟩ := Nat.exists_eq_add_one.2 (Nat.zero_lt_of_lt hfuel)
  obtain ⟨cs, hcs, hread⟩ := readText_quote s rest
  have hopen : skipBlanks ('"' :: cs) = '"' :: cs := rfl
  rw [pretty, hcs]
  simp only [readValue, hopen, hread, Option.map_some]

theorem ReadsBack.line (h : ReadsBack v) (depth : Nat) (hfuel : 2 * (pretty depth v).length < fuel)
    (rest : List Char) :
    readValue fuel (newLine depth ++ (pretty depth v).toList ++ rest) = some (v, rest) := by
  rw [List.append_assoc, readValue_congr (skipBlanks_newLine depth _)]
  exact h depth fuel rest hfuel

theorem readItems_last {ds : List Char} (hv : readValue fuel cs = some (v, ds))
    (hd : skipBlanks ds = ']' :: rest) : readItems (fuel + 1) cs = some ([v], rest) := by
  simp [readItems, hv, hd]

theorem readItems_comma {ds es : List Char} {vs : List JsonValue}
    (hv : readValue fuel cs = some (v, ds)) (hd : skipBlanks ds = ',' :: es)
    (hvs : readItems fuel es = some (vs, rest)) :
    readItems (fuel + 1) cs = some (v :: vs, rest) := by
  simp [readItems, hv, hd, hvs]

theorem readItems_lines {vs : List JsonValue} (hv : ReadsBack v) (hvs : ∀ u ∈ vs, ReadsBack u)
    (depth : Nat) (hfuel : 2 * ((pretty (depth + 1) v).length +
      (afterLine ']' depth (prettyItems (depth + 1) vs)).length) < fuel) (rest : List Char) :
    readItems fuel (newLine (depth + 1) ++ (pretty (depth + 1) v).toList ++
      (afterLine ']' depth (prettyItems (depth + 1) vs) ++ rest)) = some (v :: vs, rest) := by
  obtain ⟨fuel, rfl⟩ := Nat.exists_eq_add_one.2 (Nat.zero_lt_of_lt hfuel)
  induction vs generalizing v fuel with
  | nil =>
    simp only [prettyItems, afterLine, List.length_append, List.length_singleton] at hfuel
    refine readItems_last (hv.line (depth + 1) (by omega) _) ?_
    rw [prettyItems, afterLine, List.append_assoc, skipBlanks_newLine]
    rfl
  | cons u vs ih =>
    simp only [prettyItems, afterLine, List.length_append, List.length_cons,
      String.length_toList] at hfuel
    obtain ⟨hu, hvs⟩ := List.forall_mem_cons.1 hvs
    obtain ⟨fuel, rfl⟩ := Nat.exists_eq_add_one.2 (by omega : 0 < fuel)
    have hnext := ih hu hvs fuel (by omega)
    rw [← List.append_assoc] at hnext
    exact readItems_comma (hv.line (depth + 1) (by omega) _) rfl hnext

theorem readItems_bracket : readItems fuel (']' :: cs) = none := by
  have hvalue (fuel : Nat) : readValue fuel (']' :: cs) = none := by cases fuel <;> rfl
  cases fuel with
  | zero => rfl
  | succ fuel => rw [readItems, hvalue]; rfl

theorem readValue_array {vs : List JsonValue} (h : readItems fuel cs = some (vs, rest)) :
    readValue (fuel + 1) ('[' :: cs) = some (.array vs, rest) := by
  have hitems : readItems fuel (skipBlanks cs) = some (vs, rest) := by
    rw [← h, readItems_congr (skipBlanks_skipBlanks cs)]
  have hopen : skipBlanks ('[' :: cs) = '[' :: cs := rfl
  simp only [readValue, hopen]
  split
  · next ds hd =>
    rw [hd, readItems_bracket] at hitems
    cases hitems
  · rw [hitems]
    rfl

theorem readsBack_array {vs : List JsonValue} (h : ∀ v ∈ vs, ReadsBack v) :
    ReadsBack (.array vs) := by
  intro depth fuel rest hfuel
  obtain ⟨fuel, rfl⟩ := Nat.exists_eq_add_one.2 (Nat.zero_lt_of_lt hfuel)
  cases vs with
  | nil =>
    have htext : (pretty depth (.array [])).toList = ['[', ']'] := by
      simp [pretty, prettyItems, block]
    rw [htext]
    rfl
  | cons v vs =>
    obtain ⟨hv, hvs⟩ := List.forall_mem_cons.1 h
    rw [← String.length_toList, toList_array] at hfuel
    simp only [List.length_append, List.length_cons, String.length_toList] at hfuel
    have hitems := readItems_lines hv hvs depth (by omega : _ < fuel) rest
    rw [← List.append_assoc] at hitems
    rw [toList_array]
    exact readValue_array hitems

structure MemberReadsBack (m : JsonText × JsonValue) : Prop where
  key : ∃ s, m.1 = .ofString s
  value : ReadsBack m.2

theorem MemberReadsBack.line {m : JsonText × JsonValue} (h : MemberReadsBack m)
    (depth : Nat) (hfuel : 2 * (quote m.1 ++ ": " ++ pretty depth m.2).length < fuel)
    (rest : List Char) : ∃ ds es,
      skipBlanks (newLine depth ++ (quote m.1 ++ ": " ++ pretty depth m.2).toList ++ rest) =
        '"' :: ds ∧ readText ds = some (m.1, ':' :: es) ∧ readValue fuel es = some (m.2, rest) := by
  obtain ⟨s, hs⟩ := h.key
  obtain ⟨ds, hds, hread⟩ := readText_quote s (':' :: ' ' :: ((pretty depth m.2).toList ++ rest))
  refine ⟨ds, ' ' :: ((pretty depth m.2).toList ++ rest), ?_, ?_, ?_⟩
  · have hline : (quote m.1 ++ ": " ++ pretty depth m.2).toList ++ rest = '"' :: ds := by
      rw [hs, ← hds]
      simp
    rw [List.append_assoc, skipBlanks_newLine, hline]
    rfl
  · rw [hread, hs]
  · have hspace : skipBlanks (' ' :: ((pretty depth m.2).toList ++ rest)) =
        skipBlanks ((pretty depth m.2).toList ++ rest) := rfl
    rw [String.length_append] at hfuel
    rw [readValue_congr hspace]
    exact h.value depth fuel rest (by omega)

section Members

variable {key : JsonText} {ds es fs : List Char}

theorem readMembers_last (hk : skipBlanks cs = '"' :: ds) (ht : readText ds = some (key, ':' :: es))
    (hv : readValue fuel es = some (v, fs)) (hd : skipBlanks fs = '\x7d' :: rest) :
    readMembers (fuel + 1) cs = some ([(key, v)], rest) := by
  have hcolon : skipBlanks (':' :: es) = ':' :: es := rfl
  simp [readMembers, hk, ht, hcolon, hv, hd]

theorem readMembers_comma {gs : List Char} {ms : List (JsonText × JsonValue)}
    (hk : skipBlanks cs = '"' :: ds) (ht : readText ds = some (key, ':' :: es))
    (hv : readValue fuel es = some (v, fs)) (hd : skipBlanks fs = ',' :: gs)
    (hms : readMembers fuel gs = some (ms, rest)) :
    readMembers (fuel + 1) cs = some ((key, v) :: ms, rest) := by
  have hcolon : skipBlanks (':' :: es) = ':' :: es := rfl
  simp [readMembers, hk, ht, hcolon, hv, hd, hms]

end Members

theorem readMembers_lines {m : JsonText × JsonValue} {ms : List (JsonText × JsonValue)}
    (hm : MemberReadsBack m) (hms : ∀ n ∈ ms, MemberReadsBack n)
    (depth : Nat) (hfuel : 2 * ((quote m.1 ++ ": " ++ pretty (depth + 1) m.2).length +
      (afterLine '\x7d' depth (prettyMembers (depth + 1) ms)).length) < fuel) (rest : List Char) :
    readMembers fuel (newLine (depth + 1) ++ (quote m.1 ++ ": " ++ pretty (depth + 1) m.2).toList ++
      (afterLine '\x7d' depth (prettyMembers (depth + 1) ms) ++ rest)) = some (m :: ms, rest) := by
  obtain ⟨fuel, rfl⟩ := Nat.exists_eq_add_one.2 (Nat.zero_lt_of_lt hfuel)
  induction ms generalizing m fuel with
  | nil =>
    simp only [prettyMembers, afterLine, List.length_append, List.length_singleton] at hfuel
    obtain ⟨ds, es, hk, ht, hv⟩ := hm.line (depth + 1) (by omega : _ < fuel)
      (afterLine '\x7d' depth (prettyMembers (depth + 1) []) ++ rest)
    refine readMembers_last hk ht hv ?_
    rw [prettyMembers, afterLine, List.append_assoc, skipBlanks_newLine]
    rfl
  | cons n ms ih =>
    simp only [prettyMembers, afterLine, List.length_append, List.length_cons,
      String.length_toList] at hfuel
    obtain ⟨hn, hms⟩ := List.forall_mem_cons.1 hms
    obtain ⟨ds, es, hk, ht, hv⟩ := hm.line (depth + 1) (by omega : _ < fuel)
      (afterLine '\x7d' depth (prettyMembers (depth + 1) (n :: ms)) ++ rest)
    obtain ⟨fuel, rfl⟩ := Nat.exists_eq_add_one.2 (by omega : 0 < fuel)
    have hnext := ih hn hms fuel (by omega)
    rw [← List.append_assoc] at hnext
    exact readMembers_comma hk ht hv rfl hnext

theorem readValue_object {ms : List (JsonText × JsonValue)}
    (h : readMembers fuel cs = some (ms, rest)) :
    readValue (fuel + 1) ('\x7b' :: cs) = some (.object ms, rest) := by
  have hmembers : readMembers fuel (skipBlanks cs) = some (ms, rest) := by
    rw [← h, readMembers_congr (skipBlanks_skipBlanks cs)]
  have hopen : skipBlanks ('\x7b' :: cs) = '\x7b' :: cs := rfl
  simp only [readValue, hopen]
  split
  · next ds hd =>
    -- a member begins with the quote of its key
    have hnone : readMembers fuel ('\x7d' :: ds) = none := by cases fuel <;> rfl
    rw [hd, hnone] at hmembers
    cases hmembers
  · rw [hmembers]
    rfl

theorem readsBack_object {ms : List (JsonText × JsonValue)} (h : ∀ m ∈ ms, MemberReadsBack m) :
    ReadsBack (.object ms) := by
  intro depth fuel rest hfuel
  obtain ⟨fuel, rfl⟩ := Nat.exists_eq_add_one.2 (Nat.zero_lt_of_lt hfuel)
  cases ms with
  | nil =>
    have htext : (pretty depth (.object [])).toList = ['\x7b', '\x7d'] := by
      simp [pretty, prettyMembers, block]
    rw [htext]
    rfl
  | cons m ms =>
    obtain ⟨hm, hms⟩ := List.forall_mem_cons.1 h
    rw [← String.length_toList, toList_object] at hfuel
    simp only [List.length_append, List.length_cons, String.length_toList] at hfuel
    have hmembers := readMembers_lines hm hms depth (by omega : _ < fuel) rest
    rw [← List.append_assoc] at hmembers
    rw [toList_object]
    exact readValue_object hmembers

theorem read_render (h : ReadsBack v) : read v.render = some v := by
  have hfuel : 2 * v.render.length < 2 * v.render.toList.length + 2 := by
    rw [String.length_toList]
    omega
  have hvalue := h 0 _ [] hfuel
  rw [List.append_nil] at hvalue
  unfold read
  exact Option.bind_eq_some_iff.2 ⟨_, hvalue, rfl⟩

end TemporalCheck.JsonValue
