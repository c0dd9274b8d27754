import Dolorem.Reader.Literal
import Dolorem.Reader.Sugar

/-!
# Escaped literals

A string is written by escaping its characters; a literal may be cut into parts
with a backslash and blanks in between. Two loops see it: the one that looks for
the closing quote takes a quote behind a backslash for an escaped one, whatever
stands before the backslash, and `prepare_string` decodes the escapes one by
one. Decoding is always right (`decode_escaped`), but the first loop misses the
quote that closes a part ending in a backslash.

`closes` follows that loop from part to part. The loop may find its way back:
if nothing stands between two parts, the next opening quote is taken for an
escaped one, too; and a part that is mistaken for the gap between two others
may end that gap itself. `literals_read_iff` states that a literal is read back
exactly if `closes` holds, and a character literal exactly if it is not `'\''`.
-/

namespace Dolorem.Reader

/-! ## Writing literals -/

def escape (c : Char) : List Char :=
  if c == '"' then ['\\', '"']
  else if c == '\\' then ['\\', '\\']
  else if c == '\n' then ['\\', 'n']
  else if c == '\t' then ['\\', 't']
  else [c]

def escaped (w : List Char) : List Char :=
  w.flatMap escape

/-- A further part of a literal, and what stands between the backslash before
it and its opening quote. -/
structure Part where
  gap : List Char
  gap_blank : Blank gap
  chars : List Char
  nul_free : '\x00' ∉ chars

/-- A string literal: the first part, and the further ones. -/
def stringLiteral (w : List Char) (ps : List Part) : List Char :=
  '"' :: (escaped w ++ ['"']) ++
    ps.flatMap fun p => '\\' :: (p.gap ++ '"' :: (escaped p.chars ++ ['"']))

/-- A character literal. -/
def characterLiteral (c : Char) : List Char :=
  '\'' :: ((if c == '\'' then ['\\', '\''] else escape c) ++ ['\''])

/-! ## Where the closing quote is found -/

/-- The text `w` is taken for a gap between two parts. The result is `none`
where the reader reports an error, and otherwise tells whether the quote that
closes `w` is passed over. -/
def skipsGap : List Char → Option Bool
  | [] => some true
  | c :: w =>
    if c == '"' then some (w.getLast? == some '\\')
    else if c == '\\' || c == ' ' then skipsGap w
    else none

/-- The literal is taken to end before `w`, unless `w` starts with an escape. -/
def reopens (w : List Char) : Option Bool :=
  if w.head? == none || w.head? == some ' ' then none else skipsGap w

/-- The quote that closes the literal is found, if the flag tells that the
next quote is passed over. -/
def closesAfter : Bool → List Part → Bool
  | passed, [] => !passed
  | passed, p :: ps =>
    if passed && !p.gap.isEmpty then
      match reopens p.chars with
      | some passed => closesAfter passed ps
      | none => false
    else closesAfter (p.chars.getLast? == some '\\') ps

/-- The quote that closes the literal is found. -/
def closes (w : List Char) (ps : List Part) : Bool :=
  closesAfter (w.getLast? == some '\\') ps

/-! ## The text of a literal -/

/-- The further parts, up to the last quote. -/
def between : List Part → List Char
  | [] => []
  | p :: ps => '"' :: '\\' :: (p.gap ++ '"' :: (escaped p.chars ++ between ps))

theorem stringLiteral_eq (w : List Char) (ps : List Part) :
    stringLiteral w ps = '"' :: (escaped w ++ between ps ++ ['"']) := by
  have hps : ∀ ps : List Part, '"' :: (ps.flatMap fun p =>
      '\\' :: (p.gap ++ '"' :: (escaped p.chars ++ ['"']))) = between ps ++ ['"'] := by
    intro ps
    induction ps with
    | nil => rfl
    | cons p ps ih => simp [between, ← ih]
  simp [stringLiteral, ← hps]

theorem escaped_cons (c : Char) (w : List Char) : escaped (c :: w) = escape c ++ escaped w :=
  List.flatMap_cons

/-- The characters with an escape of their own, and the others. -/
theorem escape_cases (c : Char) :
    (∃ d, escape c = ['\\', d] ∧ (d = '\\' ↔ c = '\\') ∧ ∀ pos, controlSequence pos d = .ok c) ∨
    escape c = [c] ∧ c ≠ '"' ∧ c ≠ '\\' := by
  by_cases hq : c = '"'
  · subst hq
    exact .inl ⟨'"', rfl, by decide, fun _ => rfl⟩
  · by_cases hb : c = '\\'
    · subst hb
      exact .inl ⟨'\\', rfl, by decide, fun _ => rfl⟩
    · by_cases hn : c = '\n'
      · subst hn
        exact .inl ⟨'n', rfl, by decide, fun _ => rfl⟩
      · by_cases ht : c = '\t'
        · subst ht
          exact .inl ⟨'t', rfl, by decide, fun _ => rfl⟩
        · exact .inr ⟨by simp [escape, hq, hb, hn, ht], hq, hb⟩

theorem escape_not_mem {c : Char} (h : c ≠ '\x00') : '\x00' ∉ escape c := by
  unfold escape
  repeat' split
  all_goals simp [h.symm]

theorem escaped_not_mem {w : List Char} (h : '\x00' ∉ w) : '\x00' ∉ escaped w := by
  intro hm
  obtain ⟨c, hc, hm⟩ := List.mem_flatMap.mp hm
  exact escape_not_mem (fun e => h (e ▸ hc)) hm

theorem between_not_mem (ps : List Part) : '\x00' ∉ between ps := by
  induction ps with
  | nil => exact List.not_mem_nil
  | cons p ps ih =>
    simp only [between, List.mem_cons, List.mem_append, not_or]
    exact ⟨by decide, by decide, p.gap_blank.not_mem, by decide, escaped_not_mem p.nul_free, ih⟩

/-! ## Decoding -/

theorem decode_escaped (pos : Nat) (w R : List Char) :
    decode pos '"' false (escaped w ++ R) = (w ++ ·) <$> decode pos '"' false R := by
  induction w with
  | nil => cases h : decode pos '"' false R <;> simp [escaped, h]
  | cons c w ih =>
    have hcons : ∀ x : Read (List Char),
        (c :: ·) <$> ((w ++ ·) <$> x) = (c :: w ++ ·) <$> x := by
      intro x
      cases x <;> rfl
    rw [escaped_cons, List.append_assoc]
    rcases escape_cases c with ⟨d, he, _, hd⟩ | ⟨he, hq, hb⟩
    · rw [he, List.cons_append, List.cons_append, List.nil_append, decode_escape pos (by decide), hd,
        Read.ok_bind, ih, hcons]
    · rw [he, List.cons_append, List.nil_append, decode_plain pos hq hb, ih, hcons]

theorem decode_between (pos : Nat) (ps : List Part) :
    decode pos '"' false (between ps) = .ok (ps.flatMap Part.chars) := by
  induction ps with
  | nil => rfl
  | cons p ps ih =>
    have hgap : ∀ c ∈ '\\' :: p.gap, (c != '"') = true := by
      intro c hc
      rw [bne_iff_ne]
      rintro rfl
      rcases List.mem_cons.mp hc with h | h
      · cases h
      · exact absurd (p.gap_blank _ h) (by decide)
    have hdrop : ('\\' :: (p.gap ++ '"' :: (escaped p.chars ++ between ps))).dropWhile (· != '"') =
        '"' :: (escaped p.chars ++ between ps) := by
      rw [← List.cons_append, List.dropWhile_append_of_pos hgap]
      rfl
    rw [between, decode_quote, decode_gap, hdrop]
    simp only [decode_escaped, ih]
    rfl

/-! ## The search for the closing quote -/

section
variable {pos : Nat} {R raw rest : List Char}

theorem literal_push {c : Char} {x : Read (List Char × List Char)} :
    (fun y => (c :: y.1, y.2)) <$> x = .ok (c :: raw, rest) ↔ x = .ok (raw, rest) := by
  cases x with
  | error e => simp
  | ok y => simp [Prod.ext_iff]

/-- A character the loop passes over. -/
theorem literal_pass {p c : Char} (h : c ≠ '"' ∨ p = '\\') :
    literal pos (some p) (c :: R) = .ok (c :: raw, rest) ↔
      literal pos (some c) R = .ok (raw, rest) := by
  have hstop : (c == '"' && p != '\\') = false := by
    rcases h with h | h <;> simp [h]
  simp only [literal, hstop, Bool.false_eq_true, if_false]
  exact literal_push

theorem literal_gap_pass {c : Char} (h : isBlank c || c == '\\') :
    literal pos none (c :: R) = .ok (c :: raw, rest) ↔ literal pos none R = .ok (raw, rest) := by
  have hq : (c == '"') = false := by
    rw [beq_eq_false_iff_ne]
    rintro rfl
    exact absurd h (by decide)
  simp only [literal, hq, h, Bool.false_eq_true, if_false, if_true]
  exact literal_push

theorem literal_gap_quote :
    literal pos none ('"' :: R) = .ok ('"' :: raw, rest) ↔
      literal pos (some '"') R = .ok (raw, rest) := by
  simp only [literal, beq_self_eq_true, if_true]
  exact literal_push

/-- Escaped text is passed over, and only its last character matters. -/
theorem literal_escaped (pos : Nat) (w : List Char) : ∀ p : Char,
    ∃ p', (p' = '\\' ↔ w.getLast?.getD p = '\\') ∧ ∀ {R raw rest : List Char},
      literal pos (some p) (escaped w ++ R) = .ok (escaped w ++ raw, rest) ↔
        literal pos (some p') R = .ok (raw, rest) := by
  induction w with
  | nil => exact fun p => ⟨p, by simp, Iff.rfl⟩
  | cons c w ih =>
    intro p
    have hlast : ∀ {d : Char}, (d = '\\' ↔ c = '\\') →
        (w.getLast?.getD d = '\\' ↔ (c :: w).getLast?.getD p = '\\') := by
      intro d hd
      cases w with
      | nil => simpa using hd
      | cons x w => simp [List.getLast?_cons]
    simp only [escaped_cons, List.append_assoc]
    rcases escape_cases c with ⟨d, he, hd, _⟩ | ⟨he, hq, hb⟩
    · obtain ⟨p', hp', hread⟩ := ih d
      refine ⟨p', hp'.trans (hlast hd), ?_⟩
      intro R raw rest
      rw [he, ← hread]
      simp only [List.cons_append, List.nil_append]
      rw [literal_pass (.inl (by decide)), literal_pass (.inr rfl)]
    · obtain ⟨p', hp', hread⟩ := ih c
      refine ⟨p', hp'.trans (hlast Iff.rfl), ?_⟩
      intro R raw rest
      rw [he, ← hread]
      simp only [List.cons_append, List.nil_append]
      rw [literal_pass (.inl hq)]

/-- The same, from behind a quote. -/
theorem literal_content (pos : Nat) (w : List Char) : ∃ p, (p == '\\') = (w.getLast? == some '\\') ∧
    ∀ {R raw rest : List Char},
      literal pos (some '"') (escaped w ++ R) = .ok (escaped w ++ raw, rest) ↔
        literal pos (some p) R = .ok (raw, rest) := by
  obtain ⟨p, hp, hread⟩ := literal_escaped pos w '"'
  refine ⟨p, ?_, hread⟩
  rw [Bool.eq_iff_iff, beq_iff_eq, hp, beq_iff_eq]
  cases w.getLast? with
  | none => simp
  | some x => simp

theorem literal_blanks {g : List Char} (hg : Blank g) :
    literal pos none (g ++ R) = .ok (g ++ raw, rest) ↔ literal pos none R = .ok (raw, rest) := by
  induction g with
  | nil => exact Iff.rfl
  | cons c g ih =>
    have hc : (isBlank c || c == '\\') = true := by simp [hg c List.mem_cons_self]
    rw [List.cons_append, List.cons_append, literal_gap_pass hc]
    exact ih fun x hx => hg x (List.mem_cons_of_mem _ hx)

/-- Blanks inside a part. -/
theorem literal_part_blanks (pos : Nat) {g : List Char} (hg : Blank g) (hne : g ≠ []) : ∀ p : Char,
    ∃ p', p' ≠ '\\' ∧ ∀ {R raw rest : List Char},
      literal pos (some p) (g ++ R) = .ok (g ++ raw, rest) ↔
        literal pos (some p') R = .ok (raw, rest) := by
  induction g with
  | nil => exact absurd rfl hne
  | cons c g ih =>
    intro p
    have hc : c ≠ '"' ∧ c ≠ '\\' := by
      have hb := hg c List.mem_cons_self
      constructor <;> rintro rfl <;> exact absurd hb (by decide)
    by_cases hg' : g = []
    · subst hg'
      exact ⟨c, hc.2, literal_pass (.inl hc.1)⟩
    · obtain ⟨p', hp', hread⟩ := ih (fun x hx => hg x (List.mem_cons_of_mem _ hx)) hg' c
      refine ⟨p', hp', ?_⟩
      intro R raw rest
      rw [← hread]
      exact literal_pass (.inl hc.1)

end

section
variable {pos : Nat} {rest : List Char}

/-- The text behind the first part starts with a quote. -/
theorem between_quote (rest : List Char) (ps : List Part) : ∃ Z, between ps ++ '"' :: rest = '"' :: Z := by
  cases ps with
  | nil => exact ⟨rest, rfl⟩
  | cons p ps => exact ⟨_, rfl⟩

/-- In a gap and behind a backslash, a quote does not end the literal. -/
theorem literal_gap_eq (Z : List Char) :
    literal pos none ('"' :: Z) = literal pos (some '\\') ('"' :: Z) := by
  simp [literal]

/-- The part `w` is taken for a gap. -/
theorem literal_gap_between {ps : List Part}
    (ih : ∀ p, literal pos (some p) (between ps ++ '"' :: rest) = .ok (between ps, rest) ↔
      closesAfter (p == '\\') ps) (w : List Char) :
    literal pos none (escaped w ++ (between ps ++ '"' :: rest)) =
        .ok (escaped w ++ between ps, rest) ↔
      ∃ passed, skipsGap w = some passed ∧ closesAfter passed ps := by
  induction w with
  | nil =>
    obtain ⟨Z, hZ⟩ := between_quote rest ps
    have h := ih '\\'
    rw [hZ, ← literal_gap_eq, ← hZ] at h
    simpa [escaped, skipsGap] using h
  | cons c w ihw =>
    rw [escaped_cons, List.append_assoc, List.append_assoc]
    by_cases hq : c = '"'
    · subst hq
      obtain ⟨p, hp, hread⟩ := literal_content pos w
      simp only [escape, beq_self_eq_true, if_true, List.cons_append, List.nil_append]
      rw [literal_gap_pass rfl, literal_gap_quote, hread, ih, hp]
      simp [skipsGap]
    · by_cases hb : c = '\\'
      · subst hb
        have he : escape '\\' = ['\\', '\\'] := rfl
        rw [he]
        simp only [List.cons_append, List.nil_append]
        rw [literal_gap_pass rfl, literal_gap_pass rfl, ihw]
        simp [skipsGap]
      · by_cases hs : c = ' '
        · subst hs
          have he : escape ' ' = [' '] := rfl
          rw [he]
          simp only [List.cons_append, List.nil_append]
          rw [literal_gap_pass rfl, ihw]
          simp [skipsGap]
        · -- anything else in a gap is an error
          have hnone : skipsGap (c :: w) = none := by simp [skipsGap, hq, hb, hs]
          rw [hnone]
          have herr : ∀ R : List Char, ∃ e, literal pos none (escape c ++ R) = .error e := by
            intro R
            by_cases hn : c = '\n'
            · subst hn
              exact ⟨_, rfl⟩
            · by_cases ht : c = '\t'
              · subst ht
                exact ⟨_, rfl⟩
              · simp [escape, literal, hq, hb, hn, ht, isBlank, hs]
          obtain ⟨e, he⟩ := herr (escaped w ++ (between ps ++ '"' :: rest))
          simp [he]

/-- The opening quote of the part `w` ends the literal, unless a backslash
follows. -/
theorem literal_stop {p : Char} (hp : p ≠ '\\') (Y raw : List Char) :
    literal pos (some p) ('"' :: Y) = .ok ('"' :: raw, rest) ↔
      Y.head? = some '\\' ∧ literal pos none Y = .ok (raw, rest) := by
  by_cases hY : Y.head? = some '\\'
  · have hl : literal pos (some p) ('"' :: Y) =
        (fun x => ('"' :: x.1, x.2)) <$> literal pos none Y := by
      simp [literal, hp, hY]
    rw [hl, literal_push]
    simp [hY]
  · simp [literal, hp, hY]

theorem reopens_iff {ps : List Part}
    (ih : ∀ p, literal pos (some p) (between ps ++ '"' :: rest) = .ok (between ps, rest) ↔
      closesAfter (p == '\\') ps) (w : List Char) :
    (escaped w ++ (between ps ++ '"' :: rest)).head? = some '\\' ∧
      literal pos none (escaped w ++ (between ps ++ '"' :: rest)) =
        .ok (escaped w ++ between ps, rest) ↔
      ∃ passed, reopens w = some passed ∧ closesAfter passed ps := by
  rw [literal_gap_between ih]
  cases w with
  | nil =>
    obtain ⟨Z, hZ⟩ := between_quote rest ps
    simp [escaped, hZ, reopens]
  | cons c w =>
    rw [escaped_cons, List.append_assoc]
    rcases escape_cases c with ⟨d, he, _, _⟩ | ⟨he, hq, hb⟩
    · have hs : c ≠ ' ' := by
        rintro rfl
        cases he
      rw [he]
      simp [reopens, hs]
    · -- the literal ends here; a gap could only go on with a blank
      have hnone : reopens (c :: w) = none := by
        by_cases hs : c = ' ' <;> simp [reopens, skipsGap, hq, hb, hs]
      rw [he, hnone]
      simp [hb]

/-- The quote that ends the literal is found exactly if `closesAfter` says so. -/
theorem literal_between (hr : rest.head? ≠ some '\\') (ps : List Part) : ∀ p : Char,
    literal pos (some p) (between ps ++ '"' :: rest) = .ok (between ps, rest) ↔
      closesAfter (p == '\\') ps := by
  induction ps with
  | nil =>
    intro p
    by_cases hp : p = '\\'
    · subst hp
      cases hl : literal pos (some '"') rest <;> simp [between, literal, hl, closesAfter]
    · simp [between, literal, hp, hr, closesAfter]
  | cons part ps ih =>
    intro p
    -- behind the opening quote of the part
    have hpart : literal pos (some '"') (escaped part.chars ++ (between ps ++ '"' :: rest)) =
        .ok (escaped part.chars ++ between ps, rest) ↔
          closesAfter (part.chars.getLast? == some '\\') ps := by
      obtain ⟨p', hp', hread⟩ := literal_content pos part.chars
      rw [hread, ih, hp']
    simp only [between, List.cons_append, List.append_assoc]
    by_cases hp : p = '\\'
    · -- the closing quote of the last part is passed over
      subst hp
      rw [literal_pass (.inr rfl), literal_pass (.inl (by decide))]
      by_cases hg : part.gap = []
      · rw [hg, List.nil_append, List.nil_append, literal_pass (.inr rfl), hpart]
        simp [closesAfter, hg]
      · obtain ⟨p', hp', hread⟩ := literal_part_blanks pos part.gap_blank hg '\\'
        rw [hread]
        rw [literal_stop hp', reopens_iff ih]
        cases hre : reopens part.chars with
        | none => simp [closesAfter, hg, hre]
        | some passed => cases passed <;> simp [closesAfter, hg, hre]
    · have hstop : literal pos (some p)
            ('"' :: '\\' :: (part.gap ++ '"' :: (escaped part.chars ++ (between ps ++ '"' :: rest)))) =
          (fun x => ('"' :: x.1, x.2)) <$> literal pos none
            ('\\' :: (part.gap ++ '"' :: (escaped part.chars ++ (between ps ++ '"' :: rest)))) := by
        simp [literal, hp]
      rw [hstop, literal_push, literal_gap_pass rfl, literal_blanks part.gap_blank,
        literal_gap_quote, hpart]
      simp [closesAfter, hp]

end

/-! ## Reading literals back -/

/-- The state at `lit`, with anything around it. -/
def State.before (P lit rest T : List Char) (build : Build Ptr) (lie : Option Nat) : State :=
  ⟨P ++ (lit ++ (rest ++ '\x00' :: T)), P.length, build, lie⟩

/-- One turn over `lit` makes one string node, with the text `w`, and stops
right behind the literal. -/
def ReadsString (lit rest w : List Char) : Prop :=
  ∀ nested fileidx P T build lie, ∃ b,
    iter nested fileidx (.before P lit rest T build lie) = .ok
      ⟨b, P.length + lit.length,
        build.insertPart (.string ⟨P.length, some fileidx⟩ (.mem (P.length + 1))), lie⟩ ∧
    cstr b (.mem (P.length + 1)) = w ∧ b.drop (P.length + lit.length) = rest ++ '\x00' :: T

/-- One turn over `lit` makes one character node, with the value `i`, and stops
right behind the literal. -/
def ReadsChar (lit rest : List Char) (i : Int) : Prop :=
  ∀ nested fileidx P T build lie, ∃ b,
    iter nested fileidx (.before P lit rest T build lie) = .ok
      ⟨b, P.length + lit.length, build.insertPart (.char ⟨P.length, some fileidx⟩ i), lie⟩ ∧
    b.drop (P.length + lit.length) = rest ++ '\x00' :: T

theorem stringLiteral_read_iff (w : Source) (ps : List Part) (rest : Source)
    (hr : rest.text.head? ≠ some '\\') :
    ReadsString (stringLiteral w.text ps) rest.text (w.text ++ ps.flatMap Part.chars) ↔
      closes w.text ps := by
  have hraw : '\x00' ∉ escaped w.text ++ between ps := by
    rw [List.mem_append, not_or]
    exact ⟨escaped_not_mem w.nul_free, between_not_mem ps⟩
  have hn : '\x00' ∉ escaped w.text ++ between ps ++ '"' :: rest.text := by
    rw [List.mem_append, List.mem_cons, not_or, not_or]
    exact ⟨hraw, by decide, rest.nul_free⟩
  have hbuf : ∀ P T build lie, (State.before P (stringLiteral w.text ps) rest.text T build lie).buf =
      P ++ '"' :: ((escaped w.text ++ between ps ++ '"' :: rest.text) ++ '\x00' :: T) := by
    intro P T build lie
    simp [State.before, stringLiteral_eq]
  have hlen : (stringLiteral w.text ps).length = 1 + (escaped w.text ++ between ps).length + 1 := by
    rw [stringLiteral_eq, List.length_cons, List.length_append, List.length_singleton]
    omega
  have hfound : ∀ pos, literal pos (some '"') (escaped w.text ++ between ps ++ '"' :: rest.text) =
      .ok (escaped w.text ++ between ps, rest.text) ↔ closes w.text ps := by
    intro pos
    obtain ⟨p, hp, hread⟩ := literal_content pos w.text
    rw [List.append_assoc, hread, literal_between hr, hp]
    rfl
  have hdec : ∀ pos, decode pos '"' false (escaped w.text ++ between ps) =
      .ok (w.text ++ ps.flatMap Part.chars) := by
    intro pos
    rw [decode_escaped, decode_between]
    rfl
  constructor
  · intro h
    obtain ⟨b, hi, _, _⟩ := h (fun _ _ _ => .error .fuel) 0 [] [] (.start (.nil ⟨0, none⟩)) none
    rw [← hfound 0]
    cases hnt : nextToken 0 ('"' :: (escaped w.text ++ between ps ++ '"' :: rest.text)) with
    | error e =>
      have := iter_string_error (fun _ _ _ => .error .fuel) 0
        (hbuf [] [] (.start (.nil ⟨0, none⟩)) none) rfl hn hnt
      rw [this] at hi
      cases hi
    | ok x =>
      obtain ⟨tok, r⟩ := x
      obtain ⟨raw, t, hl, hd, _⟩ := nextToken_quote_ok hnt
      obtain ⟨Z, hZ, hi'⟩ := iter_string_ok (fun _ _ _ => .error .fuel) 0
        (hbuf [] [] (.start (.nil ⟨0, none⟩)) none) rfl hn hl hd
      rw [hi'] at hi
      -- the cursor tells which quote was found
      have hs := congrArg State.s (Except.ok.inj hi)
      simp only [hlen, List.length_nil] at hs
      have hsplit := literal_split hl
      obtain ⟨rfl, hrest⟩ := List.append_inj hsplit.symm (by omega)
      rw [hl, (List.cons.inj hrest).2]
  · intro h nested fileidx P T build lie
    obtain ⟨Z, hZ, hi⟩ := iter_string_ok nested fileidx
      (hbuf P T build lie) rfl hn ((hfound _).mpr h) (hdec _)
    rw [show P.length + 1 + (escaped w.text ++ between ps).length + 1 =
      P.length + (stringLiteral w.text ps).length by rw [hlen]; omega] at hi
    refine ⟨_, hi, ?_, ?_⟩
    · refine cstr_of_drop (X := Z ++ (rest.text ++ '\x00' :: T)) (decode_not_mem _ hraw (hdec 0)) ?_
      exact drop_succ (c := '"') List.drop_left
    · have hcut : P.length + (stringLiteral w.text ps).length =
          (P ++ '"' :: (w.text ++ ps.flatMap Part.chars ++ '\x00' :: Z)).length := by
        simp only [hlen, List.length_append, List.length_cons] at hZ ⊢
        omega
      rw [hcut]
      have happ : P ++ '"' :: (w.text ++ ps.flatMap Part.chars ++
            '\x00' :: (Z ++ (rest.text ++ '\x00' :: T))) =
          (P ++ '"' :: (w.text ++ ps.flatMap Part.chars ++ '\x00' :: Z)) ++
            (rest.text ++ '\x00' :: T) := by simp
      rw [happ, List.drop_left]

theorem charLiteral_escape {pos : Nat} {c : Char} (hc : c ≠ '\'') (rest : List Char) :
    charLiteral pos (escape c ++ '\'' :: rest) = .ok (signedChar c, rest) := by
  rcases escape_cases c with ⟨d, he, _, hd⟩ | ⟨he, _, hb⟩
  · have hdq : d ≠ '\'' := by
      rintro rfl
      exact hc (Except.ok.inj (hd 0)).symm
    rw [he]
    simp only [charLiteral, List.cons_append, List.nil_append]
    rw [List.dropWhile_cons_of_pos (by decide), List.dropWhile_cons_of_pos (by simpa using hdq),
      List.takeWhile_cons_of_pos (by decide), List.takeWhile_cons_of_pos (by simpa using hdq),
      List.takeWhile_cons_of_neg (by simp), List.dropWhile_cons_of_neg (by simp),
      decode_escape pos (by decide), hd]
    rfl
  · rw [he]
    simp only [charLiteral, List.cons_append, List.nil_append]
    rw [List.dropWhile_cons_of_pos (by simpa using hc), List.takeWhile_cons_of_pos (by simpa using hc),
      List.takeWhile_cons_of_neg (by simp), List.dropWhile_cons_of_neg (by simp),
      decode_plain pos hc hb]
    rfl

theorem characterLiteral_read_iff {c : Char} (hc : c ≠ '\x00') (rest : Source) :
    ReadsChar (characterLiteral c) rest.text (signedChar c) ↔ c ≠ '\'' := by
  by_cases hq : c = '\''
  · -- the backslash before the quote is not looked at
    subst hq
    refine iff_of_false (fun h => ?_) (by simp)
    obtain ⟨b, hi, _⟩ := h (fun _ _ _ => .error .fuel) 0 [] [] (.start (.nil ⟨0, none⟩)) none
    have hn : '\x00' ∉ '\\' :: '\'' :: '\'' :: rest.text := by
      simp only [List.mem_cons, not_or]
      exact ⟨by decide, by decide, by decide, rest.nul_free⟩
    have heq := iter_char_eq (fun _ _ _ => .error .fuel) 0 (P := []) (T := [])
      (show (State.before [] (characterLiteral '\'') rest.text [] (.start (.nil ⟨0, none⟩)) none).buf =
        '\'' :: ('\\' :: '\'' :: '\'' :: rest.text ++ ['\x00']) from rfl) rfl hn
    have herr : charLiteral 0 ('\\' :: '\'' :: '\'' :: rest.text) =
        .error (invalidControlSequence 0 '\x00') := rfl
    simp only [List.length_nil, herr] at heq
    rw [heq] at hi
    cases hi
  · refine iff_of_true (fun nested fileidx P T build lie => ?_) hq
    have hn : '\x00' ∉ escape c ++ '\'' :: rest.text := by
      simp only [List.mem_append, List.mem_cons, not_or]
      exact ⟨escape_not_mem hc, by decide, rest.nul_free⟩
    have hlit : characterLiteral c = '\'' :: (escape c ++ ['\'']) := by
      simp [characterLiteral, hq]
    have hbuf : (State.before P (characterLiteral c) rest.text T build lie).buf =
        P ++ '\'' :: (escape c ++ '\'' :: rest.text ++ '\x00' :: T) := by
      simp [State.before, hlit]
    have heq := iter_char_eq nested fileidx hbuf rfl hn
    rw [charLiteral_escape hq] at heq
    obtain ⟨w, hw, hi⟩ := heq
    have hlen : (characterLiteral c).length = w.length + 1 := by
      simp only [hlit, List.length_append, List.length_cons] at hw ⊢
      simp only [List.length_nil]
      omega
    refine ⟨_, by rw [hi, hlen]; rfl, ?_⟩
    rw [hlen, show P.length + (w.length + 1) = (P ++ '\'' :: w).length by simp,
      show P ++ '\'' :: (w ++ (rest.text ++ '\x00' :: T)) =
        (P ++ '\'' :: w) ++ (rest.text ++ '\x00' :: T) by simp, List.drop_left]

/-- Decoding undoes encoding exactly for the string literals whose closing
quote is found, and for all characters but the single quote. -/
theorem literals_read_iff (w : Source) (ps : List Part) (c : Char) (rest : Source)
    (hr : rest.text.head? ≠ some '\\') (hc : c ≠ '\x00') :
    (ReadsString (stringLiteral w.text ps) rest.text (w.text ++ ps.flatMap Part.chars) ↔
      closes w.text ps) ∧
    (ReadsChar (characterLiteral c) rest.text (signedChar c) ↔ c ≠ '\'') :=
  ⟨stringLiteral_read_iff w ps rest hr, characterLiteral_read_iff hc rest⟩

theorem literals_read_iff_example :
    (ReadsString "\"a\\\\b\"".toList [] "a\\b".toList ↔ closes "a\\b".toList []) ∧
    (ReadsChar "'\\n'".toList [] 10 ↔ '\n' ≠ '\'') :=
  literals_read_iff ⟨"a\\b".toList, by decide⟩ [] '\n' ⟨[], by decide⟩ (by decide) (by decide)

/-- A string that ends in a backslash is not read back. -/
theorem backslash_at_end :
    ¬ ((∀ (w : Source) (ps : List Part) (rest : Source), rest.text.head? ≠ some '\\' →
        ReadsString (stringLiteral w.text ps) rest.text (w.text ++ ps.flatMap Part.chars)) ∧
      (∀ (c : Char) (rest : Source), c ≠ '\x00' →
        ReadsChar (characterLiteral c) rest.text (signedChar c))) := by
  rintro ⟨h, _⟩
  obtain ⟨b, hi, _⟩ := h ⟨['\\'], by decide⟩ [] ⟨[], by decide⟩ (by decide)
    (fun _ _ _ => .error .fuel) 0 [] [] (.start (.nil ⟨0, none⟩)) none
  have herr : iter (fun _ _ _ => .error .fuel) 0
      (.before [] (stringLiteral ['\\'] []) [] [] (.start (.nil ⟨0, none⟩)) none) =
      .error (.error 0 "missing closing '\"'") := by decide
  exact absurd (hi.symm.trans herr) nofun

end Dolorem.Reader
