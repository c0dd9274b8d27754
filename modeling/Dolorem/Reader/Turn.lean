import Dolorem.Reader.Loops

/-!
# What one turn of the loop takes

A turn leaves a proper suffix of the text, and the body of a group is a proper
piece of it. The body of a group has a newline behind every `#`: the pre-scan
that found its closing bracket came out of every comment.
-/

namespace Dolorem.Reader

/-! ## The pre-scan -/

/-- Every `#` has a newline behind it. -/
def HashClosed (R : List Char) : Prop :=
  ∀ B, '#' :: B <:+ R → '\n' ∈ B

theorem HashClosed.suffix {R S : List Char} (h : HashClosed R) (hs : S <:+ R) : HashClosed S :=
  fun B hB => h B (hB.trans hs)

theorem hashClosed_nil : HashClosed [] := by
  intro B hB
  simp at hB

theorem hashClosed_cons {c : Char} {R : List Char} :
    HashClosed (c :: R) ↔ (c = '#' → '\n' ∈ R) ∧ HashClosed R := by
  constructor
  · intro h
    exact ⟨fun hc => h R (hc ▸ List.suffix_rfl), h.suffix (List.suffix_cons c R)⟩
  · rintro ⟨hc, hR⟩ B hB
    rcases List.suffix_cons_iff.mp hB with he | hs
    · obtain ⟨rfl, rfl⟩ := List.cons.inj he
      exact hc rfl
    · exact hR B hs

/-- The pre-scan stops at a closing bracket. -/
theorem closer_split {R : List Char} : ∀ {cm : Bool} {n : Nat} {body rest : List Char},
    closer cm n R = .found body rest → ∃ c, isCloser c ∧ R = body ++ c :: rest := by
  induction R with
  | nil => intro cm n body rest h; cases cm <;> cases h
  | cons c R ih =>
    have step : ∀ {cm : Bool} {n : Nat} {body rest : List Char},
        (closer cm n R).push c = .found body rest → ∃ d, isCloser d ∧ c :: R = body ++ d :: rest := by
      intro cm n body rest h
      obtain ⟨body', rfl, hb⟩ := Closing.push_found_iff.mp h
      obtain ⟨d, hd, rfl⟩ := ih hb
      exact ⟨d, hd, rfl⟩
    intro cm n body rest h
    cases cm with
    | true => exact step h
    | false =>
      simp only [closer] at h
      split at h
      next => exact step h
      next =>
        split at h
        next => exact step h
        next =>
          split at h
          next hc =>
            split at h
            next =>
              simp only [Closing.found.injEq] at h
              obtain ⟨rfl, rfl⟩ := h
              exact ⟨c, hc, rfl⟩
            next => exact step h
          next => exact step h

theorem closer_found_hashClosed {R : List Char} : ∀ {cm : Bool} {n : Nat} {body rest : List Char},
    closer cm n R = .found body rest → (cm → '\n' ∈ body) ∧ HashClosed body := by
  induction R with
  | nil => intro cm n body rest h; cases cm <;> cases h
  | cons c R ih =>
    intro cm n body rest h
    cases cm with
    | true =>
      obtain ⟨body', rfl, hb⟩ := Closing.push_found_iff.mp h
      obtain ⟨hnl, hclosed⟩ := ih hb
      by_cases hc : c = '\n'
      · subst hc
        exact ⟨fun _ => List.mem_cons_self, hashClosed_cons.mpr ⟨(nomatch ·), hclosed⟩⟩
      · have hnl' := hnl (by simpa using hc)
        exact ⟨fun _ => List.mem_cons_of_mem _ hnl', hashClosed_cons.mpr ⟨fun _ => hnl', hclosed⟩⟩
    | false =>
      refine ⟨(nomatch ·), ?_⟩
      -- outside a comment only the characters other than `#` need no newline
      have step : ∀ {m : Nat}, c ≠ '#' → (closer false m R).push c = .found body rest →
          HashClosed body := by
        intro m hc h
        obtain ⟨body', rfl, hb⟩ := Closing.push_found_iff.mp h
        exact hashClosed_cons.mpr ⟨fun h => absurd h hc, (ih hb).2⟩
      simp only [closer, beq_iff_eq] at h
      split at h
      next =>
        obtain ⟨body', rfl, hb⟩ := Closing.push_found_iff.mp h
        exact hashClosed_cons.mpr ⟨fun _ => (ih hb).1 rfl, (ih hb).2⟩
      next hc =>
        split at h
        next => exact step hc h
        next =>
          split at h
          next =>
            split at h
            next =>
              simp only [Closing.found.injEq] at h
              obtain ⟨rfl, rfl⟩ := h
              exact hashClosed_nil
            next => exact step hc h
          next => exact step hc h

theorem closer_ne_overrun {R : List Char} : ∀ {cm : Bool} {n : Nat},
    HashClosed R → (cm → '\n' ∈ R) → closer cm n R ≠ .overrun := by
  induction R with
  | nil =>
    intro cm n _ hnl
    cases cm with
    | true => exact absurd (hnl rfl) List.not_mem_nil
    | false => exact fun h => by cases h
  | cons c R ih =>
    intro cm n hR hnl
    obtain ⟨hhash, hR⟩ := hashClosed_cons.mp hR
    have step : ∀ {m : Nat}, (closer false m R).push c ≠ .overrun := by
      intro m h
      exact ih hR (fun h => by cases h) (Closing.push_overrun_iff.mp h)
    cases cm with
    | true =>
      intro h
      refine ih hR (fun hc => ?_) (Closing.push_overrun_iff.mp h)
      rcases List.mem_cons.mp (hnl rfl) with he | hm
      · simp [← he] at hc
      · exact hm
    | false =>
      simp only [closer, beq_iff_eq]
      split
      next hc =>
        intro h
        exact ih hR (fun _ => hhash hc) (Closing.push_overrun_iff.mp h)
      next =>
        split
        next => exact step
        next =>
          split
          next =>
            split
            next => exact fun h => by cases h
            next => exact step
          next => exact step

/-! ## The first character -/

/-- The characters that are not part of a word where one may start. -/
def isSpecial (c : Char) : Bool :=
  isBlank c || isCloser c || isOpener c || c == '"' || c == '\'' || c == '#' || c == ';'

/-- The branches of the loop. -/
inductive Lead (c : Char) : Prop
  | blank (h : isBlank c || isCloser c)
  | opener (h : isOpener c)
  | quote (h : c = '"')
  | tick (h : c = '\'')
  | hash (h : c = '#')
  | semi (h : c = ';')
  | plain (h : isSpecial c = false)

theorem lead (c : Char) : Lead c := by
  by_cases hs : isSpecial c = false
  · exact .plain hs
  · simp only [isSpecial, Bool.not_eq_false, Bool.or_eq_true, beq_iff_eq] at hs
    rcases hs with (((((h | h) | h) | h) | h) | h) | h
    · exact .blank (by simp [h])
    · exact .blank (by simp [h])
    · exact .opener h
    · exact .quote h
    · exact .tick h
    · exact .hash h
    · exact .semi h

theorem endsToken_of_plain {c : Char} (h : isSpecial c = false) (h0 : c ≠ '\x00') :
    endsToken c = false := by
  simp only [isSpecial, isBlank, isCloser, isOpener, Bool.or_eq_false_iff, beq_eq_false_iff_ne,
    ne_eq] at h
  simp [endsToken, isWordBoundary, h0, h]

section
variable {pos : Nat} {c : Char} {R rest : List Char}

theorem opener_cases (h : isOpener c) : c = '(' ∨ c = '{' := by
  simpa [isOpener] using h

theorem nextToken_blank (h : isBlank c || isCloser c) :
    nextToken pos (c :: R) = .ok (.skip, R) := by
  rw [nextToken, if_pos h]

theorem nextToken_opener (h : isOpener c) :
    nextToken pos (c :: R) = match closer false 1 R with
      | .found body rest => .ok (.group (c == '{') body, rest)
      | .missing => .error (.error pos "missing closing parentheses")
      | .overrun => .error .overrun := by
  rcases opener_cases h with rfl | rfl <;> rfl

theorem nextToken_quote :
    nextToken pos ('"' :: R) = (do
      let (raw, rest) ← literal pos (some '"') R
      let s ← decode pos '"' false raw
      return (.string s, rest)) := rfl

theorem nextToken_tick :
    nextToken pos ('\'' :: R) = (do
      let (i, rest) ← charLiteral pos R
      return (.char i, rest)) := rfl

theorem nextToken_hash :
    nextToken pos ('#' :: R) = .ok (.skip, R.dropWhile (· != '\n')) := rfl

theorem nextToken_semi : nextToken pos (';' :: R) = .ok (.semi, R) := rfl

theorem nextToken_plain (h : isSpecial c = false) :
    nextToken pos (c :: R) = .ok (if numeric (c :: R) then numberToken (word (c :: R))
      else .ident ((word (c :: R)).map dashToUnderscore), afterWord (c :: R)) := by
  simp only [isSpecial, Bool.or_eq_false_iff] at h
  simp only [nextToken, h, Bool.or_false, Bool.false_eq_true, if_false]
  split <;> rfl

/-! ## The rest of the text -/

theorem charLiteral_suffix {i : Int} (h : charLiteral pos R = .ok (i, rest)) : rest <:+ R := by
  have hcut := List.dropWhile_suffix (· != '\'') (l := R)
  unfold charLiteral at h
  split at h
  next => cases h
  next d X hX =>
    rw [hX] at hcut
    have hXR : X <:+ R := (List.suffix_cons d X).trans hcut
    cases hdec : decode pos '\'' false (R.takeWhile (· != '\'')) with
    | error e => simp [hdec] at h
    | ok s =>
      simp only [hdec, Read.ok_bind] at h
      split at h
      · split at h
        · simp only [Except.ok.injEq, Prod.mk.injEq] at h
          exact h.2 ▸ hXR
        · cases h
      · simp only [Except.ok.injEq, Prod.mk.injEq] at h
        exact h.2 ▸ hXR
      · cases h

/-- What a string literal is read to. -/
theorem nextToken_quote_ok {t : Token} (h : nextToken pos ('"' :: R) = .ok (t, rest)) :
    ∃ raw s, literal pos (some '"') R = .ok (raw, rest) ∧ decode pos '"' false raw = .ok s ∧
      t = .string s := by
  rw [nextToken_quote] at h
  cases hl : literal pos (some '"') R with
  | error e => simp [hl] at h
  | ok x =>
    cases hd : decode pos '"' false x.1 with
    | error e => simp [hl, hd] at h
    | ok s =>
      simp only [hl, hd, Read.ok_bind, Read.pure_eq, Except.ok.injEq, Prod.mk.injEq] at h
      exact ⟨x.1, s, by rw [← h.2], hd, h.1.symm⟩

/-- What a character literal is read to. -/
theorem nextToken_tick_ok {t : Token} (h : nextToken pos ('\'' :: R) = .ok (t, rest)) :
    ∃ i, charLiteral pos R = .ok (i, rest) ∧ t = .char i := by
  rw [nextToken_tick] at h
  cases hc : charLiteral pos R with
  | error e => simp [hc] at h
  | ok x =>
    simp only [hc, Read.ok_bind, Read.pure_eq, Except.ok.injEq, Prod.mk.injEq] at h
    exact ⟨x.1, by rw [← h.2], h.1.symm⟩

/-- What an opening bracket is read to. -/
theorem nextToken_opener_ok {t : Token} (ho : isOpener c)
    (h : nextToken pos (c :: R) = .ok (t, rest)) :
    ∃ body, closer false 1 R = .found body rest ∧ t = .group (c == '{') body := by
  rw [nextToken_opener ho] at h
  split at h
  next body r hcl =>
    simp only [Except.ok.injEq, Prod.mk.injEq] at h
    exact ⟨body, by rw [hcl, h.2], h.1.symm⟩
  next => cases h
  next => cases h

/-- A group is what the pre-scan finds behind an opening bracket. -/
theorem nextToken_group {body : List Char} {curly : Bool}
    (h : nextToken pos (c :: R) = .ok (.group curly body, rest)) :
    isOpener c ∧ curly = (c == '{') ∧ closer false 1 R = .found body rest := by
  cases lead c with
  | blank hc => simp [nextToken_blank hc] at h
  | opener hc =>
    obtain ⟨body', hcl, ht⟩ := nextToken_opener_ok hc h
    simp only [Token.group.injEq] at ht
    obtain ⟨rfl, rfl⟩ := ht
    exact ⟨hc, rfl, hcl⟩
  | quote hc =>
    subst hc
    obtain ⟨_, _, _, _, ht⟩ := nextToken_quote_ok h
    cases ht
  | tick hc =>
    subst hc
    obtain ⟨_, _, ht⟩ := nextToken_tick_ok h
    cases ht
  | hash hc => subst hc; simp [nextToken_hash] at h
  | semi hc => subst hc; simp [nextToken_semi] at h
  | plain hc =>
    rw [nextToken_plain hc] at h
    unfold numberToken at h
    split at h
    · split at h <;> simp at h
    · simp at h

/-- A turn leaves a suffix of what stands behind its first character. -/
theorem nextToken_suffix {t : Token} (h0 : c ≠ '\x00')
    (h : nextToken pos (c :: R) = .ok (t, rest)) : rest <:+ R := by
  cases lead c with
  | blank hc =>
    simp only [nextToken_blank hc, Except.ok.injEq, Prod.mk.injEq] at h
    exact h.2 ▸ List.suffix_rfl
  | opener hc =>
    obtain ⟨body, hcl, _⟩ := nextToken_opener_ok hc h
    obtain ⟨d, _, rfl⟩ := closer_split hcl
    exact (List.suffix_cons _ _).trans (List.suffix_append _ _)
  | quote hc =>
    subst hc
    obtain ⟨raw, s, hl, _, _⟩ := nextToken_quote_ok h
    rw [literal_split hl]
    exact (List.suffix_cons _ _).trans (List.suffix_append _ _)
  | tick hc =>
    subst hc
    obtain ⟨i, hi, _⟩ := nextToken_tick_ok h
    exact charLiteral_suffix hi
  | hash hc =>
    subst hc
    simp only [nextToken_hash, Except.ok.injEq, Prod.mk.injEq] at h
    exact h.2 ▸ List.dropWhile_suffix _
  | semi hc =>
    subst hc
    simp only [nextToken_semi, Except.ok.injEq, Prod.mk.injEq] at h
    exact h.2 ▸ List.suffix_rfl
  | plain hc =>
    -- the first character belongs to the word
    simp only [nextToken_plain hc, Except.ok.injEq, Prod.mk.injEq] at h
    rw [← h.2, afterWord, List.dropWhile_cons_of_pos (by simp [endsToken_of_plain hc h0])]
    exact List.dropWhile_suffix _

end

end Dolorem.Reader
