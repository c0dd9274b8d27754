import Dolorem.Reader.Token

/-!
# The scanning loops on a text

What each loop of the reader computes when the buffer holds a NUL-free text `R`
and its terminator at the cursor: `b.drop s = R ++ NUL :: T`. The cursor stays
on `R` or its terminator, so the rest `T` of the buffer is never looked at,
with the one exception of a pre-scan that ends inside a comment.
-/

namespace Dolorem.Reader

/-! ## Reading and writing -/

theorem peek_of_drop {b X : List Char} {s : Nat} {c : Char} (h : b.drop s = c :: X) :
    peek b s = .ok c := by
  have hs : b[s]? = some c := by rw [← List.head?_drop, h]; rfl
  simp [peek, hs]

theorem drop_succ {b X : List Char} {s : Nat} {c : Char} (h : b.drop s = c :: X) :
    b.drop (s + 1) = X := by
  rw [← List.drop_drop, h]; rfl

theorem drop_add_length {b w X : List Char} {s : Nat} (h : b.drop s = w ++ X) :
    b.drop (s + w.length) = X := by
  rw [← List.drop_drop, h, List.drop_left]

theorem peek_append (P : List Char) (c : Char) (X : List Char) :
    peek (P ++ c :: X) P.length = .ok c :=
  peek_of_drop List.drop_left

theorem peek_end {b : List Char} {s : Nat} (h : b.drop s = []) : peek b s = .error .overrun := by
  have hs : b[s]? = none := by rw [← List.head?_drop, h]; rfl
  simp [peek, hs]

theorem poke_append (P : List Char) (c d : Char) (X : List Char) :
    poke (P ++ c :: X) P.length d = .ok (P ++ d :: X) := by
  simp [poke]

theorem length_of_drop {b X : List Char} {s : Nat} (h : b.drop s = X) : X.length ≤ b.length := by
  rw [← h, List.length_drop]; omega

/-- The character the cursor is on: the first of the text, or its terminator. -/
def headOr (R : List Char) : Char :=
  R.headD '\x00'

@[simp] theorem headOr_nil : headOr [] = '\x00' := rfl

@[simp] theorem headOr_cons (c : Char) (R : List Char) : headOr (c :: R) = c := rfl

theorem peek_text {b R T : List Char} {s : Nat} (h : b.drop s = R ++ '\x00' :: T) :
    peek b s = .ok (headOr R) := by
  cases R with
  | nil => exact peek_of_drop h
  | cons c R => exact peek_of_drop h

theorem ne_nul_of_not_mem {c : Char} {R : List Char} (h : '\x00' ∉ c :: R) : c ≠ '\x00' := by
  rintro rfl
  exact h List.mem_cons_self

theorem not_mem_tail {c d : Char} {R : List Char} (h : d ∉ c :: R) : d ∉ R :=
  fun hm => h (List.mem_cons_of_mem _ hm)

section
variable {b R T : List Char} {s k : Nat}

/-! ## Loops that only move the cursor -/

theorem scan_stop {stop : Char → Bool} {fail : Char → Option Stop} {w Y : List Char} {d : Char}
    (h : b.drop s = w ++ d :: Y) (hw : ∀ c ∈ w, stop c = false ∧ fail c = none)
    (hd : stop d = true) (hk : w.length < k) :
    scan stop fail b k s = .ok (s + w.length) := by
  induction w generalizing s k with
  | nil =>
    cases k with
    | zero => simp at hk
    | succ k => simp [scan, peek_of_drop h, hd]
  | cons c w ih =>
    cases k with
    | zero => simp at hk
    | succ k =>
      obtain ⟨hc, hf⟩ := hw c List.mem_cons_self
      have hrec := ih (drop_succ h) (fun x hx => hw x (List.mem_cons_of_mem _ hx))
        (Nat.lt_of_succ_lt_succ hk)
      simp only [scan, peek_of_drop h, Read.ok_bind, hc, hf, hrec]
      simp only [List.length_cons, Bool.false_eq_true, if_false, Except.ok.injEq]
      omega

theorem scan_fail {stop : Char → Bool} {fail : Char → Option Stop} {w Y : List Char} {d : Char}
    {e : Stop} (h : b.drop s = w ++ d :: Y) (hw : ∀ c ∈ w, stop c = false ∧ fail c = none)
    (hd : stop d = false) (he : fail d = some e) (hk : w.length < k) :
    scan stop fail b k s = .error e := by
  induction w generalizing s k with
  | nil =>
    cases k with
    | zero => simp at hk
    | succ k => simp [scan, peek_of_drop h, hd, he]
  | cons c w ih =>
    cases k with
    | zero => simp at hk
    | succ k =>
      obtain ⟨hc, hf⟩ := hw c List.mem_cons_self
      have hrec := ih (drop_succ h) (fun x hx => hw x (List.mem_cons_of_mem _ hx))
        (Nat.lt_of_succ_lt_succ hk)
      simp only [scan, peek_of_drop h, Read.ok_bind, hc, hf, hrec]
      simp

/-- A text and its terminator, cut before the first character that fails `p`. -/
theorem exists_cut (p : Char → Bool) (R T : List Char) :
    ∃ Y, R ++ '\x00' :: T = R.takeWhile p ++ headOr (R.dropWhile p) :: Y := by
  cases hd : R.dropWhile p with
  | nil =>
    have hR := List.takeWhile_append_dropWhile (p := p) (l := R)
    rw [hd, List.append_nil] at hR
    exact ⟨T, by rw [hR]; rfl⟩
  | cons c X =>
    have hR := List.takeWhile_append_dropWhile (p := p) (l := R)
    rw [hd] at hR
    refine ⟨X ++ '\x00' :: T, ?_⟩
    conv => lhs; rw [← hR]
    simp

theorem headOr_dropWhile (p : Char → Bool) (R : List Char) :
    R.dropWhile p = [] ∧ headOr (R.dropWhile p) = '\x00' ∨
    p (headOr (R.dropWhile p)) = false ∧ headOr (R.dropWhile p) ∈ R := by
  cases hd : R.dropWhile p with
  | nil => exact .inl ⟨rfl, rfl⟩
  | cons c X =>
    refine .inr ⟨?_, ?_⟩
    · have hc := List.head?_dropWhile_not p R
      rw [hd] at hc
      simpa using hc
    · exact (List.dropWhile_suffix p).subset (by rw [hd]; exact List.mem_cons_self)

theorem length_takeWhile_le (p : Char → Bool) (R : List Char) :
    (R.takeWhile p).length ≤ R.length :=
  (List.takeWhile_prefix p).length_le

theorem drop_length_lt (h : b.drop s = R ++ '\x00' :: T) : R.length < b.length + 1 := by
  have hb := length_of_drop h
  simp only [List.length_append, List.length_cons] at hb
  omega

/-- A loop that only stops at the terminator or at the first character that
fails `p`. -/
theorem scan_text {stop : Char → Bool} (p : Char → Bool) (h : b.drop s = R ++ '\x00' :: T)
    (hp : ∀ c ∈ R, stop c = !p c) (h0 : stop '\x00' = true) :
    scan stop (fun _ => none) b (b.length + 1) s = .ok (s + (R.takeWhile p).length) := by
  obtain ⟨Y, hY⟩ := exists_cut p R T
  refine scan_stop (h.trans hY) (fun c hc => ⟨?_, rfl⟩) ?_ ?_
  · rw [hp c ((List.takeWhile_prefix p).subset hc), List.mem_takeWhile_imp hc]
    rfl
  · rcases headOr_dropWhile p R with ⟨_, he⟩ | ⟨he, hm⟩
    · rw [he, h0]
    · rw [hp _ hm, he]
      rfl
  · exact Nat.lt_of_le_of_lt (length_takeWhile_le p R) (drop_length_lt h)

theorem skipComment_eq (h : b.drop s = R ++ '\x00' :: T) (hn : '\x00' ∉ R) :
    skipComment b s = .ok (s + (R.takeWhile (· != '\n')).length) := by
  refine scan_text _ h (fun c hc => ?_) rfl
  have hc0 : (c == '\x00') = false := beq_eq_false_iff_ne.mpr fun e => hn (e ▸ hc)
  simp [hc0, bne]

theorem tokenEnd_eq (h : b.drop s = R ++ '\x00' :: T) :
    tokenEnd b s = .ok (s + (word R).length) :=
  scan_text _ h (fun c _ => by simp) rfl

theorem skipPart_eq {type : Char} (h : b.drop s = R ++ '\x00' :: T) (hn : '\x00' ∉ R) :
    skipPart type b s = .ok (s + (R.takeWhile (· != type)).length) := by
  refine scan_text _ h (fun c hc => ?_) rfl
  have hc0 : (c == '\x00') = false := beq_eq_false_iff_ne.mpr fun e => hn (e ▸ hc)
  simp [hc0, bne]

theorem findChar_eq {q : Char} (err : Stop) (hq : q ≠ '\x00') (h : b.drop s = R ++ '\x00' :: T)
    (hn : '\x00' ∉ R) :
    findChar err q b s =
      if R.dropWhile (· != q) = [] then .error err
      else .ok (s + (R.takeWhile (· != q)).length) := by
  obtain ⟨Y, hY⟩ := exists_cut (· != q) R T
  have hw : ∀ c ∈ R.takeWhile (· != q), (c == q) = false ∧
      (if c == '\x00' then some err else none) = none := by
    intro c hc
    have hc0 : c ≠ '\x00' := fun e => hn (e ▸ (List.takeWhile_prefix _).subset hc)
    have hcq := List.mem_takeWhile_imp hc
    exact ⟨by simpa using hcq, by simp [hc0]⟩
  have hk := Nat.lt_of_le_of_lt (length_takeWhile_le (· != q) R) (drop_length_lt h)
  rcases headOr_dropWhile (· != q) R with ⟨hd, he⟩ | ⟨he, hm⟩
  · rw [if_pos hd]
    exact scan_fail (h.trans hY) hw (by simpa [he] using hq.symm) (by simp [he]) hk
  · rw [if_neg]
    · exact scan_stop (h.trans hY) hw (by simpa using he) hk
    · intro hd
      rw [hd] at hm
      exact hn hm

theorem startsNumber_eq (h : b.drop s = R ++ '\x00' :: T) :
    startsNumber b s = .ok (numeric R) := by
  cases R with
  | nil =>
    simp only [startsNumber, peek_text h, headOr_nil, numeric, Read.ok_bind]
    rw [if_neg (by decide)]
    rfl
  | cons c R =>
    have hd := drop_succ (X := R ++ '\x00' :: T) h
    by_cases hc : c = '-'
    · subst hc
      cases R with
      | nil => simp [startsNumber, peek_text h, peek_text hd, numeric, isDigit, endsToken]
      | cons d R => simp [startsNumber, peek_text h, peek_text hd, numeric]
    · simp [startsNumber, peek_text h, hc, numeric]

/-! ## String literals -/

/-- The position `findQuote` and `stringParts` end at is the one `literal`
finds, both from inside a part and from the gap before one. -/
theorem literal_eq (pos : Nat) {kp : Nat} (h : b.drop s = R ++ '\x00' :: T) (hn : '\x00' ∉ R)
    (hk : R.length < k) (hkp : R.length < kp) :
    (∀ p, peek b (s - 1) = .ok p →
      (findQuote (.error pos "missing closing '\"'") b k s >>=
        fun e => stringParts pos b kp (e + 1)) =
        (fun x => s + x.1.length + 1) <$> literal pos (some p) R) ∧
    (scan (· == '"') (gapError pos) b k s >>= fun q =>
      findQuote (.error pos "missing closing '\"'") b (b.length + 1) (q + 1) >>=
        fun e => stringParts pos b kp (e + 1)) =
        (fun x => s + x.1.length + 1) <$> literal pos none R := by
  induction R generalizing s k kp with
  | nil =>
    obtain ⟨k, rfl⟩ := Nat.exists_eq_succ_of_ne_zero (Nat.ne_of_gt hk)
    refine ⟨fun p _ => ?_, ?_⟩
    · simp [findQuote, peek_text h, literal]
    · have hg : gapError pos '\x00' =
          some (.error pos "expected next part of string literal, found EOF") := if_pos rfl
      simp only [scan, peek_text h, headOr_nil, Read.ok_bind, hg, literal, Read.error_map]
      rfl
  | cons c R ih =>
    obtain ⟨k, rfl⟩ := Nat.exists_eq_succ_of_ne_zero (Nat.ne_of_gt (Nat.zero_lt_of_lt hk))
    obtain ⟨kp, rfl⟩ := Nat.exists_eq_succ_of_ne_zero (Nat.ne_of_gt (Nat.zero_lt_of_lt hkp))
    have hd : b.drop (s + 1) = R ++ '\x00' :: T := drop_succ h
    have hc := ne_nul_of_not_mem hn
    have hprev : peek b (s + 1 - 1) = .ok c := peek_text h
    have hk' : R.length < k := by simpa using hk
    have hkp' : R.length < kp := by simpa using hkp
    have hR := not_mem_tail hn
    -- the rest of the literal, with the characters counted from `s`
    have shift : ∀ x : Read (List Char × List Char),
        (fun x => s + 1 + x.1.length + 1) <$> x =
          (fun x => s + x.1.length + 1) <$> ((fun x => (c :: x.1, x.2)) <$> x) := by
      intro x
      cases x with
      | error e => rfl
      | ok x =>
        simp only [Read.ok_map, List.length_cons, Except.ok.injEq]
        omega
    refine ⟨fun p hp => ?_, ?_⟩
    · simp only [findQuote, peek_text h, headOr_cons, Read.ok_bind, literal, bne_iff_ne, ne_eq,
        ite_not, beq_iff_eq, hc, if_false]
      by_cases hq : c = '"'
      · subst hq
        simp only [if_true, hp, Read.ok_bind, beq_self_eq_true, Bool.true_and]
        by_cases hb : p = '\\'
        · simp only [hb, if_true, bne_self_eq_false, Bool.false_eq_true, if_false]
          rw [(ih hd hR hk' (Nat.lt_of_succ_lt hkp)).1 '"' hprev, shift]
        · simp only [hb, if_false, Read.pure_eq, Read.ok_bind, bne_iff_ne, ne_eq,
            not_false_eq_true, if_true, stringParts, peek_text hd]
          by_cases hg : R.head? = some '\\'
          · have hh : headOr R = '\\' := by rw [headOr, List.headD_eq_head?_getD, hg]; rfl
            simp only [hh, hg, if_true]
            rw [← shift, ← (ih hd hR (drop_length_lt hd) hkp').2]
            rfl
          · have hh : headOr R ≠ '\\' := by
              cases R with
              | nil => decide
              | cons x R => simpa using hg
            simp [hh, hg]
      · simp only [hq, if_false, beq_eq_false_iff_ne.mpr hq, Bool.false_and, Bool.false_eq_true]
        rw [(ih hd hR hk' (Nat.lt_of_succ_lt hkp)).1 c hprev, shift]
    · simp only [scan, peek_text h, headOr_cons, Read.ok_bind, literal, beq_iff_eq]
      by_cases hq : c = '"'
      · subst hq
        simp only [if_true, Read.pure_eq, Read.ok_bind]
        rw [(ih hd hR (drop_length_lt hd) (Nat.lt_of_succ_lt hkp)).1 '"' hprev, shift]
      · simp only [hq, if_false]
        by_cases hb : isBlank c || c == '\\'
        · have hg : gapError pos c = none := by
            simp only [isBlank, Bool.or_eq_true, beq_iff_eq] at hb
            rcases hb with ((rfl | rfl) | rfl) | rfl <;> rfl
          simp only [hg, hb, if_true]
          rw [(ih hd hR hk' (Nat.lt_of_succ_lt hkp)).2, shift]
        · have hg : gapError pos c = some (.error pos
              ("expected next part of string literal or " ++
                "whitespace, found something else")) := by
            simp only [isBlank, Bool.or_eq_true, beq_iff_eq, not_or] at hb
            simp [gapError, hc, hb]
          simp [hg, hb]

/-- The text of a literal, its last quote, and what follows. -/
theorem literal_split {pos : Nat} {R : List Char} : ∀ {m : Option Char} {raw rest : List Char},
    literal pos m R = .ok (raw, rest) → R = raw ++ '"' :: rest := by
  induction R with
  | nil =>
    intro m raw rest hl
    cases m <;> simp [literal] at hl
  | cons c R ih =>
    have step : ∀ {m : Option Char} {raw rest : List Char},
        (fun x => (c :: x.1, x.2)) <$> literal pos m R = .ok (raw, rest) →
        c :: R = raw ++ '"' :: rest := by
      intro m raw rest hl
      cases hm : literal pos m R with
      | error e => simp [hm] at hl
      | ok x =>
        obtain ⟨w, r⟩ := x
        simp only [hm, Read.ok_map, Except.ok.injEq, Prod.mk.injEq] at hl
        obtain ⟨rfl, rfl⟩ := hl
        rw [ih hm]
        rfl
    intro m raw rest hl
    cases m with
    | none =>
      simp only [literal] at hl
      split at hl
      · exact step hl
      · split at hl
        · exact step hl
        · cases hl
    | some p =>
      simp only [literal] at hl
      split at hl
      next hq =>
        split at hl
        · exact step hl
        · simp only [Except.ok.injEq, Prod.mk.injEq] at hl
          obtain ⟨rfl, rfl⟩ := hl
          simp only [Bool.and_eq_true, beq_iff_eq] at hq
          rw [hq.1]
          rfl
      next => exact step hl

/-! ## The bracket pre-scan -/

/-- A comment is skipped up to its newline; without one the pre-scan runs over
the end of the text. -/
theorem closer_comment (n : Nat) (R : List Char) :
    closer true n R = match R.dropWhile (· != '\n') with
      | [] => .overrun
      | _ :: X => (R.takeWhile (· != '\n')).foldr Closing.push ((closer false n X).push '\n') := by
  induction R with
  | nil => rfl
  | cons c R ih =>
    by_cases hc : c = '\n'
    · subst hc
      simp [closer]
    · have hb : (c != '\n') = true := by simpa using hc
      simp only [closer, hb, ih, List.dropWhile_cons_of_pos, List.takeWhile_cons_of_pos]
      cases R.dropWhile (· != '\n') <;> rfl

theorem foldr_push_found {w body rest : List Char} {x : Closing} (h : x = .found body rest) :
    w.foldr Closing.push x = .found (w ++ body) rest := by
  induction w with
  | nil => simpa using h
  | cons c w ih => simp [ih, Closing.push]

theorem foldr_push_overrun {w : List Char} {x : Closing} (h : x = .overrun) :
    w.foldr Closing.push x = .overrun := by
  induction w with
  | nil => simpa using h
  | cons c w ih => simp [ih, Closing.push]

/-- The position the pre-scan returns for an outcome of `closer` at `s`. -/
def Closing.result (pos s : Nat) : Closing → Read Nat
  | .found body _ => .ok (s + body.length)
  | .missing => .error (.error pos "missing closing parentheses")
  | .overrun => .error .overrun

theorem result_push (pos : Nat) (c : Char) (x : Closing) :
    (x.push c).result pos s = x.result pos (s + 1) := by
  cases x with
  | found body rest =>
    simp only [Closing.push, Closing.result, List.length_cons, Except.ok.injEq]
    omega
  | missing => rfl
  | overrun => rfl

theorem result_foldr_push (pos : Nat) (w : List Char) (x : Closing) :
    (w.foldr Closing.push x).result pos s = x.result pos (s + w.length) := by
  induction w generalizing s with
  | nil => rfl
  | cons c w ih =>
    rw [List.foldr_cons, result_push, ih, List.length_cons]
    congr 1
    omega

/-- The pre-scan finds the bracket `closer` finds. It must not end inside a
comment, unless the text is the whole rest of the buffer: the cursor would go
on behind the terminator. -/
theorem closingBracket_eq (pos : Nat) {n : Nat} (h : b.drop s = R ++ '\x00' :: T)
    (hn : '\x00' ∉ R) (hk : R.length + 1 < k) (hpos : 0 < n)
    (ho : closer false n R ≠ .overrun ∨ T = []) :
    closingBracket pos b k s n = (closer false n R).result pos s := by
  -- a comment takes more than one character, so the induction is on the length
  induction hl : R.length using Nat.strong_induction_on generalizing R s k n with
  | _ l ih =>
  obtain ⟨k, rfl⟩ := Nat.exists_eq_succ_of_ne_zero (Nat.ne_of_gt (Nat.zero_lt_of_lt hk))
  cases R with
  | nil => simp [closingBracket, peek_text h, closer, Closing.result]
  | cons c R =>
    have hd : b.drop (s + 1) = R ++ '\x00' :: T := drop_succ h
    have hc := ne_nul_of_not_mem hn
    have hR := not_mem_tail hn
    simp only [List.length_cons, Nat.succ_lt_succ_iff] at hk hl
    -- the turn of the loop for a character that only moves the cursor
    have next : ∀ {m : Nat}, 0 < m → closer false n (c :: R) = (closer false m R).push c →
        closingBracket pos b k (s + 1) m = (closer false n (c :: R)).result pos s := by
      intro m hm he
      rw [he, result_push]
      refine ih _ (by omega) hd hR hk hm ?_ rfl
      rw [he] at ho
      simpa using ho
    simp only [closingBracket, peek_text h, headOr_cons, Read.ok_bind, beq_iff_eq, hc, if_false]
    by_cases hq : c = '"'
    -- the search for the closing quote starts at the opening one
    · subst hq
      have hf : findChar (.error pos "missing closing '\"'") '"' b s = .ok s := by
        rw [findChar_eq _ (by decide) h hn]
        simp
      simp only [if_true, hf, Read.ok_bind]
      exact next hpos (by simp [closer, isOpener, isCloser])
    · simp only [hq, if_false]
      by_cases hh : c = '#'
      · subst hh
        simp only [if_true, skipComment_eq h hn, Read.ok_bind]
        rw [List.takeWhile_cons_of_pos (by decide), List.length_cons]
        have he : closer false n ('#' :: R) = (closer true n R).push '#' := by simp [closer]
        rw [he, result_push]
        simp only [he, closer_comment, ne_eq, Closing.push_overrun_iff] at ho ⊢
        have hcut := List.takeWhile_append_dropWhile (p := (· != '\n')) (l := R)
        cases hX : R.dropWhile (· != '\n') with
        | nil =>
          -- the comment is not closed: the cursor leaves the text
          have hT : T = [] := by simpa [hX] using ho
          rw [hX, List.append_nil] at hcut
          have hend : b.drop (s + ((R.takeWhile (· != '\n')).length + 1) + 1) = [] := by
            rw [hcut, show s + (R.length + 1) + 1 = s + 1 + R.length + 1 by omega]
            exact drop_succ (hT ▸ drop_add_length hd)
          cases k with
          | zero => simp at hk
          | succ k =>
            simp only [closingBracket]
            rw [peek_end hend]
            rfl
        | cons d X =>
          simp only [hX] at ho
          rw [hX] at hcut
          have hdX : b.drop (s + ((R.takeWhile (· != '\n')).length + 1) + 1) = X ++ '\x00' :: T := by
            have hd' : b.drop (s + 1) = R.takeWhile (· != '\n') ++ d :: (X ++ '\x00' :: T) := by
              rw [hd]
              conv => lhs; rw [← hcut]
              simp
            rw [show s + ((R.takeWhile (· != '\n')).length + 1) + 1 =
              s + 1 + (R.takeWhile (· != '\n')).length + 1 by omega]
            exact drop_succ (drop_add_length hd')
          have hlen := congrArg List.length hcut
          simp only [List.length_append, List.length_cons] at hlen
          have hXn : '\x00' ∉ X := fun hm => hR (hcut ▸ by simp [hm])
          rw [result_foldr_push, result_push]
          rw [ih X.length (by omega) hdX hXn (by omega) hpos ?_ rfl]
          · congr 1
            omega
          · rcases ho with ho | ho
            · refine .inl fun hov => ho (foldr_push_overrun ?_)
              simpa using hov
            · exact .inr ho
      · simp only [hh, if_false]
        by_cases hop : isOpener c
        · have hop' : c = '(' ∨ c = '{' := by simpa [isOpener] using hop
          rw [if_pos (by simpa using hop')]
          exact next (m := n + 1) (Nat.succ_pos _) (by simp [closer, hh, hop])
        · have hop' : ¬ (c = '(' ∨ c = '{') := by simpa [isOpener] using hop
          rw [if_neg (by simpa using hop')]
          by_cases hcl : isCloser c
          · have hcl' : c = ')' ∨ c = '}' := by simpa [isCloser] using hcl
            rw [if_pos (by simpa using hcl')]
            by_cases h1 : n = 1
            · subst h1
              simp [closer, hh, hop, hcl, Closing.result]
            · have hne : ¬ ((n : Int) - 1 = 0) := by omega
              rw [if_neg (by simpa using hne), show (n : Int) - 1 = ((n - 1 : Nat) : Int) by omega]
              exact next (by omega) (by simp [closer, hh, hop, hcl, h1])
          · have hcl' : ¬ (c = ')' ∨ c = '}') := by simpa [isCloser] using hcl
            rw [if_neg (by simpa using hcl')]
            exact next hpos (by simp [closer, hh, hop, hcl])

end

end Dolorem.Reader
