import Dolorem.Reader.Loops

/-!
# The loops that write

`prepare_string`, the loop over an identifier and `transform_identifier` change
the buffer under the cursor. Each result here says what stands in the buffer
afterwards, as the text before the token, the token's new characters and the
unchanged rest.
-/

namespace Dolorem.Reader

/-! ## `prepare_string` -/

/-- The characters from the write position to the cursor's character, after one
write: the first of them is overwritten. -/
theorem poke_gap (A G X : List Char) (c x : Char) :
    ∃ G', G'.length = G.length ∧
      poke (A ++ (G ++ c :: X)) A.length x = .ok ((A ++ [x]) ++ (G' ++ X)) := by
  cases G with
  | nil => exact ⟨[], rfl, by simp [poke_append]⟩
  | cons g G => exact ⟨G ++ [c], by simp, by simp [poke_append]⟩

/-- The gap between two parts is skipped up to the next quote. -/
theorem decode_gap (pos : Nat) (type : Char) (R : List Char) :
    decode pos type true R = match R.dropWhile (· != type) with
      | [] => .error (.internal "prepare_string found invalid multi-part string")
      | _ :: X => decode pos type false X := by
  induction R with
  | nil => rfl
  | cons d R ih =>
    by_cases hd : d = type
    · subst hd
      simp [decode]
    · have hb : (d != type) = true := by simpa using hd
      simp only [decode, hb, ih, List.dropWhile_cons_of_pos]

/-- `x` is the buffer `prepare_string` leaves behind `A` for the decoded text
`d`: the text, its terminator, the remains of the `m` characters the literal
took, and the rest `Y` of the buffer. -/
def Prepared (A : List Char) (m : Nat) (Y : List Char) (x : Read Buf) : Read (List Char) → Prop
  | .error e => x = .error e
  | .ok t => ∃ Z, Z.length + t.length = m ∧ x = .ok (A ++ t ++ '\x00' :: (Z ++ Y))

theorem Prepared.push {A Y : List Char} {m : Nat} {c : Char} {x : Read Buf}
    {d : Read (List Char)} (h : Prepared (A ++ [c]) m Y x d) :
    Prepared A (m + 1) Y x ((c :: ·) <$> d) := by
  cases d with
  | error e => exact h
  | ok t =>
    obtain ⟨Z, hZ, rfl⟩ := h
    refine ⟨Z, ?_, by simp⟩
    simp only [List.length_cons]
    omega

/-- `prepare_string` on the text `raw`, with `A` before the write position and
`G` between the two cursors. -/
theorem prepareString_eq (pos : Nat) {type : Char} (ht : type ≠ '\x00') (Y : List Char)
    {raw A G : List Char} {k : Nat} (hn : '\x00' ∉ raw) (hk : raw.length < k) :
    Prepared A (G.length + raw.length) Y
      (prepareString pos type k (A ++ (G ++ (raw ++ '\x00' :: Y))) (A.length + G.length) A.length)
      (decode pos type false raw) := by
  -- a gap between two parts is skipped in one turn of the loop
  induction hl : raw.length using Nat.strong_induction_on generalizing raw A G k with
  | _ l ih =>
  obtain ⟨k, rfl⟩ := Nat.exists_eq_succ_of_ne_zero (Nat.ne_of_gt (Nat.zero_lt_of_lt hk))
  have hdrop : ∀ W : List Char, (A ++ (G ++ W)).drop (A.length + G.length) = W := by
    intro W
    rw [← List.drop_drop, List.drop_left, List.drop_left]
  cases raw with
  | nil =>
    obtain ⟨G', hG', hp⟩ := poke_gap A G Y '\x00' '\x00'
    simp only [prepareString, List.nil_append, peek_of_drop (hdrop _), Read.ok_bind, hp]
    exact ⟨G', by simpa [← hl] using hG', by simp⟩
  | cons c raw =>
    have hc := ne_nul_of_not_mem hn
    have hraw := not_mem_tail hn
    simp only [List.length_cons, Nat.succ_lt_succ_iff] at hl hk
    have hd := hdrop (c :: (raw ++ '\x00' :: Y))
    have hd1 := drop_succ hd
    simp only [prepareString, List.cons_append, peek_of_drop hd, Read.ok_bind, beq_iff_eq,
      hc, if_false]
    by_cases hty : c = type
    -- a quote: the parts of the literal are joined
    · subst hty
      rw [decode_quote, decode_gap, if_pos rfl, skipPart_eq hd1 hraw, Read.ok_bind]
      have hcut := List.takeWhile_append_dropWhile (p := (· != c)) (l := raw)
      cases hX : raw.dropWhile (· != c) with
      | nil =>
        rw [hX, List.append_nil] at hcut
        have hend := drop_add_length hd1
        rw [hcut, peek_of_drop hend]
        simp [Prepared]
      | cons d X =>
        have hdc := List.head?_dropWhile_not (· != c) raw
        rw [hX] at hdc hcut
        obtain rfl : d = c := by simpa using hdc
        -- the gap joins the characters between the cursors
        have hsplit : ∀ W : List Char,
            d :: (raw ++ W) = (d :: (raw.takeWhile (· != d) ++ [d])) ++ (X ++ W) := by
          intro W
          conv => lhs; rw [← hcut]
          simp
        have hd1' : (A ++ (G ++ d :: (raw ++ '\x00' :: Y))).drop (A.length + G.length + 1) =
            raw.takeWhile (· != d) ++ d :: (X ++ '\x00' :: Y) := by
          rw [hd1]
          conv => lhs; rw [← hcut]
          simp
        have hlen := congrArg List.length hcut
        simp only [List.length_append, List.length_cons] at hlen
        have hgap : (G ++ d :: (raw.takeWhile (· != d) ++ [d])).length =
            G.length + 1 + (raw.takeWhile (· != d)).length + 1 := by
          simp only [List.length_append, List.length_cons, List.length_nil]
          omega
        rw [peek_of_drop (drop_add_length hd1'), Read.ok_bind, if_neg hc, hsplit,
          ← List.append_assoc G]
        have hrec := ih X.length (by omega)
          (A := A) (G := G ++ d :: (raw.takeWhile (· != d) ++ [d])) (k := k)
          (fun hm => hraw (hcut ▸ by simp [hm])) (by omega) rfl
        rw [hgap] at hrec
        rw [show G.length + l = G.length + 1 + (raw.takeWhile (· != d)).length + 1 + X.length by
          omega]
        simpa only [Nat.add_assoc] using hrec
    · simp only [hty, if_false]
      by_cases hbs : c = '\\'
      -- an escape: two characters are read, and one is written
      · subst hbs
        simp only [if_true]
        cases raw with
        | nil =>
          rw [decode_escape_nil pos hty, peek_of_drop hd1]
          rfl
        | cons d raw =>
          rw [decode_escape pos hty]
          simp only [List.cons_append] at hd1 ⊢
          simp only [peek_of_drop hd1, Read.ok_bind]
          cases hx : controlSequence pos d with
          | error e => rfl
          | ok x =>
            obtain ⟨G', hG', hp⟩ := poke_gap A G (d :: (raw ++ '\x00' :: Y)) '\\' x
            simp only [List.length_cons] at hl hk
            have hrec := ih raw.length (by omega) (A := A ++ [x]) (G := G' ++ [d])
              (not_mem_tail hraw) (k := k) (by omega) rfl
            rw [show (G' ++ [d]) ++ (raw ++ '\x00' :: Y) = G' ++ d :: (raw ++ '\x00' :: Y) by simp]
              at hrec
            have hm : (G' ++ [d]).length + raw.length + 1 = G.length + l := by
              simp only [List.length_append, List.length_cons, List.length_nil]
              omega
            have hpos : (A ++ [x]).length + (G' ++ [d]).length = A.length + G.length + 2 := by
              simp only [List.length_append, List.length_cons, List.length_nil]
              omega
            rw [hpos, show (A ++ [x]).length = A.length + 1 by simp] at hrec
            simp only [Read.ok_bind, hp, ← hm]
            exact hrec.push
      · rw [decode_plain pos hty hbs]
        simp only [hbs, if_false]
        obtain ⟨G', hG', hp⟩ := poke_gap A G (raw ++ '\x00' :: Y) c c
        have hrec := ih raw.length (by omega) (A := A ++ [c]) (G := G') hraw (k := k) (by omega) rfl
        have hpos : (A ++ [c]).length + G'.length = A.length + G.length + 1 := by
          simp only [List.length_append, List.length_cons, List.length_nil]
          omega
        rw [hpos, show (A ++ [c]).length = A.length + 1 by simp] at hrec
        simp only [Read.ok_bind, hp, show G.length + l = G'.length + raw.length + 1 by omega]
        exact hrec.push

/-- No control sequence stands for a NUL. -/
theorem controlSequence_ne_nul {pos : Nat} {c x : Char} (h : controlSequence pos c = .ok x) :
    x ≠ '\x00' := by
  simp only [controlSequence] at h
  repeat' split at h
  all_goals cases h
  all_goals decide

theorem decode_not_mem (pos : Nat) {type : Char} {R : List Char} :
    ∀ {gap : Bool} {t : List Char}, '\x00' ∉ R → decode pos type gap R = .ok t → '\x00' ∉ t := by
  -- a control sequence takes two characters
  induction hl : R.length using Nat.strong_induction_on generalizing R with
  | _ l ih =>
  have step : ∀ {S t : List Char} {c : Char} {gap : Bool}, S.length < l → '\x00' ∉ S →
      c ≠ '\x00' → (c :: ·) <$> decode pos type gap S = .ok t → '\x00' ∉ t := by
    intro S t c gap hS hn hc h
    cases hd : decode pos type gap S with
    | error e => simp [hd] at h
    | ok u =>
      simp only [hd, Read.ok_map, Except.ok.injEq] at h
      rw [← h, List.mem_cons, not_or]
      exact ⟨hc.symm, ih _ hS rfl hn hd⟩
  intro gap t hn h
  cases R with
  | nil => cases gap <;> simp_all [decode]
  | cons c R =>
    have hR := not_mem_tail hn
    simp only [List.length_cons] at hl
    cases gap with
    | true => exact ih R.length (by omega) rfl hR h
    | false =>
      by_cases hty : c = type
      · subst hty
        rw [decode_quote] at h
        exact ih R.length (by omega) rfl hR h
      · by_cases hbs : c = '\\'
        · subst hbs
          cases R with
          | nil => simp [decode_escape_nil pos hty] at h
          | cons d R =>
            rw [decode_escape pos hty] at h
            cases hx : controlSequence pos d with
            | error e => simp [hx] at h
            | ok x =>
              rw [hx] at h
              simp only [List.length_cons] at hl
              exact step (by omega) (not_mem_tail hR) (controlSequence_ne_nul hx) h
        · rw [decode_plain pos hty hbs] at h
          exact step (by omega) hR (ne_nul_of_not_mem hn) h

/-- Only the empty text is decoded to nothing. -/
theorem decode_eq_nil {pos : Nat} {type : Char} {R : List Char} (hR : type ∉ R)
    (h : decode pos type false R = .ok []) : R = [] := by
  cases R with
  | nil => rfl
  | cons c R =>
    exfalso
    have hty : c ≠ type := fun e => hR (e ▸ List.mem_cons_self)
    by_cases hbs : c = '\\'
    · subst hbs
      cases R with
      | nil => simp [decode_escape_nil pos hty] at h
      | cons d R =>
        rw [decode_escape pos hty] at h
        cases hx : controlSequence pos d with
        | error e => simp [hx] at h
        | ok x => cases hd : decode pos type false R <;> simp [hx, hd] at h
    · rw [decode_plain pos hty hbs] at h
      cases hd : decode pos type false R <;> simp [hd] at h

/-! ## Identifiers -/

/-- The loop over an identifier leaves the token with its dashes replaced. -/
theorem identEnd_eq {R T : List Char} (hn : '\x00' ∉ R) :
    ∀ {P : List Char} {k : Nat}, R.length < k →
      identEnd k (P ++ (R ++ '\x00' :: T)) P.length =
        .ok (P ++ ((word R).map dashToUnderscore ++ (afterWord R ++ '\x00' :: T)),
          P.length + (word R).length) := by
  induction R with
  | nil =>
    intro P k hk
    obtain ⟨k, rfl⟩ := Nat.exists_eq_succ_of_ne_zero (Nat.ne_of_gt hk)
    simp [identEnd, peek_append, endsToken, word, afterWord]
  | cons c R ih =>
    intro P k hk
    obtain ⟨k, rfl⟩ := Nat.exists_eq_succ_of_ne_zero (Nat.ne_of_gt (Nat.zero_lt_of_lt hk))
    simp only [identEnd, List.cons_append, peek_append, Read.ok_bind]
    cases he : endsToken c with
    | true => simp [word, afterWord, he]
    | false =>
      have hrec := ih (not_mem_tail hn) (P := P ++ [dashToUnderscore c]) (k := k)
        (by simpa using hk)
      rw [List.length_append, List.length_singleton] at hrec
      have hres : P ++ ((word (c :: R)).map dashToUnderscore ++ (afterWord (c :: R) ++ '\x00' :: T)) =
          (P ++ [dashToUnderscore c]) ++
            ((word R).map dashToUnderscore ++ (afterWord R ++ '\x00' :: T)) := by
        simp [word, afterWord, he]
      have hlen : P.length + (word (c :: R)).length = P.length + 1 + (word R).length := by
        simp only [word, he, Bool.not_false, List.takeWhile_cons_of_pos, List.length_cons]
        omega
      rw [hres, hlen, ← hrec, if_neg Bool.false_ne_true]
      by_cases hc : c = '-'
      · simp [hc, poke_append, dashToUnderscore]
      · simp [hc, dashToUnderscore]

theorem splitColon_eq : ∀ {w a c : List Char}, splitColon w = some (a, c) → w = a ++ ':' :: c
  | [], _, _, h => by cases h
  | x :: w, a, c, h => by
    simp only [splitColon] at h
    split at h
    next p q hs =>
      simp only [Option.some.injEq, Prod.mk.injEq] at h
      obtain ⟨rfl, rfl⟩ := h
      rw [splitColon_eq hs]
      rfl
    next =>
      split at h
      next hx =>
        simp only [Option.some.injEq, Prod.mk.injEq] at h
        obtain ⟨rfl, rfl⟩ := h
        rw [eq_of_beq hx]
        rfl
      next => cases h

section
variable {b w Y : List Char} {s k : Nat} {d : Char}

theorem strlastchr_eq (hd : endsToken d) :
    ∀ {w : List Char} {s k : Nat} (res : Option Nat), b.drop s = w ++ d :: Y →
      (∀ c ∈ w, endsToken c = false) → w.length < k →
      strlastchrWordBoundary b ':' k s res =
        .ok (((splitColon w).map fun x => s + x.1.length).or res)
  | _, _, 0, _, _, _, hk => absurd hk (Nat.not_lt_zero _)
  | [], s, k + 1, res, h, _, _ => by
    have hb : (d != '\x00' && !isWordBoundary d) = false := by
      simpa [endsToken, imp_iff_not_or] using hd
    simp only [strlastchrWordBoundary, peek_of_drop h, Read.ok_bind, hb, splitColon]
    simp
  | c :: w, s, k + 1, res, h, hw, hk => by
    have hc : (c != '\x00' && !isWordBoundary c) = true := by
      simpa [endsToken] using hw c List.mem_cons_self
    have hrec := strlastchr_eq hd (if c == ':' then some s else res) (drop_succ h)
      (fun x hx => hw x (List.mem_cons_of_mem _ hx)) (Nat.lt_of_succ_lt_succ hk)
    simp only [strlastchrWordBoundary, peek_of_drop h, Read.ok_bind, hc, if_true, hrec, splitColon]
    cases splitColon w with
    | some x =>
      simp only [Option.map_some, Option.some_or, List.length_cons, Except.ok.injEq,
        Option.some.injEq]
      omega
    | none =>
      by_cases hx : c = ':' <;> simp [hx]

/-! ## Numbers -/

theorem not_isDigit_of_endsToken (hd : endsToken d) : isDigit d = false := by
  simp only [endsToken, isWordBoundary, Bool.or_eq_true, beq_iff_eq] at hd
  rcases hd with rfl | ((((((rfl | rfl) | rfl) | rfl) | rfl) | rfl) | rfl) <;> rfl

theorem takeWhile_isDigit_append (hd : endsToken d) (w : List Char) :
    (w ++ d :: Y).takeWhile isDigit = w.takeWhile isDigit := by
  induction w with
  | nil => simp [not_isDigit_of_endsToken hd]
  | cons c w ih =>
    cases hc : isDigit c <;> simp [hc, ih]

theorem isSpace_of_isDigit {c : Char} (hc : isDigit c) : isSpace c = false := by
  simp only [isDigit, Bool.and_eq_true, decide_eq_true_eq, Char.le_def, UInt32.le_iff_toNat_le]
    at hc
  have hlo : 48 ≤ c.toNat := hc.1
  have hne : c ≠ ' ' := by
    rintro rfl
    exact absurd hlo (by decide)
  simp only [isSpace, Bool.or_eq_false_iff, beq_eq_false_iff_ne, ne_eq, hne, not_false_eq_true,
    true_and, Bool.and_eq_false_iff, decide_eq_false_iff_not]
  omega

theorem strtol_dash (w : List Char) :
    strtol ('-' :: w) = max (-2 ^ 63) (min (2 ^ 63 - 1) (-digitsVal (w.takeWhile isDigit))) := by
  have hdash : isSpace '-' = false := by decide
  simp [strtol, hdash]

theorem strtol_digit {c : Char} (hc : isDigit c) (w : List Char) :
    strtol (c :: w) =
      max (-2 ^ 63) (min (2 ^ 63 - 1) (digitsVal ((c :: w).takeWhile isDigit))) := by
  have hdash : c ≠ '-' := by
    rintro rfl
    exact absurd hc (by decide)
  have hplus : c ≠ '+' := by
    rintro rfl
    exact absurd hc (by decide)
  simp [strtol, isSpace_of_isDigit hc, hdash, hplus]

/-- `strtol` on a token does not look behind it. -/
theorem strtol_append (hd : endsToken d) (hw : numeric w) :
    strtol (w ++ d :: Y) = strtol w := by
  have htake := takeWhile_isDigit_append (Y := Y) hd
  cases w with
  | nil => simp [numeric] at hw
  | cons c w =>
    by_cases hc : c = '-'
    · subst hc
      rw [List.cons_append, strtol_dash, strtol_dash, htake]
    · have hdig : isDigit c := by
        cases w <;> simpa [numeric, hc] using hw
      rw [List.cons_append, strtol_digit hdig, strtol_digit hdig, ← List.cons_append, htake]

/-! ## `transform_identifier` -/

theorem startsNumber_token (h : b.drop s = w ++ d :: Y) (hd : endsToken d) (hne : w ≠ []) :
    startsNumber b s = .ok (numeric w) := by
  cases w with
  | nil => exact absurd rfl hne
  | cons c w =>
    have h1 := drop_succ (X := w ++ d :: Y) h
    by_cases hc : c = '-'
    · subst hc
      cases w with
      | nil => simp [startsNumber, peek_of_drop h, peek_of_drop h1, hd, numeric, isDigit]
      | cons x w => simp [startsNumber, peek_of_drop h, peek_of_drop h1, numeric]
    · simp [startsNumber, peek_of_drop h, hc, numeric]

theorem tokenEnd_token (h : b.drop s = w ++ d :: Y) (hd : endsToken d)
    (hw : ∀ c ∈ w, endsToken c = false) : tokenEnd b s = .ok (s + w.length) := by
  refine scan_stop h (fun c hc => ⟨hw c hc, rfl⟩) hd ?_
  have hlen := length_of_drop h
  simp only [List.length_append, List.length_cons] at hlen
  omega

/-- The C string of a token that is followed by a NUL. -/
theorem cstr_token {X : List Char} (hw : ∀ c ∈ w, endsToken c = false)
    (hX : X.head? = some '\x00') (h : b.drop s = w ++ X) : cstr b (.mem s) = w := by
  have hX0 : X.takeWhile (· != '\x00') = [] := by
    cases X with
    | nil => rfl
    | cons x X =>
      obtain rfl : x = '\x00' := by simpa using hX
      rfl
  have hne : ∀ c ∈ w, (c != '\x00') = true := by
    intro c hc
    rw [bne_iff_ne]
    rintro rfl
    simpa [endsToken] using hw _ hc
  rw [cstr, h, List.takeWhile_append_of_pos hne, hX0, List.append_nil]

theorem membVal_eq (loc : Loc) (h : b.drop s = w ++ d :: Y) (hd : endsToken d) (hne : w ≠ [])
    (hw : ∀ c ∈ w, endsToken c = false) :
    membVal b loc s = .ok (if numeric w then
      if w.contains '.' then .float loc w else .int loc (strtol w) else .ident loc (.mem s)) := by
  simp only [membVal, startsNumber_token h hd hne, Read.ok_bind]
  cases hnum : numeric w with
  | false => rfl
  | true =>
    have htok : (b.drop s).take (s + w.length - s) = w := by
      rw [h, Nat.add_sub_cancel_left, List.take_left]
    have hstr : strtol (b.drop s) = strtol w := by rw [h, strtol_append hd hnum]
    simp only [if_true, tokenEnd_token h hd hw, Read.ok_bind, htok, hstr]
    split <;> rfl

end

/-- `transform_identifier` on the token `w`: the tree of `w`, over a buffer in
which some colons of the token became terminators. The strings of the tree are
right in every buffer `B` where the token itself is terminated too. -/
theorem transformIdentifier_eq (loc : Loc) (Q : List Char) :
    ∀ {k n : Nat} {w Y : List Char} {d : Char}, endsToken d →
      (∀ c ∈ w, endsToken c = false) → w.length < k → w.length ≤ n →
      ∃ w' v, w'.length = w.length ∧
        transformIdentifier k (Q ++ (w ++ d :: Y)) loc Q.length =
          .ok (Q ++ (w' ++ d :: Y), v) ∧
        ∀ B X : List Char, X.head? = some '\x00' → B.drop Q.length = w' ++ X →
          v.map (cstr B) = identVal loc n w := by
  intro k
  induction k with
  | zero => intro n w Y d _ _ hk _; exact absurd hk (Nat.not_lt_zero _)
  | succ k ih =>
    intro n w Y d hd hw hk hn
    have hdrop : (Q ++ (w ++ d :: Y)).drop Q.length = w ++ d :: Y := List.drop_left
    have hfuel : w.length < (Q ++ (w ++ d :: Y)).length + 1 := by
      simp only [List.length_append, List.length_cons]
      omega
    have hlast := strlastchr_eq hd none hdrop hw hfuel
    -- the identifier stays as it is
    have plain : identVal loc n w = .ident loc w →
        transformIdentifier (k + 1) (Q ++ (w ++ d :: Y)) loc Q.length =
          .ok (Q ++ (w ++ d :: Y), .ident loc (.mem Q.length)) →
        ∃ w' v, w'.length = w.length ∧
          transformIdentifier (k + 1) (Q ++ (w ++ d :: Y)) loc Q.length =
            .ok (Q ++ (w' ++ d :: Y), v) ∧
          ∀ B X : List Char, X.head? = some '\x00' → B.drop Q.length = w' ++ X →
            v.map (cstr B) = identVal loc n w := by
      intro hv ht
      refine ⟨w, _, rfl, ht, fun B X hX hB => ?_⟩
      rw [hv, Val.map, cstr_token hw hX hB]
    cases hs : splitColon w with
    | none =>
      refine plain ?_ ?_
      · cases n <;> simp [identVal, hs]
      · rw [transformIdentifier, hlast, hs]
        rfl
    | some x =>
      obtain ⟨a, c⟩ := x
      have hsplit := splitColon_eq hs
      have hcolon : (Q ++ (w ++ d :: Y)).drop (Q.length + a.length + 1) = c ++ d :: Y := by
        refine drop_succ (c := ':') (drop_add_length ?_)
        simp [hsplit]
      have ha : ∀ x ∈ a, endsToken x = false := fun x hx => hw x (by simp [hsplit, hx])
      have hc : ∀ x ∈ c, endsToken x = false := fun x hx => hw x (by simp [hsplit, hx])
      have hlen : w.length = a.length + 1 + c.length := by
        rw [hsplit]
        simp only [List.length_append, List.length_cons]
        omega
      obtain ⟨n, rfl⟩ := Nat.exists_eq_succ_of_ne_zero (n := n) (by omega)
      simp only [hs, Option.map_some, Option.some_or] at hlast
      by_cases hac : a = [] ∨ c = []
      · refine plain (by simp [identVal, hs, hac]) ?_
        -- the character behind the colon ends the token, or the colon is the first
        obtain ⟨y, Z, hyZ⟩ : ∃ y Z, c ++ d :: Y = y :: Z := by cases c <;> simp
        have hstop : (Q.length + a.length == Q.length || y == '\x00' || isWordBoundary y) = true := by
          rcases hac with rfl | rfl
          · simp
          · obtain ⟨rfl, rfl⟩ : d = y ∧ Y = Z := by simpa using hyZ
            rw [Bool.or_assoc, Bool.or_eq_true]
            exact .inr hd
        rw [transformIdentifier, hlast, Read.ok_bind]
        simp only [peek_of_drop (hcolon.trans hyZ), Read.ok_bind, hstop, if_true]
        rfl
      · obtain ⟨hane, hcne⟩ := not_or.mp hac
        obtain ⟨y, c', rfl⟩ := List.exists_cons_of_ne_nil hcne
        have hy : (y == '\x00' || isWordBoundary y) = false := hc y List.mem_cons_self
        have hpoke : poke (Q ++ (w ++ d :: Y)) (Q.length + a.length) '\x00' =
            .ok (Q ++ (a ++ '\x00' :: ((y :: c') ++ d :: Y))) := by
          have hp := poke_append (Q ++ a) ':' '\x00' ((y :: c') ++ d :: Y)
          rw [List.length_append] at hp
          simpa [hsplit] using hp
        have hmdrop : (Q ++ (a ++ '\x00' :: ((y :: c') ++ d :: Y))).drop
            (Q.length + a.length + 1) = (y :: c') ++ d :: Y :=
          drop_succ (drop_add_length (X := '\x00' :: ((y :: c') ++ d :: Y)) List.drop_left)
        -- what is left of the colon is an identifier of its own, ended by the zero
        obtain ⟨a', v, hal, ht, hv⟩ := ih (n := n) (Y := (y :: c') ++ d :: Y) (d := '\x00') rfl ha
          (by omega) (by omega)
        refine ⟨a' ++ '\x00' :: (y :: c'), .cons loc (.ident loc (.lit "memb".toList))
          (.cons ⟨loc.fileIdx.getD 0, none⟩ v (.cons ⟨loc.fileIdx.getD 0, none⟩
            (if numeric (y :: c') then
              if (y :: c').contains '.' then .float loc (y :: c')
              else .int loc (strtol (y :: c'))
            else .ident loc (.mem (Q.length + a.length + 1))) (.nil ⟨0, some 0⟩))), ?_, ?_, ?_⟩
        · rw [List.length_append, hal, hlen, List.length_cons]
          omega
        · rw [transformIdentifier, hlast, Read.ok_bind]
          simp only [peek_of_drop (X := c' ++ d :: Y) hcolon, Read.ok_bind, hpoke,
            membVal_eq loc hmdrop hd hcne hc, ht, Bool.or_assoc, hy]
          simp [hane]
        · intro B X hX hB
          rw [List.append_assoc] at hB
          have hvX := hv B ('\x00' :: ((y :: c') ++ X)) rfl hB
          have hmem : cstr B (.mem (Q.length + a.length + 1)) = y :: c' := by
            rw [← hal]
            exact cstr_token hc hX (drop_succ (drop_add_length hB))
          simp only [Val.map, hvX, identVal, hs, hane, hcne, or_self, if_false, segmentVal]
          congr 3
          split
          · split <;> rfl
          · simp only [Val.map, hmem]

end Dolorem.Reader
