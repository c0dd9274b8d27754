import Dolorem.Reader.Accept

/-!
# Reading a text between brackets

Two scanners see a nested text: the pre-scan that looks for its closing
bracket, and the reader that is then called for the piece in between. The
pre-scan does not know literals, so the two disagree on a text such as `")"`.

`PairsUp` says when they agree; `brackets_read_iff` shows that a text between
brackets is read to the tree of the text exactly then. A disagreement does not
always show: when the pre-scan stops too early, but only blanks, closing
brackets and comments are left behind the bracket it found, the result is the
same.
-/

namespace Dolorem.Reader

/-! ## What the scanners see of a longer text -/

/-- The pre-scan does not look behind the bracket it stops at. -/
theorem closer_local {d e : Char} {X Y : List Char} (he : isCloser e) :
    ∀ {b : List Char} {cm : Bool} {n : Nat}, closer cm n (b ++ d :: X) = .found b X →
      closer cm n (b ++ e :: Y) = .found b Y := by
  have hclose : (e == '#') = false ∧ isOpener e = false := by
    simp only [isCloser, Bool.or_eq_true, beq_iff_eq] at he
    rcases he with rfl | rfl <;> exact ⟨rfl, rfl⟩
  intro b
  induction b with
  | nil =>
    intro cm n h
    have hpush : ∀ x : Closing, x.push d ≠ .found [] X := by
      intro x hx
      obtain ⟨_, hnil, _⟩ := Closing.push_found_iff.mp hx
      cases hnil
    cases cm with
    | true => exact absurd h (hpush _)
    | false =>
      simp only [List.nil_append, closer] at h ⊢
      split at h
      · exact absurd h (hpush _)
      · split at h
        · exact absurd h (hpush _)
        · split at h
          · split at h
            next hn => simp [hclose, he, hn]
            next => exact absurd h (hpush _)
          · exact absurd h (hpush _)
  | cons c b ih =>
    have step : ∀ {cm : Bool} {n : Nat}, (closer cm n (b ++ d :: X)).push c = .found (c :: b) X →
        (closer cm n (b ++ e :: Y)).push c = .found (c :: b) Y := by
      intro cm n h
      obtain ⟨b', hcons, hb⟩ := Closing.push_found_iff.mp h
      obtain ⟨_, rfl⟩ := List.cons.inj hcons
      rw [ih hb]
      rfl
    intro cm n h
    cases cm with
    | true => exact step h
    | false =>
      simp only [List.cons_append, closer] at h ⊢
      split at h
      next hc => rw [if_pos hc]; exact step h
      next hc =>
        rw [if_neg hc]
        split at h
        next ho => rw [if_pos ho]; exact step h
        next ho =>
          rw [if_neg ho]
          split at h
          next hcl =>
            rw [if_pos hcl]
            split at h
            next => cases h
            next hn => rw [if_neg hn]; exact step h
          next hcl => rw [if_neg hcl]; exact step h

theorem closer_append {R body rest Y : List Char} {cm : Bool} {n : Nat}
    (h : closer cm n R = .found body rest) : closer cm n (R ++ Y) = .found body (rest ++ Y) := by
  obtain ⟨d, hd, rfl⟩ := closer_split h
  rw [List.append_assoc]
  exact closer_local hd h

theorem literal_append {pos : Nat} {c : Char} {r : List Char} (hc : c ≠ '\\') {R : List Char} :
    ∀ {m : Option Char} {raw rest : List Char}, literal pos m R = .ok (raw, rest) →
      literal pos m (R ++ c :: r) = .ok (raw, rest ++ c :: r) := by
  induction R with
  | nil => intro m raw rest h; cases m <;> cases h
  | cons x R ih =>
    have step : ∀ {m : Option Char} {raw rest : List Char},
        (fun y => (x :: y.1, y.2)) <$> literal pos m R = .ok (raw, rest) →
        (fun y => (x :: y.1, y.2)) <$> literal pos m (R ++ c :: r) = .ok (raw, rest ++ c :: r) := by
      intro m raw rest h
      cases hl : literal pos m R with
      | error e => simp [hl] at h
      | ok y =>
        simp only [hl, Read.ok_map, Except.ok.injEq, Prod.mk.injEq] at h
        rw [ih hl, ← h.1, ← h.2]
        rfl
    intro m raw rest h
    cases m with
    | none =>
      simp only [literal, List.cons_append] at h ⊢
      split at h
      next hq => rw [if_pos hq]; exact step h
      next hq =>
        rw [if_neg hq]
        split at h
        next hb => rw [if_pos hb]; exact step h
        next => cases h
    | some p =>
      simp only [literal, List.cons_append] at h ⊢
      split at h
      next hq =>
        rw [if_pos hq]
        have hhead : ((R ++ c :: r).head? == some '\\') = (R.head? == some '\\') := by
          cases R with
          | nil => simpa using hc
          | cons y R => rfl
        rw [hhead]
        split at h
        next hb => rw [if_pos hb]; exact step h
        next hb =>
          rw [if_neg hb]
          simp only [Except.ok.injEq, Prod.mk.injEq] at h
          rw [← h.1, ← h.2]
      next hq => rw [if_neg hq]; exact step h

theorem dropWhile_append_of_ne_nil {α : Type} {p : α → Bool} {R Y : List α}
    (h : R.dropWhile p ≠ []) :
    (R ++ Y).dropWhile p = R.dropWhile p ++ Y ∧ (R ++ Y).takeWhile p = R.takeWhile p := by
  induction R with
  | nil => exact absurd rfl h
  | cons c R ih =>
    cases hc : p c with
    | true =>
      rw [List.dropWhile_cons_of_pos hc] at h
      simp [hc, ih h]
    | false => simp [hc]

/-- An empty character literal at the end of a text is read as NUL; everywhere
else it is an error. -/
theorem charLiteral_append {pos : Nat} {c : Char} {r R rest : List Char} {i : Int}
    (h : charLiteral pos R = .ok (i, rest)) :
    charLiteral pos (R ++ c :: r) = .ok (i, rest ++ c :: r) ∨
      ∃ e, charLiteral pos (R ++ c :: r) = .error e := by
  unfold charLiteral at h ⊢
  cases hX : R.dropWhile (· != '\'') with
  | nil => simp [hX] at h
  | cons q X =>
    obtain ⟨hd, ht⟩ := dropWhile_append_of_ne_nil (Y := c :: r) (hX ▸ List.cons_ne_nil q X)
    rw [hX] at hd
    simp only [hX] at h
    simp only [hd, ht, List.cons_append]
    cases hdec : decode pos '\'' false (R.takeWhile (· != '\'')) with
    | error e => simp [hdec] at h
    | ok t =>
      simp only [hdec, Read.ok_bind] at h ⊢
      match t with
      | [] => exact .inr ⟨.error pos "character literal too long", by simp⟩
      | [x] =>
        simp only [Except.ok.injEq, Prod.mk.injEq] at h
        exact .inl (by rw [← h.1, ← h.2])
      | _ :: _ :: _ => cases h

theorem word_append_closer {c : Char} {r R : List Char} (hc : endsToken c) :
    word (R ++ c :: r) = word R ∧ afterWord (R ++ c :: r) = afterWord R ++ c :: r := by
  induction R with
  | nil => simp [word, afterWord, hc]
  | cons x R ih =>
    simp only [word, afterWord] at ih
    cases hx : endsToken x <;> simp [word, afterWord, hx, ih]

theorem numeric_append_closer {c x : Char} {r R : List Char} (hc : endsToken c) :
    numeric (x :: R ++ c :: r) = numeric (x :: R) := by
  cases R with
  | nil =>
    by_cases hx : x = '-'
    · subst hx
      simp [numeric, hc, isDigit]
    · simp [numeric, hx]
  | cons y R =>
    by_cases hx : x = '-'
    · subst hx
      rfl
    · simp [numeric, hx]

theorem endsToken_closer {c : Char} (hc : isCloser c) : endsToken c ∧ c ≠ '\\' := by
  simp only [isCloser, Bool.or_eq_true, beq_iff_eq] at hc
  rcases hc with rfl | rfl <;> exact ⟨rfl, by decide⟩

/-- A turn on a text before a closing bracket is the same turn without what is
behind the bracket, unless the text is longer than it may be. -/
theorem nextToken_append {pos : Nat} {x c : Char} {R rest r : List Char} {t : Token}
    (hc : isCloser c) (hR : HashClosed (x :: R)) (h : nextToken pos (x :: R) = .ok (t, rest)) :
    nextToken pos (x :: R ++ c :: r) = .ok (t, rest ++ c :: r) ∨
      ∃ e, nextToken pos (x :: R ++ c :: r) = .error e := by
  obtain ⟨hend, hbs⟩ := endsToken_closer hc
  cases lead x with
  | blank hx =>
    rw [nextToken_blank hx] at h
    simp only [Except.ok.injEq, Prod.mk.injEq] at h
    exact .inl (by rw [List.cons_append, nextToken_blank hx, ← h.1, ← h.2])
  | opener hx =>
    obtain ⟨body, hcl, rfl⟩ := nextToken_opener_ok hx h
    exact .inl (by rw [List.cons_append, nextToken_opener hx, closer_append hcl])
  | quote hx =>
    subst hx
    obtain ⟨raw, s, hl, hd, rfl⟩ := nextToken_quote_ok h
    refine .inl ?_
    rw [List.cons_append, nextToken_quote, literal_append hbs hl]
    simp [hd]
  | tick hx =>
    subst hx
    obtain ⟨i, hi, rfl⟩ := nextToken_tick_ok h
    rw [List.cons_append, nextToken_tick]
    rcases charLiteral_append (c := c) (r := r) hi with hl | ⟨e, hl⟩
    · exact .inl (by simp [hl])
    · exact .inr ⟨e, by simp [hl]⟩
  | hash hx =>
    subst hx
    have hnl := (hashClosed_cons.mp hR).1 rfl
    have hne : R.dropWhile (· != '\n') ≠ [] := by
      intro he
      rw [List.dropWhile_eq_nil_iff] at he
      simpa using he '\n' hnl
    simp only [nextToken_hash, Except.ok.injEq, Prod.mk.injEq] at h
    refine .inl ?_
    rw [List.cons_append, nextToken_hash, (dropWhile_append_of_ne_nil hne).1, ← h.1, ← h.2]
  | semi hx =>
    subst hx
    simp only [nextToken_semi, Except.ok.injEq, Prod.mk.injEq] at h
    exact .inl (by rw [List.cons_append, nextToken_semi, ← h.1, ← h.2])
  | plain hx =>
    simp only [nextToken_plain hx, Except.ok.injEq, Prod.mk.injEq] at h
    obtain ⟨hw, ha⟩ := word_append_closer (R := x :: R) (r := r) hend
    refine .inl ?_
    rw [List.cons_append, nextToken_plain hx, ← List.cons_append, hw, ha,
      numeric_append_closer hend, ← h.1, ← h.2]

/-! ## Reading a longer text -/

/-- A text that ends before a closing bracket is read as the first part of the
longer text, if that is read at all. -/
theorem readOn_append {c : Char} {r : List Char} (hc : isCloser c) {b : List Char}
    (hn : '\x00' ∉ b ++ c :: r) (hb : HashClosed b) {it it' : Items} (h : readOn b it = .ok it') :
    readOn (b ++ c :: r) it = readOn (c :: r) it' ∨ ∃ e, readOn (b ++ c :: r) it = .error e := by
  induction hl : b.length using Nat.strong_induction_on generalizing b it with
  | _ l ih =>
  cases b with
  | nil =>
    cases h
    exact .inl rfl
  | cons x b =>
    have hnb : '\x00' ∉ x :: b := fun hm => hn (List.mem_append_left _ hm)
    simp only [List.length_cons] at hl
    cases hnt : nextToken 0 (x :: b) with
    | error e =>
      rw [readOn_cons hnb, hnt] at h
      cases h
    | ok y =>
      obtain ⟨t, rest⟩ := y
      have hsuf := nextToken_suffix (ne_nul_of_not_mem hnb) hnt
      have hlen := hsuf.length_le
      rw [readOn_step hnb hnt] at h
      rcases nextToken_append (r := r) hc hb hnt with hok | ⟨e, herr⟩
      · cases ha : it.addToken tree t with
        | error e =>
          rw [ha] at h
          cases h
        | ok it₁ =>
          rw [ha] at h
          have hread : readOn (x :: b ++ c :: r) it = readOn (rest ++ c :: r) it₁ :=
            (readOn_step (R := b ++ c :: r) hn hok).mpr (by rw [ha]; rfl)
          rw [hread]
          refine ih rest.length (by omega) (fun hm => hn ?_) ((hashClosed_cons.mp hb).2.suffix hsuf)
            h rfl
          rcases List.mem_append.mp hm with hm | hm
          · exact List.mem_append_left _ (List.mem_cons_of_mem _ (hsuf.subset hm))
          · exact List.mem_append_right _ hm
      · refine .inr ⟨e, ?_⟩
        rw [List.cons_append] at hn herr ⊢
        rw [readOn_cons hn, herr]
        rfl

/-- Texts in which nothing is read: blanks, closing brackets and comments. -/
inductive OnlySkips : List Char → Prop
  | nil : OnlySkips []
  | blank {c : Char} {R : List Char} : isBlank c || isCloser c → OnlySkips R → OnlySkips (c :: R)
  | comment {R : List Char} : OnlySkips (R.dropWhile (· != '\n')) → OnlySkips ('#' :: R)

theorem OnlySkips.readOn {R : List Char} (h : OnlySkips R) (hn : '\x00' ∉ R) (it : Items) :
    readOn R it = .ok it := by
  induction h with
  | nil => rfl
  | blank hc _ ih =>
    rw [readOn_step hn (nextToken_blank hc)]
    exact ih (not_mem_tail hn)
  | comment _ ih =>
    rw [readOn_step hn nextToken_hash]
    exact ih fun hm => hn (List.mem_cons_of_mem _ ((List.dropWhile_suffix _).subset hm))

/-- The first item is `x`, and no `;` group starts with it. -/
structure Items.Starts (x : Sexp) (it : Items) : Prop where
  head : it.items.head? = some x
  groupb : ∀ g, it.groupb = some g → 1 ≤ g ∧ g < it.items.length

theorem Items.Starts.length_pos {x : Sexp} {it : Items} (h : it.Starts x) :
    1 ≤ it.items.length := by
  have hx := h.head
  cases hi : it.items with
  | nil => simp [hi] at hx
  | cons a l => simp

theorem Items.Starts.insertPart {x : Sexp} {it : Items} (h : it.Starts x) (r : Sexp) :
    (it.insertPart r).Starts x where
  head := by rw [Items.insertPart, List.head?_append, h.head]; rfl
  groupb := by
    intro g hg
    have hpos := h.length_pos
    simp only [Items.insertPart, List.length_append, List.length_singleton] at hg ⊢
    split at hg
    · rw [← Option.some.inj hg]
      omega
    · have := h.groupb g hg
      omega

theorem Items.Starts.insertScope {x : Sexp} {it : Items} (h : it.Starts x) (r : Sexp) :
    (it.insertScope r).Starts x where
  head := by rw [Items.insertScope, List.head?_append, h.head]; rfl
  groupb := by
    intro g hg
    have := h.groupb g hg
    simp only [Items.insertScope, List.length_append, List.length_singleton]
    omega

/-- A second item never goes away again, and only skipped text adds none. -/
theorem Items.Starts.addToken {x : Sexp} {nested : List Char → Read Sexp} {it it' : Items}
    {t : Token} (hs : it.Starts x) (h : it.addToken nested t = .ok it') :
    it'.Starts x ∧ min 2 it.items.length ≤ it'.items.length ∧
      (t = .skip ∨ 2 ≤ it'.items.length) := by
  have hpos := hs.length_pos
  have part : ∀ r, it.insertPart r = it' → it'.Starts x ∧
      min 2 it.items.length ≤ it'.items.length ∧ (t = .skip ∨ 2 ≤ it'.items.length) := by
    rintro r rfl
    refine ⟨hs.insertPart r, ?_, .inr ?_⟩ <;>
      simp only [Items.insertPart, List.length_append, List.length_singleton] <;> omega
  cases t with
  | skip =>
    cases h
    exact ⟨hs, Nat.min_le_right _ _, .inl rfl⟩
  | semi =>
    cases hg : it.groupb with
    | none => simp [Items.addToken, Items.semi, hg] at h
    | some g =>
      obtain ⟨hg1, hlt⟩ := hs.groupb g hg
      simp only [Items.addToken, Items.semi, hg, Option.map_some, Except.ok.injEq] at h
      subst h
      have hlen : (it.items.take g ++ [Sexp.ofList (it.items.drop g)]).length = g + 1 := by
        rw [List.length_append, List.length_take, List.length_singleton]
        omega
      refine ⟨⟨?_, by rintro _ ⟨⟩⟩, by rw [hlen]; omega, .inr (by rw [hlen]; omega)⟩
      rw [List.head?_append, List.head?_take, if_neg (by omega), hs.head]
      rfl
  | group curly body =>
    cases hr : nested body with
    | error e => simp [Items.addToken, hr] at h
    | ok r =>
      cases curly with
      | false => exact part r (by simpa [Items.addToken, hr] using h)
      | true =>
        have hi : it.insertScope r = it' := by simpa [Items.addToken, hr] using h
        subst hi
        refine ⟨hs.insertScope r, ?_, .inr ?_⟩ <;>
          simp only [Items.insertScope, List.length_append, List.length_singleton] <;> omega
  | _ => exact part _ (Except.ok.inj h)

theorem onlySkips_cons {c : Char} {R rest : List Char}
    (h : nextToken 0 (c :: R) = .ok (.skip, rest)) (hr : OnlySkips rest) : OnlySkips (c :: R) := by
  cases lead c with
  | blank hc =>
    rw [nextToken_blank hc] at h
    cases h
    exact .blank hc hr
  | opener hc =>
    obtain ⟨_, _, ht⟩ := nextToken_opener_ok hc h
    cases ht
  | quote hc =>
    subst hc
    obtain ⟨_, _, _, _, ht⟩ := nextToken_quote_ok h
    cases ht
  | tick hc =>
    subst hc
    obtain ⟨_, _, ht⟩ := nextToken_tick_ok h
    cases ht
  | hash hc =>
    subst hc
    rw [nextToken_hash] at h
    cases h
    exact .comment hr
  | semi hc =>
    subst hc
    cases h
  | plain hc =>
    rw [nextToken_plain hc] at h
    unfold numberToken at h
    split at h
    · split at h <;> cases h
    · cases h

/-- If nothing is read behind the first item, the text has nothing to read. -/
theorem readOn_starts {x : Sexp} {R : List Char} (hn : '\x00' ∉ R) {it it' : Items}
    (hs : it.Starts x) (h : readOn R it = .ok it') :
    it'.Starts x ∧ min 2 it.items.length ≤ it'.items.length ∧
      (it'.items.length = 1 → OnlySkips R) := by
  induction hl : R.length using Nat.strong_induction_on generalizing R it with
  | _ l ih =>
  cases R with
  | nil =>
    cases h
    exact ⟨hs, Nat.min_le_right _ _, fun _ => .nil⟩
  | cons c R =>
    simp only [List.length_cons] at hl
    cases hnt : nextToken 0 (c :: R) with
    | error e =>
      rw [readOn_cons hn, hnt] at h
      cases h
    | ok y =>
      obtain ⟨t, rest⟩ := y
      have hsuf := nextToken_suffix (ne_nul_of_not_mem hn) hnt
      have hlen := hsuf.length_le
      rw [readOn_step hn hnt] at h
      cases ha : it.addToken tree t with
      | error e =>
        rw [ha] at h
        cases h
      | ok it₁ =>
        rw [ha] at h
        obtain ⟨hs₁, hmin₁, hskip⟩ := hs.addToken ha
        obtain ⟨hs', hmin, honly⟩ := ih rest.length (by omega)
          (fun hm => not_mem_tail hn (hsuf.subset hm)) hs₁ h rfl
        refine ⟨hs', by omega, fun hone => ?_⟩
        rcases hskip with rfl | htwo
        · exact onlySkips_cons hnt (honly hone)
        · omega

/-! ## Between brackets -/

/-- The pre-scan pairs the brackets around `body` with each other. Failing
that, it stops at an earlier bracket, but has an acceptable text before it and
nothing to read behind it. -/
def PairsUp (body : List Char) : Prop :=
  closer false 1 (body ++ [')']) = .found body [] ∨
    ∃ b r, closer false 1 body = .found b r ∧ Accepts false b ∧ OnlySkips r

theorem OnlySkips.append_closer {q : Char} (hq : isCloser q) {r : List Char} (h : OnlySkips r) :
    OnlySkips (r ++ [q]) := by
  have hnl : (q != '\n') = true := by
    simp only [isCloser, Bool.or_eq_true, beq_iff_eq] at hq
    rcases hq with rfl | rfl <;> rfl
  induction h with
  | nil => exact .blank (by simp [hq]) .nil
  | blank hc _ ih => exact .blank hc ih
  | @comment R h ih =>
    change OnlySkips ('#' :: (R ++ [q]))
    refine .comment ?_
    by_cases he : R.dropWhile (· != '\n') = []
    · rw [List.dropWhile_eq_nil_iff] at he
      rw [List.dropWhile_eq_nil_iff.mpr]
      · exact .nil
      · intro x hx
        rcases List.mem_append.mp hx with hx | hx
        · exact he x hx
        · rw [List.mem_singleton.mp hx, hnl]
    · rw [(dropWhile_append_of_ne_nil he).1]
      exact ih

theorem onlySkips_of_append {q : Char} {r : List Char} (h : OnlySkips (r ++ [q])) :
    OnlySkips r := by
  induction hl : r.length using Nat.strong_induction_on generalizing r with
  | _ l ih =>
  cases r with
  | nil => exact .nil
  | cons c r =>
    simp only [List.length_cons] at hl
    rw [List.cons_append] at h
    cases h with
    | blank hc hr => exact .blank hc (ih r.length (by omega) hr rfl)
    | comment hr =>
      refine .comment ?_
      by_cases he : r.dropWhile (· != '\n') = []
      · rw [he]
        exact .nil
      · rw [(dropWhile_append_of_ne_nil he).1] at hr
        have := (List.dropWhile_suffix (· != '\n') (l := r)).length_le
        exact ih _ (by omega) hr rfl

/-- Where the pre-scan of a bracketed text may stop. -/
theorem closer_snoc {q : Char} {body b r : List Char}
    (h : closer false 1 (body ++ [q]) = .found b r) :
    b = body ∧ r = [] ∨ ∃ r', r = r' ++ [q] ∧ closer false 1 body = .found b r' := by
  obtain ⟨d, hd, he⟩ := closer_split h
  rcases List.eq_nil_or_concat r with rfl | ⟨r', x, rfl⟩
  · exact .inl ⟨(List.append_inj' he rfl).1.symm, rfl⟩
  · rw [List.concat_eq_append] at he h ⊢
    have he' : body ++ [q] = (b ++ d :: r') ++ [x] := by simpa using he
    obtain ⟨rfl, hx⟩ := List.append_inj' he' rfl
    cases hx
    refine .inr ⟨r', rfl, ?_⟩
    rw [List.append_assoc] at h
    exact closer_local hd h

/-- The element that brackets make of the list between them. -/
def bracketed (curly : Bool) (r : Sexp) : Sexp :=
  if curly then .cons (.ident "scope".toList) r else r

/-- The state behind a group at the start of a text. -/
theorem addToken_group_empty {curly : Bool} {body : List Char} {r : Sexp} (h : tree body = .ok r) :
    Items.empty.addToken tree (.group curly body) = .ok ⟨[bracketed curly r], none⟩ := by
  have hlist := tree_isList h
  cases curly <;>
    simp [Items.addToken, h, Items.insertScope, Items.insertPart, Items.empty, bracketed, hlist]

theorem tree_brackets_iff {o q : Char} (ho : isOpener o) (hq : isCloser q) {body : List Char}
    (hn : '\x00' ∉ body) {r : Sexp} (hr : tree body = .ok r) :
    tree (o :: (body ++ [q])) = .ok (.ofList [bracketed (o == '{') r]) ↔ PairsUp body := by
  have hnq : '\x00' ∉ o :: (body ++ [q]) := by
    simp only [isOpener, isCloser, Bool.or_eq_true, beq_iff_eq] at ho hq
    simp only [List.mem_cons, List.mem_append, List.not_mem_nil, or_false, not_or]
    rcases ho with rfl | rfl <;> rcases hq with rfl | rfl <;> exact ⟨by decide, hn, by decide⟩
  have hqb : '\x00' ∉ body ++ [q] := not_mem_tail hnq
  -- one turn takes the group, and the rest is read behind it
  have hturn : ∀ {b rest : List Char} {r' : Sexp},
      closer false 1 (body ++ [q]) = .found b rest → tree b = .ok r' →
      readOn (o :: (body ++ [q])) .empty = readOn rest ⟨[bracketed (o == '{') r'], none⟩ := by
    intro b rest r' hcl hb
    rw [readOn_cons hnq, nextToken_opener ho, hcl]
    simp only [Read.ok_bind, addToken_group_empty hb]
  constructor
  · intro h
    have hex := tree_ok_iff.mp ⟨_, h⟩
    obtain ⟨it, hit⟩ := hex
    have hitems : it.items = [bracketed (o == '{') r] := by
      rw [tree, hit] at h
      exact Sexp.ofList_injective (Except.ok.inj h)
    cases hcl : closer false 1 (body ++ [q]) with
    | missing =>
      rw [readOn_cons hnq, nextToken_opener ho, hcl] at hit
      cases hit
    | overrun =>
      rw [readOn_cons hnq, nextToken_opener ho, hcl] at hit
      cases hit
    | found b rest =>
      obtain ⟨d, hd, he⟩ := closer_split hcl
      have hnb : '\x00' ∉ b := fun hm => hqb (he ▸ List.mem_append_left _ hm)
      have hnrest : '\x00' ∉ rest := fun hm => hqb (by rw [he]; simp [hm])
      cases hb : tree b with
      | error e =>
        rw [readOn_cons hnq, nextToken_opener ho, hcl] at hit
        simp [Items.addToken, hb] at hit
      | ok r' =>
        rw [hturn hcl hb] at hit
        have hstart : Items.Starts (bracketed (o == '{') r') ⟨[bracketed (o == '{') r'], none⟩ :=
          ⟨rfl, by rintro _ ⟨⟩⟩
        have honly := (readOn_starts hnrest hstart hit).2.2 (by rw [hitems]; rfl)
        rcases closer_snoc hcl with ⟨rfl, rfl⟩ | ⟨r'', rfl, hcl'⟩
        · exact .inl (closer_local (e := ')') rfl hcl)
        · exact .inr ⟨b, r'', hcl', (accepts_iff_tree hnb).mpr ⟨r', hb⟩, onlySkips_of_append honly⟩
  · rintro (hcl | ⟨b, rest, hcl, hacc, honly⟩)
    · rw [tree, hturn (closer_local hq hcl) hr]
      rfl
    · obtain ⟨d, hd, rfl⟩ := closer_split hcl
      have hnb : '\x00' ∉ b := fun hm => hn (List.mem_append_left _ hm)
      obtain ⟨r', hb⟩ := (accepts_iff_tree hnb).mp hacc
      have hskip : OnlySkips (d :: rest) := .blank (by simp [hd]) honly
      -- the piece before the bracket is all of the text there is to read
      have hsame : r' = r := by
        obtain ⟨it, hit⟩ := tree_ok_iff.mp ⟨_, hb⟩
        rcases readOn_append hd hn (closer_found_hashClosed hcl).2 hit with hread | ⟨e, hread⟩
        · rw [hskip.readOn (fun hm => hn (List.mem_append_right _ hm))] at hread
          rw [tree, hread] at hr
          rw [tree, hit] at hb
          exact Except.ok.inj (hb.symm.trans hr)
        · rw [tree, hread] at hr
          cases hr
      rw [tree, hturn (closer_append hcl) hb, (honly.append_closer hq).readOn ?_, hsame]
      · rfl
      · intro hm
        refine hqb ?_
        rw [List.append_assoc]
        exact List.mem_append_right _ (List.mem_cons_of_mem _ hm)

/-! ## The reader -/

/-- `lowerRead` reads the list `r`, positions aside. -/
def ReadsTo (text : List Char) (fileidx : Nat) (r : Sexp) : Prop :=
  ∃ v, lowerRead text fileidx = .ok v ∧ v.erase = r

theorem readsTo_iff_tree {text : List Char} (fileidx : Nat) (hn : '\x00' ∉ text) {r : Sexp} :
    ReadsTo text fileidx r ↔ tree text = .ok r := by
  rw [ReadsTo, ← lowerRead_tree text fileidx hn]
  cases lowerRead text fileidx <;> simp

/-- Round brackets make a list of one element of a text, the tree of the text,
and curly ones put `scope` before it, exactly if the pre-scan pairs the two
brackets up. -/
theorem brackets_read_iff (body : Source) (fileidx : Nat) {r : Sexp}
    (h : ReadsTo body.text fileidx r) :
    (ReadsTo ('(' :: (body.text ++ [')'])) fileidx (.ofList [r]) ∧
      ReadsTo ('{' :: (body.text ++ ['}'])) fileidx
        (.ofList [.cons (.ident "scope".toList) r])) ↔
    PairsUp body.text := by
  have hr := (readsTo_iff_tree fileidx body.nul_free).mp h
  have hbr : ∀ {o q : Char}, isOpener o → isCloser q →
      (ReadsTo (o :: (body.text ++ [q])) fileidx (.ofList [bracketed (o == '{') r]) ↔
        PairsUp body.text) := by
    intro o q ho hq
    rw [← tree_brackets_iff ho hq body.nul_free hr]
    refine readsTo_iff_tree fileidx ?_
    simp only [isOpener, isCloser, Bool.or_eq_true, beq_iff_eq] at ho hq
    simp only [List.mem_cons, List.mem_append, List.not_mem_nil, or_false, not_or]
    rcases ho with rfl | rfl <;> rcases hq with rfl | rfl <;>
      exact ⟨by decide, body.nul_free, by decide⟩
  constructor
  · exact fun h => (hbr (o := '(') (q := ')') rfl rfl).mp h.1
  · exact fun h => ⟨(hbr (o := '(') (q := ')') rfl rfl).mpr h, (hbr (o := '{') (q := '}') rfl rfl).mpr h⟩

theorem brackets_read_iff_example :
    (ReadsTo "((a) \"b\")".toList 0 (.ofList [.ofList [.ofList [.ident ['a']], .string ['b']]]) ∧
      ReadsTo "\x7b(a) \"b\"\x7d".toList 0
        (.ofList [.ofList [.ident "scope".toList, .ofList [.ident ['a']], .string ['b']]])) ↔
    PairsUp "(a) \"b\"".toList :=
  brackets_read_iff ⟨"(a) \"b\"".toList, by decide⟩ 0 ⟨_, rfl, rfl⟩

/-- The brackets outside of literals and comments match, and the last comment
is closed. The first argument bounds the length, the second holds the brackets
that are open. -/
def bracketsMatch : Nat → List Char → List Char → Bool
  | 0, _, _ => false
  | _ + 1, stack, [] => stack.isEmpty
  | k + 1, stack, c :: R =>
    if c == '"' then
      match literal 0 (some '"') R with
      | .ok (_, rest) => bracketsMatch k stack rest
      | .error _ => false
    else if c == '\'' then
      match charLiteral 0 R with
      | .ok (_, rest) => bracketsMatch k stack rest
      | .error _ => false
    else if c == '#' then
      match R.dropWhile (· != '\n') with
      | _ :: rest => bracketsMatch k stack rest
      | [] => false
    else if isOpener c then bracketsMatch k (c :: stack) R
    else if isCloser c then
      match stack with
      | o :: stack => (o == '(') == (c == ')') && bracketsMatch k stack R
      | [] => false
    else bracketsMatch k stack R

/-- A bracket in a string literal ends the list around it. -/
theorem bracket_in_literal :
    ¬ ∀ (body : Source) (fileidx : Nat) (r : Sexp), ReadsTo body.text fileidx r →
      bracketsMatch (body.text.length + 1) [] body.text →
      ReadsTo ('(' :: (body.text ++ [')'])) fileidx (.ofList [r]) ∧
        ReadsTo ('{' :: (body.text ++ ['}'])) fileidx
          (.ofList [.cons (.ident "scope".toList) r]) := by
  intro h
  obtain ⟨⟨v, hv, _⟩, _⟩ := h ⟨"\")\"".toList, by decide⟩ 0 (.ofList [.string [')']])
    ⟨_, rfl, rfl⟩ (by decide)
  have herr : lowerRead "(\")\")".toList 0 = .error (.error 1 "missing closing '\"'") := by decide
  exact absurd (hv.symm.trans herr) nofun

end Dolorem.Reader
