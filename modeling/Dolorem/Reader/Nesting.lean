import Dolorem.Reader.Compose

/-!
# Which brackets have to match

The pre-scan for a closing bracket counts both kinds with one counter, and
`actual_read` skips a closing bracket that it meets like a blank. An opening
bracket inside a word is a part of the word. What is left is `Closed`: every
bracket that opens a list is closed by some bracket, in a nested way
(`accepted_closed`), but brackets do not have to match.
-/

namespace Dolorem.Reader

/-- The brackets `bs` of a text outside of literals and comments, with or without those in words. -/
inductive Outside (inWords : Bool) : List Char → List Char → Prop
  | nil : Outside inWords [] []
  | blank {c : Char} {R bs : List Char} : isBlank c → Outside inWords R bs →
      Outside inWords (c :: R) bs
  | semi {R bs : List Char} : Outside inWords R bs → Outside inWords (';' :: R) bs
  | bracket {c : Char} {R bs : List Char} : isOpener c || isCloser c → Outside inWords R bs →
      Outside inWords (c :: R) (c :: bs)
  | string {R raw rest bs : List Char} : literal 0 (some '"') R = .ok (raw, rest) →
      Outside inWords rest bs → Outside inWords ('"' :: R) bs
  | char {R rest bs : List Char} : R.dropWhile (· != '\'') = '\'' :: rest →
      Outside inWords rest bs → Outside inWords ('\'' :: R) bs
  | comment {R bs : List Char} : Outside inWords (R.dropWhile (· != '\n')) bs →
      Outside inWords ('#' :: R) bs
  | word {c : Char} {R bs : List Char} : isSpecial c = false →
      Outside inWords (afterWord (c :: R)) bs →
      Outside inWords (c :: R) ((if inWords then (word (c :: R)).filter isOpener else []) ++ bs)

/-- Every `(` is closed by `)` and every `{` by `}`, and there are no other brackets. -/
inductive Nested : List Char → Prop
  | nil : Nested []
  | round {bs r : List Char} : Nested bs → Nested r → Nested ('(' :: (bs ++ ')' :: r))
  | curly {bs r : List Char} : Nested bs → Nested r → Nested ('{' :: (bs ++ '}' :: r))

/-- Every opening bracket is closed by some closing bracket; there may be others. -/
inductive Closed : List Char → Prop
  | nil : Closed []
  | extra {c : Char} {r : List Char} : isCloser c → Closed r → Closed (c :: r)
  | list {o c : Char} {bs r : List Char} : isOpener o → isCloser c → Closed bs → Closed r →
      Closed (o :: (bs ++ c :: r))

section

variable {inWords : Bool} {R Y bs bs' body rest : List Char} {d : Char}

/-- The brackets of a text before a closing bracket do not depend on what is behind it. -/
theorem Outside.append (h : Outside inWords R bs) (hR : HashClosed R) (hd : isCloser d)
    (hY : Outside inWords (d :: Y) bs') : Outside inWords (R ++ d :: Y) (bs ++ bs') := by
  obtain ⟨hend, hslash⟩ := endsToken_closer hd
  induction h with
  | nil => exact hY
  | blank hc _ ih => exact .blank hc (ih (hashClosed_cons.1 hR).2)
  | semi _ ih => exact .semi (ih (hashClosed_cons.1 hR).2)
  | bracket hc _ ih => exact .bracket hc (ih (hashClosed_cons.1 hR).2)
  | string hl _ ih =>
    refine .string (literal_append hslash hl) (ih ((hashClosed_cons.1 hR).2.suffix ?_))
    rw [literal_split hl]
    exact (List.suffix_cons _ _).trans (List.suffix_append _ _)
  | @char R rest bs hrest _ ih =>
    have hdrop := (dropWhile_append_of_ne_nil (Y := d :: Y)
      (by rw [hrest]; exact List.cons_ne_nil _ _)).1
    have hsuf : rest <:+ R := (List.suffix_cons _ _).trans (hrest ▸ List.dropWhile_suffix _)
    rw [hrest] at hdrop
    exact .char hdrop (ih ((hashClosed_cons.1 hR).2.suffix hsuf))
  | @comment R bs _ ih =>
    obtain ⟨hnl, htail⟩ := hashClosed_cons.1 hR
    have hne : R.dropWhile (· != '\n') ≠ [] := by
      intro he
      rw [List.dropWhile_eq_nil_iff] at he
      simpa using he '\n' (hnl rfl)
    have hrec := ih (htail.suffix (List.dropWhile_suffix _))
    rw [← (dropWhile_append_of_ne_nil hne).1] at hrec
    exact .comment hrec
  | @word c R bs hc _ ih =>
    obtain ⟨hw, ha⟩ := word_append_closer (R := c :: R) (r := Y) hend
    have hrec := ih (hR.suffix (List.dropWhile_suffix _))
    rw [← ha] at hrec
    rw [List.append_assoc, ← hw]
    exact .word hc hrec

theorem charLiteral_quote {i : Int} (h : charLiteral 0 R = .ok (i, rest)) :
    R.dropWhile (· != '\'') = '\'' :: rest := by
  unfold charLiteral at h
  split at h
  · cases h
  · next q X hX =>
    have hq : q = '\'' := by
      have hhead := List.head_dropWhile_not (p := (· != '\'')) (l := R)
        (by rw [hX]; exact List.cons_ne_nil _ _)
      simpa only [hX, List.head_cons, bne_eq_false_iff_eq] using hhead
    have hrest : X = rest := by
      cases hdec : decode 0 '\'' false (R.takeWhile (· != '\'')) with
      | error e =>
        rw [hdec] at h
        cases h
      | ok s =>
        rw [hdec] at h
        simp only [Read.ok_bind] at h
        split at h
        · split at h
          · exact (Prod.mk.inj (Except.ok.inj h)).2
          · cases h
        · exact (Prod.mk.inj (Except.ok.inj h)).2
        · cases h
    rw [hX, hq, hrest]

theorem Nested.count_round (h : Nested bs) : bs.count '(' = bs.count ')' := by
  induction h with
  | nil => rfl
  | round _ _ ihb ihr => simp [ihb, ihr, Nat.add_assoc]
  | curly _ _ ihb ihr => simp [ihb, ihr]

/-- The grammar of the reader, by what a turn begins with. -/
theorem Accepts.closed {o : Bool} (h : Accepts o R) (hn : '\x00' ∉ R) :
    ∃ bs, Outside false R bs ∧ Closed bs := by
  induction h with
  | nil => exact ⟨[], .nil, .nil⟩
  | @cons o o' c R rest t hnt _ _ _ ihbody ihrest =>
    have hsuf := nextToken_suffix (ne_nul_of_not_mem hn) hnt
    obtain ⟨bs, hbs, hclosed⟩ := ihrest fun hm => not_mem_tail hn (hsuf.subset hm)
    cases lead c with
    | blank hc =>
      cases (nextToken_blank hc).symm.trans hnt
      cases hb : isBlank c with
      | true => exact ⟨bs, .blank hb hbs, hclosed⟩
      | false =>
        rw [hb, Bool.false_or] at hc
        exact ⟨c :: bs, .bracket (by rw [hc, Bool.or_true]) hbs, .extra hc hclosed⟩
    | opener hc =>
      obtain ⟨body, hcl, rfl⟩ := nextToken_opener_ok hc hnt
      obtain ⟨d, hd, rfl⟩ := closer_split hcl
      obtain ⟨bs', hbs', hclosed'⟩ := ihbody _ _ rfl (nextToken_group_lt hn hnt).1
      have hinner : Outside false (body ++ d :: rest) (bs' ++ d :: bs) :=
        hbs'.append (closer_found_hashClosed hcl).2 hd (.bracket (by rw [hd, Bool.or_true]) hbs)
      exact ⟨c :: (bs' ++ d :: bs), .bracket (by rw [hc, Bool.true_or]) hinner,
        .list hc hd hclosed' hclosed⟩
    | quote hc =>
      subst hc
      obtain ⟨raw, s, hl, -, -⟩ := nextToken_quote_ok hnt
      exact ⟨bs, .string hl hbs, hclosed⟩
    | tick hc =>
      subst hc
      obtain ⟨i, hi, -⟩ := nextToken_tick_ok hnt
      exact ⟨bs, .char (charLiteral_quote hi) hbs, hclosed⟩
    | hash hc =>
      subst hc
      cases nextToken_hash.symm.trans hnt
      exact ⟨bs, .comment hbs, hclosed⟩
    | semi hc =>
      subst hc
      cases nextToken_semi.symm.trans hnt
      exact ⟨bs, .semi hbs, hclosed⟩
    | plain hc =>
      have hrest : afterWord (c :: R) = rest := by
        rw [nextToken_plain hc] at hnt
        exact (Prod.mk.inj (Except.ok.inj hnt)).2
      subst hrest
      exact ⟨bs, .word hc hbs, hclosed⟩

end

/-- In a text that is read, every bracket that opens a list is closed. -/
theorem accepted_closed (src : Source) (fileidx : Nat) {v : Val (List Char)}
    (h : lowerRead src.text fileidx = .ok v) : ∃ bs, Outside false src.text bs ∧ Closed bs := by
  have htree : ReadsTo src.text fileidx v.erase := ⟨v, h, rfl⟩
  rw [readsTo_iff_tree fileidx src.nul_free] at htree
  exact ((accepts_iff_tree src.nul_free).2 ⟨_, htree⟩).closed src.nul_free

/-- A list, and a closing bracket that is skipped. -/
theorem accepted_closed_example : ∃ v, lowerRead ['(', 'a', '}', ')'] 1 = .ok v ∧
    ∃ bs, Outside false ['(', 'a', '}', ')'] bs ∧ Closed bs := by
  obtain ⟨v, hv⟩ : ∃ v, lowerRead ['(', 'a', '}', ')'] 1 = .ok v := ⟨_, rfl⟩
  exact ⟨v, hv, accepted_closed ⟨['(', 'a', '}', ')'], by decide⟩ 1 hv⟩

/-- The text `(a}`. -/
def mixedBrackets : Source := ⟨['(', 'a', '}'], by decide⟩

/-- It is read, although its brackets are of different kinds. -/
theorem mixed_brackets_read : ¬ ∀ (src : Source) (fileidx : Nat) (v : Val (List Char)),
    lowerRead src.text fileidx = .ok v → ∃ bs, Outside true src.text bs ∧ Nested bs := by
  intro h
  obtain ⟨v, hv⟩ : ∃ v, lowerRead mixedBrackets.text 1 = .ok v := ⟨_, rfl⟩
  obtain ⟨bs, hbs, hnested⟩ := h mixedBrackets 1 v hv
  change Outside true ['(', 'a', '}'] bs at hbs
  cases hbs with
  | blank hc => cases hc
  | word hc => cases hc
  | bracket _ hbs =>
    cases hbs with
    | blank hc => cases hc
    | bracket hc => cases hc
    | word _ hbs =>
      change Outside true ['}'] _ at hbs
      cases hbs with
      | blank hc => cases hc
      | word hc => cases hc
      | bracket _ hbs =>
        cases hbs
        exact absurd hnested.count_round (by decide)

/-- The text `) a` is read, although its bracket closes nothing. -/
theorem closer_alone_read : (∃ v, lowerRead [')', ' ', 'a'] 1 = .ok v) ∧
    ¬ ∃ bs, Outside true [')', ' ', 'a'] bs ∧ Nested bs := by
  refine ⟨⟨_, rfl⟩, ?_⟩
  rintro ⟨bs, hbs, hnested⟩
  cases hbs with
  | blank hc => cases hc
  | word hc => cases hc
  | bracket _ _ => cases hnested

/-- The text `a(b` is read, although nothing closes its bracket. -/
theorem opener_in_word_read : (∃ v, lowerRead ['a', '(', 'b'] 1 = .ok v) ∧
    ¬ ∃ bs, Outside true ['a', '(', 'b'] bs ∧ Nested bs := by
  refine ⟨⟨_, rfl⟩, ?_⟩
  rintro ⟨bs, hbs, hnested⟩
  cases hbs with
  | blank hc => cases hc
  | bracket hc => cases hc
  | word _ hbs =>
    change Outside true [] _ at hbs
    cases hbs
    exact absurd hnested.count_round (by decide)

end Dolorem.Reader
