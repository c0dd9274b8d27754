import Dolorem.Reader.Items

/-!
# The texts the reader accepts, and those it runs over

`Accepts` is the grammar of the texts that are read to a tree. Beside the
tokens it needs one bit, whether there is an atom since the last `;`.
`RunsOver` describes the texts on which the cursor leaves the buffer: the
reader arrives at an opening bracket whose pre-scan enters a comment that is
not closed. This cannot happen inside a group, where every comment is closed.

`lowerRead_ends_iff`: these are the only texts on which `lowerRead` does
anything but return a tree or report an error.
-/

namespace Dolorem.Reader

/-! ## The grammar -/

/-- Whether an atom is there since the last `;` behind a token, given whether
there was one before it; `none` is the error of a `;` without one. -/
def Token.after (o : Bool) : Token → Option Bool
  | .skip => some o
  | .semi => if o then some false else none
  | .group _ _ => some o
  | t => some (o || !(atomTree t).isList)

/-- The texts that are read to a tree. -/
inductive Accepts : Bool → List Char → Prop
  | nil (o : Bool) : Accepts o []
  | cons {o o' : Bool} {c : Char} {R rest : List Char} {t : Token} :
      nextToken 0 (c :: R) = .ok (t, rest) →
      (∀ curly body, t = .group curly body → Accepts false body) →
      t.after o = some o' → Accepts o' rest → Accepts o (c :: R)

/-- The texts on which the pre-scan of a top-level bracket runs over the end. -/
inductive RunsOver : Bool → List Char → Prop
  | here {o : Bool} {c : Char} {R : List Char} :
      isOpener c → closer false 1 R = .overrun → RunsOver o (c :: R)
  | later {o o' : Bool} {c : Char} {R rest : List Char} {t : Token} :
      nextToken 0 (c :: R) = .ok (t, rest) →
      (∀ curly body, t = .group curly body → Accepts false body) →
      t.after o = some o' → RunsOver o' rest → RunsOver o (c :: R)

/-- The bit of `Accepts` for a list under construction. -/
def Items.opened (it : Items) : Bool :=
  it.groupb.isSome

theorem Items.opened_insertPart (it : Items) (r : Sexp) :
    (it.insertPart r).opened = (it.opened || !r.isList) := by
  cases hg : it.groupb <;> cases hr : r.isList <;> simp [opened, insertPart, hg, hr]

theorem Items.opened_insertScope (it : Items) (r : Sexp) :
    (it.insertScope r).opened = it.opened := rfl

/-- What a token does, for a nested reader that yields lists. -/
theorem Items.addToken_ok_iff {nested : List Char → Read Sexp} {it it' : Items} {t : Token}
    (hnest : ∀ body r, nested body = .ok r → r.isList) (h : it.addToken nested t = .ok it') :
    (∀ curly body, t = .group curly body → ∃ r, nested body = .ok r) ∧
      t.after it.opened = some it'.opened := by
  have atom : ∀ t, it.insertPart (atomTree t) = it' →
      some (it.opened || !(atomTree t).isList) = some it'.opened := by
    rintro t rfl
    rw [opened_insertPart]
  cases t with
  | skip => simp_all [addToken, Token.after]
  | semi =>
    refine ⟨fun _ _ => Token.noConfusion, ?_⟩
    cases hg : it.groupb with
    | none => simp [addToken, Items.semi, hg] at h
    | some g =>
      simp only [addToken, Items.semi, hg, Option.map_some, Except.ok.injEq] at h
      simp [Token.after, opened, hg, ← h]
  | group curly body =>
    simp only [addToken] at h
    cases hr : nested body with
    | error e => simp [hr] at h
    | ok r =>
      refine ⟨fun _ _ ht => ?_, ?_⟩
      · simp only [Token.group.injEq] at ht
        exact ⟨r, by rw [← ht.2, hr]⟩
      · cases curly with
        | true =>
          simp only [hr, Read.ok_bind, if_true, Read.pure_eq, Except.ok.injEq] at h
          rw [← h, opened_insertScope]
          rfl
        | false =>
          simp only [hr, Read.ok_bind, Bool.false_eq_true, if_false, Read.pure_eq,
            Except.ok.injEq] at h
          rw [← h, opened_insertPart, hnest body r hr]
          simp [Token.after]
  | _ => exact ⟨fun _ _ => Token.noConfusion, atom _ (Except.ok.inj h)⟩

/-- A token that the grammar allows is added. -/
theorem Items.addToken_of_after (nested : List Char → Read Sexp) {it : Items} {t : Token}
    {o : Bool} (hnest : ∀ curly body, t = .group curly body → ∃ r, nested body = .ok r)
    (h : t.after it.opened = some o) : ∃ it', it.addToken nested t = .ok it' := by
  cases t with
  | semi =>
    cases hg : it.groupb with
    | none => simp [Token.after, opened, hg] at h
    | some g => exact ⟨_, by simp only [addToken, Items.semi, hg]; rfl⟩
  | group curly body =>
    obtain ⟨r, hr⟩ := hnest curly body rfl
    cases curly <;> exact ⟨_, by simp only [addToken, hr]; rfl⟩
  | _ => exact ⟨_, rfl⟩

theorem tree_isList {body : List Char} {r : Sexp} (h : tree body = .ok r) : r.isList := by
  rw [tree] at h
  cases hr : readOn body .empty with
  | error e => simp [hr] at h
  | ok it =>
    simp only [hr, Read.ok_map, Except.ok.injEq] at h
    simp [← h]

theorem tree_ok_iff {body : List Char} :
    (∃ r, tree body = .ok r) ↔ ∃ it, readOn body .empty = .ok it := by
  rw [tree]
  cases readOn body .empty <;> simp

/-! ## Errors -/

/-- The error is one the code reports. -/
def Stop.reported : Stop → Bool
  | .error _ _ | .internal _ => true
  | _ => false

theorem literal_error {pos : Nat} {R : List Char} {e : Stop} :
    ∀ {m : Option Char}, literal pos m R = .error e → e.reported := by
  induction R with
  | nil => intro m h; cases m <;> cases h <;> rfl
  | cons c R ih =>
    have step : ∀ {m : Option Char},
        (fun x => (c :: x.1, x.2)) <$> literal pos m R = .error e → e.reported := by
      intro m h
      cases hl : literal pos m R with
      | error e' =>
        rw [hl] at h
        cases h
        exact ih hl
      | ok x => simp [hl] at h
    intro m h
    cases m with
    | none =>
      simp only [literal] at h
      split at h
      · exact step h
      · split at h
        · exact step h
        · cases h
          rfl
    | some p =>
      simp only [literal] at h
      split at h
      · split at h
        · exact step h
        · cases h
      · exact step h

theorem controlSequence_error {pos : Nat} {c : Char} {e : Stop}
    (h : controlSequence pos c = .error e) : e.reported := by
  unfold controlSequence at h
  repeat' split at h
  all_goals cases h
  rfl

theorem decode_error {pos : Nat} {type : Char} {R : List Char} {e : Stop} :
    ∀ {gap : Bool}, decode pos type gap R = .error e → e.reported := by
  -- a control sequence takes two characters
  induction hl : R.length using Nat.strong_induction_on generalizing R with
  | _ l ih =>
  have step : ∀ {S : List Char} {c : Char} {gap : Bool}, S.length < l →
      (c :: ·) <$> decode pos type gap S = .error e → e.reported := by
    intro S c gap hS h
    cases hd : decode pos type gap S with
    | ok u => simp [hd] at h
    | error e' =>
      rw [hd] at h
      cases h
      exact ih _ hS rfl hd
  intro gap h
  cases R with
  | nil => cases gap <;> cases h; rfl
  | cons c R =>
    simp only [List.length_cons] at hl
    cases gap with
    | true => exact ih R.length (by omega) rfl h
    | false =>
      by_cases hty : c = type
      · subst hty
        rw [decode_quote] at h
        exact ih R.length (by omega) rfl h
      · by_cases hbs : c = '\\'
        · subst hbs
          cases R with
          | nil =>
            rw [decode_escape_nil pos hty] at h
            cases h
            rfl
          | cons d R =>
            rw [decode_escape pos hty] at h
            simp only [List.length_cons] at hl
            cases hx : controlSequence pos d with
            | error e' =>
              rw [hx] at h
              cases h
              exact controlSequence_error hx
            | ok x =>
              rw [hx] at h
              exact step (by omega) h
        · rw [decode_plain pos hty hbs] at h
          exact step (by omega) h

theorem charLiteral_error {pos : Nat} {R : List Char} {e : Stop}
    (h : charLiteral pos R = .error e) : e.reported := by
  unfold charLiteral at h
  cases hX : R.dropWhile (· != '\'') with
  | nil =>
    simp only [hX] at h
    cases h
    rfl
  | cons q rest =>
    simp only [hX] at h
    cases hd : decode pos '\'' false (R.takeWhile (· != '\'')) with
    | error e' =>
      rw [hd] at h
      cases h
      exact decode_error hd
    | ok t =>
      simp only [hd, Read.ok_bind] at h
      repeat' split at h
      all_goals cases h
      all_goals rfl

/-- A turn fails with a reported error, or at a bracket before an open comment. -/
theorem nextToken_error {pos : Nat} {c : Char} {R : List Char} {e : Stop}
    (h : nextToken pos (c :: R) = .error e) :
    e.reported ∨ e = .overrun ∧ isOpener c ∧ closer false 1 R = .overrun := by
  cases lead c with
  | blank hc => simp [nextToken_blank hc] at h
  | opener hc =>
    rw [nextToken_opener hc] at h
    cases hcl : closer false 1 R with
    | found body rest => simp [hcl] at h
    | missing =>
      simp only [hcl, Except.error.injEq] at h
      exact .inl (h ▸ rfl)
    | overrun =>
      simp only [hcl, Except.error.injEq] at h
      exact .inr ⟨h.symm, hc, rfl⟩
  | quote hc =>
    subst hc
    rw [nextToken_quote] at h
    cases hl : literal pos (some '"') R with
    | error e' =>
      simp only [hl, Read.error_bind, Except.error.injEq] at h
      exact .inl (h ▸ literal_error hl)
    | ok x =>
      cases hd : decode pos '"' false x.1 with
      | error e' =>
        simp only [hl, hd, Read.ok_bind, Read.error_bind, Except.error.injEq] at h
        exact .inl (h ▸ decode_error hd)
      | ok s => simp [hl, hd] at h
  | tick hc =>
    subst hc
    rw [nextToken_tick] at h
    cases hl : charLiteral pos R with
    | error e' =>
      simp only [hl, Read.error_bind, Except.error.injEq] at h
      exact .inl (h ▸ charLiteral_error hl)
    | ok x => simp [hl] at h
  | hash hc => subst hc; simp [nextToken_hash] at h
  | semi hc => subst hc; simp [nextToken_semi] at h
  | plain hc => simp [nextToken_plain hc] at h

theorem Items.addToken_error {nested : List Char → Read Sexp} {it : Items} {t : Token} {e : Stop}
    (h : it.addToken nested t = .error e) :
    e.reported ∨ ∃ curly body, t = .group curly body ∧ nested body = .error e := by
  cases t with
  | semi =>
    simp only [addToken] at h
    split at h <;> cases h
    exact .inl rfl
  | group curly body =>
    cases hr : nested body with
    | error e' =>
      simp only [addToken, hr, Read.error_bind, Except.error.injEq] at h
      exact .inr ⟨curly, body, rfl, by rw [hr, h]⟩
    | ok r => cases curly <;> simp [addToken, hr] at h
  | _ => cases h

/-! ## Outcomes of a run -/

/-- The run ends with a tree or a reported error. -/
def Ends {α : Type} (x : Read α) : Prop :=
  (∃ a, x = .ok a) ∨ ∃ e, x = .error e ∧ e.reported

theorem forget_reported (e : Stop) : e.forget.reported = e.reported := by
  cases e <;> rfl

theorem ends_iff_tree {text : List Char} (fileidx : Nat) (hn : '\x00' ∉ text) :
    Ends (lowerRead text fileidx) ↔ Ends (tree text) := by
  rw [← lowerRead_tree text fileidx hn]
  cases lowerRead text fileidx <;> simp [Ends, forget_reported]

theorem tree_error_iff {body : List Char} {e : Stop} :
    tree body = .error e ↔ readOn body .empty = .error e := by
  rw [tree]
  cases readOn body .empty <;> simp

/-- The steps of a run that goes past the first token. -/
theorem readOn_step {c : Char} {R rest : List Char} {t : Token} {it : Items} {x : Read Items}
    (hn : '\x00' ∉ c :: R) (hnt : nextToken 0 (c :: R) = .ok (t, rest)) :
    readOn (c :: R) it = x ↔ (it.addToken tree t >>= readOn rest) = x := by
  rw [readOn_cons hn, hnt]
  rfl

/-- A text whose comments are closed is never run over. -/
theorem readOn_error_reported {R : List Char} (hn : '\x00' ∉ R) (hR : HashClosed R) {e : Stop} :
    ∀ {it : Items}, readOn R it = .error e → e.reported := by
  induction hl : R.length using Nat.strong_induction_on generalizing R with
  | _ l ih =>
  intro it h
  cases R with
  | nil => cases h
  | cons c R =>
    simp only [List.length_cons] at hl
    cases hnt : nextToken 0 (c :: R) with
    | error e' =>
      rw [readOn_cons hn, hnt] at h
      cases h
      rcases nextToken_error hnt with hr | ⟨_, _, hov⟩
      · exact hr
      · exact absurd hov (closer_ne_overrun (hashClosed_cons.mp hR).2 nofun)
    | ok x =>
      obtain ⟨t, rest⟩ := x
      rw [readOn_step hn hnt] at h
      have hsuf := nextToken_suffix (ne_nul_of_not_mem hn) hnt
      have hlen := hsuf.length_le
      cases ha : it.addToken tree t with
      | error e' =>
        rw [ha] at h
        cases h
        rcases Items.addToken_error ha with hr | ⟨curly, body, rfl, hb⟩
        · exact hr
        · obtain ⟨hnb, hlt⟩ := nextToken_group_lt hn hnt
          exact ih body.length (by omega) hnb (closer_found_hashClosed (nextToken_group hnt).2.2).2
            rfl (tree_error_iff.mp hb)
      | ok it' =>
        rw [ha] at h
        exact ih rest.length (by omega) (fun hm => not_mem_tail hn (hsuf.subset hm))
          ((hashClosed_cons.mp hR).2.suffix hsuf) rfl h

/-- `Accepts` is the grammar of the texts that are read to a tree. -/
theorem accepts_iff {R : List Char} (hn : '\x00' ∉ R) :
    ∀ it : Items, Accepts it.opened R ↔ ∃ it', readOn R it = .ok it' := by
  induction hl : R.length using Nat.strong_induction_on generalizing R with
  | _ l ih =>
  intro it
  cases R with
  | nil => exact ⟨fun _ => ⟨it, rfl⟩, fun _ => .nil _⟩
  | cons c R =>
    simp only [List.length_cons] at hl
    -- the parts of the text after one turn
    have parts : ∀ {t : Token} {rest : List Char}, nextToken 0 (c :: R) = .ok (t, rest) →
        (rest.length < l ∧ '\x00' ∉ rest) ∧
        ∀ curly body, t = .group curly body → (Accepts false body ↔ ∃ r, tree body = .ok r) := by
      intro t rest hnt
      have hsuf := nextToken_suffix (ne_nul_of_not_mem hn) hnt
      have hlen := hsuf.length_le
      refine ⟨⟨by omega, fun hm => not_mem_tail hn (hsuf.subset hm)⟩, ?_⟩
      rintro curly body rfl
      obtain ⟨hnb, hlt⟩ := nextToken_group_lt hn hnt
      rw [tree_ok_iff]
      exact ih body.length (by omega) hnb rfl .empty
    constructor
    · intro h
      cases h with
      | cons hnt hbody hafter hrest =>
        obtain ⟨⟨hlen, hnr⟩, hgroup⟩ := parts hnt
        obtain ⟨it', ha⟩ := Items.addToken_of_after tree
          (fun curly body ht => (hgroup curly body ht).mp (hbody curly body ht)) hafter
        have hopen := (Items.addToken_ok_iff (fun _ _ => tree_isList) ha).2
        rw [hafter, Option.some.injEq] at hopen
        obtain ⟨it'', hr⟩ := (ih _ hlen hnr rfl it').mp (hopen ▸ hrest)
        exact ⟨it'', by rw [readOn_step hn hnt, ha]; exact hr⟩
    · rintro ⟨it'', h⟩
      cases hnt : nextToken 0 (c :: R) with
      | error e =>
        rw [readOn_cons hn, hnt] at h
        cases h
      | ok x =>
        obtain ⟨t, rest⟩ := x
        obtain ⟨⟨hlen, hnr⟩, hgroup⟩ := parts hnt
        rw [readOn_step hn hnt] at h
        cases ha : it.addToken tree t with
        | error e =>
          rw [ha] at h
          cases h
        | ok it' =>
          rw [ha] at h
          obtain ⟨hb, hafter⟩ := Items.addToken_ok_iff (fun _ _ => tree_isList) ha
          exact .cons hnt (fun curly body ht => (hgroup curly body ht).mpr (hb curly body ht)) hafter
            ((ih _ hlen hnr rfl it').mpr ⟨it'', h⟩)

theorem accepts_iff_tree {body : List Char} (hn : '\x00' ∉ body) :
    Accepts false body ↔ ∃ r, tree body = .ok r := by
  rw [tree_ok_iff]
  exact accepts_iff hn .empty

/-- A run ends with a tree or a reported error, or runs over. -/
theorem readOn_overrun_iff {R : List Char} (hn : '\x00' ∉ R) :
    ∀ it : Items, (RunsOver it.opened R ↔ readOn R it = .error .overrun) ∧
      ∀ e, readOn R it = .error e → e.reported ∨ e = .overrun := by
  induction hl : R.length using Nat.strong_induction_on generalizing R with
  | _ l ih =>
  intro it
  cases R with
  | nil => exact ⟨⟨nofun, nofun⟩, nofun⟩
  | cons c R =>
    simp only [List.length_cons] at hl
    cases hnt : nextToken 0 (c :: R) with
    | error e =>
      have hread : readOn (c :: R) it = .error e := by rw [readOn_cons hn, hnt]; rfl
      rw [hread]
      have hcase := nextToken_error hnt
      refine ⟨⟨fun h => ?_, fun h => ?_⟩, fun e' he => ?_⟩
      · cases h with
        | here ho hov =>
          rw [nextToken_opener ho, hov] at hnt
          cases hnt
          rfl
        | later hnt' => rw [hnt] at hnt'; cases hnt'
      · cases h
        rcases hcase with h | ⟨_, ho, hov⟩
        · cases h
        · exact .here ho hov
      · cases he
        exact hcase.imp_right (·.1)
    | ok x =>
      obtain ⟨t, rest⟩ := x
      have hsuf := nextToken_suffix (ne_nul_of_not_mem hn) hnt
      have hlen := hsuf.length_le
      have hnr : '\x00' ∉ rest := fun hm => not_mem_tail hn (hsuf.subset hm)
      -- a nested error is reported
      have hnested : ∀ curly body e, t = .group curly body → tree body = .error e → e.reported := by
        rintro curly body e rfl hb
        exact readOn_error_reported (nextToken_group_lt hn hnt).1
          (closer_found_hashClosed (nextToken_group hnt).2.2).2 (tree_error_iff.mp hb)
      -- a token that has been read is no bracket the search runs over
      have hnov : ∀ {o : Bool}, isOpener c → closer false 1 R = .overrun →
          RunsOver o (c :: R) → False := by
        intro o ho hov _
        rw [nextToken_opener ho, hov] at hnt
        cases hnt
      simp only [readOn_step hn hnt]
      cases ha : it.addToken tree t with
      | error e =>
        have hrep : e.reported := by
          rcases Items.addToken_error ha with h | ⟨curly, body, ht, hb⟩
          · exact h
          · exact hnested curly body e ht hb
        refine ⟨⟨fun h => ?_, fun h => ?_⟩, fun e' he => .inl ?_⟩
        · cases h with
          | here ho hov => exact (hnov ho hov (.here (o := false) ho hov)).elim
          | later hnt' hbody hafter hrest =>
            rw [hnt] at hnt'
            cases hnt'
            obtain ⟨it', ha'⟩ := Items.addToken_of_after tree
              (fun curly body ht => by
                subst ht
                exact (accepts_iff_tree (nextToken_group_lt hn hnt).1).mp (hbody _ _ rfl)) hafter
            rw [ha] at ha'
            cases ha'
        · cases h
          cases hrep
        · cases he
          exact hrep
      | ok it' =>
        obtain ⟨hb, hafter⟩ := Items.addToken_ok_iff (fun _ _ => tree_isList) ha
        obtain ⟨hiff, herr⟩ := ih rest.length (by omega) hnr rfl it'
        refine ⟨⟨fun h => ?_, fun h => ?_⟩, herr⟩
        · cases h with
          | here ho hov => exact (hnov ho hov (.here (o := false) ho hov)).elim
          | later hnt' hbody hafter' hrest =>
            rw [hnt] at hnt'
            cases hnt'
            rw [hafter, Option.some.injEq] at hafter'
            exact hiff.mp (hafter' ▸ hrest)
        · refine .later hnt (fun curly body ht => ?_) hafter (hiff.mpr h)
          subst ht
          exact (accepts_iff_tree (nextToken_group_lt hn hnt).1).mpr (hb _ _ rfl)

/-- The loops always end before their fuel does. -/
theorem lowerRead_ne_fuel (src : Source) (fileidx : Nat) :
    lowerRead src.text fileidx ≠ .error .fuel := by
  intro h
  have ht := lowerRead_tree src.text fileidx src.nul_free
  rw [h] at ht
  rcases (readOn_overrun_iff src.nul_free .empty).2 _ (tree_error_iff.mp ht.symm) with hr | hr <;> cases hr

/-- The reader ends with a tree or a reported error, without leaving the text,
unless the pre-scan of a top-level bracket enters a comment without an end. -/
theorem lowerRead_ends_iff (src : Source) (fileidx : Nat) :
    Ends (lowerRead src.text fileidx) ↔ ¬ RunsOver false src.text := by
  have hrun := readOn_overrun_iff src.nul_free .empty
  rw [ends_iff_tree fileidx src.nul_free, show RunsOver false src.text ↔ _ from hrun.1,
    ← tree_error_iff]
  cases ht : tree src.text with
  | ok r => simp [Ends]
  | error e =>
    rcases hrun.2 e (tree_error_iff.mp ht) with hr | rfl
    · have hne : e ≠ .overrun := by
        rintro rfl
        cases hr
      simp [Ends, hr, hne]
    · simp [Ends, Stop.reported]

/-- An open bracket and an open comment take the cursor over the terminator. -/
theorem lowerRead_overruns :
    ¬ ∀ (src : Source) (fileidx : Nat), Ends (lowerRead src.text fileidx) := by
  intro h
  have hrun : lowerRead "(#".toList 0 = .error .overrun := by decide
  have hends := h ⟨"(#".toList, by decide⟩ 0
  simp only [hrun] at hends
  rcases hends with ⟨_, ha⟩ | ⟨_, he, hr⟩
  · cases ha
  · cases he
    cases hr

end Dolorem.Reader
