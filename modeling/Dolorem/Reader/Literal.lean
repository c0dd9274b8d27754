import Dolorem.Reader.InPlace
import Dolorem.Reader.Turn

/-!
# Literals in the buffer

A turn of the loop at a string or character literal, in any buffer and with any
list under construction: the literal is replaced by its decoded text, a
terminator and what is left of the old characters, and nothing behind it
changes.
-/

namespace Dolorem.Reader

/-- The C string at a NUL-terminated place. -/
theorem cstr_of_drop {b t X : List Char} {s : Nat} (ht : '\x00' ∉ t)
    (h : b.drop s = t ++ '\x00' :: X) : cstr b (.mem s) = t := by
  have hne : ∀ x ∈ t, (x != '\x00') = true := by
    intro x hx
    rw [bne_iff_ne]
    rintro rfl
    exact ht hx
  rw [cstr, h, List.takeWhile_append_of_pos hne]
  simp

section
variable (nested : Buf → Nat → Val Ptr → Read (Buf × Val Ptr)) (fileidx : Nat)
  {st : State} {P R T raw rest t : List Char} {q : Char}

/-- Overwriting the closing quote. -/
theorem poke_close (hb : st.buf = P ++ q :: (raw ++ q :: rest ++ '\x00' :: T)) :
    poke st.buf (P.length + 1 + raw.length) '\x00' =
      .ok ((P ++ [q]) ++ (raw ++ '\x00' :: (rest ++ '\x00' :: T))) := by
  have hp := poke_append (P ++ q :: raw) q '\x00' (rest ++ '\x00' :: T)
  rw [List.length_append, List.length_cons, ← Nat.add_assoc] at hp
  rw [hb]
  simpa [Nat.add_right_comm] using hp

/-- `prepare_string` behind the opening quote. -/
theorem prepareString_literal (P rest T : List Char) (pos : Nat) (hq : q ≠ '\x00') (hraw : '\x00' ∉ raw) :
    Prepared (P ++ [q]) raw.length (rest ++ '\x00' :: T)
      (prepareString pos q
        (((P ++ [q]) ++ (raw ++ '\x00' :: (rest ++ '\x00' :: T))).length + 1)
        ((P ++ [q]) ++ (raw ++ '\x00' :: (rest ++ '\x00' :: T))) (P.length + 1) (P.length + 1))
      (decode pos q false raw) := by
  have hprep := prepareString_eq pos hq (rest ++ '\x00' :: T) (A := P ++ [q]) (G := [])
    (k := ((P ++ [q]) ++ (raw ++ '\x00' :: (rest ++ '\x00' :: T))).length + 1) hraw
    (by simp only [List.length_append, List.length_cons]; omega)
  simp only [List.length_nil, Nat.add_zero, Nat.zero_add, List.nil_append] at hprep
  rwa [show (P ++ [q]).length = P.length + 1 by simp] at hprep

/-! ## String literals -/

theorem iter_string (hb : st.buf = P ++ '"' :: (R ++ '\x00' :: T)) (hs : st.s = P.length)
    (hn : '\x00' ∉ R) :
    iter nested fileidx st = (do
      let s ← (fun x => P.length + 1 + x.1.length + 1) <$> literal P.length (some '"') R
      let b ← poke st.buf (s - 1) '\x00'
      let b ← prepareString P.length '"' (b.length + 1) b (P.length + 1) (P.length + 1)
      .ok { st with
        buf := b, s := s
        build := st.build.insertPart
          (.string ⟨P.length, some fileidx⟩ (.mem (P.length + 1))) }) := by
  have hpeek : peek st.buf st.s = .ok '"' := by rw [hb, hs, peek_append]
  have hd : st.buf.drop (P.length + 1) = R ++ '\x00' :: T := by
    rw [hb]
    exact drop_succ (c := '"') List.drop_left
  have hk := drop_length_lt hd
  have hlit := (literal_eq P.length hd hn hk hk).1 '"' (by rw [Nat.add_sub_cancel, ← hs, hpeek])
  rw [← hlit, bind_assoc, iter, hpeek, ← hs]
  rfl

theorem iter_string_error (hb : st.buf = P ++ '"' :: (R ++ '\x00' :: T)) (hs : st.s = P.length)
    (hn : '\x00' ∉ R) {e : Stop} (h : nextToken P.length ('"' :: R) = .error e) :
    iter nested fileidx st = .error e := by
  rw [iter_string nested fileidx hb hs hn]
  rw [nextToken_quote] at h
  cases hl : literal P.length (some '"') R with
  | error e' =>
    rw [hl] at h
    cases h
    rfl
  | ok x =>
    obtain ⟨raw, rest⟩ := x
    obtain rfl := literal_split hl
    have hraw : '\x00' ∉ raw := fun hm => hn (List.mem_append_left _ hm)
    have hprep := prepareString_literal P rest T P.length (q := '"') (by decide) hraw
    simp only [Read.ok_map, Read.ok_bind, Nat.add_sub_cancel, poke_close hb]
    cases hdec : decode P.length '"' false raw with
    | ok t => simp [hl, hdec] at h
    | error e' =>
      rw [hdec] at hprep
      simp only [hl, hdec, Read.ok_bind, Read.error_bind, Except.error.injEq] at h
      rw [show prepareString _ _ _ _ _ _ = _ from hprep, h]
      rfl

theorem iter_string_ok (hb : st.buf = P ++ '"' :: (R ++ '\x00' :: T)) (hs : st.s = P.length)
    (hn : '\x00' ∉ R) (hl : literal P.length (some '"') R = .ok (raw, rest))
    (hd : decode P.length '"' false raw = .ok t) :
    ∃ Z, Z.length + t.length = raw.length ∧ iter nested fileidx st = .ok
      { st with
        buf := P ++ '"' :: (t ++ '\x00' :: (Z ++ (rest ++ '\x00' :: T)))
        s := P.length + 1 + raw.length + 1
        build := st.build.insertPart
          (.string ⟨P.length, some fileidx⟩ (.mem (P.length + 1))) } := by
  obtain rfl := literal_split hl
  have hraw : '\x00' ∉ raw := fun hm => hn (List.mem_append_left _ hm)
  have hprep := prepareString_literal P rest T P.length (q := '"') (by decide) hraw
  rw [hd] at hprep
  obtain ⟨Z, hZ, hp⟩ := hprep
  refine ⟨Z, hZ, ?_⟩
  rw [iter_string nested fileidx hb hs hn, hl]
  simp only [Read.ok_map, Read.ok_bind, Nat.add_sub_cancel, poke_close hb, hp]
  simp

/-! ## Character literals -/

theorem iter_char (hb : st.buf = P ++ '\'' :: (R ++ '\x00' :: T)) (hs : st.s = P.length) :
    iter nested fileidx st = (do
      let e ← findChar (.error P.length "missing closing '''") '\'' st.buf (P.length + 1)
      let b ← poke st.buf e '\x00'
      let b ← prepareString P.length '\'' (b.length + 1) b (P.length + 1) (P.length + 1)
      let second ← peek b (P.length + 2)
      if second != '\x00' then .error (.error P.length "character literal too long")
      else
        let first ← peek b (P.length + 1)
        .ok { st with
          buf := b, s := e + 1
          build := st.build.insertPart
            (.char ⟨P.length, some fileidx⟩ (signedChar first)) }) := by
  have hpeek : peek st.buf st.s = .ok '\'' := by rw [hb, hs, peek_append]
  rw [iter, hpeek, ← hs]
  rfl

/-- The text up to the first quote. -/
theorem exists_tick {d : Char} {X : List Char} (h : R.dropWhile (· != '\'') = d :: X) :
    R = R.takeWhile (· != '\'') ++ '\'' :: X ∧ '\'' ∉ R.takeWhile (· != '\'') := by
  have hq := List.head?_dropWhile_not (· != '\'') R
  rw [h] at hq
  obtain rfl : d = '\'' := by simpa using hq
  refine ⟨?_, fun hm => ?_⟩
  · rw [← h, List.takeWhile_append_dropWhile]
  · have := List.mem_takeWhile_imp hm
    simp at this

/-- The turn ends like `charLiteral`. -/
theorem iter_char_eq (hb : st.buf = P ++ '\'' :: (R ++ '\x00' :: T)) (hs : st.s = P.length)
    (hn : '\x00' ∉ R) :
    match charLiteral P.length R with
    | .error e => iter nested fileidx st = .error e
    | .ok (i, rest) => ∃ w, w.length + rest.length = R.length ∧ iter nested fileidx st = .ok
        { st with
          buf := P ++ '\'' :: (w ++ (rest ++ '\x00' :: T))
          s := P.length + (w.length + 1)
          build := st.build.insertPart (.char ⟨P.length, some fileidx⟩ i) } := by
  have hd : st.buf.drop (P.length + 1) = R ++ '\x00' :: T := by
    rw [hb]
    exact drop_succ (c := '\'') List.drop_left
  rw [iter_char nested fileidx hb hs, findChar_eq _ (by decide) hd hn, charLiteral]
  cases hX : R.dropWhile (· != '\'') with
  | nil => rfl
  | cons d rest =>
    obtain ⟨hcut, htick⟩ := exists_tick hX
    generalize R.takeWhile (· != '\'') = raw at hcut htick ⊢
    subst hcut
    have hnraw : '\x00' ∉ raw := fun hm => hn (List.mem_append_left _ hm)
    have hnrest : '\x00' ∉ rest := fun hm => hn (by simp [hm])
    have hprep := prepareString_literal P rest T P.length (q := '\'') (by decide) hnraw
    rw [if_neg (List.cons_ne_nil _ _)]
    simp only [Read.ok_bind, poke_close hb]
    cases hdec : decode P.length '\'' false raw with
    | error e =>
      rw [hdec] at hprep
      rw [show prepareString _ _ _ _ _ _ = _ from hprep]
      rfl
    | ok t =>
      rw [hdec] at hprep
      obtain ⟨Z, hZ, hp⟩ := hprep
      have ht := decode_not_mem _ hnraw hdec
      simp only [hp, Read.ok_bind]
      have hdrop : (P ++ ['\''] ++ t ++ '\x00' :: (Z ++ (rest ++ '\x00' :: T))).drop (P.length + 1) =
          t ++ '\x00' :: (Z ++ (rest ++ '\x00' :: T)) := by
        rw [List.append_assoc, ← List.length_singleton (a := '\''), ← List.length_append,
          List.drop_left]
      -- the literal is one character long, or it is empty and ends the text
      have hok : ∀ i : Int, ∃ w, w.length + rest.length = (raw ++ '\'' :: rest).length ∧
          (Except.ok { st with
            buf := P ++ ['\''] ++ t ++ '\x00' :: (Z ++ (rest ++ '\x00' :: T))
            s := P.length + 1 + raw.length + 1
            build := st.build.insertPart (.char ⟨P.length, some fileidx⟩ i) } : Read State) = .ok
          { st with
            buf := P ++ '\'' :: (w ++ (rest ++ '\x00' :: T))
            s := P.length + (w.length + 1)
            build := st.build.insertPart (.char ⟨P.length, some fileidx⟩ i) } := by
        intro i
        refine ⟨t ++ '\x00' :: Z, ?_, ?_⟩
        · simp only [List.length_append, List.length_cons]
          omega
        · have hlen : P.length + 1 + raw.length + 1 =
              P.length + ((t ++ '\x00' :: Z).length + 1) := by
            simp only [List.length_append, List.length_cons]
            omega
          simp [hlen]
      rcases t with _ | ⟨x, _ | ⟨y, t⟩⟩
      · obtain rfl := decode_eq_nil htick hdec
        obtain rfl : Z = [] := List.length_eq_zero_iff.mp (by simpa using hZ)
        have h2 := peek_text (R := rest) (T := T) (drop_succ hdrop)
        simp only [peek_of_drop hdrop, h2, Read.ok_bind]
        cases rest with
        | nil => exact hok 0
        | cons c rest => simp [ne_nul_of_not_mem hnrest]
      · simp only [peek_of_drop hdrop, peek_of_drop (drop_succ hdrop), Read.ok_bind]
        exact hok (signedChar x)
      · have hy := ne_nul_of_not_mem (not_mem_tail ht)
        have h2 : peek _ (P.length + 2) = .ok y := peek_of_drop (drop_succ hdrop)
        simp only [h2, Read.ok_bind, bne_iff_ne, ne_eq, hy, not_false_eq_true, if_true]

end

end Dolorem.Reader
