import Dolorem.Reader.Literal

/-!
# The buffer and the text

`lowerRead`, which overwrites its buffer, and `readText`, which does not, read
every NUL-free text to the same tree or stop for the same reason
(`lowerRead_eq`).

The relation `Sim` between the two says what the buffer holds: the text up to
the cursor, with whatever was written there; the unread text; the rest. Every
string of the tree stands where its pointer says once the end of the last
identifier is overwritten, and nothing the reader does later changes it. A
nested call only moves in the part of the buffer behind the `n` characters it
was given, so its tree depends on that part only.
-/

namespace Dolorem.Reader

/-! ## The pending terminator -/

/-- The text before the cursor, with the last identifier terminated. -/
def settle (P : List Char) : Option Nat → List Char
  | none => P
  | some e => P.set e '\x00'

@[simp] theorem length_settle (P : List Char) (lie : Option Nat) :
    (settle P lie).length = P.length := by
  cases lie <;> simp [settle]

theorem settle_length (P : List Char) : settle P (some P.length) = P :=
  List.set_eq_of_length_le (Nat.le_refl _)

/-- Text that the cursor passes stays, but its first character is the one the
last identifier is terminated with if that is where the identifier ended. -/
theorem settle_cons {P : List Char} {lie : Option Nat} (he : ∀ e, lie = some e → e ≤ P.length)
    (c : Char) (w : List Char) : ∃ d, settle (P ++ c :: w) lie = settle P lie ++ d :: w ∧
      (lie = some P.length → d = '\x00') := by
  cases lie with
  | none => exact ⟨c, rfl, nofun⟩
  | some e =>
    rcases Nat.lt_or_eq_of_le (he e rfl) with hlt | rfl
    · refine ⟨c, by simp [settle, List.set_append_left, hlt], fun h => ?_⟩
      exact absurd (Option.some.inj h) (Nat.ne_of_lt hlt)
    · exact ⟨'\x00', by rw [settle_length]; simp [settle], fun _ => rfl⟩

/-- Writing the terminator of the last identifier. -/
theorem poke_settle {P Y : List Char} {e : Nat} (he : e < P.length) :
    poke (P ++ Y) e '\x00' = .ok (settle P (some e) ++ Y) := by
  simp only [poke, List.length_append, settle, List.set_append_left, he]
  rw [if_pos (by omega)]

theorem poke_settle_end {P T : List Char} {e : Nat} (he : e ≤ P.length) :
    poke (P ++ '\x00' :: T) e '\x00' = .ok (settle P (some e) ++ '\x00' :: T) := by
  rcases Nat.lt_or_eq_of_le he with hlt | rfl
  · exact poke_settle hlt
  · rw [poke_append, settle_length]

/-! ## The simulation -/

/-- The state of the loop with `P` before the cursor, `R` left to read and `T`
behind the terminator; `bt` is the list under construction. -/
structure Sim (n : Nat) (st : State) (P R T : List Char) (bt : Build (List Char)) : Prop where
  buf : st.buf = P ++ (R ++ '\x00' :: T)
  s : st.s = P.length
  le : n ≤ P.length
  lie : ∀ e, st.lastidentend = some e → n ≤ e ∧ e ≤ P.length ∧
    (e = P.length → endsToken (headOr R))
  build : ∀ B X : List Char, (st.lastidentend = some P.length → X.head? = some '\x00') →
    B.drop n = (settle P st.lastidentend).drop n ++ X → st.build.map (cstr B) = bt

/-- What a call on the text `R` behind `P` does: the same tree, or the same
stop. On success only the `R` part of the buffer changes, and the tree depends
on nothing before it. -/
def Same (n : Nat) (P R T : List Char) (x : Read (Buf × Val Ptr)) :
    Read (Val (List Char)) → Prop
  | .error e => x = .error e
  | .ok v => ∃ R' r, R'.length = R.length ∧ x = .ok (P ++ (R' ++ '\x00' :: T), r) ∧
      ∀ B X : List Char, B.drop n = P.drop n ++ (R' ++ '\x00' :: X) → r.map (cstr B) = v

/-- What one turn does: the cursor moves to a new split of the text, and the
settled text before it has only grown. -/
def Moves (n : Nat) (st : State) (P R T : List Char) (x : Read State)
    (y : Read (List Char × Build (List Char))) : Prop :=
  match y with
  | .error e => x = .error e
  | .ok (rest, bt) => ∃ st' P' w, x = .ok st' ∧ Sim n st' P' rest T bt ∧
      settle P' st'.lastidentend = settle P st.lastidentend ++ w ∧
      P'.length + rest.length = P.length + R.length

section
variable {n : Nat} {st : State} {P R T : List Char} {c : Char} {bt : Build (List Char)}

theorem Sim.drop (h : Sim n st P R T bt) : st.buf.drop st.s = R ++ '\x00' :: T := by
  rw [h.buf, h.s, List.drop_left]

/-- The cursor moves over `c`, with `w` behind it in the buffer in place of
what was read there. -/
theorem Sim.advance (h : Sim n st P R T bt) {c : Char} {w rest : List Char} {b : List Char}
    {s : Nat} {build : Build Ptr} {bt' : Build (List Char)}
    (hb : b = P ++ c :: (w ++ (rest ++ '\x00' :: T))) (hs : s = P.length + (w.length + 1))
    (hlen : w.length + 1 + rest.length = R.length)
    (hbuild : ∀ B X : List Char, st.build.map (cstr B) = bt → B.drop (P.length + 1) = w ++ X →
      build.map (cstr B) = bt') :
    Moves n st P R T (.ok { st with buf := b, s := s, build := build }) (.ok (rest, bt')) := by
  have hle := fun e he => (h.lie e he).2.1
  obtain ⟨d, hd, hd0⟩ := settle_cons hle c w
  refine ⟨_, P ++ c :: w, d :: w, rfl, ⟨?_, ?_, ?_, ?_, ?_⟩, hd, ?_⟩
  · simp [hb]
  · simpa using hs
  · have := h.le
    simp only [List.length_append]
    omega
  · intro e he
    have := hle e he
    refine ⟨(h.lie e he).1, ?_, fun heq => ?_⟩
    · simp only [List.length_append]
      omega
    · simp only [List.length_append, List.length_cons] at heq
      omega
  · intro B X _ hB
    simp only [hd] at hB
    have hlen : n ≤ (settle P st.lastidentend).length := by rw [length_settle]; exact h.le
    rw [List.drop_append_of_le_length hlen, List.append_assoc] at hB
    refine hbuild B X (h.build B _ (fun hp => by rw [hd0 hp]; rfl) hB) ?_
    have hBP : B.drop (n + ((settle P st.lastidentend).drop n).length) = d :: (w ++ X) :=
      drop_add_length hB
    rw [List.length_drop, length_settle, Nat.add_sub_cancel' h.le] at hBP
    exact drop_succ hBP
  · simp only [List.length_append, List.length_cons]
    omega

/-- The cursor moves over unchanged text. -/
theorem Sim.skip (h : Sim n st P (c :: R) T bt) {w rest : List Char} {s : Nat}
    {build : Build Ptr} {bt' : Build (List Char)} (hR : R = w ++ rest)
    (hs : s = P.length + (w.length + 1))
    (hbuild : ∀ B : List Char, st.build.map (cstr B) = bt → build.map (cstr B) = bt') :
    Moves n st P (c :: R) T (.ok { st with s := s, build := build }) (.ok (rest, bt')) := by
  subst hR
  refine h.advance (c := c) (w := w) ?_ hs ?_ (fun B X hB _ => hbuild B hB)
  · simpa using h.buf
  · simp only [List.length_cons, List.length_append]
    omega

/-! ## The branches of the loop -/

/-- The two versions of a nested call agree. -/
def NestedSame (nested : Buf → Nat → Val Ptr → Read (Buf × Val Ptr))
    (nested' : Nat → List Char → Build (List Char) → Read (Val (List Char))) : Prop :=
  ∀ (P R T : List Char) (loc : Loc), '\x00' ∉ R → HashClosed R →
    Same P.length P R T (nested (P ++ (R ++ '\x00' :: T)) P.length (.nil loc))
      (nested' P.length R (.start (.nil loc)))

variable {nested : Buf → Nat → Val Ptr → Read (Buf × Val Ptr)}
  {nested' : Nat → List Char → Build (List Char) → Read (Val (List Char))} {fileidx : Nat}

theorem iter_blank (h : Sim n st P (c :: R) T bt) (hc : isBlank c || isCloser c) :
    Moves n st P (c :: R) T (iter nested fileidx st) (turn nested' fileidx P.length (c :: R) bt) := by
  have hi : iter nested fileidx st = .ok { st with s := P.length + 1 } := by
    rw [iter, peek_text h.drop]
    simp only [headOr_cons, Read.ok_bind, hc, if_true, h.s]
    rfl
  rw [hi, turn, nextToken_blank hc]
  exact h.skip (w := []) rfl rfl (fun _ hB => hB)

theorem iter_hash (h : Sim n st P ('#' :: R) T bt) (hn : '\x00' ∉ '#' :: R) :
    Moves n st P ('#' :: R) T (iter nested fileidx st)
      (turn nested' fileidx P.length ('#' :: R) bt) := by
  have hi : iter nested fileidx st =
      .ok { st with s := P.length + ((R.takeWhile (· != '\n')).length + 1) } := by
    have hcom := skipComment_eq h.drop hn
    rw [iter, peek_text h.drop, ← h.s]
    change (skipComment st.buf st.s >>= fun s => .ok { st with s := s }) = _
    rw [hcom]
    rfl
  rw [hi, turn, nextToken_hash]
  exact h.skip List.takeWhile_append_dropWhile.symm rfl (fun _ hB => hB)

theorem iter_semi (h : Sim n st P (';' :: R) T bt) :
    Moves n st P (';' :: R) T (iter nested fileidx st)
      (turn nested' fileidx P.length (';' :: R) bt) := by
  have hnone (hs : st.build.semi P.length = none) :
      iter nested fileidx st = .error (.error P.length "unexpected \";\"") := by
    rw [iter, peek_text h.drop]
    simp only [headOr_cons, Read.ok_bind, h.s, hs]
    rfl
  have hsome {b : Build Ptr} (hs : st.build.semi P.length = some b) :
      iter nested fileidx st = .ok { st with s := P.length + 1, build := b } := by
    rw [iter, peek_text h.drop]
    simp only [headOr_cons, Read.ok_bind, h.s, hs]
    rfl
  -- whether a group is open does not depend on the strings
  have hmap : ∀ B : List Char, st.build.map (cstr B) = bt →
      bt.semi P.length = (st.build.semi P.length).map (Build.map (cstr B)) := by
    rintro B rfl
    exact Build.map_semi _ _ _
  simp only [turn, nextToken_semi, Read.ok_bind, addToken]
  have hB := h.build (settle P st.lastidentend ++ ['\x00']) ['\x00'] (fun _ => rfl)
    (List.drop_append_of_le_length (by rw [length_settle]; exact h.le))
  rw [hmap _ hB]
  cases hs : st.build.semi P.length with
  | none =>
    rw [hnone hs]
    exact rfl
  | some b =>
    rw [hsome hs]
    refine h.skip (w := []) rfl rfl (fun B' hB' => ?_)
    have h1 := hmap _ hB
    rw [hmap _ hB', hs] at h1
    simpa using h1

theorem iter_opener (hnest : NestedSame nested nested') (h : Sim n st P (c :: R) T bt)
    (hn : '\x00' ∉ c :: R) (ht : HashClosed (c :: R) ∨ T = []) (hc : isOpener c) :
    Moves n st P (c :: R) T (iter nested fileidx st) (turn nested' fileidx P.length (c :: R) bt) := by
  have hd : st.buf.drop (P.length + 1) = R ++ '\x00' :: T := by
    rw [← h.s]
    exact drop_succ h.drop
  have hlen : R.length + 1 < st.buf.length := by
    rw [h.buf]
    simp only [List.length_append, List.length_cons]
    omega
  have hov : closer false 1 R ≠ .overrun ∨ T = [] :=
    ht.imp_left fun hR => closer_ne_overrun (hashClosed_cons.mp hR).2 nofun
  have hclose : closingBracket P.length st.buf (st.buf.length + 1) P.length 0 =
      (closer false 1 R).result P.length (P.length + 1) := by
    rw [← closingBracket_eq P.length hd (not_mem_tail hn) hlen Nat.one_pos hov, closingBracket,
      ← h.s, peek_text h.drop]
    rcases opener_cases hc with rfl | rfl <;> rfl
  have hi : iter nested fileidx st =
      (closingBracket P.length st.buf (st.buf.length + 1) P.length 0 >>= fun e =>
        poke st.buf e '\x00' >>= fun b =>
        nested b (P.length + 1) (.nil ⟨P.length, some fileidx⟩) >>= fun x =>
        .ok { st with
          buf := x.1, s := e + 1
          build := if c == '{' then st.build.insertScope fileidx (.lit "scope".toList) x.2
            else st.build.insertPart x.2 }) := by
    rw [iter, peek_text h.drop, h.s]
    rcases opener_cases hc with rfl | rfl <;> rfl
  rw [hi, hclose, turn, nextToken_opener hc]
  cases hcl : closer false 1 R with
  | missing => rfl
  | overrun => rfl
  | found body rest =>
    obtain ⟨d, _, rfl⟩ := closer_split hcl
    have hpoke : poke st.buf (P.length + 1 + body.length) '\x00' =
        .ok ((P ++ [c]) ++ (body ++ '\x00' :: (rest ++ '\x00' :: T))) := by
      have hp := poke_append (P ++ c :: body) d '\x00' (rest ++ '\x00' :: T)
      rw [List.length_append, List.length_cons, ← Nat.add_assoc] at hp
      rw [h.buf]
      simpa [Nat.add_right_comm] using hp
    have hsame := hnest (P ++ [c]) body (rest ++ '\x00' :: T) ⟨P.length, some fileidx⟩
      (fun hm => hn (by simp [hm])) (closer_found_hashClosed hcl).2
    rw [List.length_append, List.length_singleton] at hsame
    simp only [Closing.result, Read.ok_bind, hpoke, addToken]
    cases hv : nested' (P.length + 1) body (.start (.nil ⟨P.length, some fileidx⟩)) with
    | error e =>
      rw [hv] at hsame
      rw [show nested _ _ _ = _ from hsame]
      rfl
    | ok v =>
      rw [hv] at hsame
      obtain ⟨body', r, hl, hr, hmap⟩ := hsame
      rw [hr]
      have hadv : ∀ (build : Build Ptr) (bt' : Build (List Char)),
          (∀ B : List Char, st.build.map (cstr B) = bt → r.map (cstr B) = v →
            build.map (cstr B) = bt') →
          Moves n st P (c :: (body ++ d :: rest)) T
            (.ok { st with
              buf := (P ++ [c]) ++ (body' ++ '\x00' :: (rest ++ '\x00' :: T))
              s := P.length + 1 + body.length + 1, build := build }) (.ok (rest, bt')) := by
        intro build bt' hbuild
        refine h.advance (c := c) (w := body' ++ ['\x00']) (by simp) ?_ ?_ fun B X hB hX => ?_
        · simp only [List.length_append, List.length_singleton, hl]
          omega
        · simp only [List.length_append, List.length_cons, List.length_nil, hl]
          omega
        · refine hbuild B hB (hmap B X ?_)
          rw [hX, List.drop_eq_nil_of_le (by simp)]
          simp
      cases hcurly : c == '{' with
      | true =>
        refine hadv _ _ fun B hB hBr => ?_
        rw [if_pos rfl, Build.map_insertScope, hB, hBr]
        rfl
      | false =>
        refine hadv _ _ fun B hB hBr => ?_
        rw [if_neg Bool.false_ne_true, Build.map_insertPart, hB, hBr]

theorem iter_quote (h : Sim n st P ('"' :: R) T bt) (hn : '\x00' ∉ '"' :: R) :
    Moves n st P ('"' :: R) T (iter nested fileidx st)
      (turn nested' fileidx P.length ('"' :: R) bt) := by
  have hnR := not_mem_tail hn
  rw [turn]
  cases hnt : nextToken P.length ('"' :: R) with
  | error e => exact iter_string_error nested fileidx h.buf h.s hnR hnt
  | ok x =>
    obtain ⟨tok, rest⟩ := x
    obtain ⟨raw, t, hl, hd, rfl⟩ := nextToken_quote_ok hnt
    obtain ⟨Z, hZ, hi⟩ := iter_string_ok nested fileidx h.buf h.s hnR hl hd
    have hraw : '\x00' ∉ raw := fun hm => hnR (by rw [literal_split hl]; simp [hm])
    have hlen := congrArg List.length (literal_split hl)
    simp only [List.length_append, List.length_cons] at hlen
    rw [hi]
    refine h.advance (c := '"') (w := t ++ '\x00' :: Z) (by simp) ?_ ?_ fun B X hB hX => ?_
    · simp only [List.length_append, List.length_cons]
      omega
    · simp only [List.length_append, List.length_cons]
      omega
    · rw [Build.map_insertPart, hB, Val.map, cstr_of_drop (decode_not_mem _ hraw hd)
        (X := Z ++ X) (by simpa using hX)]
      rfl

theorem iter_tick (h : Sim n st P ('\'' :: R) T bt) (hn : '\x00' ∉ '\'' :: R) :
    Moves n st P ('\'' :: R) T (iter nested fileidx st)
      (turn nested' fileidx P.length ('\'' :: R) bt) := by
  have hi := iter_char_eq nested fileidx h.buf h.s (not_mem_tail hn)
  rw [turn, nextToken_tick]
  cases hc : charLiteral P.length R with
  | error e =>
    rw [hc] at hi
    exact hi
  | ok x =>
    obtain ⟨i, rest⟩ := x
    rw [hc] at hi
    obtain ⟨w, hlen, hi⟩ := hi
    rw [hi]
    refine h.advance (c := '\'') rfl rfl ?_ fun B X hB _ => ?_
    · simp only [List.length_cons]
      omega
    · rw [Build.map_insertPart, hB]
      rfl

/-- A text is its first word, and what ends it. -/
theorem word_split (R T : List Char) :
    ∃ d Y, R ++ '\x00' :: T = word R ++ d :: Y ∧ endsToken d := by
  obtain ⟨Y, hY⟩ := exists_cut (!endsToken ·) R T
  refine ⟨_, Y, hY, ?_⟩
  rcases headOr_dropWhile (!endsToken ·) R with ⟨_, he⟩ | ⟨he, _⟩
  · rw [he]
    rfl
  · simpa using he

theorem word_append (R : List Char) : word R ++ afterWord R = R :=
  List.takeWhile_append_dropWhile

theorem word_mem (R : List Char) : ∀ c ∈ word R, endsToken c = false := by
  intro c hc
  simpa using List.mem_takeWhile_imp hc

theorem numeric_word (hc : endsToken c = false) (h : numeric (c :: R)) :
    numeric (word (c :: R)) := by
  rw [word, List.takeWhile_cons_of_pos (by simp [hc])]
  by_cases hdash : c = '-'
  · subst hdash
    cases R with
    | nil => exact h
    | cons d R =>
      have hd : endsToken d = false := by simpa [numeric] using h
      simp [numeric, hd]
  · simpa [numeric, hdash] using h

theorem plain_split (hc : isSpecial c = false) (h0 : c ≠ '\x00') :
    ∃ w, word (c :: R) = c :: w ∧ R = w ++ afterWord (c :: R) := by
  have he := endsToken_of_plain hc h0
  refine ⟨word R, ?_, ?_⟩
  · rw [word, List.takeWhile_cons_of_pos (by simp [he])]
    rfl
  · rw [afterWord, List.dropWhile_cons_of_pos (by simp [he])]
    exact List.takeWhile_append_dropWhile.symm

theorem iter_plain_eq (h : Sim n st P (c :: R) T bt) (hc : isSpecial c = false) :
    iter nested fileidx st =
      if numeric (c :: R) then readNumber st fileidx else readIdent st fileidx := by
  simp only [isSpecial, Bool.or_eq_false_iff] at hc
  rw [iter, peek_text h.drop, startsNumber_eq h.drop]
  simp only [headOr_cons, Read.ok_bind, hc, Bool.or_false, Bool.false_eq_true, if_false]

theorem iter_number (h : Sim n st P (c :: R) T bt) (hn : '\x00' ∉ c :: R)
    (hc : isSpecial c = false) (hnum : numeric (c :: R)) :
    Moves n st P (c :: R) T (iter nested fileidx st)
      (turn nested' fileidx P.length (c :: R) bt) := by
  have h0 := ne_nul_of_not_mem hn
  have he := endsToken_of_plain hc h0
  obtain ⟨d, Y, hword, hd⟩ := word_split (c :: R) T
  obtain ⟨w, hw, hR⟩ := plain_split (R := R) hc h0
  have htok : (st.buf.drop st.s).take (st.s + (word (c :: R)).length - st.s) = word (c :: R) := by
    rw [h.drop, hword, Nat.add_sub_cancel_left, List.take_left]
  have hstr : strtol (st.buf.drop st.s) = strtol (word (c :: R)) := by
    rw [h.drop, hword, strtol_append hd (numeric_word he hnum)]
  have hi : iter nested fileidx st = .ok { st with
      s := P.length + (w.length + 1)
      build := st.build.insertPart (if (word (c :: R)).contains '.' then
          .float ⟨P.length, some fileidx⟩ (word (c :: R))
        else .int ⟨P.length, some fileidx⟩ (strtol (word (c :: R)))) } := by
    rw [iter_plain_eq h hc, if_pos hnum]
    simp only [readNumber, tokenEnd_eq h.drop, Read.ok_bind, htok, hstr]
    simp only [h.s, hw, List.length_cons]
    rfl
  rw [hi, turn, nextToken_plain hc, if_pos hnum, numberToken]
  cases hdot : (word (c :: R)).contains '.' with
  | true =>
    refine h.skip hR rfl fun B hB => ?_
    rw [Build.map_insertPart, hB]
    rfl
  | false =>
    refine h.skip hR rfl fun B hB => ?_
    rw [Build.map_insertPart, hB]
    rfl

theorem iter_ident (h : Sim n st P (c :: R) T bt) (hn : '\x00' ∉ c :: R)
    (hc : isSpecial c = false) (hnum : numeric (c :: R) = false) :
    Moves n st P (c :: R) T (iter nested fileidx st)
      (turn nested' fileidx P.length (c :: R) bt) := by
  have h0 := ne_nul_of_not_mem hn
  have he := endsToken_of_plain hc h0
  -- the last identifier ended before this one starts
  have hlt : ∀ e, st.lastidentend = some e → e < P.length := by
    intro e hlie
    obtain ⟨_, hle, hend⟩ := h.lie e hlie
    refine Nat.lt_of_le_of_ne hle fun heq => ?_
    have := hend heq
    simp [he] at this
  generalize htok : (word (c :: R)).map dashToUnderscore = tok
  have hlen : tok.length = (word (c :: R)).length := by rw [← htok, List.length_map]
  have htokmem : ∀ x ∈ tok, endsToken x = false := by
    intro x hx
    rw [← htok, List.mem_map] at hx
    obtain ⟨y, hy, rfl⟩ := hx
    unfold dashToUnderscore
    split
    · rfl
    · exact word_mem _ y hy
  have hident := identEnd_eq (T := T) hn (P := P) (k := st.buf.length + 1)
    (drop_length_lt (s := st.s) h.drop)
  rw [htok, ← hlen, ← h.buf] at hident
  obtain ⟨d, Y, hword, hd⟩ := word_split (c :: R) T
  have hrest : afterWord (c :: R) ++ '\x00' :: T = d :: Y := by
    rw [← word_append (c :: R), List.append_assoc, word_append (c :: R)] at hword
    exact List.append_cancel_left hword
  have hhead : endsToken (headOr (afterWord (c :: R))) := by
    cases hr : afterWord (c :: R) with
    | nil => rfl
    | cons x X =>
      rw [hr] at hrest
      rw [headOr_cons, (List.cons.inj hrest).1]
      exact hd
  have hQ : (settle P st.lastidentend).length = P.length := length_settle _ _
  obtain ⟨w', v, hl, ht, hv⟩ := transformIdentifier_eq ⟨P.length, some fileidx⟩
    (settle P st.lastidentend) (k := (settle P st.lastidentend ++ (tok ++ d :: Y)).length + 1)
    (n := tok.length) (w := tok) (Y := Y) hd htokmem
    (by simp only [List.length_append]; omega) (Nat.le_refl _)
  -- the zero behind the last identifier is written before this one is split
  have hi : iter nested fileidx st = .ok
      { buf := settle P st.lastidentend ++ (w' ++ (afterWord (c :: R) ++ '\x00' :: T))
        s := P.length + tok.length
        build := st.build.insertPart v
        lastidentend := some (P.length + tok.length) } := by
    rw [iter_plain_eq h hc, hnum, if_neg Bool.false_ne_true, readIdent, h.s, hident, hrest]
    rw [hQ] at ht
    cases hlie : st.lastidentend with
    | none =>
      rw [hlie] at ht
      simp only [settle, Read.ok_bind, Read.pure_eq] at ht ⊢
      rw [ht]
      rfl
    | some e =>
      rw [hlie] at ht
      simp only [Read.ok_bind, poke_settle (hlt e hlie)]
      rw [ht]
      rfl
  rw [hi, turn, nextToken_plain hc, hnum, if_neg Bool.false_ne_true, htok]
  have hP' : (settle P st.lastidentend ++ w').length = P.length + tok.length := by
    rw [List.length_append, hQ, hl]
  refine ⟨_, settle P st.lastidentend ++ w', w', rfl, ⟨?_, hP'.symm, ?_, ?_, ?_⟩, ?_, ?_⟩
  · simp
  · exact Nat.le_trans h.le (hP' ▸ Nat.le_add_right _ _)
  · intro e hlie
    obtain rfl := Option.some.inj hlie
    refine ⟨Nat.le_trans h.le (Nat.le_add_right _ _), Nat.le_of_eq hP'.symm, fun _ => hhead⟩
  · intro B X hX hB
    simp only [← hP', settle_length, true_implies] at hX hB
    rw [List.drop_append_of_le_length (hQ.symm ▸ h.le), List.append_assoc] at hB
    have hBP : B.drop (n + ((settle P st.lastidentend).drop n).length) = w' ++ X :=
      drop_add_length hB
    rw [List.length_drop, hQ, Nat.add_sub_cancel' h.le, ← hQ] at hBP
    rw [Build.map_insertPart, hv B X hX hBP, h.build B _ (fun hp => ?_) hB]
    · rfl
    · exact absurd (hlt _ hp) (Nat.lt_irrefl _)
  · simp only [← hP', settle_length]
  · rw [hP', Nat.add_assoc, hlen, ← List.length_append, word_append]

/-- One turn of the loop, in the buffer and on the text. -/
theorem iter_eq (fileidx : Nat) (hnest : NestedSame nested nested') (h : Sim n st P (c :: R) T bt)
    (hn : '\x00' ∉ c :: R) (ht : HashClosed (c :: R) ∨ T = []) :
    Moves n st P (c :: R) T (iter nested fileidx st) (turn nested' fileidx P.length (c :: R) bt) := by
  cases lead c with
  | blank hc => exact iter_blank h hc
  | opener hc => exact iter_opener hnest h hn ht hc
  | quote hc => subst hc; exact iter_quote h hn
  | tick hc => subst hc; exact iter_tick h hn
  | hash hc => subst hc; exact iter_hash h hn
  | semi hc => subst hc; exact iter_semi h
  | plain hc =>
    cases hnum : numeric (c :: R) with
    | true => exact iter_number h hn hc hnum
    | false => exact iter_ident h hn hc hnum

theorem Sim.start (P R T : List Char) (loc : Loc) :
    Sim P.length (.start (P ++ (R ++ '\x00' :: T)) P.length (.nil loc)) P R T (.start (.nil loc)) where
  buf := rfl
  s := rfl
  le := Nat.le_refl _
  lie := nofun
  build := fun _ _ _ _ => rfl

/-- The whole loop, from any state that stands for the text. -/
theorem actualRead_eq (fileidx k : Nat) (h : Sim n st P R T bt) (hn : '\x00' ∉ R)
    (ht : HashClosed R ∨ T = []) :
    Same n (settle P st.lastidentend) R T (actualRead fileidx k st)
      (readText fileidx k P.length R bt) := by
  induction k generalizing n st P R T bt with
  | zero => rfl
  | succ k ih =>
    have hnest : NestedSame (fun b a r => actualRead fileidx k (.start b a r))
        (readText fileidx k) := fun P R T loc hR hclosed => ih (Sim.start P R T loc) hR (.inl hclosed)
    cases R with
    | nil =>
      have hread : actualRead fileidx (k + 1) st =
          .ok (settle P st.lastidentend ++ '\x00' :: T, st.build.root) := by
        rw [actualRead, peek_text h.drop, h.buf]
        cases hlie : st.lastidentend with
        | none => rfl
        | some e =>
          have hpoke := poke_settle_end (T := T) (h.lie e hlie).2.1
          simp only [headOr_nil, Read.ok_bind, beq_self_eq_true, if_true, List.nil_append, hpoke]
          rfl
      refine ⟨[], st.build.root, rfl, hread, fun B X hB => ?_⟩
      rw [← h.build B ('\x00' :: X) (fun _ => rfl) hB]
      rfl
    | cons c R =>
      have hc : (c == '\x00') = false := beq_eq_false_iff_ne.mpr (ne_nul_of_not_mem hn)
      have hturn := iter_eq fileidx hnest h hn ht
      rw [actualRead, peek_text h.drop]
      simp only [headOr_cons, Read.ok_bind, hc, Bool.false_eq_true, if_false, readText]
      cases ho : turn (readText fileidx k) fileidx P.length (c :: R) bt with
      | error e =>
        rw [ho] at hturn
        rw [show iter _ _ _ = _ from hturn]
        rfl
      | ok x =>
        obtain ⟨rest, bt'⟩ := x
        rw [ho] at hturn
        obtain ⟨st', P', w, hi, hsim, hsettle, hlen⟩ := hturn
        have hsuf : rest <:+ c :: R := by
          rw [turn] at ho
          cases hnt : nextToken P.length (c :: R) with
          | error e => simp [hnt] at ho
          | ok y =>
            rw [hnt, Read.ok_bind] at ho
            cases ha : addToken (readText fileidx k) fileidx P.length bt y.1 with
            | error e => simp [ha] at ho
            | ok b =>
              simp only [ha, Read.ok_bind, Read.pure_eq, Except.ok.injEq, Prod.mk.injEq] at ho
              rw [← ho.1]
              exact (nextToken_suffix (ne_nul_of_not_mem hn) hnt).trans (List.suffix_cons c R)
        have hrec := ih hsim (fun hm => hn (hsuf.subset hm)) (ht.imp_left fun hR => hR.suffix hsuf)
        have hpos : P.length + ((c :: R).length - rest.length) = P'.length := by
          have := hsuf.length_le
          omega
        have hw := congrArg List.length hsettle
        simp only [length_settle, List.length_append] at hw
        rw [hi]
        simp only [Read.ok_bind, hpos]
        cases hv : readText fileidx k P'.length rest bt' with
        | error e =>
          rw [hv] at hrec
          exact hrec
        | ok v =>
          rw [hv] at hrec
          obtain ⟨R', r, hl, hr, hmap⟩ := hrec
          refine ⟨w ++ R', r, ?_, ?_, fun B X hB => hmap B X ?_⟩
          · rw [List.length_append, hl]
            omega
          · rw [hr, hsettle]
            simp
          · rw [hB, hsettle, List.drop_append_of_le_length (by rw [length_settle]; exact h.le)]
            simp

end

/-- `lower_read` reads a NUL-free text to the tree `readText` computes, and
stops where and for the reason `readText` stops. -/
theorem lowerRead_eq (text : List Char) (fileidx : Nat) (hn : '\x00' ∉ text) :
    lowerRead text fileidx =
      readText fileidx (text.length + 2) 0 text (.start (.nil ⟨0, some fileidx⟩)) := by
  have h := actualRead_eq fileidx (text.length + 2) (Sim.start [] text [] ⟨0, some fileidx⟩) hn
    (.inr rfl)
  rw [lowerRead, List.length_append, List.length_singleton]
  simp only [List.length_nil, List.nil_append] at h
  cases hv : readText fileidx (text.length + 2) 0 text (.start (.nil ⟨0, some fileidx⟩)) with
  | error e =>
    rw [hv] at h
    rw [show actualRead _ _ _ = _ from h]
    rfl
  | ok v =>
    rw [hv] at h
    obtain ⟨R', r, _, hr, hmap⟩ := h
    rw [hr, ← hmap _ [] rfl]
    rfl

end Dolorem.Reader
