import Dolorem.Reader.Sources

/-!
# Positions in the messages

A message about a value names the line and the column its position lies at.
`loc_right_iff` says for which positions they are right: the loop takes a
newline at the position itself for the end of an earlier line.
-/

namespace Dolorem.Reader

/-- What `get_loc_info` stores; `line` is counted from the start of the text. -/
structure LocInfo where
  name : String
  lineno : Nat
  chr : Int
  line : Nat
deriving DecidableEq, Repr

namespace Sources

/-- The loop of `get_loc_info` from place `s` on: `mylineno` and `lastline` at its end. -/
def locLoop (stop : Nat) : List Char → Nat → Nat → Nat → Nat × Nat
  | [], _, mylineno, lastline => (mylineno, lastline)
  | c :: rest, s, mylineno, lastline =>
    let (mylineno, lastline) := if c = '\n' then (mylineno + 1, s + 1) else (mylineno, lastline)
    if s = stop then (mylineno, lastline) else locLoop stop rest (s + 1) mylineno lastline

/-- `get_loc_info`, for a value with this `FileIdx` and this `CharIdx`. -/
def getLocInfo (st : Sources) (fileIdx charIdx : Nat) : LocInfo :=
  let file := st.getSourceFile fileIdx
  let (mylineno, lastline) :=
    match file.content with
    | none => (1, 0)
    | some content => locLoop charIdx content 0 1 0
  ⟨file.name, mylineno, (charIdx : Int) - lastline, lastline⟩

end Sources

/-- The spaces that the loop `while (chr--)` of `print_location_hint` writes. -/
def padding : Nat → Int → Option (List Char)
  | 0, _ => none
  | n + 1, chr => if chr = 0 then some [] else (padding n (chr - 1)).map (' ' :: ·)

/-! ## Lines -/

/-- `start` is where the line of the offset `i` begins. -/
structure LineStart (text : List Char) (i start : Nat) : Prop where
  le : start ≤ i
  after : start = 0 ∨ text[start - 1]? = some '\n'
  last : ∀ j, start ≤ j → j < i → text[j]? ≠ some '\n'

/-- The message about the offset `i` of the text names its line and its column. -/
structure LocRight (text : List Char) (i : Nat) (info : LocInfo) : Prop where
  lineno : info.lineno = 1 + (text.take i).count '\n'
  line : LineStart text i info.line
  chr : info.chr = (i - info.line : Nat)
  padded : ∃ fuel, padding fuel info.chr = some (List.replicate (i - info.line) ' ')

section

variable {text content : List Char} {i j s stop start mylineno lastline : Nat}

theorem LineStart.zero (text : List Char) : LineStart text 0 0 :=
  ⟨Nat.le_refl 0, Or.inl rfl, fun _ _ hj => absurd hj (Nat.not_lt_zero _)⟩

theorem LineStart.newline (h : text[s]? = some '\n') : LineStart text (s + 1) (s + 1) :=
  ⟨Nat.le_refl _, Or.inr h, fun _ hj hlt => absurd hlt (Nat.not_lt.2 hj)⟩

theorem LineStart.step (h : text[s]? ≠ some '\n') (hline : LineStart text s start) :
    LineStart text (s + 1) start := by
  refine ⟨Nat.le_succ_of_le hline.le, hline.after, fun j hj hlt => ?_⟩
  rcases Nat.lt_succ_iff_lt_or_eq.1 hlt with hlt | rfl
  · exact hline.last j hj hlt
  · exact h

theorem LineStart.back (h : text[s]? ≠ some '\n') (hline : LineStart text (s + 1) start) :
    LineStart text s start := by
  refine ⟨?_, hline.after, fun j hj hlt => hline.last j hj (Nat.lt_succ_of_lt hlt)⟩
  rcases Nat.lt_succ_iff_lt_or_eq.1 (Nat.lt_succ_of_le hline.le) with hlt | rfl
  · exact Nat.le_of_lt_succ hlt
  · rcases hline.after with hzero | hafter
    · cases hzero
    · exact absurd hafter h

theorem count_take_succ {c : Char} (h : text[s]? = some c) :
    (text.take (s + 1)).count '\n' = (text.take s).count '\n' + if c = '\n' then 1 else 0 := by
  rw [List.take_add_one, h, List.count_append]
  by_cases hc : c = '\n' <;> simp [hc]

/-- Both variables are right for the place `m`. -/
def LineState (text : List Char) (m : Nat) (p : Nat × Nat) : Prop :=
  p.1 = 1 + (text.take m).count '\n' ∧ LineStart text m p.2

/-- By induction on the text that is left: the loop comes to the place just after `stop`, or to
the end. -/
theorem locLoop_state (htext : content = text.drop s) (hs : s ≤ text.length) (hstop : s ≤ stop)
    (h : LineState text s (mylineno, lastline)) :
    LineState text (min (stop + 1) text.length)
      (Sources.locLoop stop content s mylineno lastline) := by
  induction content generalizing s mylineno lastline with
  | nil =>
    have hend : s = text.length := Nat.le_antisymm hs (List.drop_eq_nil_iff.1 htext.symm)
    rw [Nat.min_eq_right (by omega), ← hend]
    exact h
  | cons c rest ih =>
    have hlt : s < text.length := by
      refine Nat.lt_of_not_le fun hle => ?_
      rw [List.drop_eq_nil_of_le hle] at htext
      cases htext
    rw [List.drop_eq_getElem_cons hlt] at htext
    injection htext with hc hrest
    have hget : text[s]? = some c := by rw [hc, List.getElem?_eq_getElem hlt]
    have hnext : LineState text (s + 1)
        (if c = '\n' then (mylineno + 1, s + 1) else (mylineno, lastline)) := by
      obtain ⟨hcount, hline⟩ := h
      rw [LineState, count_take_succ hget]
      by_cases hnl : c = '\n'
      · rw [if_pos hnl, if_pos hnl]
        exact ⟨by dsimp only at hcount ⊢; omega, LineStart.newline (hnl ▸ hget)⟩
      · rw [if_neg hnl, if_neg hnl]
        refine ⟨hcount, hline.step fun hnl' => hnl ?_⟩
        exact Option.some.inj (hget.symm.trans hnl')
    rw [Sources.locLoop]
    generalize (if c = '\n' then (mylineno + 1, s + 1) else (mylineno, lastline)) = p at hnext ⊢
    obtain ⟨mylineno, lastline⟩ := p
    dsimp only
    by_cases heq : s = stop
    · subst heq
      rw [Nat.min_eq_left hlt, if_pos rfl]
      exact hnext
    · rw [if_neg heq]
      exact ih hrest hlt (by omega) hnext

/-- The padding of a column is that many spaces. -/
theorem padding_natCast (n : Nat) : padding (n + 1) n = some (List.replicate n ' ') := by
  induction n with
  | zero => rfl
  | succ n ih =>
    rw [padding, if_neg (by omega), Int.natCast_succ, Int.add_sub_cancel, ih]
    rfl

end

/-- The position of a registered text is right if and only if there is no newline at it. -/
theorem loc_right_iff (st : Sources) (idx : Nat) (name : String) (src : Source) (i : Nat)
    (hfile : st.getSourceFile idx = ⟨name, some src.text⟩) (hi : i ≤ src.text.length) :
    ((st.getLocInfo idx i).name = name ∧ LocRight src.text i (st.getLocInfo idx i)) ↔
      src.text[i]? ≠ some '\n' := by
  have hstart : LineState src.text 0 (1, 0) := ⟨rfl, LineStart.zero src.text⟩
  have hstate := locLoop_state rfl (Nat.zero_le _) (Nat.zero_le i) hstart
  rw [List.drop_zero] at hstate
  obtain ⟨hcount, hline⟩ := hstate
  simp only [Sources.getLocInfo, hfile, true_and]
  generalize Sources.locLoop i src.text 0 1 0 = p at hcount hline ⊢
  constructor
  · intro hright hnl
    -- The newline has been counted too.
    have hlt : i < src.text.length := (List.getElem?_eq_some_iff.1 hnl).1
    rw [Nat.min_eq_left hlt, count_take_succ hnl, if_pos rfl] at hcount
    have hlineno : p.1 = 1 + (src.text.take i).count '\n' := hright.lineno
    omega
  · intro hnl
    have hright : LineState src.text i p := by
      rcases Nat.eq_or_lt_of_le hi with heq | hlt
      · rw [Nat.min_eq_right (by omega), ← heq] at hcount hline
        exact ⟨hcount, hline⟩
      · rw [Nat.min_eq_left hlt] at hcount hline
        rw [count_take_succ (List.getElem?_eq_getElem hlt)] at hcount
        rw [List.getElem?_eq_getElem hlt] at hnl
        rw [if_neg fun heq => hnl (congrArg some heq)] at hcount
        exact ⟨hcount, hline.back (List.getElem?_eq_getElem hlt ▸ hnl)⟩
    have hchr : (i : Int) - p.2 = (i - p.2 : Nat) := (Int.natCast_sub hright.2.le).symm
    exact ⟨hright.1, hright.2, hchr, i - p.2 + 1, by rw [hchr]; exact padding_natCast _⟩

/-- The second line of a text. -/
theorem loc_right_iff_example :
    let st : Sources := ⟨fun _ => ⟨['m', 'a', 'i', 'n'], by decide⟩,
      [⟨.buffer 0, .block ['a', '\n', 'b']⟩], 1⟩
    ((st.getLocInfo 1 2).name = "main" ∧ LocRight ['a', '\n', 'b'] 2 (st.getLocInfo 1 2)) ↔
      ['a', '\n', 'b'][2]? ≠ some '\n' :=
  loc_right_iff ⟨fun _ => ⟨['m', 'a', 'i', 'n'], by decide⟩,
    [⟨.buffer 0, .block ['a', '\n', 'b']⟩], 1⟩ 1 "main" ⟨['a', '\n', 'b'], by decide⟩ 2 rfl
    (by decide)

/-- From a negative column on, the loop does not come to zero. -/
theorem padding_negative (fuel : Nat) {chr : Int} (h : chr < 0) : padding fuel chr = none := by
  induction fuel generalizing chr with
  | zero => rfl
  | succ n ih => rw [padding, if_neg (by omega), ih (by omega), Option.map_none]

/-- The list that a text with a newline at its start is read as lies at offset zero: its line
number is two, and the padding does not end. -/
theorem newline_position_wrong : ∃ v st,
    Sources.readStdin ⟨['\n'], by decide⟩ (.init fun _ => ⟨[], by decide⟩) = .ok (v, st) ∧ v.loc = ⟨0, some 1⟩ ∧
      (st.getLocInfo 1 0).lineno = 2 ∧ (st.getLocInfo 1 0).line = 1 ∧
      (∀ fuel, padding fuel (st.getLocInfo 1 0).chr = none) ∧
      ¬ LocRight ['\n'] 0 (st.getLocInfo 1 0) := by
  refine ⟨_, _, rfl, rfl, rfl, rfl, fun fuel => padding_negative fuel (by decide), fun hright => ?_⟩
  exact absurd hright.lineno (by decide)

end Dolorem.Reader
