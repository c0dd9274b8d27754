import Dolorem.Reader.Elements
import Dolorem.Reader.Numerals
import Dolorem.Reader.Print
import Mathlib.Data.List.Induction

/-!
# Member paths

`transform_identifier` splits an identifier at its last colon and goes on with
the part before it, so a path nests to the left. `member_paths_nest`: wherever
the word `a:b:c` stands, the tree has `(memb (memb a b) c)` there.
-/

namespace Dolorem.Reader

/-! ## Words and where they stand -/

/-- The word `w` stands at offset `q` of a text that itself starts at `pos`, in any depth, where a
number or an identifier is read. -/
inductive StandsAt : Nat → List Char → Nat → List Char → Prop
  | here {pos : Nat} {c : Char} {R : List Char} : isSpecial c = false →
      StandsAt pos (c :: R) pos (word (c :: R))
  | inside {pos q : Nat} {c : Char} {R rest body w : List Char} {curly : Bool} :
      nextToken pos (c :: R) = .ok (.group curly body, rest) → StandsAt (pos + 1) body q w →
      StandsAt pos (c :: R) q w
  | later {pos q : Nat} {c : Char} {R rest w : List Char} {t : Token} :
      nextToken pos (c :: R) = .ok (t, rest) →
      StandsAt (pos + ((c :: R).length - rest.length)) rest q w → StandsAt pos (c :: R) q w

/-- The segment behind a colon: an identifier, or a numeral in the range of `long`. -/
structure Segment where
  chars : List Char
  chars_ne_nil : chars ≠ []
  no_colon : ':' ∉ chars
  plain : (∀ c r, chars = c :: r → isDigit c = false) ∨
    (∀ c ∈ chars, isDigit c) ∧ digitsVal chars < 2 ^ 63

namespace Segment

/-- The value of a numeral, or the identifier. -/
def node (s : Segment) : Sexp :=
  if s.chars.all isDigit then .int (digitsVal s.chars)
  else .ident (s.chars.map dashToUnderscore)

end Segment

/-- The first segment of a path, which makes it an identifier. -/
structure Root where
  chars : List Char
  no_colon : ':' ∉ chars
  plain : ∃ c r, chars = c :: r ∧ isDigit c = false ∧ c ≠ '-'

/-- `s1:s2:...:sn`. -/
def pathWord (s : Root) (segs : List Segment) : List Char :=
  s.chars ++ segs.flatMap fun b => ':' :: b.chars

/-- `(memb (... (memb s1 s2) ...) sn)`. -/
def pathTree (s : Root) (segs : List Segment) : Sexp :=
  segs.foldl (fun t b => .ofList [.ident "memb".toList, t, b.node])
    (.ident (s.chars.map dashToUnderscore))

/-! ## The tree of a path -/

section

variable {A B w R : List Char} {pos q : Nat}

/-- The last colon is the one behind which there is none. -/
theorem splitColon_append (hB : ':' ∉ B) : splitColon (A ++ ':' :: B) = some (A, B) := by
  induction A with
  | nil => simp [splitColon, splitColon_none hB]
  | cons c A ih => simp [splitColon, ih]

namespace Segment

theorem segmentTree_eq (s : Segment) : segmentTree s.chars = s.node := by
  obtain ⟨chars, hne, -, hplain⟩ := s
  obtain ⟨c, r, rfl⟩ := List.exists_cons_of_ne_nil hne
  unfold node segmentTree segmentVal
  rw [numeric_map_dash]
  rcases hplain with hident | ⟨hdigits, hlt⟩
  · have hc := hident c r rfl
    simp only [hc, Bool.false_eq_true, if_false, List.all_cons, Bool.false_and]
    rfl
  · have hdash : (c :: r).map dashToUnderscore = c :: r :=
      map_dash_of_not_mem fun h => absurd (hdigits _ h) (by decide)
    have hdot : '.' ∉ c :: r := fun h => absurd (hdigits _ h) (by decide)
    have hall : (c :: r).all isDigit = true := List.all_eq_true.2 hdigits
    have htake : (c :: r).takeWhile isDigit = c :: r := List.takeWhile_eq_self_iff.2 hdigits
    have hpos : 0 ≤ digitsVal (c :: r) := by
      rw [digitsVal_eq hdigits]
      exact Int.natCast_nonneg _
    have hc := hdigits c List.mem_cons_self
    have hval : strtol (c :: r) = digitsVal (c :: r) := by
      rw [strtol_digit hc, htake]
      omega
    rw [hdash, if_pos hc, if_neg (mt List.contains_iff_mem.1 hdot), if_pos hall, hval]
    rfl

end Segment

theorem pathWord_concat (s : Root) (segs : List Segment) (b : Segment) :
    pathWord s (segs ++ [b]) = pathWord s segs ++ ':' :: b.chars := by
  unfold pathWord
  rw [List.flatMap_append, List.flatMap_singleton, List.append_assoc]

theorem pathWord_ne_nil (s : Root) (segs : List Segment) : pathWord s segs ≠ [] := by
  obtain ⟨c, r, hs, -⟩ := s.plain
  unfold pathWord
  rw [hs]
  exact List.cons_ne_nil _ _

theorem length_le_pathWord (s : Root) (segs : List Segment) :
    segs.length ≤ (pathWord s segs).length := by
  induction segs using List.reverseRecOn with
  | nil => exact Nat.zero_le _
  | append_singleton segs b ih =>
    rw [pathWord_concat, List.length_append, List.length_append]
    exact Nat.add_le_add ih (Nat.le_add_left _ _)

theorem numeric_pathWord (s : Root) (segs : List Segment) : numeric (pathWord s segs) = false := by
  obtain ⟨c, r, hs, hdigit, hdash⟩ := s.plain
  unfold pathWord
  rw [hs]
  simp [numeric, hdash, hdigit]

/-- By induction on the segments: the last one is split off first. -/
theorem identVal_pathWord (loc : Loc) (s : Root) (segs : List Segment) {k : Nat}
    (hk : segs.length ≤ k) :
    (identVal loc k ((pathWord s segs).map dashToUnderscore)).erase = pathTree s segs := by
  induction segs using List.reverseRecOn generalizing k with
  | nil =>
    have htext : pathWord s [] = s.chars := List.append_nil _
    have hcolon : splitColon s.chars = none := splitColon_none s.no_colon
    rw [htext]
    cases k with
    | zero => rfl
    | succ k =>
      rw [identVal, splitColon_map_dash, hcolon]
      rfl
  | append_singleton segs b ih =>
    obtain ⟨k, rfl⟩ : ∃ m, k = m + 1 := by
      rw [List.length_append] at hk
      exact ⟨k - 1, (Nat.sub_add_cancel (Nat.le_trans (Nat.le_add_left _ _) hk)).symm⟩
    have hk' : segs.length ≤ k := by
      rw [List.length_append] at hk
      exact Nat.le_of_succ_le_succ hk
    have hne : ¬ ((pathWord s segs).map dashToUnderscore = [] ∨
        b.chars.map dashToUnderscore = []) := by
      rw [List.map_eq_nil_iff, List.map_eq_nil_iff]
      exact not_or.2 ⟨pathWord_ne_nil s segs, b.chars_ne_nil⟩
    rw [identVal, splitColon_map_dash, pathWord_concat, splitColon_append b.no_colon,
      Option.map_some]
    dsimp only
    rw [if_neg hne]
    unfold pathTree
    rw [List.foldl_append]
    simp only [Val.erase, ih hk', List.foldl_cons, List.foldl_nil, ← b.segmentTree_eq]
    rw [segmentVal_erase loc ⟨0, none⟩]
    rfl

/-- A word that is only split at its ends is not split. -/
theorem identVal_whole (loc : Loc) (k : Nat)
    (hw : ∀ A B, w = A ++ ':' :: B → A = [] ∨ B = []) :
    identVal loc k (w.map dashToUnderscore) = .ident loc (w.map dashToUnderscore) := by
  cases k with
  | zero => rfl
  | succ k =>
    rw [identVal, splitColon_map_dash]
    cases hs : splitColon w with
    | none => rfl
    | some p =>
      obtain ⟨A, B⟩ := p
      have hends : A.map dashToUnderscore = [] ∨ B.map dashToUnderscore = [] := by
        rw [List.map_eq_nil_iff, List.map_eq_nil_iff]
        exact hw A B (splitColon_eq hs)
      rw [Option.map_some]
      dsimp only
      rw [if_pos hends]

/-! ## Where it stands -/

/-- A word that is no number is an identifier token. -/
theorem StandsAt.occurs (h : StandsAt pos R q w) (hn : '\x00' ∉ R) (hw : numeric w = false) :
    Occurs pos R q (.ident (w.map dashToUnderscore)) := by
  induction h with
  | @here pos c R hc =>
    have hend := endsToken_of_plain hc (ne_nul_of_not_mem hn)
    rw [numeric_word_eq hend] at hw
    have ht : nextToken pos (c :: R) =
        .ok (.ident ((word (c :: R)).map dashToUnderscore), afterWord (c :: R)) := by
      rw [nextToken_plain hc, hw, if_neg Bool.false_ne_true]
    exact .here ht
  | inside hg _ ih => exact .inside hg (ih (nextToken_group_lt hn hg).1 hw)
  | later ht _ ih =>
    have hsuf := nextToken_suffix (ne_nul_of_not_mem hn) ht
    exact .later ht (ih (fun hm => not_mem_tail hn (hsuf.subset hm)) hw)

/-- The word is what stands in the text from its offset to the next delimiter. -/
theorem StandsAt.text (h : StandsAt pos R q w) (hn : '\x00' ∉ R) : ∃ P S,
    R = P ++ (w ++ S) ∧ pos + P.length = q ∧ ∀ c r, S = c :: r → endsToken c = true := by
  induction h with
  | @here pos c R hc =>
    refine ⟨[], afterWord (c :: R), List.takeWhile_append_dropWhile.symm, rfl, fun d r hd => ?_⟩
    have hdrop : (c :: R).dropWhile (!endsToken ·) = d :: r := hd
    have hhead := List.head_dropWhile_not (p := (!endsToken ·)) (l := c :: R)
      (by rw [hdrop]; exact List.cons_ne_nil _ _)
    simpa only [hdrop, List.head_cons, Bool.not_eq_false'] using hhead
  | @inside pos q c R rest body w curly hg _ ih =>
    obtain ⟨P, S, hbody, hq, hS⟩ := ih (nextToken_group_lt hn hg).1
    obtain ⟨d, hd, hR⟩ := closer_split (nextToken_group hg).2.2
    refine ⟨c :: P, S ++ d :: rest, ?_, ?_, fun x r hx => ?_⟩
    · rw [hR, hbody]
      simp only [List.append_assoc, List.cons_append]
    · rw [List.length_cons]
      omega
    · cases S with
      | nil =>
        cases hx
        simp only [isCloser, Bool.or_eq_true, beq_iff_eq] at hd
        rcases hd with rfl | rfl <;> rfl
      | cons y S =>
        cases hx
        exact hS _ _ rfl
  | @later pos q c R rest w t ht _ ih =>
    have hsuf := nextToken_suffix (ne_nul_of_not_mem hn) ht
    obtain ⟨P, S, hrest, hq, hS⟩ := ih fun hm => not_mem_tail hn (hsuf.subset hm)
    obtain ⟨X, hX⟩ := hsuf
    refine ⟨c :: X ++ P, S, ?_, ?_, hS⟩
    · rw [← hX, hrest]
      simp only [List.append_assoc, List.cons_append]
    · rw [← hX] at hq
      simp only [List.length_append, List.length_cons] at hq ⊢
      omega

end

/-- A path is read to the tree that nests to the left, and a word whose colons are all at its ends
to one identifier, wherever it stands. -/
theorem member_paths_nest (src : Source) (fileidx : Nat) {v : Val (List Char)}
    (h : lowerRead src.text fileidx = .ok v) :
    (∀ q s segs, segs ≠ [] → StandsAt 0 src.text q (pathWord s segs) →
      ∃ x, Val.Element x v ∧ x.loc.charIdx = q ∧ x.erase = pathTree s segs) ∧
    ∀ q w, StandsAt 0 src.text q w → numeric w = false →
      (∀ A B, w = A ++ ':' :: B → A = [] ∨ B = []) →
      ∃ x, Val.Element x v ∧ x.loc.charIdx = q ∧ x.erase = .ident (w.map dashToUnderscore) := by
  have helem : ∀ {q w}, StandsAt 0 src.text q w → numeric w = false →
      Val.Element (identVal ⟨q, some fileidx⟩ w.length (w.map dashToUnderscore)) v := by
    intro q w hw hnum
    rw [← List.length_map dashToUnderscore]
    exact lowerRead_elements src fileidx h (hw.occurs src.nul_free hnum) rfl
  constructor
  · intro q s segs _ hw
    refine ⟨_, helem hw (numeric_pathWord s segs), by rw [identVal_loc], ?_⟩
    exact identVal_pathWord _ s segs (length_le_pathWord s segs)
  · intro q w hw hnum hends
    refine ⟨_, helem hw hnum, by rw [identVal_loc], ?_⟩
    rw [identVal_whole _ _ hends]
    rfl

/-- The text `x (a-b:c:5:d)`. -/
def nestedPathText : Source :=
  ⟨['x', ' ', '(', 'a', '-', 'b', ':', 'c', ':', '5', ':', 'd', ')'], by decide⟩

/-- The path in its group, with three segments behind the root. -/
theorem member_paths_nest_example : ∃ v x, lowerRead nestedPathText.text 1 = .ok v ∧
    Val.Element x v ∧ x.loc.charIdx = 3 ∧
      x.erase = .ofList [.ident "memb".toList, .ofList [.ident "memb".toList,
        .ofList [.ident "memb".toList, .ident "a_b".toList, .ident ['c']], .int 5],
        .ident ['d']] := by
  obtain ⟨v, hv⟩ : ∃ v, lowerRead nestedPathText.text 1 = .ok v := ⟨_, rfl⟩
  let a : Root := ⟨['a', '-', 'b'], by decide, 'a', ['-', 'b'], rfl, by decide, by decide⟩
  let c : Segment := ⟨['c'], by decide, by decide, .inl fun | _, _, rfl => rfl⟩
  have hdigit : ∀ c ∈ ['5'], isDigit c := List.forall_mem_singleton.2 rfl
  let five : Segment := ⟨['5'], by decide, by decide, .inr ⟨hdigit, by decide⟩⟩
  let d : Segment := ⟨['d'], by decide, by decide, .inl fun | _, _, rfl => rfl⟩
  have hstands : StandsAt 0 nestedPathText.text 3 (pathWord a [c, five, d]) :=
    .later rfl (.later rfl (.inside rfl (.here rfl)))
  obtain ⟨x, hx, hpos, htree⟩ :=
    (member_paths_nest nestedPathText 1 hv).1 3 a [c, five, d] (List.cons_ne_nil _ _) hstands
  exact ⟨v, x, hv, hx, hpos, htree⟩

end Dolorem.Reader
