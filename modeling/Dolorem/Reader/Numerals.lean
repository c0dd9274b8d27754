import Dolorem.Reader.Accept
import Dolorem.Reader.Sugar

/-!
# Which tokens are read as integers

The reader takes a token for a number by its first two characters and leaves its
value to `strtol`, which stops where the digits do. `IntegerRight` is what is
asked for of a word or segment: an integer is made of it only if it is a numeral of
the same value, and every numeral is made one. No integer comes from anywhere else:
those of the tree are, from left to right, those of the words (`lowerRead_ints`).
`integers_right_iff` says for which texts all this is so.
-/

namespace Dolorem.Reader

/-! ## Words and their pieces -/

/-- The word `w` stands in a text, in any depth, where a number or an identifier is read. -/
inductive WordAt : List Char → List Char → Prop
  | here {c : Char} {R : List Char} : isSpecial c = false → WordAt (c :: R) (word (c :: R))
  | inside {c : Char} {R rest body w : List Char} {curly : Bool} :
      nextToken 0 (c :: R) = .ok (.group curly body, rest) → WordAt body w → WordAt (c :: R) w
  | later {c : Char} {R rest w : List Char} {t : Token} :
      nextToken 0 (c :: R) = .ok (t, rest) → WordAt rest w → WordAt (c :: R) w

/-- The segments of a member path behind its colons, as they are in the text. -/
def segments : Nat → List Char → List (List Char)
  | 0, _ => []
  | k + 1, w =>
    match splitColon w with
    | none => []
    | some (a, b) => if a = [] ∨ b = [] then [] else b :: segments k a

/-- The node of a segment, in which each `-` is a `_` by then. -/
def segmentTree (b : List Char) : Sexp :=
  (segmentVal ⟨0, none⟩ (b.map dashToUnderscore)).erase

/-- The node of a word. -/
def wordTree (w : List Char) : Sexp :=
  if numeric w then atomTree (numberToken w) else atomTree (.ident (w.map dashToUnderscore))

/-- The segments of a word, if it is not a number. -/
def wordSegments (w : List Char) : List (List Char) :=
  if numeric w then [] else segments w.length w

/-- The node `x` is made of `w`, a word of the text or a segment of one. -/
inductive Makes (text : List Char) : List Char → Sexp → Prop
  | word {w : List Char} : WordAt text w → Makes text w (wordTree w)
  | segment {w b : List Char} : WordAt text w → b ∈ wordSegments w → Makes text b (segmentTree b)

/-- The words of a text in the order they are read, those of a list where the list stands. -/
def words : Nat → List Char → List (List Char)
  | 0, _ => []
  | _ + 1, [] => []
  | k + 1, c :: R =>
    match nextToken 0 (c :: R) with
    | .error _ => []
    | .ok (.group _ body, rest) => words k body ++ words k rest
    | .ok (_, rest) => (if isSpecial c then [] else [word (c :: R)]) ++ words k rest

/-- The nodes of a word in which numbers are read: its own, or those of its segments. -/
def pieces (w : List Char) : List Sexp :=
  if numeric w then [wordTree w] else (segments w.length w).reverse.map segmentTree

/-- An integer is made of the numeral that denotes it, and every numeral is made an integer. -/
def IntegerRight (w : List Char) (x : Sexp) : Prop :=
  (∀ i, x = .int i → ∃ n : Numeral, w = n.text ∧ i = n.value) ∧
    ∀ n : Numeral, w = n.text → x = .int n.value

/-- The word has a dot, or does not look like a number, or is a numeral. -/
def WordPlain (w : List Char) : Prop :=
  numeric w = true → '.' ∉ w → ∃ n : Numeral, w = n.text

/-- The segment has a dot, or does not begin with a digit, or is a numeral; and it is no negative
numeral. -/
def SegmentPlain (b : List Char) : Prop :=
  (∀ c r, b = c :: r → isDigit c = true → '.' ∉ b → ∃ n : Numeral, b = n.text) ∧
    ∀ n : Numeral, b = n.text → n.negative = false

/-- `x` is a part of the tree. -/
inductive Sexp.Within (x : Sexp) : Sexp → Prop
  | refl : Within x x
  | car {a d : Sexp} : Within x a → Within x (.cons a d)
  | cdr {a d : Sexp} : Within x d → Within x (.cons a d)

/-- The integers of a tree, from left to right. -/
def Sexp.ints : Sexp → List Int
  | .int i => [i]
  | .cons a d => a.ints ++ d.ints
  | _ => []

/-! ## Single words -/

section Words

variable {c : Char} {w b R : List Char} {x : Sexp}

theorem dashToUnderscore_ne_dash (c : Char) : dashToUnderscore c ≠ '-' := by
  unfold dashToUnderscore
  split
  · decide
  · next h => simpa using h

theorem dashToUnderscore_of_ne (h : c ≠ '-') : dashToUnderscore c = c := by
  simp [dashToUnderscore, h]

theorem map_dash_of_not_mem (h : '-' ∉ w) : w.map dashToUnderscore = w :=
  (List.map_congr_left fun _ hc => dashToUnderscore_of_ne fun hd => h (hd ▸ hc)).trans
    (List.map_id w)

/-- Another character than `-` and `_` is kept, and stays where it is. -/
theorem mem_map_dash (hd : c ≠ '-') (hu : c ≠ '_') : c ∈ w.map dashToUnderscore ↔ c ∈ w := by
  rw [List.mem_map]
  constructor
  · rintro ⟨a, ha, rfl⟩
    rcases eq_or_ne a '-' with rfl | hne
    · exact absurd rfl hu
    · rwa [dashToUnderscore_of_ne hne]
  · exact fun h => ⟨c, h, dashToUnderscore_of_ne hd⟩

theorem splitColon_map_dash : ∀ w : List Char, splitColon (w.map dashToUnderscore) =
    (splitColon w).map fun x => (x.1.map dashToUnderscore, x.2.map dashToUnderscore)
  | [] => rfl
  | c :: w => by
    have hcolon : (dashToUnderscore c == ':') = (c == ':') := by
      unfold dashToUnderscore
      split
      · next h =>
        rw [beq_iff_eq.1 h]
        rfl
      · rfl
    rw [List.map_cons, splitColon, splitColon, splitColon_map_dash w, hcolon]
    cases splitColon w with
    | none =>
      simp only [Option.map_none]
      split <;> rfl
    | some p => rfl

/-- A numeral is made an integer by `strtol`; what else is made one is not right. -/
theorem integerRight_strtol (w : List Char) :
    IntegerRight w (.int (strtol w)) ↔ ∃ n : Numeral, w = n.text := by
  constructor
  · rintro ⟨h, -⟩
    obtain ⟨n, hw, -⟩ := h _ rfl
    exact ⟨n, hw⟩
  · rintro ⟨n, rfl⟩
    rw [n.strtol_text]
    refine ⟨fun i hi => ⟨n, rfl, (Sexp.int.inj hi).symm⟩, fun m hm => ?_⟩
    rw [← n.strtol_text, hm, m.strtol_text]

/-- A node that is no integer is right for what is no numeral. -/
theorem integerRight_other (hx : ∀ i, x ≠ .int i) :
    IntegerRight w x ↔ ∀ n : Numeral, w ≠ n.text := by
  constructor
  · exact fun h n hn => hx _ (h.2 n hn)
  · exact fun h => ⟨fun i hi => absurd hi (hx i), fun n hn => absurd hn (h n)⟩

theorem dot_not_mem_text (n : Numeral) : '.' ∉ n.text := fun h => (n.text_word _ h).2.2.2 rfl

theorem wordTree_ident_ne_int (w : List Char) (i : Int) :
    atomTree (.ident w) ≠ .int i := by
  unfold atomTree atomVal
  dsimp only
  cases w.length with
  | zero => exact Sexp.noConfusion
  | succ k =>
    rw [identVal]
    repeat' split
    all_goals exact Sexp.noConfusion

theorem word_right_iff (w : List Char) : IntegerRight w (wordTree w) ↔ WordPlain w := by
  unfold wordTree WordPlain
  cases hnum : numeric w with
  | true =>
    rw [if_pos rfl]
    unfold numberToken
    by_cases hdot : '.' ∈ w
    · rw [if_pos (List.contains_iff_mem.2 hdot)]
      rw [integerRight_other fun i => Sexp.noConfusion]
      refine iff_of_true (fun n hn => dot_not_mem_text n (hn ▸ hdot)) fun _ h => absurd hdot h
    · rw [if_neg (mt List.contains_iff_mem.1 hdot)]
      exact (integerRight_strtol w).trans ⟨fun h _ _ => h, fun h => h rfl hdot⟩
  | false =>
    rw [if_neg Bool.false_ne_true, integerRight_other (wordTree_ident_ne_int _)]
    refine iff_of_true (fun n hn => ?_) fun h => nomatch h
    rw [hn, n.text_numeric] at hnum
    cases hnum

/-- A segment looks like a number if it begins with a digit. -/
theorem numeric_map_dash (c : Char) (r : List Char) :
    numeric ((c :: r).map dashToUnderscore) = isDigit c := by
  have hdigit : isDigit (dashToUnderscore c) = isDigit c := by
    unfold dashToUnderscore
    split
    · next h =>
      rw [beq_iff_eq.1 h]
      rfl
    · rfl
  rw [List.map_cons, ← hdigit]
  unfold numeric
  split
  · next heq => exact absurd (List.cons.inj heq).1 (dashToUnderscore_ne_dash c)
  · next heq => rw [(List.cons.inj heq).1]
  · next heq => cases heq

/-- Only the numerals with a sign begin with something else than a digit. -/
theorem not_negative_iff {n : Numeral} {c : Char} {r : List Char} (h : c :: r = n.text) :
    n.negative = false ↔ isDigit c = true := by
  unfold Numeral.text at h
  cases hneg : n.negative with
  | true =>
    rw [hneg, if_pos rfl] at h
    rw [(List.cons.inj h).1]
    exact iff_of_false Bool.noConfusion (by decide)
  | false =>
    rw [hneg, if_neg Bool.false_ne_true] at h
    refine iff_of_true rfl (n.digits_isDigit c ?_)
    rw [← h]
    exact List.mem_cons_self

/-- Only the numerals with a sign are changed. -/
theorem map_dash_text {n : Numeral} (h : n.negative = false) :
    n.text.map dashToUnderscore = n.text := by
  refine map_dash_of_not_mem fun hmem => ?_
  unfold Numeral.text at hmem
  rw [h, if_neg Bool.false_ne_true] at hmem
  exact absurd (n.digits_isDigit _ hmem) (by decide)

theorem segment_right_iff {b : List Char} (hb : b ≠ []) :
    IntegerRight b (segmentTree b) ↔ SegmentPlain b := by
  obtain ⟨c, r, rfl⟩ := List.exists_cons_of_ne_nil hb
  have hdot : '.' ∈ (c :: r).map dashToUnderscore ↔ '.' ∈ c :: r :=
    mem_map_dash (by decide) (by decide)
  unfold segmentTree segmentVal
  rw [numeric_map_dash]
  cases hc : isDigit c with
  | true =>
    rw [if_pos rfl]
    have hplain : SegmentPlain (c :: r) ↔ ('.' ∉ c :: r → ∃ n : Numeral, c :: r = n.text) := by
      constructor
      · exact fun h => h.1 c r rfl hc
      · refine fun h => ⟨fun _ _ heq _ => heq ▸ h, fun n hn => (not_negative_iff hn).2 hc⟩
    rw [hplain]
    by_cases hd : '.' ∈ c :: r
    · rw [if_pos (List.contains_iff_mem.2 (hdot.2 hd))]
      rw [integerRight_other (x := Val.erase _) fun i => Sexp.noConfusion]
      exact iff_of_true (fun n hn => dot_not_mem_text n (hn ▸ hd)) fun h => absurd hd h
    · rw [if_neg (mt List.contains_iff_mem.1 (mt hdot.1 hd))]
      constructor
      · rintro ⟨h, -⟩ -
        obtain ⟨n, hn, -⟩ := h _ rfl
        exact ⟨n, hn⟩
      · intro h
        obtain ⟨n, hn⟩ := h hd
        rw [hn, map_dash_text ((not_negative_iff hn).2 hc)]
        exact (integerRight_strtol _).2 ⟨n, rfl⟩
  | false =>
    rw [if_neg Bool.false_ne_true, integerRight_other (x := Val.erase _) fun i => Sexp.noConfusion]
    constructor
    · refine fun h => ⟨fun _ _ heq hd => ?_, fun n hn => absurd hn (h n)⟩
      rw [← (List.cons.inj heq).1, hc] at hd
      cases hd
    · intro h n hn
      have hdigit := (not_negative_iff hn).1 (h.2 n hn)
      rw [hc] at hdigit
      cases hdigit

end Words

/-! ## The nodes are in the tree -/

namespace Sexp.Within

variable {x y z : Sexp}

theorem trans (h : x.Within y) (k : y.Within z) : x.Within z := by
  induction k with
  | refl => exact h
  | car _ ih => exact .car ih
  | cdr _ ih => exact .cdr ih

theorem of_mem {l : List Sexp} (h : y ∈ l) : y.Within (Sexp.ofList l) := by
  induction l with
  | nil => cases h
  | cons a l ih =>
    rcases List.mem_cons.1 h with rfl | h
    · exact .car .refl
    · exact .cdr (ih h)

end Sexp.Within

namespace Sexp

theorem mem_ints {x : Sexp} {i : Int} : i ∈ x.ints ↔ (int i).Within x := by
  induction x with
  | cons a d iha ihd =>
    rw [ints, List.mem_append, iha, ihd]
    constructor
    · exact fun h => h.elim .car .cdr
    · intro h
      cases h with
      | car h => exact .inl h
      | cdr h => exact .inr h
  | int j =>
    rw [ints, List.mem_singleton]
    constructor
    · rintro rfl
      exact .refl
    · intro h
      cases h
      rfl
  | _ => constructor <;> rintro ⟨⟩

theorem ints_ofList (l : List Sexp) : (ofList l).ints = l.flatMap ints := by
  induction l with
  | nil => rfl
  | cons a l ih => rw [ofList, ints, ih, List.flatMap_cons]

end Sexp

theorem segments_ne_nil {k : Nat} {w b : List Char} (h : b ∈ segments k w) : b ≠ [] := by
  induction k generalizing w with
  | zero => cases h
  | succ k ih =>
    rw [segments] at h
    split at h
    · cases h
    · split at h
      · cases h
      · next hne =>
        rcases List.mem_cons.1 h with rfl | h
        · exact fun hb => hne (.inr hb)
        · exact ih h

theorem segment_within (loc : Loc) {k : Nat} {w b : List Char} (h : b ∈ segments k w) :
    (segmentTree b).Within (identVal loc k (w.map dashToUnderscore)).erase := by
  induction k generalizing w with
  | zero => cases h
  | succ k ih =>
    rw [segments] at h
    rw [identVal, splitColon_map_dash]
    split at h
    · cases h
    · next a c hsplit =>
      split at h
      · cases h
      · next hne =>
        rw [hsplit, Option.map_some]
        have hne' : ¬ (a.map dashToUnderscore = [] ∨ c.map dashToUnderscore = []) := by
          rwa [List.map_eq_nil_iff, List.map_eq_nil_iff]
        dsimp only
        rw [if_neg hne']
        rcases List.mem_cons.1 h with rfl | h
        · refine .cdr (.cdr (.car ?_))
          rw [segmentTree, segmentVal_erase ⟨0, none⟩ loc]
          exact .refl
        · exact .cdr (.car (ih h))

theorem wordSegment_within {w b : List Char} (h : b ∈ wordSegments w) :
    (segmentTree b).Within (wordTree w) := by
  unfold wordSegments at h
  unfold wordTree
  split at h
  · cases h
  · next hnum =>
    rw [if_neg hnum]
    unfold atomTree atomVal
    dsimp only
    rw [List.length_map]
    exact segment_within _ h

/-- The node of a segment has no parts. -/
theorem int_within_segment {loc : Loc} {i : Int} {b : List Char} :
    (Sexp.int i).Within (segmentVal loc b).erase → (segmentVal loc b).erase = .int i := by
  unfold segmentVal
  split
  · split
    · exact fun h => nomatch h
    · intro h
      cases h
      rfl
  · exact fun h => nomatch h

/-- The integers of a path are those of its segments. -/
theorem path_ints (loc : Loc) (k : Nat) (w : List Char) :
    (identVal loc k (w.map dashToUnderscore)).erase.ints =
      ((segments k w).reverse.map segmentTree).flatMap Sexp.ints := by
  induction k generalizing w with
  | zero => rfl
  | succ k ih =>
    rw [identVal, segments, splitColon_map_dash]
    cases splitColon w with
    | none => rfl
    | some p =>
      obtain ⟨a, b⟩ := p
      rw [Option.map_some]
      dsimp only
      have hnil : a.map dashToUnderscore = [] ∨ b.map dashToUnderscore = [] ↔ a = [] ∨ b = [] := by
        rw [List.map_eq_nil_iff, List.map_eq_nil_iff]
      by_cases hne : a = [] ∨ b = []
      · rw [if_pos hne, if_pos (hnil.2 hne)]
        rfl
      · rw [if_neg hne, if_neg (mt hnil.1 hne)]
        have hb : (segmentVal loc (b.map dashToUnderscore)).erase = segmentTree b :=
          segmentVal_erase _ _ _
        rw [List.reverse_cons, List.map_append, List.flatMap_append, ← ih]
        simp [Val.erase, Sexp.ints, hb]

theorem wordTree_ints (w : List Char) : (wordTree w).ints = (pieces w).flatMap Sexp.ints := by
  unfold wordTree pieces
  split
  · rw [List.flatMap_cons, List.flatMap_nil, List.append_nil, wordTree, if_pos ‹_›]
  · rw [← path_ints ⟨0, none⟩]
    unfold atomTree atomVal
    dsimp only
    rw [List.length_map]

/-- A piece with an integer in it is that integer. -/
theorem piece_eq_int {w : List Char} {y : Sexp} {i : Int} (hy : y ∈ pieces w) (hi : i ∈ y.ints) :
    y = .int i := by
  unfold pieces at hy
  split at hy
  · next hnum =>
    rw [List.mem_singleton.1 hy, wordTree, if_pos hnum] at hi ⊢
    unfold numberToken at hi ⊢
    split at hi
    · cases hi
    · next hdot =>
      rw [if_neg hdot]
      exact congrArg Sexp.int (List.mem_singleton.1 hi).symm
  · obtain ⟨b, -, rfl⟩ := List.mem_map.1 hy
    exact int_within_segment (Sexp.mem_ints.1 hi)

/-- The number of a text begins like the text. -/
theorem numeric_word_eq {c : Char} {R : List Char} (hc : endsToken c = false) :
    numeric (word (c :: R)) = numeric (c :: R) := by
  cases hnum : numeric (c :: R) with
  | true => exact numeric_word hc hnum
  | false =>
    rw [word, List.takeWhile_cons_of_pos (by simp [hc])]
    by_cases hdash : c = '-'
    · subst hdash
      cases R with
      | nil => exact hnum
      | cons d R =>
        have hd : endsToken d = true := by simpa [numeric] using hnum
        rw [List.takeWhile_cons_of_neg (by simp [hd])]
        rfl
    · simpa [numeric, hdash] using hnum

/-- The list holds `x` in one of its items. -/
def Items.Contains (it : Items) (x : Sexp) : Prop := ∃ a ∈ it.items, x.Within a

namespace Items.Contains

variable {it it' : Items} {x r : Sexp}

theorem insertPart (h : it.Contains x) (r : Sexp) : (it.insertPart r).Contains x := by
  obtain ⟨a, ha, hx⟩ := h
  exact ⟨a, List.mem_append_left _ ha, hx⟩

theorem insertScope (h : it.Contains x) (r : Sexp) : (it.insertScope r).Contains x := by
  obtain ⟨a, ha, hx⟩ := h
  exact ⟨a, List.mem_append_left _ ha, hx⟩

theorem semi (h : it.Contains x) (hs : it.semi = some it') : it'.Contains x := by
  obtain ⟨a, ha, hx⟩ := h
  obtain ⟨g, -, rfl⟩ := Option.map_eq_some_iff.1 hs
  rw [← List.take_append_drop g it.items] at ha
  rcases List.mem_append.1 ha with ha | ha
  · exact ⟨a, List.mem_append_left _ ha, hx⟩
  · exact ⟨_, List.mem_append_right _ List.mem_cons_self, hx.trans (.of_mem ha)⟩

theorem ofList (h : it.Contains x) : x.Within (Sexp.ofList it.items) := by
  obtain ⟨a, ha, hx⟩ := h
  exact hx.trans (.of_mem ha)

/-- A token keeps what is there. -/
theorem addToken {nested : List Char → Read Sexp} {t : Token} (h : it.Contains x)
    (hrun : it.addToken nested t = .ok it') : it'.Contains x := by
  cases t with
  | skip =>
    cases hrun
    exact h
  | semi =>
    dsimp only [Items.addToken] at hrun
    cases hs : it.semi with
    | none =>
      rw [hs] at hrun
      cases hrun
    | some it₁ =>
      rw [hs] at hrun
      cases hrun
      exact h.semi hs
  | group curly body =>
    dsimp only [Items.addToken] at hrun
    cases hn : nested body with
    | error e =>
      rw [hn] at hrun
      cases hrun
    | ok r =>
      rw [hn] at hrun
      cases curly <;> cases hrun
      · exact h.insertPart r
      · exact h.insertScope r
  | _ =>
    cases hrun
    exact h.insertPart _

end Items.Contains

/-- The list of a group is added as a whole. -/
theorem addToken_group {nested : List Char → Read Sexp} {it it' : Items} {curly : Bool}
    {body : List Char} {x : Sexp} (hrun : it.addToken nested (.group curly body) = .ok it')
    (hx : ∀ r, nested body = .ok r → x.Within r) : it'.Contains x := by
  dsimp only [Items.addToken] at hrun
  cases hn : nested body with
  | error e =>
    rw [hn] at hrun
    cases hrun
  | ok r =>
    rw [hn] at hrun
    have hr := hx r hn
    cases curly <;> cases hrun
    · exact ⟨r, List.mem_append_right _ List.mem_cons_self, hr⟩
    · exact ⟨_, List.mem_append_right _ List.mem_cons_self, .cdr hr⟩

/-- The node of a word is added. -/
theorem addToken_word {nested : List Char → Read Sexp} {it it' : Items} {c : Char} {R : List Char}
    (hend : endsToken c = false)
    (ha : it.addToken nested (if numeric (c :: R) then numberToken (word (c :: R))
      else .ident ((word (c :: R)).map dashToUnderscore)) = .ok it') :
    it' = it.insertPart (wordTree (word (c :: R))) := by
  unfold wordTree
  rw [numeric_word_eq hend]
  cases hnum : numeric (c :: R) with
  | false =>
    rw [hnum] at ha
    cases ha
    rfl
  | true =>
    rw [hnum, if_pos rfl] at ha
    rw [if_pos rfl]
    unfold numberToken at ha ⊢
    cases hdot : (word (c :: R)).contains '.' with
    | false | true =>
      rw [hdot] at ha
      cases ha
      rfl

/-- What is read holds what there was, and the nodes of the words of the text. -/
theorem readOn_contains {R : List Char} (hn : '\x00' ∉ R) {it it' : Items}
    (h : readOn R it = .ok it') :
    (∀ x, it.Contains x → it'.Contains x) ∧ ∀ w, WordAt R w → it'.Contains (wordTree w) := by
  induction hl : R.length using Nat.strong_induction_on generalizing R it it' with
  | _ l ih =>
  cases R with
  | nil =>
    cases h
    exact ⟨fun _ hx => hx, fun _ hw => nomatch hw⟩
  | cons c R =>
    rw [readOn_cons hn] at h
    cases hnt : nextToken 0 (c :: R) with
    | error e =>
      rw [hnt] at h
      cases h
    | ok p =>
      obtain ⟨t, rest⟩ := p
      rw [hnt] at h
      simp only [Read.ok_bind] at h
      have hsuf := nextToken_suffix (ne_nul_of_not_mem hn) hnt
      have hlt : rest.length < l := by
        rw [← hl]
        exact Nat.lt_succ_of_le hsuf.length_le
      cases ha : it.addToken tree t with
      | error e =>
        rw [ha] at h
        cases h
      | ok it₁ =>
        rw [ha] at h
        obtain ⟨hkeep, hrest⟩ :=
          ih rest.length hlt (fun hm => not_mem_tail hn (hsuf.subset hm)) h rfl
        refine ⟨fun x hx => hkeep x (hx.addToken ha), fun w hw => ?_⟩
        -- the word is the token just read, inside of it, or behind it
        cases hw with
        | here hc =>
          rw [nextToken_plain hc] at hnt
          cases hnt
          refine hkeep _ ?_
          rw [addToken_word (endsToken_of_plain hc (ne_nul_of_not_mem hn)) ha]
          exact ⟨_, List.mem_append_right _ List.mem_cons_self, .refl⟩
        | inside hg hb =>
          cases hnt.symm.trans hg
          refine hkeep _ (addToken_group ha fun r hr => ?_)
          obtain ⟨hnb, hlen⟩ := nextToken_group_lt hn hg
          rw [tree] at hr
          cases hon : readOn _ .empty with
          | error e =>
            rw [hon] at hr
            cases hr
          | ok itb =>
            rw [hon] at hr
            cases hr
            exact ((ih _ (hl ▸ Nat.lt_succ_of_lt hlen) hnb hon rfl).2 w hb).ofList
        | later hg hw =>
          cases hnt.symm.trans hg
          exact hrest w hw

/-! ## The integers of the tree are in the text -/

/-- The integers in the list. -/
def Items.ints (it : Items) : List Int := it.items.flatMap Sexp.ints

namespace Items

variable {it it' : Items}

theorem ints_insertPart (it : Items) (r : Sexp) : (it.insertPart r).ints = it.ints ++ r.ints := by
  simp [ints, insertPart]

theorem ints_insertScope (it : Items) (r : Sexp) :
    (it.insertScope r).ints = it.ints ++ r.ints := by
  simp [ints, insertScope, Sexp.ints]

theorem ints_semi (hs : it.semi = some it') : it'.ints = it.ints := by
  obtain ⟨g, -, rfl⟩ := Option.map_eq_some_iff.1 hs
  unfold ints
  rw [List.flatMap_append, List.flatMap_cons, List.flatMap_nil, List.append_nil, Sexp.ints_ofList,
    ← List.flatMap_append, List.take_append_drop]

/-- A token adds the integers of its node, or of its list. -/
theorem ints_addToken {nested : List Char → Read Sexp} {t : Token}
    (hrun : it.addToken nested t = .ok it') :
    (∃ curly body r, t = .group curly body ∧ nested body = .ok r ∧ it'.ints = it.ints ++ r.ints) ∨
      (∀ curly body, t ≠ .group curly body) ∧ it'.ints = it.ints ++ (atomTree t).ints := by
  cases t with
  | skip =>
    cases hrun
    exact .inr ⟨fun _ _ h => (nomatch h), (List.append_nil _).symm⟩
  | semi =>
    dsimp only [addToken] at hrun
    cases hs : it.semi with
    | none =>
      rw [hs] at hrun
      cases hrun
    | some it₁ =>
      rw [hs] at hrun
      cases hrun
      exact .inr ⟨fun _ _ h => (nomatch h), (ints_semi hs).trans (List.append_nil _).symm⟩
  | group curly body =>
    dsimp only [addToken] at hrun
    cases hn : nested body with
    | error e =>
      rw [hn] at hrun
      cases hrun
    | ok r =>
      rw [hn] at hrun
      refine .inl ⟨curly, body, r, rfl, hn, ?_⟩
      cases curly <;> cases hrun
      · exact ints_insertPart it r
      · exact ints_insertScope it r
  | _ =>
    cases hrun
    exact .inr ⟨fun _ _ h => (nomatch h), ints_insertPart it _⟩

end Items

section

variable {c : Char} {R rest body w : List Char} {t : Token} {k : Nat}

/-- Only a word is read to a node with an integer in it. -/
theorem token_ints (hc0 : c ≠ '\x00') (h : nextToken 0 (c :: R) = .ok (t, rest))
    (hg : ∀ curly body, t ≠ .group curly body) : (atomTree t).ints =
      (if isSpecial c then [] else [word (c :: R)]).flatMap fun w => (wordTree w).ints := by
  cases hplain : isSpecial c with
  | false =>
    rw [nextToken_plain hplain] at h
    rw [if_neg Bool.false_ne_true, List.flatMap_cons, List.flatMap_nil, List.append_nil, wordTree,
      numeric_word_eq (endsToken_of_plain hplain hc0)]
    cases h
    split <;> rfl
  | true =>
    rw [if_pos rfl]
    cases lead c with
    | blank hc =>
      rw [nextToken_blank hc] at h
      cases h
      rfl
    | opener hc =>
      obtain ⟨body, -, rfl⟩ := nextToken_opener_ok hc h
      exact absurd rfl (hg _ _)
    | quote hc =>
      subst hc
      obtain ⟨raw, s, -, -, rfl⟩ := nextToken_quote_ok h
      rfl
    | tick hc =>
      subst hc
      obtain ⟨j, -, rfl⟩ := nextToken_tick_ok h
      rfl
    | hash hc =>
      subst hc
      rw [nextToken_hash] at h
      cases h
      rfl
    | semi hc =>
      subst hc
      rw [nextToken_semi] at h
      cases h
      rfl
    | plain hc =>
      rw [hc] at hplain
      cases hplain

theorem words_group {curly : Bool} (h : nextToken 0 (c :: R) = .ok (.group curly body, rest)) :
    words (k + 1) (c :: R) = words k body ++ words k rest := by
  rw [words, h]

theorem words_token (h : nextToken 0 (c :: R) = .ok (t, rest))
    (hg : ∀ curly body, t ≠ .group curly body) : words (k + 1) (c :: R) =
      (if isSpecial c then [] else [word (c :: R)]) ++ words k rest := by
  rw [words, h]
  cases t with
  | group curly body => exact absurd rfl (hg curly body)
  | _ => rfl

theorem wordAt_of_mem (h : w ∈ words k R) : WordAt R w := by
  induction k generalizing R with
  | zero => cases h
  | succ k ih =>
    cases R with
    | nil => cases h
    | cons c R =>
      cases hnt : nextToken 0 (c :: R) with
      | error e =>
        rw [words, hnt] at h
        cases h
      | ok p =>
        obtain ⟨t, rest⟩ := p
        by_cases hg : ∃ curly body, t = .group curly body
        · obtain ⟨curly, body, rfl⟩ := hg
          rw [words_group hnt, List.mem_append] at h
          exact h.elim (fun h => .inside hnt (ih h)) fun h => .later hnt (ih h)
        · rw [words_token hnt fun curly body heq => hg ⟨curly, body, heq⟩, List.mem_append] at h
          refine h.elim (fun h => ?_) fun h => .later hnt (ih h)
          cases hplain : isSpecial c with
          | false =>
            rw [hplain] at h
            rw [List.mem_singleton.1 h]
            exact .here hplain
          | true =>
            rw [hplain] at h
            cases h

/-- Reading adds the integers of the words. -/
theorem readOn_ints (hn : '\x00' ∉ R) {it it' : Items} (h : readOn R it = .ok it')
    (hk : R.length ≤ k) :
    it'.ints = it.ints ++ (words k R).flatMap fun w => (wordTree w).ints := by
  induction k generalizing R it it' with
  | zero =>
    obtain rfl := List.length_eq_zero_iff.1 (Nat.le_zero.1 hk)
    cases h
    exact (List.append_nil _).symm
  | succ k ih =>
    cases R with
    | nil =>
      cases h
      exact (List.append_nil _).symm
    | cons c R =>
      rw [readOn_cons hn] at h
      obtain ⟨⟨t, rest⟩, hnt, h⟩ := Read.bind_eq_ok.1 h
      obtain ⟨it₁, ha, h⟩ := Read.bind_eq_ok.1 h
      have hc := ne_nul_of_not_mem hn
      have hsuf := nextToken_suffix hc hnt
      have hk' : R.length ≤ k := Nat.le_of_succ_le_succ hk
      rw [ih (fun hm => not_mem_tail hn (hsuf.subset hm)) h (hsuf.length_le.trans hk')]
      rcases Items.ints_addToken ha with ⟨curly, body, r, rfl, hr, hints⟩ | ⟨hg, hints⟩
      · obtain ⟨hnb, hlen⟩ := nextToken_group_lt hn hnt
        rw [tree] at hr
        obtain ⟨itb, hon, rfl⟩ := Read.map_eq_ok.1 hr
        have hbody : (Sexp.ofList itb.items).ints = itb.ints := Sexp.ints_ofList _
        rw [words_group hnt, hints, hbody, ih hnb hon (hlen.le.trans hk'), List.flatMap_append,
          List.append_assoc]
        rfl
      · rw [words_token hnt hg, hints, token_ints hc hnt hg, List.flatMap_append,
          List.append_assoc]

end

/-- The integers of the tree are those of the words of the text, in their order. -/
theorem lowerRead_ints {src : Source} {fileidx : Nat} {v : Val (List Char)}
    (h : lowerRead src.text fileidx = .ok v) : v.erase.ints =
      (words src.text.length src.text).flatMap fun w => (pieces w).flatMap Sexp.ints := by
  have htree : ReadsTo src.text fileidx v.erase := ⟨v, h, rfl⟩
  rw [readsTo_iff_tree fileidx src.nul_free, tree] at htree
  obtain ⟨it, hr, hv⟩ := Read.map_eq_ok.1 htree
  rw [← hv, Sexp.ints_ofList]
  exact (readOn_ints src.nul_free hr le_rfl).trans
    (congrArg (List.flatMap · _) (funext wordTree_ints))

theorem makes_within {src : Source} {fileidx : Nat} {v : Val (List Char)}
    (h : lowerRead src.text fileidx = .ok v) {w : List Char} {x : Sexp} (hm : Makes src.text w x) :
    x.Within v.erase := by
  have htree : ReadsTo src.text fileidx v.erase := ⟨v, h, rfl⟩
  rw [readsTo_iff_tree fileidx src.nul_free, tree] at htree
  cases hr : readOn src.text .empty with
  | error e =>
    rw [hr] at htree
    cases htree
  | ok it =>
    rw [hr] at htree
    rw [← Except.ok.inj htree]
    have hw := (readOn_contains src.nul_free hr).2
    cases hm with
    | word hs => exact (hw _ hs).ofList
    | segment hs hb => exact (wordSegment_within hb).trans (hw _ hs).ofList

theorem makes_piece {text w : List Char} {y : Sexp} (hw : WordAt text w) (hy : y ∈ pieces w) :
    ∃ b, Makes text b y := by
  unfold pieces at hy
  split at hy
  · rw [List.mem_singleton.1 hy]
    exact ⟨w, .word hw⟩
  · next hnum =>
    obtain ⟨b, hb, rfl⟩ := List.mem_map.1 hy
    refine ⟨b, .segment hw ?_⟩
    rw [wordSegments, if_neg hnum]
    exact List.mem_reverse.1 hb

/-- Every integer of the tree is made of a word of the text, or of a segment of one. -/
theorem int_made {src : Source} {fileidx : Nat} {v : Val (List Char)}
    (h : lowerRead src.text fileidx = .ok v) {i : Int} (hi : (Sexp.int i).Within v.erase) :
    ∃ w, Makes src.text w (.int i) := by
  rw [← Sexp.mem_ints, lowerRead_ints h] at hi
  obtain ⟨w, hw, hi⟩ := List.mem_flatMap.1 hi
  obtain ⟨y, hy, hi⟩ := List.mem_flatMap.1 hi
  rw [← piece_eq_int hy hi]
  exact makes_piece (wordAt_of_mem hw) hy

/-- Every word and segment of the text has its node in the tree, read right, every integer of the
tree is made of one, and the integers are as many as the pieces that are read to one, in the order
of the text. -/
def IntegersRight (text : List Char) (x : Sexp) : Prop :=
  (∀ w y, Makes text w y → y.Within x ∧ IntegerRight w y) ∧
    (∀ i, (Sexp.int i).Within x → ∃ w, Makes text w (.int i)) ∧
      x.ints = (words text.length text).flatMap fun w => (pieces w).flatMap Sexp.ints

/-- Integers are read right in an accepted text if and only if every word that looks like a number
and has no dot is a numeral, and every segment behind a colon that begins with a digit and has no
dot is one, and none is a negative one. -/
theorem integers_right_iff (src : Source) (fileidx : Nat) {v : Val (List Char)}
    (h : lowerRead src.text fileidx = .ok v) :
    IntegersRight src.text v.erase ↔
      ∀ w, WordAt src.text w → WordPlain w ∧ ∀ b ∈ wordSegments w, SegmentPlain b := by
  have hne : ∀ {w b : List Char}, b ∈ wordSegments w → b ≠ [] := by
    intro w b hb
    unfold wordSegments at hb
    split at hb
    · cases hb
    · exact segments_ne_nil hb
  constructor
  · rintro ⟨hall, -⟩ w hw
    refine ⟨(word_right_iff w).1 (hall _ _ (.word hw)).2, fun b hb => ?_⟩
    exact (segment_right_iff (hne hb)).1 (hall _ _ (.segment hw hb)).2
  · refine fun hall => ⟨fun w x hm => ⟨makes_within h hm, ?_⟩, fun i hi => int_made h hi,
      lowerRead_ints h⟩
    cases hm with
    | word hw => exact (word_right_iff w).2 (hall w hw).1
    | segment hw hb => exact (segment_right_iff (hne hb)).2 ((hall _ hw).2 _ hb)

/-- The text `a:5 -7`. -/
def pathText : Source := ⟨['a', ':', '5', ' ', '-', '7'], by decide⟩

theorem integers_right_iff_example : ∃ v, lowerRead pathText.text 1 = .ok v ∧
    (IntegersRight pathText.text v.erase ↔
      ∀ w, WordAt pathText.text w → WordPlain w ∧ ∀ b ∈ wordSegments w, SegmentPlain b) := by
  obtain ⟨v, hv⟩ : ∃ v, lowerRead pathText.text 1 = .ok v := ⟨_, rfl⟩
  exact ⟨v, hv, integers_right_iff pathText 1 hv⟩

/-- The text `12abc`. -/
def letterText : Source := ⟨['1', '2', 'a', 'b', 'c'], by decide⟩

/-- It is read as the integer 12. -/
theorem letters_dropped : ∃ v, lowerRead letterText.text 1 = .ok v ∧
    v.erase = .ofList [.int 12] ∧ Makes letterText.text ['1', '2', 'a', 'b', 'c'] (.int 12) ∧
    ¬ IntegersRight letterText.text v.erase := by
  have hmakes : Makes letterText.text ['1', '2', 'a', 'b', 'c'] (.int 12) := .word (.here rfl)
  refine ⟨_, rfl, rfl, hmakes, fun h => ?_⟩
  obtain ⟨n, hn, -⟩ := (h.1 _ _ hmakes).2.1 12 rfl
  unfold Numeral.text at hn
  split at hn
  · cases hn
  · have hdigit := n.digits_isDigit 'a' (by rw [← hn]; decide)
    exact absurd hdigit (by decide)

end Dolorem.Reader
