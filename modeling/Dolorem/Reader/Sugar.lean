import Dolorem.Reader.Compose

/-!
# The sugar of the reader

`Form` is the source language without colons and character literals, `Renders`
how it is written down, with blanks between the tokens, and `desugar` what it
stands for: a round group is the list of its items, a curly one has `scope`
before them, and a `;` makes one list of the items before it, from the first
atom since the last `;` on.

`lowerRead_desugar`: the reader yields this tree, and reports an unexpected `;`
for the forms that stand for nothing.
-/

namespace Dolorem.Reader

/-! ## Forms -/

/-- An integer numeral in the range of `long`. -/
structure Numeral where
  negative : Bool
  digits : List Char
  digits_ne_nil : digits ≠ []
  digits_isDigit : ∀ c ∈ digits, isDigit c
  range : -2 ^ 63 ≤ (if negative then -digitsVal digits else digitsVal digits) ∧
    (if negative then -digitsVal digits else digitsVal digits) < 2 ^ 63

namespace Numeral

def value (n : Numeral) : Int :=
  if n.negative then -digitsVal n.digits else digitsVal n.digits

def text (n : Numeral) : List Char :=
  if n.negative then '-' :: n.digits else n.digits

end Numeral

/-- An identifier without a colon. -/
structure Name where
  chars : List Char
  chars_ne_nil : chars ≠ []
  chars_word : ∀ c ∈ chars, endsToken c = false ∧ isOpener c = false ∧
    c ≠ ':' ∧ c ≠ '"' ∧ c ≠ '\''
  not_numeric : numeric chars = false

/-- The text of a string literal with nothing to escape. -/
structure StringText where
  chars : List Char
  chars_plain : ∀ c ∈ chars, c ≠ '\x00' ∧ c ≠ '"' ∧ c ≠ '\\' ∧ c ≠ '#' ∧
    isOpener c = false ∧ isCloser c = false

structure CommentText where
  chars : List Char
  chars_line : ∀ c ∈ chars, c ≠ '\x00' ∧ c ≠ '\n'

inductive Form where
  | int (n : Numeral)
  | ident (w : Name)
  | string (s : StringText)
  | comment (s : CommentText)
  | semi
  | group (curly : Bool) (body : List Form)

def opener (curly : Bool) : Char :=
  if curly then '{' else '('

def closingFor (curly : Bool) : Char :=
  if curly then '}' else ')'

def Blank (g : List Char) : Prop :=
  ∀ c ∈ g, isBlank c

/-- There is a blank between `f` and the text `t` behind it; a comment ends with one. -/
def Separated (f : Form) (t : List Char) : Prop :=
  (∃ s, f = .comment s) ∨ ∀ c r, t = c :: r → isBlank c

mutual

/-- How a form is written. -/
inductive Written : Form → List Char → Prop
  | int (n : Numeral) : Written (.int n) n.text
  | ident (w : Name) : Written (.ident w) w.chars
  | string (s : StringText) : Written (.string s) ('"' :: (s.chars ++ ['"']))
  | comment (s : CommentText) : Written (.comment s) ('#' :: (s.chars ++ ['\n']))
  | semi : Written .semi [';']
  | group {curly : Bool} {body : List Form} {text : List Char} : Renders body text →
      Written (.group curly body) (opener curly :: (text ++ [closingFor curly]))

/-- How a list of forms is written: with at least one blank between any two,
which may be the newline of a comment, and any number of them at both ends. -/
inductive Renders : List Form → List Char → Prop
  | nil {g : List Char} : Blank g → Renders [] g
  | cons {g w t : List Char} {f : Form} {fs : List Form} : Blank g → Written f w →
      Renders fs t → Separated f t → Renders (f :: fs) (g ++ (w ++ t))

end

/-! ## What they stand for -/

/-- A `;` behind the items `seg`. -/
def closeGroup (seg : List Sexp) : Option (List Sexp) :=
  match seg.dropWhile Sexp.isList with
  | [] => none
  | x :: rest => some (seg.takeWhile Sexp.isList ++ [.ofList (x :: rest)])

mutual

/-- The item a form adds to its list. -/
def Form.item : Form → Option Sexp
  | .int n => some (.int n.value)
  | .ident w => some (.ident (w.chars.map dashToUnderscore))
  | .string s => some (.string s.chars)
  | .group curly body => (desugar [] [] body).map fun l => bracketed curly (.ofList l)
  | .comment _ => none
  | .semi => none

/-- The items of a list of forms, behind the items `done` up to the last `;`
and the items `seg` since. -/
def desugar (done seg : List Sexp) : List Form → Option (List Sexp)
  | [] => some (done ++ seg)
  | .comment _ :: fs => desugar done seg fs
  | .semi :: fs => (closeGroup seg).bind fun l => desugar (done ++ l) [] fs
  | f :: fs => f.item.bind fun x => desugar done (seg ++ [x]) fs

end

/-! ## Written text between brackets -/

/-- The pre-scan passes `w` without a change of its count. -/
def Neutral (w : List Char) : Prop :=
  ∀ (n : Nat) (Y : List Char), 0 < n →
    closer false n (w ++ Y) = w.foldr Closing.push (closer false n Y)

theorem Neutral.nil : Neutral [] := fun _ _ _ => rfl

theorem Neutral.append {v w : List Char} (hv : Neutral v) (hw : Neutral w) : Neutral (v ++ w) := by
  intro n Y hn
  rw [List.append_assoc, hv n _ hn, hw n _ hn, List.foldr_append]

theorem neutral_plain {w : List Char}
    (h : ∀ c ∈ w, c ≠ '#' ∧ isOpener c = false ∧ isCloser c = false) : Neutral w := by
  induction w with
  | nil => exact .nil
  | cons c w ih =>
    intro n Y hn
    obtain ⟨hh, ho, hc⟩ := h c List.mem_cons_self
    have hrec := ih (fun x hx => h x (List.mem_cons_of_mem _ hx)) n Y hn
    simp [closer, hh, ho, hc, hrec]

theorem neutral_comment (s : CommentText) : Neutral ('#' :: (s.chars ++ ['\n'])) := by
  intro n Y _
  have hline : ∀ c ∈ s.chars, (c != '\n') = true := by
    intro c hc
    simpa using (s.chars_line c hc).2
  have hd : (s.chars ++ '\n' :: Y).dropWhile (· != '\n') = '\n' :: Y := by
    rw [List.dropWhile_append_of_pos hline]
    rfl
  have ht : (s.chars ++ '\n' :: Y).takeWhile (· != '\n') = s.chars := by
    rw [List.takeWhile_append_of_pos hline]
    simp
  have hopen : closer false n ('#' :: (s.chars ++ '\n' :: Y)) =
      (closer true n (s.chars ++ '\n' :: Y)).push '#' := by simp [closer]
  simp only [List.cons_append, List.append_assoc, List.nil_append, hopen, closer_comment, hd, ht]
  simp

theorem Neutral.group {text : List Char} (curly : Bool) (h : Neutral text) :
    Neutral (opener curly :: (text ++ [closingFor curly])) := by
  intro n Y hn
  have hopen : closer false n (opener curly :: (text ++ closingFor curly :: Y)) =
      (closer false (n + 1) (text ++ closingFor curly :: Y)).push (opener curly) := by
    cases curly <;> rfl
  have hclose : closer false (n + 1) (closingFor curly :: Y) =
      (closer false n Y).push (closingFor curly) := by
    have hne : n ≠ 0 := Nat.ne_of_gt hn
    cases curly <;> simp [closer, closingFor, isOpener, isCloser, hne]
  simp only [List.cons_append, List.append_assoc, List.nil_append, hopen,
    h (n + 1) _ (Nat.succ_pos n), hclose]
  simp

theorem Blank.not_mem {g : List Char} (h : Blank g) : '\x00' ∉ g := fun hm => by
  simpa [isBlank] using h _ hm

theorem Blank.neutral {g : List Char} (h : Blank g) : Neutral g := by
  refine neutral_plain fun c hc => ?_
  have hb := h c hc
  simp only [isBlank, Bool.or_eq_true, beq_iff_eq] at hb
  rcases hb with (rfl | rfl) | rfl <;> exact ⟨by decide, rfl, rfl⟩

theorem ne_of_isDigit {c d : Char} (hc : isDigit c) (hd : isDigit d = false := by rfl) : c ≠ d := by
  rintro rfl
  rw [hc] at hd
  cases hd

theorem plain_of_isDigit {c : Char} (h : isDigit c) :
    endsToken c = false ∧ isOpener c = false ∧ isSpecial c = false := by
  have hne : ∀ {d : Char}, isDigit d = false → (c == d) = false :=
    fun hd => beq_eq_false_iff_ne.mpr (ne_of_isDigit h hd)
  refine ⟨?_, ?_, ?_⟩ <;>
    simp only [endsToken, isWordBoundary, isOpener, isSpecial, isBlank, isCloser,
      Bool.or_eq_false_iff]
  · refine ⟨hne rfl, ⟨⟨⟨⟨⟨hne rfl, hne rfl⟩, hne rfl⟩, hne rfl⟩, hne rfl⟩, hne rfl⟩, hne rfl⟩
  · exact ⟨hne rfl, hne rfl⟩
  · refine ⟨⟨⟨⟨⟨⟨⟨⟨hne rfl, hne rfl⟩, hne rfl⟩, hne rfl, hne rfl⟩, hne rfl, hne rfl⟩, hne rfl⟩, hne rfl⟩,
      hne rfl⟩, hne rfl⟩

namespace Numeral

/-- The characters of a numeral are word characters without special meaning. -/
theorem text_word (n : Numeral) : ∀ c ∈ n.text, endsToken c = false ∧ isOpener c = false ∧
    isSpecial c = false ∧ c ≠ '.' := by
  have hdig : ∀ c ∈ n.digits, endsToken c = false ∧ isOpener c = false ∧
      isSpecial c = false ∧ c ≠ '.' := by
    intro c hc
    obtain ⟨h1, h2, h3⟩ := plain_of_isDigit (n.digits_isDigit c hc)
    exact ⟨h1, h2, h3, ne_of_isDigit (n.digits_isDigit c hc)⟩
  intro c hc
  unfold text at hc
  split at hc
  · rcases List.mem_cons.mp hc with rfl | hc
    · exact ⟨rfl, rfl, rfl, by decide⟩
    · exact hdig c hc
  · exact hdig c hc

theorem text_numeric (n : Numeral) : numeric n.text := by
  obtain ⟨d, ds, hds⟩ := List.exists_cons_of_ne_nil n.digits_ne_nil
  have hd : isDigit d := n.digits_isDigit d (by simp [hds])
  have hend := (plain_of_isDigit hd).1
  have hne : d ≠ '-' := ne_of_isDigit hd
  unfold text
  split
  · simp [hds, numeric, hend]
  · simp [hds, numeric, hne, hd]

theorem text_ne_nil (n : Numeral) : n.text ≠ [] := by
  unfold text
  split
  · exact List.cons_ne_nil _ _
  · exact n.digits_ne_nil

/-- `strtol` reads a numeral to its value. -/
theorem strtol_text (n : Numeral) : strtol n.text = n.value := by
  have htake : n.digits.takeWhile isDigit = n.digits :=
    List.takeWhile_eq_self_iff.mpr n.digits_isDigit
  have hrange : -2 ^ 63 ≤ n.value ∧ n.value < 2 ^ 63 := n.range
  unfold value text at *
  split
  next hneg =>
    rw [if_pos hneg] at hrange
    rw [strtol_dash, htake]
    omega
  next hneg =>
    rw [if_neg hneg] at hrange
    obtain ⟨d, ds, hds⟩ := List.exists_cons_of_ne_nil n.digits_ne_nil
    rw [hds, strtol_digit (n.digits_isDigit d (by simp [hds])), ← hds, htake]
    omega

end Numeral

mutual

theorem Written.neutral : ∀ {f : Form} {w : List Char}, Written f w → '\x00' ∉ w ∧ Neutral w
  | _, _, .int n => by
    have hw := n.text_word
    refine ⟨fun hm => ?_, neutral_plain fun c hc => ?_⟩
    · simpa [endsToken] using (hw _ hm).1
    · have hs := (hw c hc).2.2.1
      simp only [isSpecial, Bool.or_eq_false_iff, beq_eq_false_iff_ne] at hs
      exact ⟨hs.1.2, hs.1.1.1.1.2, hs.1.1.1.1.1.2⟩
  | _, _, .ident w => by
    refine ⟨fun hm => ?_, neutral_plain fun c hc => ?_⟩
    · simpa [endsToken] using (w.chars_word _ hm).1
    · obtain ⟨he, ho, _⟩ := w.chars_word c hc
      simp only [endsToken, isWordBoundary, Bool.or_eq_false_iff, beq_eq_false_iff_ne] at he
      exact ⟨he.2.1.1.2, ho, by simp [isCloser, he]⟩
  | _, _, .string s => by
    refine ⟨fun hm => ?_, ?_⟩
    · simp only [List.mem_cons, List.mem_append, List.not_mem_nil, or_false] at hm
      rcases hm with h | h | h
      · cases h
      · exact (s.chars_plain _ h).1 rfl
      · cases h
    · refine neutral_plain fun c hc => ?_
      simp only [List.mem_cons, List.mem_append, List.not_mem_nil, or_false] at hc
      rcases hc with rfl | h | rfl
      · exact ⟨by decide, rfl, rfl⟩
      · exact (s.chars_plain c h).2.2.2
      · exact ⟨by decide, rfl, rfl⟩
  | _, _, .comment s => by
    refine ⟨fun hm => ?_, neutral_comment s⟩
    simp only [List.mem_cons, List.mem_append, List.not_mem_nil, or_false] at hm
    rcases hm with h | h | h
    · cases h
    · exact (s.chars_line _ h).1 rfl
    · cases h
  | _, _, .semi => ⟨by decide, neutral_plain (by simp [isOpener, isCloser])⟩
  | _, _, @Written.group curly _ _ h => by
    obtain ⟨hn, hneutral⟩ := Renders.neutral h
    refine ⟨fun hm => ?_, hneutral.group curly⟩
    simp only [List.mem_cons, List.mem_append, List.not_mem_nil, or_false] at hm
    rcases hm with h | h | h
    · cases curly <;> cases h
    · exact hn h
    · cases curly <;> cases h

/-- The pre-scan agrees with the brackets of the forms. -/
theorem Renders.neutral : ∀ {fs : List Form} {text : List Char}, Renders fs text →
    '\x00' ∉ text ∧ Neutral text
  | _, _, .nil hg => ⟨hg.not_mem, hg.neutral⟩
  | _, _, .cons hg hw ht _ => by
    obtain ⟨hnw, hneutral⟩ := Written.neutral hw
    obtain ⟨hnt, hneutral'⟩ := Renders.neutral ht
    refine ⟨fun hm => ?_, hg.neutral.append (hneutral.append hneutral')⟩
    simp only [List.mem_append] at hm
    rcases hm with h | h | h
    · exact hg.not_mem h
    · exact hnw h
    · exact hnt h

end

/-! ## The list under construction -/

/-- The list under construction holds `done` and `seg`, and `groupb` is where
the first atom of `seg` is. -/
structure Items.At (it : Items) (done seg : List Sexp) : Prop where
  items : it.items = done ++ seg
  groupb : it.groupb = if seg.dropWhile Sexp.isList = [] then none
    else some (done.length + (seg.takeWhile Sexp.isList).length)

namespace Items.At

variable {done seg : List Sexp} {it : Items}

theorem empty : Items.empty.At [] [] := ⟨rfl, rfl⟩

theorem insertList (h : it.At done seg) {x : Sexp} (hx : x.isList) (it' : Items)
    (hitems : it'.items = it.items ++ [x]) (hgroupb : it'.groupb = it.groupb) :
    it'.At done (seg ++ [x]) where
  items := by rw [hitems, h.items, List.append_assoc]
  groupb := by
    rw [hgroupb, h.groupb]
    by_cases hd : seg.dropWhile Sexp.isList = []
    · have hall := List.dropWhile_eq_nil_iff.mp hd
      have hd' : (seg ++ [x]).dropWhile Sexp.isList = [] := by
        rw [List.dropWhile_append_of_pos hall]
        simp [hx]
      rw [if_pos hd, if_pos hd']
    · obtain ⟨hd', ht⟩ := dropWhile_append_of_ne_nil (Y := [x]) hd
      rw [if_neg hd, if_neg (by simp [hd']), ht]

theorem insertPart (h : it.At done seg) (x : Sexp) : (it.insertPart x).At done (seg ++ [x]) := by
  cases hx : x.isList with
  | true => exact h.insertList hx _ rfl (by simp [Items.insertPart, hx])
  | false =>
    refine ⟨by rw [Items.insertPart, h.items, List.append_assoc], ?_⟩
    simp only [Items.insertPart, hx, Bool.not_false, Bool.true_and, h.groupb, h.items]
    by_cases hd : seg.dropWhile Sexp.isList = []
    · have hall := List.dropWhile_eq_nil_iff.mp hd
      have hd' : (seg ++ [x]).dropWhile Sexp.isList = [x] := by
        rw [List.dropWhile_append_of_pos hall]
        simp [hx]
      have ht : (seg ++ [x]).takeWhile Sexp.isList = seg := by
        rw [List.takeWhile_append_of_pos hall]
        simp [hx]
      simp [hd, hd', ht]
    · obtain ⟨hd', ht⟩ := dropWhile_append_of_ne_nil (Y := [x]) hd
      simp [hd, hd', ht]

theorem insertScope (h : it.At done seg) (x : Sexp) :
    (it.insertScope x).At done (seg ++ [.cons (.ident "scope".toList) x]) :=
  h.insertList rfl _ rfl rfl

/-- A `;` does what `closeGroup` says. -/
theorem semi (h : it.At done seg) :
    closeGroup seg = none ∧ it.semi = none ∨
    ∃ l it', closeGroup seg = some l ∧ it.semi = some it' ∧ it'.At (done ++ l) [] := by
  cases hd : seg.dropWhile Sexp.isList with
  | nil => exact .inl ⟨by simp [closeGroup, hd], by simp [Items.semi, h.groupb, hd]⟩
  | cons x rest =>
    have hitems : it.items = (done ++ seg.takeWhile Sexp.isList) ++ x :: rest := by
      rw [h.items, ← hd, List.append_assoc, List.takeWhile_append_dropWhile]
    refine .inr ⟨seg.takeWhile Sexp.isList ++ [.ofList (x :: rest)],
      ⟨done ++ (seg.takeWhile Sexp.isList ++ [.ofList (x :: rest)]), none⟩,
      by simp only [closeGroup, hd], ?_, ⟨by rw [List.append_nil], rfl⟩⟩
    rw [Items.semi, h.groupb, hd, if_neg (List.cons_ne_nil _ _), Option.map_some, hitems,
      ← List.length_append, List.take_left, List.drop_left, List.append_assoc]

end Items.At

/-! ## Reading what is written -/

/-- `x` is the outcome the reference gives. -/
def Outcome (x : Read Items) : Option (List Sexp) → Prop
  | some l => ∃ it, x = .ok it ∧ it.items = l
  | none => x = .error (.error 0 "unexpected \";\"")

section
variable {w Y : List Char} {it : Items}

theorem readOn_blank {g : List Char} (hg : Blank g) (hn : '\x00' ∉ g ++ Y) :
    readOn (g ++ Y) it = readOn Y it := by
  induction g with
  | nil => rfl
  | cons c g ih =>
    have hc : isBlank c := hg c List.mem_cons_self
    refine (readOn_step hn (nextToken_blank (by simp [hc]))).mpr ?_
    exact (ih (fun x hx => hg x (List.mem_cons_of_mem _ hx)) (not_mem_tail hn)).symm ▸ rfl

theorem endsToken_blank {c : Char} (hc : isBlank c) : endsToken c := by
  simp only [isBlank, Bool.or_eq_true, beq_iff_eq] at hc
  rcases hc with (rfl | rfl) | rfl <;> rfl

/-- A word before what ends it, or at the end. -/
theorem word_before (hw : ∀ c ∈ w, endsToken c = false) (hY : ∀ c r, Y = c :: r → endsToken c) :
    word (w ++ Y) = w ∧ afterWord (w ++ Y) = Y := by
  have hw' : ∀ c ∈ w, (!endsToken c) = true := fun c hc => by simp [hw c hc]
  have hY' : Y.takeWhile (!endsToken ·) = [] ∧ Y.dropWhile (!endsToken ·) = Y := by
    cases Y with
    | nil => exact ⟨rfl, rfl⟩
    | cons c r => simp [hY c r rfl]
  rw [word, afterWord, List.takeWhile_append_of_pos hw', List.dropWhile_append_of_pos hw', hY'.1,
    hY'.2, List.append_nil]
  exact ⟨rfl, rfl⟩

theorem numeric_before (hne : w ≠ []) (hY : ∀ c r, Y = c :: r → endsToken c) :
    numeric (w ++ Y) = numeric w := by
  cases Y with
  | nil => rw [List.append_nil]
  | cons c r =>
    obtain ⟨x, w, rfl⟩ := List.exists_cons_of_ne_nil hne
    exact numeric_append_closer (hY c r rfl)

theorem read_int (n : Numeral) (hn : '\x00' ∉ n.text ++ Y)
    (hY : ∀ c r, Y = c :: r → endsToken c) :
    readOn (n.text ++ Y) it = readOn Y (it.insertPart (.int n.value)) := by
  obtain ⟨c, w, hcw⟩ := List.exists_cons_of_ne_nil n.text_ne_nil
  have hword := n.text_word
  obtain ⟨hw, ha⟩ := word_before (fun c hc => (hword c hc).1) hY
  have hdot : n.text.contains '.' = false := by
    rw [Bool.eq_false_iff, ne_eq, List.contains_iff_mem]
    exact fun hm => (hword _ hm).2.2.2 rfl
  have hnt : nextToken 0 (n.text ++ Y) = .ok (.int n.value, Y) := by
    have hplain : nextToken 0 (c :: (w ++ Y)) = _ :=
      nextToken_plain (hword c (by simp [hcw])).2.2.1
    rw [← List.cons_append, ← hcw] at hplain
    rw [hplain, hw, ha, numeric_before n.text_ne_nil hY, n.text_numeric, if_pos rfl, numberToken,
      hdot, n.strtol_text]
    rfl
  rw [hcw] at hn hnt ⊢
  exact (readOn_step hn hnt).mpr rfl

theorem splitColon_none {w : List Char} (h : ':' ∉ w) : splitColon w = none := by
  cases hs : splitColon w with
  | none => rfl
  | some x => exact absurd (by rw [splitColon_eq hs]; simp) h

theorem read_ident (x : Name) (hn : '\x00' ∉ x.chars ++ Y)
    (hY : ∀ c r, Y = c :: r → endsToken c) :
    readOn (x.chars ++ Y) it =
      readOn Y (it.insertPart (.ident (x.chars.map dashToUnderscore))) := by
  obtain ⟨c, w, hcw⟩ := List.exists_cons_of_ne_nil x.chars_ne_nil
  have hword := x.chars_word
  obtain ⟨hw, ha⟩ := word_before (fun c hc => (hword c hc).1) hY
  have hspecial : isSpecial c = false := by
    obtain ⟨he, ho, _, hq, ht⟩ := hword c (by simp [hcw])
    simp only [endsToken, isWordBoundary, Bool.or_eq_false_iff, beq_eq_false_iff_ne] at he
    simp [isSpecial, isBlank, isCloser, he, ho, hq, ht]
  have hcolon : ':' ∉ x.chars.map dashToUnderscore := by
    intro hm
    obtain ⟨y, hy, he⟩ := List.mem_map.mp hm
    unfold dashToUnderscore at he
    split at he
    · cases he
    · exact (hword y hy).2.2.1 he
  have htree : atomTree (.ident (x.chars.map dashToUnderscore)) =
      .ident (x.chars.map dashToUnderscore) := by
    rw [atomTree, atomVal]
    cases (x.chars.map dashToUnderscore).length <;> simp [identVal, splitColon_none hcolon, Val.erase]
  have hnt : nextToken 0 (x.chars ++ Y) = .ok (.ident (x.chars.map dashToUnderscore), Y) := by
    have hplain : nextToken 0 (c :: (w ++ Y)) = _ := nextToken_plain hspecial
    rw [← List.cons_append, ← hcw] at hplain
    rw [hplain, hw, ha, numeric_before x.chars_ne_nil hY, x.not_numeric, if_neg Bool.false_ne_true]
  rw [hcw] at hn hnt ⊢
  refine (readOn_step hn hnt).mpr ?_
  rw [← hcw, ← htree]
  rfl

theorem literal_plain {pos : Nat} {s : List Char} (hs : ∀ c ∈ s, c ≠ '"' ∧ c ≠ '\\')
    (hY : ∀ c r, Y = c :: r → isBlank c) :
    ∀ {p : Char}, p ≠ '\\' → literal pos (some p) (s ++ '"' :: Y) = .ok (s, Y) := by
  induction s with
  | nil =>
    intro p hp
    have hhead : Y.head? ≠ some '\\' := by
      cases Y with
      | nil => simp
      | cons c r =>
        have hc := hY c r rfl
        intro he
        cases he
        cases hc
    simp [literal, hp, hhead]
  | cons c s ih =>
    intro p _
    obtain ⟨hq, hb⟩ := hs c List.mem_cons_self
    simp [literal, hq, ih (fun x hx => hs x (List.mem_cons_of_mem _ hx)) hb]

theorem decode_plain_text {pos : Nat} {s : List Char} (hs : ∀ c ∈ s, c ≠ '"' ∧ c ≠ '\\') :
    decode pos '"' false s = .ok s := by
  induction s with
  | nil => rfl
  | cons c s ih =>
    obtain ⟨hq, hb⟩ := hs c List.mem_cons_self
    rw [decode_plain pos hq hb, ih fun x hx => hs x (List.mem_cons_of_mem _ hx)]
    rfl

theorem read_string (s : StringText) (hn : '\x00' ∉ '"' :: (s.chars ++ ['"']) ++ Y)
    (hY : ∀ c r, Y = c :: r → isBlank c) :
    readOn ('"' :: (s.chars ++ ['"']) ++ Y) it = readOn Y (it.insertPart (.string s.chars)) := by
  have hs : ∀ c ∈ s.chars, c ≠ '"' ∧ c ≠ '\\' := fun c hc =>
    ⟨(s.chars_plain c hc).2.1, (s.chars_plain c hc).2.2.1⟩
  have hnt : nextToken 0 ('"' :: (s.chars ++ ['"'] ++ Y)) = .ok (.string s.chars, Y) := by
    rw [nextToken_quote, List.append_assoc, List.singleton_append, literal_plain hs hY (by decide)]
    simp [decode_plain_text hs]
  exact (readOn_step hn hnt).mpr rfl

theorem read_comment (s : CommentText) (hn : '\x00' ∉ '#' :: (s.chars ++ ['\n']) ++ Y) :
    readOn ('#' :: (s.chars ++ ['\n']) ++ Y) it = readOn Y it := by
  have hline : ∀ c ∈ s.chars, (c != '\n') = true := by
    intro c hc
    simpa using (s.chars_line c hc).2
  have hnl : (s.chars ++ ['\n'] ++ Y).dropWhile (· != '\n') = '\n' :: Y := by
    rw [List.append_assoc, List.dropWhile_append_of_pos hline]
    rfl
  have hnY : '\x00' ∉ '\n' :: Y := by
    intro hm
    rcases List.mem_cons.mp hm with h | h
    · cases h
    · exact hn (List.mem_append_right _ h)
  refine (readOn_step (R := s.chars ++ ['\n'] ++ Y) hn nextToken_hash).mpr ?_
  rw [hnl]
  exact ((readOn_step hnY (nextToken_blank rfl)).mpr rfl).symm

theorem read_semi (hn : '\x00' ∉ [';'] ++ Y) :
    readOn ([';'] ++ Y) it = (it.addToken tree .semi >>= readOn Y) :=
  (readOn_step hn nextToken_semi).mpr rfl

theorem read_group {curly : Bool} {text : List Char} (hneutral : Neutral text)
    (hn : '\x00' ∉ opener curly :: (text ++ [closingFor curly]) ++ Y) :
    readOn (opener curly :: (text ++ [closingFor curly]) ++ Y) it =
      (it.addToken tree (.group curly text) >>= readOn Y) := by
  have hclose : closer false 1 (closingFor curly :: Y) = .found [] Y := by cases curly <;> rfl
  have hnt : nextToken 0 (opener curly :: (text ++ [closingFor curly] ++ Y)) =
      .ok (.group curly text, Y) := by
    rw [nextToken_opener (by cases curly <;> rfl), List.append_assoc, List.singleton_append,
      hneutral 1 _ Nat.one_pos, foldr_push_found hclose, List.append_nil]
    cases curly <;> rfl
  exact (readOn_step hn hnt).mpr rfl

end

mutual

/-- A written form adds its item, if what follows it is read as it should. -/
theorem Written.read : ∀ {f : Form} {w : List Char}, Written f w →
    ∀ {fs : List Form} {Y : List Char} {done seg : List Sexp} {it : Items},
      '\x00' ∉ w ++ Y → Separated f Y → it.At done seg →
      (∀ {done' seg' : List Sexp} {it' : Items}, it'.At done' seg' →
        Outcome (readOn Y it') (desugar done' seg' fs)) →
      Outcome (readOn (w ++ Y) it) (desugar done seg (f :: fs))
  | _, _, .int n => by
    intro hn hY hit hrest
    have hblank := hY.resolve_left fun ⟨_, h⟩ => nomatch h
    rw [read_int n hn fun c r h => endsToken_blank (hblank c r h)]
    exact hrest (hit.insertPart _)
  | _, _, .ident x => by
    intro hn hY hit hrest
    have hblank := hY.resolve_left fun ⟨_, h⟩ => nomatch h
    rw [read_ident x hn fun c r h => endsToken_blank (hblank c r h)]
    exact hrest (hit.insertPart _)
  | _, _, .string s => by
    intro hn hY hit hrest
    rw [read_string s hn (hY.resolve_left fun ⟨_, h⟩ => nomatch h)]
    exact hrest (hit.insertPart _)
  | _, _, .comment s => by
    intro hn _ hit hrest
    rw [read_comment s hn]
    exact hrest hit
  | _, _, .semi => by
    intro hn _ hit hrest
    rw [read_semi hn]
    rcases hit.semi with ⟨hc, hs⟩ | ⟨l, it', hc, hs, hit'⟩
    · simp [Items.addToken, hs, desugar, hc, Outcome]
    · simp only [Items.addToken, hs, desugar, hc, Option.bind_some]
      exact hrest hit'
  | _, _, @Written.group curly body text h => by
    intro hn _ hit hrest
    rw [read_group h.neutral.2 hn]
    have hbody := Renders.read h .empty
    cases hd : desugar [] [] body with
    | none =>
      rw [hd] at hbody
      have htree := tree_error_iff.mpr hbody
      simp [Items.addToken, htree, desugar, Form.item, hd, Outcome]
    | some l =>
      rw [hd] at hbody
      obtain ⟨it', hr, rfl⟩ := hbody
      have htree : tree text = .ok (.ofList it'.items) := by rw [tree, hr]; rfl
      simp only [Items.addToken, htree, desugar, Form.item, hd, Option.map_some, Option.bind_some]
      cases curly with
      | true => exact hrest (hit.insertScope _)
      | false => exact hrest (hit.insertPart _)

/-- Forms are read to the items they stand for. -/
theorem Renders.read : ∀ {fs : List Form} {text : List Char}, Renders fs text →
    ∀ {done seg : List Sexp} {it : Items}, it.At done seg →
      Outcome (readOn text it) (desugar done seg fs)
  | _, _, .nil (g := g) hg => by
    intro hit
    rw [← List.append_nil g, readOn_blank hg (by simpa using hg.not_mem)]
    exact ⟨_, rfl, hit.items⟩
  | _, _, .cons hg hw ht hsep => by
    intro hit
    have hn : '\x00' ∉ _ := (Renders.cons hg hw ht hsep).neutral.1
    rw [readOn_blank hg hn]
    exact Written.read hw (fun hm => hn (List.mem_append_right _ hm)) hsep hit
      fun hit' => Renders.read ht hit'

end

/-- The reader implements its sugar. -/
theorem lowerRead_desugar {fs : List Form} {text : List Char} (h : Renders fs text)
    (fileidx : Nat) :
    (∀ l, desugar [] [] fs = some l → ReadsTo text fileidx (.ofList l)) ∧
    (desugar [] [] fs = none →
      ∃ pos, lowerRead text fileidx = .error (.error pos "unexpected \";\"")) := by
  have hread := h.read .empty
  refine ⟨fun l hl => ?_, fun hnone => ?_⟩
  · rw [hl] at hread
    obtain ⟨it, hit, rfl⟩ := hread
    rw [readsTo_iff_tree fileidx h.neutral.1, tree, hit]
    rfl
  · rw [hnone] at hread
    have htree := lowerRead_tree text fileidx h.neutral.1
    rw [tree_error_iff.mpr hread] at htree
    cases hl : lowerRead text fileidx with
    | ok v => simp [hl] at htree
    | error e =>
      cases e with
      | error pos msg =>
        simp only [hl, Read.error_map, forget_error, Stop.forget, Except.error.injEq,
          Stop.error.injEq, true_and] at htree
        exact ⟨pos, by rw [htree]⟩
      | _ => simp [hl, Stop.forget] at htree

theorem lowerRead_desugar_example :
    ReadsTo "(f) #c\nx-y ;".toList 0
      (.ofList [.ofList [.ident ['f']], .ofList [.ident "x_y".toList]]) := by
  let f : Name := ⟨['f'], by decide, by simp [endsToken, isWordBoundary, isOpener], by decide⟩
  let x : Name := ⟨['x', '-', 'y'], by decide, by simp [endsToken, isWordBoundary, isOpener],
    by decide⟩
  let c : CommentText := ⟨['c'], by simp⟩
  have hblank : Blank [' '] := fun c hc => by rw [List.mem_singleton.1 hc]; rfl
  have hnil : Blank [] := fun _ hc => nomatch hc
  have hbody : Renders [.ident f] ['f'] :=
    .cons (g := []) (t := []) hnil (.ident f) (.nil hnil) (.inr (by rintro c r ⟨⟩))
  have hsemi : Renders [.semi] [' ', ';'] :=
    .cons (g := [' ']) (t := []) hblank .semi (.nil hnil) (.inr (by rintro c r ⟨⟩))
  have hx : Renders [.ident x, .semi] ['x', '-', 'y', ' ', ';'] :=
    .cons (g := []) hnil (.ident x) hsemi (.inr (by rintro c r ⟨⟩; rfl))
  have hc : Renders [.comment c, .ident x, .semi] " #c\nx-y ;".toList :=
    .cons (g := [' ']) hblank (.comment c) hx (.inl ⟨c, rfl⟩)
  have h : Renders [.group false [.ident f], .comment c, .ident x, .semi]
      "(f) #c\nx-y ;".toList :=
    .cons (g := []) hnil (.group hbody) hc (.inr (by rintro c r ⟨⟩; rfl))
  exact (lowerRead_desugar h 0).1 _ (by decide)

end Dolorem.Reader
