import Dolorem.Reader.Sugar

/-!
# Printing

`print_list` writes a tree without the brackets around it. `print_read` says that
the reader gets a list back from what is printed for it, if its atoms are
integers, identifiers of the reader without special characters, and strings with
nothing to escape. The printed text is one way to write the list down, so this is
a matter of finding the forms it stands for.
-/

namespace Dolorem.Reader

/-! ## The printer -/

/-- An integer with the format `%li`. -/
def decimal (i : Int) : List Char :=
  if i < 0 then '-' :: Nat.toDigits 10 i.natAbs else Nat.toDigits 10 i.natAbs

/-- `print_list`; `float` is how the value of a float token is written with `%f`. -/
def printList (float : List Char → List Char) : Sexp → List Char
  | .nil => []
  | .cons a d =>
    (if a.isList then '(' :: (printList float a ++ [')']) else printList float a) ++
      (if d = .nil then [] else ' ' :: printList float d)
  | .ident s => s
  | .int i => decimal i
  | .float tok => float tok
  | .string s => '"' :: (s ++ ['"'])
  | .char i => ['\'', Char.ofNat (i % 256).toNat, '\'']

/-! ## The identifiers of the reader -/

namespace Sexp

/-- The identifiers in a tree. -/
def idents : Sexp → List (List Char)
  | nil => []
  | cons a d => a.idents ++ d.idents
  | ident s => [s]
  | _ => []

theorem idents_ofList : ∀ l : List Sexp, (ofList l).idents = l.flatMap idents
  | [] => rfl
  | a :: l => congrArg (a.idents ++ ·) (idents_ofList l)

end Sexp

/-- The reader can produce the identifier. -/
def Produced (w : List Char) : Prop :=
  ∃ (src : Source) (fileidx : Nat) (v : Val (List Char)),
    lowerRead src.text fileidx = .ok v ∧ w ∈ v.erase.idents

/-- What all identifiers of the reader look like. -/
structure IdentText (w : List Char) : Prop where
  ne_nil : w ≠ []
  word : ∀ c ∈ w, endsToken c = false
  no_dash : '-' ∉ w
  not_numeric : ∀ c, w.head? = some c → isDigit c = false

namespace IdentText

variable {w a b : List Char}

theorem numeric_eq_false (h : IdentText w) : numeric w = false := by
  obtain ⟨c, r, rfl⟩ := List.exists_cons_of_ne_nil h.ne_nil
  have hne : c ≠ '-' := fun hc => h.no_dash (hc ▸ List.mem_cons_self)
  have hdigit := h.not_numeric c rfl
  unfold numeric
  split
  next heq => exact absurd (List.cons.inj heq).1 hne
  next heq => rw [← (List.cons.inj heq).1, hdigit]
  next => rfl

theorem map_dash (h : IdentText w) : w.map dashToUnderscore = w := by
  refine (List.map_congr_left fun c hc => ?_).trans (List.map_id w)
  have hne : c ≠ '-' := fun heq => h.no_dash (heq ▸ hc)
  unfold dashToUnderscore
  rw [beq_eq_false_iff_ne.2 hne]
  rfl

/-- The pieces of a member path. -/
theorem split (h : IdentText w) (hs : splitColon w = some (a, b)) (ha : a ≠ []) (hb : b ≠ []) :
    IdentText a ∧ (numeric b = false → IdentText b) := by
  have hw := splitColon_eq hs
  subst hw
  have hword := h.word
  have hdash := h.no_dash
  rw [List.forall_mem_append, List.forall_mem_cons] at hword
  rw [List.mem_append, List.mem_cons, not_or, not_or] at hdash
  refine ⟨⟨ha, hword.1, hdash.1, fun c hc => h.not_numeric c ?_⟩,
    fun hnum => ⟨hb, hword.2.2, hdash.2.2, fun c hc => ?_⟩⟩
  · rw [List.head?_append, hc]
    rfl
  · obtain ⟨d, r, rfl⟩ := List.exists_cons_of_ne_nil hb
    cases hc
    have hne : c ≠ '-' := fun heq => hdash.2.2 (heq ▸ List.mem_cons_self)
    unfold numeric at hnum
    split at hnum
    next heq => exact absurd (List.cons.inj heq).1 hne
    next heq => rwa [(List.cons.inj heq).1]
    next heq => cases heq

end IdentText

theorem identText_scope : IdentText "scope".toList := by
  show IdentText ['s', 'c', 'o', 'p', 'e']
  refine ⟨List.cons_ne_nil _ _, ?_, by decide, ?_⟩
  · simp [endsToken, isWordBoundary]
  · rintro _ ⟨⟩
    rfl

theorem identText_memb : IdentText "memb".toList := by
  show IdentText ['m', 'e', 'm', 'b']
  refine ⟨List.cons_ne_nil _ _, ?_, by decide, ?_⟩
  · simp [endsToken, isWordBoundary]
  · rintro _ ⟨⟩
    rfl

/-- The identifiers of a member path. -/
theorem identVal_idents (loc : Loc) (k : Nat) : ∀ {w : List Char}, IdentText w →
    ∀ x ∈ (identVal loc k w).erase.idents, IdentText x := by
  induction k with
  | zero =>
    intro w h x hx
    rwa [List.mem_singleton.1 hx]
  | succ k ih =>
    intro w h x hx
    unfold identVal at hx
    cases hs : splitColon w with
    | none =>
      rw [hs] at hx
      rwa [List.mem_singleton.1 hx]
    | some ab =>
      obtain ⟨a, b⟩ := ab
      rw [hs] at hx
      dsimp only at hx
      split_ifs at hx with hab
      · rwa [List.mem_singleton.1 hx]
      · obtain ⟨ha, hb⟩ := not_or.1 hab
        obtain ⟨hta, htb⟩ := h.split hs ha hb
        rcases List.mem_append.1 hx with hx | hx
        · rw [List.mem_singleton.1 hx]
          exact identText_memb
        · rcases List.mem_append.1 hx with hx | hx
          · exact ih hta x hx
          · rw [show Val.erase (.cons _ (segmentVal loc b) _) = .cons _ .nil from rfl,
              Sexp.idents, Sexp.idents, List.append_nil] at hx
            unfold segmentVal at hx
            split_ifs at hx with hnum
            · cases hx
            · cases hx
            · rw [List.mem_singleton.1 hx]
              exact htb (Bool.eq_false_iff.2 hnum)

/-- An identifier token. -/
theorem nextToken_ident {pos : Nat} {c : Char} {R rest w : List Char} (h0 : c ≠ '\x00')
    (h : nextToken pos (c :: R) = .ok (.ident w, rest)) : IdentText w := by
  cases lead c with
  | blank hc =>
    rw [nextToken_blank hc] at h
    cases h
  | opener hc =>
    obtain ⟨_, _, ht⟩ := nextToken_opener_ok hc h
    cases ht
  | quote hc =>
    subst hc
    obtain ⟨_, _, _, _, ht⟩ := nextToken_quote_ok h
    cases ht
  | tick hc =>
    subst hc
    obtain ⟨_, _, ht⟩ := nextToken_tick_ok h
    cases ht
  | hash hc =>
    subst hc
    cases h
  | semi hc =>
    subst hc
    cases h
  | plain hc =>
    rw [nextToken_plain hc] at h
    split_ifs at h with hnum
    · unfold numberToken at h
      split_ifs at h <;> cases h
    · obtain ⟨v, hv, -⟩ := plain_split (R := R) hc h0
      rw [hv] at h
      cases h
      have hword : ∀ d ∈ c :: v, endsToken d = false := fun d hd => word_mem (c :: R) d (hv ▸ hd)
      refine ⟨List.cons_ne_nil _ _, fun d hd => ?_, fun hd => ?_, ?_⟩
      · obtain ⟨d', hd', rfl⟩ := List.mem_map.1 hd
        unfold dashToUnderscore
        split_ifs
        · rfl
        · exact hword d' hd'
      · obtain ⟨d', -, hd'⟩ := List.mem_map.1 hd
        unfold dashToUnderscore at hd'
        split_ifs at hd' with hdash
        · cases hd'
        · exact hdash (beq_iff_eq.2 hd')
      · rintro _ ⟨⟩
        unfold dashToUnderscore
        split_ifs with hdash
        · rfl
        · unfold numeric at hnum
          split at hnum
          next heq =>
            exact absurd (beq_iff_eq.2 (List.cons.inj heq).1) hdash
          next heq =>
            rw [(List.cons.inj heq).1]
            exact Bool.eq_false_iff.2 hnum
          next heq => cases heq

/-- The identifiers of all items. -/
def Items.IdentTexts (it : Items) : Prop :=
  ∀ a ∈ it.items, ∀ w ∈ a.idents, IdentText w

namespace Items.IdentTexts

variable {it it' : Items} {r : Sexp}

theorem empty : Items.empty.IdentTexts := fun _ h => nomatch h

theorem insertPart (h : it.IdentTexts) (hr : ∀ w ∈ r.idents, IdentText w) :
    (it.insertPart r).IdentTexts :=
  List.forall_mem_append.2 ⟨h, List.forall_mem_singleton.2 hr⟩

theorem insertScope (h : it.IdentTexts) (hr : ∀ w ∈ r.idents, IdentText w) :
    (it.insertScope r).IdentTexts :=
  List.forall_mem_append.2 ⟨h, List.forall_mem_singleton.2
    (List.forall_mem_cons.2 ⟨identText_scope, hr⟩)⟩

theorem ofList {l : List Sexp} (h : ∀ a ∈ l, ∀ w ∈ a.idents, IdentText w) :
    ∀ w ∈ (Sexp.ofList l).idents, IdentText w := by
  intro w hw
  rw [Sexp.idents_ofList] at hw
  obtain ⟨a, ha, hw⟩ := List.mem_flatMap.1 hw
  exact h a ha w hw

theorem semi (h : it.IdentTexts) (hs : it.semi = some it') : it'.IdentTexts := by
  obtain ⟨g, -, rfl⟩ := Option.map_eq_some_iff.1 hs
  refine List.forall_mem_append.2 ⟨fun a ha => h a (List.mem_of_mem_take ha),
    List.forall_mem_singleton.2 (ofList fun a ha => h a (List.mem_of_mem_drop ha))⟩

theorem addToken {nested : List Char → Read Sexp} {t : Token} (h : it.IdentTexts)
    (ht : ∀ w, t = .ident w → IdentText w)
    (hnest : ∀ curly body r, t = .group curly body → nested body = .ok r →
      ∀ w ∈ r.idents, IdentText w)
    (hrun : it.addToken nested t = .ok it') : it'.IdentTexts := by
  cases t with
  | skip =>
    cases hrun
    exact h
  | semi =>
    dsimp only [Items.addToken] at hrun
    cases hs : it.semi with
    | none =>
      rw [hs] at hrun
      cases hrun
    | some it₁ =>
      rw [hs] at hrun
      cases hrun
      exact h.semi hs
  | group curly body =>
    dsimp only [Items.addToken] at hrun
    cases hn : nested body with
    | error e =>
      rw [hn] at hrun
      cases hrun
    | ok r =>
      rw [hn] at hrun
      have hr := hnest curly body r rfl hn
      cases curly <;> cases hrun
      · exact h.insertPart hr
      · exact h.insertScope hr
  | ident w =>
    cases hrun
    exact h.insertPart (identVal_idents _ _ (ht w rfl))
  | int i =>
    cases hrun
    exact h.insertPart fun _ hw => nomatch hw
  | float tok =>
    cases hrun
    exact h.insertPart fun _ hw => nomatch hw
  | string s =>
    cases hrun
    exact h.insertPart fun _ hw => nomatch hw
  | char i =>
    cases hrun
    exact h.insertPart fun _ hw => nomatch hw

end Items.IdentTexts

theorem readItems_idents (k : Nat) : ∀ {R : List Char} {it it' : Items}, '\x00' ∉ R →
    it.IdentTexts → readItems k R it = .ok it' → it'.IdentTexts := by
  induction k with
  | zero =>
    intro R it it' _ _ hrun
    cases hrun
  | succ k ih =>
    intro R it it' hn hit hrun
    cases R with
    | nil =>
      cases hrun
      exact hit
    | cons c R =>
      unfold readItems at hrun
      cases hnt : nextToken 0 (c :: R) with
      | error e =>
        rw [hnt] at hrun
        cases hrun
      | ok x =>
        obtain ⟨t, rest⟩ := x
        rw [hnt] at hrun
        simp only [Read.ok_bind] at hrun
        have hsuf := nextToken_suffix (ne_nul_of_not_mem hn) hnt
        cases ha : it.addToken (fun body => (Sexp.ofList ·.items) <$> readItems k body .empty) t with
        | error e =>
          rw [ha] at hrun
          cases hrun
        | ok it₁ =>
          rw [ha] at hrun
          refine ih (fun hm => not_mem_tail hn (hsuf.subset hm)) (hit.addToken ?_ ?_ ha) hrun
          · rintro w rfl
            exact nextToken_ident (ne_nul_of_not_mem hn) hnt
          · rintro curly body r rfl hr
            cases hb : readItems k body .empty with
            | error e =>
              rw [hb] at hr
              cases hr
            | ok itb =>
              rw [hb] at hr
              cases hr
              exact Items.IdentTexts.ofList
                (ih (nextToken_group_lt hn hnt).1 .empty hb)

/-- What the reader can produce. -/
theorem Produced.identText {w : List Char} (h : Produced w) : IdentText w := by
  obtain ⟨src, fileidx, v, hv, hw⟩ := h
  have htree : ReadsTo src.text fileidx v.erase := ⟨v, hv, rfl⟩
  rw [readsTo_iff_tree fileidx src.nul_free, tree] at htree
  cases hr : readOn src.text .empty with
  | error e =>
    rw [hr] at htree
    cases htree
  | ok it =>
    rw [hr] at htree
    rw [← Except.ok.inj htree] at hw
    exact Items.IdentTexts.ofList (readItems_idents _ src.nul_free .empty hr) w hw

/-! ## What is printed, as forms -/

theorem isDigit_of_mem_decimal {n : Nat} {c : Char} (h : c ∈ Nat.toDigits 10 n) : isDigit c := by
  have hc := Nat.isDigit_of_mem_toDigits (by decide) (by decide) h
  unfold Char.isDigit at hc
  unfold isDigit
  rw [Bool.and_eq_true] at hc ⊢
  exact ⟨decide_eq_true (of_decide_eq_true hc.1), decide_eq_true (of_decide_eq_true hc.2)⟩

/-- The loop of `strtol` is that of `Nat.ofDigitChars`. -/
theorem digitsVal_eq {ds : List Char} (h : ∀ c ∈ ds, isDigit c) :
    digitsVal ds = Nat.ofDigitChars 10 ds 0 := by
  have hloop : ∀ m : Nat,
      ds.foldl (fun n d => 10 * n + ((d.toNat : Int) - 48)) (m : Int) = Nat.ofDigitChars 10 ds m := by
    induction ds with
    | nil => exact fun _ => rfl
    | cons c ds ih =>
      intro m
      obtain ⟨hc, hds⟩ := List.forall_mem_cons.1 h
      unfold isDigit at hc
      rw [Bool.and_eq_true] at hc
      have hle : 48 ≤ c.toNat := of_decide_eq_true hc.1
      rw [List.foldl_cons, Nat.ofDigitChars_cons, ← ih hds]
      congr 1
      show 10 * (m : Int) + ((c.toNat : Int) - 48) = ((10 * m + (c.toNat - 48) : Nat) : Int)
      omega
  exact hloop 0

/-- An integer is printed as the numeral for it. -/
def numeral (i : Int) (h : -2 ^ 63 ≤ i ∧ i < 2 ^ 63) : Numeral where
  negative := decide (i < 0)
  digits := Nat.toDigits 10 i.natAbs
  digits_ne_nil := Nat.toDigits_ne_nil
  digits_isDigit _ hc := isDigit_of_mem_decimal hc
  range := by
    rw [digitsVal_eq fun _ hc => isDigit_of_mem_decimal hc, Nat.ofDigitChars_ten_toDigits]
    split_ifs with hneg
    · have hneg' := of_decide_eq_true hneg
      omega
    · have hneg' : ¬ i < 0 := fun h => hneg (decide_eq_true h)
      omega

theorem numeral_value (i : Int) (h : -2 ^ 63 ≤ i ∧ i < 2 ^ 63) : (numeral i h).value = i := by
  have hdigits : digitsVal (numeral i h).digits = i.natAbs := by
    rw [digitsVal_eq (numeral i h).digits_isDigit]
    exact congrArg Nat.cast Nat.ofDigitChars_ten_toDigits
  unfold Numeral.value
  rw [hdigits]
  show (if decide (i < 0) = true then _ else _) = i
  split_ifs with hneg
  · have hneg' := of_decide_eq_true hneg
    omega
  · have hneg' : ¬ i < 0 := fun h => hneg (decide_eq_true h)
    omega

theorem numeral_text (i : Int) (h : -2 ^ 63 ≤ i ∧ i < 2 ^ 63) : (numeral i h).text = decimal i := by
  unfold Numeral.text decimal
  show (if decide (i < 0) = true then _ else _) = _
  simp only [decide_eq_true_eq]
  rfl

/-- The atoms that can be printed and read: integers in the range of `long`, identifiers of the
reader without a colon, quote or bracket, and strings without a quote, backslash, bracket or `#`. -/
inductive PrintableAtom : Sexp → Prop
  | int {i : Int} : -2 ^ 63 ≤ i ∧ i < 2 ^ 63 → PrintableAtom (.int i)
  | ident {w : List Char} : Produced w →
      (∀ c ∈ w, c ≠ ':' ∧ c ≠ '"' ∧ c ≠ '\'' ∧ isOpener c = false ∧ isCloser c = false) →
      PrintableAtom (.ident w)
  | string {s : List Char} :
      (∀ c ∈ s, c ≠ '\x00' ∧ c ≠ '"' ∧ c ≠ '\\' ∧ c ≠ '#' ∧ isOpener c = false ∧
        isCloser c = false) → PrintableAtom (.string s)

/-- The items of a list of such atoms, nested to any depth. -/
inductive Printable : List Sexp → Prop
  | nil : Printable []
  | atom {a : Sexp} {as : List Sexp} : PrintableAtom a → Printable as → Printable (a :: as)
  | list {bs as : List Sexp} : Printable bs → Printable as → Printable (.ofList bs :: as)

/-- A form that stands for one item. -/
def Stands (f : Form) (a : Sexp) : Prop :=
  ∀ done seg fs, desugar done seg (f :: fs) = desugar done (seg ++ [a]) fs

theorem PrintableAtom.form (float : List Char → List Char) {a : Sexp} (h : PrintableAtom a) :
    a.isList = false ∧ ∃ f, Written f (printList float a) ∧ Stands f a := by
  cases h with
  | @int i h =>
    refine ⟨rfl, .int (numeral i h), ?_, fun done seg fs => ?_⟩
    · have hw := Written.int (numeral i h)
      rwa [numeral_text] at hw
    · show desugar done (seg ++ [.int (numeral i h).value]) fs = _
      rw [numeral_value]
  | @ident w hp hw =>
    have htext := hp.identText
    let x : Name := ⟨w, htext.ne_nil, fun c hc =>
      ⟨htext.word c hc, (hw c hc).2.2.2.1, (hw c hc).1, (hw c hc).2.1, (hw c hc).2.2.1⟩,
      htext.numeric_eq_false⟩
    refine ⟨rfl, .ident x, .ident x, fun done seg fs => ?_⟩
    show desugar done (seg ++ [.ident (w.map dashToUnderscore)]) fs = _
    rw [htext.map_dash]
  | @string s hs => exact ⟨rfl, .string ⟨s, hs⟩, .string ⟨s, hs⟩, fun _ _ _ => rfl⟩

theorem blank_nil : Blank [] := fun _ h => nomatch h

theorem Renders.space {fs : List Form} {text : List Char} (h : Renders fs text) :
    Renders fs (' ' :: text) := by
  have hspace : ∀ {g : List Char}, Blank g → Blank (' ' :: g) :=
    fun hg => List.forall_mem_cons.2 ⟨rfl, hg⟩
  cases h with
  | nil hg => exact .nil (hspace hg)
  | cons hg hw ht hsep => exact .cons (hspace hg) hw ht hsep

/-- The item of a list and the printed rest of the list, with a space in between. -/
theorem renders_item {float : List Char → List Char} {f : Form} {fs : List Form} {w : List Char} {as : List Sexp}
    (hw : Written f w) (h : Renders fs (printList float (.ofList as))) (hnil : as = [] → fs = []) :
    Renders (f :: fs)
      (w ++ if Sexp.ofList as = .nil then [] else ' ' :: printList float (.ofList as)) := by
  cases as with
  | nil =>
    rw [hnil rfl, if_pos (show Sexp.ofList [] = .nil from rfl)]
    exact .cons (g := []) blank_nil hw (.nil blank_nil) (.inr fun _ _ h => nomatch h)
  | cons a as =>
    rw [if_neg (by exact fun h => nomatch h)]
    refine .cons (g := []) blank_nil hw h.space (.inr ?_)
    rintro _ _ ⟨⟩
    rfl

/-- What is printed for a list is one way to write it. -/
theorem Printable.renders (float : List Char → List Char) {as : List Sexp} (h : Printable as) :
    ∃ fs, Renders fs (printList float (.ofList as)) ∧ (as = [] → fs = []) ∧
      ∀ done seg, desugar done seg fs = some (done ++ (seg ++ as)) := by
  induction h with
  | nil =>
    refine ⟨[], .nil blank_nil, fun _ => rfl, fun done seg => ?_⟩
    rw [List.append_nil]
    rfl
  | @atom a as ha _ ih =>
    obtain ⟨fs, hfs, hnil, hread⟩ := ih
    obtain ⟨hlist, f, hf, hstands⟩ := ha.form float
    refine ⟨f :: fs, ?_, (fun h => nomatch h), fun done seg => ?_⟩
    · show Renders _ ((if a.isList then _ else _) ++ _)
      rw [hlist]
      exact renders_item hf hfs hnil
    · rw [hstands, hread, List.append_assoc]
      rfl
  | @list bs as _ _ ihb ih =>
    obtain ⟨fs, hfs, hnil, hread⟩ := ih
    obtain ⟨gs, hgs, -, hreadb⟩ := ihb
    refine ⟨.group false gs :: fs, ?_, (fun h => nomatch h), fun done seg => ?_⟩
    · show Renders _ ((if (Sexp.ofList bs).isList then _ else _) ++ _)
      rw [Sexp.isList_ofList]
      exact renders_item (.group hgs) hfs hnil
    · show (((desugar [] [] gs).map fun l => bracketed false (.ofList l)).bind fun x =>
        desugar done (seg ++ [x]) fs) = _
      rw [hreadb]
      show desugar done (seg ++ [.ofList bs]) fs = _
      rw [hread, List.append_assoc]
      rfl

/-- Reading what is printed for a list yields the list. -/
theorem print_read (float : List Char → List Char) {as : List Sexp} (h : Printable as)
    (fileidx : Nat) : ReadsTo (printList float (.ofList as)) fileidx (.ofList as) := by
  obtain ⟨fs, hfs, -, hread⟩ := h.renders float
  have hout := hfs.read .empty
  rw [hread [] []] at hout
  obtain ⟨it, hit, hitems⟩ := hout
  rw [readsTo_iff_tree fileidx hfs.neutral.1, tree, hit]
  exact congrArg (fun l => Except.ok (Sexp.ofList l)) hitems

/-- The list `(() (-9223372036854775808 x) "a")`. -/
theorem print_read_example : ReadsTo
    (printList id (.ofList [.nil, .ofList [.int (-2 ^ 63), .ident ['x']], .string ['a']])) 1
    (.ofList [.nil, .ofList [.int (-2 ^ 63), .ident ['x']], .string ['a']]) := by
  have hx : Produced ['x'] := ⟨⟨['x'], by decide⟩, 1, _, rfl, List.mem_singleton.2 rfl⟩
  have hstring : PrintableAtom (.string ['a']) := .string (by simp [isOpener, isCloser])
  have hident : PrintableAtom (.ident ['x']) := .ident hx (by simp [isOpener, isCloser])
  have hinner : Printable [.int (-2 ^ 63), .ident ['x']] :=
    .atom (.int (by decide)) (.atom hident .nil)
  exact print_read id (.list .nil (.list hinner (.atom hstring .nil))) 1

end Dolorem.Reader
