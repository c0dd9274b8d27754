import Dolorem.Reader.Refine
import Dolorem.Reader.Items

/-!
# Source positions

Every value has a `CharIdx` and a `FileIdx`. Here is what they should be:
`located` reads a text to a tree in which each element of a list carries the
offset it comes from, without any cell of the tree having a position, and
`Positioned` compares the tree that was read with it. `positioned_iff` says that
the two agree except for what `transform_identifier` makes of a member path, and
for offsets an `unsigned int` does not hold.
-/

namespace Dolorem.Reader

/-! ## Where the elements of a list come from -/

/-- A tree in which every element of a list has the offset it comes from. -/
inductive Located where
  | nil
  | cons (pos : Nat) (car cdr : Located)
  | atom (x : Sexp)
deriving DecidableEq, Repr

namespace Located

/-- Everything in the tree comes from `pos`. -/
def ofSexp (pos : Nat) : Sexp → Located
  | .nil => nil
  | .cons a d => cons pos (ofSexp pos a) (ofSexp pos d)
  | x => atom x

def ofList : List (Nat × Located) → Located
  | [] => nil
  | (pos, a) :: l => cons pos a (ofList l)

def isList : Located → Bool
  | nil | cons _ _ _ => true
  | atom _ => false

/-- Every offset in the tree. -/
def All (Q : Nat → Prop) : Located → Prop
  | nil => True
  | cons pos a d => Q pos ∧ a.All Q ∧ d.All Q
  | atom _ => True

def map (f : Nat → Nat) : Located → Located
  | nil => nil
  | cons pos a d => cons (f pos) (a.map f) (d.map f)
  | atom x => atom x

theorem map_eq_self_iff {f : Nat → Nat} : ∀ {t : Located}, t.map f = t ↔ t.All fun p => f p = p
  | nil => iff_of_true rfl trivial
  | atom _ => iff_of_true rfl trivial
  | cons pos a d => by
    unfold map All
    rw [cons.injEq, map_eq_self_iff, map_eq_self_iff]

theorem all_ofSexp {Q : Nat → Prop} {pos : Nat} (h : Q pos) : ∀ x, (ofSexp pos x).All Q
  | .nil => trivial
  | .cons a d => ⟨h, all_ofSexp h a, all_ofSexp h d⟩
  | .int _ | .float _ | .string _ | .ident _ | .char _ => trivial

theorem all_ofList {Q : Nat → Prop} :
    ∀ {l : List (Nat × Located)}, (ofList l).All Q ↔ ∀ e ∈ l, Q e.1 ∧ e.2.All Q
  | [] => iff_of_true trivial fun _ h => nomatch h
  | (pos, a) :: l => by
    rw [List.forall_mem_cons, ← all_ofList]
    exact and_assoc.symm

end Located

/-- The list under construction, with the offsets of its items. -/
structure Marked where
  items : List (Nat × Located)
  groupb : Option Nat
deriving DecidableEq, Repr

namespace Marked

def empty : Marked := ⟨[], none⟩

/-- An atom, or a list with the offset of its bracket. -/
def insertPart (it : Marked) (pos : Nat) (r : Located) : Marked where
  items := it.items ++ [(pos, r)]
  groupb := if !r.isList && it.groupb.isNone then some it.items.length else it.groupb

/-- A list in curly brackets: `scope` comes from the bracket too. -/
def insertScope (it : Marked) (pos : Nat) (r : Located) : Marked where
  items := it.items ++ [(pos, .cons pos (.atom (.ident "scope".toList)) r)]
  groupb := it.groupb

/-- The items from the first atom on become one item, which comes from where this atom does. -/
def semi (it : Marked) : Option Marked := do
  let g ← it.groupb
  let first ← it.items[g]?
  some ⟨it.items.take g ++ [(first.1, .ofList (it.items.drop g))], none⟩

def addToken (nested : Nat → List Char → Read Located) (pos : Nat) (it : Marked) :
    Token → Read Marked
  | .skip => .ok it
  | .semi =>
    match it.semi with
    | none => .error (.error pos "unexpected \";\"")
    | some it => .ok it
  | .group curly body => do
    let r ← nested (pos + 1) body
    if curly then return it.insertScope pos r else return it.insertPart pos r
  | t => .ok (it.insertPart pos (.ofSexp pos (atomTree t)))

end Marked

/-- The items of a text at offset `pos`. -/
def locate : Nat → Nat → List Char → Marked → Read Marked
  | 0, _, _, _ => .error .fuel
  | _ + 1, _, [], it => .ok it
  | k + 1, pos, c :: R, it => do
    let (t, rest) ← nextToken pos (c :: R)
    let it ← it.addToken (fun pos body => (Located.ofList ·.items) <$> locate k pos body .empty)
      pos t
    locate k (pos + ((c :: R).length - rest.length)) rest it

/-- The tree of a text, with offsets. -/
def located (text : List Char) : Read Located :=
  (Located.ofList ·.items) <$> locate (text.length + 2) 0 text .empty

/-! ## Positions of values -/

/-- What a `struct val` holds of a position: `CharIdx` is an `unsigned int`. -/
def Loc.stored (l : Loc) : Loc := { l with charIdx := l.charIdx % 2 ^ 32 }

namespace Val

variable {σ : Type}

def mapLoc (f : Loc → Loc) : Val σ → Val σ
  | nil l => nil (f l)
  | cons l a d => cons (f l) (a.mapLoc f) (d.mapLoc f)
  | int l n => int (f l) n
  | float l t => float (f l) t
  | string l s => string (f l) s
  | ident l s => ident (f l) s
  | char l n => char (f l) n

/-- Every value that is reached through `car` and `cdr`. -/
def All (P : Loc → Prop) : Val σ → Prop
  | nil l => P l
  | cons l a d => P l ∧ a.All P ∧ d.All P
  | int l _ | float l _ | string l _ | ident l _ | char l _ => P l

/-- The tree with the `CharIdx` of every element of a list. -/
def located : Val (List Char) → Located
  | nil _ => .nil
  | cons _ a d => .cons a.loc.charIdx a.located d.located
  | x => .atom x.erase

end Val

/-- An offset inside the text; the empty text has only its beginning. -/
def InText (text : List Char) (i : Nat) : Prop := i = 0 ∨ i < text.length

/-- The positions of `v` are those of the text in the file `fileidx`. -/
def Positioned (text : List Char) (fileidx : Nat) (v : Val (List Char)) : Prop :=
  v.All (fun l => l.fileIdx = some fileidx ∧ InText text l.charIdx) ∧ located text = .ok v.located

/-! ## What stands in a text -/

/-- A member path that is expanded. -/
def Token.isPath : Token → Bool
  | .ident w =>
    match splitColon w with
    | some (a, b) => !a.isEmpty && !b.isEmpty
    | none => false
  | _ => false

/-- A token that becomes an element of a list. -/
def Token.isElement : Token → Bool
  | .skip | .semi => false
  | _ => true

/-- The token `t` stands at offset `q` of a text that itself starts at `pos`, in any depth. -/
inductive Occurs : Nat → List Char → Nat → Token → Prop
  | here {pos : Nat} {c : Char} {R rest : List Char} {t : Token} :
      nextToken pos (c :: R) = .ok (t, rest) → Occurs pos (c :: R) pos t
  | inside {pos q : Nat} {c : Char} {R rest body : List Char} {curly : Bool} {t : Token} :
      nextToken pos (c :: R) = .ok (.group curly body, rest) → Occurs (pos + 1) body q t →
      Occurs pos (c :: R) q t
  | later {pos q : Nat} {c : Char} {R rest : List Char} {t t' : Token} :
      nextToken pos (c :: R) = .ok (t', rest) →
      Occurs (pos + ((c :: R).length - rest.length)) rest q t → Occurs pos (c :: R) q t

/-- What stands in a token, itself included. -/
def Token.Covers (t : Token) (pos q : Nat) (t' : Token) : Prop :=
  (q = pos ∧ t' = t) ∨ ∃ curly body, t = .group curly body ∧ Occurs (pos + 1) body q t'

theorem occurs_cons {pos q : Nat} {c : Char} {R rest : List Char} {t t' : Token}
    (h : nextToken pos (c :: R) = .ok (t, rest)) :
    Occurs pos (c :: R) q t' ↔
      t.Covers pos q t' ∨ Occurs (pos + ((c :: R).length - rest.length)) rest q t' := by
  constructor
  · intro ho
    cases ho with
    | here h' =>
      cases h.symm.trans h'
      exact .inl (.inl ⟨rfl, rfl⟩)
    | inside h' ho =>
      cases h.symm.trans h'
      exact .inl (.inr ⟨_, _, rfl, ho⟩)
    | later h' ho =>
      cases h.symm.trans h'
      exact .inr ho
  · rintro ((⟨rfl, rfl⟩ | ⟨curly, body, rfl, ho⟩) | ho)
    · exact .here h
    · exact .inside h ho
    · exact .later h ho

/-! ## The list under construction as its cells -/

/-- The list with these cells, positions of the cells included, that ends with `e`. -/
def Val.spine {σ : Type} : List (Loc × Val σ) → Val σ → Val σ
  | [], e => e
  | (l, a) :: cs, e => .cons l a (spine cs e)

section

variable {σ : Type} {P : Loc → Prop} {f : Val σ → Val σ} {e : Val σ}

theorem modifyAt_spine : ∀ cs ds : List (Loc × Val σ),
    (Val.spine (cs ++ ds) e).modifyAt f cs.length = Val.spine cs (f (Val.spine ds e))
  | [], _ => rfl
  | (l, a) :: cs, ds => congrArg (Val.cons l a) (modifyAt_spine cs ds)

theorem modifyAt_end (cs : List (Loc × Val σ)) :
    (Val.spine cs e).modifyAt f cs.length = Val.spine cs (f e) := by
  have h : (Val.spine (cs ++ []) e).modifyAt f cs.length = _ := modifyAt_spine cs []
  rwa [List.append_nil] at h

theorem spine_concat (l : Loc) (a : Val σ) :
    ∀ cs, Val.spine cs (.cons l a e) = Val.spine (cs ++ [(l, a)]) e
  | [] => rfl
  | (m, b) :: cs => congrArg (Val.cons m b) (spine_concat l a cs)

theorem all_spine : ∀ cs : List (Loc × Val σ),
    (Val.spine cs e).All P ↔ (∀ c ∈ cs, P c.1 ∧ c.2.All P) ∧ e.All P
  | [] => (and_iff_right fun _ h => nomatch h).symm
  | (l, a) :: cs => by
    rw [List.forall_mem_cons, and_assoc, ← all_spine cs]
    exact and_assoc.symm

theorem Val.All.loc {v : Val σ} (h : v.All P) : P v.loc := by
  cases v with
  | cons => exact h.1
  | _ => exact h

end

/-- An item, as it is in the list with offsets. -/
def mark (c : Loc × Val (List Char)) : Nat × Located := (c.2.loc.charIdx, c.2.located)

theorem located_spine (l : Loc) :
    ∀ cs, (Val.spine cs (.nil l)).located = Located.ofList (cs.map mark)
  | [] => rfl
  | (_, a) :: cs => congrArg (Located.cons a.loc.charIdx a.located) (located_spine l cs)

theorem located_isList (v : Val (List Char)) : v.located.isList = v.isCons := by
  cases v <;> rfl

/-- A position that a value should have. -/
def Good (text : List Char) (fileidx : Nat) (l : Loc) : Prop :=
  l.fileIdx = some fileidx ∧ InText text (l.charIdx % 2 ^ 32)

theorem good_of_lt {text : List Char} {fileidx i : Nat} (h : i < text.length) :
    Good text fileidx ⟨i, some fileidx⟩ :=
  ⟨rfl, .inr ((Nat.mod_le _ _).trans_lt h)⟩

/-- The list `b` has the cells `cs` and stands for the items `it`. Whatever the items are, the
cells have the right positions. -/
structure Build.Marks (text : List Char) (fileidx : Nat) (b : Build (List Char)) (it : Marked)
    (cs : List (Loc × Val (List Char))) : Prop where
  root : ∃ l, b.root = Val.spine cs (.nil l) ∧ Good text fileidx l
  v : b.v = cs.length
  groupb : b.groupb = it.groupb
  prototype : ∃ l, b.prototype = .nil l ∧ Good text fileidx l
  items : it.items = cs.map mark
  good : ∀ c ∈ cs, Good text fileidx c.1 ∧ Good text fileidx c.2.loc
  lt : ∀ g, it.groupb = some g → g < cs.length

namespace Build.Marks

variable {text : List Char} {fileidx : Nat} {b : Build (List Char)} {it : Marked}
variable {cs : List (Loc × Val (List Char))} {r : Val (List Char)} {s : Nat}

theorem start {l : Loc} (h : Good text fileidx l) :
    (Build.start (.nil l)).Marks text fileidx .empty [] :=
  ⟨⟨l, rfl, h⟩, rfl, rfl, ⟨l, rfl, h⟩, rfl, (fun _ h => nomatch h), (fun _ h => nomatch h)⟩

theorem insertPart (h : b.Marks text fileidx it cs) (hr : Good text fileidx r.loc) :
    ∃ l, (b.insertPart r).Marks text fileidx (it.insertPart r.loc.charIdx r.located)
      (cs ++ [(l, r)]) := by
  obtain ⟨l, hroot, hl⟩ := h.root
  obtain ⟨pl, hpl, hp⟩ := h.prototype
  refine ⟨l, ⟨⟨{ pl with charIdx := r.loc.charIdx }, ?_, hp.1, hr.2⟩, ?_, ?_, ⟨pl, hpl, hp⟩, ?_, ?_,
    fun g hg => ?_⟩⟩
  · show b.root.modifyAt _ b.v = _
    rw [hroot, h.v, modifyAt_end, ← spine_concat, hpl]
    rfl
  · show b.v + 1 = _
    rw [h.v, List.length_append]
    rfl
  · show (if !r.isCons && b.groupb.isNone then some b.v else b.groupb) = _
    rw [h.groupb, h.v, ← located_isList, ← List.length_map mark, ← h.items]
    rfl
  · rw [List.map_append, ← h.items]
    rfl
  · exact List.forall_mem_append.2 ⟨h.good, List.forall_mem_singleton.2 ⟨hl, hr⟩⟩
  · rw [List.length_append]
    have hg' : (if !r.located.isList && it.groupb.isNone then some it.items.length else it.groupb) =
      some g := hg
    split_ifs at hg'
    · cases hg'
      rw [h.items, List.length_map]
      exact Nat.lt_succ_self _
    · exact Nat.lt_succ_of_lt (h.lt g hg')

theorem insertScope (h : b.Marks text fileidx it cs) (hr : Good text fileidx r.loc) :
    ∃ l, (b.insertScope fileidx "scope".toList r).Marks text fileidx
      (it.insertScope r.loc.charIdx r.located)
      (cs ++ [(l, .cons ⟨r.loc.charIdx, some fileidx⟩
        (.ident ⟨r.loc.charIdx, some fileidx⟩ "scope".toList) r)]) := by
  obtain ⟨l, hroot, hl⟩ := h.root
  obtain ⟨pl, hpl, hp⟩ := h.prototype
  refine ⟨l, ⟨⟨pl, ?_, hp⟩, ?_, h.groupb, ⟨pl, hpl, hp⟩, ?_, ?_, fun g hg => ?_⟩⟩
  · show b.root.modifyAt _ b.v = _
    rw [hroot, h.v, modifyAt_end, ← spine_concat, hpl]
    rfl
  · show b.v + 1 = _
    rw [h.v, List.length_append]
    rfl
  · rw [List.map_append, ← h.items]
    rfl
  · exact List.forall_mem_append.2 ⟨h.good, List.forall_mem_singleton.2 ⟨hl, rfl, hr.2⟩⟩
  · rw [List.length_append]
    exact Nat.lt_succ_of_lt (h.lt g hg)

/-- A `;` puts the cells from the first atom on into one item. -/
theorem semi {b' : Build (List Char)} (h : b.Marks text fileidx it cs) (hb : b.semi s = some b')
    (hs : s < text.length) :
    ∃ it' front l a rest l', it.semi = some it' ∧ cs = front ++ (l, a) :: rest ∧
      Good text fileidx l' ∧ b'.Marks text fileidx it'
        (front ++ [(l, .cons a.loc a (Val.spine rest (.nil l')))]) := by
  obtain ⟨e, hroot, he⟩ := h.root
  obtain ⟨pl, hpl, hp⟩ := h.prototype
  unfold Build.semi at hb
  rw [h.groupb] at hb
  cases hg : it.groupb with
  | none =>
    rw [hg] at hb
    cases hb
  | some g =>
    rw [hg] at hb
    cases hb
    have hlt := h.lt g hg
    obtain ⟨front, ⟨l, a⟩, rest, hcs, hfront⟩ :
        ∃ front c rest, cs = front ++ c :: rest ∧ front.length = g :=
      ⟨cs.take g, cs[g], cs.drop (g + 1), by rw [List.getElem_cons_drop, List.take_append_drop],
        List.length_take_of_le hlt.le⟩
    subst hcs hfront
    obtain ⟨hgood, hgood'⟩ := List.forall_mem_append.1 h.good
    obtain ⟨hla, hrest⟩ := List.forall_mem_cons.1 hgood'
    have hitems := h.items
    rw [List.map_append, List.map_cons] at hitems
    have hsemi : it.semi = some ⟨front.map mark ++
        [(a.loc.charIdx, .ofList (((l, a) :: rest).map mark))], none⟩ := by
      unfold Marked.semi
      rw [hg, hitems]
      show ((front.map mark ++ mark (l, a) :: rest.map mark)[front.length]?).bind _ = _
      rw [← List.length_map mark, List.getElem?_append_right le_rfl, Nat.sub_self]
      show some _ = _
      rw [List.take_left, List.drop_left]
      rfl
    refine ⟨_, front, l, a, rest, { e with charIdx := s }, hsemi, rfl, ⟨he.1, ?_⟩,
      ⟨⟨pl, ?_, hp⟩, ?_, rfl, ⟨pl, hpl, hp⟩, ?_, ?_, fun _ h => nomatch h⟩⟩
    · exact .inr ((Nat.mod_le _ _).trans_lt hs)
    · show (b.root.modifyAt _ b.v).modifyAt _ front.length = _
      rw [hroot, h.v, modifyAt_end]
      rw [modifyAt_spine front ((l, a) :: rest), ← spine_concat, hpl]
      rfl
    · rw [List.length_append]
      rfl
    · rw [List.map_append, ← located_spine { e with charIdx := s }]
      rfl
    · exact List.forall_mem_append.2 ⟨hgood, List.forall_mem_singleton.2 hla⟩

end Build.Marks

/-! ## Atoms -/

section

variable {loc : Loc}

@[simp] theorem segmentVal_loc (w : List Char) : (segmentVal loc w).loc = loc := by
  unfold segmentVal
  split_ifs <;> rfl

@[simp] theorem identVal_loc (k : Nat) (w : List Char) : (identVal loc k w).loc = loc := by
  cases k with
  | zero => rfl
  | succ k =>
    unfold identVal
    split
    · rfl
    · split_ifs <;> rfl

@[simp] theorem atomVal_loc (t : Token) : (atomVal loc t).loc = loc := by
  cases t with
  | ident w => exact identVal_loc _ _
  | _ => rfl

theorem segmentVal_located (w : List Char) :
    (segmentVal loc w).located = .ofSexp loc.charIdx (segmentVal loc w).erase := by
  unfold segmentVal
  split_ifs <;> rfl

theorem identVal_located (k : Nat) (w : List Char) :
    (identVal loc k w).located = .ofSexp loc.charIdx (identVal loc k w).erase := by
  induction k generalizing w with
  | zero => rfl
  | succ k ih =>
    unfold identVal
    split
    · rfl
    · split_ifs
      · rfl
      · simp only [Val.located, Val.erase, Located.ofSexp, identVal_loc, segmentVal_loc, ih,
          segmentVal_located]
        rfl

/-- Every part of an atom has the position of the atom. -/
theorem atomVal_located (t : Token) :
    (atomVal loc t).located = .ofSexp loc.charIdx (atomTree t) := by
  rw [← atomVal_erase loc t]
  cases t with
  | ident w => exact identVal_located _ _
  | _ => rfl

/-- The values of an atom have a file, except for the cells of a member path. -/
theorem atomVal_all {text : List Char} {fileidx : Nat} (h : Good text fileidx loc) (t : Token) :
    (atomVal loc t).All (Good text fileidx) ↔ t.isPath = false := by
  cases t with
  | ident w =>
    show (identVal loc w.length w).All _ ↔ _
    unfold Token.isPath
    cases w with
    | nil => exact iff_of_true h rfl
    | cons c w =>
      show (identVal loc (w.length + 1) (c :: w)).All _ ↔ _
      unfold identVal
      dsimp only
      cases splitColon (c :: w) with
      | none => exact iff_of_true h rfl
      | some ab =>
        obtain ⟨a, b⟩ := ab
        dsimp only
        split_ifs with hab
        · rcases hab with rfl | rfl
          · exact iff_of_true h rfl
          · exact iff_of_true h (Bool.and_false _)
        · obtain ⟨ha, hb⟩ := not_or.1 hab
          refine iff_of_false (fun hall => by cases hall.2.2.1.1) ?_
          rw [List.isEmpty_eq_false_iff.2 ha, List.isEmpty_eq_false_iff.2 hb]
          decide
  | _ => exact iff_of_true h rfl

end

/-! ## Runs -/

/-- No cell of an item lacks a position. -/
def Sound (text : List Char) (fileidx : Nat) (cs : List (Loc × Val (List Char))) : Prop :=
  ∀ c ∈ cs, c.2.All (Good text fileidx)

/-- The offsets of all elements of lists. -/
def Offsets (Q : Nat → Prop) (cs : List (Loc × Val (List Char))) : Prop :=
  ∀ c ∈ cs, Q c.2.loc.charIdx ∧ c.2.located.All Q

section

variable {text : List Char} {fileidx : Nat} {b b₁ b' : Build (List Char)} {it it₁ it' : Marked}
variable {cs cs₁ cs' : List (Loc × Val (List Char))} {l : Loc} {r : Val (List Char)}
variable {T T' : Nat → Token → Prop} {Q : Nat → Prop}

theorem sound_concat :
    Sound text fileidx (cs ++ [(l, r)]) ↔ Sound text fileidx cs ∧ r.All (Good text fileidx) := by
  unfold Sound
  rw [List.forall_mem_append, List.forall_mem_singleton]

theorem offsets_concat :
    Offsets Q (cs ++ [(l, r)]) ↔ Offsets Q cs ∧ Q r.loc.charIdx ∧ r.located.All Q := by
  unfold Offsets
  rw [List.forall_mem_append, List.forall_mem_singleton]

theorem all_ofList_mark : (Located.ofList (cs.map mark)).All Q ↔ Offsets Q cs := by
  rw [Located.all_ofList, List.forall_mem_map]
  exact Iff.rfl

/-- What reading the tokens `T` does to a list under construction. -/
structure Reads (text : List Char) (fileidx : Nat) (T : Nat → Token → Prop)
    (b b' : Build (List Char)) (it' : Marked) (cs cs' : List (Loc × Val (List Char))) : Prop where
  marks : b'.Marks text fileidx it' cs'
  loc : b'.root.loc = b.root.loc
  sound : Sound text fileidx cs' ↔ Sound text fileidx cs ∧ ∀ q t, T q t → t.isPath = false
  offsets : ∀ Q, Offsets Q cs' ↔ Offsets Q cs ∧ ∀ q t, T q t → t.isElement = true → Q q

theorem Reads.trans (h : Reads text fileidx T b b₁ it₁ cs cs₁)
    (k : Reads text fileidx T' b₁ b' it' cs₁ cs') :
    Reads text fileidx (fun q t => T q t ∨ T' q t) b b' it' cs cs' where
  marks := k.marks
  loc := k.loc.trans h.loc
  sound := by
    rw [k.sound, h.sound, and_assoc]
    exact and_congr_right fun _ => ⟨fun hall q t => Or.rec (hall.1 q t) (hall.2 q t),
      fun hall => ⟨fun q t ht => hall q t (.inl ht), fun q t ht => hall q t (.inr ht)⟩⟩
  offsets Q := by
    rw [k.offsets, h.offsets, and_assoc]
    exact and_congr_right fun _ => ⟨fun hall q t => Or.rec (hall.1 q t) (hall.2 q t),
      fun hall => ⟨fun q t ht => hall q t (.inl ht), fun q t ht => hall q t (.inr ht)⟩⟩

theorem Reads.congr (h : Reads text fileidx T b b' it' cs cs') (hT : ∀ q t, T' q t ↔ T q t) :
    Reads text fileidx T' b b' it' cs cs' := by
  obtain rfl : T' = T := funext fun q => funext fun t => propext (hT q t)
  exact h

theorem modifyAt_loc {f : Val (List Char) → Val (List Char)} (hf : ∀ e, (f e).loc = e.loc) :
    ∀ (n : Nat) (x : Val (List Char)), (x.modifyAt f n).loc = x.loc
  | 0, x => hf x
  | _ + 1, x => by cases x <;> rfl

theorem insertPart_loc : (b.insertPart r).root.loc = b.root.loc := by
  unfold Build.insertPart
  exact modifyAt_loc (by exact fun _ => rfl) _ _

theorem insertScope_loc {scope : List Char} :
    (b.insertScope fileidx scope r).root.loc = b.root.loc := by
  unfold Build.insertScope
  exact modifyAt_loc (by exact fun _ => rfl) _ _

/-- The element at the token `t`, with what is read inside of it. -/
theorem reads_insert {t : Token} {pos : Nat} (h : b'.Marks text fileidx it' (cs ++ [(l, r)]))
    (hloc : b'.root.loc = b.root.loc) (hr : r.loc.charIdx = pos) (helem : t.isElement = true)
    (hsound : r.All (Good text fileidx) ↔ ∀ q t', t.Covers pos q t' → t'.isPath = false)
    (hoffsets : ∀ Q, Q pos → (r.located.All Q ↔
      ∀ q t', t.Covers pos q t' → t'.isElement = true → Q q)) :
    Reads text fileidx (t.Covers pos) b b' it' cs (cs ++ [(l, r)]) where
  marks := h
  loc := hloc
  sound := by rw [sound_concat, hsound]
  offsets Q := by
    rw [offsets_concat, hr]
    exact and_congr_right fun _ => ⟨fun hQ => (hoffsets Q hQ.1).1 hQ.2, fun hall =>
      have hpos := hall pos t (.inl ⟨rfl, rfl⟩) helem
      ⟨hpos, (hoffsets Q hpos).2 hall⟩⟩

theorem covers_atom {t : Token} (ht : ∀ curly body, t ≠ .group curly body) {S : Nat → Token → Prop}
    {pos : Nat} : (∀ q t', t.Covers pos q t' → S q t') ↔ S pos t := by
  constructor
  · exact fun hall => hall pos t (.inl ⟨rfl, rfl⟩)
  · rintro h q t' (⟨rfl, rfl⟩ | ⟨curly, body, rfl, -⟩)
    · exact h
    · exact absurd rfl (ht curly body)

theorem covers_group {curly : Bool} {body : List Char} {S : Nat → Token → Prop} {pos : Nat} :
    (∀ q t', (Token.group curly body).Covers pos q t' → S q t') ↔
      S pos (.group curly body) ∧ ∀ q t', Occurs (pos + 1) body q t' → S q t' := by
  constructor
  · exact fun hall => ⟨hall pos _ (.inl ⟨rfl, rfl⟩), fun q t' ho => hall q t' (.inr ⟨_, _, rfl, ho⟩)⟩
  · rintro ⟨h, hall⟩ q t' (⟨rfl, rfl⟩ | ⟨_, _, heq, ho⟩)
    · exact h
    · cases heq
      exact hall q t' ho

/-- An atom. -/
theorem reads_atom {t : Token} {pos : Nat} (h : b.Marks text fileidx it cs)
    (hpos : pos < text.length) (helem : t.isElement = true)
    (ht : ∀ curly body, t ≠ .group curly body) :
    ∃ cs', Reads text fileidx (t.Covers pos) b (b.insertPart (atomVal ⟨pos, some fileidx⟩ t))
      (it.insertPart pos (.ofSexp pos (atomTree t))) cs cs' := by
  have hgood : Good text fileidx ⟨pos, some fileidx⟩ := good_of_lt hpos
  obtain ⟨l, hm⟩ := h.insertPart (r := atomVal ⟨pos, some fileidx⟩ t) (by rwa [atomVal_loc])
  rw [atomVal_loc, atomVal_located] at hm
  refine ⟨_, reads_insert hm insertPart_loc (by rw [atomVal_loc]) helem ?_
    fun Q hQ => ?_⟩
  · rw [covers_atom ht (S := fun _ t' => t'.isPath = false)]
    exact atomVal_all hgood t
  · rw [covers_atom ht (S := fun q t' => t'.isElement = true → Q q), atomVal_located]
    exact iff_of_true (Located.all_ofSexp hQ _) fun _ => hQ

/-- A `;`. -/
theorem reads_semi {pos : Nat} (h : b.Marks text fileidx it cs) (hpos : pos < text.length)
    (hb : b.semi pos = some b') :
    ∃ it' cs', it.semi = some it' ∧ Reads text fileidx (Token.semi.Covers pos) b b' it' cs cs' := by
  obtain ⟨it', front, l, a, rest, l', hit, rfl, hl', hm⟩ := h.semi hb hpos
  refine ⟨it', _, hit, ⟨hm, ?_, ?_, fun Q => ?_⟩⟩
  · unfold Build.semi at hb
    have hv := h.v
    rw [List.length_append, List.length_cons, Nat.add_succ] at hv
    rw [hv] at hb
    split at hb
    · cases hb
    · cases hb
      refine (modifyAt_loc (fun e => ?_) _ _).trans ?_
      · cases e <;> rfl
      · cases b.root <;> rfl
  · rw [covers_atom (t := .semi) (fun _ _ h => nomatch h) (S := fun _ t' => t'.isPath = false), sound_concat]
    obtain ⟨-, hgood⟩ := List.forall_mem_append.1 h.good
    obtain ⟨hla, hrest⟩ := List.forall_mem_cons.1 hgood
    unfold Sound
    rw [List.forall_mem_append, List.forall_mem_cons, and_assoc]
    refine and_congr_right fun _ => ⟨fun hall => ?_, fun hall => ?_⟩
    · obtain ⟨-, ha, hs⟩ := hall
      exact ⟨⟨ha, fun c hc => (((all_spine rest).1 hs).1 c hc).2⟩, rfl⟩
    · obtain ⟨⟨ha, hs⟩, -⟩ := hall
      exact ⟨hla.2, ha, (all_spine rest).2 ⟨fun c hc => ⟨(hrest c hc).1, hs c hc⟩, hl'⟩⟩
  · rw [covers_atom (t := .semi) (fun _ _ h => nomatch h) (S := fun q t' => t'.isElement = true → Q q),
      offsets_concat]
    unfold Offsets
    rw [List.forall_mem_append, List.forall_mem_cons, and_assoc]
    refine and_congr_right fun _ => ⟨fun hall => ?_, fun hall => ?_⟩
    · obtain ⟨-, hQ, ha, hs⟩ := hall
      rw [located_spine, all_ofList_mark] at hs
      exact ⟨⟨⟨hQ, ha⟩, hs⟩, fun h => nomatch h⟩
    · obtain ⟨⟨⟨hQ, ha⟩, hs⟩, -⟩ := hall
      refine ⟨hQ, hQ, ha, ?_⟩
      rw [located_spine, all_ofList_mark]
      exact hs

/-- A list in brackets, given what is read between them. -/
theorem reads_group (curly : Bool) {pos : Nat} {body : List Char} (h : b.Marks text fileidx it cs)
    (hpos : pos < text.length)
    (hbody : Reads text fileidx (Occurs (pos + 1) body) (.start (.nil ⟨pos, some fileidx⟩)) b₁ it₁
      [] cs₁) :
    ∃ cs', Reads text fileidx ((Token.group curly body).Covers pos) b
      (if curly then b.insertScope fileidx "scope".toList b₁.root else b.insertPart b₁.root)
      (if curly then it.insertScope pos (.ofList it₁.items)
        else it.insertPart pos (.ofList it₁.items)) cs cs' := by
  have hloc : b₁.root.loc = ⟨pos, some fileidx⟩ := hbody.loc
  have hgood : Good text fileidx ⟨pos, some fileidx⟩ := good_of_lt hpos
  obtain ⟨e, hroot, he⟩ := hbody.marks.root
  have hlocated : b₁.root.located = .ofList it₁.items := by
    rw [hroot, located_spine, hbody.marks.items]
  have hall : b₁.root.All (Good text fileidx) ↔
      ∀ q t', (Token.group curly body).Covers pos q t' → t'.isPath = false := by
    rw [covers_group (S := fun _ t' => t'.isPath = false), hroot, all_spine]
    constructor
    · exact fun hcs => ⟨rfl, (hbody.sound.1 fun c hc => (hcs.1 c hc).2).2⟩
    · exact fun hocc => ⟨fun c hc => ⟨(hbody.marks.good c hc).1,
        hbody.sound.2 ⟨(fun _ h => nomatch h), hocc.2⟩ c hc⟩, he⟩
  have hoffsets : ∀ Q : Nat → Prop, Q pos → (b₁.root.located.All Q ↔
      ∀ q t', (Token.group curly body).Covers pos q t' → t'.isElement = true → Q q) := by
    intro Q hQ
    rw [covers_group (S := fun q t' => t'.isElement = true → Q q), hroot, located_spine,
      all_ofList_mark, hbody.offsets]
    constructor
    · exact fun hocc => ⟨fun _ => hQ, hocc.2⟩
    · exact fun hocc => ⟨(fun _ h => nomatch h), hocc.2⟩
  cases curly with
  | true =>
    obtain ⟨l, hm⟩ := h.insertScope (r := b₁.root) (by rwa [hloc])
    rw [hloc, hlocated] at hm
    refine ⟨_, reads_insert hm insertScope_loc rfl rfl ?_ fun Q hQ => ?_⟩
    · exact (and_iff_right hgood).trans ((and_iff_right hgood).trans hall)
    · exact (and_iff_right hQ).trans ((and_iff_right trivial).trans (hoffsets Q hQ))
  | false =>
    obtain ⟨l, hm⟩ := h.insertPart (r := b₁.root) (by rwa [hloc])
    rw [hlocated] at hm
    exact ⟨_, reads_insert (hloc ▸ hm) insertPart_loc (by rw [hloc]) rfl hall hoffsets⟩

/-- One token, given what reading its body does. -/
theorem reads_token (nested' : Nat → List Char → Read Located)
    {nested : Nat → List Char → Build (List Char) → Read (Val (List Char))} {pos : Nat} {t : Token}
    (hnest : ∀ curly body v, t = .group curly body →
      nested (pos + 1) body (.start (.nil ⟨pos, some fileidx⟩)) = .ok v →
      ∃ b₁ it₁ cs₁, nested' (pos + 1) body = .ok (.ofList it₁.items) ∧ v = b₁.root ∧
        Reads text fileidx (Occurs (pos + 1) body) (.start (.nil ⟨pos, some fileidx⟩)) b₁ it₁
          [] cs₁)
    (h : b.Marks text fileidx it cs) (hpos : pos < text.length)
    (hb : addToken nested fileidx pos b t = .ok b') :
    ∃ it' cs', it.addToken nested' pos t = .ok it' ∧
      Reads text fileidx (t.Covers pos) b b' it' cs cs' := by
  cases t with
  | skip =>
    cases hb
    refine ⟨it, cs, rfl, h, rfl, ?_, fun Q => ?_⟩
    · rw [covers_atom (t := .skip) (fun _ _ h => nomatch h) (S := fun _ t' => t'.isPath = false)]
      exact (and_iff_left rfl).symm
    · rw [covers_atom (t := .skip) (fun _ _ h => nomatch h)
        (S := fun q t' => t'.isElement = true → Q q)]
      exact (and_iff_left fun h => nomatch h).symm
  | semi =>
    dsimp only [addToken, Marked.addToken] at hb ⊢
    cases hsemi : b.semi pos with
    | none =>
      rw [hsemi] at hb
      cases hb
    | some b₁ =>
      rw [hsemi] at hb
      cases hb
      obtain ⟨it', cs', hit, hreads⟩ := reads_semi h hpos hsemi
      refine ⟨it', cs', ?_, hreads⟩
      rw [hit]
  | group curly body =>
    dsimp only [addToken, Marked.addToken] at hb ⊢
    cases hn : nested (pos + 1) body (.start (.nil ⟨pos, some fileidx⟩)) with
    | error e =>
      rw [hn] at hb
      cases hb
    | ok v =>
      rw [hn] at hb
      obtain ⟨b₁, it₁, cs₁, hn', rfl, hbody⟩ := hnest curly body v rfl hn
      obtain ⟨cs', hreads⟩ := reads_group curly h hpos hbody
      have hb' : b' =
          if curly then b.insertScope fileidx "scope".toList b₁.root else b.insertPart b₁.root := by
        cases curly <;> cases hb <;> rfl
      refine ⟨_, cs', ?_, hb' ▸ hreads⟩
      rw [hn']
      cases curly <;> rfl
  | _ =>
    cases hb
    exact ⟨_, (reads_atom h hpos rfl fun _ _ heq => by cases heq).imp
      fun _ hreads => ⟨rfl, hreads⟩⟩

/-- A text, by induction on the rounds of the loop. -/
theorem reads_text (k : Nat) {pos : Nat} {R : List Char} {v : Val (List Char)}
    (h : b.Marks text fileidx it cs) (hn : '\x00' ∉ R) (hlen : pos + R.length ≤ text.length)
    (hrun : readText fileidx k pos R b = .ok v) :
    ∃ b' it' cs', locate k pos R it = .ok it' ∧ v = b'.root ∧
      Reads text fileidx (Occurs pos R) b b' it' cs cs' := by
  induction k generalizing pos R b it cs v with
  | zero => cases hrun
  | succ k ih =>
    cases R with
    | nil =>
      cases hrun
      refine ⟨b, it, cs, rfl, rfl, h, rfl, ?_, fun Q => ?_⟩
      · exact (and_iff_left fun _ _ ho => nomatch ho).symm
      · exact (and_iff_left fun _ _ ho => nomatch ho).symm
    | cons c R =>
      unfold readText turn at hrun
      unfold locate
      cases hnt : nextToken pos (c :: R) with
      | error e =>
        rw [hnt] at hrun
        cases hrun
      | ok x =>
        obtain ⟨t, rest⟩ := x
        rw [hnt] at hrun
        simp only [Read.ok_bind] at hrun ⊢
        have hsuf := nextToken_suffix (ne_nul_of_not_mem hn) hnt
        have hle := hsuf.length_le
        rw [List.length_cons] at hlen
        cases hb : addToken (readText fileidx k) fileidx pos b t with
        | error e =>
          rw [hb] at hrun
          cases hrun
        | ok b₁ =>
          rw [hb] at hrun
          obtain ⟨it₁, cs₁, hit, hreads⟩ := reads_token
            (fun pos body => (Located.ofList ·.items) <$> locate k pos body .empty)
            (fun curly body v ht hv => by
              subst ht
              obtain ⟨hbody, hlt⟩ := nextToken_group_lt hn hnt
              obtain ⟨b₁, it₁, cs₁, hloc, hv, hreads⟩ :=
                ih (.start (good_of_lt (by omega))) hbody (by omega) hv
              exact ⟨b₁, it₁, cs₁, by rw [hloc]; rfl, hv, hreads⟩)
            h (by omega) hb
          obtain ⟨b', it', cs', hloc, hv, hreads'⟩ := ih hreads.marks
            (fun hm => not_mem_tail hn (hsuf.subset hm))
            (by dsimp only [List.length_cons]; omega) hrun
          refine ⟨b', it', cs', ?_, hv, (hreads.trans hreads').congr fun q t' => occurs_cons hnt⟩
          rw [hit]
          exact hloc

end

/-! ## The tree that is read -/

theorem mapLoc_loc {σ : Type} (f : Loc → Loc) (v : Val σ) : (v.mapLoc f).loc = f v.loc := by
  cases v <;> rfl

theorem all_mapLoc {σ : Type} {f : Loc → Loc} {P : Loc → Prop} (v : Val σ) :
    (v.mapLoc f).All P ↔ v.All fun l => P (f l) := by
  induction v with
  | cons l a d iha ihd => exact and_congr_right fun _ => and_congr iha ihd
  | _ => exact Iff.rfl

theorem stored_located (v : Val (List Char)) :
    (v.mapLoc Loc.stored).located = v.located.map (· % 2 ^ 32) := by
  induction v with
  | cons l a d iha ihd =>
    show Located.cons (a.mapLoc Loc.stored).loc.charIdx _ _ = .cons _ _ _
    rw [mapLoc_loc, iha, ihd]
    rfl
  | _ => rfl

/-- What reading a source does to the list it begins with. -/
theorem reads_source (src : Source) (fileidx : Nat) {v : Val (List Char)}
    (h : lowerRead src.text fileidx = .ok v) : ∃ b' it' cs',
      locate (src.text.length + 2) 0 src.text .empty = .ok it' ∧ v = b'.root ∧
        Reads src.text fileidx (Occurs 0 src.text) (.start (.nil ⟨0, some fileidx⟩)) b' it' [] cs' := by
  rw [lowerRead_eq _ _ src.nul_free] at h
  have hstart : Good src.text fileidx ⟨0, some fileidx⟩ := ⟨rfl, .inl rfl⟩
  exact reads_text _ (.start hstart) src.nul_free (Nat.zero_add _).le h

/-- No cell lacks a position if and only if no member path is expanded. -/
theorem all_good_iff (src : Source) (fileidx : Nat) {v : Val (List Char)}
    (h : lowerRead src.text fileidx = .ok v) :
    v.All (Good src.text fileidx) ↔ ∀ q t, Occurs 0 src.text q t → t.isPath = false := by
  obtain ⟨b', it', cs', -, rfl, hreads⟩ := reads_source src fileidx h
  obtain ⟨l, hroot, hl⟩ := hreads.marks.root
  rw [hroot]
  refine (all_spine cs').trans ⟨fun hcs => ?_, fun hocc => ⟨fun c hc => ?_, hl⟩⟩
  · exact (hreads.sound.1 fun c hc => (hcs.1 c hc).2).2
  · exact ⟨(hreads.marks.good c hc).1, hreads.sound.2 ⟨(fun _ h => nomatch h), hocc⟩ c hc⟩

/-- The positions of a tree that is read are complete if and only if no member path is expanded in
the text and no element of a list stands at an offset that an `unsigned int` does not hold. -/
theorem positioned_iff (src : Source) (fileidx : Nat) {v : Val (List Char)}
    (h : lowerRead src.text fileidx = .ok v) :
    Positioned src.text fileidx (v.mapLoc Loc.stored) ↔
      ∀ q t, Occurs 0 src.text q t → t.isPath = false ∧ (t.isElement = true → q < 2 ^ 32) := by
  have hgood := all_good_iff src fileidx h
  obtain ⟨b', it', cs', hlocate, rfl, hreads⟩ := reads_source src fileidx h
  obtain ⟨l, hroot, hl⟩ := hreads.marks.root
  have hlocated : located src.text = .ok b'.root.located := by
    unfold located
    rw [hlocate, hroot, located_spine, ← hreads.marks.items]
    rfl
  have hsound : (b'.root.mapLoc Loc.stored).All
      (fun l => l.fileIdx = some fileidx ∧ InText src.text l.charIdx) ↔
      ∀ q t, Occurs 0 src.text q t → t.isPath = false := by
    rw [all_mapLoc]
    exact hgood
  have hoffsets : located src.text = .ok (b'.root.mapLoc Loc.stored).located ↔
      ∀ q t, Occurs 0 src.text q t → t.isElement = true → q < 2 ^ 32 := by
    rw [hlocated, stored_located, Except.ok.injEq, eq_comm, Located.map_eq_self_iff, hroot,
      located_spine, all_ofList_mark, hreads.offsets]
    refine (and_iff_right fun _ h => nomatch h).trans ?_
    refine forall₂_congr fun q t => imp_congr_right fun _ => imp_congr_right fun _ => ?_
    exact Nat.mod_eq_iff_lt (by decide)
  unfold Positioned
  rw [hsound, hoffsets]
  exact ⟨fun h q t ho => ⟨h.1 q t ho, h.2 q t ho⟩,
    fun h => ⟨fun q t ho => (h q t ho).1, fun q t ho => (h q t ho).2⟩⟩

/-- One identifier in brackets. -/
theorem positioned_iff_example : ∃ v, lowerRead ['(', 'x', ')'] 1 = .ok v ∧
    Positioned ['(', 'x', ')'] 1 (v.mapLoc Loc.stored) := by
  obtain ⟨v, hv⟩ : ∃ v, lowerRead ['(', 'x', ')'] 1 = .ok v := ⟨_, rfl⟩
  refine ⟨v, hv, (positioned_iff ⟨['(', 'x', ')'], by decide⟩ 1 hv).2 fun q t ho => ?_⟩
  have houter : nextToken 0 ['(', 'x', ')'] = .ok (.group false ['x'], []) := rfl
  have hinner : nextToken 1 ['x'] = .ok (.ident ['x'], []) := rfl
  rcases (occurs_cons houter).1 ho with (⟨rfl, rfl⟩ | ⟨_, _, h, ho⟩) | ho
  · exact ⟨rfl, fun _ => by decide⟩
  · cases h
    rcases (occurs_cons hinner).1 ho with (⟨rfl, rfl⟩ | ⟨_, _, h, _⟩) | ho
    · exact ⟨rfl, fun _ => by decide⟩
    · cases h
    · cases ho
  · cases ho

/-- The two cells that `transform_identifier` makes of `a:b` have no `FileIdx`. -/
theorem member_path_not_positioned : ∃ v, lowerRead ['a', ':', 'b'] 1 = .ok v ∧
    ¬ Positioned ['a', ':', 'b'] 1 (v.mapLoc Loc.stored) := by
  refine ⟨_, rfl, fun h => ?_⟩
  obtain ⟨-, ⟨-, -, ⟨hfile, -⟩, -⟩, -⟩ := h.1
  cases hfile

end Dolorem.Reader
