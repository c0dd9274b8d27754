import Dolorem.Reader.Refine

/-!
# The reader without positions

What is read, with the source positions of the tree and of the errors
forgotten: the list under construction is the list of its items, and `groupb`
the index of the first atom since the last `;`. `tree text` is what `lowerRead`
reads, positions aside (`lowerRead_tree`), and needs no fuel:
`readOn_cons` unfolds it by one turn of the loop.
-/

namespace Dolorem.Reader

variable {α β : Type}

/-! ## Forgetting positions -/

def Stop.forget : Stop → Stop
  | .error _ msg => .error 0 msg
  | e => e

/-- An outcome without the position of its error. -/
def forget : Read α → Read α
  | .ok a => .ok a
  | .error e => .error e.forget

@[simp] theorem forget_ok (a : α) : forget (.ok a : Read α) = .ok a := rfl

@[simp] theorem forget_error (e : Stop) : forget (.error e : Read α) = .error e.forget := rfl

theorem forget_bind (x : Read α) (f : α → Read β) :
    forget (x >>= f) = forget x >>= fun a => forget (f a) := by
  cases x <;> rfl

theorem forget_map (x : Read α) (f : α → β) : forget (f <$> x) = f <$> forget x := by
  cases x <;> rfl

theorem literal_forget (pos : Nat) (R : List Char) :
    ∀ m, forget (literal pos m R) = literal 0 m R := by
  induction R with
  | nil => intro m; cases m <;> rfl
  | cons c R ih =>
    intro m
    cases m with
    | none =>
      simp only [literal]
      split
      · rw [forget_map, ih]
      · split
        · rw [forget_map, ih]
        · rfl
    | some p =>
      simp only [literal]
      split
      · split
        · rw [forget_map, ih]
        · rfl
      · rw [forget_map, ih]

theorem controlSequence_forget (pos : Nat) (c : Char) :
    forget (controlSequence pos c) = controlSequence 0 c := by
  unfold controlSequence
  repeat' split
  all_goals rfl

theorem decode_forget (pos : Nat) (type : Char) (R : List Char) :
    ∀ gap, forget (decode pos type gap R) = decode 0 type gap R := by
  -- a control sequence takes two characters
  induction hl : R.length using Nat.strong_induction_on generalizing R with
  | _ l ih =>
  intro gap
  cases R with
  | nil => cases gap <;> rfl
  | cons c R =>
    simp only [List.length_cons] at hl
    cases gap with
    | true => exact ih R.length (by omega) R rfl _
    | false =>
      by_cases hty : c = type
      · subst hty
        rw [decode_quote, decode_quote]
        exact ih R.length (by omega) R rfl _
      · by_cases hbs : c = '\\'
        · subst hbs
          cases R with
          | nil => rw [decode_escape_nil pos hty, decode_escape_nil 0 hty]; rfl
          | cons d R =>
            simp only [List.length_cons] at hl
            rw [decode_escape pos hty, decode_escape 0 hty, forget_bind, controlSequence_forget]
            congr 1
            funext x
            rw [forget_map, ih R.length (by omega) R rfl]
        · rw [decode_plain pos hty hbs, decode_plain 0 hty hbs, forget_map,
            ih R.length (by omega) R rfl]

theorem charLiteral_forget (pos : Nat) (R : List Char) :
    forget (charLiteral pos R) = charLiteral 0 R := by
  unfold charLiteral
  cases R.dropWhile (· != '\'') with
  | nil => rfl
  | cons q rest =>
    simp only [forget_bind, decode_forget]
    congr 1
    funext s
    match s with
    | [] => cases rest <;> rfl
    | [_] => rfl
    | _ :: _ :: _ => rfl

theorem nextToken_forget (pos : Nat) (R : List Char) :
    forget (nextToken pos R) = nextToken 0 R := by
  cases R with
  | nil => rfl
  | cons c R =>
    cases lead c with
    | blank hc => rw [nextToken_blank hc, nextToken_blank hc]; rfl
    | opener hc =>
      rw [nextToken_opener hc, nextToken_opener hc]
      cases closer false 1 R <;> rfl
    | quote hc =>
      subst hc
      simp only [nextToken_quote, forget_bind, literal_forget, decode_forget]
      rfl
    | tick hc =>
      subst hc
      simp only [nextToken_tick, forget_bind, charLiteral_forget]
      rfl
    | hash hc => subst hc; rfl
    | semi hc => subst hc; rfl
    | plain hc => rw [nextToken_plain hc, nextToken_plain hc]; rfl

/-! ## Lists of items -/

/-- The list under construction. -/
structure Items where
  items : List Sexp
  groupb : Option Nat
deriving DecidableEq, Repr

namespace Items

def empty : Items := ⟨[], none⟩

/-- `insert_part`. -/
def insertPart (it : Items) (r : Sexp) : Items where
  items := it.items ++ [r]
  groupb := if !r.isList && it.groupb.isNone then some it.items.length else it.groupb

/-- The `is_curly` branch. -/
def insertScope (it : Items) (r : Sexp) : Items where
  items := it.items ++ [.cons (.ident "scope".toList) r]
  groupb := it.groupb

/-- `case ';'`: the items from the first atom on become one item. -/
def semi (it : Items) : Option Items :=
  it.groupb.map fun g => ⟨it.items.take g ++ [.ofList (it.items.drop g)], none⟩

end Items

/-- The tree of an atom. -/
def atomTree (t : Token) : Sexp :=
  (atomVal ⟨0, none⟩ t).erase

theorem segmentVal_erase (loc loc' : Loc) (w : List Char) :
    (segmentVal loc w).erase = (segmentVal loc' w).erase := by
  unfold segmentVal
  repeat' split
  all_goals rfl

theorem identVal_erase (loc loc' : Loc) (k : Nat) (w : List Char) :
    (identVal loc k w).erase = (identVal loc' k w).erase := by
  induction k generalizing w with
  | zero => rfl
  | succ k ih =>
    simp only [identVal]
    split
    · rfl
    next a b _ =>
      split
      · rfl
      · simp only [Val.erase, ih a, segmentVal_erase loc loc']

theorem atomVal_erase (loc : Loc) (t : Token) : (atomVal loc t).erase = atomTree t := by
  cases t with
  | ident w => exact identVal_erase _ _ _ _
  | _ => rfl

/-- What a token does to the list under construction. -/
def Items.addToken (nested : List Char → Read Sexp) (it : Items) : Token → Read Items
  | .skip => .ok it
  | .semi =>
    match it.semi with
    | none => .error (.error 0 "unexpected \";\"")
    | some it => .ok it
  | .group curly body => do
    let r ← nested body
    if curly then return it.insertScope r else return it.insertPart r
  | t => .ok (it.insertPart (atomTree t))

/-- The items that `text` is read to, appended to `it`. -/
def readItems : Nat → List Char → Items → Read Items
  | 0, _, _ => .error .fuel
  | _ + 1, [], it => .ok it
  | k + 1, c :: R, it => do
    let (t, rest) ← nextToken 0 (c :: R)
    let it ← it.addToken (fun body => (Sexp.ofList ·.items) <$> readItems k body .empty) t
    readItems k rest it

/-- Reading goes on with `text`. -/
def readOn (text : List Char) (it : Items) : Read Items :=
  readItems (text.length + 1) text it

/-- The tree of a text. -/
def tree (text : List Char) : Read Sexp :=
  (Sexp.ofList ·.items) <$> readOn text .empty

/-! ## The list under construction as a list -/

/-- The list `b` holds the items `it`. -/
structure Build.Holds (b : Build (List Char)) (it : Items) : Prop where
  root : b.root.erase = Sexp.ofList it.items
  v : b.v = it.items.length
  groupb : b.groupb = it.groupb
  prototype : b.prototype.erase = .nil
  lt : ∀ g, it.groupb = some g → g < it.items.length

/-- A change to the end of a list. -/
theorem erase_modifyAt {f : Val (List Char) → Val (List Char)} {m l : List Sexp}
    (hf : ∀ e, e.erase = Sexp.ofList m → (f e).erase = Sexp.ofList l) :
    ∀ {v : List Sexp} {r : Val (List Char)}, r.erase = Sexp.ofList (v ++ m) →
      (r.modifyAt f v.length).erase = Sexp.ofList (v ++ l)
  | [], r, h => hf r h
  | a :: v, r, h => by
    cases r with
    | cons loc x d =>
      simp only [Val.erase, List.cons_append, Sexp.ofList, Sexp.cons.injEq] at h
      simp only [List.length_cons, Val.modifyAt, Val.erase, h.1, erase_modifyAt hf h.2,
        List.cons_append, Sexp.ofList]
    | _ => simp [Val.erase, Sexp.ofList] at h

namespace Build.Holds

variable {b : Build (List Char)} {it : Items}

theorem start (loc : Loc) : (Build.start (.nil loc)).Holds .empty where
  root := rfl
  v := rfl
  groupb := rfl
  prototype := rfl
  lt := nofun

theorem insertPart (h : b.Holds it) (r : Val (List Char)) :
    (b.insertPart r).Holds (it.insertPart r.erase) where
  root := by
    have hroot : b.root.erase = Sexp.ofList (it.items ++ []) := by rw [List.append_nil, h.root]
    simp only [Build.insertPart, h.v]
    refine erase_modifyAt (fun e _ => ?_) hroot
    simp [Val.erase, Sexp.ofList, h.prototype]
  v := by simp [Build.insertPart, Items.insertPart, h.v]
  groupb := by simp [Build.insertPart, Items.insertPart, h.v, h.groupb]
  prototype := h.prototype
  lt := by
    intro g hg
    simp only [Items.insertPart, List.length_append, List.length_singleton] at hg ⊢
    split at hg
    · rw [← Option.some.inj hg]
      omega
    · exact Nat.lt_succ_of_lt (h.lt g hg)

theorem insertScope (h : b.Holds it) (fileidx : Nat) (r : Val (List Char)) :
    (b.insertScope fileidx "scope".toList r).Holds (it.insertScope r.erase) where
  root := by
    have hroot : b.root.erase = Sexp.ofList (it.items ++ []) := by rw [List.append_nil, h.root]
    simp only [Build.insertScope, h.v]
    refine erase_modifyAt (fun e _ => ?_) hroot
    simp [Val.erase, Sexp.ofList, h.prototype]
  v := by simp [Build.insertScope, Items.insertScope, h.v]
  groupb := h.groupb
  prototype := h.prototype
  lt := fun g hg => by
    simp only [Items.insertScope, List.length_append, List.length_singleton]
    exact Nat.lt_succ_of_lt (h.lt g hg)

/-- The `;` that closes a group: both sides accept it, or neither does. -/
theorem semi (h : b.Holds it) (s : Nat) :
    b.semi s = none ∧ it.semi = none ∨
    ∃ b' it', b.semi s = some b' ∧ it.semi = some it' ∧ b'.Holds it' := by
  cases hg : it.groupb with
  | none => exact .inl ⟨by simp [Build.semi, h.groupb, hg], by simp [Items.semi, hg]⟩
  | some g =>
    have hlt := h.lt g hg
    have hlen : (it.items.take g).length = g := by
      rw [List.length_take]
      omega
    have hs : b.semi s = some
        { b with
          root := (b.root.modifyAt (Val.setCharIdx s) b.v).modifyAt (Build.group b.prototype) g
          v := g + 1
          groupb := none } := by
      simp only [Build.semi, h.groupb, hg]
    refine .inr ⟨_, ⟨it.items.take g ++ [.ofList (it.items.drop g)], none⟩, hs,
      by simp [Items.semi, hg], ?_, ?_, rfl, h.prototype, nofun⟩
    · have hend : (b.root.modifyAt (Val.setCharIdx s) b.v).erase =
          Sexp.ofList (it.items.take g ++ it.items.drop g) := by
        have hset := erase_modifyAt (f := Val.setCharIdx s) (m := []) (l := [])
          (fun e he => by simpa using he) (v := it.items) (r := b.root)
          (by rw [List.append_nil, h.root])
        rw [List.take_append_drop, h.v]
        simpa using hset
      have hmod := erase_modifyAt (f := Build.group b.prototype)
        (l := [.ofList (it.items.drop g)]) (fun e he => ?_) hend
      · rw [hlen] at hmod
        exact hmod
      · rw [List.drop_eq_getElem_cons hlt] at he ⊢
        cases e with
        | cons l car cdr =>
          simp only [Val.erase, Sexp.ofList, Sexp.cons.injEq] at he
          simp [Build.group, Val.erase, Sexp.ofList, he, h.prototype]
        | _ => simp [Val.erase, Sexp.ofList] at he
    · simp [hlen]

end Build.Holds

/-! ## Agreement -/

/-- The same list, or the same error at some position. -/
def Agrees : Read (Build (List Char)) → Read Items → Prop
  | .ok b, .ok it => b.Holds it
  | .error e, .error e' => e.forget = e'
  | _, _ => False

theorem addToken_agrees (nested : Nat → List Char → Build (List Char) → Read (Val (List Char)))
    (nested' : List Char → Read Sexp) (hnest : ∀ pos body loc,
      forget (Val.erase <$> nested pos body (.start (.nil loc))) = nested' body)
    {b : Build (List Char)} {it : Items} (h : b.Holds it) (fileidx pos : Nat) (t : Token) :
    Agrees (addToken nested fileidx pos b t) (it.addToken nested' t) := by
  have atom : ∀ t, Agrees (.ok (b.insertPart (atomVal ⟨pos, some fileidx⟩ t)))
      (.ok (it.insertPart (atomTree t))) := by
    intro t
    rw [← atomVal_erase ⟨pos, some fileidx⟩ t]
    exact h.insertPart _
  cases t with
  | skip => exact h
  | semi =>
    simp only [addToken, Items.addToken]
    rcases h.semi pos with ⟨hb, hi⟩ | ⟨b', it', hb, hi, hh⟩
    · rw [hb, hi]
      rfl
    · rw [hb, hi]
      exact hh
  | group curly body =>
    simp only [addToken, Items.addToken, ← hnest (pos + 1) body ⟨pos, some fileidx⟩]
    cases nested (pos + 1) body (.start (.nil ⟨pos, some fileidx⟩)) with
    | error e => rfl
    | ok r =>
      cases curly with
      | true => exact h.insertScope fileidx r
      | false => exact h.insertPart r
  | int i => exact atom _
  | float w => exact atom _
  | string s => exact atom _
  | char i => exact atom _
  | ident w => exact atom _

theorem readText_forget (fileidx k : Nat) : ∀ {pos : Nat} {R : List Char}
    {b : Build (List Char)} {it : Items}, b.Holds it →
    forget (Val.erase <$> readText fileidx k pos R b) =
      (Sexp.ofList ·.items) <$> readItems k R it := by
  induction k with
  | zero => intros; rfl
  | succ k ih =>
    intro pos R b it h
    cases R with
    | nil => simp [readText, readItems, h.root]
    | cons c R =>
      simp only [readText, turn, readItems, ← nextToken_forget pos (c :: R)]
      cases nextToken pos (c :: R) with
      | error e => rfl
      | ok x =>
        obtain ⟨t, rest⟩ := x
        have ha := addToken_agrees (readText fileidx k)
          (fun body => (Sexp.ofList ·.items) <$> readItems k body .empty)
          (fun pos body loc => ih (Build.Holds.start loc)) h fileidx pos t
        simp only [Read.ok_bind, forget_ok]
        cases hb : addToken (readText fileidx k) fileidx pos b t with
        | error e =>
          rw [hb] at ha
          cases hi : it.addToken (fun body => (Sexp.ofList ·.items) <$> readItems k body .empty) t with
          | error e' =>
            rw [hi] at ha
            simp [show e.forget = e' from ha]
          | ok it' =>
            rw [hi] at ha
            exact ha.elim
        | ok b' =>
          rw [hb] at ha
          cases hi : it.addToken (fun body => (Sexp.ofList ·.items) <$> readItems k body .empty) t with
          | error e' =>
            rw [hi] at ha
            exact ha.elim
          | ok it' =>
            rw [hi] at ha
            exact ih ha

/-! ## Fuel -/

theorem Items.addToken_congr (nested nested' : List Char → Read Sexp) {t : Token} (it : Items)
    (h : ∀ curly body, t = .group curly body → nested body = nested' body) :
    it.addToken nested t = it.addToken nested' t := by
  cases t with
  | group curly body => simp only [addToken, h curly body rfl]
  | _ => rfl

/-- The body of a group is a NUL-free piece of the text behind its bracket. -/
theorem nextToken_group_lt {pos : Nat} {c : Char} {R rest body : List Char} {curly : Bool}
    (hn : '\x00' ∉ c :: R) (h : nextToken pos (c :: R) = .ok (.group curly body, rest)) :
    '\x00' ∉ body ∧ body.length < R.length := by
  obtain ⟨d, _, rfl⟩ := closer_split (nextToken_group h).2.2
  refine ⟨fun hm => hn (by simp [hm]), ?_⟩
  simp only [List.length_append, List.length_cons]
  omega

theorem readItems_fuel : ∀ {k m : Nat} {R : List Char} (it : Items), '\x00' ∉ R →
    R.length < k → R.length < m → readItems k R it = readItems m R it
  | 0, _, _, _, _, hk, _ => absurd hk (Nat.not_lt_zero _)
  | _ + 1, 0, _, _, _, _, hm => absurd hm (Nat.not_lt_zero _)
  | k + 1, m + 1, [], it, _, _, _ => rfl
  | k + 1, m + 1, c :: R, it, hn, hk, hm => by
    simp only [List.length_cons, Nat.add_lt_add_iff_right] at hk hm
    simp only [readItems]
    cases hnt : nextToken 0 (c :: R) with
    | error e => rfl
    | ok x =>
      obtain ⟨t, rest⟩ := x
      have hsuf := nextToken_suffix (ne_nul_of_not_mem hn) hnt
      have hlen := hsuf.length_le
      have ha := Items.addToken_congr (t := t)
        (fun body => (Sexp.ofList ·.items) <$> readItems k body .empty)
        (fun body => (Sexp.ofList ·.items) <$> readItems m body .empty) it
        (fun curly body ht => by
          subst ht
          obtain ⟨hb, hlt⟩ := nextToken_group_lt hn hnt
          rw [readItems_fuel .empty hb (k := k) (m := m) (by omega) (by omega)])
      simp only [Read.ok_bind, ha]
      congr 1
      funext it'
      exact readItems_fuel it' (fun hm => not_mem_tail hn (hsuf.subset hm)) (by omega) (by omega)

@[simp] theorem readOn_nil (it : Items) : readOn [] it = .ok it := rfl

/-- One turn of the loop. -/
theorem readOn_cons {c : Char} {R : List Char} (hn : '\x00' ∉ c :: R) (it : Items) :
    readOn (c :: R) it = (do
      let (t, rest) ← nextToken 0 (c :: R)
      let it ← it.addToken tree t
      readOn rest it) := by
  simp only [readOn, readItems]
  cases hnt : nextToken 0 (c :: R) with
  | error e => rfl
  | ok x =>
    obtain ⟨t, rest⟩ := x
    have hsuf := nextToken_suffix (ne_nul_of_not_mem hn) hnt
    have hlen := hsuf.length_le
    have ha := Items.addToken_congr (t := t)
      (fun body => (Sexp.ofList ·.items) <$> readItems (c :: R).length body .empty) tree it
      (fun curly body ht => by
        subst ht
        obtain ⟨hb, hlt⟩ := nextToken_group_lt hn hnt
        rw [tree, readOn, readItems_fuel (k := (c :: R).length) (m := body.length + 1) .empty hb
          (Nat.lt_succ_of_lt hlt) (Nat.lt_succ_self _)])
    simp only [Read.ok_bind, ha]
    congr 1
    funext it'
    exact readItems_fuel it' (fun hm => not_mem_tail hn (hsuf.subset hm))
      (by simp only [List.length_cons]; omega) (Nat.lt_succ_self _)

/-- What `lower_read` reads, positions aside. -/
theorem lowerRead_tree (text : List Char) (fileidx : Nat) (hn : '\x00' ∉ text) :
    forget (Val.erase <$> lowerRead text fileidx) = tree text := by
  rw [lowerRead_eq text fileidx hn, readText_forget _ _ (Build.Holds.start _), tree, readOn,
    readItems_fuel .empty hn (by omega) (Nat.lt_succ_self _)]

end Dolorem.Reader
