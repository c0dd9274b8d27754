import Mathlib.Data.List.Forall2
import Dolorem.Codegen.Layout
import Dolorem.Codegen.ParmLists

/-!
# Declarations

`funproto` and `external_global` up to the entry in the table, with the names of
the functions and globals there are as a parameter. The parameter list of a
prototype that has only entries `(type name)` is accepted if and only if
`eval_type` accepts each type (`parseParms_pairs`), and then has these
parameters (`parseParms_pairs_ok`).
-/

namespace Dolorem.Codegen

open Reader (Sexp)

/-- What `funproto` enters into `map_funs`. -/
structure Proto where
  name : List Char
  ret : Rtt
  parms : ParmList
deriving DecidableEq, Repr

/-- What `lower_defglobal` enters into `map_globals`. -/
structure Global where
  name : List Char
  type : Rtt
deriving DecidableEq, Repr

/-- `funproto`. -/
def funproto (Γ : Types) (funs : List Char → Bool) (e : Sexp) (n : Nat) :
    Except Halt (Proto × Nat) := do
  match ← car e with
  | .ident name =>
    let parms ← car (← cdr e)
    if !parms.isList then .error (.error "expected list of parameters in function prototype")
    else
      let ret ← car (← cdr (← cdr e))
      let rest ← cdr (← cdr (← cdr e))
      if rest ≠ .nil then .error (.error "more arguments than expected in function prototype")
      else
        let (t, n) ← evalType Γ ret n
        let (ps, n) ← parseParms Γ parms n
        if funs name then .error (.error "function already exists: \"%s\"")
        else .ok (⟨name, t, ps⟩, n)
  | _ => .error (.error "expected name in function prototype")

/-- `external_global`. -/
def externalGlobal (Γ : Types) (globals : List Char → Bool) (e : Sexp) (n : Nat) :
    Except Halt (Global × Nat) := do
  let type ← car e
  let name ← car (← cdr e)
  let rest ← cdr (← cdr e)
  if rest ≠ .nil then .error (.error "excess elements in \"external_global\"")
  else
    match name with
    | .ident name => do
      let (t, n) ← evalType Γ type n
      if globals name then .error (.error "global already defined: \"%s\"")
      else .ok (⟨name, t⟩, n)
    | _ => .error (.error "expected identifier")

/-! ## What is accepted -/

variable {Γ : Types} {e : Sexp} {n n' : Nat} {r : Rtt}

theorem funproto_iff {funs : List Char → Bool} {x : List Char} {l : List Sexp} {ret : Sexp}
    {p : Proto} :
    funproto Γ funs (.ofList [.ident x, .ofList l, ret]) n = .ok (p, n') ↔
      funs x = false ∧ ∃ t n₁ ps, evalType Γ ret n = .ok (t, n₁) ∧
        parseParms Γ (.ofList l) n₁ = .ok (ps, n') ∧ p = ⟨x, t, ps⟩ := by
  have hargs : Sexp.ofList [.ident x, .ofList l, ret] =
      .cons (.ident x) (.cons (.ofList l) (.cons ret .nil)) := rfl
  rw [hargs]
  simp only [funproto, car_cons, cdr_cons, ok_bind, Sexp.isList_ofList, Bool.not_true,
    Bool.false_eq_true, if_false, ne_eq, not_true_eq_false]
  constructor
  · intro h
    obtain ⟨⟨t, n₁⟩, ht, h⟩ := bind_ok.1 h
    obtain ⟨⟨ps, n₂⟩, hps, h⟩ := bind_ok.1 h
    split_ifs at h with hfun
    cases h
    exact ⟨Bool.eq_false_iff.2 hfun, t, n₁, ps, ht, hps, rfl⟩
  · rintro ⟨hfun, t, n₁, ps, ht, hps, rfl⟩
    rw [ht, ok_bind, hps, ok_bind, hfun, if_neg Bool.false_ne_true]

theorem externalGlobal_iff {globals : List Char → Bool} {type : Sexp} {x : List Char} {g : Global} :
    externalGlobal Γ globals (.ofList [type, .ident x]) n = .ok (g, n') ↔
      globals x = false ∧ ∃ t, evalType Γ type n = .ok (t, n') ∧ g = ⟨x, t⟩ := by
  have hargs : Sexp.ofList [type, .ident x] = .cons type (.cons (.ident x) .nil) := rfl
  rw [hargs]
  simp only [externalGlobal, car_cons, cdr_cons, ok_bind, ne_eq, not_true_eq_false, if_false]
  constructor
  · intro h
    obtain ⟨⟨t, n₁⟩, ht, h⟩ := bind_ok.1 h
    split_ifs at h with hglobal
    cases h
    exact ⟨Bool.eq_false_iff.2 hglobal, t, ht, rfl⟩
  · rintro ⟨hglobal, t, ht, rfl⟩
    rw [ht, ok_bind, hglobal, if_neg Bool.false_ne_true]

/-- `eval_type` accepts the expression. -/
def IsTypeExpr (Γ : Types) (e : Sexp) : Prop := ∃ r n', evalType Γ e 0 = .ok (r, n')

/-- Whether it does so does not depend on the addresses that are free. -/
theorem isTypeExpr_iff (n : Nat) : IsTypeExpr Γ e ↔ ∃ r n', evalType Γ e n = .ok (r, n') := by
  constructor
  · rintro ⟨r, n', h⟩
    obtain ⟨r', n₁, h', -⟩ := (evalType_again (.refl Γ) e _ _ _ h).2 n
    exact ⟨r', n₁, h'⟩
  · rintro ⟨r, n', h⟩
    obtain ⟨r', n₁, h', -⟩ := (evalType_again (.refl Γ) e _ _ _ h).2 0
    exact ⟨r', n₁, h'⟩

theorem isTypeExpr_of_ok (h : evalType Γ e n = .ok (r, n')) : IsTypeExpr Γ e :=
  (isTypeExpr_iff n).2 ⟨r, n', h⟩

/-! ## Lists of pairs -/

/-- `(type name)` -/
def pairForm (x : Sexp × List Char) : Sexp := .ofList [x.1, .ident x.2]

/-- A parameter of this name and a type that the expression has. -/
def PairParm (Γ : Types) (x : Sexp × List Char) (p : FunParm) : Prop :=
  p.name = some x.2 ∧ ∃ n n', evalType Γ x.1 n = .ok (p.t, n')

theorem entries_pairs {xs : List (Sexp × List Char)} (h : ∀ x ∈ xs, IsTypeExpr Γ x.1) (n : Nat) :
    ∃ es n', LongEntries Γ (.ofList (xs.map pairForm)) n es false n' := by
  induction xs generalizing n with
  | nil => exact ⟨[], n, .nil n⟩
  | cons x xs ih =>
    obtain ⟨hx, h⟩ := List.forall_mem_cons.1 h
    obtain ⟨r, n₁, hr⟩ := (isTypeExpr_iff n).1 hx
    obtain ⟨es, n', hes⟩ := ih h n₁
    exact ⟨_, n', .entry hr trivial hes⟩

theorem pairs_of_entries {xs : List (Sexp × List Char)} {es : List FunParm} {va : Bool}
    (h : LongEntries Γ (.ofList (xs.map pairForm)) n es va n') :
    va = false ∧ List.Forall₂ (PairParm Γ) xs es := by
  induction xs generalizing n es with
  | nil =>
    cases h
    exact ⟨rfl, .nil⟩
  | cons x xs ih =>
    cases h with
    | entry ht _ hrest =>
      obtain ⟨hva, hall⟩ := ih hrest
      exact ⟨hva, .cons ⟨rfl, _, _, ht⟩ hall⟩

/-- What a list that is accepted is parsed to. -/
theorem parseParms_pairs_ok {xs : List (Sexp × List Char)} {q : ParmList}
    (h : parseParms Γ (.ofList (xs.map pairForm)) n = .ok (q, n')) :
    q.nparms = xs.length ∧ q.vaArgs = false ∧
      List.Forall₂ (PairParm Γ) xs (q.parms.take q.nparms) := by
  have hfirst : ∀ l', Sexp.ofList (xs.map pairForm) ≠ .cons .nil l' := by
    intro l' heq
    cases xs with
    | nil => cases heq
    | cons x xs => cases heq
  rcases parseParms_outcome (Γ := Γ) hfirst n with ⟨es, va, n'', hes⟩ | hcrash | ⟨msg, hmsg⟩
  · obtain ⟨q', hq', hlen, htake, hva⟩ := parseParms_of_entries hes
    rw [h] at hq'
    cases hq'
    obtain ⟨rfl, hall⟩ := pairs_of_entries hes
    rw [htake]
    exact ⟨hlen.trans hall.length_eq.symm, hva, hall⟩
  · rw [parseParms_of_crashes hcrash] at h
    cases h
  · rw [hmsg] at h
    cases h

/-- The list is accepted if and only if all its types are. -/
theorem parseParms_pairs {xs : List (Sexp × List Char)} (n : Nat) :
    (∃ q n', parseParms Γ (.ofList (xs.map pairForm)) n = .ok (q, n')) ↔
      ∀ x ∈ xs, IsTypeExpr Γ x.1 := by
  constructor
  · rintro ⟨q, n', h⟩
    obtain ⟨-, -, hall⟩ := parseParms_pairs_ok h
    generalize q.parms.take q.nparms = es at hall
    clear h
    induction hall with
    | nil => exact fun x hx => absurd hx List.not_mem_nil
    | cons hx _ ih =>
      obtain ⟨-, m, m', hm⟩ := hx
      exact List.forall_mem_cons.2 ⟨isTypeExpr_of_ok hm, ih⟩
  · intro h
    obtain ⟨es, n', hes⟩ := entries_pairs h n
    obtain ⟨q, hq, -⟩ := parseParms_of_entries hes
    exact ⟨q, n', hq⟩

/-! ## Lists of members -/

section Members

variable {typeOf : Sexp → Except Halt Rtt} {size : LTy → Nat} {registered : List Char → Bool}
variable {id : Nat} {x : List Char} {ms : List Member} {p : StructProp}

/-- The type and the name of a member that is stored. -/
def StructMemb.pair (m : StructMemb) : Rtt × List Char := (m.type, m.name)

/-- The form of a union. -/
def unionForm (ms : List Member) : Sexp :=
  .ofList [.ident "union".toList, .ofList (ms.map Member.form)]

/-- A member as it is written and as it is read. -/
def ReadsMember (typeOf : Sexp → Except Halt Rtt) (m : Member) (t : Rtt × List Char) : Prop :=
  typeOf m.type = .ok t.1 ∧ t.2 = m.name

/-- The records of members that are no part of a union, the first of them in field `j`. -/
def plainMembs : Nat → List (Rtt × List Char) → List StructMemb
  | _, [] => []
  | j, t :: ts => ⟨t.2, t.1, j, none⟩ :: plainMembs (j + 1) ts

theorem plainMembs_pair (j : Nat) (ts : List (Rtt × List Char)) :
    (plainMembs j ts).map StructMemb.pair = ts := by
  induction ts generalizing j with
  | nil => rfl
  | cons t ts ih => rw [plainMembs, List.map_cons, ih]; rfl

theorem layUnion_pair (ts : List (Rtt × List Char)) (longest j : Nat) :
    (layUnion [] ts longest j).map StructMemb.pair = ts := by
  rw [layUnion_map fun _ _ => rfl]
  exact List.map_id _

/-- A longest member is found if and only if one of them has a size. -/
theorem longestFrom_isSome (ls : List LTy) :
    (∃ q, longestFrom size 0 none 0 ls = some q) ↔ ∃ l ∈ ls, 0 < size l := by
  rcases longestFrom_spec 0 none 0 ls with ⟨hnone, hle⟩ | ⟨before, l, after, rfl, hsome, hpos, -, -⟩
  · refine iff_of_false ?_ ?_
    · rintro ⟨q, hq⟩
      rw [hnone] at hq
      cases hq
    · rintro ⟨l, hl, hpos⟩
      exact Nat.not_lt.2 (hle l hl) hpos
  · exact iff_of_true ⟨_, hsome⟩
      ⟨l, List.mem_append_right _ List.mem_cons_self, hpos⟩

theorem readMember_iff {m : Member} {t : Rtt × List Char} {excess : String} :
    readMember typeOf excess m.form = .ok t ↔ ReadsMember typeOf m t := by
  refine ⟨readMember_form, ?_⟩
  rintro ⟨ht, hname⟩
  simp only [readMember, Member.form, Sexp.ofList, car_cons, cdr_cons, ok_bind, ht,
    expectIdent_ident, if_true, ← hname]

theorem isUnion_form {m : Member} (h : m.type ≠ .ident "union".toList) :
    isUnion m.form = .ok false :=
  isUnion_plain h

theorem countStructLen_plain (hms : ∀ m ∈ ms, m.type ≠ .ident "union".toList) :
    countStructLen (.ofList (ms.map Member.form)) = .ok (ms.length, ms.length) := by
  induction ms with
  | nil => rfl
  | cons m ms ih =>
    obtain ⟨hm, hms⟩ := List.forall_mem_cons.1 hms
    rw [List.map_cons, Sexp.ofList, countStructLen, isUnion_form hm]
    simp only [ok_bind, Bool.false_eq_true, if_false, ih hms, List.length_cons, Nat.add_comm 1]

/-- The loop over a list of members that are no unions. -/
theorem structMembers_plain {n : Nat} {memb : List StructMemb} {t : List LTy}
    {r : List StructMemb × List LTy} (hms : ∀ m ∈ ms, m.type ≠ .ident "union".toList)
    (hn : n = memb.length + ms.length) :
    structMembers typeOf size n (.ofList (ms.map Member.form)) memb t = .ok r ↔
      ∃ ts, List.Forall₂ (ReadsMember typeOf) ms ts ∧
        r = (memb ++ plainMembs t.length ts, t ++ ts.map (·.1.l)) := by
  induction ms generalizing memb t with
  | nil =>
    rw [List.map_nil, Sexp.ofList, structMembers, if_neg (by simp [hn])]
    constructor
    · intro h
      cases h
      exact ⟨[], .nil, by simp [plainMembs]⟩
    · rintro ⟨ts, hts, rfl⟩
      cases hts
      simp [plainMembs]
  | cons m ms ih =>
    obtain ⟨hm, hms⟩ := List.forall_mem_cons.1 hms
    have hlt : memb.length < n := by
      rw [hn, List.length_cons]
      omega
    rw [List.map_cons, Sexp.ofList, structMembers, if_pos hlt, isUnion_form hm]
    simp only [ok_bind, Bool.false_eq_true, if_false]
    have hrest : ∀ x : Rtt × List Char,
        structMembers typeOf size n (.ofList (ms.map Member.form))
            (memb ++ [⟨x.2, x.1, t.length, none⟩]) (t ++ [x.1.l]) = .ok r ↔
          ∃ ts, List.Forall₂ (ReadsMember typeOf) ms ts ∧
            r = (memb ++ plainMembs t.length (x :: ts), t ++ (x :: ts).map (·.1.l)) := by
      intro x
      have hlen : n = (memb ++ [StructMemb.mk x.2 x.1 t.length none]).length + ms.length := by
        rw [hn, List.length_append, List.length_cons, List.length_cons, List.length_nil]
        omega
      rw [ih hms hlen]
      simp only [List.length_append, List.length_cons, List.length_nil, Nat.zero_add, plainMembs,
        List.append_assoc, List.singleton_append, List.map_cons]
    constructor
    · intro h
      obtain ⟨x, hx, h⟩ := bind_ok.1 h
      obtain ⟨ts, hts, rfl⟩ := (hrest x).1 h
      exact ⟨x :: ts, .cons (readMember_iff.1 hx) hts, rfl⟩
    · rintro ⟨ts, hts, hr⟩
      cases hts with
      | @cons _ x _ ts hx hts =>
        exact bind_ok.2 ⟨x, readMember_iff.2 hx, (hrest x).2 ⟨ts, hts, hr⟩⟩

theorem unionMembers_iff {ts : List (Rtt × List Char)} :
    unionMembers typeOf (.ofList (ms.map Member.form)) = .ok ts ↔
      List.Forall₂ (ReadsMember typeOf) ms ts := by
  refine ⟨unionMembers_forms, fun h => ?_⟩
  induction h with
  | nil => rfl
  | cons hm _ ih =>
    rw [List.map_cons, Sexp.ofList, unionMembers, readMember_iff.2 hm, ok_bind, ih, ok_bind]

/-- `defstruct` on a name and a list of members. -/
theorem defstruct_list {l : List Sexp} {k n : Nat}
    (hcount : countStructLen (.ofList l) = .ok (k, n)) :
    defstruct typeOf size registered id (.ofList [.ident x, .ofList l]) = .ok p ↔
      registered x = false ∧ ∃ r, structMembers typeOf size n (.ofList l) [] [] = .ok r ∧
        ¬ r.2.length < k ∧ p = ⟨x, .struct id, r.1, r.2⟩ := by
  have hargs : Sexp.ofList [.ident x, .ofList l] = .cons (.ident x) (.cons (.ofList l) .nil) := rfl
  rw [hargs]
  simp only [defstruct, car_cons, cdr_cons, ok_bind, expectIdent_ident, Sexp.isList_ofList,
    Bool.not_true, Bool.false_eq_true, if_false, ne_eq, not_true_eq_false, hcount]
  constructor
  · intro h
    obtain ⟨r, hr, h⟩ := bind_ok.1 h
    split_ifs at h with hlen hreg
    cases h
    exact ⟨Bool.eq_false_iff.2 hreg, r, hr, hlen, rfl⟩
  · rintro ⟨hreg, r, hr, hlen, rfl⟩
    rw [hr, ok_bind, if_neg hlen, hreg, if_neg Bool.false_ne_true]

/-- What `defstruct` makes of members that are no unions. -/
theorem defstruct_plain_iff (hms : ∀ m ∈ ms, m.type ≠ .ident "union".toList) :
    defstruct typeOf size registered id (.ofList [.ident x, .ofList (ms.map Member.form)]) = .ok p ↔
      registered x = false ∧ ∃ ts, List.Forall₂ (ReadsMember typeOf) ms ts ∧
        p = ⟨x, .struct id, plainMembs 0 ts, ts.map (·.1.l)⟩ := by
  rw [defstruct_list (countStructLen_plain hms)]
  refine and_congr_right fun _ => ?_
  constructor
  · rintro ⟨r, hr, -, rfl⟩
    obtain ⟨ts, hts, rfl⟩ := (structMembers_plain hms (Nat.zero_add _).symm).1 hr
    exact ⟨ts, hts, rfl⟩
  · rintro ⟨ts, hts, rfl⟩
    refine ⟨_, (structMembers_plain hms (Nat.zero_add _).symm).2 ⟨ts, hts, rfl⟩, ?_, rfl⟩
    show ¬ (ts.map (·.1.l)).length < ms.length
    rw [List.length_map, hts.length_eq]
    exact Nat.lt_irrefl _

/-- The loop over a list of one union. -/
theorem structMembers_union {r : List StructMemb × List LTy} :
    (structMembers typeOf size ms.length (.ofList [unionForm ms]) [] [] = .ok r ∧ ¬ r.2.length < 1) ↔
      ∃ ts longest l, List.Forall₂ (ReadsMember typeOf) ms ts ∧
        longestFrom size 0 none 0 (ts.map (·.1.l)) = some (longest, l) ∧
        r = (layUnion [] ts longest 0, [l]) := by
  have hunion : isUnion (unionForm ms) = .ok true := by
    simp only [isUnion, unionForm, Sexp.ofList, car_cons, ok_bind, decide_true]
  have hcdr : cdr (unionForm ms) = .ok (.ofList [.ofList (ms.map Member.form)]) := rfl
  have hcar : car (.ofList [.ofList (ms.map Member.form)]) = .ok (.ofList (ms.map Member.form)) := rfl
  rw [Sexp.ofList, structMembers]
  split_ifs with hlt
  · rw [hunion, ok_bind, if_pos rfl, hcdr, ok_bind, hcar, ok_bind]
    -- all members are read, so that the loop ends behind the union
    have hend : ∀ {ts : List (Rtt × List Char)} {longest : Nat} {l : LTy},
        List.Forall₂ (ReadsMember typeOf) ms ts →
          structMembers typeOf size ms.length (.ofList []) (layUnion [] ts longest 0) [l] =
            .ok (layUnion [] ts longest 0, [l]) := by
      intro ts longest l hts
      rw [Sexp.ofList, structMembers, length_layUnion, List.length_nil, Nat.zero_add,
        if_neg (by rw [hts.length_eq]; exact Nat.lt_irrefl _)]
    constructor
    · rintro ⟨h, -⟩
      obtain ⟨ts, hts, h⟩ := bind_ok.1 h
      rw [unionMembers_iff] at hts
      cases hl : longestFrom size 0 none 0 (ts.map (·.1.l)) with
      | none =>
        rw [List.length_nil, hl] at h
        cases h
      | some q =>
        obtain ⟨longest, l⟩ := q
        rw [List.length_nil, hl] at h
        cases (hend hts).symm.trans h
        exact ⟨ts, longest, l, hts, hl, rfl⟩
    · rintro ⟨ts, longest, l, hts, hl, rfl⟩
      refine ⟨bind_ok.2 ⟨ts, unionMembers_iff.2 hts, ?_⟩, Nat.lt_irrefl 1⟩
      rw [List.length_nil, hl]
      exact hend hts
  -- without a member the loop ends before it comes to the union
  · constructor
    · rintro ⟨h, hlen⟩
      cases h
      exact absurd Nat.one_pos hlen
    · rintro ⟨ts, longest, l, hts, hl, -⟩
      cases ms with
      | nil =>
        cases hts
        cases hl
      | cons m ms => exact absurd (Nat.succ_pos _) hlt

/-- What `defstruct` makes of one union. -/
theorem defstruct_union_iff :
    defstruct typeOf size registered id (.ofList [.ident x, .ofList [unionForm ms]]) = .ok p ↔
      registered x = false ∧ ∃ ts longest l, List.Forall₂ (ReadsMember typeOf) ms ts ∧
        longestFrom size 0 none 0 (ts.map (·.1.l)) = some (longest, l) ∧
        p = ⟨x, .struct id, layUnion [] ts longest 0, [l]⟩ := by
  have hcount : countStructLen (.ofList [unionForm ms]) = .ok (1, ms.length) := by
    have hlen := countLen_ofList (ms.map Member.form)
    rw [List.length_map] at hlen
    simp only [Sexp.ofList, countStructLen, isUnion, unionForm, car_cons, cdr_cons, ok_bind,
      decide_true, if_true, hlen, Nat.zero_add, Nat.add_zero]
  rw [defstruct_list hcount]
  refine and_congr_right fun _ => ?_
  constructor
  · rintro ⟨r, hr, hlen, rfl⟩
    obtain ⟨ts, longest, l, hts, hl, rfl⟩ := structMembers_union.1 ⟨hr, hlen⟩
    exact ⟨ts, longest, l, hts, hl, rfl⟩
  · rintro ⟨ts, longest, l, hts, hl, rfl⟩
    obtain ⟨hr, hlen⟩ := structMembers_union.2 ⟨ts, longest, l, hts, hl, rfl⟩
    exact ⟨_, hr, hlen, rfl⟩

/-! ## Entries that are no members -/

/-- A list of a name alone is no member. -/
theorem readMember_single (excess : String) (y : List Char) (t : Rtt × List Char) :
    readMember typeOf excess (.ofList [.ident y]) ≠ .ok t := by
  intro h
  unfold readMember at h
  rw [Sexp.ofList, car_cons, ok_bind] at h
  obtain ⟨r, -, h⟩ := bind_ok.1 h
  cases h

theorem declaredEntries_mem {l : List Sexp} {xs : List FieldDecl}
    (h : declaredEntries typeOf (.ofList l) = .ok xs) :
    ∀ m ∈ l, ∃ y, declaredEntry typeOf m = .ok y := by
  induction l generalizing xs with
  | nil => exact fun m hm => absurd hm List.not_mem_nil
  | cons m l ih =>
    rw [Sexp.ofList, declaredEntries] at h
    obtain ⟨y, hy, h⟩ := bind_ok.1 h
    obtain ⟨ys, hys, -⟩ := bind_ok.1 h
    exact List.forall_mem_cons.2 ⟨⟨y, hy⟩, ih hys⟩

theorem unionMembers_mem {l : List Sexp} {ts : List (Rtt × List Char)}
    (h : unionMembers typeOf (.ofList l) = .ok ts) :
    ∀ m ∈ l, ∃ t, readMember typeOf "excess elements in union member" m = .ok t := by
  induction l generalizing ts with
  | nil => exact fun m hm => absurd hm List.not_mem_nil
  | cons m l ih =>
    rw [Sexp.ofList, unionMembers] at h
    obtain ⟨t, ht, h⟩ := bind_ok.1 h
    obtain ⟨ts', hts, -⟩ := bind_ok.1 h
    exact List.forall_mem_cons.2 ⟨⟨t, ht⟩, ih hts⟩

/-- Every entry is read. -/
theorem defstruct_entries {d : DataLayout} {l : List Sexp}
    (h : defstruct typeOf d.size registered id (.ofList [.ident x, .ofList l]) = .ok p) :
    ∀ m ∈ l, ∃ y, declaredEntry typeOf m = .ok y := by
  obtain ⟨xs, hxs, -⟩ := defstruct_fields h
  exact declaredEntries_mem hxs

theorem defstruct_single {d : DataLayout} {l : List Sexp} {y : List Char}
    (hy : y ≠ "union".toList) (hmem : .ofList [.ident y] ∈ l) :
    defstruct typeOf d.size registered id (.ofList [.ident x, .ofList l]) ≠ .ok p := by
  intro h
  obtain ⟨z, hz⟩ := defstruct_entries h _ hmem
  have hunion : isUnion (.ofList [.ident y]) = .ok false := by
    simp only [isUnion, Sexp.ofList, car_cons, ok_bind, Sexp.ident.injEq, hy, decide_false]
  rw [declaredEntry, hunion, ok_bind, if_neg Bool.false_ne_true] at hz
  obtain ⟨t, ht, -⟩ := bind_ok.1 hz
  exact readMember_single _ _ _ ht

theorem defstruct_union_single {d : DataLayout} {l : List Sexp} {y : List Char}
    (hmem : .ofList [.ident y] ∈ l) : defstruct typeOf d.size registered id
      (.ofList [.ident x, .ofList [.ofList [.ident "union".toList, .ofList l]]]) ≠ .ok p := by
  intro h
  obtain ⟨z, hz⟩ := defstruct_entries h _ List.mem_cons_self
  have hunion : isUnion (.ofList [.ident "union".toList, .ofList l]) = .ok true := by
    simp only [isUnion, Sexp.ofList, car_cons, ok_bind, decide_true]
  rw [declaredEntry, hunion, ok_bind, if_pos rfl] at hz
  simp only [Sexp.ofList, cdr_cons, car_cons, ok_bind] at hz
  obtain ⟨ts, hts, -⟩ := bind_ok.1 hz
  obtain ⟨t, ht⟩ := unionMembers_mem hts _ hmem
  exact readMember_single _ _ _ ht

end Members

end Dolorem.Codegen
