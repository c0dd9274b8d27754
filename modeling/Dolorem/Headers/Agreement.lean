import Dolorem.Headers.Kinds

/-!
# The converter and the compiler

A declaration agrees with the compiler if what is printed for it is read and
accepted by `funproto`, `external_global` or `defstruct`, and the parameters or
members are those of C. `headers_agree_iff` says when it does.
-/

namespace Dolorem.Headers

open Codegen Reader

/-- What there is when the compiler comes to a declaration: the types, the functions and the globals
by name, and the addresses that are free, also where the type of a member is evaluated. -/
structure Tables where
  types : Types
  registered : Registered types
  funs : List Char → Bool
  globals : List Char → Bool
  free : Nat
  memberFree : Sexp → Nat
  structId : Nat

namespace Tables

variable (C : Tables)

/-- `eval_type` on the type of a member. -/
def typeOf (e : Sexp) : Except Halt Rtt := (evalType C.types e (C.memberFree e)).map Prod.fst

def isType (x : List Char) : Bool := (C.types.lookup x).isSome

/-- The macro of the declaration accepts the arguments `e`. The parameters or members are those that
are declared, in their order, with types of the same kind and size. -/
def Accepts (sizeof : Scalar → Nat) (e : Sexp) : Decl → Prop
  | .function name args ret => ∃ p n, funproto C.types C.funs e C.free = .ok (p, n) ∧
      p.name = name.chars ∧ Same sizeof ret p.ret ∧ p.parms.nparms = args.length ∧
      List.Forall₂ (fun a q => q.name = some a.word ∧ Same sizeof a.type.adjusted q.t) args
        (p.parms.parms.take p.parms.nparms)
  | .var name type => ∃ g n, externalGlobal C.types C.globals e C.free = .ok (g, n) ∧
      g.name = name.chars ∧ Same sizeof type g.type
  | .struct name fields | .union name fields =>
    ∃ p, defstruct C.typeOf naturalSize C.isType C.structId e = .ok p ∧ p.name = tagText name ∧
      List.Forall₂ (fun f m => m.name = f.name.chars ∧ Same sizeof f.type m.type) fields p.memb

/-- What is printed for the declaration is read as a call of its macro, which accepts it. -/
def Agrees (sizeof : Scalar → Nat) (fileidx : Nat) (d : Decl) (loc : Location) : Prop :=
  ∃ w e, visitor (.decl d loc) = some w ∧
    ReadsTo w fileidx (.ofList [.cons (.ident d.head) e]) ∧ C.Accepts sizeof e d

/-- The types of the fields convert, and each is one word. -/
def FieldsConvert (sizeof : Scalar → Nat) (fields : List Field) : Prop :=
  ∀ f ∈ fields, (∃ w, f.type.oneWord = some w) ∧ Converts C.types sizeof f.type f.type

/-- When the converter and the compiler agree on a declaration: the name is new, a struct has a tag,
a union has a field with a size, and the types convert. -/
def Convertible (sizeof : Scalar → Nat) : Decl → Prop
  | .function name args ret => C.funs name.chars = false ∧ Converts C.types sizeof ret ret ∧
      ∀ a ∈ args, Converts C.types sizeof a.type a.type.adjusted
  | .var name type => C.globals name.chars = false ∧ Converts C.types sizeof type type
  | .struct name fields => (∃ x, name = some x ∧ C.types.lookup x.chars = none) ∧
      C.FieldsConvert sizeof fields
  | .union name fields => (∃ x, name = some x ∧ C.types.lookup x.chars = none) ∧
      C.FieldsConvert sizeof fields ∧ ∃ f ∈ fields, ∃ n, f.type.size sizeof = some n ∧ 0 < n

end Tables

section

variable {C : Tables} {sizeof : Scalar → Nat} {fileidx : Nat} {d : Decl} {loc : Location}

/-- The tree of a text is unique, so that it is the form of the declaration that matters. -/
theorem agrees_iff (hd : d.Plain) : C.Agrees sizeof fileidx d loc ↔
    (∃ w, writeDecl d = some w) ∧ C.Accepts sizeof d.args d := by
  constructor
  · rintro ⟨w, e, hw, hread, hacc⟩
    obtain ⟨v, hv, -⟩ := Option.map_eq_some_iff.1 hw
    obtain ⟨x, hx, he⟩ := reads_decl hd hw fileidx
    obtain ⟨y, hy, he'⟩ := hread
    cases hx.symm.trans hy
    have hargs : e = d.args := by
      have hform := Sexp.ofList_injective (he'.symm.trans he)
      cases hform
      rfl
    exact ⟨⟨v, hv⟩, hargs ▸ hacc⟩
  · rintro ⟨⟨v, hv⟩, hacc⟩
    have hw : visitor (.decl d loc) = some (v ++ writeLocation loc) := by rw [visitor, hv]; rfl
    exact ⟨_, d.args, hw, reads_decl hd hw fileidx, hacc⟩

/-! ## Functions and variables -/

theorem writeFunArgs_of {args : List Arg} (h : ∀ a ∈ args, ∃ w, writeType a.type = some w) :
    ∃ ws, writeFunArgs args = some ws := by
  induction args with
  | nil => exact ⟨[], rfl⟩
  | cons a args ih =>
    obtain ⟨⟨w, hw⟩, h⟩ := List.forall_mem_cons.1 h
    obtain ⟨ws, hws⟩ := ih h
    refine ⟨parmText w a.word :: ws, ?_⟩
    rw [writeFunArgs, hw, hws]
    rfl

/-- A parameter as it is read. -/
def Arg.pair (a : Arg) : Sexp × List Char := (a.type.expr, a.word)

/-- The parameters have the names of those of C, and their types if the words say so. -/
theorem same_parms_iff {Γ : Types} (hΓ : Registered Γ) {args : List Arg} {es : List FunParm}
    (hargs : ∀ a ∈ args, a.type.Plain) (h : List.Forall₂ (PairParm Γ) (args.map Arg.pair) es) :
    List.Forall₂ (fun a q => q.name = some a.word ∧ Same sizeof a.type.adjusted q.t) args es ↔
      ∀ a ∈ args, FitsWord Γ sizeof a.type a.type.adjusted := by
  induction args generalizing es with
  | nil =>
    cases h
    exact iff_of_true .nil fun a ha => absurd ha List.not_mem_nil
  | cons a args ih =>
    obtain ⟨ha, hargs⟩ := List.forall_mem_cons.1 hargs
    cases h with
    | cons hx hrest =>
      obtain ⟨hname, n, n', ht⟩ := hx
      have hname' : _ = some a.word := hname
      rw [List.forall₂_cons, ih hargs hrest, List.forall_mem_cons, hname', same_iff hΓ ha ht]
      simp only [true_and]

theorem function_iff {name : Identifier} {args : List Arg} {ret : CXType}
    (hd : (Decl.function name args ret).Plain) :
    ((∃ w, writeDecl (.function name args ret) = some w) ∧
        C.Accepts sizeof (Decl.function name args ret).args (.function name args ret)) ↔
      C.Convertible sizeof (.function name args ret) := by
  obtain ⟨hargs, hret⟩ := hd
  have hΓ := C.registered
  have hform : (Decl.function name args ret).args =
      .ofList [.ident name.chars, .ofList ((args.map Arg.pair).map pairForm), ret.expr] := by
    rw [List.map_map]
    rfl
  have hpairs : (∀ x ∈ args.map Arg.pair, IsTypeExpr C.types x.1) ↔
      ∀ a ∈ args, Accepted C.types a.type := by
    rw [List.forall_mem_map]
    exact forall₂_congr fun a ha => isTypeExpr_iff_accepted hΓ (hargs a ha)
  rw [hform]
  constructor
  · rintro ⟨-, p, n, hrun, -, hsame, -, hparms⟩
    obtain ⟨hfun, t, n₁, ps, ht, hps, rfl⟩ := funproto_iff.1 hrun
    obtain ⟨-, -, hall⟩ := parseParms_pairs_ok hps
    have hacc := hpairs.1 ((parseParms_pairs n₁).1 ⟨ps, n, hps⟩)
    have hfits := (same_parms_iff hΓ hargs hall).1 hparms
    exact ⟨hfun, (converts_iff hΓ hret C.free).1 ⟨t, n₁, ht, hsame⟩,
      fun a ha => ⟨hacc a ha, hfits a ha⟩⟩
  · rintro ⟨hfun, hconv, hall⟩
    obtain ⟨t, n₁, ht, hsame⟩ := (converts_iff hΓ hret C.free).2 hconv
    have heval := hpairs.2 fun a ha => (hall a ha).accepted
    obtain ⟨ps, n, hps⟩ := (parseParms_pairs n₁).2 heval
    obtain ⟨hlen, -, hpair⟩ := parseParms_pairs_ok hps
    rw [List.length_map] at hlen
    refine ⟨?_, ⟨_, t, ps⟩, n, funproto_iff.2 ⟨hfun, t, n₁, ps, ht, hps, rfl⟩, rfl, hsame, hlen,
      (same_parms_iff hΓ hargs hpair).2 fun a ha => (hall a ha).fits⟩
    obtain ⟨ws, hws⟩ := writeFunArgs_of fun a ha =>
      writes_of_isTypeExpr hΓ (hargs a ha) ((isTypeExpr_iff_accepted hΓ (hargs a ha)).2
        (hall a ha).accepted)
    obtain ⟨w, hw⟩ := writes_of_isTypeExpr hΓ hret (isTypeExpr_of_ok ht)
    rw [writeDecl, writeFun, hws, hw]
    exact ⟨_, rfl⟩

theorem var_iff {name : Identifier} {type : CXType} (hd : (Decl.var name type).Plain) :
    ((∃ w, writeDecl (.var name type) = some w) ∧
        C.Accepts sizeof (Decl.var name type).args (.var name type)) ↔
      C.Convertible sizeof (.var name type) := by
  have hΓ := C.registered
  constructor
  · rintro ⟨-, g, n, hrun, -, hsame⟩
    obtain ⟨hglobal, t, ht, rfl⟩ := externalGlobal_iff.1 hrun
    exact ⟨hglobal, (converts_iff hΓ hd C.free).1 ⟨t, n, ht, hsame⟩⟩
  · rintro ⟨hglobal, hconv⟩
    obtain ⟨t, n, ht, hsame⟩ := (converts_iff hΓ hd C.free).2 hconv
    refine ⟨?_, ⟨_, t⟩, n, externalGlobal_iff.2 ⟨hglobal, t, ht, rfl⟩, rfl, hsame⟩
    obtain ⟨w, hw⟩ := writes_of_isTypeExpr hΓ hd (isTypeExpr_of_ok ht)
    rw [writeDecl, hw]
    exact ⟨_, rfl⟩

/-! ## Structs and unions -/

theorem structVisitor_of {fields : List Field} (h : ∀ f ∈ fields, ∃ w, writeType f.type = some w) :
    ∃ w, structVisitor fields = some w := by
  induction fields with
  | nil => exact ⟨[], rfl⟩
  | cons f fields ih =>
    obtain ⟨⟨w, hw⟩, h⟩ := List.forall_mem_cons.1 h
    obtain ⟨v, hv⟩ := ih h
    rw [structVisitor, hw, hv]
    exact ⟨_, rfl⟩

/-- A field whose type is one word. -/
def Field.member (f : Field) : Member := ⟨f.type.expr, f.name.chars⟩

theorem items_of_word {fields : List Field} (h : ∀ f ∈ fields, f.type.expr.isList = false) :
    fields.flatMap Field.items = (fields.map Field.member).map Member.form := by
  induction fields with
  | nil => rfl
  | cons f fields ih =>
    obtain ⟨hf, h⟩ := List.forall_mem_cons.1 h
    rw [List.flatMap_cons, ih h, Field.items, hf, if_neg Bool.false_ne_true]
    rfl

/-- The name of a field whose type is in brackets is an entry of its own. -/
theorem name_mem_items {fields : List Field} {f : Field} (hf : f ∈ fields)
    (hlist : f.type.expr.isList = true) :
    .ofList [.ident f.name.chars] ∈ fields.flatMap Field.items := by
  refine List.mem_flatMap.2 ⟨f, hf, ?_⟩
  rw [Field.items, if_pos hlist]
  exact List.mem_cons_of_mem _ List.mem_cons_self

theorem typeOf_ok_iff {e : Sexp} {r : Rtt} :
    C.typeOf e = .ok r ↔ ∃ n, evalType C.types e (C.memberFree e) = .ok (r, n) := by
  unfold Tables.typeOf
  cases evalType C.types e (C.memberFree e) with
  | error h => exact iff_of_false (fun h => by cases h) (by rintro ⟨n, h⟩; cases h)
  | ok q =>
    constructor
    · intro h
      cases h
      exact ⟨q.2, rfl⟩
    · rintro ⟨n, h⟩
      cases h
      rfl

/-- The members have the names of the fields, and their types if the words say so. -/
theorem same_fields_iff {fields : List Field} {ms : List StructMemb}
    (hf : ∀ f ∈ fields, f.type.Plain)
    (h : List.Forall₂ (ReadsMember C.typeOf) (fields.map Field.member) (ms.map StructMemb.pair)) :
    List.Forall₂ (fun f m => m.name = f.name.chars ∧ Same sizeof f.type m.type) fields ms ↔
      ∀ f ∈ fields, FitsWord C.types sizeof f.type f.type := by
  induction fields generalizing ms with
  | nil =>
    cases ms with
    | nil => exact iff_of_true .nil fun f hf => absurd hf List.not_mem_nil
    | cons m ms => cases h
  | cons f fields ih =>
    obtain ⟨hplain, hf⟩ := List.forall_mem_cons.1 hf
    cases ms with
    | nil => cases h
    | cons m ms =>
      rw [List.map_cons, List.map_cons, List.forall₂_cons] at h
      obtain ⟨⟨ht, hname⟩, hrest⟩ := h
      obtain ⟨n, ht⟩ := typeOf_ok_iff.1 ht
      have hname' : m.name = f.name.chars := hname
      have hsame : Same sizeof f.type m.type ↔ _ := same_iff C.registered hplain ht
      rw [List.forall₂_cons, ih hf hrest, List.forall_mem_cons, hname', hsame]
      simp only [true_and]

/-- The fields are read if and only if their types are accepted. -/
theorem readsMembers_iff {fields : List Field} (hf : ∀ f ∈ fields, f.type.Plain) :
    (∃ ts, List.Forall₂ (ReadsMember C.typeOf) (fields.map Field.member) ts) ↔
      ∀ f ∈ fields, Accepted C.types f.type := by
  induction fields with
  | nil => exact iff_of_true ⟨[], .nil⟩ fun f hf => absurd hf List.not_mem_nil
  | cons f fields ih =>
    obtain ⟨hplain, hf⟩ := List.forall_mem_cons.1 hf
    have hfirst : Accepted C.types f.type ↔ ∃ r, C.typeOf f.type.expr = .ok r := by
      rw [← isTypeExpr_iff_accepted C.registered hplain, isTypeExpr_iff (C.memberFree f.type.expr)]
      exact exists_congr fun r => typeOf_ok_iff.symm
    rw [List.forall_mem_cons, ← ih hf, hfirst, List.map_cons]
    constructor
    · rintro ⟨ts, hts⟩
      cases hts with
      | cons hx hrest => exact ⟨⟨_, hx.1⟩, _, hrest⟩
    · rintro ⟨⟨r, hr⟩, ts, hts⟩
      exact ⟨(r, f.name.chars) :: ts, .cons ⟨hr, rfl⟩ hts⟩

/-- Without a tag there is no name to define. -/
theorem no_tag (members : List Sexp) (p : StructProp) :
    defstruct C.typeOf naturalSize C.isType C.structId (structArgs none members) ≠ .ok p := by
  intro h
  have hargs : structArgs none members = .cons (.ofList members) .nil := rfl
  rw [hargs, defstruct, car_cons, ok_bind] at h
  obtain ⟨x, hx, -⟩ := bind_ok.1 h
  cases members <;> cases hx

theorem structArgs_some (x : Identifier) (members : List Sexp) :
    structArgs (some x) members = .ofList [.ident x.chars, .ofList members] := rfl

theorem isType_eq_false {x : List Char} : C.isType x = false ↔ C.types.lookup x = none :=
  Option.isSome_eq_false_iff.trans Option.isNone_iff_eq_none

/-- A union with a field that has a size is laid out. -/
theorem longest_of {fields : List Field} {ts : List (Rtt × List Char)}
    (hf : ∀ f ∈ fields, f.type.Plain) (hfits : ∀ f ∈ fields, FitsWord C.types sizeof f.type f.type)
    (h : List.Forall₂ (ReadsMember C.typeOf) (fields.map Field.member) ts) :
    (∃ l ∈ ts.map (·.1.l), 0 < naturalSize l) ↔
      ∃ f ∈ fields, ∃ n, f.type.size sizeof = some n ∧ 0 < n := by
  induction fields generalizing ts with
  | nil =>
    cases h
    simp only [List.map_nil, List.not_mem_nil, false_and, exists_false]
  | cons f fields ih =>
    obtain ⟨hplain, hf⟩ := List.forall_mem_cons.1 hf
    obtain ⟨hfit, hfits⟩ := List.forall_mem_cons.1 hfits
    cases h with
    | @cons _ t _ ts hx hrest =>
      obtain ⟨n, ht⟩ := typeOf_ok_iff.1 hx.1
      have hsize := size_of_same C.registered hplain ht ((same_iff C.registered hplain ht).2 hfit)
      rw [List.map_cons, List.exists_mem_cons_iff, List.exists_mem_cons_iff, ih hf hfits hrest,
        hsize]

/-- The three conditions on the fields apart. -/
theorem fieldsConvert_iff {fields : List Field} (hf : ∀ f ∈ fields, f.type.Plain) :
    C.FieldsConvert sizeof fields ↔ (∀ f ∈ fields, f.type.expr.isList = false) ∧
      (∀ f ∈ fields, Accepted C.types f.type) ∧
      ∀ f ∈ fields, FitsWord C.types sizeof f.type f.type := by
  constructor
  · intro h
    exact ⟨fun f hmem => (isList_expr (hf f hmem)).2 (h f hmem).1,
      fun f hmem => (h f hmem).2.accepted, fun f hmem => (h f hmem).2.fits⟩
  · rintro ⟨hwords, hacc, hfits⟩ f hmem
    exact ⟨(isList_expr (hf f hmem)).1 (hwords f hmem), hacc f hmem, hfits f hmem⟩

/-- The converter does not exit in a struct whose members are accepted. -/
theorem structVisitor_of_accepted {fields : List Field} (hf : ∀ f ∈ fields, f.type.Plain)
    (hacc : ∀ f ∈ fields, Accepted C.types f.type) : ∃ w, structVisitor fields = some w :=
  structVisitor_of fun f hmem => writes_of_isTypeExpr C.registered (hf f hmem)
    ((isTypeExpr_iff_accepted C.registered (hf f hmem)).2 (hacc f hmem))

/-- Every field is one word if the members are accepted. -/
theorem words_of {fields : List Field} (h : ∀ f ∈ fields,
    .ofList [.ident f.name.chars] ∉ fields.flatMap Field.items) :
    ∀ f ∈ fields, f.type.expr.isList = false := by
  intro f hf
  by_contra hlist
  exact h f hf (name_mem_items hf (Bool.of_not_eq_false hlist))

theorem struct_iff {name : Option Identifier} {fields : List Field}
    (hd : (Decl.struct name fields).Plain) :
    ((∃ w, writeDecl (.struct name fields) = some w) ∧
        C.Accepts sizeof (Decl.struct name fields).args (.struct name fields)) ↔
      C.Convertible sizeof (.struct name fields) := by
  have hf : ∀ f ∈ fields, f.type.Plain := hd
  have hunion : ∀ m ∈ fields.map Field.member, m.type ≠ .ident "union".toList :=
    List.forall_mem_map.2 fun f hmem => expr_ne_union (hf f hmem)
  constructor
  · rintro ⟨-, p, hrun, -, hall⟩
    cases name with
    | none => exact absurd hrun (no_tag _ _)
    | some x =>
      have hrun' : defstruct C.typeOf naturalSize C.isType C.structId
          (.ofList [.ident x.chars, .ofList (fields.flatMap Field.items)]) = .ok p := hrun
      have hwords := words_of fun f _ hmem =>
        defstruct_single (d := naturalLayout) f.name.ne_union hmem hrun'
      rw [items_of_word hwords, defstruct_plain_iff hunion] at hrun'
      obtain ⟨hreg, ts, hts, rfl⟩ := hrun'
      rw [← plainMembs_pair 0 ts] at hts
      have hfits := (same_fields_iff hf hts).1 hall
      have hacc := (readsMembers_iff hf).1 ⟨_, hts⟩
      exact ⟨⟨x, rfl, isType_eq_false.1 hreg⟩, (fieldsConvert_iff hf).2 ⟨hwords, hacc, hfits⟩⟩
  · rintro ⟨⟨x, rfl, hreg⟩, hconv⟩
    obtain ⟨hwords, hacc, hfits⟩ := (fieldsConvert_iff hf).1 hconv
    obtain ⟨ts, hts⟩ := (readsMembers_iff hf).2 hacc
    refine ⟨?_, ⟨x.chars, .struct C.structId, plainMembs 0 ts, ts.map (·.1.l)⟩, ?_, rfl, ?_⟩
    · obtain ⟨w, hw⟩ := structVisitor_of_accepted hf hacc
      rw [writeDecl, hw]
      exact ⟨_, rfl⟩
    · rw [Decl.args, structArgs_some, items_of_word hwords, defstruct_plain_iff hunion]
      exact ⟨isType_eq_false.2 hreg, ts, hts, rfl⟩
    · rw [← plainMembs_pair 0 ts] at hts
      exact (same_fields_iff hf hts).2 hfits

theorem union_iff {name : Option Identifier} {fields : List Field}
    (hd : (Decl.union name fields).Plain) :
    ((∃ w, writeDecl (.union name fields) = some w) ∧
        C.Accepts sizeof (Decl.union name fields).args (.union name fields)) ↔
      C.Convertible sizeof (.union name fields) := by
  have hf : ∀ f ∈ fields, f.type.Plain := hd
  have hargs : (∀ f ∈ fields, f.type.expr.isList = false) →
      Sexp.ofList [.ident "union".toList, .ofList (fields.flatMap Field.items)] =
        unionForm (fields.map Field.member) := by
    intro hwords
    rw [items_of_word hwords, unionForm]
  constructor
  · rintro ⟨-, p, hrun, -, hall⟩
    cases name with
    | none => exact absurd hrun (no_tag _ _)
    | some x =>
      have hrun' : defstruct C.typeOf naturalSize C.isType C.structId (.ofList [.ident x.chars,
          .ofList [.ofList [.ident "union".toList, .ofList (fields.flatMap Field.items)]]]) =
            .ok p := hrun
      have hwords := words_of fun f _ hmem =>
        defstruct_union_single (d := naturalLayout) hmem hrun'
      rw [hargs hwords, defstruct_union_iff] at hrun'
      obtain ⟨hreg, ts, longest, l, hts, hlong, rfl⟩ := hrun'
      have hsome := (longestFrom_isSome _).1 ⟨_, hlong⟩
      have hts' := hts
      rw [← layUnion_pair ts longest 0] at hts'
      have hfits := (same_fields_iff hf hts').1 hall
      have hacc := (readsMembers_iff hf).1 ⟨_, hts⟩
      exact ⟨⟨x, rfl, isType_eq_false.1 hreg⟩, (fieldsConvert_iff hf).2 ⟨hwords, hacc, hfits⟩,
        (longest_of hf hfits hts).1 hsome⟩
  · rintro ⟨⟨x, rfl, hreg⟩, hconv, hsize⟩
    obtain ⟨hwords, hacc, hfits⟩ := (fieldsConvert_iff hf).1 hconv
    obtain ⟨ts, hts⟩ := (readsMembers_iff hf).2 hacc
    obtain ⟨⟨longest, l⟩, hlong⟩ := (longestFrom_isSome _).2 ((longest_of hf hfits hts).2 hsize)
    refine ⟨?_, ⟨x.chars, .struct C.structId, layUnion [] ts longest 0, [l]⟩, ?_, rfl, ?_⟩
    · obtain ⟨w, hw⟩ := structVisitor_of_accepted hf hacc
      rw [writeDecl, hw]
      exact ⟨_, rfl⟩
    · rw [Decl.args, structArgs_some, hargs hwords, defstruct_union_iff]
      exact ⟨isType_eq_false.2 hreg, ts, longest, l, hts, hlong, rfl⟩
    · rw [← layUnion_pair ts longest 0] at hts
      exact (same_fields_iff hf hts).2 hfits

end

/-! ## All declarations -/

/-- The converter and the compiler agree on a declaration if and only if it is convertible. -/
theorem headers_agree_iff (C : Tables) (sizeof : Scalar → Nat) (fileidx : Nat) {d : Decl}
    (hd : d.Plain) (loc : Location) :
    C.Agrees sizeof fileidx d loc ↔ C.Convertible sizeof d := by
  rw [agrees_iff hd]
  cases d with
  | function name args ret => exact function_iff hd
  | var name type => exact var_iff hd
  | struct name fields => exact struct_iff hd
  | union name fields => exact union_iff hd

/-- A host with a `long` of eight bytes. -/
def lp64 : Scalar → Nat
  | .void => 0
  | .bool | .charU | .uchar | .charS | .schar => 1
  | .ushort | .short => 2
  | .uint | .int | .float => 4
  | .ulong | .ulongLong | .long | .longLong | .double => 8
  | .longDouble => 16

/-- The tables as `init_basictypes` leaves them. -/
def initial : Tables := ⟨initTypes, .init, fun _ => false, fun _ => false, 0, fun _ => 0, 0⟩

def nameS : Identifier :=
  ⟨"s".toList, by decide, forall_chars rfl, by rintro c ⟨⟩; rfl, by decide⟩

def locS : Location := ⟨"s.h".toList, 1, 12, forall_chars rfl⟩

/-- `int s(char *s);` is converted. -/
theorem headers_agree_prototype :
    (Decl.function nameS [⟨some nameS, .pointer (.scalar .charS)⟩] (.scalar .int)).Plain ∧
      initial.Agrees lp64 0
        (.function nameS [⟨some nameS, .pointer (.scalar .charS)⟩] (.scalar .int)) locS := by
  have hplain : (Decl.function nameS [⟨some nameS, .pointer (.scalar .charS)⟩]
      (.scalar .int)).Plain := by
    refine ⟨fun a ha => ?_, .scalar _⟩
    cases List.mem_singleton.1 ha
    exact .pointer (.scalar _)
  refine ⟨hplain, (headers_agree_iff initial lp64 0 hplain locS).2 ⟨rfl, ⟨?_, ?_⟩, fun a ha => ?_⟩⟩
  · exact .scalar ⟨_, _, rfl, rfl⟩
  · intro m hm
    cases hm
    exact ⟨rfl, fun n hn => by cases hn; rfl⟩
  · cases List.mem_singleton.1 ha
    refine ⟨.pointer rfl ⟨_, _, rfl, ?_, rfl⟩, fun m hm => ?_⟩
    · exact ⟨TypeMacro.noConfusion, TypeMacro.noConfusion, TypeMacro.noConfusion⟩
    · cases hm
      exact ⟨rfl, fun n hn => by cases hn; rfl⟩

/-- `struct s { char *s; };`, `extern long s;` and `extern double s;` are not. -/
theorem headers_disagree :
    ¬ initial.Agrees lp64 0
        (.struct (some nameS) [⟨nameS, .pointer (.scalar .charS), locS⟩]) locS ∧
      ¬ initial.Agrees lp64 0 (.var nameS (.scalar .long)) locS ∧
      ¬ initial.Agrees lp64 0 (.var nameS (.scalar .double)) locS := by
  refine ⟨fun h => ?_, fun h => ?_, fun h => ?_⟩
  · have hplain : (Decl.struct (some nameS) [⟨nameS, .pointer (.scalar .charS), locS⟩]).Plain := by
      intro f hf
      cases List.mem_singleton.1 hf
      exact .pointer (.scalar _)
    obtain ⟨-, hconv⟩ := (struct_iff hplain).1 ((agrees_iff hplain).1 h)
    obtain ⟨⟨w, hw⟩, -⟩ := hconv _ List.mem_cons_self
    cases hw
  · have hplain : (Decl.var nameS (.scalar .long)).Plain := .scalar _
    obtain ⟨-, hconv⟩ := (var_iff hplain).1 ((agrees_iff hplain).1 h)
    have hsize := (hconv.fits _ rfl).size 8 rfl
    exact absurd hsize (by decide)
  · have hplain : (Decl.var nameS (.scalar .double)).Plain := .scalar _
    obtain ⟨-, hconv⟩ := (var_iff hplain).1 ((agrees_iff hplain).1 h)
    have hsize := (hconv.fits _ rfl).size 8 rfl
    exact absurd hsize (by decide)

end Dolorem.Headers
