import Dolorem.Codegen.Declarations
import Dolorem.Codegen.Layout
import Dolorem.Headers.Written

/-!
# Kinds and sizes of converted types

What a C type is to the host and what the type expression printed for it is to
the compiler. `eval_type` accepts the expressions of the types in `Accepted`,
and the kind and the size of the type are those of the macro that is registered
under the word that names the type: `converts_iff`.
-/

namespace Dolorem.Headers

open Codegen Reader

inductive Kind where
  | void
  | integer
  | float
  | pointer
  | funptr
  | array
  | function
  | other
deriving DecidableEq, Repr

/-! ## C -/

def Scalar.kind : Scalar → Kind
  | void => .void
  | float | double | longDouble => .float
  | _ => .integer

namespace CXType

def isFunction : CXType → Bool
  | functionProto _ _ => true
  | unexposed canonical => canonical.isFunction
  | _ => false

def kind : CXType → Kind
  | scalar k => k.kind
  | pointer pointee => if pointee.isFunction then .funptr else .pointer
  | incompleteArray _ => .array
  | functionProto _ _ => .function
  | unexposed canonical => canonical.kind
  | _ => .other

/-- The size, where the type has one: that of a scalar is up to the host, and pointers have eight
bytes. -/
def size (sizeof : Scalar → Nat) : CXType → Option Nat
  | scalar .void => none
  | scalar k => some (sizeof k)
  | pointer _ => some 8
  | unexposed canonical => canonical.size sizeof
  | _ => none

/-- The type of a parameter: arrays and functions are passed as pointers. -/
def adjusted : CXType → CXType
  | incompleteArray element => pointer element
  | functionProto args result => pointer (functionProto args result)
  | t => t

end CXType

/-! ## The words for a type -/

namespace CXType

/-- The word for a type that has no brackets: scalars, and pointers to `void`. -/
def oneWord : CXType → Option (List Char)
  | scalar k => some k.word
  | incompleteArray pointee => if pointee.isVoid then some "ptr".toList else none
  | pointer (unexposed canonical) => canonical.oneWord
  | pointer pointee => if pointee.isVoid then some "ptr".toList else none
  | _ => none

/-- The word that names the type. -/
def head : CXType → List Char
  | scalar k => k.word
  | pointer (unexposed canonical) => canonical.head
  | functionProto _ _ => "funptr".toList
  | _ => "ptr".toList

end CXType

/-! ## The compiler -/

/-- The kind of a type, behind its aliases. -/
def kindOf : Ty → Kind
  | .void => .void
  | .integer _ _ => .integer
  | .float _ => .float
  | .rawPtr | .pointer _ => .pointer
  | .alias _ _ t => kindOf t
  | .array _ _ _ => .array
  | .funptr _ => .funptr
  | .opaqueAlias _ | .struct _ => .other

/-- The kind of the types that a macro makes, unless it is `array` with arguments. -/
def macroKind (m : TypeMacro) : Kind :=
  match m.bare with
  | .ok r => kindOf r.t
  | .error _ => .funptr

def macroSize (m : TypeMacro) : Nat :=
  match m.bare with
  | .ok r => naturalSize r.l
  | .error _ => 8

/-- The kind and the size are those of the C type. -/
structure Fit (sizeof : Scalar → Nat) (t : CXType) (k : Kind) (size : Nat) : Prop where
  kind : k = t.kind
  size : ∀ n, t.size sizeof = some n → size = n

/-- The compiler's type `r` is that of a C object of type `t`. -/
def Same (sizeof : Scalar → Nat) (t : CXType) (r : Rtt) : Prop :=
  Fit sizeof t (kindOf r.t) (naturalSize r.l)

/-- The type that is registered under the word `t.head` has the kind and the size of the C type
`c`. -/
def FitsWord (Γ : Types) (sizeof : Scalar → Nat) (t c : CXType) : Prop :=
  ∀ m, Γ.lookup t.head = some m → Fit sizeof c (macroKind m) (macroSize m)

/-! ## The types that are accepted -/

/-- A word that is a type. -/
def IsType (Γ : Types) (w : List Char) : Prop :=
  ∃ m r, Γ.lookup w = some m ∧ m.bare = .ok r

/-- A word that is a type also as the head of a list. -/
def IsFixedType (Γ : Types) (w : List Char) : Prop :=
  ∃ m r, Γ.lookup w = some m ∧ m.Fixed ∧ m.bare = .ok r

/-- The types whose expressions `eval_type` accepts: what a pointer points to has to be printed as
one word, unless it is in parentheses. -/
inductive Accepted (Γ : Types) : CXType → Prop
  | scalar {k : Scalar} : IsType Γ k.word → Accepted Γ (.scalar k)
  | pointer {t : CXType} {w : List Char} : t.oneWord = some w → IsFixedType Γ w →
    Accepted Γ (.pointer t)
  | incompleteArray {t : CXType} {w : List Char} : t.oneWord = some w → IsFixedType Γ w →
    Accepted Γ (.incompleteArray t)
  | parens {t : CXType} : Accepted Γ t → Accepted Γ (.pointer (.unexposed t))
  | functionProto {args : List CXType} {result : CXType} : (∀ a ∈ args, Accepted Γ a) →
    Accepted Γ result → Accepted Γ (.functionProto args result)

section

variable {Γ : Types} {t : CXType} {w : List Char} {n n' : Nat} {r : Rtt} {e : Sexp}

theorem oneWord_pointer (ht : ∀ c, t ≠ .unexposed c) :
    (CXType.pointer t).oneWord = if t.isVoid then some "ptr".toList else none := by
  rw [CXType.oneWord]
  exact ht

theorem head_pointer (ht : ∀ c, t ≠ .unexposed c) : (CXType.pointer t).head = "ptr".toList := by
  cases t with
  | unexposed c => exact absurd rfl (ht c)
  | _ => rfl

/-- A type is printed as one word if there is one for it. -/
theorem oneWord_eq_some_iff (ht : t.Plain) : t.oneWord = some w ↔ t.expr = .ident w := by
  have hptr : ∀ {b : Bool} {e : Sexp}, (if b then some "ptr".toList else none) = some w ↔
      (if !b then ptrForm e else .ident "ptr".toList) = .ident w := by
    intro b e
    cases b with
    | false => exact iff_of_false (fun h => by cases h) fun h => by cases h
    | true =>
      simp only [if_true, Bool.not_true, Bool.false_eq_true, if_false, Option.some.injEq,
        Sexp.ident.injEq]
  induction ht using CXType.Plain.pointee with
  | scalar k => rw [CXType.oneWord, CXType.expr, Option.some.injEq, Sexp.ident.injEq]
  | incompleteArray =>
    rw [CXType.oneWord, CXType.expr]
    exact hptr
  | pointer _ hu helab =>
    rw [oneWord_pointer hu, expr_pointer hu, helab, Bool.not_false, Bool.and_true]
    exact hptr
  | parens _ ih => exact ih
  | functionProto => exact iff_of_false (fun h => by cases h) fun h => by cases h
  | unexposed => exact iff_of_false (fun h => by cases h) fun h => by cases h

/-- The expression of a type is its word, or starts with it. -/
theorem expr_head (ht : t.Plain) : t.expr = .ident t.head ∨ t.expr = .nil ∨
    ∃ l, t.expr = .cons (.ident t.head) l ∧ (t.head = "ptr".toList ∨ t.head = "funptr".toList) := by
  induction ht using CXType.Plain.pointee with
  | scalar k => exact .inl rfl
  | incompleteArray =>
    rw [CXType.expr]
    split_ifs
    · exact .inr (.inr ⟨_, rfl, .inl rfl⟩)
    · exact .inl rfl
  | pointer _ hu =>
    rw [expr_pointer hu, head_pointer hu]
    split_ifs
    · exact .inr (.inr ⟨_, rfl, .inl rfl⟩)
    · exact .inl rfl
  | parens _ ih => exact ih
  | functionProto => exact .inr (.inr ⟨_, rfl, .inr rfl⟩)
  | unexposed => exact .inr (.inl rfl)

theorem isList_expr (ht : t.Plain) : t.expr.isList = false ↔ ∃ w, t.oneWord = some w := by
  have hword : (∃ w, t.oneWord = some w) ↔ ∃ w, t.expr = .ident w :=
    exists_congr fun w => oneWord_eq_some_iff ht
  rw [hword]
  rcases expr_head ht with he | he | ⟨l, he, -⟩ <;> rw [he]
  · exact iff_of_true rfl ⟨_, rfl⟩
  · exact iff_of_false (fun h => by cases h) (by rintro ⟨w, h⟩; cases h)
  · exact iff_of_false (fun h => by cases h) (by rintro ⟨w, h⟩; cases h)

theorem isTypeExpr_ident : IsTypeExpr Γ (.ident w) ↔ IsType Γ w := by
  constructor
  · rintro ⟨r, n', h⟩
    cases evalType_ok_iff.1 h with
    | bare hm hr => exact ⟨_, r, hm, hr⟩
  · rintro ⟨m, r, hm, hr⟩
    exact ⟨r, 0, evalType_ok_iff.2 (.bare hm hr)⟩

theorem namesFixed_of (h : IsFixedType Γ w) : NamesFixed Γ (.ident w) := by
  obtain ⟨m, r, hm, hfix, -⟩ := h
  exact ⟨w, m, rfl, hm, hfix⟩

theorem IsFixedType.isType (h : IsFixedType Γ w) : IsType Γ w := by
  obtain ⟨m, r, hm, -, hr⟩ := h
  exact ⟨m, r, hm, hr⟩

/-- `(ptr e)` is a type if and only if `e` is a word that is one also as the head of a list. -/
theorem isTypeExpr_ptrForm (hΓ : Registered Γ) :
    IsTypeExpr Γ (ptrForm e) ↔ ∃ w, e = .ident w ∧ IsFixedType Γ w := by
  have hptr : Γ.lookup "ptr".toList = some .pointer := hΓ.grows _ _ rfl
  constructor
  · rintro ⟨r, n', h⟩
    rw [ptrForm, Sexp.ofList, evalType, hptr] at h
    obtain ⟨⟨t, n₁⟩, ht, -⟩ := bind_ok.1 h
    cases evalType_ok_iff.1 ht with
    | fixed hm hfix hr => exact ⟨_, rfl, _, t, hm, hfix, hr⟩
    | pointer _ ht => cases ht
  · rintro ⟨w, rfl, hw⟩
    obtain ⟨r, n', h⟩ := isTypeExpr_ident.2 hw.isType
    exact ⟨_, n', evalType_ok_iff.2 (.pointer hptr (single_of_fixed (namesFixed_of hw) h))⟩

theorem isVoid_iff : t.isVoid = true ↔ t = .scalar .void := by
  constructor
  · intro h
    unfold CXType.isVoid at h
    split at h
    · rfl
    · cases h
  · rintro rfl
    rfl

theorem isFixedType_void (hΓ : Registered Γ) : IsFixedType Γ "void".toList :=
  ⟨.void, _, hΓ.grows _ _ rfl,
    ⟨TypeMacro.noConfusion, TypeMacro.noConfusion, TypeMacro.noConfusion⟩, rfl⟩

theorem isTypeExpr_ptr (hΓ : Registered Γ) : IsTypeExpr Γ (.ident "ptr".toList) :=
  isTypeExpr_ident.2 ⟨.pointer, _, hΓ.grows _ _ rfl, rfl⟩

/-- The expression for a pointer or an array: a pointer to `void` is the word `ptr`. -/
theorem isTypeExpr_pointee (hΓ : Registered Γ) (t : CXType) :
    IsTypeExpr Γ (if !t.isVoid then ptrForm t.expr else .ident "ptr".toList) ↔
      ∃ w, t.expr = .ident w ∧ IsFixedType Γ w := by
  split_ifs with hvoid
  · exact isTypeExpr_ptrForm hΓ
  · rw [Bool.not_eq_true', Bool.not_eq_false, isVoid_iff] at hvoid
    subst hvoid
    exact iff_of_true (isTypeExpr_ptr hΓ) ⟨_, rfl, isFixedType_void hΓ⟩

/-- The parameters in the expression of a prototype. -/
theorem argForms_eq (args : List CXType) :
    argForms args = (args.map fun a => (a.expr, "_".toList)).map pairForm := by
  induction args with
  | nil => rfl
  | cons a args ih => rw [argForms, ih]; rfl

theorem isTypeExpr_functionProto (hΓ : Registered Γ) {args : List CXType} {result : CXType} :
    IsTypeExpr Γ (CXType.functionProto args result).expr ↔
      (∀ a ∈ args, IsTypeExpr Γ a.expr) ∧ IsTypeExpr Γ result.expr := by
  have hfunptr : Γ.lookup "funptr".toList = some .funptr := hΓ.grows _ _ rfl
  have hpairs : (∀ x ∈ args.map fun a => (a.expr, "_".toList), IsTypeExpr Γ x.1) ↔
      ∀ a ∈ args, IsTypeExpr Γ a.expr := List.forall_mem_map
  rw [CXType.expr, argForms_eq]
  constructor
  · rintro ⟨r, n', h⟩
    rw [Sexp.ofList, evalType, hfunptr] at h
    obtain ⟨parms, ret, t, n₁, ps, a, hT, -, ht, hps, -, -⟩ := funptrType_ok h
    cases hT
    exact ⟨hpairs.1 ((parseParms_pairs n₁).1 ⟨ps, a, hps⟩), isTypeExpr_of_ok ht⟩
  · rintro ⟨hargs, t, n₁, ht⟩
    obtain ⟨q, n', hq⟩ := (parseParms_pairs n₁).2 (hpairs.2 hargs)
    exact ⟨_, _, evalType_ok_iff.2 (.funptr hfunptr (Sexp.isList_ofList _) ht hq)⟩

/-- `eval_type` accepts what is printed for a type if and only if it is one of these types. -/
theorem isTypeExpr_iff_accepted (hΓ : Registered Γ) (ht : t.Plain) :
    IsTypeExpr Γ t.expr ↔ Accepted Γ t := by
  induction ht using CXType.Plain.pointee with
  | scalar k =>
    rw [CXType.expr, isTypeExpr_ident]
    exact ⟨.scalar, fun h => by cases h; assumption⟩
  | incompleteArray ht _ =>
    rw [CXType.expr, isTypeExpr_pointee hΓ]
    constructor
    · rintro ⟨w, hw, hfix⟩
      exact .incompleteArray ((oneWord_eq_some_iff ht).2 hw) hfix
    · intro h
      cases h with
      | incompleteArray hw hfix => exact ⟨_, (oneWord_eq_some_iff ht).1 hw, hfix⟩
  | pointer ht hu helab _ =>
    rw [expr_pointer hu, helab, Bool.not_false, Bool.and_true, isTypeExpr_pointee hΓ]
    constructor
    · rintro ⟨w, hw, hfix⟩
      exact .pointer ((oneWord_eq_some_iff ht).2 hw) hfix
    · intro h
      cases h with
      | pointer hw hfix => exact ⟨_, (oneWord_eq_some_iff ht).1 hw, hfix⟩
      | parens => exact absurd rfl (hu _)
  | parens ht ih =>
    refine ⟨fun h => .parens (ih.1 h), fun h => ?_⟩
    cases h with
    | parens h => exact ih.2 h
    | pointer hw _ => cases hw
  | functionProto _ _ iha ihr =>
    rw [isTypeExpr_functionProto hΓ, ihr]
    constructor
    · rintro ⟨ha, hr⟩
      exact .functionProto (fun a hmem => (iha a hmem).1 (ha a hmem)) hr
    · intro h
      cases h with
      | functionProto ha hr => exact ⟨fun a hmem => (iha a hmem).2 (ha a hmem), hr⟩
  | unexposed =>
    refine iff_of_false ?_ fun h => by cases h
    rintro ⟨r, n', h⟩
    cases h

/-- All parameters are printed if all their types are. -/
theorem writeArgs_of {args : List CXType} (h : ∀ a ∈ args, ∃ w, writeType a = some w) :
    ∃ ws, writeArgs args = some ws := by
  induction args with
  | nil => exact ⟨[], rfl⟩
  | cons a args ih =>
    obtain ⟨⟨w, hw⟩, h⟩ := List.forall_mem_cons.1 h
    obtain ⟨ws, hws⟩ := ih h
    refine ⟨parmText w "_".toList :: ws, ?_⟩
    rw [writeArgs, hw, hws]
    rfl

/-- The converter does not exit at a type that is accepted. -/
theorem writes_of_isTypeExpr (hΓ : Registered Γ) (ht : t.Plain) (h : IsTypeExpr Γ t.expr) :
    ∃ w, writeType t = some w := by
  induction ht using CXType.Plain.pointee with
  | scalar k => exact ⟨_, rfl⟩
  | incompleteArray _ ih =>
    rw [CXType.expr, isTypeExpr_pointee hΓ] at h
    obtain ⟨w, hw, hfix⟩ := h
    obtain ⟨v, hv⟩ := ih (hw ▸ isTypeExpr_ident.2 hfix.isType)
    rw [writeType, hv]
    split_ifs <;> exact ⟨_, rfl⟩
  | pointer _ hu helab ih =>
    rw [expr_pointer hu, helab, Bool.not_false, Bool.and_true, isTypeExpr_pointee hΓ] at h
    obtain ⟨w, hw, hfix⟩ := h
    obtain ⟨v, hv⟩ := ih (hw ▸ isTypeExpr_ident.2 hfix.isType)
    rw [writeType_pointer hu, hv]
    split_ifs <;> exact ⟨_, rfl⟩
  | parens _ ih => exact ih h
  | functionProto _ _ iha ihr =>
    obtain ⟨ha, hr⟩ := (isTypeExpr_functionProto hΓ).1 h
    obtain ⟨ws, hws⟩ := writeArgs_of fun a hmem => iha a hmem (ha a hmem)
    obtain ⟨w, hw⟩ := ihr hr
    rw [writeType, hws, hw]
    exact ⟨_, rfl⟩
  | unexposed =>
    obtain ⟨r, n', h⟩ := h
    cases h

/-- The kind and the size are those of the macro. -/
theorem evalType_macro (hΓ : Registered Γ) (ht : t.Plain)
    (h : evalType Γ t.expr n = .ok (r, n')) : ∃ m, Γ.lookup t.head = some m ∧
      kindOf r.t = macroKind m ∧ naturalSize r.l = macroSize m := by
  have hptr : Γ.lookup "ptr".toList = some .pointer := hΓ.grows _ _ rfl
  have hfunptr : Γ.lookup "funptr".toList = some .funptr := hΓ.grows _ _ rfl
  rcases expr_head ht with he | he | ⟨l, he, hhead⟩
  · rw [he] at h
    cases evalType_ok_iff.1 h with
    | @bare _ m _ _ hm hr =>
      refine ⟨m, hm, ?_, ?_⟩
      · rw [macroKind, hr]
      · rw [macroSize, hr]
  · rw [he] at h
    cases h
  · rw [he] at h
    rcases hhead with hhead | hhead <;> rw [hhead] at h ⊢
    · rw [evalType, hptr] at h
      obtain ⟨⟨t', n₁⟩, -, hok⟩ := bind_ok.1 h
      cases hok
      exact ⟨.pointer, hptr, rfl, rfl⟩
    · rw [evalType, hfunptr] at h
      obtain ⟨parms, ret, t', n₁, ps, b, -, -, -, -, rfl, -⟩ := funptrType_ok h
      exact ⟨.funptr, hfunptr, rfl, rfl⟩

/-- What a type has to be for the compiler to have the C type `c` of what is printed. -/
structure Converts (Γ : Types) (sizeof : Scalar → Nat) (t c : CXType) : Prop where
  accepted : Accepted Γ t
  fits : FitsWord Γ sizeof t c

theorem same_iff {sizeof : Scalar → Nat} {c : CXType} (hΓ : Registered Γ) (ht : t.Plain)
    (h : evalType Γ t.expr n = .ok (r, n')) : Same sizeof c r ↔ FitsWord Γ sizeof t c := by
  obtain ⟨m, hm, hkind, hsize⟩ := evalType_macro hΓ ht h
  unfold Same FitsWord
  rw [hkind, hsize]
  constructor
  · intro hfit m' hm'
    cases hm.symm.trans hm'
    exact hfit
  · exact fun hfit => hfit m hm

/-- The type is printed, accepted and the same if and only if these conditions hold. -/
theorem converts_iff {sizeof : Scalar → Nat} {c : CXType} (hΓ : Registered Γ) (ht : t.Plain)
    (n : Nat) :
    (∃ r n', evalType Γ t.expr n = .ok (r, n') ∧ Same sizeof c r) ↔ Converts Γ sizeof t c := by
  constructor
  · rintro ⟨r, n', h, hsame⟩
    exact ⟨(isTypeExpr_iff_accepted hΓ ht).1 (isTypeExpr_of_ok h), (same_iff hΓ ht h).1 hsame⟩
  · rintro ⟨hacc, hfits⟩
    obtain ⟨r, n', h⟩ := (isTypeExpr_iff n).1 ((isTypeExpr_iff_accepted hΓ ht).2 hacc)
    exact ⟨r, n', h, (same_iff hΓ ht h).2 hfits⟩

/-- No type is printed as the word `union`. -/
theorem expr_ne_union (ht : t.Plain) : t.expr ≠ .ident "union".toList := by
  have hptr : Sexp.ident "ptr".toList ≠ .ident "union".toList := by decide
  induction ht using CXType.Plain.pointee with
  | scalar k => cases k <;> decide
  | incompleteArray =>
    rw [CXType.expr]
    split_ifs
    · exact Sexp.noConfusion
    · exact hptr
  | pointer _ hu =>
    rw [expr_pointer hu]
    split_ifs
    · exact Sexp.noConfusion
    · exact hptr
  | parens _ ih => exact ih
  | functionProto => exact Sexp.noConfusion
  | unexposed => exact Sexp.noConfusion

/-- Where the compiler's type is the same and has a size, the C type has that size. -/
theorem size_of_same {sizeof : Scalar → Nat} (hΓ : Registered Γ) (ht : t.Plain)
    (h : evalType Γ t.expr n = .ok (r, n')) (hsame : Same sizeof t r) :
    0 < naturalSize r.l ↔ ∃ k, t.size sizeof = some k ∧ 0 < k := by
  constructor
  · intro hpos
    have hsize : ∀ k, t.size sizeof = some k → ∃ k, t.size sizeof = some k ∧ 0 < k :=
      fun k hk => ⟨k, hk, hsame.size k hk ▸ hpos⟩
    obtain ⟨m, hm, hkind, hword⟩ := evalType_macro hΓ ht h
    rw [hsame.kind] at hkind
    cases ht with
    | scalar k =>
      cases k with
      | void =>
        have hvoid : Γ.lookup "void".toList = some .void := hΓ.grows _ _ rfl
        cases hvoid.symm.trans hm
        rw [hword] at hpos
        exact absurd hpos (Nat.lt_irrefl 0)
      | _ => exact hsize _ rfl
    | pointer => exact hsize 8 rfl
    -- an array is printed as a pointer
    | @incompleteArray t ht =>
      have hptr : Γ.lookup "ptr".toList = some .pointer := hΓ.grows _ _ rfl
      cases hptr.symm.trans hm
      cases hkind
    | functionProto =>
      have hfunptr : Γ.lookup "funptr".toList = some .funptr := hΓ.grows _ _ rfl
      cases hfunptr.symm.trans hm
      cases hkind
    | unexposed => cases h
  · rintro ⟨k, hk, hpos⟩
    exact (hsame.size k hk).symm ▸ hpos

end

end Dolorem.Headers
