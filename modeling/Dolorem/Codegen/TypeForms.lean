import Dolorem.Codegen.TypeExprs

/-!
# Types of type expressions

A type expression that is evaluated twice has one LLVM type, and a value of the
first type can be assigned to a place of the second unless the expression is an
`array` form: `assignable_iff`. The forms `ptr` and `array` can be applied to an
identifier whose macro ignores its arguments, and to nothing else:
`composes_iff`.
-/

namespace Dolorem.Codegen

open Reader (Sexp)

variable {Γ Γ' : Types} {T : Sexp} {n n' n₁ n₂ n₃ n₄ : Nat} {r r₁ r₂ t : Rtt}

/-! ## Built types -/

/-- `create_alias`. -/
def createAlias (Γ : Types) (e : Sexp) (n : Nat) : Except Halt (Types × Nat) := do
  match ← car e with
  | .ident name =>
    let (r, a) ← evalType Γ (← car (← cdr e)) n
    let Γ ← registerType name (.alias a r) Γ
    .ok (Γ, a + 1)
  | _ => .error (.error "expected alias name")

/-- The aliases stand for types that were built. -/
def Types.Built (Γ : Types) : Prop := ∀ x a r, Γ.lookup x = some (.alias a r) → Codegen.Built r

theorem bare_built {m : TypeMacro} (hm : ∀ a r, m = .alias a r → Built r) (h : m.bare = .ok r) :
    Built r := by
  cases m with
  | void => cases h; exact .void
  | integer prop =>
    change integerType prop = .ok r at h
    unfold integerType at h
    split at h
    · cases h
      exact .integer _ _
    · cases h
  | float prop =>
    change floatType prop = .ok r at h
    unfold floatType at h
    split at h
    · cases h
      exact .float
    · cases h
      exact .double
    · cases h
  | pointer => cases h; exact .rawPtr
  | array => cases h; exact .rawPtr
  | opaqueAlias a l => cases h; exact .opaqueAlias a l
  | «alias» a r => cases h; exact .typealias a (hm a r rfl)
  | struct a l => cases h; exact .struct a l
  | funptr => cases h

/-- `eval_type` returns built types. -/
theorem evalType_built (hΓ : Γ.Built) (h : evalType Γ T n = .ok (r, n')) : Built r := by
  induction hk : sizeOf T using Nat.strong_induction_on generalizing T n n' r with
  | _ k ih =>
    cases evalType_ok_iff.1 h with
    | bare hm hr => exact bare_built (fun a r h => hΓ _ a r (h ▸ hm)) hr
    | fixed hm _ hr => exact bare_built (fun a r h => hΓ _ a r (h ▸ hm)) hr
    | pointer _ ht =>
      simp only [Sexp.cons.sizeOf_spec] at hk
      exact .pointer (ih _ (by omega) ht rfl)
    | array _ ht =>
      simp only [Sexp.cons.sizeOf_spec] at hk
      exact .array _ _ _ (ih _ (by omega) ht rfl)
    | funptr => exact .funptr _ _

theorem createAlias_built {e : Sexp} (hΓ : Γ.Built) (h : createAlias Γ e n = .ok (Γ', n')) :
    Γ'.Built := by
  unfold createAlias at h
  obtain ⟨name, -, h⟩ := bind_ok.1 h
  split at h
  · next name =>
    obtain ⟨d, -, h⟩ := bind_ok.1 h
    obtain ⟨T, -, h⟩ := bind_ok.1 h
    obtain ⟨⟨r, a⟩, hr, h⟩ := bind_ok.1 h
    obtain ⟨Γ₁, hreg, hok⟩ := bind_ok.1 h
    cases hok
    unfold registerType at hreg
    split at hreg
    · cases hreg
    · cases hreg
      intro x b q hq
      rw [List.lookup_cons] at hq
      split at hq
      · cases hq
        exact evalType_built hΓ hr
      · exact hΓ x b q hq
  · cases h

/-- The initial table has opaque aliases only. -/
theorem initTypes_built : initTypes.Built := by
  intro x a r h
  obtain ⟨l₁, l₂, hsplit, -⟩ := List.lookup_eq_some_iff.1 h
  have hmem : (x, TypeMacro.alias a r) ∈ initTypes := by
    rw [hsplit]
    exact List.mem_append_right _ List.mem_cons_self
  simp [initTypes] at hmem

/-- The tables that `create-alias` makes, and the registrations of structs and other types that are
no aliases. -/
inductive TypeTable : Types → Prop
  | init : TypeTable initTypes
  | newAlias {Γ Γ' : Types} {e : Sexp} {n n' : Nat} :
      TypeTable Γ → createAlias Γ e n = .ok (Γ', n') → TypeTable Γ'
  | other {Γ Γ' : Types} {name : List Char} {m : TypeMacro} :
      TypeTable Γ → (∀ a r, m ≠ .alias a r) → registerType name m Γ = .ok Γ' → TypeTable Γ'

theorem TypeTable.built (h : TypeTable Γ) : Γ.Built := by
  induction h with
  | init => exact initTypes_built
  | newAlias _ hrun ih => exact createAlias_built ih hrun
  | other _ hm hreg ih =>
    unfold registerType at hreg
    split at hreg
    · cases hreg
    · cases hreg
      intro x b q hq
      rw [List.lookup_cons] at hq
      split at hq
      · exact absurd (Option.some.inj hq) (hm b q)
      · exact ih x b q hq

/-- A value that is converted to an evaluated type has this type if and only if it is cast, or has
the LLVM type already and is not one function pointer for another. -/
theorem converted_evaluated_iff {a v : Rtv} {flags : Nat} {s s' : St} (hΓ : TypeTable Γ)
    (hT : evalType Γ T n = .ok (t, n')) (h : convertType a t flags s = .ok (some v, s')) :
    (v.v.ty = t.l ∧ v.t.unalias = t.t.unalias) ↔
      Casts a.t.unalias t.t.unalias ∨ a.readTy = some t.l ∧
        ∀ f g, a.t.unalias = .funptr f → t.t.unalias = .funptr g → f = g :=
  converted_right_iff (evalType_built hΓ.built hT) h

/-! ## Equal types -/

/-- A value of the first type converts to the second implicitly, and stays the value it is. -/
def Assignable (r₁ r₂ : Rtt) : Prop :=
  r₁.l = r₂.l ∧ ∀ (a : Rtv) (s : St), a.Readable → a.t = r₁.t → ∃ v s₁ t,
    prepareRead a s = .ok (v, s₁) ∧ convertType a r₂ 0 s = .ok (some { v with t := t }, s₁) ∧
      (t = r₁.t ∨ t = r₂.t)

/-- The form `(array …)`. -/
def ArrayForm (Γ : Types) (T : Sexp) : Prop :=
  ∃ x l, T = .cons (.ident x) l ∧ Γ.lookup x = some .array

theorem convertTypes_self (t : Ty) (l : LTy) : convertTypes t ⟨l, t⟩ 0 = some (.same t) :=
  convertWithin_self _ t l 0

theorem convertTypes_funptr (a b : Nat) (l : LTy) :
    convertTypes (.funptr a) ⟨l, .funptr b⟩ 0 = some (.same (.funptr a)) := rfl

theorem convertTypes_pointer (t u : Ty) (l : LTy) :
    ∃ k, convertTypes (.pointer t) ⟨l, .pointer u⟩ 0 = some (.same k) ∧
      (k = .pointer t ∨ k = .pointer u) := by
  rcases eq_or_ne t u with rfl | hne
  · exact ⟨_, convertTypes_self _ l, .inl rfl⟩
  · refine ⟨_, ?_, .inr rfl⟩
    simp [convertTypes, convertWithin, Ty.aliases, convertEqualTypes, hne, convertPointerTypes,
      Ty.isPointer]

/-- Array types of two addresses are different types. -/
theorem convertTypes_array {a b : Nat} (hne : a ≠ b) (i j : Nat) (t u : Ty) (l : LTy) :
    convertTypes (.array a i t) ⟨l, .array b j u⟩ 0 = none := by
  simp [convertTypes, convertWithin, Ty.aliases, convertEqualTypes, hne, convertPointerTypes,
    Ty.isPointer, convertNumbers]

theorem assignable_of_same (hl : r₁.l = r₂.l) (h : ∃ k, convertTypes r₁.t r₂ 0 = some (.same k) ∧
    (k = r₁.t ∨ k = r₂.t)) : Assignable r₁ r₂ := by
  obtain ⟨k, hk, hor⟩ := h
  refine ⟨hl, fun a s ha hat => ?_⟩
  obtain ⟨v, s₁, hread⟩ := prepareRead_type ha s
  refine ⟨⟨v, a.t, false⟩, s₁, k, hread a.t, ?_, hor⟩
  rw [convertType_of_read (hread a.t)]
  show Except.ok (converted (convertTypes a.t r₂ 0) _ s₁) = _
  rw [hat, hk]
  rfl

theorem not_assignable_of_none (h : convertTypes r₁.t r₂ 0 = none) : ¬ Assignable r₁ r₂ := by
  rintro ⟨-, hall⟩
  obtain ⟨v, s₁, t, -, hconv, -⟩ := hall ⟨⟨.ext 0, r₁.l⟩, r₁.t, false⟩ emptyBody (fun h => nomatch h) rfl
  have hnone : convertType ⟨⟨.ext 0, r₁.l⟩, r₁.t, false⟩ r₂ 0 emptyBody = .ok (none, emptyBody) := by
    have hread : prepareRead ⟨⟨.ext 0, r₁.l⟩, r₁.t, false⟩ emptyBody =
        .ok (⟨⟨.ext 0, r₁.l⟩, r₁.t, false⟩, emptyBody) := rfl
    rw [convertType_of_read hread]
    show Except.ok (converted (convertTypes r₁.t r₂ 0) _ emptyBody) = _
    rw [h]
    rfl
  rw [hnone] at hconv
  cases hconv

/-- Between the types of one expression, evaluated twice, there is no assignment if and only if the
expression is an array. -/
theorem assignable_iff (hΓ : Γ.Grows Γ') (h₁ : evalType Γ T n₁ = .ok (r₁, n₂)) (hn : n₂ ≤ n₃)
    (h₂ : evalType Γ' T n₃ = .ok (r₂, n₄)) : Assignable r₁ r₂ ↔ ¬ ArrayForm Γ T := by
  have hl : r₁.l = r₂.l := by
    obtain ⟨r', n', hr', hl⟩ := (evalType_again hΓ T n₁ n₂ r₁ h₁).2 n₃
    rw [h₂] at hr'
    cases hr'
    exact hl.symm
  -- an expression whose macro is known is an array only if the macro is
  have hform : ∀ {x l m}, T = .cons (.ident x) l → Γ.lookup x = some m → m ≠ .array →
      ¬ ArrayForm Γ T := by
    rintro x l m rfl hm hne ⟨y, l', hT, hy⟩
    cases hT
    exact hne (Option.some.inj (hm.symm.trans hy))
  cases evalType_ok_iff.1 h₁ with
  | bare hm hr =>
    rw [evalType, hΓ _ _ hm] at h₂
    simp only [hr, ok_bind] at h₂
    cases h₂
    refine iff_of_true (assignable_of_same rfl ⟨_, convertTypes_self _ _, .inl rfl⟩) ?_
    rintro ⟨_, _, hT, -⟩
    cases hT
  | fixed hm hfix hr =>
    rw [evalType_fixed (hΓ _ _ hm) hfix, hr] at h₂
    cases h₂
    exact iff_of_true (assignable_of_same rfl ⟨_, convertTypes_self _ _, .inl rfl⟩)
      (hform rfl hm hfix.2.1)
  | pointer hm ht =>
    rw [evalType, hΓ _ _ hm] at h₂
    obtain ⟨⟨t', n'⟩, -, hok⟩ := bind_ok.1 h₂
    cases hok
    exact iff_of_true (assignable_of_same hl (convertTypes_pointer _ _ _))
      (hform rfl hm TypeMacro.noConfusion)
  | array hm ht =>
    rw [evalType, hΓ _ _ hm] at h₂
    obtain ⟨size, l, t', a, hT, ht', rfl, rfl⟩ := arrayType_ok h₂
    cases hT
    -- the second array was allocated later
    have hlt := Nat.lt_of_lt_of_le (Nat.lt_of_succ_le hn) (evalType_le ht')
    exact iff_of_false (not_assignable_of_none (convertTypes_array (Nat.ne_of_lt hlt) ..))
      fun h => h ⟨_, _, rfl, hm⟩
  | funptr hm hlist ht hps =>
    rw [evalType, hΓ _ _ hm] at h₂
    obtain ⟨parms, ret, t', n', ps', a, -, -, -, -, rfl, rfl⟩ := funptrType_ok h₂
    exact iff_of_true (assignable_of_same hl ⟨_, convertTypes_funptr _ _ _, .inl rfl⟩)
      (hform rfl hm TypeMacro.noConfusion)

/-- `(ptr i32)` -/
def wordPtr : Sexp := .ofList [.ident "ptr".toList, .ident "i32".toList]

theorem assignable_iff_example : ∃ (r₁ r₂ : Rtt) (n₂ n₄ : Nat),
    evalType initTypes wordPtr 0 = .ok (r₁, n₂) ∧ evalType initTypes wordPtr n₂ = .ok (r₂, n₄) ∧
      (Assignable r₁ r₂ ↔ ¬ ArrayForm initTypes wordPtr) := by
  obtain ⟨r₁, n₂, h₁⟩ : ∃ r n, evalType initTypes wordPtr 0 = .ok (r, n) := ⟨_, _, rfl⟩
  obtain ⟨r₂, n₄, h₂, -⟩ := (evalType_again (.refl _) _ _ _ _ h₁).2 n₂
  exact ⟨r₁, r₂, n₂, n₄, h₁, h₂, assignable_iff (.refl _) h₁ le_rfl h₂⟩

/-- `(array 4 i32)` -/
def fourWords : Sexp := .ofList [.ident "array".toList, .int 4, .ident "i32".toList]

/-- Two variables of this type cannot be assigned to each other. -/
theorem array_not_assignable : ∃ (r₁ r₂ : Rtt) (n₂ n₄ : Nat),
    evalType initTypes fourWords 0 = .ok (r₁, n₂) ∧
      evalType initTypes fourWords n₂ = .ok (r₂, n₄) ∧
      convertTypes r₁.t r₂ 0 = none ∧ ¬ Assignable r₁ r₂ := by
  have hnone : convertTypes (.array 0 4 (.integer 32 true))
      ⟨.array 4 (.int 32), .array 1 4 (.integer 32 true)⟩ 0 = none := rfl
  exact ⟨_, _, 1, 2, rfl, rfl, hnone, not_assignable_of_none hnone⟩

/-! ## Forms around types -/

/-- An identifier that names a type whose macro ignores its arguments. -/
def NamesFixed (Γ : Types) (T : Sexp) : Prop :=
  ∃ x m, T = .ident x ∧ Γ.lookup x = some m ∧ m.Fixed

/-- A list of one element is evaluated like the element, if that is an identifier. -/
theorem single_ok (h : evalType Γ (.cons T .nil) n = .ok (r, n')) : NamesFixed Γ T := by
  cases evalType_ok_iff.1 h with
  | fixed hm hfix _ => exact ⟨_, _, rfl, hm, hfix⟩
  | pointer _ ht => cases ht

theorem single_of_fixed (h : NamesFixed Γ T) (ht : evalType Γ T n = .ok (t, n')) :
    evalType Γ (.cons T .nil) n = .ok (t, n') := by
  obtain ⟨x, m, rfl, hm, hfix⟩ := h
  rw [evalType, hm] at ht
  obtain ⟨r, hr, hok⟩ := bind_ok.1 ht
  cases hok
  exact evalType_ok_iff.2 (.fixed hm hfix hr)

/-- `(ptr T)` -/
def ptrForm (T : Sexp) : Sexp := .ofList [.ident "ptr".toList, T]

/-- `(array i T)` -/
def arrayForm (i : Int) (T : Sexp) : Sexp := .ofList [.ident "array".toList, .int i, T]

/-- The forms `(ptr T)` and `(array i T)` denote what they should if and only if `T` is an
identifier whose macro ignores its arguments, and LLVM can count the elements. -/
theorem composes_iff (hΓ : Registered Γ) (h : evalType Γ T n = .ok (t, n')) :
    ((∃ n₁, evalType Γ (ptrForm T) n = .ok (lowerPointerType t, n₁)) ↔ NamesFixed Γ T) ∧
      ∀ i : Int, 1 ≤ i → i < 2 ^ 63 →
        ((∃ a n₁, evalType Γ (arrayForm i T) n =
            .ok (⟨.array i.toNat t.l, .array a i.toNat t.t⟩, n₁)) ↔
          NamesFixed Γ T ∧ i < 2 ^ 32) := by
  have hptr : Γ.lookup "ptr".toList = some .pointer := hΓ.grows _ _ rfl
  have harray : Γ.lookup "array".toList = some .array := hΓ.grows _ _ rfl
  have hrun : ∀ i, evalType Γ (arrayForm i T) n = arrayType Γ (.cons (.int i) (.cons T .nil)) n := by
    intro i
    rw [arrayForm, Sexp.ofList, evalType, harray]
    rfl
  refine ⟨⟨?_, fun hfix => ?_⟩, fun i hi hlong => ⟨?_, ?_⟩⟩
  · rintro ⟨n₁, hok⟩
    rw [ptrForm, Sexp.ofList, evalType, hptr] at hok
    obtain ⟨⟨t', n₂⟩, ht', -⟩ := bind_ok.1 hok
    exact single_ok ht'
  · exact ⟨n', evalType_ok_iff.2 (.pointer hptr (single_of_fixed hfix h))⟩
  · rintro ⟨a, n₁, hok⟩
    rw [hrun] at hok
    obtain ⟨size, l, t', a', hT, ht', hr, -⟩ := arrayType_ok hok
    cases hT
    refine ⟨single_ok ht', ?_⟩
    have hsize : i.toNat = (i % 2 ^ 32).toNat := (LTy.array.inj (congrArg Rtt.l hr)).1
    have hpos : 0 ≤ i % 2 ^ 32 := Int.emod_nonneg i (by decide)
    have hlt : i % 2 ^ 32 < 2 ^ 32 := Int.emod_lt_of_pos i (by decide)
    omega
  · rintro ⟨hfix, hi'⟩
    refine ⟨n', n' + 1, ?_⟩
    rw [hrun, arrayType, single_of_fixed hfix h]
    have hpos : 0 ≤ i := Int.le_trans Int.one_nonneg hi
    have h32 : i % 2 ^ 32 = i := Int.emod_eq_of_lt hpos hi'
    have hpow : (2 : Int) ^ 63 < 2 ^ 64 := by decide
    have h64 : i % 2 ^ 64 = i := Int.emod_eq_of_lt hpos (Int.lt_trans hlong hpow)
    show Except.ok (lowerArrayType t i n', n' + 1) = _
    rw [lowerArrayType, h32, h64]

theorem composes_iff_example : Registered initTypes ∧ ∃ (t : Rtt) (n : Nat),
    evalType initTypes (.ident "i32".toList) 0 = .ok (t, n) ∧
      (((∃ n₁, evalType initTypes (ptrForm (.ident "i32".toList)) 0 =
          .ok (lowerPointerType t, n₁)) ↔ NamesFixed initTypes (.ident "i32".toList)) ∧
        ∀ i : Int, 1 ≤ i → i < 2 ^ 63 →
          ((∃ a n₁, evalType initTypes (arrayForm i (.ident "i32".toList)) 0 =
              .ok (⟨.array i.toNat t.l, .array a i.toNat t.t⟩, n₁)) ↔
            NamesFixed initTypes (.ident "i32".toList) ∧ i < 2 ^ 32)) := by
  obtain ⟨t, n, h⟩ : ∃ t n, evalType initTypes (.ident "i32".toList) 0 = .ok (t, n) := ⟨_, _, rfl⟩
  exact ⟨.init, t, n, h, composes_iff .init h⟩

/-- `(ptr (ptr i32))` is no type. -/
theorem nested_pointer_rejected : Registered initTypes ∧
    evalType initTypes wordPtr 0 = .ok (lowerPointerType (lowerIntegerType 32 true), 0) ∧
    evalType initTypes (ptrForm wordPtr) 0 = .error (.error "expected type") ∧
    ¬ ∃ n₁, evalType initTypes (ptrForm wordPtr) 0 =
      .ok (lowerPointerType (lowerPointerType (lowerIntegerType 32 true)), n₁) := by
  have hrun : evalType initTypes (ptrForm wordPtr) 0 = .error (.error "expected type") := rfl
  refine ⟨.init, rfl, hrun, ?_⟩
  rintro ⟨n₁, h⟩
  rw [hrun] at h
  cases h

end Dolorem.Codegen
