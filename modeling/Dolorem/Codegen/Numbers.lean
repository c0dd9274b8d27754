import Dolorem.Codegen.Moves

/-!
# Numbers

`expect_same_number` decides which operand of a number macro is converted,
`convert_numbers` whether it may be. They agree on integers of every width and
on an integer with a float. For a `float` with a `double` the first asks for the
narrower one to be widened implicitly, which the second refuses: its null result
is dereferenced. `number_sound_iff` says that nothing else goes wrong, in
expressions of any depth.
-/

namespace Dolorem.Codegen

open CodeGraph

/-- The LLVM type of a number type there is a name for. -/
def Ty.number : Ty → Option LTy
  | .integer size _ => some (.int size)
  | .float 1 => some .float
  | .float 2 => some .double
  | _ => none

/-- 0 for an integer, 1 for `float`, 2 for `double`. -/
def Ty.precision : Ty → Nat
  | .float num => num
  | _ => 0

/-- A number that was read: its front-end type denotes its LLVM type. -/
structure Rtv.Number (r : Rtv) : Prop where
  rval : r.lval = false
  denotes : r.t.number = some r.v.ty

/-- The operands of an instruction have the same type. -/
def Instr.Matched : Instr → Prop
  | .bin _ a b | .icmp _ a b | .fcmp _ a b => a.ty = b.ty
  | _ => True

/-! ## Two numbers -/

section Operands

variable {a b r : Rtv} {s : St} {dest : Rtt} {flags : Nat}

theorem Rtv.Number.cases (h : r.Number) :
    (∃ size flag, r.t = .integer size flag ∧ r.v.ty = .int size) ∨
      (r.t = .float 1 ∧ r.v.ty = .float) ∨ (r.t = .float 2 ∧ r.v.ty = .double) := by
  have hd := h.denotes
  unfold Ty.number at hd
  split at hd
  · next size flag ht => exact .inl ⟨size, flag, ht, (Option.some.inj hd).symm⟩
  · next ht => exact .inr (.inl ⟨ht, (Option.some.inj hd).symm⟩)
  · next ht => exact .inr (.inr ⟨ht, (Option.some.inj hd).symm⟩)
  · cases hd

/-- A conversion one of the converters does by an instruction. -/
theorem convertOrCrash_build {op : CastOp} {l : LTy} {t : Ty} (hr : r.lval = false)
    (hc : convertTypes r.t dest flags = some (.build op l t)) (ht : t.number = some l) :
    ∃ c is, convertOrCrash r dest flags s = .ok (c, s.emitAll is) ∧ c.Number ∧ c.t = t ∧
      c.v.ty = l ∧ ∀ i ∈ is, i.Matched := by
  unfold convertOrCrash convertType
  rw [prepareRead_of_rval hr]
  simp only [ok_bind, hc, Conv.apply]
  unfold St.buildCast
  split
  · next hl =>
    exact ⟨⟨r.v, t, false⟩, [], by rw [St.emitAll_nil], ⟨rfl, hl ▸ ht⟩, rfl, hl,
      fun _ hi => absurd hi List.not_mem_nil⟩
  · refine ⟨_, [.cast op r.v l], rfl, ⟨rfl, ht⟩, rfl, rfl, fun i hi => ?_⟩
    cases List.mem_singleton.1 hi
    trivial

variable (dest flags) in
theorem convertOrCrash_none (hr : r.lval = false) (hc : convertTypes r.t dest flags = none) :
    convertOrCrash r dest flags s = .error .crash := by
  unfold convertOrCrash convertType
  rw [prepareRead_of_rval hr]
  simp only [ok_bind, hc]

/-- An integer becomes whatever number the other operand is. -/
theorem convertTypes_integer {m n : Nat} {f g : Bool} (h : m ≠ n) (l : LTy) (flags : Nat) :
    convertTypes (.integer m f) ⟨l, .integer n g⟩ flags = some (.build .intCast l (.integer n g)) := by
  simp [convertTypes, convertWithin, Ty.aliases, convertEqualTypes, convertPointerTypes,
    convertNumbers, Ty.isPointer, h]

theorem convertTypes_toFloat {m : Nat} {f : Bool} (n : Nat) (l : LTy) (flags : Nat) :
    ∃ op, convertTypes (.integer m f) ⟨l, .float n⟩ flags = some (.build op l (.float n)) := by
  simp [convertTypes, convertWithin, Ty.aliases, convertEqualTypes, convertPointerTypes,
    convertNumbers, Ty.isPointer]

/-- Floats are not widened implicitly. -/
theorem convertTypes_widen (l : LTy) : convertTypes (.float 1) ⟨l, .float 2⟩ 0 = none := by
  simp [convertTypes, convertWithin, Ty.aliases, convertEqualTypes, convertPointerTypes,
    convertNumbers, Ty.isPointer]

/-- The outcome on operands that are not a `float` and a `double`. -/
def SameNumber (a b : Rtv) (s : St) : Prop :=
  ∃ a' b' is, expectSameNumber a b s = .ok ((a', b'), s.emitAll is) ∧ a'.Number ∧ b'.Number ∧
    a'.v.ty = b'.v.ty ∧ a'.t.precision = max a.t.precision b.t.precision ∧
    ∀ i ∈ is, i.Matched

theorem sameNumber_self (ha : a.Number) (hb : b.Number) (hty : a.v.ty = b.v.ty)
    (hp : a.t.precision = max a.t.precision b.t.precision)
    (h : expectSameNumber a b s = .ok ((a, b), s)) : SameNumber a b s :=
  ⟨a, b, [], by rw [h, St.emitAll_nil], ha, hb, hty, hp, fun _ hi => nomatch hi⟩

/-- The left operand is converted. -/
theorem sameNumber_left (ha : a.Number) (hb : b.Number) (flags : Nat)
    (hc : ∃ op, convertTypes a.t ⟨b.v.ty, b.t⟩ flags = some (.build op b.v.ty b.t))
    (hp : b.t.precision = max a.t.precision b.t.precision)
    (h : expectSameNumber a b s =
      convertOrCrash a ⟨b.v.ty, b.t⟩ flags s >>= fun p => .ok ((p.1, b), p.2)) :
    SameNumber a b s := by
  obtain ⟨op, hc⟩ := hc
  obtain ⟨c, is, hrun, hcn, hct, hcty, hm⟩ :=
    convertOrCrash_build (s := s) ha.rval hc hb.denotes
  exact ⟨c, b, is, by rw [h, hrun, ok_bind], hcn, hb, hcty, hct ▸ hp, hm⟩

/-- The right operand is converted. -/
theorem sameNumber_right (ha : a.Number) (hb : b.Number) (flags : Nat)
    (hc : ∃ op, convertTypes b.t ⟨a.v.ty, a.t⟩ flags = some (.build op a.v.ty a.t))
    (hp : a.t.precision = max a.t.precision b.t.precision)
    (h : expectSameNumber a b s =
      convertOrCrash b ⟨a.v.ty, a.t⟩ flags s >>= fun p => .ok ((a, p.1), p.2)) :
    SameNumber a b s := by
  obtain ⟨op, hc⟩ := hc
  obtain ⟨c, is, hrun, hcn, -, hcty, hm⟩ :=
    convertOrCrash_build (s := s) hb.rval hc ha.denotes
  exact ⟨a, c, is, by rw [h, hrun, ok_bind], ha, hcn, hcty.symm, hp, hm⟩

theorem unwrapType_number (ha : a.Number) : unwrapType a = .ok ⟨a.v.ty, a.t⟩ := by
  have hv : a.t ≠ .void := by
    intro h
    have := ha.denotes
    rw [h] at this
    cases this
  rw [unwrapType, if_neg hv, if_neg (by rw [ha.rval]; exact Bool.false_ne_true)]

/-- The types of two numbers, up to the choice of the float type. -/
theorem expectSameNumber_integers {m n : Nat} {f g : Bool} (ha : a.Number) (hb : b.Number)
    (hat : a.t = .integer m f) (hbt : b.t = .integer n g) (hty : m = n → a.v.ty = b.v.ty) :
    SameNumber a b s := by
  rcases Nat.lt_trichotomy m n with hmn | rfl | hmn
  · refine sameNumber_left ha hb 0 ⟨.intCast, ?_⟩ (by rw [hat, hbt]; rfl) ?_
    · rw [hat, hbt]
      exact convertTypes_integer hmn.ne _ 0
    · unfold expectSameNumber
      simp only [hat, hbt, if_neg hmn.ne, if_pos hmn]
  · refine sameNumber_self ha hb (hty rfl) (by rw [hat, hbt]; rfl) ?_
    unfold expectSameNumber
    simp only [hat, hbt, if_true]
  · refine sameNumber_right ha hb 0 ⟨.intCast, ?_⟩ (by rw [hat, hbt]; rfl) ?_
    · rw [hat, hbt]
      exact convertTypes_integer hmn.ne _ 0
    · unfold expectSameNumber
      simp only [hat, hbt, if_neg hmn.ne', if_neg hmn.le.not_gt]

theorem expectSameNumber_integer_float {m num : Nat} {f : Bool} (ha : a.Number) (hb : b.Number)
    (hat : a.t = .integer m f) (hbt : b.t = .float num) : SameNumber a b s := by
  refine sameNumber_left ha hb 1 ?_ (by rw [hat, hbt]; exact (Nat.zero_max _).symm) ?_
  · rw [hat, hbt]
    exact convertTypes_toFloat num _ 1
  · unfold expectSameNumber
    simp only [hat, hbt, unwrapType_number hb, ok_bind]

theorem expectSameNumber_float_integer {m num : Nat} {f : Bool} (ha : a.Number) (hb : b.Number)
    (hat : a.t = .float num) (hbt : b.t = .integer m f) : SameNumber a b s := by
  refine sameNumber_right ha hb 1 ?_ (by rw [hat, hbt]; exact (Nat.max_zero _).symm) ?_
  · rw [hat, hbt]
    exact convertTypes_toFloat num _ 1
  · unfold expectSameNumber
    simp only [hat, hbt, unwrapType_number ha, ok_bind]

theorem expectSameNumber_floats {num : Nat} (ha : a.Number) (hb : b.Number)
    (hat : a.t = .float num) (hbt : b.t = .float num) (hty : a.v.ty = b.v.ty) :
    SameNumber a b s := by
  refine sameNumber_self ha hb hty (by rw [hat, hbt]; exact (Nat.max_self _).symm) ?_
  unfold expectSameNumber
  simp only [hat, hbt, if_true]

theorem expectSameNumber_ok (ha : a.Number) (hb : b.Number)
    (h : a.t.precision = 0 ∨ b.t.precision = 0 ∨ a.t.precision = b.t.precision) :
    SameNumber a b s := by
  rcases ha.cases with ⟨m, f, hat, hav⟩ | ⟨hat, hav⟩ | ⟨hat, hav⟩ <;>
    rcases hb.cases with ⟨n, g, hbt, hbv⟩ | ⟨hbt, hbv⟩ | ⟨hbt, hbv⟩
  · exact expectSameNumber_integers ha hb hat hbt fun hmn => by rw [hav, hbv, hmn]
  · exact expectSameNumber_integer_float ha hb hat hbt
  · exact expectSameNumber_integer_float ha hb hat hbt
  · exact expectSameNumber_float_integer ha hb hat hbt
  · exact expectSameNumber_floats ha hb hat hbt (hav.trans hbv.symm)
  · simp [hat, hbt, Ty.precision] at h
  · exact expectSameNumber_float_integer ha hb hat hbt
  · simp [hat, hbt, Ty.precision] at h
  · exact expectSameNumber_floats ha hb hat hbt (hav.trans hbv.symm)

/-- A `float` and a `double`. -/
theorem expectSameNumber_crash (ha : a.Number) (hb : b.Number) (hpa : a.t.precision ≠ 0)
    (hpb : b.t.precision ≠ 0) (hne : a.t.precision ≠ b.t.precision) :
    expectSameNumber a b s = .error .crash := by
  rcases ha.cases with ⟨m, f, hat, -⟩ | ⟨hat, -⟩ | ⟨hat, -⟩ <;>
    rcases hb.cases with ⟨n, g, hbt, -⟩ | ⟨hbt, -⟩ | ⟨hbt, -⟩ <;>
    simp only [hat, hbt, Ty.precision, ne_eq, not_true_eq_false] at hpa hpb hne
  · unfold expectSameNumber
    rw [hat, hbt]
    have hc := convertOrCrash_none (s := s) ⟨b.v.ty, b.t⟩ 0 ha.rval
      (by rw [hat, hbt]; exact convertTypes_widen _)
    rw [hbt] at hc
    simp only [hc, error_bind]
    rfl
  · unfold expectSameNumber
    rw [hat, hbt]
    have hc := convertOrCrash_none (s := s) ⟨a.v.ty, a.t⟩ 0 hb.rval
      (by rw [hat, hbt]; exact convertTypes_widen _)
    rw [hat] at hc
    simp only [hc, error_bind]
    rfl

end Operands

/-! ## Expressions -/

section Expressions

variable {s : St}

/-- The precision of a variable. -/
def varPrecision (s : St) (x : String) : Nat :=
  match evalIdent x s with
  | .ok (r, _) => r.t.precision
  | .error _ => 0

/-- The precision of the value of a number expression. -/
def precision (s : St) : Expr → Nat
  | .float _ => 2
  | .ident x => varPrecision s x
  | .arith _ a b => max (precision s a) (precision s b)
  | _ => 0

/-- Number expressions: literals, variables of a number type, and the macros of
`arithmetic-op` and `comparison-op` on operands they support. -/
inductive NumberExpr (s : St) : Expr → Prop
  | int (i : Int) : NumberExpr s (.int i)
  | float (tok : List Char) : NumberExpr s (.float tok)
  | ident {x : String} {v : Value} {t : Ty} {l : LTy} :
      evalIdent x s = .ok (⟨v, t, true⟩, s) → v.ty = .ptr l → t.number = some l →
      NumberExpr s (.ident x)
  | arith {op : ArithOp} {a b : Expr} : NumberExpr s a → NumberExpr s b →
      (precision s (.arith op a b) ≠ 0 → op.float.isSome) → NumberExpr s (.arith op a b)
  | cmp {op : CmpOp} {a b : Expr} : NumberExpr s a → NumberExpr s b → NumberExpr s (.cmp op a b)

/-- No macro has a `float` and a `double` for operands. -/
def Uniform (s : St) : Expr → Prop
  | .arith _ a b | .cmp _ a b => Uniform s a ∧ Uniform s b ∧
      (precision s a = 0 ∨ precision s b = 0 ∨ precision s a = precision s b)
  | _ => True

/-- The front-end type of a value denotes the type of what it is or points to. -/
def Rtv.Denotes (r : Rtv) : Prop :=
  ∃ l, r.t.number = some l ∧ r.v.ty = if r.lval then .ptr l else l

variable (run : Nat → Bool)

/-- Evaluating `e` returns a number of its type and emits instructions whose
operands match. -/
def TypeSound (e : Expr) (s : St) : Prop :=
  ∃ r is, eval run e s = .ok (r, s.emitAll is) ∧ (∀ i ∈ is, i.Matched) ∧ r.Denotes

/-- The code emitted so far does not matter for the meaning of an identifier. -/
theorem evalIdent_emitAll {x : String} {r : Rtv} (h : evalIdent x s = .ok (r, s))
    (is : List Instr) : evalIdent x (s.emitAll is) = .ok (r, s.emitAll is) := by
  unfold evalIdent at h ⊢
  split at h
  · next v hv =>
    have hv' : ((s.emitAll is).curfn.bind fun scopes => lookupInFunScope scopes x) = some v := hv
    rw [hv']
    cases h
    rfl
  · next hv =>
    have hv' : ((s.emitAll is).curfn.bind fun scopes => lookupInFunScope scopes x) = none := hv
    rw [hv']
    split at h
    · next g hg =>
      have hg' : (s.emitAll is).globals.lookup x = some g := hg
      simp only [hg']
      cases h
      rfl
    · cases h

/-- Reading a number. -/
theorem Rtv.Denotes.read {r : Rtv} (h : r.Denotes) (s : St) :
    ∃ v is, prepareRead r s = .ok (v, s.emitAll is) ∧ v.Number ∧ v.t = r.t ∧
      ∀ i ∈ is, i.Matched := by
  obtain ⟨l, hl, hty⟩ := h
  unfold prepareRead
  split
  · next hlv =>
    rw [if_pos hlv] at hty
    rw [hty]
    refine ⟨⟨⟨.inst s.here, l⟩, r.t, false⟩, [.load r.v], rfl, ⟨rfl, hl⟩, rfl, fun i hi => ?_⟩
    cases List.mem_singleton.1 hi
    trivial
  · next hlv =>
    rw [if_neg hlv] at hty
    exact ⟨r, [], by rw [St.emitAll_nil], ⟨Bool.eq_false_iff.2 hlv, hl.trans (congrArg some hty.symm)⟩,
      rfl, fun _ hi => nomatch hi⟩

/-- The operands of a number macro, brought to the same type. -/
def operands (a b : Expr) (s : St) : Except Halt ((Rtv × Rtv) × St) := do
  let (left, s) ← eval run a s
  let (left, s) ← prepareRead left s
  let (right, s) ← eval run b s
  let (right, s) ← prepareRead right s
  expectSameNumber left right s

theorem eval_arith (op : ArithOp) (a b : Expr) (s : St) :
    eval run (.arith op a b) s =
      operands run a b s >>= fun p => buildArith op p.1.1 p.1.2 p.2 := by
  rw [eval]
  simp only [operands, bind_assoc]

theorem eval_cmp (op : CmpOp) (a b : Expr) (s : St) :
    eval run (.cmp op a b) s =
      operands run a b s >>= fun p => .ok (buildCmp op p.1.1 p.1.2 p.2) := by
  rw [eval]
  simp only [operands, bind_assoc]

/-- What evaluating `e` leads to after some code: a sound value of the expected
precision, or a crash. -/
def Evaluates (s : St) (e : Expr) : Prop :=
  ∀ js, (Uniform s e → ∃ r is, eval run e (s.emitAll js) = .ok (r, s.emitAll (js ++ is)) ∧
      (∀ i ∈ is, i.Matched) ∧ r.Denotes ∧ r.t.precision = precision s e) ∧
    (¬ Uniform s e → eval run e (s.emitAll js) = .error .crash)

variable {run}

/-- An operand is evaluated and read. -/
theorem Evaluates.read {e : Expr} (h : Evaluates run s e) (hu : Uniform s e) (js : List Instr) :
    ∃ r v is₁ is₂, eval run e (s.emitAll js) = .ok (r, s.emitAll (js ++ is₁)) ∧
      prepareRead r (s.emitAll (js ++ is₁)) = .ok (v, s.emitAll (js ++ is₁ ++ is₂)) ∧
      v.Number ∧ v.t.precision = precision s e ∧ ∀ i ∈ is₁ ++ is₂, i.Matched := by
  obtain ⟨r, is₁, hr, hm₁, hd, hp⟩ := (h js).1 hu
  obtain ⟨v, is₂, hv, hn, ht, hm₂⟩ := hd.read (s.emitAll (js ++ is₁))
  rw [St.emitAll_emitAll] at hv
  exact ⟨r, v, is₁, is₂, hr, hv, hn, ht ▸ hp, List.forall_mem_append.2 ⟨hm₁, hm₂⟩⟩

theorem operands_ok {a b : Expr} (ha : Evaluates run s a) (hb : Evaluates run s b)
    (hua : Uniform s a) (hub : Uniform s b)
    (hp : precision s a = 0 ∨ precision s b = 0 ∨ precision s a = precision s b)
    (js : List Instr) :
    ∃ left right is, operands run a b (s.emitAll js) = .ok ((left, right), s.emitAll (js ++ is)) ∧
      left.Number ∧ right.Number ∧ left.v.ty = right.v.ty ∧
      left.t.precision = max (precision s a) (precision s b) ∧ ∀ i ∈ is, i.Matched := by
  obtain ⟨r, v, is₁, is₂, hr, hv, hvn, hvp, hm⟩ := ha.read hua js
  obtain ⟨r', v', is₃, is₄, hr', hv', hvn', hvp', hm'⟩ := hb.read hub (js ++ is₁ ++ is₂)
  obtain ⟨left, right, is₅, hs, hl, hright, hty, hmax, hm₅⟩ :=
    expectSameNumber_ok (s := s.emitAll (js ++ is₁ ++ is₂ ++ is₃ ++ is₄)) hvn hvn'
      (by rwa [hvp, hvp'])
  refine ⟨left, right, is₁ ++ is₂ ++ (is₃ ++ is₄) ++ is₅, ?_, hl, hright, hty, by rw [hmax, hvp, hvp'],
    List.forall_mem_append.2 ⟨List.forall_mem_append.2 ⟨hm, hm'⟩, hm₅⟩⟩
  rw [St.emitAll_emitAll] at hs
  simp only [operands, hr, hv, hr', hv', ok_bind, hs]
  simp only [List.append_assoc]

theorem operands_crash {a b : Expr} (ha : Evaluates run s a) (hb : Evaluates run s b)
    (h : ¬ (Uniform s a ∧ Uniform s b ∧
      (precision s a = 0 ∨ precision s b = 0 ∨ precision s a = precision s b)))
    (js : List Instr) : operands run a b (s.emitAll js) = .error .crash := by
  unfold operands
  by_cases hua : Uniform s a
  · obtain ⟨r, v, is₁, is₂, hr, hv, hvn, hvp, -⟩ := ha.read hua js
    simp only [hr, hv, ok_bind]
    by_cases hub : Uniform s b
    · obtain ⟨r', v', is₃, is₄, hr', hv', hvn', hvp', -⟩ := hb.read hub (js ++ is₁ ++ is₂)
      have hp : ¬ (precision s a = 0 ∨ precision s b = 0 ∨ precision s a = precision s b) :=
        fun hp => h ⟨hua, hub, hp⟩
      simp only [not_or, ← hvp, ← hvp'] at hp
      simp only [hr', hv', ok_bind]
      exact expectSameNumber_crash hvn hvn' hp.1 hp.2.1 hp.2.2
    · simp only [(hb _).2 hub, error_bind]
  · simp only [(ha _).2 hua, error_bind]

theorem buildArith_ok {op : ArithOp} {a b : Rtv} (ha : a.Number) (hty : a.v.ty = b.v.ty)
    (hop : a.t.precision ≠ 0 → op.float.isSome) (s : St) :
    ∃ r i, buildArith op a b s = .ok (r, s.emitAll [i]) ∧ i.Matched ∧ r.Denotes ∧ r.t = a.t := by
  have hd : ∀ v : Value, v.ty = a.v.ty → ({ a with v := v } : Rtv).Denotes := by
    intro v hv
    refine ⟨a.v.ty, ha.denotes, ?_⟩
    simp only [ha.rval, Bool.false_eq_true, if_false, hv]
  unfold buildArith
  split
  · exact ⟨_, .bin op.int a.v b.v, rfl, hty, hd _ rfl, rfl⟩
  · next hint =>
    have hp : a.t.precision ≠ 0 := by
      rcases ha.cases with ⟨m, f, hat, -⟩ | ⟨hat, -⟩ | ⟨hat, -⟩
      · rw [hat] at hint
        exact absurd rfl hint
      · simp [hat, Ty.precision]
      · simp [hat, Ty.precision]
    obtain ⟨bop, hbop⟩ := Option.isSome_iff_exists.1 (hop hp)
    simp only [hbop]
    exact ⟨_, .bin bop a.v b.v, rfl, hty, hd _ rfl, rfl⟩

theorem buildCmp_ok {a b : Rtv} (op : CmpOp) (hty : a.v.ty = b.v.ty) (s : St) :
    ∃ i, (buildCmp op a b s).2 = s.emitAll [i] ∧ i.Matched ∧ (buildCmp op a b s).1.Denotes ∧
      (buildCmp op a b s).1.t.precision = 0 := by
  refine ⟨_, rfl, ?_, ⟨.int 1, rfl, rfl⟩, rfl⟩
  split <;> exact hty

theorem NumberExpr.evaluates {e : Expr} (h : NumberExpr s e) : Evaluates run s e := by
  induction h with
  | int i =>
    refine fun js => ⟨fun _ => ⟨makeIntConst i, [], ?_, fun _ hi => (nomatch hi), ⟨.int 64, rfl, rfl⟩,
      rfl⟩, fun hu => absurd trivial hu⟩
    rw [List.append_nil, eval]
  | float tok =>
    refine fun js => ⟨fun _ => ⟨_, [], by rw [List.append_nil, eval], fun _ hi => (nomatch hi),
      ⟨.double, rfl, rfl⟩, rfl⟩, fun hu => absurd trivial hu⟩
  | @ident x v t l hx hv ht =>
    refine fun js => ⟨fun _ => ⟨⟨v, t, true⟩, [], ?_, fun _ hi => (nomatch hi), ⟨l, ht, hv⟩, ?_⟩,
      fun hu => absurd trivial hu⟩
    · rw [List.append_nil, eval]
      exact evalIdent_emitAll hx js
    · rw [precision, varPrecision, hx]
  | @arith op a b _ _ hop iha ihb =>
    intro js
    rw [precision] at hop
    rw [eval_arith]
    constructor
    · rintro ⟨hua, hub, hp⟩
      obtain ⟨left, right, is, hrun, hl, -, hty, hmax, hm⟩ := operands_ok iha ihb hua hub hp js
      obtain ⟨r, i, hr, hi, hd, ht⟩ := buildArith_ok hl hty (by rwa [hmax]) (s.emitAll (js ++ is))
      refine ⟨r, is ++ [i], ?_, List.forall_mem_append.2 ⟨hm, List.forall_mem_singleton.2 hi⟩, hd,
        by rw [ht, hmax, precision]⟩
      rw [hrun, ok_bind, hr, St.emitAll_emitAll, List.append_assoc]
    · intro hu
      rw [operands_crash iha ihb hu js, error_bind]
  | @cmp op a b _ _ iha ihb =>
    intro js
    rw [eval_cmp]
    constructor
    · rintro ⟨hua, hub, hp⟩
      obtain ⟨left, right, is, hrun, -, -, hty, -, hm⟩ := operands_ok iha ihb hua hub hp js
      obtain ⟨i, hs, hi, hd, hz⟩ := buildCmp_ok op hty (s.emitAll (js ++ is))
      refine ⟨(buildCmp op left right (s.emitAll (js ++ is))).1, is ++ [i], ?_,
        List.forall_mem_append.2 ⟨hm, List.forall_mem_singleton.2 hi⟩, hd, hz⟩
      rw [St.emitAll_emitAll] at hs
      rw [hrun, ok_bind, ← List.append_assoc, ← hs]
    · intro hu
      rw [operands_crash iha ihb hu js, error_bind]

/-- Code for a number expression is type sound exactly if no macro in it has a
`float` and a `double` for operands; otherwise the evaluator dereferences the
null result of a conversion. -/
theorem number_sound_iff (run : Nat → Bool) (s : St) (e : Expr) (h : NumberExpr s e) :
    TypeSound run e s ↔ Uniform s e := by
  have heval := (h.evaluates : Evaluates run s e) []
  rw [St.emitAll_nil] at heval
  constructor
  · rintro ⟨r, is, hrun, -⟩
    by_contra hu
    rw [heval.2 hu] at hrun
    cases hrun
  · intro hu
    obtain ⟨r, is, hrun, hm, hd, -⟩ := heval.1 hu
    exact ⟨r, is, hrun, hm, hd⟩

end Expressions

/-- A comparison of an integer with a `double`, inside a product. -/
theorem number_sound_iff_example :
    TypeSound (fun _ => true)
        (.arith .mul (.cmp .lt (.int 1) (.arith .add (.float ['2']) (.int 3))) (.int 4)) emptyBody ↔
      Uniform emptyBody
        (.arith .mul (.cmp .lt (.int 1) (.arith .add (.float ['2']) (.int 3))) (.int 4)) :=
  number_sound_iff _ _ _ (.arith (.cmp (.int 1) (.arith (.float _) (.int 3) fun _ => rfl)) (.int 4)
    fun h => absurd rfl h)

/-- A function with a variable `x` of type `float`. -/
def floatBody : St :=
  { emptyBody with curfn := some [[⟨"x", ⟨.ext 0, .ptr .float⟩, .float 1⟩]] }

/-- The sum of a `float` variable and a literal. -/
theorem mixed_floats_crash :
    NumberExpr floatBody (.arith .add (.ident "x") (.float ['1'])) ∧
      eval (fun _ => true) (.arith .add (.ident "x") (.float ['1'])) floatBody = .error .crash ∧
      ¬ TypeSound (fun _ => true) (.arith .add (.ident "x") (.float ['1'])) floatBody := by
  have hcrash : eval (fun _ => true) (.arith .add (.ident "x") (.float ['1'])) floatBody =
      .error .crash := by rfl
  refine ⟨.arith (.ident (v := ⟨.ext 0, .ptr .float⟩) (t := .float 1) (l := .float) rfl rfl rfl)
    (.float _) fun _ => rfl, hcrash, ?_⟩
  rintro ⟨r, is, hrun, -⟩
  rw [hcrash] at hrun
  cases hrun

end Dolorem.Codegen
