import Mathlib.Algebra.Group.Int.Defs
import Mathlib.Algebra.Group.Nat.Defs
import Dolorem.Codegen.Converters
import Dolorem.Codegen.Syntax
import Dolorem.Lib.Slots

/-!
# Type expressions

`eval_type` looks up the first identifier of a type expression among the
registered types and applies that type's macro to what follows it. The macros
`ptr` and `array` hand the rest of the list back to `eval_type`, `funptr` reads
a parameter list (`parse_parms`).

The macros allocate the properties of `array` and `funptr` types, so the
functions take the next free address and return it with their result.
-/

namespace Dolorem.Codegen

open Reader (Sexp)

/-- The type macros, with the `prop` that `register_type` keeps for them. -/
inductive TypeMacro where
  | void
  | integer (prop : Nat)
  | float (prop : Nat)
  | pointer
  | array
  | opaqueAlias (a : Nat) (l : LTy)
  | alias (a : Nat) (r : Rtt)
  | struct (a : Nat) (l : LTy)
  | funptr
deriving DecidableEq, Repr

/-- `map_types`. -/
abbrev Types := List (List Char × TypeMacro)

/-- `register_type`. -/
def registerType (name : List Char) (m : TypeMacro) (Γ : Types) : Except Halt Types :=
  if (Γ.lookup name).isSome then
    .error (.error "cannot \"register-type\" \"%s\" because it already exists")
  else .ok ((name, m) :: Γ)

/-- The types `init_basictypes` registers. -/
def initTypes : Types := [
  ("val".toList, .opaqueAlias 0 (.ptr (.int 8))),
  ("rtt".toList, .opaqueAlias 1 (.ptr (.int 8))),
  ("rtv".toList, .opaqueAlias 2 (.ptr (.int 8))),
  ("void".toList, .void),
  ("bool".toList, .integer (0x100 ||| 1)),
  ("char".toList, .integer (0x000 ||| 8)),
  ("i8".toList, .integer (0x100 ||| 8)),
  ("i16".toList, .integer (0x100 ||| 16)),
  ("i32".toList, .integer (0x100 ||| 32)),
  ("i64".toList, .integer (0x100 ||| 64)),
  ("u8".toList, .integer (0x000 ||| 8)),
  ("u16".toList, .integer (0x000 ||| 16)),
  ("u32".toList, .integer (0x000 ||| 32)),
  ("u64".toList, .integer (0x000 ||| 64)),
  ("ptr".toList, .pointer),
  ("array".toList, .array),
  ("float".toList, .float 1),
  ("double".toList, .float 2),
  ("funptr".toList, .funptr)]

/-- The tables a program can make of the initial one. -/
inductive Registered : Types → Prop
  | init : Registered initTypes
  | register {Γ Γ' : Types} {name : List Char} {m : TypeMacro} :
    Registered Γ → registerType name m Γ = .ok Γ' → Registered Γ'

/-- The widths `lower_integer_type` does not reject. -/
def widths : List Nat := [1, 8, 16, 32, 64]

/-- `integer_type`. -/
def integerType (prop : Nat) : Except Halt Rtt :=
  if prop &&& 0xff ∈ widths then
    .ok (lowerIntegerType (prop &&& 0xff) (decide (prop &&& 0x100 ≠ 0)))
  else .error .crash

/-- `float_type`. Other sizes leave the LLVM type unassigned. -/
def floatType : Nat → Except Halt Rtt
  | 1 => .ok ⟨.float, .float 1⟩
  | 2 => .ok ⟨.double, .float 2⟩
  | _ => .error .crash

/-- A pointer to anything. -/
def rawPointer : Rtt := ⟨.ptr (.int 8), .rawPtr⟩

/-- The macro is applied without arguments: the argument list is a null pointer.
`funptr` takes the `car` of it. -/
def TypeMacro.bare : TypeMacro → Except Halt Rtt
  | void => .ok ⟨.void, .void⟩
  | integer prop => integerType prop
  | float prop => floatType prop
  | pointer | array => .ok rawPointer
  | opaqueAlias a l => .ok ⟨l, .opaqueAlias a⟩
  | «alias» a r => .ok ⟨r.l, .alias a r.l r.t⟩
  | struct a l => .ok ⟨l, .struct a⟩
  | funptr => .error .crash

/-- `lower_array_type`, with the size as the `long` of an integer node: LLVM is
given an `unsigned int`. -/
def lowerArrayType (t : Rtt) (size : Int) (a : Nat) : Rtt :=
  ⟨.array (size % 2 ^ 32).toNat t.l, .array a (size % 2 ^ 64).toNat t.t⟩

/-- `struct funparm`; a slot of a new array has neither name nor type. -/
structure FunParm where
  name : Option (List Char)
  t : Rtt
deriving DecidableEq, Repr

def FunParm.blank : FunParm := ⟨none, ⟨.null, .void⟩⟩

/-- What `parse_parms` returns: the array, the number of parameters and
`ffVaArgs`. -/
structure ParmList where
  parms : List FunParm
  nparms : Nat
  vaArgs : Bool
deriving DecidableEq, Repr

/-- `fun_type_to_llvm`. -/
def ParmList.funtype (ps : ParmList) (ret : LTy) : LTy :=
  .function ret ((ps.parms.take ps.nparms).map (·.t.l)) ps.vaArgs

/-- `r[i].name = …; r[i].t = …` -/
def putParm (i : Nat) (name : List Char) (t : Rtt) (r : List FunParm) :
    Except Halt (List FunParm) :=
  match Slots.assign i (fun _ => ⟨some name, t⟩) r with
  | some r => .ok r
  | none => .error .crash

def dots : List Char := "...".toList

/-- `parse_parms` around its loop. -/
def parseParmsWith (l : Sexp)
    (loop : List FunParm → Except Halt (List FunParm × Bool × Nat)) (n : Nat) :
    Except Halt (ParmList × Nat) := do
  let nparms := countLen l
  let r := List.replicate nparms FunParm.blank
  let first ← car l
  if first = .nil then .ok (⟨r, nparms, false⟩, n)
  else
    let (r, vaArgs, n) ← loop r
    .ok (⟨r, if vaArgs then nparms - 1 else nparms, vaArgs⟩, n)

mutual

/-- `eval_type`. -/
def evalType (Γ : Types) : Sexp → Nat → Except Halt (Rtt × Nat)
  | .ident x, n =>
    match Γ.lookup x with
    | none => .error (.error "unknown type: \"%s\"")
    | some m => do .ok (← m.bare, n)
  | .cons (.ident x) l, n =>
    match Γ.lookup x with
    | none => .error (.error "unknown type: \"%s\"")
    | some .pointer => do
      let (t, n) ← evalType Γ l n
      .ok (lowerPointerType t, n)
    | some .array => arrayType Γ l n
    | some .funptr => funptrType Γ l n
    | some m => do .ok (← m.bare, n)
  | _, _ => .error (.error "expected type")

/-- The loop of `parse_parms` from entry `i` on. -/
def parmsLoop (Γ : Types) :
    Sexp → Nat → List FunParm → Nat → Except Halt (List FunParm × Bool × Nat)
  | .cons (.ident x) l, _, r, n =>
    if x = dots then
      if l = .nil then .ok (r, true, n)
      else .error (.error "vaargs not last in argument list")
    else .error (.error "expected element of list in parameter list")
  | .cons (.cons type (.cons (.ident name) _)) l, i, r, n => do
    let (t, n) ← evalType Γ type n
    let r ← putParm i name t r
    if l = .nil then .ok (r, false, n) else parmsLoop Γ l (i + 1) r n
  | .cons (.cons _ d) _, _, _, _ => do
    let _ ← car d
    .error (.error "expected parameter name in parameter list")
  | .cons .nil _, _, _, _ | .nil, _, _, _ =>
    .error (.error "expected parameter name in parameter list")
  | .cons _ _, _, _, _ => .error (.error "expected element of list in parameter list")
  | _, _, _, _ => .error (.error "can't take \"car\" of non-list")

/-- `array_type` with arguments. -/
def arrayType (Γ : Types) : Sexp → Nat → Except Halt (Rtt × Nat)
  | .cons (.int size) l, n => do
    let (t, a) ← evalType Γ l n
    .ok (lowerArrayType t size a, a + 1)
  | .cons _ _, _ | .nil, _ =>
    .error (.error "expected number constant, found something else")
  | _, _ => .error (.error "can't take \"car\" of non-list")

/-- `funptr_type` with arguments. -/
def funptrType (Γ : Types) : Sexp → Nat → Except Halt (Rtt × Nat)
  | .cons parms (.cons ret rest), n =>
    if !parms.isList then
      .error (.error "expected list of parameters in function pointer type")
    else if rest ≠ .nil then
      .error (.error "more arguments than expected in function pointer type")
    else do
      let (ret, n) ← evalType Γ ret n
      let (ps, a) ← parseParmsWith parms (fun r => parmsLoop Γ parms 0 r n) n
      .ok (⟨.ptr (ps.funtype ret.l), .funptr a⟩, a + 1)
  | .cons parms d, _ =>
    if !parms.isList then
      .error (.error "expected list of parameters in function pointer type")
    else do
      let _ ← car d
      .error (.error "expected type")
  | .nil, _ => .error (.error "expected type")
  | _, _ => .error (.error "can't take \"car\" of non-list")

end

/-- `parse_parms`. -/
def parseParms (Γ : Types) (l : Sexp) (n : Nat) : Except Halt (ParmList × Nat) :=
  parseParmsWith l (fun r => parmsLoop Γ l 0 r n) n

/-! ## One step -/

variable {Γ Γ' : Types} {T l : Sexp} {x : List Char} {m : TypeMacro} {n n' i : Nat} {r : Rtt}
  {ps ps' : List FunParm} {va : Bool}

/-- The macros that do not look at their arguments. -/
def TypeMacro.Fixed (m : TypeMacro) : Prop := m ≠ pointer ∧ m ≠ array ∧ m ≠ funptr

/-- What `eval_type` does with one type expression. -/
inductive TypeStep (Γ : Types) : Sexp → Nat → Rtt → Nat → Prop
  | bare {x : List Char} {m : TypeMacro} {n : Nat} {r : Rtt} :
    Γ.lookup x = some m → m.bare = .ok r → TypeStep Γ (.ident x) n r n
  | fixed {x : List Char} {l : Sexp} {m : TypeMacro} {n : Nat} {r : Rtt} :
    Γ.lookup x = some m → m.Fixed → m.bare = .ok r → TypeStep Γ (.cons (.ident x) l) n r n
  | pointer {x : List Char} {l : Sexp} {n n' : Nat} {t : Rtt} :
    Γ.lookup x = some .pointer → evalType Γ l n = .ok (t, n') →
      TypeStep Γ (.cons (.ident x) l) n (lowerPointerType t) n'
  | array {x : List Char} {size : Int} {l : Sexp} {n a : Nat} {t : Rtt} :
    Γ.lookup x = some .array → evalType Γ l n = .ok (t, a) →
      TypeStep Γ (.cons (.ident x) (.cons (.int size) l)) n (lowerArrayType t size a) (a + 1)
  | funptr {x : List Char} {parms ret : Sexp} {n n' a : Nat} {t : Rtt} {ps : ParmList} :
    Γ.lookup x = some .funptr → parms.isList = true → evalType Γ ret n = .ok (t, n') →
      parseParms Γ parms n' = .ok (ps, a) →
      TypeStep Γ (.cons (.ident x) (.cons parms (.cons ret .nil))) n
        ⟨.ptr (ps.funtype t.l), .funptr a⟩ (a + 1)

theorem evalType_fixed (hk : Γ.lookup x = some m) (hm : m.Fixed) (l : Sexp) (n : Nat) :
    evalType Γ (.cons (.ident x) l) n = m.bare.map (·, n) := by
  rw [evalType, hk]
  obtain ⟨hp, ha, hf⟩ := hm
  cases m with
  | pointer => exact absurd rfl hp
  | array => exact absurd rfl ha
  | funptr => exact absurd rfl hf
  | _ => rfl

theorem arrayType_ok (h : arrayType Γ T n = .ok (r, n')) : ∃ size l t a,
    T = .cons (.int size) l ∧ evalType Γ l n = .ok (t, a) ∧ r = lowerArrayType t size a ∧
      n' = a + 1 := by
  unfold arrayType at h
  split at h
  · obtain ⟨⟨t, a⟩, ht, hok⟩ := bind_ok.1 h
    cases hok
    exact ⟨_, _, t, a, rfl, ht, rfl, rfl⟩
  all_goals cases h

theorem funptrType_ok (h : funptrType Γ T n = .ok (r, n')) : ∃ parms ret t n₁ ps a,
    T = .cons parms (.cons ret .nil) ∧ parms.isList = true ∧ evalType Γ ret n = .ok (t, n₁) ∧
      parseParms Γ parms n₁ = .ok (ps, a) ∧ r = ⟨.ptr (ps.funtype t.l), .funptr a⟩ ∧
      n' = a + 1 := by
  unfold funptrType at h
  split at h
  · next parms ret rest =>
    split at h
    · cases h
    · next hlist =>
      split at h
      · cases h
      · next hrest =>
        obtain ⟨⟨t, n₁⟩, ht, h⟩ := bind_ok.1 h
        obtain ⟨⟨ps, a⟩, hps, hok⟩ := bind_ok.1 h
        cases hok
        rw [Bool.not_eq_true', Bool.not_eq_false] at hlist
        rw [ne_eq, not_not] at hrest
        exact ⟨parms, ret, t, n₁, ps, a, by rw [hrest], hlist, ht, hps, rfl, rfl⟩
  · split at h
    · cases h
    · obtain ⟨_, -, h⟩ := bind_ok.1 h
      cases h
  all_goals cases h

theorem evalType_ok_iff : evalType Γ T n = .ok (r, n') ↔ TypeStep Γ T n r n' := by
  constructor
  · intro h
    unfold evalType at h
    split at h
    · split at h
      · cases h
      · next hk =>
        obtain ⟨r, hr, hok⟩ := bind_ok.1 h
        cases hok
        exact .bare hk hr
    · split at h
      · cases h
      · next hk =>
        obtain ⟨⟨t, n₁⟩, ht, hok⟩ := bind_ok.1 h
        cases hok
        exact .pointer hk ht
      · next hk =>
        obtain ⟨size, l, t, a, rfl, ht, rfl, rfl⟩ := arrayType_ok h
        exact .array hk ht
      · next hk =>
        obtain ⟨parms, ret, t, n₁, ps, a, rfl, hlist, ht, hps, rfl, rfl⟩ := funptrType_ok h
        exact .funptr hk hlist ht hps
      · next m hp ha hf hk =>
        obtain ⟨r, hr, hok⟩ := bind_ok.1 h
        cases hok
        exact .fixed hk ⟨fun h => hp (by rw [h]), fun h => ha (by rw [h]), fun h => hf (by rw [h])⟩ hr
    · cases h
  · intro h
    cases h with
    | bare hk hr =>
      rw [evalType, hk]
      simp only [hr, ok_bind]
    | fixed hk hm hr => rw [evalType_fixed hk hm, hr]; rfl
    | pointer hk ht =>
      rw [evalType, hk]
      simp only [ht, ok_bind]
    | array hk ht =>
      rw [evalType, hk]
      simp only [arrayType, ht, ok_bind]
    | funptr hk hlist ht hps =>
      rw [evalType, hk]
      unfold parseParms at hps
      simp only [funptrType, hlist, Bool.not_true, Bool.false_eq_true, if_false, ne_eq,
        not_true_eq_false, ht, ok_bind, hps]

/-- What the loop of `parse_parms` does with one entry. -/
inductive ParmStep (Γ : Types) : Sexp → Nat → List FunParm → Nat → List FunParm → Bool → Nat → Prop
  | dots {i n : Nat} {ps : List FunParm} :
    ParmStep Γ (.cons (.ident dots) .nil) i ps n ps true n
  | last {type more : Sexp} {name : List Char} {i n n' : Nat} {t : Rtt} {ps ps' : List FunParm} :
    evalType Γ type n = .ok (t, n') → putParm i name t ps = .ok ps' →
      ParmStep Γ (.cons (.cons type (.cons (.ident name) more)) .nil) i ps n ps' false n'
  | next {type more l : Sexp} {name : List Char} {i n n₁ n' : Nat} {t : Rtt}
    {ps ps₁ ps' : List FunParm} {va : Bool} :
    evalType Γ type n = .ok (t, n₁) → putParm i name t ps = .ok ps₁ → l ≠ .nil →
      parmsLoop Γ l (i + 1) ps₁ n₁ = .ok (ps', va, n') →
      ParmStep Γ (.cons (.cons type (.cons (.ident name) more)) l) i ps n ps' va n'

theorem parmsLoop_ok_iff :
    parmsLoop Γ l i ps n = .ok (ps', va, n') ↔ ParmStep Γ l i ps n ps' va n' := by
  constructor
  · intro h
    unfold parmsLoop at h
    split at h
    · split at h
      · next hx =>
        split at h
        · next hl =>
          cases h
          rw [hx, hl]
          exact .dots
        · cases h
      · cases h
    · obtain ⟨⟨t, n₁⟩, ht, h⟩ := bind_ok.1 h
      obtain ⟨ps₁, hput, h⟩ := bind_ok.1 h
      split at h
      · next hl =>
        cases h
        rw [hl]
        exact .last ht hput
      · next hl => exact .next ht hput hl h
    · obtain ⟨_, -, h⟩ := bind_ok.1 h
      cases h
    all_goals cases h
  · intro h
    cases h with
    | dots => rfl
    | last ht hput =>
      rw [parmsLoop]
      simp only [ht, hput, ok_bind, if_true]
    | next ht hput hl hrest =>
      rw [parmsLoop]
      simp only [ht, hput, ok_bind, if_neg hl, hrest]

theorem parseParms_ok {q : ParmList} (h : parseParms Γ l n = .ok (q, n')) :
    (car l = .ok .nil ∧ q = ⟨List.replicate (countLen l) FunParm.blank, countLen l, false⟩ ∧
      n' = n) ∨
    ∃ first ps va, car l = .ok first ∧ first ≠ .nil ∧
      parmsLoop Γ l 0 (List.replicate (countLen l) FunParm.blank) n = .ok (ps, va, n') ∧
      q = ⟨ps, if va then countLen l - 1 else countLen l, va⟩ := by
  unfold parseParms parseParmsWith at h
  obtain ⟨first, hfirst, h⟩ := bind_ok.1 h
  split at h
  · next hnil =>
    cases h
    exact .inl ⟨by rw [hfirst, hnil], rfl, rfl⟩
  · next hne =>
    obtain ⟨⟨ps, va, n'⟩, hloop, hok⟩ := bind_ok.1 h
    cases hok
    exact .inr ⟨first, ps, va, hfirst, hne, hloop, rfl⟩

/-! ## Evaluating again -/

/-- Every type of the first table is in the second. -/
def Types.Grows (Γ Γ' : Types) : Prop := ∀ x m, Γ.lookup x = some m → Γ'.lookup x = some m

theorem Types.Grows.refl (Γ : Types) : Γ.Grows Γ := fun _ _ h => h

theorem registerType_grows {name : List Char} (h : registerType name m Γ = .ok Γ') : Γ.Grows Γ' := by
  unfold registerType at h
  split at h
  · cases h
  · next hnew =>
    cases h
    intro x k hk
    rw [List.lookup_cons]
    cases hx : x == name with
    | false => exact hk
    | true =>
      rw [beq_iff_eq.1 hx] at hk
      rw [hk] at hnew
      exact absurd rfl hnew

theorem Registered.grows (h : Registered Γ) : initTypes.Grows Γ := by
  induction h with
  | init => exact .refl _
  | register _ hreg ih => exact fun x m hm => registerType_grows hreg x m (ih x m hm)

/-- The LLVM types of an array of parameters. -/
def layouts (ps : List FunParm) : List LTy := ps.map (·.t.l)

theorem putParm_again {name : List Char} {t t' : Rtt} {ps₁ : List FunParm}
    (h : putParm i name t ps = .ok ps₁) (ht : t'.l = t.l) (hps : layouts ps' = layouts ps) :
    ∃ ps₁', putParm i name t' ps' = .ok ps₁' ∧ layouts ps₁' = layouts ps₁ := by
  have hlen := congrArg List.length hps
  rw [layouts, layouts, List.length_map, List.length_map] at hlen
  unfold putParm at h
  split at h
  · next ps₁ hput =>
    cases h
    unfold Slots.assign at hput
    split at hput
    · next hi =>
      cases hput
      refine ⟨ps'.modify i fun _ => ⟨some name, t'⟩, ?_, ?_⟩
      · rw [← hlen] at hi
        rw [putParm, Slots.assign_of_lt hi]
      · unfold layouts at hps ⊢
        rw [Slots.map_modify_const, Slots.map_modify_const, hps, ht]
    · cases hput
  · cases h

/-- The expression has a type in the second table too, with the same LLVM type, and addresses are
only allocated. -/
def Again (Γ Γ' : Types) (T : Sexp) : Prop :=
  ∀ n n₁ r, evalType Γ T n = .ok (r, n₁) →
    n ≤ n₁ ∧ ∀ m, ∃ r' m₁, evalType Γ' T m = .ok (r', m₁) ∧ r'.l = r.l

def LoopAgain (Γ Γ' : Types) (l : Sexp) : Prop :=
  ∀ i ps n ps₁ va n₁, parmsLoop Γ l i ps n = .ok (ps₁, va, n₁) →
    n ≤ n₁ ∧ ∀ m ps', layouts ps' = layouts ps → ∃ ps₁' m₁,
      parmsLoop Γ' l i ps' m = .ok (ps₁', va, m₁) ∧ layouts ps₁' = layouts ps₁

theorem ParmList.funtype_congr {q q' : ParmList} (hl : layouts q'.parms = layouts q.parms)
    (hn : q'.nparms = q.nparms) (hva : q'.vaArgs = q.vaArgs) (ret : LTy) :
    q'.funtype ret = q.funtype ret := by
  rw [funtype, funtype, List.map_take, List.map_take, hn, hva]
  unfold layouts at hl
  rw [hl]

theorem LoopAgain.parseParms (h : LoopAgain Γ Γ' l) {q : ParmList}
    (hq : parseParms Γ l n = .ok (q, n')) : n ≤ n' ∧ ∀ m, ∃ q' m₁,
      parseParms Γ' l m = .ok (q', m₁) ∧ ∀ ret, q'.funtype ret = q.funtype ret := by
  unfold Codegen.parseParms parseParmsWith
  rcases parseParms_ok hq with ⟨hnil, rfl, rfl⟩ | ⟨first, ps, va, hfirst, hne, hloop, rfl⟩
  · refine ⟨le_rfl, fun m => ⟨_, m, ?_, fun _ => rfl⟩⟩
    simp only [hnil, ok_bind, if_true]
  · obtain ⟨hle, hagain⟩ := h _ _ _ _ _ _ hloop
    refine ⟨hle, fun m => ?_⟩
    obtain ⟨ps', m₁, hloop', hl⟩ := hagain m _ rfl
    refine ⟨⟨ps', if va then countLen l - 1 else countLen l, va⟩, m₁, ?_,
      ParmList.funtype_congr hl rfl rfl⟩
    simp only [hfirst, ok_bind, if_neg hne, hloop']

/-- By induction on the size of the expression: everything `eval_type` looks at is a part of it. -/
theorem again_of_size (hΓ : Γ.Grows Γ') (k : Nat) :
    (∀ T, sizeOf T < k → Again Γ Γ' T) ∧ ∀ l, sizeOf l < k → LoopAgain Γ Γ' l := by
  induction k with
  | zero => exact ⟨fun _ h => absurd h (Nat.not_lt_zero _), fun _ h => absurd h (Nat.not_lt_zero _)⟩
  | succ k ih =>
    obtain ⟨ihT, ihl⟩ := ih
    constructor
    · intro T hT n n₁ r h
      cases evalType_ok_iff.1 h with
      | bare hk hr => exact ⟨le_rfl, fun m => ⟨r, m, evalType_ok_iff.2 (.bare (hΓ _ _ hk) hr), rfl⟩⟩
      | fixed hk hm hr =>
        exact ⟨le_rfl, fun m => ⟨r, m, evalType_ok_iff.2 (.fixed (hΓ _ _ hk) hm hr), rfl⟩⟩
      | pointer hk ht =>
        simp only [Sexp.cons.sizeOf_spec] at hT
        obtain ⟨hle, hagain⟩ := ihT _ (by omega) _ _ _ ht
        refine ⟨hle, fun m => ?_⟩
        obtain ⟨t', m₁, ht', hl⟩ := hagain m
        exact ⟨_, m₁, evalType_ok_iff.2 (.pointer (hΓ _ _ hk) ht'), congrArg LTy.ptr hl⟩
      | array hk ht =>
        simp only [Sexp.cons.sizeOf_spec] at hT
        obtain ⟨hle, hagain⟩ := ihT _ (by omega) _ _ _ ht
        refine ⟨Nat.le_succ_of_le hle, fun m => ?_⟩
        obtain ⟨t', m₁, ht', hl⟩ := hagain m
        exact ⟨_, m₁ + 1, evalType_ok_iff.2 (.array (hΓ _ _ hk) ht'), congrArg (LTy.array _) hl⟩
      | funptr hk hlist ht hps =>
        simp only [Sexp.cons.sizeOf_spec] at hT
        obtain ⟨hle, hagain⟩ := ihT _ (by omega) _ _ _ ht
        obtain ⟨hle', hagain'⟩ := (ihl _ (by omega)).parseParms hps
        refine ⟨Nat.le_succ_of_le (hle.trans hle'), fun m => ?_⟩
        obtain ⟨t', m₁, ht', hl⟩ := hagain m
        obtain ⟨q, m₂, hq, hfun⟩ := hagain' m₁
        refine ⟨_, m₂ + 1, evalType_ok_iff.2 (.funptr (hΓ _ _ hk) hlist ht' hq), ?_⟩
        show LTy.ptr _ = LTy.ptr _
        rw [hl, hfun]
    · intro l hl i ps n ps₁ va n₁ h
      cases parmsLoop_ok_iff.1 h with
      | dots => exact ⟨le_rfl, fun m ps' hps => ⟨ps', m, rfl, hps⟩⟩
      | last ht hput =>
        simp only [Sexp.cons.sizeOf_spec] at hl
        obtain ⟨hle, hagain⟩ := ihT _ (by omega) _ _ _ ht
        refine ⟨hle, fun m ps' hps => ?_⟩
        obtain ⟨t', m₁, ht', hl⟩ := hagain m
        obtain ⟨ps₁', hput', hps'⟩ := putParm_again hput hl hps
        exact ⟨ps₁', m₁, parmsLoop_ok_iff.2 (.last ht' hput'), hps'⟩
      | next ht hput hne hrest =>
        simp only [Sexp.cons.sizeOf_spec] at hl
        obtain ⟨hle, hagain⟩ := ihT _ (by omega) _ _ _ ht
        obtain ⟨hle', hagain'⟩ := ihl _ (by omega) _ _ _ _ _ _ hrest
        refine ⟨hle.trans hle', fun m ps' hps => ?_⟩
        obtain ⟨t', m₁, ht', hl⟩ := hagain m
        obtain ⟨ps₁', hput', hps'⟩ := putParm_again hput hl hps
        obtain ⟨ps₂', m₂, hrest', hps''⟩ := hagain' m₁ ps₁' hps'
        exact ⟨ps₂', m₂, parmsLoop_ok_iff.2 (.next ht' hput' hne hrest'), hps''⟩

theorem evalType_again (hΓ : Γ.Grows Γ') (T : Sexp) : Again Γ Γ' T :=
  (again_of_size hΓ (sizeOf T + 1)).1 T (Nat.lt_succ_self _)

theorem evalType_le (h : evalType Γ T n = .ok (r, n')) : n ≤ n' :=
  (evalType_again (.refl Γ) T n n' r h).1

end Dolorem.Codegen
