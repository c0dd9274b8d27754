import Dolorem.Codegen.Evolve
import Dolorem.Codegen.Visits

/-!
# The functions of lambdas

A `lambda` compiles its body under a name made of the position of its argument
list, and then looks the function up by that name. It finds its own function
exactly if the module had no function of the name: otherwise LLVM has renamed
the new function, and the value is the older one.
-/

namespace Dolorem.Codegen

open CodeGraph

variable {run : Nat → Bool} {s s' : St} {r : Rtv} {f : Fun} {name : String} {body : Expr}

/-! ## Names of functions -/

/-- The function `lf` is the one called `name` in module `mod`. -/
def LFun.isNamed (mod : Nat) (name : String) (lf : LFun) : Bool :=
  decide (lf.mod = mod ∧ lf.name = some name)

theorem getNamedFunction_of_none (h : s.fns.findIdx? (LFun.isNamed s.mod name) = none) :
    s.getNamedFunction name = .null := by
  unfold LFun.isNamed at h
  unfold St.getNamedFunction
  rw [h]

theorem getNamedFunction_of_some {i : Nat}
    (h : s.fns.findIdx? (LFun.isNamed s.mod name) = some i) :
    (s.getNamedFunction name).ref = .fn i := by
  unfold LFun.isNamed at h
  unfold St.getNamedFunction
  rw [h]

/-- The function a compiled body belongs to, under its name unless the name was taken. -/
theorem funbody_fns {sameMod : Bool} (h : funbody (eval run body) f sameMod s = .ok s')
    (hp : s.precompiled = true) :
    s.fns ++ [⟨if sameMod then s.mod else s.mods,
      if s.fns.any fun lf => lf.mod = (if sameMod then s.mod else s.mods) ∧ lf.name = some f.name
      then none else some f.name, f.funtype⟩] <+: s'.fns := by
  obtain ⟨s₁, hbody, rfl⟩ := funbody_evolved (eval_evolves run body) h hp
  obtain ⟨is, vars, -, henter⟩ := enterFunction_eq f sameMod s
  have hfns := hbody.fns
  rw [henter] at hfns
  have hset : (s₁.setBuilderPosition s.bldr).fns = s₁.fns := by cases s.bldr <;> rfl
  rw [hset]
  cases sameMod <;> exact hfns

/-! ## Lambdas -/

/-- A lambda finds its own function if and only if the module has no function of its name. -/
theorem lambda_finds_iff {fileIdx charIdx : Nat} {ret : Rtt} {parms : List (String × Rtt)}
    {vaArgs : Bool} (h : eval run (.lambda fileIdx charIdx ret parms vaArgs body) s = .ok (r, s'))
    (hp : s.precompiled = true) :
    r.v.ref = .fn s.fns.length ↔ s.getNamedFunction (lambdaName fileIdx charIdx) = .null := by
  rw [eval] at h
  obtain ⟨s₁, h₁, h⟩ := bind_ok.1 h
  cases h
  have hmod := (funbody_leaves (eval_evolves run body) h₁).1.mod
  obtain ⟨t, ht⟩ := funbody_fns h₁ hp
  simp only [if_true] at ht
  cases hi : s.fns.findIdx? (LFun.isNamed s.mod (lambdaName fileIdx charIdx)) with
  | none =>
    have hfree := hi
    rw [List.findIdx?_eq_none_iff] at hfree
    have hany : (s.fns.any fun lf => lf.mod = s.mod ∧
        lf.name = some (lambdaName fileIdx charIdx)) = false := List.any_eq_false.2 fun lf hlf =>
      Bool.eq_false_iff.1 (hfree lf hlf)
    rw [hany] at ht
    refine ⟨fun _ => getNamedFunction_of_none hi, fun _ => getNamedFunction_of_some ?_⟩
    rw [hmod, ← ht, List.append_assoc, List.findIdx?_append, hi]
    simp [List.findIdx?_cons, LFun.isNamed]
  | some i =>
    have hlt := (List.findIdx?_eq_some_iff_getElem.1 hi).1
    have hnew : s'.fns.findIdx? (LFun.isNamed s'.mod (lambdaName fileIdx charIdx)) = some i := by
      rw [hmod, ← ht, List.append_assoc, List.findIdx?_append, hi]
      rfl
    rw [getNamedFunction_of_some hnew]
    constructor
    · intro h
      cases h
      exact absurd hlt (Nat.lt_irrefl _)
    · intro h
      have href := getNamedFunction_of_some hi
      rw [h] at href
      cases href

/-- In the evaluation of `e` from `s`, a lambda called `name` is compiled from the state `t`, and
its value is `r`. -/
inductive Lambda (run : Nat → Bool) (e : Expr) (s : St) : String → St → Rtv → Prop
  | mk {fileIdx charIdx : Nat} {ret : Rtt} {parms : List (String × Rtt)} {vaArgs : Bool}
      {body : Expr} {t t' : St} {r : Rtv} :
      Visits run (e, s) (.lambda fileIdx charIdx ret parms vaArgs body, t) →
      t.precompiled = true →
      eval run (.lambda fileIdx charIdx ret parms vaArgs body) t = .ok (r, t') →
      Lambda run e s (lambdaName fileIdx charIdx) t r

/-- The value of every lambda is the function compiled from its body, the one that is added next
when its compilation starts, if and only if none of them is compiled in a module that has a
function of its name. -/
theorem lambdas_find_iff (run : Nat → Bool) (e : Expr) (s : St) :
    (∀ name t r, Lambda run e s name t r → r.v.ref = .fn t.fns.length) ↔
      ∀ name t r, Lambda run e s name t r → t.getNamedFunction name = .null := by
  constructor
  · rintro h _ _ _ ⟨hv, hp, hrun⟩
    exact (lambda_finds_iff hrun hp).1 (h _ _ _ ⟨hv, hp, hrun⟩)
  · rintro h _ _ _ ⟨hv, hp, hrun⟩
    exact (lambda_finds_iff hrun hp).2 (h _ _ _ ⟨hv, hp, hrun⟩)

/-- A lambda without a position, as a macro makes it. -/
def madeLambda (i : Int) : Expr := .lambda 0 0 (lowerIntegerType 64 true) [] false (.int i)

/-- The value of the second one is the first one's function. -/
theorem lambda_shadowed : ∃ t r,
    Lambda (fun _ => true) (.progn [madeLambda 1, madeLambda 2]) emptyBody
      "<anonymous-fun-0-0-0>" t r ∧ t.fns.length = 2 ∧ r.v.ref = .fn 1 := by
  obtain ⟨r₁, t, r, t', h₁, h₂, hp, ht, hr⟩ : ∃ r₁ t r t',
      eval (fun _ => true) (madeLambda 1) emptyBody = .ok (r₁, t) ∧
      eval (fun _ => true) (madeLambda 2) t = .ok (r, t') ∧ t.precompiled = true ∧
      t.fns.length = 2 ∧ r.v.ref = .fn 1 := ⟨_, _, _, _, rfl, rfl, rfl, rfl, rfl⟩
  have hvisit : Visits (fun _ => true) (.progn [madeLambda 1, madeLambda 2], emptyBody)
      (madeLambda 2, t) := .single (.progn (.tail h₁ (.head _ _ _)))
  exact ⟨t, r, .mk hvisit hp h₂, ht, hr⟩

end Dolorem.Codegen
