import Dolorem.Codegen.Moves

/-!
# Checking the branches of `if`

The expressions made of literals, variables, calls, `progn`, `scope`, `if`,
`cond` and `while` (`Valued`), and a check that computes the shape of an
expression's value from the declared types alone. The check asks of every
condition that it can be converted, and of every `if` what the code it emits
relies on without looking: neither branch contains a control structure, the
then-branch is an r-value of a type other than `void`, and the else-branch
converts to it without changing its LLVM type.
-/

namespace Dolorem.Codegen

open CodeGraph

/-- The expressions. -/
inductive Valued : Expr → Prop
  | int (i : Int) : Valued (.int i)
  | float (tok : List Char) : Valued (.float tok)
  | string (str : List Char) : Valued (.string str)
  | char (c : Int) : Valued (.char c)
  | ident (x : String) : Valued (.ident x)
  | call (f : String) {args : List Expr} : (∀ e ∈ args, Valued e) → Valued (.call f args)
  | progn {es : List Expr} : (∀ e ∈ es, Valued e) → Valued (.progn es)
  | scope {es : List Expr} : (∀ e ∈ es, Valued e) → Valued (.scope es)
  | cond {c body : Expr} : Valued c → Valued body → Valued (.cond c body)
  | if_ {c t e : Expr} : Valued c → Valued t → Valued e → Valued (.if_ c t e)
  | while_ {c body : Expr} : Valued c → Valued body → Valued (.while_ c body)

/-- What is declared where an expression stands: the variables, latest first,
the globals and the functions. -/
structure Env where
  vars : List (String × Rtt)
  globals : List (String × Rtt)
  funs : List (String × Fun)

/-- A variable is an l-value of its type. -/
def Env.ident (Γ : Env) (x : String) : Option Shape :=
  ((Γ.vars.lookup x).or (Γ.globals.lookup x)).map fun t => ⟨.ptr t.l, t.t, true⟩

mutual

/-- The expression contains a control structure. -/
def branches : Expr → Bool
  | .cond _ _ => true
  | .if_ _ _ _ => true
  | .while_ _ _ => true
  | .call _ args => branchesAny args
  | .progn es => branchesAny es
  | .scope es => branchesAny es
  | _ => false

def branchesAny : List Expr → Bool
  | [] => false
  | e :: es => branches e || branchesAny es

end

/-! ## Calls -/

/-- The LLVM types of the operands of a call. -/
def lowerShapes (room : Bool) : List (String × Rtt) → List Shape → Option (List LTy)
  | _, [] => some []
  | [], σ :: σs => do
    let τ ← σ.read
    if room then
      let tys ← lowerShapes room [] σs
      some (τ.ty :: tys)
    else none
  | p :: parms, σ :: σs => do
    let τ ← σ.read
    let κ ← τ.convert p.2 0
    let tys ← lowerShapes room parms σs
    some (κ.ty :: tys)

/-- The shape of the result of a call. -/
def callShape (f : Fun) (σs : List Shape) : Option Shape :=
  if σs.length ≠ f.parms.length ∧ f.vaArgs = false then none
  else if f.vaArgs = true ∧ σs.length < f.parms.length then none
  else
    match lowerShapes (!f.parms.isEmpty) f.parms σs with
    | some tys => if tys.any (· = .null) then none else some ⟨f.ret.l, f.ret.t, false⟩
    | none => none

theorem lowerArgs_spec (room : Bool) (parms : List (String × Rtt)) (args : List Rtv) (s : St) :
    match lowerShapes room parms (args.map Rtv.shape) with
    | some tys => ∃ vs is, lowerArgs room parms args s = .ok (vs, s.emitAll is) ∧ Ops is ∧
        vs.map Value.ty = tys
    | none => ∃ h, lowerArgs room parms args s = .error h := by
  induction args generalizing parms s with
  | nil =>
    cases parms <;> exact ⟨[], [], by simp [lowerArgs], Ops.nil, rfl⟩
  | cons a args ih =>
    have hread := prepareRead_spec a s
    cases hσ : a.shape.read with
    | none =>
      simp only [hσ] at hread
      cases parms <;> simp [lowerShapes, lowerArgs, hσ, hread, error_bind]
    | some τ =>
      simp only [hσ] at hread
      obtain ⟨v, is, hv, ops, rfl⟩ := hread
      cases parms with
      | nil =>
        cases room with
        | false => simp [lowerShapes, lowerArgs, hσ, hv, ok_bind]
        | true =>
          have hrest := ih [] (s.emitAll is)
          simp only [List.map_cons, lowerShapes, hσ, Option.bind_eq_bind, Option.bind_some,
            if_true, lowerArgs, hv, ok_bind]
          cases hl : lowerShapes true [] (args.map Rtv.shape) with
          | none =>
            simp only [hl] at hrest
            obtain ⟨h, hrest⟩ := hrest
            exact ⟨h, by simp [hrest, error_bind]⟩
          | some tys =>
            simp only [hl] at hrest
            obtain ⟨vs, js, hrest, ops', rfl⟩ := hrest
            exact ⟨v.v :: vs, is ++ js, by simp [hrest, ok_bind], ops.append ops', rfl⟩
      | cons p parms =>
        have hconv := convertType_spec (Shape.read_lval hσ : v.lval = false) p.2 0 (s.emitAll is)
        simp only [List.map_cons, lowerShapes, hσ, Option.bind_eq_bind, Option.bind_some,
          lowerArgs, hv, ok_bind]
        cases hκ : v.shape.convert p.2 0 with
        | none =>
          simp only [hκ] at hconv
          exact ⟨_, by simp [hconv, ok_bind]; rfl⟩
        | some κ =>
          simp only [hκ] at hconv
          obtain ⟨c, js, hconv, ops', rfl⟩ := hconv
          have hrest := ih parms (s.emitAll (is ++ js))
          simp only [hconv, ok_bind, Option.bind_some, St.emitAll_emitAll]
          cases hl : lowerShapes room parms (args.map Rtv.shape) with
          | none =>
            simp only [hl] at hrest
            obtain ⟨h, hrest⟩ := hrest
            exact ⟨h, by simp [hrest, error_bind]⟩
          | some tys =>
            simp only [hl] at hrest
            obtain ⟨vs, ks, hrest, ops'', rfl⟩ := hrest
            exact ⟨c.v :: vs, is ++ js ++ ks, by simp [hrest, ok_bind],
              (ops.append ops').append ops'', rfl⟩

theorem lowerFuncall_spec (fn : Value) (f : Fun) (args : List Rtv) (s : St) :
    match callShape f (args.map Rtv.shape) with
    | some σ => ∃ r is, lowerFuncall fn f args s = .ok (r, s.emitAll is) ∧ Ops is ∧ r.shape = σ
    | none => ∃ h, lowerFuncall fn f args s = .error h := by
  have hargs := lowerArgs_spec (!f.parms.isEmpty) f.parms args s
  unfold callShape lowerFuncall
  rw [List.length_map]
  split_ifs with h₁ h₂
  · exact ⟨_, rfl⟩
  · exact ⟨_, rfl⟩
  · cases hl : lowerShapes (!f.parms.isEmpty) f.parms (args.map Rtv.shape) with
    | none =>
      simp only [hl] at hargs
      obtain ⟨h, hargs⟩ := hargs
      exact ⟨h, by simp [hargs, error_bind]⟩
    | some tys =>
      simp only [hl] at hargs
      obtain ⟨vs, is, hargs, ops, rfl⟩ := hargs
      have hany : (vs.map Value.ty).any (· = .null) = vs.any (·.ty = .null) := by
        rw [List.any_map]
        rfl
      simp only [hargs, ok_bind, hany]
      cases vs.any (·.ty = .null) with
      | true => exact ⟨.crash, rfl⟩
      | false =>
        exact ⟨_, is ++ [.call fn vs], by simp [St.build, St.emit]; rfl,
          ops.append (Ops.single rfl), rfl⟩

/-! ## The check -/

mutual

/-- The shape of the value of an expression whose control structures are all
sound; `none` otherwise. -/
def check (Γ : Env) : Expr → Option Shape
  | .int _ => some ⟨.int 64, .integer 64 true, false⟩
  | .float _ => some ⟨.double, .float 2, false⟩
  | .string _ => some ⟨.ptr (.int 8), .pointer (.integer 8 false), false⟩
  | .char _ => some ⟨.int 8, .integer 8 false, false⟩
  | .ident x => Γ.ident x
  | .call f args =>
    match Γ.funs.lookup f with
    | none => none
    | some f => (checkArgs Γ args).bind (callShape f)
  | .progn es => checkProgn Γ es
  | .scope es => checkProgn Γ es
  | .cond c body => do
    let σ ← check Γ c
    let τ ← σ.condition
    let _ ← check Γ body
    some τ
  | .while_ c body => do
    let σ ← check Γ c
    let _ ← σ.condition
    let _ ← check Γ body
    some nullRtv.shape
  | .if_ c t e => do
    let σ ← check Γ c
    let _ ← σ.condition
    let σt ← check Γ t
    let σe ← check Γ e
    let τ ← σe.read
    let κ ← τ.convert ⟨σt.ty, σt.t⟩ 0
    if branches t = false ∧ branches e = false ∧ σt.t ≠ .void ∧ σt.ty ≠ .null ∧
        σt.lval = false ∧ κ.ty = σt.ty then some σt
    else none
  | _ => none

def checkProgn (Γ : Env) : List Expr → Option Shape
  | [] => some nullRtv.shape
  | [e] => check Γ e
  | e :: e' :: es => do
    let _ ← check Γ e
    checkProgn Γ (e' :: es)

def checkArgs (Γ : Env) : List Expr → Option (List Shape)
  | [] => some []
  | e :: es => do
    let σ ← check Γ e
    let σs ← checkArgs Γ es
    some (σ :: σs)

end

section

-- The equations are made here, before many proofs ask for them at once.
attribute [local simp] check

end

end Dolorem.Codegen
