import Dolorem.Lib.Interp
import Dolorem.Programs.Language

/-!
# What programs mean

An interpreter for forms and functions. The environment gives the variables
their places in memory; a form leaves a value or a place behind, and a place is
read when the value is needed, which for the arguments of a call is after all of
them have been evaluated. To read a variable that was never set is wrong. The
fuel bounds the turns of a loop and the depth of calls.
-/

namespace Dolorem.Programs

open Codegen Words Interp

/-- The memory: what the cells contain that were set, and the first cell that is
free. -/
structure Mem where
  cells : Int → Option Int
  next : Int

namespace Mem

def alloc (m : Mem) : Mem where
  cells y := if y = m.next then none else m.cells y
  next := m.next + 1

def write (m : Mem) (a x : Int) : Mem :=
  { m with cells := fun y => if y = a then some x else m.cells y }

end Mem

/-- The environment of a function, latest variable first, and the memory. -/
structure Store where
  env : List (String × Int)
  mem : Mem

/-- A new variable. -/
def Store.declare (σ : Store) (x : String) : Store := ⟨(x, σ.mem.next) :: σ.env, σ.mem.alloc⟩

/-- What is left behind: a value, or the place of a variable of `w` bits. -/
inductive Operand where
  | val (x : Int)
  | place (a : Int) (w : Nat)
deriving DecidableEq, Repr

/-- Assignment to a place. -/
def Operand.assign (m : Mem) (x : Int) : Operand → Mem
  | val _ => m
  | place a w => m.write a (wrap w x)

/-- How a form can be left: with what is in memory then. -/
inductive Exit where
  | break_ (m : Mem)
  | continue_ (m : Mem)

abbrev Res (α : Type) := Outcome Exit α

/-- The value of an operand is read. -/
def Operand.load : Operand → Store → Res (Int × Store)
  | val x, σ => .ok (x, σ)
  | place a w, σ =>
    match σ.mem.cells a with
    | some x => .ok (wrap w x, σ)
    | none => .error .wrong

theorem load_set {σ : Store} {a x : Int} (w : Nat) (h : σ.mem.cells a = some x) :
    (Operand.place a w).load σ = .ok (wrap w x, σ) := by
  rw [Operand.load, h]

theorem load_unset {σ : Store} {a : Int} (w : Nat) (h : σ.mem.cells a = none) :
    (Operand.place a w).load σ = .error .wrong := by
  rw [Operand.load, h]

/-- The condition holds: the lowest bit is set. -/
def truth (x : Int) : Bool := wrap 1 x ≠ 0

/-- After the body of a loop, or a `break` or `continue` in it: is there another
turn? -/
def endTurn : Res (Operand × Store) → Res (Mem × Bool)
  | .ok (_, σ) => .ok (σ.mem, true)
  | .error (.exit (.continue_ m)) => .ok (m, true)
  | .error (.exit (.break_ m)) => .ok (m, false)
  | .error .wrong => .error .wrong
  | .error .timeout => .error .timeout

/-- The variables of a part that need not have run have no places. -/
def nowhere (xs : List (String × Option IntTy)) : List (String × Int) := xs.map fun p => (p.1, 0)

/-- What a call passes: the operands are read, and converted to the parameters'
types. -/
def passArgs : List (String × IntTy) → List Operand → Store → Res (List Int × Store)
  | [], _, σ | _, [], σ => .ok ([], σ)
  | p :: parms, o :: os, σ => do
    let (x, σ) ← o.load σ
    let (xs, σ) ← passArgs parms os σ
    .ok (wrap p.2.width x :: xs, σ)

/-- What a call returns; a function without a result returns 0. -/
def Sig.result (f : Sig) (x : Int) : Int := (f.ret.map fun t => wrap t.width x).getD 0

section

variable (addr : String → Int) (call : String → List Int → Mem → Res (Int × Mem)) (fuel : Nat)

/-- The place of a variable; `addr` is where the globals are. -/
def Store.find (σ : Store) (x : String) : Int := (σ.env.lookup x).getD (addr x)

namespace Form

mutual

def exec : Form → Store → Res (Operand × Store)
  | int i, σ | char i, σ => .ok (.val i, σ)
  | ident x t, σ => .ok (.place (σ.find addr x) t.width, σ)
  | var x _, σ => .ok (.val 0, σ.declare x)
  | varInit x t e, σ => do
    let (o, σ₁) ← e.exec (σ.declare x)
    let (y, σ₁) ← o.load σ₁
    .ok (.val 0, { σ₁ with mem := σ₁.mem.write σ.mem.next (wrap t.width y) })
  | assign lhs rhs, σ => do
    let (p, σ) ← lhs.exec σ
    let (o, σ) ← rhs.exec σ
    let (y, σ) ← o.load σ
    .ok (.val 0, { σ with mem := p.assign σ.mem y })
  | arith op a b, σ => do
    let (o, σ) ← a.exec σ
    let (x, σ) ← o.load σ
    let (o, σ) ← b.exec σ
    let (y, σ) ← o.load σ
    match calculate op ((arith op a b).ty.getD .bool).width x y with
    | some z => .ok (.val z, σ)
    | none => .error .wrong
  | cmp op a b, σ => do
    let (o, σ) ← a.exec σ
    let (x, σ) ← o.load σ
    let (o, σ) ← b.exec σ
    let (y, σ) ← o.load σ
    .ok (.val (bit (compare op x y)), σ)
  | not a, σ => do
    let (o, σ) ← a.exec σ
    let (x, σ) ← o.load σ
    .ok (.val (wrap (a.ty.getD .bool).width (-1 - x)), σ)
  | if_ c t e, σ => do
    let (o, σ₁) ← c.exec σ
    let (x, σ₁) ← o.load σ₁
    if truth x then
      let (o, σ₂) ← t.exec σ₁
      let (y, σ₂) ← o.load σ₂
      .ok (.val y, ⟨nowhere e.adds ++ (nowhere t.adds ++ σ₁.env), σ₂.mem⟩)
    else
      let (o, σ₂) ← e.exec ⟨nowhere t.adds ++ σ₁.env, σ₁.mem⟩
      let (y, σ₂) ← o.load σ₂
      .ok (.val (wrap (t.ty.getD .bool).width y),
        ⟨nowhere e.adds ++ (nowhere t.adds ++ σ₁.env), σ₂.mem⟩)
  | cond c body, σ => do
    let (o, σ) ← c.exec σ
    let (x, σ) ← o.load σ
    if truth x then
      let (_, σ') ← body.exec σ
      .ok (.val (wrap 1 x), ⟨nowhere body.adds ++ σ.env, σ'.mem⟩)
    else .ok (.val (wrap 1 x), ⟨nowhere body.adds ++ σ.env, σ.mem⟩)
  | while_ c body, σ => do
    let after := nowhere (body.adds ++ c.adds) ++ σ.env
    let σ ← iterate
      (fun σ₁ => do
        let (o, σ₁) ← c.exec ⟨σ.env, σ₁.mem⟩
        let (x, σ₁) ← o.load σ₁
        .ok (σ₁, truth x))
      (fun σ₁ => do
        let (m, again) ← endTurn (body.exec σ₁)
        .ok (⟨σ.env, m⟩, again))
      fuel σ
    .ok (.val 0, ⟨after, σ.mem⟩)
  | break_, σ => .error (.exit (.break_ σ.mem))
  | continue_, σ => .error (.exit (.continue_ σ.mem))
  | progn es, σ => execProgn es σ
  | scope es, σ => do
    let (o, σ') ← execProgn es σ
    .ok (o, { σ' with env := σ.env })
  | Form.call f args, σ => do
    let (os, σ) ← execArgs args σ
    let (xs, σ) ← passArgs f.parms os σ
    let (x, m) ← call f.name xs σ.mem
    .ok (.val x, { σ with mem := m })

def execProgn : List Form → Store → Res (Operand × Store)
  | [], σ => .ok (.val 0, σ)
  | [e], σ => e.exec σ
  | e :: e' :: es, σ => do
    let (_, σ) ← e.exec σ
    execProgn (e' :: es) σ

def execArgs : List Form → Store → Res (List Operand × Store)
  | [], σ => .ok ([], σ)
  | e :: es, σ => do
    let (o, σ) ← e.exec σ
    let (os, σ) ← execArgs es σ
    .ok (o :: os, σ)

end

end Form

end

/-- The variables of the parameters are declared and filled one by one. -/
def bindArgs : List (String × IntTy) → List Int → Store → Store
  | [], _, σ | _, [], σ => σ
  | p :: parms, x :: xs, σ =>
    let σ' := σ.declare p.1
    bindArgs parms xs { σ' with mem := σ'.mem.write σ.mem.next x }

/-- The result of a body is read if it has one, whatever the function returns. -/
def Operand.result (o : Operand) (t : Option IntTy) (σ : Store) : Res (Int × Store) :=
  if t.isSome then o.load σ else .ok (0, σ)

/-- A function is run. -/
def Func.exec (addr : String → Int) (call : String → List Int → Mem → Res (Int × Mem)) (fuel : Nat)
    (g : Func) (xs : List Int) (m : Mem) : Res (Int × Mem) := do
  let (o, σ) ← g.body.exec addr call fuel (bindArgs g.sig.parms xs ⟨[], m⟩)
  let (x, σ) ← o.result g.body.ty σ
  .ok (g.sig.result x, σ.mem)

/-- A call of a function of the program. -/
def callIn (addr : String → Int) (program : List Func) :
    Nat → String → List Int → Mem → Res (Int × Mem)
  | 0, _, _, _ => .error .timeout
  | fuel + 1, f, xs, m =>
    match program.find? (·.sig.name = f) with
    | none => .error .wrong
    | some g => g.exec addr (callIn addr program fuel) fuel xs m

section

-- The equations are made here, before many proofs ask for them at once.
attribute [local simp] Form.exec

end

end Dolorem.Programs
