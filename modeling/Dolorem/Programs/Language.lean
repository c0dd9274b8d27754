import Dolorem.Programs.Operators

/-!
# Programs over integers

The part of the language whose values are integers: variables, assignment,
operators, the control structures, and functions that call each other. A `Form`
is such a form with the types its evaluation finds (`ty`) written at its
variables and calls; `expr` is the form without them. `Form.ok` checks that the
types are right, and the few things about forms that evaluation does not check.
-/

namespace Dolorem.Programs

open Codegen Words

/-- An integer type, as `lower_integer_type` makes it. -/
structure IntTy where
  width : Nat
  flag : Bool
deriving DecidableEq, Repr

namespace IntTy

def rtt (t : IntTy) : Rtt := lowerIntegerType t.width t.flag

/-- The type of an operation: that of the wider operand, or of the left one. -/
def join (t u : IntTy) : IntTy := if t.width < u.width then u else t

def bool : IntTy := ⟨1, false⟩

end IntTy

/-- The head of a function. A function without `ret` is `void`. -/
structure Sig where
  name : String
  ret : Option IntTy
  parms : List (String × IntTy)
deriving DecidableEq, Repr

def voidType : Rtt := ⟨.void, .void⟩

def Sig.fn (f : Sig) : Fun where
  name := f.name
  ret := (f.ret.map IntTy.rtt).getD voidType
  parms := f.parms.map fun p => (p.1, p.2.rtt)
  vaArgs := false

/-- `var` is `(var t x)` and `varInit` is `(var t x e)`. -/
inductive Form where
  | int (i : Int)
  | char (c : Int)
  | ident (x : String) (t : IntTy)
  | var (x : String) (t : IntTy)
  | varInit (x : String) (t : IntTy) (e : Form)
  | assign (lhs rhs : Form)
  | arith (op : ArithOp) (a b : Form)
  | cmp (op : CmpOp) (a b : Form)
  | not (a : Form)
  | if_ (c t e : Form)
  | cond (c body : Form)
  | while_ (c body : Form)
  | break_
  | continue_
  | progn (es : List Form)
  | scope (es : List Form)
  | call (f : Sig) (args : List Form)
deriving Repr

/-- A function definition. -/
structure Func where
  sig : Sig
  body : Form
deriving Repr

namespace Form

mutual

def expr : Form → Expr
  | int i => .int i
  | char c => .char c
  | ident x _ => .ident x
  | var x t => .progn [.var x t.rtt, .progn []]
  | varInit x t e => .assign (.var x t.rtt) e.expr
  | assign lhs rhs => .assign lhs.expr rhs.expr
  | arith op a b => .arith op a.expr b.expr
  | cmp op a b => .cmp op a.expr b.expr
  | not a => .not a.expr
  | if_ c t e => .if_ c.expr t.expr e.expr
  | cond c body => .cond c.expr body.expr
  | while_ c body => .while_ c.expr body.expr
  | break_ => .break_
  | continue_ => .continue_
  | progn es => .progn (exprs es)
  | scope es => .scope (exprs es)
  | call f args => .call f.name (exprs args)

def exprs : List Form → List Expr
  | [] => []
  | e :: es => e.expr :: exprs es

end

/-! ## Types -/

mutual

/-- The type of the result. `cond` returns its condition. -/
def ty : Form → Option IntTy
  | int _ => some ⟨64, true⟩
  | char _ => some ⟨8, false⟩
  | ident _ t => some t
  | arith _ a b => a.ty.bind fun t => b.ty.map t.join
  | cmp _ _ _ | cond _ _ => some .bool
  | not a => a.ty
  | if_ _ t _ => t.ty
  | progn es | scope es => lastTy es
  | call f _ => f.ret
  | var _ _ | varInit _ _ _ | assign _ _ | while_ _ _ | break_ | continue_ => none

def lastTy : List Form → Option IntTy
  | [] => none
  | [e] => e.ty
  | _ :: es => lastTy es

end

mutual

/-- The result is an l-value. -/
def lval : Form → Bool
  | ident _ _ => true
  | progn es | scope es => lastLval es
  | _ => false

def lastLval : List Form → Bool
  | [] => false
  | [e] => e.lval
  | _ :: es => lastLval es

end

mutual

/-- The code of the form stays in one block. -/
def flat : Form → Bool
  | if_ _ _ _ | cond _ _ | while_ _ _ | break_ | continue_ => false
  | int _ | char _ | ident _ _ | var _ _ => true
  | varInit _ _ e | not e => e.flat
  | assign a b | arith _ a b | cmp _ a b => a.flat && b.flat
  | progn es | scope es | call _ es => allFlat es

def allFlat : List Form → Bool
  | [] => true
  | e :: es => e.flat && allFlat es

end

/-! ## Variables -/

/-- The variables of a part that need not have run: they are known to the
compiler, and must not be used. -/
def hide (xs : List (String × Option IntTy)) : List (String × Option IntTy) :=
  xs.map fun p => (p.1, none)

mutual

/-- The variables that evaluation adds to the innermost scope, latest first. -/
def adds : Form → List (String × Option IntTy)
  | int _ | char _ | ident _ _ | break_ | continue_ | scope _ => []
  | var x t => [(x, some t)]
  | varInit x t e => e.adds ++ [(x, some t)]
  | not a => a.adds
  | assign a b | arith _ a b | cmp _ a b => b.adds ++ a.adds
  | if_ c t e => hide e.adds ++ (hide t.adds ++ c.adds)
  | cond c body => hide body.adds ++ c.adds
  | while_ c body => hide (body.adds ++ c.adds)
  | progn es | call _ es => addsAll es

def addsAll : List Form → List (String × Option IntTy)
  | [] => []
  | e :: es => addsAll es ++ e.adds

end

end Form

/-- What is known where a form stands. -/
structure Ctx where
  vars : List (String × Option IntTy)
  globals : List (String × IntTy)
  funs : List Sig
  inLoop : Bool
deriving Repr

namespace Ctx

def add (Γ : Ctx) (xs : List (String × Option IntTy)) : Ctx := { Γ with vars := xs ++ Γ.vars }

def loop (Γ : Ctx) : Ctx := { Γ with inLoop := true }

/-- The type of a variable: of the current function, or else a global. -/
def find (Γ : Ctx) (x : String) : Option IntTy :=
  match Γ.vars.lookup x with
  | some t => t
  | none => Γ.globals.lookup x

@[simp] theorem add_nil (Γ : Ctx) : Γ.add [] = Γ := rfl

theorem add_add (Γ : Ctx) (xs ys : List (String × Option IntTy)) :
    (Γ.add xs).add ys = Γ.add (ys ++ xs) := by
  simp [add]

end Ctx

namespace Form

mutual

/-- The check. Literals are what the reader makes, operands have types, and the
branches of `if` have no blocks of their own. -/
def ok : Form → Ctx → Bool
  | int i, _ => Fits 64 i
  | char c, _ => Fits 8 c
  | ident x t, Γ => Γ.find x = some t
  | var _ _, _ => true
  | varInit x t e, Γ => e.ok (Γ.add [(x, some t)]) && e.ty.isSome
  | assign lhs rhs, Γ =>
    lhs.ok Γ && rhs.ok (Γ.add lhs.adds) && lhs.lval && lhs.ty.isSome && rhs.ty.isSome
  | arith _ a b, Γ | cmp _ a b, Γ =>
    a.ok Γ && b.ok (Γ.add a.adds) && a.ty.isSome && b.ty.isSome
  | not a, Γ => a.ok Γ && a.ty.isSome
  | if_ c t e, Γ =>
    c.ok Γ && t.ok (Γ.add c.adds) && e.ok (Γ.add (hide t.adds ++ c.adds)) &&
      c.ty.isSome && t.ty.isSome && e.ty.isSome && !t.lval && t.flat && e.flat
  | cond c body, Γ => c.ok Γ && body.ok (Γ.add c.adds) && c.ty.isSome
  | while_ c body, Γ => c.ok Γ && body.ok (Γ.add c.adds).loop && c.ty.isSome
  | break_, Γ | continue_, Γ => Γ.inLoop
  | progn es, Γ | scope es, Γ => allOk es Γ
  | call f args, Γ =>
    Γ.funs.contains f && allOk args Γ && args.all (·.ty.isSome) && args.length = f.parms.length

def allOk : List Form → Ctx → Bool
  | [], _ => true
  | e :: es, Γ => e.ok Γ && allOk es (Γ.add e.adds)

end

end Form

/-- The context of a function's body. The last parameter is found first. -/
def Sig.ctx (f : Sig) (globals : List (String × IntTy)) (funs : List Sig) : Ctx where
  vars := (f.parms.map fun p => (p.1, some p.2)).reverse
  globals := globals
  funs := funs
  inLoop := false

/-- The body suits the head, and returns something if the function does. -/
def Func.ok (g : Func) (globals : List (String × IntTy)) (funs : List Sig) : Bool :=
  g.body.ok (g.sig.ctx globals funs) && (g.sig.ret.isNone || g.body.ty.isSome)

/-- `(defun ...)` -/
def Func.expr (g : Func) : Expr := .defun g.sig.fn g.body.expr

/-- The functions of a program call the ones before them, and no two have one
name. A function that calls itself compiles too, but the JIT does not link it. -/
def okFrom (globals : List (String × IntTy)) : List Sig → List Func → Bool
  | _, [] => true
  | funs, g :: gs =>
    g.ok globals funs && funs.all (·.name ≠ g.sig.name) && okFrom globals (g.sig :: funs) gs

section

-- The equations are made here, before many proofs ask for them at once.
attribute [local simp] Form.expr Form.ty Form.lval Form.flat Form.adds Form.ok

end

end Dolorem.Programs
