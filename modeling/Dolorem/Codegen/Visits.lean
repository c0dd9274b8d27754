import Dolorem.Codegen.Parts

/-!
# The states evaluation comes to

`Subeval run e s e' s'`: the evaluation of `e` in the state `s` evaluates its
part `e'`, in the state `s'`. `Visits` is any number of such steps, so a property
of every form that is evaluated, wherever it is nested, is stated over it.
An evaluation that stops with an error visits what it came to before.
-/

namespace Dolorem.Codegen

section

variable (run : Nat → Bool)

/-- The lists of expressions of `progn` and `funcall`. -/
inductive InProgn : List Expr → St → Expr → St → Prop
  | head (e : Expr) (es : List Expr) (s : St) : InProgn (e :: es) s e s
  | tail {e e' : Expr} {es : List Expr} {s s₁ s' : St} {r : Rtv} :
      eval run e s = .ok (r, s₁) → InProgn es s₁ e' s' → InProgn (e :: es) s e' s'

/-- The unquoted expressions of a quotation. -/
inductive Unquotes : Quoted → St → Expr → St → Prop
  | here (e : Expr) (s : St) : Unquotes (.unquote e) s e s
  | car {a d : Quoted} {e : Expr} {s s' : St} : Unquotes a s e s' → Unquotes (.cons a d) s e s'
  | cdr {a d : Quoted} {e : Expr} {s s₁ s' : St} {v : Value} :
      lowerQuote run a s = .ok (v, s₁) → Unquotes d s₁ e s' → Unquotes (.cons a d) s e s'

inductive Subeval : Expr → St → Expr → St → Prop
  | call {name : String} {f : Fun} {args : List Expr} {e : Expr} {s s' : St} :
      s.funs.lookup name = some f → InProgn run args (s.requireFunction f).2 e s' →
      Subeval (.call name args) s e s'
  | progn {es : List Expr} {e : Expr} {s s' : St} :
      InProgn run es s e s' → Subeval (.progn es) s e s'
  | freeScope {es : List Expr} {e : Expr} {s s' : St} :
      s.curfn = none → InProgn run es s e s' → Subeval (.scope es) s e s'
  | scope {es : List Expr} {e : Expr} {s s' : St} {scopes : List (List FunVar)} :
      s.curfn = some scopes → InProgn run es { s with curfn := some ([] :: scopes) } e s' →
      Subeval (.scope es) s e s'
  | condTest (c body : Expr) (s : St) : Subeval (.cond c body) s c s
  | condBody {c body : Expr} {s s₁ s₂ : St} {cv cb : Rtv} {fn : Nat} :
      eval run c s = .ok (cv, s₁) → toCondition cv s₁ = .ok (cb, s₂) → s₂.curllvmfn = some fn →
      Subeval (.cond c body) s body (guardStart fn cb.v s₂)
  | ifTest {c t e : Expr} {s : St} {fn : Nat} :
      s.curllvmfn = some fn → Subeval (.if_ c t e) s c (threeBlocks fn s)
  | ifThen {c t e : Expr} {s s₁ s₂ : St} {cv cb : Rtv} {fn : Nat} :
      s.curllvmfn = some fn → eval run c (threeBlocks fn s) = .ok (cv, s₁) →
      toCondition cv s₁ = .ok (cb, s₂) →
      Subeval (.if_ c t e) s t (thenStart s.graph.size cb.v s₂)
  | ifElse {c t e : Expr} {s s₁ s₂ s₃ : St} {cv cb rt : Rtv} {fn : Nat} :
      s.curllvmfn = some fn → eval run c (threeBlocks fn s) = .ok (cv, s₁) →
      toCondition cv s₁ = .ok (cb, s₂) →
      eval run t (thenStart s.graph.size cb.v s₂) = .ok (rt, s₃) →
      Subeval (.if_ c t e) s e (elseStart s.graph.size s₃)
  | whileTest {c body : Expr} {s : St} {fn : Nat} :
      s.curllvmfn = some fn → Subeval (.while_ c body) s c (testStart fn s)
  | whileBody {c body : Expr} {s s₁ s₂ : St} {cv cb : Rtv} {fn : Nat} :
      s.curllvmfn = some fn → eval run c (testStart fn s) = .ok (cv, s₁) →
      toCondition cv s₁ = .ok (cb, s₂) →
      Subeval (.while_ c body) s body
        ((loopStart s.graph.size cb.v s₂).enterLoop s.graph.size (s.graph.size + 2))
  | arithLeft (op : ArithOp) (a b : Expr) (s : St) : Subeval (.arith op a b) s a s
  | arithRight {op : ArithOp} {a b : Expr} {s s₁ s₂ : St} {v w : Rtv} :
      eval run a s = .ok (v, s₁) → prepareRead v s₁ = .ok (w, s₂) →
      Subeval (.arith op a b) s b s₂
  | cmpLeft (op : CmpOp) (a b : Expr) (s : St) : Subeval (.cmp op a b) s a s
  | cmpRight {op : CmpOp} {a b : Expr} {s s₁ s₂ : St} {v w : Rtv} :
      eval run a s = .ok (v, s₁) → prepareRead v s₁ = .ok (w, s₂) →
      Subeval (.cmp op a b) s b s₂
  | not (a : Expr) (s : St) : Subeval (.not a) s a s
  | defun {f : Fun} {body : Expr} {s s₁ : St} :
      registerNew f s = .ok s₁ → s₁.precompiled = true →
      Subeval (.defun f body) s body (enterFunction f false s₁)
  | defmacro {name : String} {body : Expr} {s : St} :
      s.precompiled = true →
      Subeval (body |> Expr.defmacro name) s body
        (enterFunction (macroproto name) false (s.register (macroproto name)))
  | deftypemacro {name : String} {body : Expr} {s : St} :
      s.precompiled = true →
      Subeval (body |> Expr.deftypemacro name) s body
        (enterFunction (typemacroproto name) false (s.register (typemacroproto name)))
  | lambda {fileIdx charIdx : Nat} {ret : Rtt} {parms : List (String × Rtt)} {vaArgs : Bool}
      {body : Expr} {s : St} :
      s.precompiled = true →
      Subeval (.lambda fileIdx charIdx ret parms vaArgs body) s body
        (enterFunction ⟨lambdaName fileIdx charIdx, ret, parms, vaArgs⟩ true s)
  | staticTest {c body : Expr} {s s₁ : St} :
      registerNew (condFun (s.staticCondNumber + 1))
        { s with staticCondNumber := s.staticCondNumber + 1 } = .ok s₁ → s₁.precompiled = true →
      Subeval (.staticCond c body) s c
        (enterFunction (condFun (s.staticCondNumber + 1)) false s₁)
  | staticBody {c body : Expr} {s s₁ s₂ : St} :
      registerNew (condFun (s.staticCondNumber + 1))
        { s with staticCondNumber := s.staticCondNumber + 1 } = .ok s₁ →
      funbody (eval run c) (condFun (s.staticCondNumber + 1)) false s₁ = .ok s₂ →
      run (s.staticCondNumber + 1) = true → Subeval (.staticCond c body) s body s₂
  | assignLeft (a b : Expr) (s : St) : Subeval (.assign a b) s a s
  | assignRight {a b : Expr} {s s₁ : St} {v : Rtv} :
      eval run a s = .ok (v, s₁) → Subeval (.assign a b) s b s₁
  | quote {q : Quoted} {e : Expr} {s s' : St} :
      Unquotes run q s.setupQuote e s' → Subeval (.quote q) s e s'

/-- Evaluating the first expression in the first state comes to evaluating the
second one in the second state. -/
def Visits : Expr × St → Expr × St → Prop :=
  Relation.ReflTransGen fun p q => Subeval run p.1 p.2 q.1 q.2

end

end Dolorem.Codegen
