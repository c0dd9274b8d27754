import Dolorem.Codegen.Eval

/-!
# What `break` and `continue` mean

`Obeys l e s`: every `break` and `continue` that is evaluated in the course of
evaluating `e` in the state `s` follows the text. It branches to a block of the
innermost `while` around it in the function being built, or it is reported where
there is none. Here `l` is the innermost `while` around `e`. The body of a
`while` is inside it, its condition is not; the body of a function starts inside
no `while`, wherever the function is defined.
-/

namespace Dolorem.Codegen

open CodeGraph

/-- A `while`, by two of its blocks. -/
structure Loop where
  cond : Nat
  after : Nat
deriving DecidableEq, Repr

variable (run : Nat → Bool)

/-- The expression `e`, a `break` or `continue`, follows the text in state `s`. -/
def Jumps (l : Option Loop) (dest : Loop → Nat) (msg : String) (e : Expr) (s : St) : Prop :=
  match l with
  | some loop => ∃ fn r s', s.curllvmfn = some fn ∧ s.graph.owner? (dest loop) = some fn ∧
      eval run e s = .ok (r, s') ∧ s'.graph.at? s.here = some (.br (dest loop))
  | none => eval run e s = .error (.error msg)

mutual

def Obeys : Option Loop → Expr → St → Prop
  | l, .break_, s => Jumps run l Loop.after "break outside of loop" .break_ s
  | l, .continue_, s => Jumps run l Loop.cond "continue outside of loop" .continue_ s
  | _, .form _ _, _ | _, .int _, _ | _, .float _, _ | _, .string _, _ | _, .char _, _
  | _, .ident _, _ | _, .var _ _, _ | _, .funptrTo _, _ => True
  | l, .call name args, s => ∀ f, s.funs.lookup name = some f →
      ObeysArgs l args (s.requireFunction f).2
  | l, .progn es, s => ObeysProgn l es s
  | l, .scope es, s =>
    match s.curfn with
    | none => ObeysProgn l es s
    | some scopes => ObeysProgn l es { s with curfn := some ([] :: scopes) }
  | l, .cond c body, s => Obeys l c s ∧ ∀ cv s₁ cb s₂ b₁ s₃ b₂ s₄,
      eval run c s = .ok (cv, s₁) → toCondition cv s₁ = .ok (cb, s₂) →
      s₂.appendBlock = .ok (b₁, s₃) → s₃.appendBlock = .ok (b₂, s₄) →
      Obeys l body ((s₄.emit (.condBr cb.v b₁ b₂)).position b₁)
  | l, .if_ c t e, s => ∀ b₁ s₁ b₂ s₂ b₃ s₃,
      s.appendBlock = .ok (b₁, s₁) → s₁.appendBlock = .ok (b₂, s₂) →
      s₂.appendBlock = .ok (b₃, s₃) → Obeys l c s₃ ∧ ∀ cv s₄ cb s₅,
        eval run c s₃ = .ok (cv, s₄) → toCondition cv s₄ = .ok (cb, s₅) →
        Obeys l t ((s₅.emit (.condBr cb.v b₁ b₂)).position b₁) ∧ ∀ v s₆,
          eval run t ((s₅.emit (.condBr cb.v b₁ b₂)).position b₁) = .ok (v, s₆) →
          Obeys l e ((s₆.emit (.br b₃)).position b₂)
  | l, .while_ c body, s => ∀ b₁ s₁ b₂ s₂ b₃ s₃,
      s.appendBlock = .ok (b₁, s₁) → s₁.appendBlock = .ok (b₂, s₂) →
      s₂.appendBlock = .ok (b₃, s₃) →
      Obeys l c ((s₃.emit (.br b₁)).position b₁) ∧ ∀ cv s₄ cb s₅,
        eval run c ((s₃.emit (.br b₁)).position b₁) = .ok (cv, s₄) →
        toCondition cv s₄ = .ok (cb, s₅) →
        Obeys (some ⟨b₁, b₃⟩) body
          (((s₅.emit (.condBr cb.v b₂ b₃)).position b₂).enterLoop b₁ b₃)
  | l, .arith _ a b, s | l, .cmp _ a b, s => Obeys l a s ∧ ∀ v s₁ w s₂,
      eval run a s = .ok (v, s₁) → prepareRead v s₁ = .ok (w, s₂) → Obeys l b s₂
  | l, .not a, s => Obeys l a s
  | _, .defun f body, s => ∀ s₁, registerNew f s = .ok s₁ → s₁.precompiled = true →
      Obeys none body (enterFunction f false s₁)
  | _, Expr.defmacro name body, s => s.precompiled = true →
      Obeys none body (enterFunction (macroproto name) false (s.register (macroproto name)))
  | _, .lambda fileIdx charIdx ret parms vaArgs body, s => s.precompiled = true →
      Obeys none body (enterFunction ⟨lambdaName fileIdx charIdx, ret, parms, vaArgs⟩ true s)
  | l, .staticCond c body, s => ∀ s₁,
      registerNew (condFun (s.staticCondNumber + 1))
        { s with staticCondNumber := s.staticCondNumber + 1 } = .ok s₁ →
      (s₁.precompiled = true →
        Obeys none c (enterFunction (condFun (s.staticCondNumber + 1)) false s₁)) ∧
      ∀ s₂, funbody (eval run c) (condFun (s.staticCondNumber + 1)) false s₁ = .ok s₂ →
        run (s.staticCondNumber + 1) = true → Obeys l body s₂
  | _, Expr.deftypemacro name body, s => s.precompiled = true →
      Obeys none body (enterFunction (typemacroproto name) false (s.register (typemacroproto name)))
  | l, .assign lhs rhs, s => Obeys l lhs s ∧ ∀ r s₁, eval run lhs s = .ok (r, s₁) → Obeys l rhs s₁
  | l, .quote q, s => ObeysQuoted l q s.setupQuote

def ObeysQuoted : Option Loop → Quoted → St → Prop
  | l, .cons a d, s => ObeysQuoted l a s ∧ ∀ v s₁, lowerQuote run a s = .ok (v, s₁) →
      ObeysQuoted l d s₁
  | l, .unquote e, s => Obeys l e s
  | _, _, _ => True

def ObeysProgn : Option Loop → List Expr → St → Prop
  | _, [], _ => True
  | l, e :: es, s => Obeys l e s ∧ ∀ r s₁, eval run e s = .ok (r, s₁) → ObeysProgn l es s₁

def ObeysArgs : Option Loop → List Expr → St → Prop
  | _, [], _ => True
  | l, e :: es, s => Obeys l e s ∧ ∀ r s₁, eval run e s = .ok (r, s₁) → ObeysArgs l es s₁

end

variable {run : Nat → Bool} {l : Option Loop} {e : Expr} {es : List Expr} {s : St}

theorem obeys_progn : Obeys run l (.progn es) s ↔ ObeysProgn run l es s := by
  rw [Obeys]

theorem obeysProgn_nil : ObeysProgn run l [] s := by
  rw [ObeysProgn]
  trivial

theorem obeysProgn_cons : ObeysProgn run l (e :: es) s ↔
    Obeys run l e s ∧ ∀ r s₁, eval run e s = .ok (r, s₁) → ObeysProgn run l es s₁ := by
  rw [ObeysProgn]

end Dolorem.Codegen
