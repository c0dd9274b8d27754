import Mathlib.Order.Filter.AtTopBot.Basic
import Dolorem.Codegen.Eval
import Dolorem.Codegen.TypeExprs

/-!
# Evaluation of trees

`eval` on the trees the reader returns. `eval_call` looks up the name in front
and calls a macro with the list of its arguments, or a function. The macros take
their arguments out of the list with `car` and `cdr` and hand them back to
`eval`. `spelled_evaluates`: a tree that spells an expression is evaluated like the
expression. What the macros do not look at may be anything.

The depth of the recursion is bounded by `fuel`, and the table of types does not
change. Macros other than the ones below are a parameter, and so are the
addresses of the properties that type macros allocate.
-/

namespace Dolorem.Codegen

open Reader (Sexp)

/-- Macros that are registered when a program starts. -/
inductive BuiltIn where
  | progn
  | scope
  | cond
  | if_
  | while_
  | break_
  | continue_
  | not
  | arith (op : ArithOp)
  | cmp (op : CmpOp)
  | var
  | assign
  | defun
  | funptrTo
deriving DecidableEq, Repr

/-- Their names, as the reader returns them: with `_` for `-`. -/
def builtIns : List (List Char × BuiltIn) := [
  ("progn".toList, .progn),
  ("scope".toList, .scope),
  ("cond".toList, .cond),
  ("if".toList, .if_),
  ("while".toList, .while_),
  ("break".toList, .break_),
  ("continue".toList, .continue_),
  ("not".toList, .not),
  ("+".toList, .arith .add),
  ("_".toList, .arith .sub),
  ("*".toList, .arith .mul),
  ("/".toList, .arith .div),
  ("&&".toList, .arith .and),
  ("||".toList, .arith .or),
  ("<<".toList, .arith .shl),
  (">>".toList, .arith .shr),
  ("mod".toList, .arith .mod),
  ("=".toList, .cmp .eq),
  ("!=".toList, .cmp .ne),
  (">".toList, .cmp .gt),
  (">=".toList, .cmp .ge),
  ("<".toList, .cmp .lt),
  ("<=".toList, .cmp .le),
  ("var".toList, .var),
  ("assign".toList, .assign),
  ("defun".toList, .defun),
  ("funptr_to".toList, .funptrTo)]

/-- `cadr`. -/
def cadr (l : Sexp) : Except Halt Sexp := cdr l >>= car

/-- `caddr`. -/
def caddr (l : Sexp) : Except Halt Sexp := cdr l >>= cadr

/-- `cadddr`. -/
def cadddr (l : Sexp) : Except Halt Sexp := cdr l >>= caddr

/-! ## The macros -/

section

variable (macros : List Char → Option (Sexp → St → Except Halt (Rtv × St)))
  (ev : Sexp → St → Except Halt (Rtv × St)) (Γ : Types) (next : St → Nat)

/-- `progn`. -/
def prognVal : Sexp → St → Except Halt (Rtv × St)
  | .nil, s => .ok (nullRtv, s)
  | .cons e .nil, s => ev e s
  | .cons e l, s => do
    let (_, s) ← ev e s
    prognVal l s
  | _, _ => .error (.error "can't take \"car\" of non-list")

/-- `scope`. -/
def scopeVal (args : Sexp) (s : St) : Except Halt (Rtv × St) :=
  match s.curfn with
  | none => prognVal ev args s
  | some scopes => do
    let (r, s) ← prognVal ev args { s with curfn := some ([] :: scopes) }
    .ok (r, s.popScope)

/-- `cond`, with `lower-cond`. -/
def condVal (args : Sexp) (s : St) : Except Halt (Rtv × St) := do
  let (cv, s) ← ev (← car args) s
  let (cv, s) ← toCondition cv s
  let body ← cadr args
  let (block1, s) ← s.appendBlock
  let (block2, s) ← s.appendBlock
  let s := (s.emit (.condBr cv.v block1 block2)).position block1
  let (_, s) ← ev body s
  .ok (cv, (s.emit (.br block2)).position block2)

/-- `if`. -/
def ifVal (args : Sexp) (s : St) : Except Halt (Rtv × St) := do
  let (ifblk, s) ← s.appendBlock
  let (elseblk, s) ← s.appendBlock
  let (afterif, s) ← s.appendBlock
  let (cv, s) ← ev (← car args) s
  let (cv, s) ← toCondition cv s
  let s := (s.emit (.condBr cv.v ifblk elseblk)).position ifblk
  let (ifres, s) ← ev (← cadr args) s
  let s := (s.emit (.br afterif)).position elseblk
  let (ev', s) ← ev (← caddr args) s
  let dest ← unwrapType ifres
  let (elseres, s) ← convertType ev' dest 0 s
  let s := (s.emit (.br afterif)).position afterif
  let (phi, s) ← s.buildPhi dest.l
  match elseres with
  | none => .error .crash
  | some elseres =>
    let s := s.addIncoming phi ifres.v ifblk
    let s := s.addIncoming phi elseres.v elseblk
    .ok ({ ifres with v := phi }, s)

/-- `while`. -/
def whileVal (args : Sexp) (s : St) : Except Halt (Rtv × St) := do
  let (cond, s) ← s.appendBlock
  let (loop, s) ← s.appendBlock
  let (after, s) ← s.appendBlock
  let s := (s.emit (.br cond)).position cond
  let (cv, s) ← ev (← car args) s
  let (cv, s) ← toCondition cv s
  let s := (s.emit (.condBr cv.v loop after)).position loop
  let (_, s') ← ev (← cadr args) (s.enterLoop cond after)
  let s := s.restoreLoop s'
  .ok (nullRtv, (s.emit (.br cond)).position after)

/-- `break`. -/
def breakVal (s : St) : Except Halt (Rtv × St) :=
  if s.whileInLoop then jumpOut s.whileLastAfterBlock s
  else .error (.error "break outside of loop")

/-- `continue`. -/
def continueVal (s : St) : Except Halt (Rtv × St) :=
  if s.whileInLoop then jumpOut s.whileLastCondBlock s
  else .error (.error "continue outside of loop")

/-- `not`, with `lower-not`. -/
def notVal (args : Sexp) (s : St) : Except Halt (Rtv × St) := do
  let (v, s) ← ev (← car args) s
  let (v, s) ← prepareRead v s
  let (n, s) := s.build (.not v.v) v.v.ty
  .ok ({ v with v := n }, s)

/-- The operands of a macro of `arithmetic-op` or `comparison-op`. -/
def operandsVal (args : Sexp) (s : St) : Except Halt ((Rtv × Rtv) × St) := do
  let (left, s) ← ev (← car args) s
  let (left, s) ← prepareRead left s
  let (right, s) ← ev (← cadr args) s
  let (right, s) ← prepareRead right s
  expectSameNumber left right s

/-- The macros `arithmetic-op` defines. -/
def arithVal (op : ArithOp) (args : Sexp) (s : St) : Except Halt (Rtv × St) := do
  let ((left, right), s) ← operandsVal ev args s
  buildArith op left right s

/-- The macros `comparison-op` defines. -/
def cmpVal (op : CmpOp) (args : Sexp) (s : St) : Except Halt (Rtv × St) := do
  let ((left, right), s) ← operandsVal ev args s
  .ok (buildCmp op left right s)

/-- `var`, with `var-assign-helper`. -/
def varVal (args : Sexp) (s : St) : Except Halt (Rtv × St) := do
  let name ← expectIdent (← cadr args)
  let (t, _) ← evalType Γ (← car args) (next s)
  let (v, s) ← addVariable (String.ofList name) t s
  let init ← cdr (← cdr args)
  if init = .nil then .ok (nullRtv, s)
  else do
    let (r, s) ← ev (← car init) s
    let s ← lowerAssign v r s
    .ok (nullRtv, s)

/-- `assign`. -/
def assignVal (args : Sexp) (s : St) : Except Halt (Rtv × St) := do
  let (lhs, s) ← ev (← car args) s
  let (rhs, s) ← ev (← cadr args) s
  if (← cdr (← cdr args)) ≠ .nil then .error (.error "excess elements in \"assign\"")
  else do
    let s ← lowerAssign lhs rhs s
    .ok (nullRtv, s)

/-- The function type `parse_parms` and `eval_type` describe. -/
def ParmList.toFun (ps : ParmList) (name : List Char) (ret : Rtt) : Fun where
  name := String.ofList name
  ret := ret
  parms := (ps.parms.take ps.nparms).map fun p => (String.ofList (p.name.getD []), p.t)
  vaArgs := ps.vaArgs

/-- `defun`. The names of macros are taken. -/
def defunVal (args : Sexp) (s : St) : Except Halt (Rtv × St) := do
  match ← car args with
  | .ident name =>
    let parms ← cadr args
    if !parms.isList then
      .error (.error "expected list of parameters in function definition")
    else do
      let ret ← caddr args
      if (← cdr (← cdr (← cdr (← cdr args)))) ≠ .nil then
        .error (.error "more arguments than expected in function definition")
      else do
        let body ← cadddr args
        if body = .nil then .error (.error "expected function body")
        else do
          let (ret, n) ← evalType Γ ret (next s)
          let (ps, _) ← parseParms Γ parms n
          let f := ps.toFun name ret
          if (builtIns.lookup name).isSome ∨ (macros name).isSome then
            .error (.error "function already exists: \"%s\"")
          else do
            let s ← registerNew f s
            let s ← funbody (ev body) f false s
            .ok (nullRtv, s)
  | _ => .error (.error "expected name in function")

/-- `lookup_fun`, which finds macros as well. -/
def lookupFunVal (x : List Char) (s : St) : Option Fun :=
  if (builtIns.lookup x).isSome ∨ (macros x).isSome then some (macroproto (String.ofList x))
  else s.funs.lookup (String.ofList x)

/-- `funptr-to`. -/
def funptrToVal (args : Sexp) (s : St) : Except Halt (Rtv × St) := do
  let name ← car args
  if name = .nil ∨ (← cdr args) ≠ .nil then
    .error (.error "expected exactly one argument to \"funptr-to\"")
  else
    match name with
    | .ident x =>
      match lookupFunVal macros x s with
      | none => .error (.error "unknown function \"%s\"")
      | some f =>
        let (fn, s) := s.requireFunction f
        .ok (⟨fn, .funptr s.fns.length, false⟩, s)
    | _ => .error (.error "expected function name")

/-- `call_fun_macro` on one of the macros above. -/
def callMacro : BuiltIn → Sexp → St → Except Halt (Rtv × St)
  | .progn => prognVal ev
  | .scope => scopeVal ev
  | .cond => condVal ev
  | .if_ => ifVal ev
  | .while_ => whileVal ev
  | .break_ => fun _ => breakVal
  | .continue_ => fun _ => continueVal
  | .not => notVal ev
  | .arith op => arithVal ev op
  | .cmp op => cmpVal ev op
  | .var => varVal ev Γ next
  | .assign => assignVal ev
  | .defun => defunVal macros ev Γ next
  | .funptrTo => funptrToVal macros

/-- The loop of `funcall` over its arguments. -/
def argsVal : Sexp → St → Except Halt (List Rtv × St)
  | .cons e l, s => do
    let (v, s) ← ev e s
    if l = .nil then .ok ([v], s)
    else do
      let (vs, s) ← argsVal l s
      .ok (v :: vs, s)
  | _, _ => .error (.error "can't take \"car\" of non-list")

/-- `funcall`. -/
def funcallVal (f : Fun) (args : Sexp) (s : St) : Except Halt (Rtv × St) := do
  let (fn, s) := s.requireFunction f
  let (vs, s) ← if countLen args = 0 then .ok ([], s) else argsVal ev args s
  lowerFuncall fn f vs s

end

/-! ## The evaluator -/

section

variable (macros : List Char → Option (Sexp → St → Except Halt (Rtv × St))) (Γ : Types)
  (next : St → Nat)

/-- `eval`, with `eval_call`. -/
def evalVal : Nat → Sexp → St → Except Halt (Rtv × St)
  | 0, _, _ => .error .crash
  | fuel + 1, e, s =>
    match e with
    | .cons (.ident x) args =>
      match builtIns.lookup x with
      | some m => callMacro macros (evalVal fuel) Γ next m args s
      | none =>
        match macros x with
        | some m => m args s
        | none =>
          match s.funs.lookup (String.ofList x) with
          | none => .error (.error "unknown function \"%s\"")
          | some f => funcallVal (evalVal fuel) f args s
    | .cons _ _ | .nil => .error (.error "expected function name")
    | .int i => .ok (makeIntConst i, s)
    | .float tok => .ok (⟨⟨.real tok, .double⟩, .float 2, false⟩, s)
    | .string str =>
      .ok (⟨⟨.str str, .ptr (.int 8)⟩, (lowerPointerType (lowerIntegerType 8 false)).t, false⟩, s)
    | .char c => .ok (⟨⟨.const c, .int 8⟩, (lowerIntegerType 8 false).t, false⟩, s)
    | .ident x => evalIdent (String.ofList x) s

end

/-! ## Spelling -/

section

variable (macros : List Char → Option (Sexp → St → Except Halt (Rtv × St))) (Γ : Types)

/-- A type expression that always means `t`. -/
def NamesType (T : Sexp) (t : Rtt) : Prop := ∀ n, ∃ n', evalType Γ T n = .ok (t, n')

/-- A parameter list and a return type that always make `f`. -/
def Heads (name : List Char) (P R : Sexp) (f : Fun) : Prop :=
  ∀ n, ∃ ret n₁ ps n₂, evalType Γ R n = .ok (ret, n₁) ∧ parseParms Γ P n₁ = .ok (ps, n₂) ∧
    ps.toFun name ret = f

mutual

/-- `T` is a way to write the expression down. A macro may get more arguments
than it looks at. -/
inductive Spells : Expr → Sexp → Prop
  | int (i : Int) : Spells (.int i) (.int i)
  | float (tok : List Char) : Spells (.float tok) (.float tok)
  | string (str : List Char) : Spells (.string str) (.string str)
  | char (c : Int) : Spells (.char c) (.char c)
  | ident (x : List Char) : Spells (.ident (String.ofList x)) (.ident x)
  | call {x : List Char} {es : List Expr} {args : Sexp} : builtIns.lookup x = none →
      macros x = none → SpellsAll es args → Spells (.call (String.ofList x) es) (.cons (.ident x) args)
  | progn {x : List Char} {es : List Expr} {args : Sexp} : builtIns.lookup x = some .progn →
      SpellsAll es args → Spells (.progn es) (.cons (.ident x) args)
  | scope {x : List Char} {es : List Expr} {args : Sexp} : builtIns.lookup x = some .scope →
      SpellsAll es args → Spells (.scope es) (.cons (.ident x) args)
  | cond {x : List Char} {c body : Expr} {C B more : Sexp} : builtIns.lookup x = some .cond →
      Spells c C → Spells body B → Spells (.cond c body) (.cons (.ident x) (.cons C (.cons B more)))
  | if_ {x : List Char} {c t e : Expr} {C T E more : Sexp} : builtIns.lookup x = some .if_ →
      Spells c C → Spells t T → Spells e E →
      Spells (.if_ c t e) (.cons (.ident x) (.cons C (.cons T (.cons E more))))
  | while_ {x : List Char} {c body : Expr} {C B more : Sexp} : builtIns.lookup x = some .while_ →
      Spells c C → Spells body B →
      Spells (.while_ c body) (.cons (.ident x) (.cons C (.cons B more)))
  | break_ {x : List Char} {more : Sexp} : builtIns.lookup x = some .break_ →
      Spells .break_ (.cons (.ident x) more)
  | continue_ {x : List Char} {more : Sexp} : builtIns.lookup x = some .continue_ →
      Spells .continue_ (.cons (.ident x) more)
  | not {x : List Char} {a : Expr} {A more : Sexp} : builtIns.lookup x = some .not → Spells a A →
      Spells (.not a) (.cons (.ident x) (.cons A more))
  | arith {x : List Char} {op : ArithOp} {a b : Expr} {A B more : Sexp} :
      builtIns.lookup x = some (.arith op) → Spells a A → Spells b B →
      Spells (.arith op a b) (.cons (.ident x) (.cons A (.cons B more)))
  | cmp {x : List Char} {op : CmpOp} {a b : Expr} {A B more : Sexp} :
      builtIns.lookup x = some (.cmp op) → Spells a A → Spells b B →
      Spells (.cmp op a b) (.cons (.ident x) (.cons A (.cons B more)))
  | var {x y : List Char} {t : Rtt} {T : Sexp} : builtIns.lookup x = some .var → NamesType Γ T t →
      Spells (.progn [.var (String.ofList y) t, .progn []])
        (.cons (.ident x) (.cons T (.cons (.ident y) .nil)))
  | varInit {x y : List Char} {t : Rtt} {e : Expr} {T E more : Sexp} :
      builtIns.lookup x = some .var → NamesType Γ T t → Spells e E →
      Spells (.assign (.var (String.ofList y) t) e)
        (.cons (.ident x) (.cons T (.cons (.ident y) (.cons E more))))
  | assign {x : List Char} {lhs rhs : Expr} {L R : Sexp} : builtIns.lookup x = some .assign →
      Spells lhs L → Spells rhs R →
      Spells (.assign lhs rhs) (.cons (.ident x) (.cons L (.cons R .nil)))
  | defun {x y : List Char} {f : Fun} {body : Expr} {P R B : Sexp} :
      builtIns.lookup x = some .defun → builtIns.lookup y = none → macros y = none →
      P.isList = true → B ≠ .nil → Heads Γ y P R f → Spells body B →
      Spells (.defun f body) (.cons (.ident x) (.cons (.ident y) (.cons P (.cons R (.cons B .nil)))))
  | funptrTo {x y : List Char} : builtIns.lookup x = some .funptrTo →
      builtIns.lookup y = none → macros y = none →
      Spells (.funptrTo (String.ofList y)) (.cons (.ident x) (.cons (.ident y) .nil))

inductive SpellsAll : List Expr → Sexp → Prop
  | nil : SpellsAll [] .nil
  | cons {e : Expr} {es : List Expr} {E l : Sexp} : Spells e E → SpellsAll es l →
      SpellsAll (e :: es) (.cons E l)

end

end

variable {macros : List Char → Option (Sexp → St → Except Halt (Rtv × St))} {Γ : Types}
variable {next : St → Nat} {run : Nat → Bool} {ev : Sexp → St → Except Halt (Rtv × St)}
variable {es : List Expr} {l : Sexp}

/-- What is evaluated like an expression. -/
def Mirrors (ev : Sexp → St → Except Halt (Rtv × St)) (run : Nat → Bool) (e : Expr) (E : Sexp) :
    Prop :=
  ∀ s, ev E s = eval run e s

/-- What is evaluated like the expressions, one after the other. -/
structure MirrorsAll (ev : Sexp → St → Except Halt (Rtv × St)) (run : Nat → Bool) (es : List Expr)
    (l : Sexp) : Prop where
  count : countLen l = es.length
  nil : l = .nil ↔ es = []
  progn : ∀ s, prognVal ev l s = evalProgn run es s
  args : es ≠ [] → ∀ s, argsVal ev l s = evalArgs run es s

theorem mirrorsAll_nil : MirrorsAll ev run [] .nil where
  count := rfl
  nil := ⟨fun _ => rfl, fun _ => rfl⟩
  progn s := by rw [prognVal, evalProgn]
  args h := absurd rfl h

theorem mirrorsAll_cons {e : Expr} {E : Sexp} (h : Mirrors ev run e E)
    (hs : MirrorsAll ev run es l) : MirrorsAll ev run (e :: es) (.cons E l) where
  count := by rw [countLen, hs.count, List.length_cons]
  nil := ⟨by rintro ⟨⟩, by rintro ⟨⟩⟩
  progn s := by
    cases es with
    | nil =>
      obtain rfl := hs.nil.2 rfl
      rw [prognVal, evalProgn, h s]
    | cons e' es =>
      have hl : l ≠ .nil := fun hl => by cases hs.nil.1 hl
      rw [prognVal, evalProgn, h s]
      · simp only [hs.progn]
      · exact hl
  args _ s := by
    rw [argsVal, evalArgs, h s]
    cases es with
    | nil =>
      obtain rfl := hs.nil.2 rfl
      simp only [if_true, evalArgs, ok_bind]
    | cons e' es =>
      have hl : l ≠ .nil := fun hl => by cases hs.nil.1 hl
      simp only [if_neg hl, hs.args (List.cons_ne_nil _ _)]

/-! ## The macros on trees that spell something -/

section

variable {c t e a b body lhs rhs : Expr} {C T E A B L R more : Sexp} {s : St}

theorem scopeVal_mirrors (h : MirrorsAll ev run es l) :
    scopeVal ev l s = eval run (.scope es) s := by
  rw [scopeVal, eval]
  cases s.curfn with
  | none => exact h.progn s
  | some scopes => simp only [h.progn]

theorem condVal_mirrors (hc : Mirrors ev run c C) (hb : Mirrors ev run body B) :
    condVal ev (.cons C (.cons B more)) s = eval run (.cond c body) s := by
  rw [condVal, eval]
  simp only [cadr, car_cons, cdr_cons, ok_bind, hc _, hb _]

theorem ifVal_mirrors (hc : Mirrors ev run c C) (ht : Mirrors ev run t T)
    (he : Mirrors ev run e E) :
    ifVal ev (.cons C (.cons T (.cons E more))) s = eval run (.if_ c t e) s := by
  rw [ifVal]
  simp only [cadr, caddr, car_cons, cdr_cons, ok_bind, hc _, ht _, he _]
  exact (eval.eq_def run (.if_ c t e) s).symm

theorem whileVal_mirrors (hc : Mirrors ev run c C) (hb : Mirrors ev run body B) :
    whileVal ev (.cons C (.cons B more)) s = eval run (.while_ c body) s := by
  rw [whileVal, eval]
  simp only [cadr, car_cons, cdr_cons, ok_bind, hc _, hb _]

theorem notVal_mirrors (ha : Mirrors ev run a A) :
    notVal ev (.cons A more) s = eval run (.not a) s := by
  rw [notVal, eval]
  simp only [car_cons, ok_bind, ha _]

theorem operandsVal_mirrors (ha : Mirrors ev run a A) (hb : Mirrors ev run b B) :
    operandsVal ev (.cons A (.cons B more)) s = (do
      let (left, s) ← eval run a s
      let (left, s) ← prepareRead left s
      let (right, s) ← eval run b s
      let (right, s) ← prepareRead right s
      expectSameNumber left right s) := by
  rw [operandsVal]
  simp only [cadr, car_cons, cdr_cons, ok_bind, ha _, hb _]

theorem arithVal_mirrors (op : ArithOp) (ha : Mirrors ev run a A) (hb : Mirrors ev run b B) :
    arithVal ev op (.cons A (.cons B more)) s = eval run (.arith op a b) s := by
  rw [arithVal, operandsVal_mirrors ha hb, eval]
  simp only [bind_assoc]

theorem cmpVal_mirrors (op : CmpOp) (ha : Mirrors ev run a A) (hb : Mirrors ev run b B) :
    cmpVal ev op (.cons A (.cons B more)) s = eval run (.cmp op a b) s := by
  rw [cmpVal, operandsVal_mirrors ha hb, eval]
  simp only [bind_assoc]

/-- `var` without a value: the rest of the macro does nothing. -/
theorem varVal_mirrors {y : List Char} {τ : Rtt} (hT : NamesType Γ T τ) :
    varVal ev Γ next (.cons T (.cons (.ident y) .nil)) s =
      eval run (.progn [.var (String.ofList y) τ, .progn []]) s := by
  obtain ⟨n, hn⟩ := hT (next s)
  simp only [varVal, cadr, car_cons, cdr_cons, ok_bind, expectIdent_ident, hn, if_true, eval,
    evalProgn]

theorem varVal_mirrors_init {y : List Char} {τ : Rtt} (hT : NamesType Γ T τ) (he : Mirrors ev run e E) :
    varVal ev Γ next (.cons T (.cons (.ident y) (.cons E more))) s =
      eval run (.assign (.var (String.ofList y) τ) e) s := by
  obtain ⟨n, hn⟩ := hT (next s)
  simp only [varVal, cadr, car_cons, cdr_cons, ok_bind, expectIdent_ident, hn, reduceCtorEq,
    if_false, he _, eval]

theorem assignVal_mirrors (hl : Mirrors ev run lhs L) (hr : Mirrors ev run rhs R) :
    assignVal ev (.cons L (.cons R .nil)) s = eval run (.assign lhs rhs) s := by
  rw [assignVal, eval]
  simp only [cadr, car_cons, cdr_cons, ok_bind, hl _, hr _, ne_eq, not_true_eq_false, if_false]

theorem defunVal_mirrors {y : List Char} {f : Fun} {P : Sexp} (hy : builtIns.lookup y = none)
    (hm : macros y = none) (hP : P.isList = true) (hB : B ≠ .nil) (hf : Heads Γ y P R f)
    (hb : Mirrors ev run body B) :
    defunVal macros ev Γ next (.cons (.ident y) (.cons P (.cons R (.cons B .nil)))) s =
      eval run (.defun f body) s := by
  obtain ⟨ret, n₁, ps, n₂, hret, hps, rfl⟩ := hf (next s)
  have hev : ev B = eval run body := funext hb
  simp only [defunVal, cadr, caddr, cadddr, car_cons, cdr_cons, ok_bind, hP, hB, hret, hps, hy, hm,
    hev, eval, Bool.not_true, Bool.false_eq_true, if_false, ne_eq, not_true_eq_false,
    Option.isSome_none, or_self]

theorem funptrToVal_mirrors {y : List Char} (hy : builtIns.lookup y = none)
    (hm : macros y = none) :
    funptrToVal macros (.cons (.ident y) .nil) s = eval run (.funptrTo (String.ofList y)) s := by
  have hlookup : lookupFunVal macros y s = s.funs.lookup (String.ofList y) := by
    simp [lookupFunVal, hy, hm]
  rw [funptrToVal]
  simp only [car_cons, cdr_cons, ok_bind, reduceCtorEq, ne_eq, not_true_eq_false, or_self,
    if_false, hlookup]
  exact (eval.eq_def run (.funptrTo (String.ofList y)) s).symm

theorem funcallVal_mirrors {f : Fun} {y : List Char} (h : MirrorsAll ev run es l)
    (hf : s.funs.lookup (String.ofList y) = some f) :
    funcallVal ev f l s = eval run (.call (String.ofList y) es) s := by
  rw [funcallVal, eval, hf, h.count]
  cases es with
  | nil => rfl
  | cons e es =>
    simp only [List.length_cons, Nat.succ_ne_zero, if_false, h.args (List.cons_ne_nil _ _)]

end

/-! ## All trees -/

section

variable {x : List Char} {m : BuiltIn} {n : Nat} {args : Sexp} {e : Expr}

theorem mirrors_builtIn (hx : builtIns.lookup x = some m)
    (h : ∀ s, callMacro macros (evalVal macros Γ next n) Γ next m args s = eval run e s) :
    Mirrors (evalVal macros Γ next (n + 1)) run e (.cons (.ident x) args) := by
  intro s
  rw [evalVal, hx]
  exact h s

theorem mirrors_call (hx : builtIns.lookup x = none) (hm : macros x = none)
    (h : MirrorsAll (evalVal macros Γ next n) run es args) :
    Mirrors (evalVal macros Γ next (n + 1)) run (.call (String.ofList x) es)
      (.cons (.ident x) args) := by
  intro s
  rw [evalVal, hx, hm]
  cases hf : s.funs.lookup (String.ofList x) with
  | none => rw [eval, hf]
  | some f => exact funcallVal_mirrors h hf

/-- One level more. -/
theorem eventually_succ {p q : Nat → Prop} (h : ∀ᶠ n in Filter.atTop, p n)
    (k : ∀ n, p n → q (n + 1)) : ∀ᶠ n in Filter.atTop, q n := by
  obtain ⟨N, h⟩ := Filter.eventually_atTop.1 h
  refine Filter.eventually_atTop.2 ⟨N + 1, fun n hn => ?_⟩
  cases n with
  | zero => exact absurd hn (Nat.not_succ_le_zero N)
  | succ n => exact k n (h n (Nat.le_of_succ_le_succ hn))

/-- A tree without parts. -/
theorem eventually_leaf {E : Sexp} (h : ∀ n, Mirrors (evalVal macros Γ next (n + 1)) run e E) :
    ∀ᶠ n in Filter.atTop, Mirrors (evalVal macros Γ next n) run e E :=
  eventually_succ (p := fun _ => True) (Filter.Eventually.of_forall fun _ => trivial) fun n _ => h n

mutual

/-- With room for the recursion, a tree that spells an expression is evaluated
like the expression. -/
theorem evalVal_mirrors (next : St → Nat) (run : Nat → Bool) : ∀ {e : Expr} {E : Sexp},
    Spells macros Γ e E → ∀ᶠ n in Filter.atTop, Mirrors (evalVal macros Γ next n) run e E
  | _, _, .int i => eventually_leaf fun n s => by rw [evalVal, eval]
  | _, _, .float tok => eventually_leaf fun n s => by rw [evalVal, eval]
  | _, _, .string str => eventually_leaf fun n s => by rw [evalVal, eval]
  | _, _, .char c => eventually_leaf fun n s => by rw [evalVal, eval]
  | _, _, .ident x => eventually_leaf fun n s => by rw [evalVal, eval]
  | _, _, .call hx hm hes => eventually_succ (prognVal_mirrors next run hes) fun n h =>
      mirrors_call hx hm h
  | _, _, .progn hx hes => eventually_succ (prognVal_mirrors next run hes) fun n h =>
      mirrors_builtIn hx fun s => by rw [eval]; exact h.progn s
  | _, _, .scope hx hes => eventually_succ (prognVal_mirrors next run hes) fun n h =>
      mirrors_builtIn hx fun s => scopeVal_mirrors h
  | _, _, .cond hx hc hb =>
    eventually_succ ((evalVal_mirrors next run hc).and (evalVal_mirrors next run hb)) fun n h =>
      mirrors_builtIn hx fun s => condVal_mirrors h.1 h.2
  | _, _, .if_ hx hc ht he =>
    eventually_succ ((evalVal_mirrors next run hc).and
      ((evalVal_mirrors next run ht).and (evalVal_mirrors next run he))) fun n h =>
      mirrors_builtIn hx fun s => ifVal_mirrors h.1 h.2.1 h.2.2
  | _, _, .while_ hx hc hb =>
    eventually_succ ((evalVal_mirrors next run hc).and (evalVal_mirrors next run hb)) fun n h =>
      mirrors_builtIn hx fun s => whileVal_mirrors h.1 h.2
  | _, _, .break_ hx => eventually_leaf fun n => mirrors_builtIn hx fun s => by
      rw [eval]
      rfl
  | _, _, .continue_ hx => eventually_leaf fun n => mirrors_builtIn hx fun s => by
      rw [eval]
      rfl
  | _, _, .not hx ha => eventually_succ (evalVal_mirrors next run ha) fun n h =>
      mirrors_builtIn hx fun s => notVal_mirrors h
  | _, _, .arith hx ha hb =>
    eventually_succ ((evalVal_mirrors next run ha).and (evalVal_mirrors next run hb)) fun n h =>
      mirrors_builtIn hx fun s => arithVal_mirrors _ h.1 h.2
  | _, _, .cmp hx ha hb =>
    eventually_succ ((evalVal_mirrors next run ha).and (evalVal_mirrors next run hb)) fun n h =>
      mirrors_builtIn hx fun s => cmpVal_mirrors _ h.1 h.2
  | _, _, .var hx hT => eventually_leaf fun n => mirrors_builtIn hx fun s => varVal_mirrors hT
  | _, _, .varInit hx hT he => eventually_succ (evalVal_mirrors next run he) fun n h =>
      mirrors_builtIn hx fun s => varVal_mirrors_init hT h
  | _, _, .assign hx hl hr =>
    eventually_succ ((evalVal_mirrors next run hl).and (evalVal_mirrors next run hr)) fun n h =>
      mirrors_builtIn hx fun s => assignVal_mirrors h.1 h.2
  | _, _, .defun hx hy hm hP hB hf hb => eventually_succ (evalVal_mirrors next run hb) fun n h =>
      mirrors_builtIn hx fun s => defunVal_mirrors hy hm hP hB hf h
  | _, _, .funptrTo hx hy hm => eventually_leaf fun n =>
      mirrors_builtIn hx fun s => funptrToVal_mirrors hy hm

theorem prognVal_mirrors (next : St → Nat) (run : Nat → Bool) : ∀ {es : List Expr} {l : Sexp},
    SpellsAll macros Γ es l → ∀ᶠ n in Filter.atTop, MirrorsAll (evalVal macros Γ next n) run es l
  | _, _, .nil => Filter.Eventually.of_forall fun _ => mirrorsAll_nil
  | _, _, .cons he hes => ((evalVal_mirrors next run he).and (prognVal_mirrors next run hes)).mono
      fun _ h => mirrorsAll_cons h.1 h.2

end

/-- A tree that spells an expression is evaluated like the expression: with the
same result, the same code and the same errors. -/
theorem spelled_evaluates {E : Sexp} (h : Spells macros Γ e E) (next : St → Nat)
    (run : Nat → Bool) :
    ∃ depth, ∀ fuel, depth ≤ fuel → ∀ s, evalVal macros Γ next fuel E s = eval run e s :=
  Filter.eventually_atTop.1 (evalVal_mirrors next run h)

/-- `(if x (not 1 2) 3 y)` is `(if x (not 1) 3)`. -/
theorem spelled_evaluates_surplus : ∃ depth, ∀ fuel, depth ≤ fuel → ∀ s,
    evalVal (fun _ => none) [] (fun _ => 0) fuel (.ofList [.ident "if".toList, .ident ['x'],
      .ofList [.ident "not".toList, .int 1, .int 2], .int 3, .ident ['y']]) s =
    eval (fun _ => true) (.if_ (.ident "x") (.not (.int 1)) (.int 3)) s :=
  spelled_evaluates (.if_ rfl (.ident ['x']) (.not rfl (.int 1)) (.int 3)) _ _

end

end Dolorem.Codegen
