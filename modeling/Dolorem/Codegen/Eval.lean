import Dolorem.Codegen.State

/-!
# Evaluation

`eval` over the syntax of expressions. The dispatch of `eval_call` on the name
of a built-in macro and the unpacking of the macro's arguments are done: a
constructor of `Expr` is a call of the macro of that name, `call` a call of a
function, and types in argument position are evaluated. Only `var` is less than
its macro: it is `add_variable`, and the assignment of an initial value is a
constructor of its own. What running a compiled `static-cond` condition returns
is a parameter.
-/

namespace Dolorem.Codegen

open CodeGraph

/-- The macros `arithmetic-op` defines. -/
inductive ArithOp where
  | add
  | sub
  | mul
  | div
  | and
  | or
  | shl
  | shr
  | mod
deriving DecidableEq, Repr

/-- The instruction on integers. -/
def ArithOp.int : ArithOp → BinOp
  | add => .add
  | sub => .sub
  | mul => .mul
  | div => .sdiv
  | and => .and
  | or => .or
  | shl => .shl
  | shr => .ashr
  | mod => .srem

/-- The instruction on floats, where there is one. -/
def ArithOp.float : ArithOp → Option BinOp
  | add => some .fadd
  | sub => some .fsub
  | mul => some .fmul
  | div => some .fdiv
  | _ => none

/-- The macros `comparison-op` defines. -/
inductive CmpOp where
  | eq
  | ne
  | gt
  | ge
  | lt
  | le
deriving DecidableEq, Repr

/-- The predicates given to `LLVMBuildICmp` and `LLVMBuildFCmp`. -/
def CmpOp.preds : CmpOp → Nat × Nat
  | eq => (32, 1)
  | ne => (33, 6)
  | gt => (38, 2)
  | ge => (39, 3)
  | lt => (40, 4)
  | le => (41, 5)

mutual

/-- Expressions. `form ks r` is any other form whose evaluation appends the
straight-line code `ks` to the current block and returns `r`. A lambda carries
the `FileIdx` and `CharIdx` of its argument list. `quote` is `quasiquote` too: a
quotation is the quoted tree, with the cells that start with `quasiunquote`
replaced by the expression in them. -/
inductive Expr where
  | form (ks : List Nat) (r : Rtv)
  | int (i : Int)
  | float (tok : List Char)
  | string (s : List Char)
  | char (c : Int)
  | ident (x : String)
  | call (f : String) (args : List Expr)
  | progn (es : List Expr)
  | scope (es : List Expr)
  | cond (c body : Expr)
  | if_ (c t e : Expr)
  | while_ (c body : Expr)
  | break_
  | continue_
  | arith (op : ArithOp) (a b : Expr)
  | cmp (op : CmpOp) (a b : Expr)
  | not (a : Expr)
  | defun (f : Fun) (body : Expr)
  | defmacro (name : String) (body : Expr)
  | lambda (fileIdx charIdx : Nat) (ret : Rtt) (parms : List (String × Rtt)) (vaArgs : Bool)
      (body : Expr)
  | staticCond (c body : Expr)
  | deftypemacro (name : String) (body : Expr)
  | var (name : String) (t : Rtt)
  | assign (lhs rhs : Expr)
  | funptrTo (f : String)
  | quote (q : Quoted)
deriving Repr

inductive Quoted where
  | nil
  | cons (a d : Quoted)
  | int (i : Int)
  | float (tok : List Char)
  | string (s : List Char)
  | ident (x : List Char)
  | char (c : Int)
  | unquote (e : Expr)
deriving Repr

end

/-- `lookup_in_fun_scope`. -/
def lookupInFunScope (scopes : List (List FunVar)) (x : String) : Option FunVar :=
  scopes.findSome? fun vars => vars.find? fun v => v.name = x

/-- `eval` on an identifier: a variable of the current function, or else a
global, declared in the current module. -/
def evalIdent (x : String) (s : St) : Except Halt (Rtv × St) :=
  match s.curfn.bind fun scopes => lookupInFunScope scopes x with
  | some v => .ok (⟨v.v, v.t, true⟩, s)
  | none =>
    match s.globals.lookup x with
    | some g => .ok (⟨⟨.global s.mod x, .ptr g.l⟩, g.t, true⟩, s)
    | none => .error (.error "unknown identifier \"%s\"")

/-! ## Function bodies -/

/-- The parameters of a function: each gets a variable, filled with the
argument. The result is the function's outermost scope. -/
def bindParms (fn : Nat) : List (String × Rtt) → Nat → List FunVar → St → List FunVar × St
  | [], _, vars, s => (vars, s)
  | (name, t) :: parms, i, vars, s =>
    let (p, s) := s.build (.alloca t.l) (.ptr t.l)
    let s := s.emit (.store ⟨.arg fn i, t.l⟩ p)
    bindParms fn parms (i + 1) (⟨name, p, t.t⟩ :: vars) s

/-- The return at the end of `funbody`. -/
def buildReturn (f : Fun) (ret : Rtv) (s : St) : Except Halt St :=
  if f.ret.t = .void then .ok (s.emit .retVoid)
  else do
    let (c, s) ← convertType ret f.ret 0 s
    match c with
    | none => .error (.error
        "couldn't convert result of type \"%s\" to return type \"%s\"")
    | some c => .ok (s.emit (.ret c.v))

/-- What `funbody` does before the body is evaluated: a new module unless
`sameMod`, the function, its entry block and its parameters. -/
def enterFunction (f : Fun) (sameMod : Bool) (s : St) : St :=
  let s := if sameMod then s else s.beginNewFunction
  let fn := s.fns.length
  let s := (s.addFunction f).2
  let entry := s.graph.size
  let s := { s with graph := s.graph.fresh fn }.position entry
  let (vars, s) := bindParms fn f.parms 0 [] s
  { s with curfn := some [vars], curllvmfn := some fn }

/-- `funbody`; `body` evaluates the body. -/
def funbody (body : St → Except Halt (Rtv × St)) (f : Fun) (sameMod : Bool) (s : St) :
    Except Halt St :=
  if s.precompiled then do
    let (ret, s') ← body (enterFunction f sameMod s)
    let (ret, s') ← prepareRead ret s'
    let s' ← buildReturn f ret s'
    .ok { s'.setBuilderPosition s.bldr with
      curfn := s.curfn, curllvmfn := s.curllvmfn, mod := if sameMod then s'.mod else s.mod }
  else .ok s

/-- The function `lower_macroproto` registers. -/
def macroproto (name : String) : Fun := ⟨name, rtvType, [("args", valType)], false⟩

/-- The function `lower_typemacroproto` registers. -/
def typemacroproto (name : String) : Fun :=
  ⟨name, rttType, [("args", valType), ("prop", ⟨.ptr (.int 8), .rawPtr⟩)], false⟩

/-- The function `static-cond` declares for its condition. -/
def condFun (n : Nat) : Fun :=
  ⟨"<static-cond-" ++ toString n ++ ">", lowerIntegerType 1 true, [], false⟩

/-- The name of a lambda, printed with the format `<anonymous-fun-%i-%i-%i>`. -/
def lambdaName (fileIdx charIdx : Nat) : String :=
  "<anonymous-fun-" ++ toString fileIdx ++ "-" ++ toString fileIdx ++ "-" ++ toString charIdx ++ ">"

/-- Enter a function into `map_funs`. -/
def St.register (f : Fun) (s : St) : St := { s with funs := (f.name, f) :: s.funs }

/-- The registration in `defun` and `funproto`. -/
def registerNew (f : Fun) (s : St) : Except Halt St :=
  match s.funs.lookup f.name with
  | some _ => .error (.error "function already exists: \"%s\"")
  | none => .ok (s.register f)

/-! ## Variables and quotations -/

/-- `add_variable`. -/
def addVariable (name : String) (t : Rtt) (s : St) : Except Halt (Rtv × St) :=
  match s.curfn with
  | some (vars :: scopes) =>
    let (p, s) := s.build (.alloca t.l) (.ptr t.l)
    .ok (⟨p, t.t, true⟩, { s with curfn := some ((⟨name, p, t.t⟩ :: vars) :: scopes) })
  | _ => .error .crash

/-- A function of `list.h` as `setup_quote` declares it. -/
def quoteFun (name : String) (parms : List LTy) : Fun :=
  ⟨name, valType, parms.map fun l => ("", ⟨l, .void⟩), false⟩

/-- `setup_quote`. -/
def St.setupQuote (s : St) : St :=
  let ptr := LTy.ptr (.int 8)
  let cons := s.requireFunction (quoteFun "cons" [ptr, ptr])
  let nil := cons.2.requireFunction (quoteFun "make_nil_val" [])
  let int := nil.2.requireFunction (quoteFun "make_int_val" [.int 64])
  let char := int.2.requireFunction (quoteFun "make_char_val" [.int 8])
  let string := char.2.requireFunction (quoteFun "make_string_val" [ptr])
  let ident := string.2.requireFunction (quoteFun "make_ident_val" [ptr])
  { ident.2 with quoteFuns := ⟨cons.1, nil.1, int.1, string.1, ident.1, char.1⟩ }

/-- A call in the code of a quotation. -/
def St.buildQuote (f : Value) (args : List Value) (s : St) : Value × St :=
  s.build (.call f args) valType.l

/-- What `lower_quote` does with the value of an unquoted expression. -/
def unquoteResult (res : Rtv) (s : St) : Except Halt (Value × St) := do
  let (res, s) ← prepareRead res s
  let (n, s) ← convertType res valType 0 s
  match n with
  | none => .error (.error "failed type conversion in quasiunquote")
  | some n => .ok (n.v, s)

/-! ## Numbers -/

/-- The conversion in `expect_same_number`; its result is used unchecked. -/
def convertOrCrash (v : Rtv) (dest : Rtt) (flags : Nat) (s : St) : Except Halt (Rtv × St) := do
  let (c, s) ← convertType v dest flags s
  match c with
  | none => .error .crash
  | some c => .ok (c, s)

/-- `expect_same_number`. -/
def expectSameNumber (a b : Rtv) (s : St) : Except Halt ((Rtv × Rtv) × St) :=
  match a.t, b.t with
  | .integer m _, .integer n _ =>
    if m = n then .ok ((a, b), s)
    else if m < n then do
      let (a, s) ← convertOrCrash a ⟨b.v.ty, b.t⟩ 0 s
      .ok ((a, b), s)
    else do
      let (b, s) ← convertOrCrash b ⟨a.v.ty, a.t⟩ 0 s
      .ok ((a, b), s)
  | .float m, .float n =>
    if m = n then .ok ((a, b), s)
    else if m < n then do
      let (a, s) ← convertOrCrash a ⟨b.v.ty, b.t⟩ 0 s
      .ok ((a, b), s)
    else do
      let (b, s) ← convertOrCrash b ⟨a.v.ty, a.t⟩ 0 s
      .ok ((a, b), s)
  | .float _, .integer _ _ => do
    let dest ← unwrapType a
    let (b, s) ← convertOrCrash b dest 1 s
    .ok ((a, b), s)
  | .integer _ _, .float _ => do
    let dest ← unwrapType b
    let (a, s) ← convertOrCrash a dest 1 s
    .ok ((a, b), s)
  | _, _ => .error (.error "expected two numbers")

/-- The instruction an `arithmetic-op` macro ends with. -/
def buildArith (op : ArithOp) (a b : Rtv) (s : St) : Except Halt (Rtv × St) :=
  if a.t.isInt then
    let (v, s) := s.build (.bin op.int a.v b.v) a.v.ty
    .ok ({ a with v := v }, s)
  else
    match op.float with
    | some op =>
      let (v, s) := s.build (.bin op a.v b.v) a.v.ty
      .ok ({ a with v := v }, s)
    | none => .error (.error "operation not supported on floats")

/-- The instruction a `comparison-op` macro ends with. `def.dlr` declares
`make-rtv` without its third parameter; the value flags are taken to be `vfR`. -/
def buildCmp (op : CmpOp) (a b : Rtv) (s : St) : Rtv × St :=
  let i := if a.t.isInt then .icmp op.preds.1 a.v b.v else .fcmp op.preds.2 a.v b.v
  let (v, s) := s.build i (.int 1)
  (⟨v, (lowerIntegerType 1 false).t, false⟩, s)

/-! ## Loops -/

/-- The loop context of `while`, `break` and `continue`. -/
def St.enterLoop (cond after : Nat) (s : St) : St :=
  { s with whileLastCondBlock := some cond, whileLastAfterBlock := some after,
           whileInLoop := true }

/-- What `while` restores after the body: the loop context of `s`. -/
def St.restoreLoop (s s' : St) : St :=
  { s' with whileLastCondBlock := s.whileLastCondBlock,
            whileLastAfterBlock := s.whileLastAfterBlock, whileInLoop := s.whileInLoop }

/-- `break` and `continue`: a branch, and a block for the code after it. -/
def jumpOut (dest : Option Nat) (s : St) : Except Halt (Rtv × St) :=
  match dest with
  | none => .error .crash
  | some b => do
    let s := s.emit (.br b)
    let (dummy, s) ← s.appendBlock
    .ok (nullRtv, s.position dummy)

/-- Leave the innermost scope. -/
def St.popScope (s : St) : St := { s with curfn := s.curfn.map List.tail }

/-! ## The evaluator -/

variable (run : Nat → Bool)

mutual

/-- `eval`. `run n` is what the compiled condition of the `n`-th `static-cond`
returns. -/
def eval : Expr → St → Except Halt (Rtv × St)
  | .form ks r, s => .ok (r, s.emitAll (ks.map .prim))
  | .int i, s => .ok (makeIntConst i, s)
  | .float tok, s => .ok (⟨⟨.real tok, .double⟩, .float 2, false⟩, s)
  | .string str, s =>
    .ok (⟨⟨.str str, .ptr (.int 8)⟩, (lowerPointerType (lowerIntegerType 8 false)).t, false⟩, s)
  | .char c, s => .ok (⟨⟨.const c, .int 8⟩, (lowerIntegerType 8 false).t, false⟩, s)
  | .ident x, s => evalIdent x s
  | .call name args, s =>
    match s.funs.lookup name with
    | none => .error (.error "unknown function \"%s\"")
    | some f => do
      let (fn, s) := s.requireFunction f
      let (vs, s) ← evalArgs args s
      lowerFuncall fn f vs s
  | .progn es, s => evalProgn es s
  | .scope es, s =>
    match s.curfn with
    | none => evalProgn es s
    | some scopes => do
      let (r, s) ← evalProgn es { s with curfn := some ([] :: scopes) }
      .ok (r, s.popScope)
  | .cond c body, s => do
    let (cv, s) ← eval c s
    let (cv, s) ← toCondition cv s
    let (block1, s) ← s.appendBlock
    let (block2, s) ← s.appendBlock
    let s := (s.emit (.condBr cv.v block1 block2)).position block1
    let (_, s) ← eval body s
    .ok (cv, (s.emit (.br block2)).position block2)
  | .if_ c t e, s => do
    let (ifblk, s) ← s.appendBlock
    let (elseblk, s) ← s.appendBlock
    let (afterif, s) ← s.appendBlock
    let (cv, s) ← eval c s
    let (cv, s) ← toCondition cv s
    let s := (s.emit (.condBr cv.v ifblk elseblk)).position ifblk
    let (ifres, s) ← eval t s
    let s := (s.emit (.br afterif)).position elseblk
    let (ev, s) ← eval e s
    let dest ← unwrapType ifres
    let (elseres, s) ← convertType ev dest 0 s
    let s := (s.emit (.br afterif)).position afterif
    let (phi, s) ← s.buildPhi dest.l
    match elseres with
    | none => .error .crash
    | some elseres =>
      let s := s.addIncoming phi ifres.v ifblk
      let s := s.addIncoming phi elseres.v elseblk
      .ok ({ ifres with v := phi }, s)
  | .while_ c body, s => do
    let (cond, s) ← s.appendBlock
    let (loop, s) ← s.appendBlock
    let (after, s) ← s.appendBlock
    let s := (s.emit (.br cond)).position cond
    let (cv, s) ← eval c s
    let (cv, s) ← toCondition cv s
    let s := (s.emit (.condBr cv.v loop after)).position loop
    let (_, s') ← eval body (s.enterLoop cond after)
    let s := s.restoreLoop s'
    .ok (nullRtv, (s.emit (.br cond)).position after)
  | .break_, s =>
    if s.whileInLoop then jumpOut s.whileLastAfterBlock s
    else .error (.error "break outside of loop")
  | .continue_, s =>
    if s.whileInLoop then jumpOut s.whileLastCondBlock s
    else .error (.error "continue outside of loop")
  | .arith op a b, s => do
    let (left, s) ← eval a s
    let (left, s) ← prepareRead left s
    let (right, s) ← eval b s
    let (right, s) ← prepareRead right s
    let ((left, right), s) ← expectSameNumber left right s
    buildArith op left right s
  | .cmp op a b, s => do
    let (left, s) ← eval a s
    let (left, s) ← prepareRead left s
    let (right, s) ← eval b s
    let (right, s) ← prepareRead right s
    let ((left, right), s) ← expectSameNumber left right s
    .ok (buildCmp op left right s)
  | .not a, s => do
    let (v, s) ← eval a s
    let (v, s) ← prepareRead v s
    let (n, s) := s.build (.not v.v) v.v.ty
    .ok ({ v with v := n }, s)
  | .defun f body, s => do
    let s ← registerNew f s
    let s ← funbody (eval body) f false s
    .ok (nullRtv, s)
  | Expr.defmacro name body, s => do
    let s := s.register (macroproto name)
    let s ← funbody (eval body) (macroproto name) false s
    .ok (nullRtv, s)
  | .lambda fileIdx charIdx ret parms vaArgs body, s => do
    let f : Fun := ⟨lambdaName fileIdx charIdx, ret, parms, vaArgs⟩
    let s ← funbody (eval body) f true s
    .ok (⟨s.getNamedFunction f.name, .funptr s.fns.length, false⟩, s)
  | .staticCond c body, s => do
    let n := s.staticCondNumber + 1
    let s ← registerNew (condFun n) { s with staticCondNumber := n }
    let s ← funbody (eval c) (condFun n) false s
    if run n then
      let (_, s) ← eval body s
      .ok (nullRtv, s)
    else .ok (nullRtv, s)
  | Expr.deftypemacro name body, s => do
    let s := s.register (typemacroproto name)
    let s ← funbody (eval body) (typemacroproto name) false s
    .ok (nullRtv, s)
  | .var name t, s => addVariable name t s
  | .assign lhs rhs, s => do
    let (lhs, s) ← eval lhs s
    let (rhs, s) ← eval rhs s
    let s ← lowerAssign lhs rhs s
    .ok (nullRtv, s)
  | .funptrTo name, s =>
    match s.funs.lookup name with
    | none => .error (.error "unknown function \"%s\"")
    | some f =>
      let (fn, s) := s.requireFunction f
      -- two function pointer types are never told apart
      .ok (⟨fn, .funptr s.fns.length, false⟩, s)
  | .quote q, s => do
    let (v, s) ← lowerQuote q s.setupQuote
    .ok (⟨v, valType.t, false⟩, s)

/-- `lower_quote`. -/
def lowerQuote : Quoted → St → Except Halt (Value × St)
  | .nil, s => .ok (s.buildQuote s.quoteFuns.nil [])
  | .cons a d, s => do
    let (a, s) ← lowerQuote a s
    let (d, s) ← lowerQuote d s
    .ok (s.buildQuote s.quoteFuns.cons [a, d])
  | .int i, s => .ok (s.buildQuote s.quoteFuns.int [⟨.const i, .int 64⟩])
  | .ident x, s => .ok (s.buildQuote s.quoteFuns.ident [⟨.str x, .ptr (.int 8)⟩])
  | .string str, s => .ok (s.buildQuote s.quoteFuns.string [⟨.str str, .ptr (.int 8)⟩])
  | .char c, s => .ok (s.buildQuote s.quoteFuns.char [⟨.const c, .int 8⟩])
  | .float _, _ => .error (.error "invalid type in lower_quote: %i")
  | .unquote e, s => do
    let (res, s) ← eval e s
    unquoteResult res s

/-- `progn`. -/
def evalProgn : List Expr → St → Except Halt (Rtv × St)
  | [], s => .ok (nullRtv, s)
  | [e], s => eval e s
  | e :: e' :: es, s => do
    let (_, s) ← eval e s
    evalProgn (e' :: es) s

/-- The loop of `funcall` over the arguments. -/
def evalArgs : List Expr → St → Except Halt (List Rtv × St)
  | [], s => .ok ([], s)
  | e :: es, s => do
    let (v, s) ← eval e s
    let (vs, s) ← evalArgs es s
    .ok (v :: vs, s)

end

section

-- The equations are made here, before many proofs ask for them at once.
attribute [local simp] eval

end

end Dolorem.Codegen
