import Dolorem.Codegen.Types

/-!
# The compiler's state and what it builds

The global variables of the compiler that code generation reads and writes, the
LLVM modules under construction among them, and the functions that emit code:
`prepare_read`, `unwrap_type`, `convert_type`, `lower_funcall`. A function takes
the state and returns it with its result; `Halt` says how it can fail to return.
-/

namespace Dolorem.Codegen

open CodeGraph

/-- Why evaluation stops: `compiler_error` with this format text, or an access
through a null pointer (or a call LLVM does not survive). -/
inductive Halt where
  | error (msg : String)
  | crash
deriving DecidableEq, Repr

/-- `struct funvar`. -/
structure FunVar where
  name : String
  v : Value
  t : Ty
deriving DecidableEq, Repr

/-- `struct fun` with its `struct funtypeprop`. -/
structure Fun where
  name : String
  ret : Rtt
  parms : List (String × Rtt)
  vaArgs : Bool
deriving DecidableEq, Repr

/-- `fun_type_to_llvm`. -/
def Fun.funtype (f : Fun) : LTy :=
  .function f.ret.l (f.parms.map (·.2.l)) f.vaArgs

/-- The static variables of `quote.c`: the functions the code of a quotation
calls. -/
structure QuoteFuns where
  cons : Value
  nil : Value
  int : Value
  string : Value
  ident : Value
  char : Value
deriving DecidableEq, Repr

/-- The global variables. The owner of a block is the function it belongs to, an
index into `fns`. `curfn` is the scope chain of the function being compiled,
innermost scope first, and in a scope the latest variable first. `precompiled`
says that `precompiled_module` is not null. -/
structure St where
  graph : Cfg Nat Instr
  fns : List LFun
  bldr : Option Nat
  mod : Nat
  mods : Nat
  curfn : Option (List (List FunVar))
  curllvmfn : Option Nat
  funs : List (String × Fun)
  globals : List (String × Rtt)
  whileLastCondBlock : Option Nat
  whileLastAfterBlock : Option Nat
  whileInLoop : Bool
  staticCondNumber : Nat
  precompiled : Bool
  quoteFuns : QuoteFuns := ⟨.null, .null, .null, .null, .null, .null⟩
deriving DecidableEq, Repr

namespace St

/-- The block the builder appends to. A builder that was never positioned
appends nowhere, that is, to a block that does not exist. -/
def block (s : St) : Nat := s.bldr.getD s.graph.size

/-- Where the next instruction will stand. -/
def here (s : St) : Pos := s.graph.endOf s.block

/-- Append instructions to the builder's block. -/
def emitAll (is : List Instr) (s : St) : St :=
  { s with graph := s.graph.append s.block is }

/-- Append an instruction that has no result. -/
def emit (i : Instr) (s : St) : St := s.emitAll [i]

/-- Append an instruction and name its result. -/
def build (i : Instr) (ty : LTy) (s : St) : Value × St :=
  (⟨.inst s.here, ty⟩, s.emit i)

/-- `LLVMPositionBuilderAtEnd`. -/
def position (b : Nat) (s : St) : St := { s with bldr := some b }

/-- `LLVMAppendBasicBlock curllvmfn`. -/
def appendBlock (s : St) : Except Halt (Nat × St) :=
  match s.curllvmfn with
  | none => .error .crash
  | some fn => .ok (s.graph.size, { s with graph := s.graph.fresh fn })

/-- The conversions of `LLVMBuild…`: a value of the wanted type is returned as it
is. -/
def buildCast (op : CastOp) (v : Value) (l : LTy) (s : St) : Value × St :=
  if v.ty = l then (v, s) else s.build (.cast op v l) l

/-- `LLVMBuildPhi`. -/
def buildPhi (ty : LTy) (s : St) : Except Halt (Value × St) :=
  if ty = .null then .error .crash else .ok (s.build (.phi ty []) ty)

/-- `LLVMAddIncoming` with one value. -/
def addIncoming (phi v : Value) (b : Nat) (s : St) : St :=
  match phi.ref with
  | .inst p => { s with graph := s.graph.update p (Instr.addIncoming v b) }
  | _ => s

/-- `LLVMAddFunction`. -/
def addFunction (f : Fun) (s : St) : Value × St :=
  let taken := s.fns.any fun lf => lf.mod = s.mod ∧ lf.name = some f.name
  (⟨.fn s.fns.length, .ptr f.funtype⟩,
    { s with fns := s.fns ++ [⟨s.mod, if taken then none else some f.name, f.funtype⟩] })

/-- `LLVMGetNamedFunction`; null when the module has no such function. -/
def getNamedFunction (name : String) (s : St) : Value :=
  match s.fns.findIdx? fun lf => lf.mod = s.mod ∧ lf.name = some name with
  | some i => ⟨.fn i, .ptr ((s.fns[i]?.map (·.ty)).getD .null)⟩
  | none => .null

/-- The function of the current module that `funcall` calls. -/
def requireFunction (f : Fun) (s : St) : Value × St :=
  let v := s.getNamedFunction f.name
  if v = .null then s.addFunction f else (v, s)

/-- `begin_new_function`. -/
def beginNewFunction (s : St) : St := { s with mod := s.mods, mods := s.mods + 1 }

/-- `SetBuilderPosition`: a position outside all blocks is not restored. -/
def setBuilderPosition (pos : Option Nat) (s : St) : St :=
  match pos with
  | some b => s.position b
  | none => s

end St

/-! ## Reading and converting values -/

/-- `prepare_read`: an l-value is loaded. -/
def prepareRead (v : Rtv) (s : St) : Except Halt (Rtv × St) :=
  if v.lval then
    match v.v.ty with
    | .ptr t =>
      let (l, s) := s.build (.load v.v) t
      .ok (⟨l, v.t, false⟩, s)
    | _ => .error .crash
  else .ok (v, s)

/-- `unwrap_type`. -/
def unwrapType (v : Rtv) : Except Halt Rtt :=
  if v.t = .void then .ok ⟨.null, .void⟩
  else if v.lval then
    match v.v.ty.element with
    | some l => .ok ⟨l, v.t⟩
    | none => .error .crash
  else .ok ⟨v.v.ty, v.t⟩

def Conv.apply (c : Conv) (v : Rtv) (s : St) : Rtv × St :=
  match c with
  | .same t => ({ v with t := t }, s)
  | .build op l t =>
    let (c, s) := s.buildCast op v.v l
    (⟨c, t, false⟩, s)

/-- `convert_type`; `none` is its null result. -/
def convertType (a : Rtv) (dest : Rtt) (flags : Nat) (s : St) :
    Except Halt (Option Rtv × St) := do
  let (v, s) ← prepareRead a s
  match convertTypes v.t dest flags with
  | none => .ok (none, s)
  | some c =>
    let (r, s) := c.apply v s
    .ok (some r, s)

/-- `(convert-type (prepare-read v) (lower-integer-type 1 0) 1)` with the result
used as it is. -/
def toCondition (v : Rtv) (s : St) : Except Halt (Rtv × St) := do
  let (v, s) ← prepareRead v s
  let (c, s) ← convertType v (lowerIntegerType 1 false) 1 s
  match c with
  | none => .error .crash
  | some c => .ok (c, s)

/-- `lower_assign`. -/
def lowerAssign (lhs rhs : Rtv) (s : St) : Except Halt St :=
  if !lhs.lval then .error (.error "attempt to assign to an r-value")
  else do
    let (rhs, s) ← prepareRead rhs s
    match lhs.v.ty.element with
    | none => .error .crash
    | some l =>
      let (conv, s) ← convertType rhs ⟨l, lhs.t⟩ 0 s
      match conv with
      | none => .error (.error "couldn't convert \"%s\" to \"%s\" implicitly")
      | some conv => .ok (s.emit (.store conv.v lhs.v))

/-! ## Calls -/

/-- The loop of `lower_funcall` over the arguments. Without parameters there is
no room for the operands. -/
def lowerArgs (room : Bool) :
    List (String × Rtt) → List Rtv → St → Except Halt (List Value × St)
  | _, [], s => .ok ([], s)
  | [], a :: args, s => do
    let (v, s) ← prepareRead a s
    if room then
      let (vs, s) ← lowerArgs room [] args s
      .ok (v.v :: vs, s)
    else .error .crash
  | p :: parms, a :: args, s => do
    let (v, s) ← prepareRead a s
    let (c, s) ← convertType v p.2 0 s
    match c with
    | none => .error (.error "couldn't convert type \"%s\" to \"%s\"")
    | some c =>
      let (vs, s) ← lowerArgs room parms args s
      .ok (c.v :: vs, s)

/-- `lower_funcall`. LLVM does not survive a null operand, which is the one value
without a type. -/
def lowerFuncall (fn : Value) (f : Fun) (args : List Rtv) (s : St) : Except Halt (Rtv × St) :=
  if args.length ≠ f.parms.length ∧ f.vaArgs = false then
    .error (.error "expected %i arguments, found %i")
  else if f.vaArgs = true ∧ args.length < f.parms.length then
    .error (.error "expected at least %i arguments, found %i")
  else do
    let (vs, s) ← lowerArgs (!f.parms.isEmpty) f.parms args s
    if vs.any (·.ty = .null) then .error .crash
    else
      let (r, s) := s.build (.call fn vs) f.ret.l
      .ok (⟨r, f.ret.t, false⟩, s)

end Dolorem.Codegen
