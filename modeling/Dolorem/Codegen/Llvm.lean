import Dolorem.Lib.Graph

/-!
# LLVM as the code generator uses it

Types, values and instructions of the LLVM C API with typed pointers, as far as
the modelled functions build them. An instruction is known by its place in its
block, so a value that an instruction computes is that place; every value
carries what `LLVMTypeOf` returns for it. Names of values and blocks are left
out, and so is the folding of constants: an instruction on constants is emitted
like any other.
-/

namespace Dolorem.Codegen

open CodeGraph

/-- `LLVMTypeRef`. `null` is the null reference. A function type is its
parameters in front of its return type. -/
inductive LTy where
  | null
  | void
  | int (width : Nat)
  | float
  | double
  | ptr (t : LTy)
  | array (size : Nat) (of : LTy)
  | struct (id : Nat)
  | param (p rest : LTy)
  | fn (ret : LTy) (vararg : Bool)
deriving DecidableEq, Repr

namespace LTy

/-- `LLVMGetElementType`; it has no result for a type without elements. -/
def element : LTy → Option LTy
  | ptr t | array _ t => some t
  | _ => none

/-- `LLVMFunctionType`. -/
def function (ret : LTy) (parms : List LTy) (vararg : Bool) : LTy :=
  parms.foldr param (fn ret vararg)

/-- No type is its own element type. -/
theorem element_ne_self (t : LTy) : t.element ≠ some t := by
  intro h
  cases t <;> simp only [element, Option.some_inj, reduceCtorEq] at h
  all_goals
    have hsize := congrArg sizeOf h
    simp at hsize

end LTy

/-- What a `LLVMValueRef` points to; `ext` is a value some code outside the model
computes. -/
inductive Ref where
  | null
  | const (i : Int)
  | real (tok : List Char)
  | str (s : List Char)
  | inst (p : Pos)
  | arg (fn i : Nat)
  | fn (id : Nat)
  | global (mod : Nat) (name : String)
  | ext (k : Nat)
deriving DecidableEq, Repr

/-- `LLVMValueRef`, with its `LLVMTypeOf`. -/
structure Value where
  ref : Ref
  ty : LTy
deriving DecidableEq, Repr

/-- The null pointer. -/
def Value.null : Value := ⟨.null, .null⟩

/-- The `LLVMBuild…` functions for conversions. -/
inductive CastOp where
  | intCast
  | fpCast
  | siToFP
  | uiToFP
  | fpToSI
  | fpToUI
  | intToPtr
  | bitCast
deriving DecidableEq, Repr

/-- The `LLVMBuild…` functions `arithmetic-op` is applied to. -/
inductive BinOp where
  | add
  | sub
  | mul
  | sdiv
  | and
  | or
  | shl
  | ashr
  | srem
  | fadd
  | fsub
  | fmul
  | fdiv
deriving DecidableEq, Repr

/-- An instruction. `prim` stands for an instruction the model says nothing
about. The incoming values of a phi are paired with their blocks. -/
inductive Instr where
  | prim (k : Nat)
  | alloca (ty : LTy)
  | load (p : Value)
  | store (v p : Value)
  | cast (op : CastOp) (v : Value) (l : LTy)
  | bin (op : BinOp) (a b : Value)
  | icmp (pred : Nat) (a b : Value)
  | fcmp (pred : Nat) (a b : Value)
  | not (v : Value)
  | call (f : Value) (args : List Value)
  | structGep (p : Value) (i : Nat)
  | gep (p : Value) (indices : List Value)
  | phi (ty : LTy) (incoming : List (Value × Nat))
  | br (b : Nat)
  | condBr (c : Value) (t f : Nat)
  | ret (v : Value)
  | retVoid
deriving DecidableEq, Repr

/-- What running code shows: the instructions it executes, and the way each
conditional branch goes. -/
inductive Event where
  | exec (i : Instr)
  | test (v : Value) (taken : Bool)
deriving DecidableEq, Repr

namespace Instr

def flow : Instr → Flow Event
  | br b => .jump b
  | condBr c t f => .branch (.test c true) t (.test c false) f
  | ret _ | retVoid => .stop
  | i => .op (.exec i)

/-- `LLVMAddIncoming` with one value. -/
def addIncoming (v : Value) (b : Nat) : Instr → Instr
  | phi ty inc => phi ty (inc ++ [(v, b)])
  | i => i

end Instr

/-- The functions of a module, as far as `LLVMGetNamedFunction` tells them
apart. A function whose name was taken when it was added has no name here: LLVM
renames it. -/
structure LFun where
  mod : Nat
  name : Option String
  ty : LTy
deriving DecidableEq, Repr

end Dolorem.Codegen
