import Dolorem.Codegen.Llvm

/-!
# Front-end types and their conversions

`struct type`, `struct rtt` and `struct rtv`, and the built-in type converters
in the order `init_basictypes` registers them. A converter looks at types only;
what it does with the value is its result (`Conv`): keep it under a new type, or
put it through one `LLVMBuild…` function.
-/

namespace Dolorem.Codegen

/-- `struct type` without its flags: the type class together with its property.
Properties that are compared by address (of a `typealias`, `arrayprop`,
`structprop` or `funtypeprop`) have that address here. The property of a pointer
type is the address of a copy of the pointee's type; comparing the copies
instead of their addresses makes no difference, because
`convert_pointer_types` accepts what `convert_equal_types` then does not. The
property of a number type is `num`: its low byte and its bit `0x100`. -/
inductive Ty where
  | void
  | integer (size : Nat) (flag : Bool)
  | float (num : Nat)
  | rawPtr
  | pointer (t : Ty)
  | opaqueAlias (a : Nat)
  | alias (a : Nat) (l : LTy) (t : Ty)
  | array (a : Nat) (size : Nat) (t : Ty)
  | struct (a : Nat)
  | funptr (a : Nat)
deriving DecidableEq, Repr

namespace Ty

/-- `info == basictypes_pointer`. -/
def isPointer : Ty → Bool
  | rawPtr | pointer _ => true
  | _ => false

/-- `is_int`. -/
def isInt : Ty → Bool
  | integer _ _ => true
  | _ => false

/-- The number of alias layers. -/
def aliases : Ty → Nat
  | .alias _ _ t => t.aliases + 1
  | _ => 0

/-- The type behind the alias layers. -/
def unalias : Ty → Ty
  | .alias _ _ t => t.unalias
  | t => t

end Ty

/-- `struct rtt`: a run-time type. -/
structure Rtt where
  l : LTy
  t : Ty
deriving DecidableEq, Repr

/-- `struct rtv`: a run-time value. `lval` is `vfL`. -/
structure Rtv where
  v : Value
  t : Ty
  lval : Bool
deriving DecidableEq, Repr

/-- `null_rtv`. -/
def nullRtv : Rtv := ⟨.null, .void, false⟩

/-- `lower_integer_type`. -/
def lowerIntegerType (size : Nat) (isUnsigned : Bool) : Rtt :=
  ⟨.int size, .integer size isUnsigned⟩

/-- `lower_pointer_type`. -/
def lowerPointerType (t : Rtt) : Rtt :=
  ⟨.ptr t.l, .pointer t.t⟩

/-- `make_int_const`. -/
def makeIntConst (i : Int) : Rtv :=
  ⟨⟨.const i, .int 64⟩, .integer 64 true, false⟩

/-- The opaque aliases of `init_basictypes`: `val`, `rtt` and `rtv`. -/
def valType : Rtt := ⟨.ptr (.int 8), .opaqueAlias 0⟩
def rttType : Rtt := ⟨.ptr (.int 8), .opaqueAlias 1⟩
def rtvType : Rtt := ⟨.ptr (.int 8), .opaqueAlias 2⟩

/-! ## Converters -/

def tcfExplicit : Nat := 1

/-- What a converter does with the value. -/
inductive Conv where
  | same (t : Ty)
  | build (op : CastOp) (l : LTy) (t : Ty)
deriving DecidableEq, Repr

def convertEqualTypes (v : Ty) (dest : Rtt) (_flags : Nat) : Option Conv :=
  match v, dest.t with
  | .funptr a, .funptr _ => some (.same (.funptr a))
  | v, t => if v = t then some (.same v) else none

def convertPointerTypes (v : Ty) (dest : Rtt) (flags : Nat) : Option Conv :=
  if v.isPointer && dest.t.isPointer then some (.same dest.t)
  else
    match v, dest.t with
    | .integer _ _, .funptr a =>
      if flags &&& tcfExplicit ≠ 0 then some (.build .intToPtr dest.l (.funptr a)) else none
    | _, _ => none

/-- `convert_alias_unwrap`; `rec` is `convert_type`. -/
def convertAliasUnwrap (rec : Ty → Rtt → Nat → Option Conv) (v : Ty) (dest : Rtt)
    (_flags : Nat) :
    Option Conv :=
  match v, dest.t with
  | .alias _ _ t, .alias _ l t' => rec t ⟨l, t'⟩ 0
  | .alias _ _ t, _ => rec t dest 0
  | v, .alias _ l t' => rec v ⟨l, t'⟩ 0
  | _, _ => none

def convertNumbers (v : Ty) (dest : Rtt) (flags : Nat) : Option Conv :=
  match v, dest.t with
  | .integer _ _, .integer size flag => some (.build .intCast dest.l (.integer size flag))
  | .float m, .float n =>
    if flags &&& tcfExplicit = 0 ∧ m < n then none else some (.build .fpCast dest.l (.float n))
  | .integer _ flag, .float n =>
    some (.build (if flag then .siToFP else .uiToFP) dest.l (.float n))
  | .float _, .integer size flag =>
    if flags &&& tcfExplicit ≠ 0 then
      some (.build (if flag then .fpToSI else .fpToUI) dest.l (.integer size flag))
    else none
  | _, _ => none

/-- The search through the registered converters, with at most `n` rounds of
unwrapping. -/
def convertWithin : Nat → Ty → Rtt → Nat → Option Conv
  | 0, v, dest, flags =>
    (convertEqualTypes v dest flags).or <|
    (convertPointerTypes v dest flags).or <|
    convertNumbers v dest flags
  | n + 1, v, dest, flags =>
    (convertEqualTypes v dest flags).or <|
    (convertPointerTypes v dest flags).or <|
    (convertAliasUnwrap (convertWithin n) v dest flags).or <|
    convertNumbers v dest flags

/-- The part of `convert_type` that depends on the types. Each round of
unwrapping takes a layer off, so their number is enough rounds. -/
def convertTypes (v : Ty) (dest : Rtt) (flags : Nat) : Option Conv :=
  convertWithin (v.aliases + dest.t.aliases) v dest flags

end Dolorem.Codegen
