import Dolorem.Codegen.Moves
import Dolorem.Codegen.Syntax

/-!
# Structs and unions

`defstruct` lays out a struct in two numberings: the members, as `memb` finds
them by name, and the fields of the LLVM struct. A union is several members in
one field, whose type is that of its longest member. `memb` selects a member:
the pointer to its field, cast where the member is part of a union.

What `eval_type` and the data layout's `getTypeAllocSize` return are
parameters.
-/

namespace Dolorem.Codegen

open CodeGraph
open Reader (Sexp)

/-- `struct structmemb`. A `unionmain` of `none` is the `-1` of a member that is
no part of a union. -/
structure StructMemb where
  name : List Char
  type : Rtt
  llvmnum : Nat
  unionmain : Option Nat
deriving DecidableEq, Repr

/-- `struct structprop`, with the field types `LLVMStructSetBody` is given. -/
structure StructProp where
  name : List Char
  l : LTy
  memb : List StructMemb
  body : List LTy
deriving DecidableEq, Repr

/-! ## Definition -/

section Define

variable (evalType : Sexp → Except Halt Rtt) (sizeofType : LTy → Nat)

/-- Does an entry of the member list define a union? -/
def isUnion (m : Sexp) : Except Halt Bool := do
  let head ← car m
  .ok (head = .ident "union".toList)

/-- `count_struct_len`: the number of LLVM fields and that of members. -/
def countStructLen : Sexp → Except Halt (Nat × Nat)
  | .cons m li => do
    let union ← isUnion m
    let len ← if union then do .ok (countLen (← car (← cdr m))) else .ok 1
    let (n, membLen) ← countStructLen li
    .ok (n + 1, len + membLen)
  | _ => .ok (0, 0)

/-- A member of a struct or of a union. -/
def readMember (excess : String) (m : Sexp) : Except Halt (Rtt × List Char) := do
  let type ← evalType (← car m)
  let name ← expectIdent (← car (← cdr m))
  let rest ← cdr (← cdr m)
  if rest = .nil then .ok (type, name) else .error (.error excess)

/-- The loop over the members of a union. -/
def unionMembers : Sexp → Except Halt (List (Rtt × List Char))
  | .nil => .ok []
  | .cons m n => do
    let m ← readMember evalType "excess elements in union member" m
    let ms ← unionMembers n
    .ok (m :: ms)
  | _ => .error (.error "can't take \"car\" of non-list")

/-- The loop that looks for the longest member of a union, from the member with
index `i` on. -/
def longestFrom : Nat → Option (Nat × LTy) → Nat → List LTy → Option (Nat × LTy)
  | _, longest, _, [] => longest
  | i, longest, longestSize, l :: ls =>
    if longestSize < sizeofType l then longestFrom (i + 1) (some (i, l)) (sizeofType l) ls
    else longestFrom (i + 1) longest longestSize ls

/-- The members of a union, behind those in `memb`. Only the longest one is given
the number of the field; the memory of the others is all zero. -/
def layUnion (memb : List StructMemb) (ms : List (Rtt × List Char)) (longest j : Nat) :
    List StructMemb :=
  (memb ++ ms.map fun m => StructMemb.mk m.2 m.1 0 (some longest)).modify longest
    fun m => { m with llvmnum := j }

/-- The loop of `defstruct` over the member list. `memb` and `t` are filled from
the front, so the counters `i` and `j` are their lengths. -/
def structMembers (nmemb : Nat) :
    Sexp → List StructMemb → List LTy → Except Halt (List StructMemb × List LTy)
  | .cons m rest, memb, t =>
    if memb.length < nmemb then do
      let union ← isUnion m
      if union then
        let ms ← unionMembers evalType (← car (← cdr m))
        match longestFrom sizeofType memb.length none 0 (ms.map (·.1.l)) with
        | none => .error (.error "empty union forbidden")
        | some (longest, l) =>
          structMembers nmemb rest (layUnion memb ms longest t.length) (t ++ [l])
      else
        let (type, name) ← readMember evalType "excess elements in struct member" m
        structMembers nmemb rest (memb ++ [⟨name, type, t.length, none⟩]) (t ++ [type.l])
    else .ok (memb, t)
  -- the type read from an empty list is none
  | .nil, memb, t => if memb.length < nmemb then .error (.error "expected type") else .ok (memb, t)
  | _, memb, t =>
    if memb.length < nmemb then .error (.error "can't take \"car\" of non-list")
    else .ok (memb, t)

/-- `defstruct`, up to the entry in the table of types; `id` is the identity of
the LLVM struct, `registered` are the names of the types there are. An empty
union at the end of the list is never reached, and `LLVMStructSetBody` then
reads a field type that was never written. -/
def defstruct (registered : List Char → Bool) (id : Nat) (e : Sexp) : Except Halt StructProp := do
  let name ← expectIdent (← car e)
  let memblist ← car (← cdr e)
  if !memblist.isList then .error (.error "expected list of members")
  else
    let rest ← cdr (← cdr e)
    if rest ≠ .nil then .error (.error "excess elements in \"defstruct\"")
    else
      let (llvmlen, nmemb) ← countStructLen memblist
      let (memb, t) ← structMembers evalType sizeofType nmemb memblist [] []
      if t.length < llvmlen then .error .crash
      else if registered name then
        .error (.error "cannot \"register-type\" \"%s\" because it already exists")
      else .ok ⟨name, .struct id, memb, t⟩

end Define

/-! ## Selection -/

/-- `LLVMBuildStructGEP` on a pointer to a struct with these fields. -/
def St.buildStructGep (body : List LTy) (v : Value) (i : Nat) (s : St) :
    Except Halt (Value × St) :=
  match body[i]? with
  | some l => .ok (s.build (.structGep v i) (.ptr l))
  | none => .error .crash

/-- `lower_ptr_to` on an array. -/
def lowerPtrToArray (f : Rtv) (t : Ty) (s : St) : Except Halt (Rtv × St) :=
  match f.v.ty with
  | .ptr (.array _ l) =>
    let zero : Value := ⟨.const 0, .int 64⟩
    let (v, s) := s.build (.gep f.v [zero, zero]) (.ptr l)
    .ok (⟨v, .pointer t, false⟩, s)
  | _ => .error .crash

variable (eval : Sexp → St → Except Halt (Rtv × St)) (structs : Nat → Option StructProp)

/-- `memb_array`. -/
def membArray (array : Rtv) (t : Ty) (index : Sexp) (s : St) : Except Halt (Rtv × St) := do
  let (p, s) ← lowerPtrToArray array t s
  let (i, s) ← eval index s
  let (idx, s) ← convertType i (lowerIntegerType 64 false) 0 s
  match idx with
  | none => .error .crash
  | some idx =>
    let (v, s) := s.build (.gep p.v [idx.v]) p.v.ty
    .ok (⟨v, t, true⟩, s)

/-- `memb`. -/
def memb (e : Sexp) (s : St) : Except Halt (Rtv × St) := do
  let (o, s) ← eval (← car e) s
  match o.t with
  | .array _ _ t => membArray eval o t (← car (← cdr e)) s
  | .struct a =>
    match structs a with
    | none => .error .crash
    | some p => do
      let name ← expectIdent (← car (← cdr e))
      if !o.lval then .error .crash
      else
        let rest ← cdr (← cdr e)
        if rest ≠ .nil then .error (.error "excess arguments in \"memb\"")
        else
          match p.memb.find? fun m => m.name = name with
          | none => .error (.error "struct member \"%s\" not found in struct \"%s\"")
          | some m => do
            let (v, s) ← s.buildStructGep p.body o.v m.llvmnum
            match m.unionmain with
            | none => .ok (⟨v, m.type.t, true⟩, s)
            | some u =>
              match p.memb[u]? with
              | none => .error .crash
              | some main =>
                let (v, s) := s.buildCast .bitCast v (.ptr m.type.l)
                .ok (⟨v, main.type.t, true⟩, s)
  | _ => .error (.error "expected struct, found \"%s\"")

end Dolorem.Codegen
