import Dolorem.Codegen.State
import Dolorem.Reader.Val

/-!
# Syntax as the built-in macros take it apart

`car`, `cdr` and their companions of `list.h` on trees without positions. A
macro gets the list of its arguments and reports what is wrong with it by
`compiler_error`.
-/

namespace Dolorem.Codegen

open Reader (Sexp)

/-- `car`; the `car` of the empty list is the empty list. -/
def car : Sexp → Except Halt Sexp
  | .cons a _ => .ok a
  | .nil => .ok .nil
  | _ => .error (.error "can't take \"car\" of non-list")

/-- `cdr`. -/
def cdr : Sexp → Except Halt Sexp
  | .cons _ d => .ok d
  | .nil => .ok .nil
  | _ => .error (.error "can't take \"cdr\" of non-list")

/-- `count_len`. -/
def countLen : Sexp → Nat
  | .cons _ d => countLen d + 1
  | _ => 0

/-- `expect_ident`. -/
def expectIdent : Sexp → Except Halt (List Char)
  | .ident x => .ok x
  | _ => .error (.error "expected identifier")

@[simp] theorem car_cons (a d : Sexp) : car (.cons a d) = .ok a := rfl

@[simp] theorem cdr_cons (a d : Sexp) : cdr (.cons a d) = .ok d := rfl

@[simp] theorem cdr_nil : cdr .nil = .ok .nil := rfl

@[simp] theorem expectIdent_ident (x : List Char) : expectIdent (.ident x) = .ok x := rfl

@[simp] theorem countLen_ofList (l : List Sexp) : countLen (.ofList l) = l.length := by
  induction l with
  | nil => rfl
  | cons a l ih => rw [Sexp.ofList, countLen, ih, List.length_cons]

end Dolorem.Codegen
