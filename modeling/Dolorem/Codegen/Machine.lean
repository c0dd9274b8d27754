import Dolorem.Codegen.Moves

/-!
# Running the emitted code

A `Machine` is the memory and the values the instructions have computed. It
executes the instructions the conversions of integers are made of; `Enters`
runs straight-line code up to a branch and says where the branch goes. About all
other instructions the machine says nothing.
-/

namespace Dolorem.Codegen

open CodeGraph

/-- What running code sees. An integer of `w` bits is given by any integer of
its class modulo `2 ^ w`. -/
structure Machine where
  val : Ref → Int
  mem : Int → Int

namespace Machine

/-- The operand `v`. -/
def read (m : Machine) (v : Value) : Int :=
  match v.ref with
  | .const i => i
  | x => m.val x

/-- The instruction at `p` has the result `x`. -/
def define (m : Machine) (p : Pos) (x : Int) : Machine :=
  { m with val := fun y => if y = .inst p then x else m.val y }

/-- The instruction at `p` is executed. `LLVMBuildIntCast` truncates, or extends
the sign. -/
def exec (m : Machine) (p : Pos) : Instr → Option Machine
  | .load v => some (m.define p (m.mem (m.read v)))
  | .store v a => some { m with mem := fun y => if y = m.read a then m.read v else m.mem y }
  | .cast .intCast v (.int w') =>
    match v.ty with
    | .int w => some (m.define p ((BitVec.ofInt w (m.read v)).signExtend w').toInt)
    | _ => none
  | _ => none

/-- The instructions `is`, of which the first stands at `p`, are executed. -/
def execAll (m : Machine) : Pos → List Instr → Option Machine
  | _, [] => some m
  | p, i :: is => (m.exec p i).bind fun m => execAll m (p.skip 1) is

/-- A one-bit value. -/
def isTrue (m : Machine) (c : Value) : Bool := BitVec.ofInt 1 (m.read c) = 1#1

/-- Where a branch goes. -/
def target (m : Machine) : Instr → Option Nat
  | .br b => some b
  | .condBr c t f => some (if m.isTrue c then t else f)
  | _ => none

end Machine

/-- From `p`, running code comes to a branch and goes to block `b`. -/
inductive Enters (g : Cfg Nat Instr) : Pos → Machine → Nat → Prop
  | exec {p : Pos} {i : Instr} {m m' : Machine} {b : Nat} :
      g.at? p = some i → m.exec p i = some m' → Enters g (p.skip 1) m' b → Enters g p m b
  | branch {p : Pos} {i : Instr} {m : Machine} {b : Nat} :
      g.at? p = some i → m.target i = some b → Enters g p m b

variable {g : Cfg Nat Instr} {p : Pos} {m m' : Machine} {i : Instr} {is : List Instr} {b b' : Nat}

theorem Machine.target_of_exec (h : m.exec p i = some m') : m.target i = none := by
  cases i with
  | br _ | condBr _ _ _ => cases h
  | _ => rfl

/-- Code runs in one way only. -/
theorem Enters.unique (h : Enters g p m b) (k : Enters g p m b') : b = b' := by
  induction h with
  | exec hi he _ ih =>
    cases k with
    | exec hi' he' k =>
      obtain rfl := Option.some_inj.1 (hi.symm.trans hi')
      obtain rfl := Option.some_inj.1 (he.symm.trans he')
      exact ih k
    | branch hi' ht =>
      obtain rfl := Option.some_inj.1 (hi.symm.trans hi')
      rw [Machine.target_of_exec he] at ht
      cases ht
  | branch hi ht =>
    cases k with
    | exec hi' he' _ =>
      obtain rfl := Option.some_inj.1 (hi.symm.trans hi')
      rw [Machine.target_of_exec he'] at ht
      cases ht
    | branch hi' ht' =>
      obtain rfl := Option.some_inj.1 (hi.symm.trans hi')
      exact Option.some_inj.1 (ht.symm.trans ht')

theorem Machine.execAll_append {js : List Instr} (h : m.execAll p is = some m') :
    m.execAll p (is ++ js) = m'.execAll (p.skip is.length) js := by
  induction is generalizing p m with
  | nil =>
    cases h
    rfl
  | cons i is ih =>
    obtain ⟨m₁, h₁, h₂⟩ := Option.bind_eq_some_iff.1 h
    rw [List.cons_append, execAll, h₁, Option.bind_some, ih h₂, Pos.skip_skip, List.length_cons,
      Nat.add_comm]

/-- A stretch of code that ends with a branch. -/
theorem enters_of_stretch (h : Stretch g p (is ++ [i])) (hm : m.execAll p is = some m')
    (hi : m'.target i = some b) : Enters g p m b := by
  induction is generalizing p m with
  | nil =>
    cases hm
    exact .branch h.head hi
  | cons j is ih =>
    obtain ⟨m₁, h₁, h₂⟩ := Option.bind_eq_some_iff.1 hm
    exact .exec h.head h₁ (ih h.tail h₂)

end Dolorem.Codegen
