import Dolorem.Codegen.Moves
import Dolorem.Lib.Interp
import Dolorem.Programs.Operators

/-!
# Running linked code

An `Image` is what the JIT makes of the modules: the code of all functions, and
what a name is bound to. A `Config` is a running program: the registers of the
function that runs, the memory, and the frames of the functions that wait for it.
Every `alloca` gets a cell of its own. What a register or a cell holds before it
is written is undefined, and code that asks for it does not go on.
-/

namespace Dolorem.Programs

open Codegen CodeGraph Words

/-- `entry` is the first block of the function with a name, and `addr` the place
of the global with a name. -/
structure Image where
  graph : Cfg Nat Instr
  fns : List LFun
  entry : String → Option Nat
  addr : String → Int

/-- The registers of the function that runs, and the memory. -/
structure Core where
  val : Ref → Option Int
  mem : Int → Option Int

namespace Core

/-- The operand `v`. -/
def read (m : Core) (v : Value) : Option Int :=
  match v.ref with
  | .const i => some i
  | x => m.val x

/-- The instruction at `p` has the result `x`. -/
def define (m : Core) (p : Pos) (x : Int) : Core :=
  { m with val := fun y => if y = .inst p then some x else m.val y }

/-- The cell `a` holds `x`, or nothing that is defined. -/
def fill (m : Core) (a : Int) (x : Option Int) : Core :=
  { m with mem := fun y => if y = a then x else m.mem y }

/-- Where a branch goes. -/
def target (m : Core) : Instr → Option Nat
  | .br b => some b
  | .condBr c t f => (m.read c).map fun x => if BitVec.ofInt 1 x = 1#1 then t else f
  | _ => none

end Core

/-- A function that waits at a call. -/
structure Frame where
  pos : Pos
  prev : Nat
  val : Ref → Option Int

/-- `prev` is the block control came from, and `next` the first free cell. -/
structure Config where
  pos : Pos
  prev : Nat
  m : Core
  next : Int
  stack : List Frame

/-- The instructions that define a register or write to memory and go on. A load
reads the bits its type asks for, and `LLVMBuildIntCast` truncates or extends the
sign. -/
def perform (m : Core) (p : Pos) : Instr → Option Core
  | .load v =>
    match v.ty with
    | .ptr (.int w) => do
      let a ← m.read v
      let x ← m.mem a
      some (m.define p (wrap w x))
    | _ => none
  | .store v l => do
    let x ← m.read v
    let a ← m.read l
    some (m.fill a (some x))
  | .cast .intCast v (.int w') =>
    match v.ty with
    | .int w => do
      let x ← m.read v
      some (m.define p ((BitVec.ofInt w x).signExtend w').toInt)
    | _ => none
  | .bin op a b =>
    match a.ty with
    | .int w => do
      let x ← m.read a
      let y ← m.read b
      let z ← runBin op (BitVec.ofInt w x) (BitVec.ofInt w y)
      some (m.define p z.toInt)
    | _ => none
  | .icmp pred a b =>
    match a.ty with
    | .int w => do
      let x ← m.read a
      let y ← m.read b
      let z ← runPred pred (BitVec.ofInt w x) (BitVec.ofInt w y)
      some (m.define p (bit z))
    | _ => none
  | .not v =>
    match v.ty with
    | .int w => do
      let x ← m.read v
      some (m.define p (~~~ BitVec.ofInt w x).toInt)
    | _ => none
  | _ => none

/-- The function that runs returns `x`. -/
def Config.leave (c : Config) (x : Int) : Option Config :=
  match c.stack with
  | [] => none
  | f :: stack =>
    some ⟨f.pos.skip 1, f.prev, (⟨f.val, c.m.mem⟩ : Core).define f.pos x, c.next, stack⟩

namespace Image

variable (I : Image)

/-- Where a call of this value goes. -/
def callee (f : Value) : Option Nat :=
  match f.ref with
  | .fn k => (I.fns[k]?.bind (·.name)).bind I.entry
  | _ => none

/-- The registers of a function that is called with these arguments. -/
def registers (xs : List Int) : Ref → Option Int
  | .arg _ i => xs[i]?
  | .global _ x => some (I.addr x)
  | _ => none

def step (c : Config) : Option Config :=
  match I.graph.at? c.pos with
  | none => none
  | some i =>
    match i with
    | .alloca _ =>
      some { c with
        pos := c.pos.skip 1, m := (c.m.fill c.next none).define c.pos c.next, next := c.next + 1 }
    | .phi _ incoming => do
      let p ← incoming.find? (·.2 = c.prev)
      let x ← c.m.read p.1
      some { c with pos := c.pos.skip 1, m := c.m.define c.pos x }
    | .call f args => do
      let b ← I.callee f
      let xs ← args.mapM c.m.read
      some ⟨⟨b, 0⟩, b, ⟨I.registers xs, c.m.mem⟩, c.next, ⟨c.pos, c.prev, c.m.val⟩ :: c.stack⟩
    | .ret v => (c.m.read v).bind c.leave
    | .retVoid => c.leave 0
    | i =>
      match c.m.target i with
      | some b => some { c with pos := ⟨b, 0⟩, prev := c.pos.blk }
      | none => (perform c.m c.pos i).map fun m => { c with pos := c.pos.skip 1, m := m }

/-- The program is over and has returned this. -/
def result (c : Config) : Option Int :=
  match c.stack, I.graph.at? c.pos with
  | [], some (.ret v) => c.m.read v
  | [], some .retVoid => some 0
  | _, _ => none

/-- The program has come to something undefined. -/
def Stuck (c : Config) : Prop := I.step c = none ∧ I.result c = none

/-- A call of a function from outside. -/
def start (name : String) (xs : List Int) (cells : Int → Option Int) (next : Int) : Option Config :=
  (I.entry name).map fun b => ⟨⟨b, 0⟩, b, ⟨I.registers xs, cells⟩, next, []⟩

end Image

section

variable {I : Image} {c : Config} {i : Instr} {m : Core} {x : Int} {b : Nat}

theorem mapM_read {vs : List Value} {xs : List Int}
    (h : List.Forall₂ (fun v x => m.read v = some x) vs xs) : vs.mapM m.read = some xs := by
  induction h with
  | nil => rfl
  | cons hv _ ih => rw [List.mapM_cons, hv, ih]; rfl

theorem target_of_perform (h : perform c.m c.pos i = some m) : c.m.target i = none := by
  cases i with
  | br _ | condBr _ _ _ => cases h
  | _ => rfl

theorem step_perform (hi : I.graph.at? c.pos = some i) (h : perform c.m c.pos i = some m) :
    I.step c = some { c with pos := c.pos.skip 1, m := m } := by
  have ht := target_of_perform h
  unfold Image.step
  rw [hi]
  cases i with
  | alloca _ | phi _ _ | call _ _ | ret _ | retVoid => cases h
  | _ => simp only [ht, h, Option.map_some]

theorem step_target (hi : I.graph.at? c.pos = some i) (h : c.m.target i = some b) :
    I.step c = some { c with pos := ⟨b, 0⟩, prev := c.pos.blk } := by
  unfold Image.step
  rw [hi]
  cases i with
  | br _ | condBr _ _ _ => simp only [h]
  | _ => cases h

/-- A load or an operation without a result. -/
theorem stuck_of_perform (hi : I.graph.at? c.pos = some i)
    (hop : (∃ v, i = .load v) ∨ ∃ op a b, i = .bin op a b) (h : perform c.m c.pos i = none) :
    I.Stuck c := by
  constructor
  · unfold Image.step
    rw [hi]
    obtain ⟨v, rfl⟩ | ⟨op, a, b, rfl⟩ := hop
    · simp only [Core.target, h, Option.map_none]
    · simp only [Core.target, h, Option.map_none]
  · unfold Image.result
    rw [hi]
    obtain ⟨v, rfl⟩ | ⟨op, a, b, rfl⟩ := hop <;> split <;> simp_all

/-- A program that is over makes no step. -/
theorem step_of_result (h : I.result c = some x) : I.step c = none := by
  unfold Image.result at h
  unfold Image.step
  split at h
  · next hc hi => rw [hi]; simp only [h, Option.bind_some, Config.leave, hc]
  · next hc hi => rw [hi]; simp only [Config.leave, hc]
  · cases h

end

end Dolorem.Programs
