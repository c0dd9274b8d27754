import Dolorem.Codegen.Conditions
import Dolorem.Codegen.Numbers
import Dolorem.Codegen.Visits
import Dolorem.Lib.Widen

/-!
# The values of integer expressions

`+`, `-` and `*` bring their operands to the width of the wider one, and
`LLVMBuildIntCast` extends the sign of the narrower one even if its type has
none. `IntExpr.computed` is what the emitted code computes, `IntExpr.exact` what
the types of the operands ask for; they are the same at every node if and only
if no operand is extended that has its highest bit set and no sign:
`arith_exact_iff`.
-/

namespace Dolorem.Codegen

open CodeGraph
open Widen

/-! ## Running the code of expressions -/

namespace Machine

/-- The instructions of integer expressions. None of them writes to memory. -/
def compute (m : Machine) (p : Pos) : Instr → Option Machine
  | .load v => m.exec p (.load v)
  | .cast op v l => m.exec p (.cast op v l)
  | .bin .add a b => some (m.define p (m.read a + m.read b))
  | .bin .sub a b => some (m.define p (m.read a - m.read b))
  | .bin .mul a b => some (m.define p (m.read a * m.read b))
  | _ => none

/-- The instructions `is`, of which the first stands at `p`, are executed. -/
def computeAll (m : Machine) : Pos → List Instr → Option Machine
  | _, [] => some m
  | p, i :: is => (m.compute p i).bind fun m => computeAll m (p.skip 1) is

end Machine

/-- `x` is not the result of an instruction at `p` or behind it. -/
def Ref.Before (p : Pos) (x : Ref) : Prop := ∀ k, p.idx ≤ k → x ≠ .inst ⟨p.blk, k⟩

/-- What code at `p` leaves as it is. -/
structure Machine.Past (p : Pos) (m m' : Machine) : Prop where
  mem : m'.mem = m.mem
  val : ∀ x : Ref, x.Before p → m'.val x = m.val x

section Run

variable {p : Pos} {m m' m₁ : Machine} {i : Instr} {is js : List Instr} {x : Ref} {v : Value} {k : Nat}

theorem Ref.Before.skip (h : x.Before p) (k : Nat) : x.Before (p.skip k) :=
  fun j hj => h j (Nat.le_trans (Nat.le_add_right _ _) hj)

theorem before_skip (p : Pos) (k : Nat) (hk : 0 < k) : (Ref.inst p).Before (p.skip k) := by
  intro j hj h
  have hidx : p.idx = j := congrArg Pos.idx (Ref.inst.inj h)
  rw [← hidx] at hj
  exact absurd hj (Nat.not_le.2 (Nat.lt_add_of_pos_right hk))

theorem Machine.Past.refl (p : Pos) (m : Machine) : Past p m m := ⟨rfl, fun _ _ => rfl⟩

theorem Machine.Past.read (h : Past p m m') (hv : v.ref.Before p) : m'.read v = m.read v := by
  obtain ⟨x, l⟩ := v
  cases x with
  | const i => rfl
  | _ => exact h.val _ hv

theorem Machine.compute_define (h : m.compute p i = some m') : ∃ x, m' = m.define p x := by
  unfold compute at h
  split at h
  · exact ⟨_, (Option.some.inj h).symm⟩
  · unfold exec at h
    split at h
    · next heq => cases heq
    · next heq => cases heq
    · split at h
      · exact ⟨_, (Option.some.inj h).symm⟩
      · cases h
    · cases h
  · exact ⟨_, (Option.some.inj h).symm⟩
  · exact ⟨_, (Option.some.inj h).symm⟩
  · exact ⟨_, (Option.some.inj h).symm⟩
  · cases h

theorem Machine.computeAll_past (h : m.computeAll p is = some m') : Past p m m' := by
  induction is generalizing p m with
  | nil =>
    cases h
    exact .refl p _
  | cons i is ih =>
    obtain ⟨m₁, h₁, h₂⟩ := Option.bind_eq_some_iff.1 h
    obtain ⟨x, rfl⟩ := compute_define h₁
    have hrest := ih h₂
    refine ⟨hrest.mem, fun y hy => (hrest.val y (hy.skip 1)).trans (if_neg ?_)⟩
    exact hy p.idx le_rfl

theorem Machine.computeAll_append (h : m.computeAll p is = some m') :
    m.computeAll p (is ++ js) = m'.computeAll (p.skip is.length) js := by
  induction is generalizing p m with
  | nil =>
    cases h
    rfl
  | cons i is ih =>
    obtain ⟨m₁, h₁, h₂⟩ := Option.bind_eq_some_iff.1 h
    rw [List.cons_append, computeAll, h₁, Option.bind_some, ih h₂, Pos.skip_skip, List.length_cons,
      Nat.add_comm]

end Run

/-! ## Code that computes an integer -/

/-- Every machine executes the code `is` behind `s`. -/
def Runs (s : St) (is : List Instr) : Prop := ∀ m : Machine, ∃ m', m.computeAll s.here is = some m'

/-- The code `is` behind `s` leaves the integer `f m` in `a`. -/
structure Computes (s : St) (is : List Instr) (a : Value) {w : Nat} (f : Machine → BitVec w) :
    Prop where
  known : a.ref.Before (s.emitAll is).here
  value : ∀ m : Machine, ∃ m', m.computeAll s.here is = some m' ∧ BitVec.ofInt w (m'.read a) = f m

/-- `f` depends on what there was before `s` only. -/
def Stable {w : Nat} (s : St) (f : Machine → BitVec w) : Prop :=
  ∀ m m' : Machine, m.Past s.here m' → f m' = f m

section Computes

variable {s : St} {is js : List Instr} {a b : Value} {w w' : Nat} {f : Machine → BitVec w}
variable {g : Machine → BitVec w'}

theorem Runs.append (hs : Building s) (h : Runs s is) (k : Runs (s.emitAll is) js) :
    Runs s (is ++ js) := by
  intro m
  obtain ⟨m₁, h₁⟩ := h m
  obtain ⟨m₂, h₂⟩ := k m₁
  exact ⟨m₂, by rw [Machine.computeAll_append h₁, ← here_emitAll hs, h₂]⟩

theorem Computes.runs (h : Computes s is a f) : Runs s is := fun m =>
  let ⟨m', hm, _⟩ := h.value m
  ⟨m', hm⟩

/-- A value is still there after more code. -/
theorem Computes.keep (hs : Building s) (h : Computes s is a f) (k : Runs (s.emitAll is) js) :
    Computes s (is ++ js) a f := by
  refine ⟨?_, fun m => ?_⟩
  · rw [← St.emitAll_emitAll, here_emitAll (Evolves.emitAll hs is).building]
    exact h.known.skip _
  · obtain ⟨m₁, h₁, hval⟩ := h.value m
    obtain ⟨m₂, h₂⟩ := k m₁
    refine ⟨m₂, by rw [Machine.computeAll_append h₁, ← here_emitAll hs, h₂], ?_⟩
    rw [(Machine.computeAll_past h₂).read h.known, hval]

/-- A value may be computed behind other code. -/
theorem Computes.behind (hs : Building s) (h : Computes (s.emitAll is) js b g) (k : Runs s is)
    (hg : Stable s g) : Computes s (is ++ js) b g := by
  refine ⟨by rw [← St.emitAll_emitAll]; exact h.known, fun m => ?_⟩
  obtain ⟨m₁, h₁⟩ := k m
  obtain ⟨m₂, h₂, hval⟩ := h.value m₁
  refine ⟨m₂, by rw [Machine.computeAll_append h₁, ← here_emitAll hs, h₂], ?_⟩
  rw [hval, hg m m₁ (Machine.computeAll_past h₁)]

/-- One instruction more, with the result `f m`. -/
theorem Computes.build (hs : Building s) {i : Instr} {l : LTy} (h : Runs s is)
    (hi : ∀ m m' : Machine, m.computeAll s.here is = some m' →
      ∃ x, m'.compute (s.emitAll is).here i = some (m'.define (s.emitAll is).here x) ∧
        BitVec.ofInt w x = f m) :
    Computes s (is ++ [i]) ⟨.inst (s.emitAll is).here, l⟩ f := by
  refine ⟨?_, fun m => ?_⟩
  · rw [← St.emitAll_emitAll, here_emitAll (Evolves.emitAll hs is).building]
    exact before_skip _ 1 Nat.one_pos
  · obtain ⟨m₁, h₁⟩ := h m
    obtain ⟨x, hx, hval⟩ := hi m m₁ h₁
    refine ⟨m₁.define (s.emitAll is).here x, ?_, by rw [Machine.read_define, hval]⟩
    rw [Machine.computeAll_append h₁, ← here_emitAll hs]
    simp only [Machine.computeAll, hx, Option.bind_some]

/-- `LLVMBuildIntCast` extends the sign. -/
theorem Computes.cast (hs : Building s) (h : Computes s is a f) (ha : a.ty = .int w) (W : Nat) :
    Computes s (is ++ [.cast .intCast a (.int W)]) ⟨.inst (s.emitAll is).here, .int W⟩
      fun m => BitVec.ofInt W (f m).toInt := by
  refine .build hs h.runs fun m m' hm => ⟨(BitVec.ofInt W (f m).toInt).toInt, ?_,
    BitVec.ofInt_toInt⟩
  obtain ⟨m₁, hm₁, hval⟩ := h.value m
  obtain rfl := Option.some.inj (hm.symm.trans hm₁)
  simp only [Machine.compute, Machine.exec, ha, hval]
  rfl

/-- The instruction of `op`. -/
def binOp : RingOp → BinOp
  | .add => .add
  | .sub => .sub
  | .mul => .mul

theorem compute_bin (op : RingOp) (m : Machine) (p : Pos) (a b : Value) :
    m.compute p (.bin (binOp op) a b) = some (m.define p (op.eval (m.read a) (m.read b))) := by
  cases op <;> rfl

theorem Computes.bin {f g : Machine → BitVec w} (hs : Building s) (h : Computes s is a f)
    (k : Computes s is b g) (op : RingOp) (l : LTy) :
    Computes s (is ++ [.bin (binOp op) a b]) ⟨.inst (s.emitAll is).here, l⟩
      fun m => BitVec.ofInt w (op.eval (f m).toInt (g m).toInt) := by
  refine .build hs h.runs fun m m' hm => ⟨_, compute_bin op _ _ a b, ?_⟩
  obtain ⟨m₁, hm₁, hf⟩ := h.value m
  obtain rfl := Option.some.inj (hm.symm.trans hm₁)
  obtain ⟨m₂, hm₂, hg⟩ := k.value m
  obtain rfl := Option.some.inj (hm.symm.trans hm₂)
  rw [ofInt_eq_iff]
  refine op.eval_modEq ?_ ?_
  · rw [← ofInt_eq_iff, hf, BitVec.ofInt_toInt]
  · rw [← ofInt_eq_iff, hg, BitVec.ofInt_toInt]

end Computes

/-! ## Expressions -/

/-- An expression of integer variables. A variable comes with its address, its width and whether
its type has a sign. -/
inductive IntExpr where
  | var (x : String) (v : Value) (w : Nat) (signed : Bool)
  | node (op : RingOp) (a b : IntExpr)

/-- The macro of `op`. -/
def arithOp : RingOp → ArithOp
  | .add => .add
  | .sub => .sub
  | .mul => .mul

namespace IntExpr

def expr : IntExpr → Expr
  | var x _ _ _ => .ident x
  | node op a b => .arith (arithOp op) a.expr b.expr

def width : IntExpr → Nat
  | var _ _ w _ => w
  | node _ a b => max a.width b.width

/-- A node has the type of its wider operand, or of the left one. -/
def signed : IntExpr → Bool
  | var _ _ _ signed => signed
  | node _ a b => if a.width < b.width then b.signed else a.signed

/-- What the emitted code computes: narrower operands are extended with their sign. -/
def computed (m : Machine) : (e : IntExpr) → BitVec e.width
  | var _ v w _ => BitVec.ofInt w (m.mem (m.read v))
  | node op a b => BitVec.ofInt _ (op.eval (a.computed m).toInt (b.computed m).toInt)

/-- The exact result on the integers that the types of the operands say they are, modulo the width
of the wider one. -/
def exact (m : Machine) : (e : IntExpr) → BitVec e.width
  | var _ v w _ => BitVec.ofInt w (m.mem (m.read v))
  | node op a b =>
    BitVec.ofInt _ (op.eval (reading a.signed (a.exact m)) (reading b.signed (b.exact m)))

/-- Every operand that has to be widened has a sign, or its highest bit is clear, or it is
multiplied by a multiple of what the bits in front of it stand for. -/
def Kept (m : Machine) : IntExpr → Prop
  | var _ _ _ _ => True
  | node op a b => a.Kept m ∧ b.Kept m ∧
      Suits op a.signed (a.exact m) (max a.width b.width) (b.exact m).toNat ∧
      Suits op b.signed (b.exact m) (max a.width b.width) (a.exact m).toNat

/-- The variables are what the state says. -/
def Declared (s : St) : IntExpr → Prop
  | var x v w signed =>
    evalIdent x s = .ok (⟨v, .integer w signed, true⟩, s) ∧ v.ty = .ptr (.int w) ∧
      v.ref.Before s.here
  | node _ a b => a.Declared s ∧ b.Declared s

/-- All nodes. -/
def parts : IntExpr → List IntExpr
  | var x v w signed => [var x v w signed]
  | node op a b => node op a b :: (a.parts ++ b.parts)

variable {s : St} {is : List Instr} {m : Machine} {e e' : IntExpr}

theorem Declared.emitAll (hs : Building s) (h : e.Declared s) (is : List Instr) :
    e.Declared (s.emitAll is) := by
  induction e with
  | var x v w signed =>
    obtain ⟨hx, hv, hk⟩ := h
    exact ⟨evalIdent_emitAll hx is, hv, by rw [here_emitAll hs]; exact hk.skip _⟩
  | node op a b iha ihb => exact ⟨iha h.1, ihb h.2⟩

/-- Only the variables and the memory are looked at. -/
theorem Declared.stable (h : e.Declared s) : Stable s fun m => e.computed m := by
  intro m m' hp
  induction e with
  | var x v w signed =>
    show BitVec.ofInt w (m'.mem (m'.read v)) = BitVec.ofInt w (m.mem (m.read v))
    rw [hp.mem, hp.read h.2.2]
  | node op a b iha ihb =>
    have ha : a.computed m' = a.computed m := iha h.1
    have hb : b.computed m' = b.computed m := ihb h.2
    show BitVec.ofInt _ (op.eval (a.computed m').toInt (b.computed m').toInt) = _
    rw [ha, hb]
    rfl

theorem Declared.part (h : e.Declared s) (he : e' ∈ e.parts) : e'.Declared s := by
  induction e with
  | var x v w signed =>
    obtain rfl := List.mem_singleton.1 he
    exact h
  | node op a b iha ihb =>
    rcases List.mem_cons.1 he with rfl | he
    · exact h
    · exact (List.mem_append.1 he).elim (iha h.1) (ihb h.2)

theorem self_mem_parts (e : IntExpr) : e ∈ e.parts := by
  cases e <;> exact List.mem_cons_self

/-- The code is right at every node if and only if every operand is kept. -/
theorem computed_eq_exact_iff (m : Machine) (e : IntExpr) :
    (∀ e' ∈ e.parts, e'.computed m = e'.exact m) ↔ e.Kept m := by
  induction e with
  | var x v w signed =>
    refine iff_of_true (fun e' he' => ?_) trivial
    obtain rfl := List.mem_singleton.1 he'
    rfl
  | node op a b iha ihb =>
    have hnode : a.computed m = a.exact m → b.computed m = b.exact m →
        ((node op a b).computed m = (node op a b).exact m ↔
          Suits op a.signed (a.exact m) (max a.width b.width) (b.exact m).toNat ∧
          Suits op b.signed (b.exact m) (max a.width b.width) (a.exact m).toNat) := by
      intro ha hb
      rw [← eval_iff]
      show BitVec.ofInt _ (op.eval (a.computed m).toInt (b.computed m).toInt) = _ ↔ _
      rw [ha, hb]
      rfl
    rw [parts, List.forall_mem_cons, List.forall_mem_append, iha, ihb, Kept]
    constructor
    · rintro ⟨h, ha, hb⟩
      exact ⟨ha, hb, (hnode (iha.2 ha a a.self_mem_parts) (ihb.2 hb b b.self_mem_parts)).1 h⟩
    · rintro ⟨ha, hb, h⟩
      exact ⟨(hnode (iha.2 ha a a.self_mem_parts) (ihb.2 hb b b.self_mem_parts)).2 h, ha, hb⟩

/-- An expression can be read back from its text, as the state has its variables. -/
theorem expr_inj (h : e.Declared s) (h' : e'.Declared s) (he : e.expr = e'.expr) : e = e' := by
  induction e generalizing e' with
  | var x v w signed =>
    cases e' with
    | var x' v' w' signed' =>
      cases he
      cases h.1.symm.trans h'.1
      rfl
    | node op a b => cases he
  | node op a b iha ihb =>
    cases e' with
    | var x' v' w' signed' => cases he
    | node op' a' b' =>
      simp only [expr, Expr.arith.injEq] at he
      have hop : op = op' := by
        cases op <;> cases op' <;> first | rfl | cases he.1
      rw [hop, iha h.1 h'.1 he.2.1, ihb h.2 h'.2 he.2.2]

end IntExpr

/-! ## What is emitted -/

section Emitted

variable {run : Nat → Bool} {s s₁ : St} {is js : List Instr} {a b : Value} {w w' : Nat}
variable {f : Machine → BitVec w} {g : Machine → BitVec w'} {m : Machine} {e : IntExpr}

theorem convertOrCrash_integer (ha : a.ty = .int w) (hne : w ≠ w') (signed signed' : Bool)
    (flags : Nat) (s : St) :
    convertOrCrash ⟨a, .integer w signed, false⟩ ⟨.int w', .integer w' signed'⟩ flags s =
      .ok (⟨⟨.inst s.here, .int w'⟩, .integer w' signed', false⟩,
        s.emitAll [.cast .intCast a (.int w')]) := by
  have hl : a.ty ≠ .int w' := fun h => hne (LTy.int.inj (ha.symm.trans h))
  simp only [convertOrCrash, convertType, prepareRead, Bool.false_eq_true, if_false, ok_bind,
    convertTypes_integer hne, Conv.apply, St.buildCast, if_neg hl]
  rfl

theorem Computes.self (h : Computes s is a f) :
    Computes s is a fun m => BitVec.ofInt w (f m).toInt := by
  simp only [BitVec.ofInt_toInt]
  exact h

/-- Both operands are brought to the width of the wider one, by the extension of their signs. -/
theorem expectSameNumber_computes (hs : Building s) (ha : a.ty = .int w) (hb : b.ty = .int w')
    (hf : Computes s is a f) (hg : Computes s is b g) (signed signed' : Bool) :
    ∃ a' b' t' js, expectSameNumber ⟨a, .integer w signed, false⟩ ⟨b, .integer w' signed', false⟩
        (s.emitAll is) =
      .ok ((⟨a', .integer (max w w') (if w < w' then signed' else signed), false⟩,
        ⟨b', t', false⟩), s.emitAll (is ++ js)) ∧ a'.ty = .int (max w w') ∧
      Computes s (is ++ js) a' (fun m => BitVec.ofInt (max w w') (f m).toInt) ∧
      Computes s (is ++ js) b' fun m => BitVec.ofInt (max w w') (g m).toInt := by
  have hruns : ∀ {w : Nat} {a : Value} (W : Nat), a.ty = .int w →
      Runs (s.emitAll is) [.cast .intCast a (.int W)] := by
    intro w a W ha m
    simp only [Machine.computeAll, Machine.compute, Machine.exec, ha, Option.bind_some]
    exact ⟨_, rfl⟩
  rcases Nat.lt_trichotomy w w' with h | rfl | h
  · rw [max_eq_right h.le, if_pos h]
    refine ⟨_, b, .integer w' signed', [.cast .intCast a (.int w')], ?_, rfl, hf.cast hs ha w',
      (hg.keep hs (hruns w' ha)).self⟩
    unfold expectSameNumber
    simp only [if_neg h.ne, if_pos h, hb, convertOrCrash_integer ha h.ne, ok_bind,
      St.emitAll_emitAll]
  · rw [max_self, if_neg (Nat.lt_irrefl w)]
    refine ⟨a, b, .integer w signed', [], ?_, ha, ?_, ?_⟩
    · rw [List.append_nil]
      unfold expectSameNumber
      simp only [if_true]
    · rw [List.append_nil]
      exact hf.self
    · rw [List.append_nil]
      exact hg.self
  · rw [max_eq_left h.le, if_neg h.le.not_gt]
    refine ⟨a, _, .integer w signed, [.cast .intCast b (.int w)], ?_, ha, (hf.keep hs (hruns w hb)).self,
      hg.cast hs hb w⟩
    unfold expectSameNumber
    simp only [if_neg h.ne', if_neg h.le.not_gt, ha, convertOrCrash_integer hb h.ne, ok_bind,
      St.emitAll_emitAll]

variable (run) in
/-- The code that evaluation of an expression emits. -/
theorem IntExpr.evaluates (hs : Building s) (hd : e.Declared s) :
    ∃ r is a js, eval run e.expr s = .ok (r, s.emitAll is) ∧
      prepareRead r (s.emitAll is) =
        .ok (⟨a, .integer e.width e.signed, false⟩, s.emitAll (is ++ js)) ∧
      a.ty = .int e.width ∧ Computes s (is ++ js) a (fun m => e.computed m) ∧
      ∀ m : Machine, ∃ m', m.computeAll s.here is = some m' ∧ m'.Holds r (e.computed m) := by
  induction e generalizing s with
  | var x v w signed =>
    obtain ⟨hx, hv, hk⟩ := hd
    refine ⟨⟨v, .integer w signed, true⟩, [], ⟨.inst s.here, .int w⟩, [.load v], ?_, ?_, rfl, ?_,
      fun m => ⟨m, rfl, rfl⟩⟩
    · rw [St.emitAll_nil]
      show eval run (.ident x) s = _
      rw [eval, hx]
    · rw [St.emitAll_nil, List.nil_append]
      simp only [prepareRead, if_true, hv]
      rfl
    · have hnil : Runs s [] := fun m => ⟨m, rfl⟩
      have hload := Computes.build hs (l := .int w) hnil
        (f := fun m => BitVec.ofInt w (m.mem (m.read v))) (i := .load v) fun m m' hm => by
          cases hm
          exact ⟨_, rfl, rfl⟩
      rw [St.emitAll_nil] at hload
      exact hload
  | node op a b iha ihb =>
    obtain ⟨r, is, av, js, hr, hread, hav, hca, -⟩ := iha hs hd.1
    have hs₁ := (Evolves.emitAll hs (is ++ js)).building
    obtain ⟨r', is', bv, js', hr', hread', hbv, hcb, -⟩ := ihb hs₁ (hd.2.emitAll hs (is ++ js))
    rw [St.emitAll_emitAll] at hr' hread'
    -- each operand keeps its value while the other one is computed
    have hca' := hca.keep hs hcb.runs
    have hcb' := hcb.behind hs hca.runs hd.2.stable
    obtain ⟨a', b', t', ks, hsame, hty, ha', hb'⟩ :=
      expectSameNumber_computes hs hav hbv hca' hcb' a.signed b.signed
    have hbin := ha'.bin hs hb' op (.int (max a.width b.width))
    -- the instruction computes with the widened operands, `computed` with the operands
    have hf : (fun m => BitVec.ofInt (max a.width b.width)
        (op.eval (BitVec.ofInt (max a.width b.width) (a.computed m).toInt).toInt
          (BitVec.ofInt (max a.width b.width) (b.computed m).toInt).toInt)) =
        fun m => (IntExpr.node op a b).computed m := by
      funext m
      show _ = BitVec.ofInt (max a.width b.width)
        (op.eval (a.computed m).toInt (b.computed m).toInt)
      rw [ofInt_eq_iff]
      refine op.eval_modEq ?_ ?_ <;> rw [← ofInt_eq_iff, BitVec.ofInt_toInt]
    rw [hf] at hbin
    refine ⟨⟨⟨.inst (s.emitAll ((is ++ js) ++ (is' ++ js') ++ ks)).here,
        .int (max a.width b.width)⟩,
        .integer (max a.width b.width) (if a.width < b.width then b.signed else a.signed), false⟩,
      (is ++ js) ++ (is' ++ js') ++ ks ++ [.bin (binOp op) a' b'],
      ⟨.inst (s.emitAll ((is ++ js) ++ (is' ++ js') ++ ks)).here, .int (max a.width b.width)⟩, [],
      ?_, ?_, rfl, ?_, fun m => ?_⟩
    · show eval run (.arith (arithOp op) a.expr b.expr) s = _
      rw [eval_arith]
      rw [List.append_assoc] at hread'
      simp only [operands, hr, hread, hr', hread', ok_bind, List.append_assoc] at hsame ⊢
      simp only [hsame, ok_bind, buildArith, Ty.isInt, if_true, hty, St.build, St.emit,
        St.emitAll_emitAll, List.append_assoc]
      cases op <;> rfl
    · rw [List.append_nil]
      rfl
    · rw [List.append_nil]
      exact hbin
    · obtain ⟨m', hm, hval⟩ := hbin.value m
      exact ⟨m', hm, hval⟩

/-! ## Every node -/

variable (run) in
/-- The evaluation of `e` in the state `s₁` leaves the integer `n`, when what was emitted since `s`
runs on `m`. -/
def Yields (s s₁ : St) (m : Machine) (e : IntExpr) (n : BitVec e.width) : Prop :=
  ∃ r is m', eval run e.expr s₁ = .ok (r, s.emitAll is) ∧ m.computeAll s.here is = some m' ∧
    m'.Holds r n

theorem emitAll_inj (hs : Building s) (h : s.emitAll is = s.emitAll js) : is = js := by
  have hcode := congrArg (fun t : St => t.graph.code s.block) h
  simp only [St.emitAll, Cfg.code_append_self _ hs.lt] at hcode
  exact List.append_cancel_left hcode

theorem yields_iff (hs : Building s) (hd : e.Declared s) (h : Runs s is) (n : BitVec e.width) :
    Yields run s (s.emitAll is) m e n ↔ n = e.computed m := by
  have hs₁ := (Evolves.emitAll hs is).building
  obtain ⟨r, js, a, ks, hr, -, -, -, hval⟩ :=
    IntExpr.evaluates run hs₁ (hd.emitAll hs is)
  rw [St.emitAll_emitAll] at hr
  obtain ⟨m₁, h₁⟩ := h m
  obtain ⟨m₂, h₂, hn⟩ := hval m₁
  have hrun : m.computeAll s.here (is ++ js) = some m₂ := by
    rw [Machine.computeAll_append h₁, ← here_emitAll hs, h₂]
  have hstable : e.computed m₁ = e.computed m := hd.stable m m₁ (Machine.computeAll_past h₁)
  rw [hstable] at hn
  constructor
  · rintro ⟨r', js', m', hr', hm', hn'⟩
    obtain ⟨rfl, hst⟩ := Prod.mk.inj (Except.ok.inj (hr.symm.trans hr'))
    obtain rfl := emitAll_inj hs hst
    obtain rfl := Option.some.inj (hrun.symm.trans hm')
    exact hn'.symm.trans hn
  · rintro rfl
    exact ⟨r, is ++ js, m₂, hr, hrun, hn⟩

/-- What is visited are the nodes, behind code that runs. -/
theorem part_of_visits {q : Expr} (hs : Building s) (hd : e.Declared s)
    (h : Visits run (e.expr, s) (q, s₁)) :
    ∃ e' ∈ e.parts, q = e'.expr ∧ ∃ is, s₁ = s.emitAll is ∧ Runs s is := by
  induction e generalizing s with
  | var x v w signed =>
    rcases Relation.ReflTransGen.cases_head h with h | ⟨_, hstep, -⟩
    · cases h
      exact ⟨_, List.mem_cons_self, rfl, [], (St.emitAll_nil _).symm, fun m => ⟨m, rfl⟩⟩
    · cases hstep
  | node op a b iha ihb =>
    rcases Relation.ReflTransGen.cases_head h with h | ⟨⟨p, s'⟩, hstep, hrest⟩
    · cases h
      exact ⟨_, List.mem_cons_self, rfl, [], (St.emitAll_nil _).symm, fun m => ⟨m, rfl⟩⟩
    · cases hstep with
      | arithLeft op a b s =>
        obtain ⟨e', he', hq, is, hs₁, hr⟩ := iha hs hd.1 hrest
        exact ⟨e', List.mem_cons_of_mem _ (List.mem_append_left _ he'), hq, is, hs₁, hr⟩
      | arithRight hv hw =>
        obtain ⟨r, is, av, js, hr, hread, -, hc, -⟩ := IntExpr.evaluates run hs hd.1
        cases hr.symm.trans hv
        cases hread.symm.trans hw
        obtain ⟨e', he', hq, ks, hs₁, hk⟩ :=
          ihb (Evolves.emitAll hs _).building (hd.2.emitAll hs _) hrest
        rw [St.emitAll_emitAll] at hs₁
        exact ⟨e', List.mem_cons_of_mem _ (List.mem_append_right _ he'), hq, _, hs₁,
          hc.runs.append hs hk⟩

variable (run) in
/-- Every node is visited. -/
theorem visits_part {e' : IntExpr} (hs : Building s) (hd : e.Declared s) (he : e' ∈ e.parts) :
    ∃ is, Visits run (e.expr, s) (e'.expr, s.emitAll is) ∧ Runs s is := by
  have hself : ∀ (e : IntExpr) (s : St),
      ∃ is, Visits run (e.expr, s) (e.expr, s.emitAll is) ∧ Runs s is :=
    fun e s => ⟨[], by rw [St.emitAll_nil]; exact .refl, fun m => ⟨m, rfl⟩⟩
  induction e generalizing s with
  | var x v w signed =>
    obtain rfl := List.mem_singleton.1 he
    exact hself _ s
  | node op a b iha ihb =>
    rcases List.mem_cons.1 he with rfl | he
    · exact hself _ s
    rcases List.mem_append.1 he with he | he
    · obtain ⟨is, hv, hr⟩ := iha hs hd.1 he
      exact ⟨is, .head (.arithLeft _ _ _ _) hv, hr⟩
    · obtain ⟨r, is, av, js, hr, hread, -, hc, -⟩ := IntExpr.evaluates run hs hd.1
      obtain ⟨ks, hv, hk⟩ :=
        ihb (Evolves.emitAll hs (is ++ js)).building (hd.2.emitAll hs _) he
      rw [St.emitAll_emitAll] at hv
      have hstep : Subeval run (IntExpr.node op a b).expr s b.expr (s.emitAll (is ++ js)) :=
        .arithRight hr hread
      exact ⟨_, .head hstep hv, hc.runs.append hs hk⟩

/-- The code computes the exact result at every node if and only if every operand that is widened
keeps its value under the extension of its sign. -/
theorem arith_exact_iff (run : Nat → Bool) {s : St} {root : IntExpr} (m : Machine)
    (hs : Building s) (hd : root.Declared s) :
    (∀ e s₁, e.Declared s → Visits run (root.expr, s) (e.expr, s₁) →
      Yields run s s₁ m e (e.exact m)) ↔ root.Kept m := by
  rw [← IntExpr.computed_eq_exact_iff]
  constructor
  · intro h e he
    obtain ⟨is, hv, hr⟩ := visits_part run hs hd he
    have hde := hd.part he
    exact ((yields_iff hs hde hr _).1 (h e _ hde hv)).symm
  · intro h e s₁ hde hv
    obtain ⟨e', he', hq, is, rfl, hr⟩ := part_of_visits hs hd hv
    obtain rfl := IntExpr.expr_inj hde (hd.part he') hq
    exact (yields_iff hs hde hr _).2 (h e he').symm

end Emitted

/-- A function with a variable `x` of type `u8` and a variable `y` of type `u32`. -/
def intBody : St :=
  { emptyBody with curfn := some [[⟨"x", ⟨.ext 0, .ptr (.int 8)⟩, .integer 8 false⟩,
    ⟨"y", ⟨.ext 1, .ptr (.int 32)⟩, .integer 32 false⟩]] }

theorem intBody_building : Building intBody := ⟨rfl, by decide, rfl⟩

/-- `(+ x y)`. -/
def byteSum : IntExpr :=
  .node .add (.var "x" ⟨.ext 0, .ptr (.int 8)⟩ 8 false) (.var "y" ⟨.ext 1, .ptr (.int 32)⟩ 32 false)

theorem byteSum_declared : byteSum.Declared intBody :=
  ⟨⟨rfl, rfl, fun _ _ h => nomatch h⟩, rfl, rfl, fun _ _ h => nomatch h⟩

/-- `(* (+ x y) (+ x y))`, when both variables are 3. -/
theorem arith_exact_iff_example :
    (∀ e s₁, e.Declared intBody →
      Visits (fun _ => true) ((IntExpr.node .mul byteSum byteSum).expr, intBody) (e.expr, s₁) →
      Yields (fun _ => true) intBody s₁ (.always 3) e (e.exact (.always 3))) ↔
    (IntExpr.node .mul byteSum byteSum).Kept (.always 3) :=
  arith_exact_iff _ _ intBody_building ⟨byteSum_declared, byteSum_declared⟩

/-- A machine on which `x` is 200 and `y` is 1. -/
def bigByte : Machine where
  val
    | .ext k => k
    | _ => 0
  mem a := if a = 0 then 200 else 1

/-- The sum of 200 and 1 is computed as `-56 + 1`. -/
theorem byte_sum_wrong :
    byteSum.Declared intBody ∧ (byteSum.exact bigByte).toNat = 201 ∧
      (byteSum.computed bigByte).toNat = 4294967241 ∧
      ¬ ∀ e s₁, e.Declared intBody → Visits (fun _ => true) (byteSum.expr, intBody) (e.expr, s₁) →
        Yields (fun _ => true) intBody s₁ bigByte e (e.exact bigByte) := by
  refine ⟨byteSum_declared, by decide, by decide, fun h => ?_⟩
  have hroot := h byteSum intBody byteSum_declared .refl
  rw [← St.emitAll_nil (s := intBody)] at hroot
  have heq := (yields_iff intBody_building byteSum_declared (fun m => ⟨m, rfl⟩) _).1 hroot
  exact absurd (congrArg BitVec.toNat heq) (by decide)

end Dolorem.Codegen
