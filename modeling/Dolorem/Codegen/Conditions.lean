import Dolorem.Codegen.Evolve
import Dolorem.Codegen.Machine

/-!
# Integers as conditions

`if`, `cond` and `while` convert their condition to an integer of one bit. For
an integer type that is `LLVMBuildIntCast`, which keeps the lowest bit, whatever
aliases the type is behind: the branch is taken when the value is odd, not when
it is different from zero.
-/

namespace Dolorem.Codegen

open CodeGraph

variable {run : Nat → Bool} {s s' : St} {r : Rtv} {w : Nat} {v cv cb : Rtv} {m : Machine}
variable {n : BitVec w} {tested : St} {yes no fn : Nat} {c t e body : Expr}

/-- `v` has an integer type of `w` bits, behind any number of aliases. -/
structure Rtv.IsInteger (w : Nat) (v : Rtv) : Prop where
  type : ∃ flag, v.t.unalias = .integer w flag
  ty : v.v.ty = if v.lval then .ptr (.int w) else .int w

/-- The integer `v` is `n` when the code emitted so far has run. -/
def Machine.Holds (m : Machine) (v : Rtv) (n : BitVec w) : Prop :=
  BitVec.ofInt w (if v.lval then m.mem (m.read v.v) else m.read v.v) = n

/-! ## The conversion -/

/-- One bit, truncated, is the lowest one. -/
theorem signExtend_one (n : BitVec w) : n.signExtend 1 = 1#1 ↔ n.getLsbD 0 = true := by
  have hbit : (n.signExtend 1).getLsbD 0 = n.getLsbD 0 := by
    rcases Nat.eq_zero_or_pos w with rfl | hw
    · rw [BitVec.eq_nil n]
      rfl
    · rw [BitVec.getLsbD_signExtend, if_pos hw]
      simp
  rw [← hbit]
  constructor
  · intro h
    rw [h]
    rfl
  · intro h
    refine BitVec.eq_of_getLsbD_eq fun i hi => ?_
    obtain rfl := Nat.lt_one_iff.1 hi
    exact h

/-- What is done with an integer to make a condition of it. -/
def conditionConv (w : Nat) (flag : Bool) : Conv :=
  if w = 1 ∧ flag = false then .same (.integer 1 false)
  else .build .intCast (.int 1) (.integer 1 false)

theorem convertWithin_bare (k w : Nat) (flag : Bool) (flags : Nat) :
    convertWithin k (.integer w flag) (lowerIntegerType 1 false) flags =
      some (conditionConv w flag) := by
  unfold conditionConv
  split
  · next h =>
    obtain ⟨rfl, rfl⟩ := h
    cases k <;> rfl
  · next h =>
    have hne : Ty.integer w flag ≠ .integer 1 false := by
      intro heq
      cases heq
      exact h ⟨rfl, rfl⟩
    cases k <;>
      simp [convertWithin, convertEqualTypes, convertPointerTypes, convertAliasUnwrap,
        convertNumbers, lowerIntegerType, Ty.isPointer, hne]

/-- The search for a conversion to a condition takes the aliases off. -/
theorem convertWithin_integer {flag : Bool} : ∀ {t : Ty} {k : Nat} (flags : Nat),
    t.unalias = .integer w flag → t.aliases ≤ k →
      convertWithin k t (lowerIntegerType 1 false) flags = some (conditionConv w flag)
  | .integer _ _, k, flags, h, _ => by
    cases h
    exact convertWithin_bare k w flag flags
  | .alias a l t, k + 1, flags, h, hk => by
    have hin := convertWithin_integer (t := t) (k := k) 0 h (Nat.le_of_succ_le_succ hk)
    simp only [lowerIntegerType] at hin
    simp [convertWithin, convertEqualTypes, convertPointerTypes, convertAliasUnwrap,
      lowerIntegerType, Ty.isPointer, hin]
  | .alias _ _ _, 0, _, _, hk => absurd hk (Nat.not_succ_le_zero _)
  | .void, _, _, h, _ | .float _, _, _, h, _ | .rawPtr, _, _, h, _ | .pointer _, _, _, h, _
  | .opaqueAlias _, _, _, h, _ | .array _ _ _, _, _, h, _ | .struct _, _, _, h, _
  | .funptr _, _, _, h, _ => nomatch h

theorem convertTypes_condition {flag : Bool} {t : Ty} (flags : Nat)
    (h : t.unalias = .integer w flag) :
    convertTypes t (lowerIntegerType 1 false) flags = some (conditionConv w flag) :=
  convertWithin_integer flags h (Nat.le_add_right _ _)

/-! ## What the emitted code computes -/

theorem Machine.read_define (m : Machine) (p : Pos) (x : Int) (l : LTy) :
    (m.define p x).read ⟨.inst p, l⟩ = x := if_pos rfl

/-- A cast between integer types. -/
theorem buildCast_computes {a : Value} (ha : a.ty = .int w) (k : Nat) (s : St) :
    ∃ is, (s.buildCast .intCast a (.int k)).2 = s.emitAll is ∧ ∀ m : Machine,
      ∃ m', m.execAll s.here is = some m' ∧
        BitVec.ofInt k (m'.read (s.buildCast .intCast a (.int k)).1) =
          (BitVec.ofInt w (m.read a)).signExtend k := by
  unfold St.buildCast
  split
  · next h =>
    obtain rfl : w = k := LTy.int.inj (ha.symm.trans h)
    exact ⟨[], by simp, fun m => ⟨m, rfl, (BitVec.signExtend_eq _).symm⟩⟩
  · refine ⟨[.cast .intCast a (.int k)], rfl, fun m => ?_⟩
    refine ⟨m.define s.here ((BitVec.ofInt w (m.read a)).signExtend k).toInt, ?_, ?_⟩
    · simp only [Machine.execAll, Machine.exec, ha, Option.bind_some]
    · rw [St.build, Machine.read_define, BitVec.ofInt_toInt]

/-- An integer that is read. -/
theorem prepareRead_computes (hv : v.IsInteger w) (s : St) :
    ∃ is a, prepareRead v s = .ok (⟨a, v.t, false⟩, s.emitAll is) ∧ a.ty = .int w ∧
      ∀ m : Machine, ∀ n : BitVec w, m.Holds v n →
        ∃ m', m.execAll s.here is = some m' ∧ BitVec.ofInt w (m'.read a) = n := by
  have hty := hv.ty
  unfold prepareRead Machine.Holds
  split
  · next hl =>
    rw [if_pos hl] at hty
    rw [hty]
    refine ⟨[.load v.v], ⟨.inst s.here, .int w⟩, rfl, rfl, fun m n hn => ?_⟩
    exact ⟨_, rfl, by rw [Machine.read_define]; exact hn⟩
  · next hl =>
    rw [if_neg hl] at hty
    refine ⟨[], v.v, ?_, hty, fun m n hn => ⟨m, rfl, hn⟩⟩
    rw [St.emitAll_nil, ← Bool.eq_false_iff.2 hl]

/-- The condition made of an integer is its lowest bit. -/
theorem toCondition_computes (hs : Building s) (hv : v.IsInteger w)
    (h : toCondition v s = .ok (cb, s')) :
    ∃ is, s' = s.emitAll is ∧ ∀ m : Machine, ∀ n : BitVec w, m.Holds v n →
      ∃ m', m.execAll s.here is = some m' ∧ m'.isTrue cb.v = n.getLsbD 0 := by
  obtain ⟨flag, ht⟩ := hv.type
  obtain ⟨is, a, hread, ha, hcomp⟩ := prepareRead_computes hv s
  obtain ⟨js, hjs, hcast⟩ := buildCast_computes ha 1 (s.emitAll is)
  have hrun : toCondition v s = .ok (((conditionConv w flag).apply ⟨a, v.t, false⟩
      (s.emitAll is)).1, ((conditionConv w flag).apply ⟨a, v.t, false⟩ (s.emitAll is)).2) := by
    simp only [toCondition, hread, ok_bind, convertType,
      prepareRead_of_rval (v := ⟨a, v.t, false⟩) rfl, convertTypes_condition 1 ht]
  -- a value of type `u1` is kept, and a cast of it would be no instruction
  have happly : ∀ s : St, ((conditionConv w flag).apply ⟨a, v.t, false⟩ s).1.v =
        (s.buildCast .intCast a (.int 1)).1 ∧
      ((conditionConv w flag).apply ⟨a, v.t, false⟩ s).2 =
        (s.buildCast .intCast a (.int 1)).2 := by
    intro s
    unfold conditionConv
    split
    · next hw =>
      rw [hw.1] at ha
      simp only [Conv.apply, St.buildCast, if_pos ha, and_self]
    · exact ⟨rfl, rfl⟩
  rw [hrun] at h
  cases h
  rw [(happly _).1, (happly _).2, hjs, St.emitAll_emitAll]
  refine ⟨is ++ js, rfl, fun m n hn => ?_⟩
  obtain ⟨m₁, h₁, hval⟩ := hcomp m n hn
  obtain ⟨m₂, h₂, hbit⟩ := hcast m₁
  refine ⟨m₂, by rw [Machine.execAll_append h₁, ← here_emitAll hs, h₂], ?_⟩
  unfold Machine.isTrue
  rw [hbit, hval, Bool.eq_iff_iff, decide_eq_true_iff]
  exact signExtend_one n

/-! ## Conditions -/

/-- In the evaluation of `e` from `s`, the condition has the value `cv` and its
code ends in the state `t`; `yes` and `no` are the blocks it decides between. -/
inductive Tests (run : Nat → Bool) (fn : Nat) (s : St) : Expr → Rtv → St → Nat → Nat → Prop
  | if_ {c t e : Expr} {cv : Rtv} {tested : St} :
      eval run c (threeBlocks fn s) = .ok (cv, tested) →
      Tests run fn s (.if_ c t e) cv tested s.graph.size (s.graph.size + 1)
  | cond {c body : Expr} {cv cb : Rtv} {tested ready : St} :
      eval run c s = .ok (cv, tested) → toCondition cv tested = .ok (cb, ready) →
      Tests run fn s (.cond c body) cv tested ready.graph.size (ready.graph.size + 1)
  | while_ {c body : Expr} {cv : Rtv} {tested : St} :
      eval run c (testStart fn s) = .ok (cv, tested) →
      Tests run fn s (.while_ c body) cv tested (s.graph.size + 1) (s.graph.size + 2)

/-- The code behind the condition: its conversion, and the branch. -/
theorem Tests.code (ht : Tests run fn s e cv tested yes no) (hs : Building s)
    (hfn : s.curllvmfn = some fn) (h : eval run e s = .ok (r, s')) :
    ∃ cb ready, Building tested ∧ toCondition cv tested = .ok (cb, ready) ∧
      ready.graph.Sub s'.graph ∧ s'.graph.at? ready.here = some (.condBr cb.v yes no) := by
  cases ht with
  | if_ hc =>
    obtain ⟨w, hlast⟩ := eval_if_run hfn h
    cases hc.symm.trans w.cond
    have hw := w.evolves hs (eval_evolves run _) (eval_evolves run _) (eval_evolves run _) hlast
    have htested := (eval_evolves run _ (threeBlocks_evolves hs fn).building hc).building
    have hready := (toCondition_evolves htested w.bit).building
    exact ⟨w.cb, w.ready, htested, w.bit, (sub_emit hready _ _).trans hw.2,
      hw.2 _ _ (at?_emit hready _ _)⟩
  | cond hc hb =>
    obtain ⟨w, rfl, rfl⟩ := eval_cond_run
      (fun cv s₁ h₁ => (eval_evolves run _ hs h₁).curllvmfn.trans hfn) h
    cases hc.symm.trans w.cond
    cases hb.symm.trans w.bit
    have hw := w.evolves hs (eval_evolves run _) (eval_evolves run _)
    have htested := (eval_evolves run _ hs hc).building
    have hready := (toCondition_evolves htested hb).building
    have htwo := twoBlocks_evolves hready fn
    have hhere : (twoBlocks fn w.ready).here = w.ready.here := by
      obtain ⟨b, hb⟩ := Option.isSome_iff_exists.1 hready.bldr
      simp [St.here, St.block, twoBlocks, hb, Cfg.endOf]
    exact ⟨w.cb, w.ready, htested, w.bit,
      htwo.grows.sub.trans ((sub_emit htwo.building _ _).trans hw.2),
      hw.2 _ _ (hhere ▸ at?_emit htwo.building _ _)⟩
  | while_ hc =>
    obtain ⟨w, rfl, rfl⟩ := eval_while_run hfn h
    cases hc.symm.trans w.cond
    have hw := w.evolves hs (eval_evolves run _) (eval_evolves run _)
    have htested := (eval_evolves run _ (testStart_evolves hs fn).building hc).building
    have hready := (toCondition_evolves htested w.bit).building
    exact ⟨w.cb, w.ready, htested, w.bit, (sub_emit hready _ _).trans hw.2,
      hw.2 _ _ (at?_emit hready _ _)⟩

theorem Tests.yes_ne_no (ht : Tests run fn s e cv tested yes no) : yes ≠ no := by
  cases ht <;> exact Nat.ne_of_lt (Nat.lt_succ_self _)

/-- The branch looks at the lowest bit of the condition. -/
theorem Tests.enters (ht : Tests run fn s e cv tested yes no) (hs : Building s)
    (hfn : s.curllvmfn = some fn) (h : eval run e s = .ok (r, s')) (hcv : cv.IsInteger w)
    (hn : m.Holds cv n) :
    Enters s'.graph tested.here m (if n.getLsbD 0 then yes else no) := by
  obtain ⟨cb, ready, htested, hcb, hsub, hbr⟩ := ht.code hs hfn h
  obtain ⟨is, rfl, hcomp⟩ := toCondition_computes htested hcv hcb
  obtain ⟨m', hm, hbit⟩ := hcomp m n hn
  have hcode : Stretch s'.graph tested.here is :=
    (stretch_of_code (Cfg.code_append_self _ htested.lt is)).mono hsub
  rw [here_emitAll htested] at hbr
  exact enters_of_stretch (hcode.concat hbr) hm (by rw [Machine.target, hbit])

/-- A condition of an integer type is true when its value is not zero, if and only if the
value is zero or odd. -/
theorem condition_follows_iff (ht : Tests run fn s e cv tested yes no) (hs : Building s)
    (hfn : s.curllvmfn = some fn) (h : eval run e s = .ok (r, s')) (hcv : cv.IsInteger w)
    (hn : m.Holds cv n) :
    (Enters s'.graph tested.here m yes ↔ n ≠ 0) ↔ n = 0 ∨ n.getLsbD 0 = true := by
  have hrun := ht.enters hs hfn h hcv hn
  have hyes : Enters s'.graph tested.here m yes ↔ n.getLsbD 0 = true := by
    constructor
    · intro hy
      by_contra hbit
      rw [if_neg hbit] at hrun
      exact ht.yes_ne_no (hy.unique hrun)
    · intro hbit
      rwa [if_pos hbit] at hrun
  rw [hyes]
  rcases eq_or_ne n 0 with rfl | hne
  · simp
  · rw [iff_true_right hne, or_iff_right hne]

/-- A machine on which every variable and every result is `x`. -/
def Machine.always (x : Int) : Machine := ⟨fun _ => x, fun _ => x⟩

/-- A variable whose type is an alias of an alias of `u8`. -/
def aliased : Rtv :=
  ⟨⟨.ext 0, .ptr (.int 8)⟩, .alias 1 (.int 8) (.alias 0 (.int 8) (.integer 8 true)), true⟩

/-- The variable has the value 3. -/
theorem condition_follows_iff_example : ∃ (r : Rtv) (s' : St),
    eval (fun _ => true) (.cond (.form [] aliased) (.progn [])) emptyBody = .ok (r, s') ∧
      ((Enters s'.graph emptyBody.here (.always 3) 1 ↔ 3#8 ≠ 0) ↔
        3#8 = 0 ∨ (3#8).getLsbD 0 = true) := by
  have hc : eval (fun _ => true) (.form [] aliased) emptyBody = .ok (aliased, emptyBody) := rfl
  obtain ⟨r, s', hrun⟩ : ∃ r s',
      eval (fun _ => true) (.cond (.form [] aliased) (.progn [])) emptyBody = .ok (r, s') :=
    ⟨_, _, rfl⟩
  exact ⟨r, s', hrun, condition_follows_iff (.cond hc rfl) emptyBody_building rfl hrun
    ⟨⟨true, rfl⟩, rfl⟩ rfl⟩

/-- A function of the host that returns an `i32`. -/
def processEvents : Fun := ⟨"processEvents", lowerIntegerType 32 false, [], false⟩

/-- A loop that ends when there are no more events. -/
def eventLoop : Expr := .while_ (.call "processEvents" []) (.progn [])

/-- The loop also ends when the code of the event is 2: it goes on at block 3. -/
theorem even_code_lost : ∃ r cv tested s',
    eval (fun _ => true) eventLoop (emptyBody.register processEvents) = .ok (r, s') ∧
      Tests (fun _ => true) 0 (emptyBody.register processEvents) eventLoop cv tested 2 3 ∧
      cv.IsInteger 32 ∧ (Machine.always 2).Holds cv 2#32 ∧
      Enters s'.graph tested.here (.always 2) 3 ∧
      ¬ (Enters s'.graph tested.here (.always 2) 2 ↔ 2#32 ≠ 0) := by
  have hs : Building (emptyBody.register processEvents) := ⟨rfl, by decide, rfl⟩
  obtain ⟨r, s', hrun⟩ : ∃ r s',
      eval (fun _ => true) eventLoop (emptyBody.register processEvents) = .ok (r, s') :=
    ⟨_, _, rfl⟩
  obtain ⟨cv, tested, hc, hcv, hn⟩ : ∃ cv tested,
      eval (fun _ => true) (.call "processEvents" [])
        (testStart 0 (emptyBody.register processEvents)) = .ok (cv, tested) ∧
      cv.IsInteger 32 ∧ (Machine.always 2).Holds cv 2#32 :=
    ⟨_, _, rfl, ⟨⟨false, rfl⟩, rfl⟩, rfl⟩
  have ht : Tests (fun _ => true) 0 (emptyBody.register processEvents) eventLoop cv tested 2 3 :=
    .while_ hc
  have hno : Enters s'.graph tested.here (.always 2) 3 := ht.enters hs rfl hrun hcv hn
  exact ⟨r, cv, tested, s', hrun, ht, hcv, hn, hno,
    fun h => absurd ((h.2 (by decide)).unique hno) (by decide)⟩

end Dolorem.Codegen
