import Dolorem.Codegen.Moves

/-!
# Structured control flow

Statements built from opaque code, opaque conditions, `progn`, `scope`, `cond`,
`while`, `break` and `continue`, what they mean by themselves (`Exec`), and what
the blocks they are compiled to do. An execution is known by what it shows: the
instructions it executes and the outcomes of the conditions it tests.
`structured_runs` says that the two agree on the executions from the current
block to the block the builder is left in and on the parts of executions, and
that an error is reported for exactly the statements with a jump outside of all
loops.
-/

namespace Dolorem.Codegen

open CodeGraph Lts

/-- The statements. -/
inductive Structured : Expr → Prop
  | form (ks : List Nat) (r : Rtv) : Structured (.form ks r)
  | progn {es : List Expr} : (∀ e ∈ es, Structured e) → Structured (.progn es)
  | scope {es : List Expr} : (∀ e ∈ es, Structured e) → Structured (.scope es)
  | cond {ks : List Nat} {v : Value} {flag : Bool} {body : Expr} :
      v.ty = .int 1 → Structured body → Structured (.cond (test ks v flag) body)
  | while_ {ks : List Nat} {v : Value} {flag : Bool} {body : Expr} :
      v.ty = .int 1 → Structured body → Structured (.while_ (test ks v flag) body)
  | break_ : Structured .break_
  | continue_ : Structured .continue_

/-- How an execution of a statement ends: at the statement's end, by a `break`
or `continue` of a loop around it, or not yet. -/
inductive Outcome where
  | normal
  | brk
  | cont
  | cut
deriving DecidableEq, Repr

/-- What opaque code shows. -/
def shows (ks : List Nat) : List Event := (prims ks).map .exec

/-- The structured semantics: `Exec e ls o`, an execution of `e` shows `ls` and
ends with `o`. -/
inductive Exec : Expr → List Event → Outcome → Prop
  | stop {e : Expr} : Exec e [] .cut
  | done {e : Expr} {ls : List Event} : Exec e ls .normal → Exec e ls .cut
  | form {ks : List Nat} {r : Rtv} : Exec (.form ks r) (shows ks) .normal
  | formPart {ks : List Nat} {r : Rtv} {ls : List Event} :
      ls <+: shows ks → Exec (.form ks r) ls .cut
  | break_ : Exec .break_ [] .brk
  | continue_ : Exec .continue_ [] .cont
  | prognNil : Exec (.progn []) [] .normal
  | prognNext {e : Expr} {es : List Expr} {ls ms : List Event} {o : Outcome} :
      Exec e ls .normal → Exec (.progn es) ms o → Exec (.progn (e :: es)) (ls ++ ms) o
  | prognExit {e : Expr} {es : List Expr} {ls : List Event} {o : Outcome} :
      o ≠ .normal → Exec e ls o → Exec (.progn (e :: es)) ls o
  | scope {es : List Expr} {ls : List Event} {o : Outcome} :
      Exec (.progn es) ls o → Exec (.scope es) ls o
  | condPart {ks : List Nat} {v : Value} {flag : Bool} {body : Expr} {ls : List Event} :
      ls <+: shows ks → Exec (.cond (test ks v flag) body) ls .cut
  | condFalse {ks : List Nat} {v : Value} {flag : Bool} {body : Expr} :
      Exec (.cond (test ks v flag) body) (shows ks ++ [.test v false]) .normal
  | condTrue {ks : List Nat} {v : Value} {flag : Bool} {body : Expr} {ls : List Event}
      {o : Outcome} :
      Exec body ls o → Exec (.cond (test ks v flag) body) (shows ks ++ .test v true :: ls) o
  | whilePart {ks : List Nat} {v : Value} {flag : Bool} {body : Expr} {ls : List Event} :
      ls <+: shows ks → Exec (.while_ (test ks v flag) body) ls .cut
  | whileFalse {ks : List Nat} {v : Value} {flag : Bool} {body : Expr} :
      Exec (.while_ (test ks v flag) body) (shows ks ++ [.test v false]) .normal
  | whileNext {ks : List Nat} {v : Value} {flag : Bool} {body : Expr} {ls ms : List Event}
      {o o' : Outcome} :
      o = .normal ∨ o = .cont → Exec body ls o → Exec (.while_ (test ks v flag) body) ms o' →
      Exec (.while_ (test ks v flag) body) (shows ks ++ .test v true :: (ls ++ ms)) o'
  | whileBreak {ks : List Nat} {v : Value} {flag : Bool} {body : Expr} {ls : List Event} :
      Exec body ls .brk →
      Exec (.while_ (test ks v flag) body) (shows ks ++ .test v true :: ls) .normal
  | whileCut {ks : List Nat} {v : Value} {flag : Bool} {body : Expr} {ls : List Event} :
      Exec body ls .cut →
      Exec (.while_ (test ks v flag) body) (shows ks ++ .test v true :: ls) .cut

mutual

/-- The message about the first `break` or `continue` of a statement that is in
no loop body of that statement. -/
def orphan : Expr → Option String
  | .break_ => some "break outside of loop"
  | .continue_ => some "continue outside of loop"
  | .progn es => orphans es
  | .scope es => orphans es
  | .cond c body => (orphan c).or (orphan body)
  | .while_ c _ => orphan c
  | _ => none

def orphans : List Expr → Option String
  | [] => none
  | e :: es => (orphan e).or (orphans es)

end

theorem orphan_cond_test (ks : List Nat) (v : Value) (flag : Bool) (body : Expr) :
    orphan (.cond (test ks v flag) body) = orphan body := by
  simp [orphan, test]

theorem orphan_while_test (ks : List Nat) (v : Value) (flag : Bool) (body : Expr) :
    orphan (.while_ (test ks v flag) body) = none := by
  simp [orphan, test]

variable {run : Nat → Bool} {e : Expr} {es : List Expr} {s s' : St} {r : Rtv}

/-! ## What evaluation does to the state -/

theorem evalProgn_moves
    (ih : ∀ e ∈ es, ∀ {s s' : St} {r : Rtv}, Building s → eval run e s = .ok (r, s') → Moves s s')
    (hs : Building s) (h : evalProgn run es s = .ok (r, s')) : Moves s s' := by
  induction es generalizing s r with
  | nil =>
    simp only [evalProgn, Except.ok.injEq, Prod.mk.injEq] at h
    rw [← h.2]
    exact .refl hs
  | cons e es ihl =>
    obtain ⟨r₁, s₁, r₂, h₁, h₂⟩ := evalProgn_cons_ok h
    have hm := ih e List.mem_cons_self hs h₁
    exact hm.trans (ihl (fun x hx => ih x (List.mem_cons_of_mem _ hx)) hm.building h₂)

theorem jumpOut_ok (hs : Building s) {dest : Option Nat} (h : jumpOut dest s = .ok (r, s')) :
    ∃ b fn, dest = some b ∧ s.curllvmfn = some fn ∧ s' = jumpState fn b s := by
  obtain ⟨fn, hfn⟩ := Option.isSome_iff_exists.1 hs.fn
  cases dest with
  | none => cases h
  | some b =>
    rw [jumpOut_eq hfn] at h
    cases h
    exact ⟨b, fn, rfl, hfn, rfl⟩

theorem eval_break_ok (hs : Building s) (h : eval run .break_ s = .ok (r, s')) :
    s.whileInLoop = true ∧ ∃ b fn, s.whileLastAfterBlock = some b ∧ s' = jumpState fn b s := by
  rw [eval] at h
  split at h
  · next hl =>
    obtain ⟨b, fn, hb, -, rfl⟩ := jumpOut_ok hs h
    exact ⟨hl, b, fn, hb, rfl⟩
  · cases h

theorem eval_continue_ok (hs : Building s) (h : eval run .continue_ s = .ok (r, s')) :
    s.whileInLoop = true ∧ ∃ b fn, s.whileLastCondBlock = some b ∧ s' = jumpState fn b s := by
  rw [eval] at h
  split at h
  · next hl =>
    obtain ⟨b, fn, hb, -, rfl⟩ := jumpOut_ok hs h
    exact ⟨hl, b, fn, hb, rfl⟩
  · cases h

/-- `scope` evaluates its forms in a new scope and drops it. -/
theorem eval_scope_ok (h : eval run (.scope es) s = .ok (r, s')) :
    ∃ t t', evalProgn run es t = .ok (r, t') ∧ (t = s ∧ t' = s' ∨
      ∃ scopes, s.curfn = some scopes ∧ t = { s with curfn := some ([] :: scopes) } ∧
        s' = t'.popScope) := by
  rw [eval] at h
  split at h
  · exact ⟨s, s', h, .inl ⟨rfl, rfl⟩⟩
  · next scopes hc =>
    obtain ⟨⟨r₁, s₁⟩, h₁, h₂⟩ := bind_ok.1 h
    cases h₂
    exact ⟨_, s₁, h₁, .inr ⟨scopes, hc, rfl, rfl⟩⟩

theorem Moves.popScope {scopes : List (List FunVar)} (hc : s.curfn = some scopes)
    (h : Moves { s with curfn := some ([] :: scopes) } s') : Moves s s'.popScope where
  building := ⟨h.building.bldr, h.building.lt, h.building.fn⟩
  grows := h.grows
  rest :=
    calc s'.popScope.rest = s'.rest.popScope := rfl
      _ = s.rest := by
        rw [h.rest]
        simp [St.rest, St.popScope, hc]

theorem eval_cond_ok {ks : List Nat} {v : Value} {flag : Bool} {body : Expr} (hs : Building s)
    (hv : v.ty = .int 1) (h : eval run (.cond (test ks v flag) body) s = .ok (r, s')) :
    ∃ fn r₁ s₁, s.curllvmfn = some fn ∧ eval run body (condStart fn ks v s) = .ok (r₁, s₁) ∧
      s' = (s₁.emit (.br (s.graph.size + 1))).position (s.graph.size + 1) := by
  obtain ⟨fn, hfn⟩ := Option.isSome_iff_exists.1 hs.fn
  rw [eval_cond_test hs hfn hv] at h
  obtain ⟨⟨r₁, s₁⟩, h₁, h₂⟩ := bind_ok.1 h
  cases h₂
  exact ⟨fn, r₁, s₁, hfn, h₁, rfl⟩

theorem eval_while_ok {ks : List Nat} {v : Value} {flag : Bool} {body : Expr} (hs : Building s)
    (hv : v.ty = .int 1) (h : eval run (.while_ (test ks v flag) body) s = .ok (r, s')) :
    ∃ fn r₁ s₁, s.curllvmfn = some fn ∧
      eval run body ((whileStart fn ks v s).enterLoop s.graph.size (s.graph.size + 2)) =
        .ok (r₁, s₁) ∧
      s' = ((s.restoreLoop s₁).emit (.br s.graph.size)).position (s.graph.size + 2) := by
  obtain ⟨fn, hfn⟩ := Option.isSome_iff_exists.1 hs.fn
  rw [eval_while_test hs hfn hv] at h
  obtain ⟨⟨r₁, s₁⟩, h₁, h₂⟩ := bind_ok.1 h
  cases h₂
  exact ⟨fn, r₁, s₁, hfn, h₁, rfl⟩

theorem enterLoop_building (hs : Building s) (c a : Nat) : Building (s.enterLoop c a) :=
  ⟨hs.bldr, hs.lt, hs.fn⟩

theorem Structured.moves (he : Structured e) (hs : Building s)
    (h : eval run e s = .ok (r, s')) : Moves s s' := by
  induction he generalizing s s' r with
  | form ks r₀ =>
    rw [eval] at h
    cases h
    exact .emitAll hs _
  | progn _ ih =>
    rw [eval] at h
    exact evalProgn_moves ih hs h
  | scope _ ih =>
    obtain ⟨t, t', ht, ⟨rfl, rfl⟩ | ⟨scopes, hc, rfl, rfl⟩⟩ := eval_scope_ok h
    · exact evalProgn_moves ih hs ht
    · exact .popScope hc (evalProgn_moves ih ⟨hs.bldr, hs.lt, hs.fn⟩ ht)
  | cond hv _ ih =>
    obtain ⟨fn, r₁, s₁, -, hb, rfl⟩ := eval_cond_ok hs hv h
    have hm := ih (condStart_moves hs).building hb
    refine ((condStart_moves hs).trans hm).jumpTo _ (Nat.le_succ _) ?_
    refine lt_of_lt_of_le ?_ hm.grows.size_le
    rw [condStart_size]
    exact Nat.lt_succ_self _
  | while_ hv _ ih =>
    obtain ⟨fn, r₁, s₁, -, hb, rfl⟩ := eval_while_ok hs hv h
    have hm := ih (enterLoop_building (whileStart_moves hs).building _ _) hb
    refine (Moves.leaveLoop hs hm).jumpTo _ (Nat.le_add_right _ _) ?_
    refine lt_of_lt_of_le ?_ hm.grows.size_le
    calc s.graph.size + 2 < s.graph.size + 3 := Nat.lt_succ_self _
      _ = _ := whileStart_size.symm
  | break_ =>
    obtain ⟨-, b, fn, -, rfl⟩ := eval_break_ok hs h
    exact jumpState_moves hs fn b
  | continue_ =>
    obtain ⟨-, b, fn, -, rfl⟩ := eval_continue_ok hs h
    exact jumpState_moves hs fn b

/-! ## The code of `cond` and `while` -/

section Code

variable {G : Cfg Nat Instr} {fn : Nat} {ks : List Nat} {v : Value} {s₁ : St}

/-- The block `b` was empty in `s` and not the builder's; after `s` it gets
nothing but the builder. -/
theorem here_position (hm : Moves s s₁) {b : Nat} (hb : b < s.graph.size) (hne : b ≠ s.block)
    (hcode : s.graph.code b = []) (i : Instr) : ((s₁.emit i).position b).here = ⟨b, 0⟩ := by
  have hcode₁ : s₁.graph.code b = [] := (hm.grows.frame b hb hne).trans hcode
  have hne₁ : b ≠ s₁.block := hm.grows.ne_cursor hb hne
  calc ((s₁.emit i).position b).here
      = ⟨b, ((s₁.graph.append s₁.block [i]).code b).length⟩ := rfl
    _ = ⟨b, 0⟩ := by rw [Cfg.code_append_ne _ hne₁, hcode₁, List.length_nil]

theorem jumpState_at? (hs : Building s) {b : Nat} (hG : (jumpState fn b s).graph.Sub G) :
    G.at? s.here = some (.br b) := by
  have hlt : s.block < (s.graph.append s.block [Instr.br b]).size := by simpa using hs.lt
  exact hG _ _ ((Cfg.Grows.fresh hlt fn).sub _ _ (Cfg.at?_append_endOf _ hs.lt _ []))

theorem condStart_here (hs : Building s) : (condStart fn ks v s).here = ⟨s.graph.size, 0⟩ := by
  calc (condStart fn ks v s).here
      = ⟨s.graph.size, ((condStart fn ks v s).graph.code s.graph.size).length⟩ := rfl
    _ = _ := by rw [condStart_code_new hs le_rfl, List.length_nil]

theorem condStart_stretch (hs : Building s) (hG : (condStart fn ks v s).graph.Sub G) :
    Stretch G s.here (prims ks ++ [.condBr v s.graph.size (s.graph.size + 1)]) :=
  (stretch_of_code (condStart_code hs)).mono hG

theorem cond_here (hs : Building s) (hm : Moves (condStart fn ks v s) s₁) :
    ((s₁.emit (.br (s.graph.size + 1))).position (s.graph.size + 1)).here =
      ⟨s.graph.size + 1, 0⟩ := by
  refine here_position hm ?_ (Nat.succ_ne_self _) (condStart_code_new hs (Nat.le_succ _)) _
  rw [condStart_size]
  exact Nat.lt_succ_self _

theorem whileStart_here (hs : Building s) :
    (whileStart fn ks v s).here = ⟨s.graph.size + 1, 0⟩ := by
  calc (whileStart fn ks v s).here
      = ⟨s.graph.size + 1, ((whileStart fn ks v s).graph.code (s.graph.size + 1)).length⟩ := rfl
    _ = _ := by rw [whileStart_code_new hs (Nat.lt_succ_self _), List.length_nil]

theorem whileStart_at? (hs : Building s) (hG : (whileStart fn ks v s).graph.Sub G) :
    G.at? s.here = some (.br s.graph.size) :=
  ((stretch_of_code (whileStart_code hs)).mono hG).head

theorem whileStart_stretch (hs : Building s) (hG : (whileStart fn ks v s).graph.Sub G) :
    Stretch G ⟨s.graph.size, 0⟩
      (prims ks ++ [.condBr v (s.graph.size + 1) (s.graph.size + 2)]) := by
  have hcode : (whileStart fn ks v s).graph.code s.graph.size =
      s.graph.code s.graph.size ++ (prims ks ++ [.condBr v (s.graph.size + 1) (s.graph.size + 2)]) := by
    rw [whileStart_code_cond hs, Cfg.code_of_size_le _ le_rfl, List.nil_append]
  have hend : s.graph.endOf s.graph.size = ⟨s.graph.size, 0⟩ := by
    rw [Cfg.endOf, Cfg.code_of_size_le _ le_rfl, List.length_nil]
  have h := (stretch_of_code hcode).mono hG
  rwa [hend] at h

theorem while_here (hs : Building s)
    (hm : Moves ((whileStart fn ks v s).enterLoop s.graph.size (s.graph.size + 2)) s₁) :
    (((s.restoreLoop s₁).emit (.br s.graph.size)).position (s.graph.size + 2)).here =
      ⟨s.graph.size + 2, 0⟩ := by
  refine here_position hm ?_ (Nat.succ_ne_self _) ?_ (.br s.graph.size)
  · calc s.graph.size + 2 < s.graph.size + 3 := Nat.lt_succ_self _
      _ = _ := whileStart_size.symm
  · exact whileStart_code_new hs (Nat.lt_add_of_pos_right Nat.two_pos)

/-- What there is in `G` of a `cond` evaluated from `s` to `s'` whose body was
evaluated from `start` to `s₁`. -/
structure CondCode (G : Cfg Nat Instr) (ks : List Nat) (v : Value) (s s' start s₁ : St) :
    Prop where
  moves : Moves s start
  sub : s₁.graph.Sub G
  test : Stretch G s.here (prims ks ++ [.condBr v s.graph.size (s.graph.size + 1)])
  start_here : start.here = ⟨s.graph.size, 0⟩
  leave : G.at? s₁.here = some (.br (s.graph.size + 1))
  end_here : s'.here = ⟨s.graph.size + 1, 0⟩

theorem condCode {flag : Bool} {body : Expr} (hb : Structured body) (hs : Building s)
    (hv : v.ty = .int 1) (h : eval run (.cond (test ks v flag) body) s = .ok (r, s'))
    (hG : s'.graph.Sub G) :
    ∃ r₁ start s₁, eval run body start = .ok (r₁, s₁) ∧ CondCode G ks v s s' start s₁ := by
  obtain ⟨fn, r₁, s₁, -, h₁, rfl⟩ := eval_cond_ok hs hv h
  have hm := hb.moves (condStart_moves hs).building h₁
  have hsub := (sub_emit hm.building (.br (s.graph.size + 1)) (s.graph.size + 1)).trans hG
  exact ⟨r₁, condStart fn ks v s, s₁, h₁, {
    moves := condStart_moves hs
    sub := hsub
    test := condStart_stretch hs (hm.sub.trans hsub)
    start_here := condStart_here hs
    leave := hG _ _ (at?_emit hm.building _ _)
    end_here := cond_here hs hm }⟩

/-- What there is in `G` of a `while` evaluated from `s` to `s'` whose body was
evaluated from `start` to `s₁`. -/
structure LoopCode (G : Cfg Nat Instr) (ks : List Nat) (v : Value) (s s' start s₁ : St) :
    Prop where
  building : Building start
  sub : s₁.graph.Sub G
  enter : G.at? s.here = some (.br s.graph.size)
  test : Stretch G ⟨s.graph.size, 0⟩
    (prims ks ++ [.condBr v (s.graph.size + 1) (s.graph.size + 2)])
  start_here : start.here = ⟨s.graph.size + 1, 0⟩
  back : G.at? s₁.here = some (.br s.graph.size)
  end_here : s'.here = ⟨s.graph.size + 2, 0⟩
  cond : start.whileLastCondBlock = some s.graph.size
  after : start.whileLastAfterBlock = some (s.graph.size + 2)

theorem loopCode {flag : Bool} {body : Expr} (hb : Structured body) (hs : Building s)
    (hv : v.ty = .int 1) (h : eval run (.while_ (test ks v flag) body) s = .ok (r, s'))
    (hG : s'.graph.Sub G) :
    ∃ r₁ start s₁, eval run body start = .ok (r₁, s₁) ∧ LoopCode G ks v s s' start s₁ := by
  obtain ⟨fn, r₁, s₁, -, h₁, rfl⟩ := eval_while_ok hs hv h
  have hstart := enterLoop_building (@whileStart_moves fn ks v s hs).building
    s.graph.size (s.graph.size + 2)
  have hm := hb.moves hstart h₁
  have hleave := Moves.leaveLoop hs hm
  have hsub : s₁.graph.Sub G :=
    (sub_emit hleave.building (.br s.graph.size) (s.graph.size + 2)).trans hG
  exact ⟨r₁, _, s₁, h₁, {
    building := hstart
    sub := hsub
    enter := whileStart_at? hs (hm.sub.trans hsub)
    test := whileStart_stretch hs (hm.sub.trans hsub)
    start_here := whileStart_here hs
    back := hG _ _ (at?_emit hleave.building _ _)
    end_here := while_here hs hm
    cond := rfl
    after := rfl }⟩

theorem prims_flow : ∀ i ∈ prims ks, i.flow = .op (.exec i) := by
  intro i hi
  obtain ⟨k, -, rfl⟩ := List.mem_map.1 hi
  rfl

end Code

end Dolorem.Codegen
