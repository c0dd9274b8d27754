import Dolorem.Codegen.Straight
import Dolorem.Lib.Control

/-!
# Evaluation inside a function

`Building s`: the builder is inside a block of the function being compiled.
`Moves s s'` is what evaluating a form that compiles no other function and
declares nothing does to the state: the code grows at the builder's position,
and nothing else changes. The states in which `cond` and `while` evaluate their
bodies are `condStart` and `whileStart`.
-/

namespace Dolorem.Codegen

open CodeGraph

structure Building (s : St) : Prop where
  bldr : s.bldr.isSome
  lt : s.block < s.graph.size
  fn : s.curllvmfn.isSome

/-- A function whose body is being compiled and has no code yet. -/
def emptyBody : St where
  graph := ⟨[⟨0, []⟩]⟩
  fns := [⟨0, some "f", .fn .void false⟩]
  bldr := some 0
  mod := 0
  mods := 1
  curfn := some [[]]
  curllvmfn := some 0
  funs := []
  globals := []
  whileLastCondBlock := none
  whileLastAfterBlock := none
  whileInLoop := false
  staticCondNumber := 0
  precompiled := true

theorem emptyBody_building : Building emptyBody := ⟨rfl, by decide, rfl⟩

/-- The state without the code and the builder. -/
def St.rest (s : St) : St := { s with graph := ⟨[]⟩, bldr := none, fns := [] }

structure Moves (s s' : St) : Prop where
  building : Building s'
  grows : s.graph.Grows s.block s'.graph s'.block
  rest : s'.rest = s.rest

namespace Moves

variable {s s₁ s₂ : St}

theorem refl (hs : Building s) : Moves s s :=
  ⟨hs, .refl hs.lt, rfl⟩

theorem trans (h : Moves s s₁) (k : Moves s₁ s₂) : Moves s s₂ :=
  ⟨k.building, h.grows.trans k.grows, k.rest.trans h.rest⟩

theorem curllvmfn (h : Moves s s₁) : s₁.curllvmfn = s.curllvmfn :=
  (congrArg St.curllvmfn h.rest :)

theorem curfn (h : Moves s s₁) : s₁.curfn = s.curfn :=
  (congrArg St.curfn h.rest :)

theorem whileInLoop (h : Moves s s₁) : s₁.whileInLoop = s.whileInLoop :=
  (congrArg St.whileInLoop h.rest :)

theorem whileLastCondBlock (h : Moves s s₁) : s₁.whileLastCondBlock = s.whileLastCondBlock :=
  (congrArg St.whileLastCondBlock h.rest :)

theorem whileLastAfterBlock (h : Moves s s₁) :
    s₁.whileLastAfterBlock = s.whileLastAfterBlock :=
  (congrArg St.whileLastAfterBlock h.rest :)

theorem sub (h : Moves s s₁) : s.graph.Sub s₁.graph := h.grows.sub

/-- A last instruction, and on in a block made since `s`. -/
theorem jumpTo (h : Moves s s₁) (i : Instr) {b : Nat} (new : s.graph.size ≤ b)
    (hb : b < s₁.graph.size) : Moves s ((s₁.emit i).position b) where
  building := ⟨rfl, by simpa [St.emit, St.emitAll, St.position, St.block] using hb,
    h.building.fn⟩
  grows := by
    have h₁ := h.grows.trans (.append h.building.lt [i])
    exact h₁.move new (by simpa using hb)
  rest := h.rest

theorem emitAll (hs : Building s) (is : List Instr) : Moves s (s.emitAll is) where
  building := ⟨hs.bldr, by simpa [St.emitAll, St.block] using hs.lt, hs.fn⟩
  grows := by
    rw [St.block_emitAll]
    exact .append hs.lt is
  rest := rfl

theorem fresh (hs : Building s) (fn : Nat) :
    Moves s { s with graph := s.graph.fresh fn } where
  building := by
    obtain ⟨b, hb⟩ := Option.isSome_iff_exists.1 hs.bldr
    have hlt := hs.lt
    refine ⟨hs.bldr, ?_, hs.fn⟩
    simp only [St.block, hb, Option.getD_some, Cfg.size_fresh] at hlt ⊢
    exact Nat.lt_succ_of_lt hlt
  grows := by
    obtain ⟨b, hb⟩ := Option.isSome_iff_exists.1 hs.bldr
    have hblock : ({ s with graph := s.graph.fresh fn } : St).block = s.block := by
      simp [St.block, hb]
    rw [hblock]
    exact .fresh hs.lt fn
  rest := rfl

end Moves

theorem here_emitAll {s : St} (hs : Building s) (is : List Instr) :
    (s.emitAll is).here = s.here.skip is.length := by
  unfold St.here
  rw [St.block_emitAll]
  exact Cfg.endOf_append _ hs.lt is

theorem sub_emit {s : St} (hs : Building s) (i : Instr) (b : Nat) :
    s.graph.Sub ((s.emit i).position b).graph :=
  (Cfg.Grows.append hs.lt [i]).sub

theorem at?_emit {s : St} (hs : Building s) (i : Instr) (b : Nat) :
    ((s.emit i).position b).graph.at? s.here = some i :=
  Cfg.at?_append_endOf _ hs.lt i []

theorem appendBlock_eq {s : St} {fn : Nat} (hfn : s.curllvmfn = some fn) :
    s.appendBlock = .ok (s.graph.size, { s with graph := s.graph.fresh fn }) := by
  simp [St.appendBlock, hfn]

/-- The state after `break` or `continue`. -/
def jumpState (fn b : Nat) (s : St) : St :=
  { s with
    graph := (s.graph.append s.block [.br b]).fresh fn
    bldr := some s.graph.size }

theorem jumpOut_eq {s : St} {fn : Nat} (hfn : s.curllvmfn = some fn) (b : Nat) :
    jumpOut (some b) s = .ok (nullRtv, jumpState fn b s) := by
  simp [jumpOut, St.appendBlock, St.emit, St.emitAll, St.position, jumpState, hfn, ok_bind]

theorem jumpState_moves {s : St} (hs : Building s) (fn b : Nat) : Moves s (jumpState fn b s) where
  building := ⟨rfl, by simp [jumpState, St.block], hs.fn⟩
  grows := by
    have h₁ := Cfg.Grows.append hs.lt [Instr.br b]
    have h₂ := h₁.trans (.fresh h₁.cursor_lt fn)
    exact h₂.move (b := s.graph.size) le_rfl (by simp)
  rest := rfl

theorem evalProgn_cons_ok {run : Nat → Bool} {e : Expr} {es : List Expr} {s s' : St} {r : Rtv}
    (h : evalProgn run (e :: es) s = .ok (r, s')) :
    ∃ r₁ s₁ r₂, eval run e s = .ok (r₁, s₁) ∧ evalProgn run es s₁ = .ok (r₂, s') := by
  cases es with
  | nil =>
    rw [evalProgn] at h
    exact ⟨r, s', nullRtv, h, by rw [evalProgn]⟩
  | cons e' es =>
    rw [evalProgn] at h
    obtain ⟨⟨r₁, s₁⟩, h₁, h₂⟩ := bind_ok.1 h
    exact ⟨r₁, s₁, r, h₁, h₂⟩

theorem evalProgn_cons_error {run : Nat → Bool} {e : Expr} {es : List Expr} {s : St} {x : Halt} :
    evalProgn run (e :: es) s = .error x ↔ eval run e s = .error x ∨
      ∃ r₁ s₁, eval run e s = .ok (r₁, s₁) ∧ evalProgn run es s₁ = .error x := by
  cases es with
  | nil => simp [evalProgn]
  | cons e' es => simp [evalProgn, bind_error]

/-! ## Control structures over a condition that is given -/

/-- An opaque condition: straight-line code `ks`, then the one-bit value `v`. -/
def test (ks : List Nat) (v : Value) (flag : Bool) : Expr :=
  .form ks ⟨v, .integer 1 flag, false⟩

def prims (ks : List Nat) : List Instr := ks.map .prim

theorem eval_test (run : Nat → Bool) (ks : List Nat) (v : Value) (flag : Bool) (s : St) :
    eval run (test ks v flag) s = .ok (⟨v, .integer 1 flag, false⟩, s.emitAll (prims ks)) := by
  simp [test, eval, prims]

/-- A one-bit value is a condition as it stands, whichever way its type is
flagged. -/
theorem toCondition_bit {v : Value} (hv : v.ty = .int 1) (flag : Bool) (s : St) :
    toCondition ⟨v, .integer 1 flag, false⟩ s = .ok (⟨v, .integer 1 false, false⟩, s) := by
  cases flag with
  | false =>
    have hc : convertTypes (.integer 1 false) (lowerIntegerType 1 false) 1 =
      some (.same (.integer 1 false)) := rfl
    simp [toCondition, convertType, prepareRead, ok_bind, hc, Conv.apply]
  | true =>
    have hc : convertTypes (.integer 1 true) (lowerIntegerType 1 false) 1 =
      some (.build .intCast (.int 1) (.integer 1 false)) := rfl
    simp [toCondition, convertType, prepareRead, ok_bind, hc, Conv.apply, St.buildCast, hv]

section

variable (fn : Nat) (ks : List Nat) (v : Value) (s : St)

/-- Where `cond` evaluates its body: the blocks `condblock` and `aftercond` are
the next two. -/
def condStart : St :=
  let k := s.graph.size
  { s with
    graph := (((s.graph.append s.block (prims ks)).fresh fn).fresh fn).append s.block
      [.condBr v k (k + 1)]
    bldr := some k }

/-- Where `while` evaluates its body: the blocks `condblock`, `loopblock` and
`afterwhile` are the next three. -/
def whileStart : St :=
  let k := s.graph.size
  { s with
    graph := ((((s.graph.fresh fn).fresh fn).fresh fn).append s.block [.br k]).append k
      (prims ks ++ [.condBr v (k + 1) (k + 2)])
    bldr := some (k + 1) }

variable {fn ks v s}

theorem condStart_size : (condStart fn ks v s).graph.size = s.graph.size + 2 := by
  simp [condStart]

theorem condStart_code (hs : Building s) :
    (condStart fn ks v s).graph.code s.block =
      s.graph.code s.block ++ (prims ks ++ [.condBr v s.graph.size (s.graph.size + 1)]) := by
  have hlt := hs.lt
  unfold condStart
  rw [Cfg.code_append_self, Cfg.code_fresh, Cfg.code_fresh, Cfg.code_append_self _ hlt,
    List.append_assoc]
  simp only [Cfg.size_fresh, Cfg.size_append]
  omega

theorem condStart_code_new (hs : Building s) {b : Nat} (hb : s.graph.size ≤ b) :
    (condStart fn ks v s).graph.code b = [] := by
  have hne : b ≠ s.block := Nat.ne_of_gt (hs.lt.trans_le hb)
  unfold condStart
  rw [Cfg.code_append_ne _ hne, Cfg.code_fresh, Cfg.code_fresh, Cfg.code_append_ne _ hne,
    Cfg.code_of_size_le _ hb]

theorem condStart_moves (hs : Building s) : Moves s (condStart fn ks v s) where
  building := ⟨rfl, by rw [condStart_size]; exact Nat.lt_add_of_pos_right Nat.two_pos, hs.fn⟩
  grows := by
    have h₁ := Cfg.Grows.append hs.lt (prims ks)
    have h₂ := h₁.trans (.fresh h₁.cursor_lt fn)
    have h₃ := h₂.trans (.fresh h₂.cursor_lt fn)
    have h₄ := h₃.trans (.append h₃.cursor_lt [.condBr v s.graph.size (s.graph.size + 1)])
    refine h₄.move le_rfl ?_
    simp only [Cfg.size_append, Cfg.size_fresh]
    exact Nat.lt_add_of_pos_right Nat.two_pos
  rest := rfl

theorem whileStart_size : (whileStart fn ks v s).graph.size = s.graph.size + 3 := by
  simp [whileStart]

theorem whileStart_code (hs : Building s) :
    (whileStart fn ks v s).graph.code s.block = s.graph.code s.block ++ [.br s.graph.size] := by
  have hlt := hs.lt
  unfold whileStart
  rw [Cfg.code_append_ne _ (Nat.ne_of_lt hlt), Cfg.code_append_self]
  · simp only [Cfg.code_fresh]
  · simp only [Cfg.size_fresh]
    omega

theorem whileStart_code_cond (hs : Building s) :
    (whileStart fn ks v s).graph.code s.graph.size =
      prims ks ++ [.condBr v (s.graph.size + 1) (s.graph.size + 2)] := by
  have hlt := hs.lt
  unfold whileStart
  rw [Cfg.code_append_self, Cfg.code_append_ne _ (Nat.ne_of_gt hlt)]
  · simp only [Cfg.code_fresh, Cfg.code_of_size_le s.graph le_rfl, List.nil_append]
  · simp only [Cfg.size_append, Cfg.size_fresh]
    omega

theorem whileStart_code_new (hs : Building s) {b : Nat} (hb : s.graph.size < b) :
    (whileStart fn ks v s).graph.code b = [] := by
  have hne : b ≠ s.block := Nat.ne_of_gt (hs.lt.trans hb)
  unfold whileStart
  rw [Cfg.code_append_ne _ (Nat.ne_of_gt hb), Cfg.code_append_ne _ hne]
  simp only [Cfg.code_fresh, Cfg.code_of_size_le s.graph hb.le]

theorem whileStart_moves (hs : Building s) : Moves s (whileStart fn ks v s) where
  building := ⟨rfl, by rw [whileStart_size]; exact Nat.add_lt_add_left (by decide) _, hs.fn⟩
  grows := by
    have h₁ := Cfg.Grows.fresh hs.lt fn
    have h₂ := h₁.trans (.fresh h₁.cursor_lt fn)
    have h₃ := h₂.trans (.fresh h₂.cursor_lt fn)
    have h₄ := h₃.trans (.append h₃.cursor_lt [.br s.graph.size])
    have hsize : (((((s.graph.fresh fn).fresh fn).fresh fn).append s.block
        [.br s.graph.size]).size) = s.graph.size + 3 := by
      simp
    have h₅ := h₄.move le_rfl (by rw [hsize]; exact Nat.lt_add_of_pos_right (Nat.succ_pos _))
    have h₆ := h₅.trans (.append h₅.cursor_lt
      (prims ks ++ [.condBr v (s.graph.size + 1) (s.graph.size + 2)]))
    refine h₆.move (Nat.le_succ _) ?_
    rw [Cfg.size_append, hsize]
    exact Nat.add_lt_add_left (by decide) _
  rest := rfl

/-- `while` leaves the loop context as it found it. -/
theorem Moves.leaveLoop {s₁ : St} {c a : Nat} (hs : Building s)
    (h : Moves ((whileStart fn ks v s).enterLoop c a) s₁) : Moves s (s.restoreLoop s₁) where
  building := ⟨h.building.bldr, h.building.lt, h.building.fn⟩
  grows := (whileStart_moves hs).grows.trans h.grows
  rest :=
    calc (s.restoreLoop s₁).rest = s.restoreLoop s₁.rest := rfl
      _ = s.rest := by
        rw [h.rest]
        rfl

theorem eval_cond_test {run : Nat → Bool} (hs : Building s) (hfn : s.curllvmfn = some fn)
    (hv : v.ty = .int 1) (flag : Bool) (body : Expr) :
    eval run (.cond (test ks v flag) body) s =
      eval run body (condStart fn ks v s) >>= fun p =>
        .ok (⟨v, .integer 1 false, false⟩, (p.2.emit (.br (s.graph.size + 1))).position (s.graph.size + 1)) := by
  obtain ⟨b, hb⟩ := Option.isSome_iff_exists.1 hs.bldr
  simp only [eval, eval_test, ok_bind, toCondition_bit hv]
  simp only [ok_bind, St.appendBlock, hfn, St.emitAll, St.emit, St.position, St.block, hb, condStart, Cfg.size_append,
    Cfg.size_fresh, Option.getD_some]

theorem eval_while_test {run : Nat → Bool} (hs : Building s) (hfn : s.curllvmfn = some fn)
    (hv : v.ty = .int 1) (flag : Bool) (body : Expr) :
    eval run (.while_ (test ks v flag) body) s =
      eval run body ((whileStart fn ks v s).enterLoop s.graph.size (s.graph.size + 2)) >>= fun p =>
        .ok (nullRtv, ((s.restoreLoop p.2).emit (.br s.graph.size)).position (s.graph.size + 2)) := by
  obtain ⟨b, hb⟩ := Option.isSome_iff_exists.1 hs.bldr
  simp only [eval, eval_test, ok_bind, St.appendBlock, hfn, toCondition_bit hv]
  simp only [St.emitAll, St.emit, St.position, St.block, hb, hfn, whileStart, Cfg.size_fresh,
    Option.getD_some, Cfg.append_append, St.restoreLoop]

end

end Dolorem.Codegen
