import Dolorem.Lib.Predict
import Dolorem.Codegen.Lexical
import Dolorem.Codegen.WellFormed
import Dolorem.Codegen.StructuredRuns

/-!
# Which `break` follows the text

The loop context of the code is global: a function body that is compiled inside
a loop starts in that loop. `scan` goes through nested loops and function
definitions in the order of evaluation, with what decides whether evaluation
goes on: whether the code is in a loop, whether the text is in a loop of the
function, and the kinds of the values. It fails with `violated` at a `break` or
`continue` that only the code takes to be in a loop. `nested_obeys_iff`: every
`break` and `continue` follows the text if and only if `scan` does not fail so.
-/

namespace Dolorem.Codegen

open CodeGraph Predict

/-- Nested loops and function definitions, around opaque straight-line forms. -/
inductive Nested : Expr → Prop
  | form (ks : List Nat) (r : Rtv) : Nested (.form ks r)
  | progn {es : List Expr} : (∀ e ∈ es, Nested e) → Nested (.progn es)
  | scope {es : List Expr} : (∀ e ∈ es, Nested e) → Nested (.scope es)
  | cond {c body : Expr} : Nested c → Nested body → Nested (.cond c body)
  | while_ {c body : Expr} : Nested c → Nested body → Nested (.while_ c body)
  | break_ : Nested .break_
  | continue_ : Nested .continue_
  | defun (f : Fun) {body : Expr} : Nested body → Nested (.defun f body)
  | defmacro (name : String) {body : Expr} : Nested body → Nested (body |> Expr.defmacro name)
  | lambda (fileIdx charIdx : Nat) (ret : Rtt) (parms : List (String × Rtt)) (vaArgs : Bool)
      {body : Expr} : Nested body → Nested (.lambda fileIdx charIdx ret parms vaArgs body)
  | staticCond {c body : Expr} : Nested c → Nested body → Nested (.staticCond c body)

/-! ## The scan -/

/-- What decides whether a value can be read and converted. -/
structure Kind where
  t : Ty
  reads : Bool
deriving DecidableEq, Repr

def Rtv.kind (v : Rtv) : Kind := ⟨v.t, v.shape.read.isSome⟩

/-- The front-end type of the result. -/
def Conv.ty : Conv → Ty
  | same t => t
  | build _ _ t => t

/-- The kind of the condition made of a value. -/
def Kind.condition (k : Kind) : Except Verdict Kind :=
  if k.reads then
    match convertTypes k.t (lowerIntegerType 1 false) 1 with
    | some c => .ok ⟨c.ty, true⟩
    | none => .error .stops
  else .error .stops

/-- A value that can be returned as `ret`. -/
def Kind.returns (k : Kind) (ret : Rtt) : Bool :=
  k.reads && (decide (ret.t = .void) || (convertTypes k.t ret 0).isSome)

/-- What function definitions depend on and change: the names there are, the
number of the last `static-cond`, the number of compiled functions. -/
structure Scan where
  funs : List String
  conds : Nat
  fns : Nat
  precompiled : Bool
deriving DecidableEq, Repr

def St.scan (s : St) : Scan :=
  ⟨s.funs.map Prod.fst, s.staticCondNumber, s.fns.length, s.precompiled⟩

def scanBody (body : Scan → Except Verdict (Kind × Scan)) (f : Fun) (x : Scan) :
    Except Verdict Scan :=
  if x.precompiled then do
    let (k, x) ← body { x with fns := x.fns + 1 }
    if k.returns f.ret then .ok x else .error .stops
  else .ok x

def Scan.registerNew (f : Fun) (x : Scan) : Except Verdict Scan :=
  if f.name ∈ x.funs then .error .stops else .ok { x with funs := f.name :: x.funs }

mutual

/-- `inLoop` is the loop context of the code, `own` that of the text. -/
def scan (run : Nat → Bool) (inLoop own : Bool) : Expr → Scan → Except Verdict (Kind × Scan)
  | .form _ r, x => .ok (r.kind, x)
  | .progn es, x => scanProgn run inLoop own es x
  | .scope es, x => scanProgn run inLoop own es x
  | .cond c body, x => do
    let (k, x) ← scan run inLoop own c x
    let k ← k.condition
    let (_, x) ← scan run inLoop own body x
    .ok (k, x)
  | .while_ c body, x => do
    let (k, x) ← scan run inLoop own c x
    let _ ← k.condition
    let (_, x) ← scan run true true body x
    .ok (nullRtv.kind, x)
  | .break_, x | .continue_, x =>
    if own then .ok (nullRtv.kind, x)
    else if inLoop then .error .violated
    else .error .stops
  | .defun f body, x => do
    let x ← x.registerNew f
    let x ← scanBody (scan run inLoop false body) f x
    .ok (nullRtv.kind, x)
  | Expr.defmacro name body, x => do
    let x ← scanBody (scan run inLoop false body) (macroproto name)
      { x with funs := name :: x.funs }
    .ok (nullRtv.kind, x)
  | .lambda fileIdx charIdx ret parms vaArgs body, x => do
    let x ← scanBody (scan run inLoop false body)
      ⟨lambdaName fileIdx charIdx, ret, parms, vaArgs⟩ x
    .ok (⟨.funptr x.fns, true⟩, x)
  | .staticCond c body, x => do
    let n := x.conds + 1
    let x ← { x with conds := n }.registerNew (condFun n)
    let x ← scanBody (scan run inLoop false c) (condFun n) x
    if run n then
      let (_, x) ← scan run inLoop own body x
      .ok (nullRtv.kind, x)
    else .ok (nullRtv.kind, x)
  | _, x => .ok (nullRtv.kind, x)

def scanProgn (run : Nat → Bool) (inLoop own : Bool) :
    List Expr → Scan → Except Verdict (Kind × Scan)
  | [], x => .ok (nullRtv.kind, x)
  | [e], x => scan run inLoop own e x
  | e :: e' :: es, x => do
    let (_, x) ← scan run inLoop own e x
    scanProgn run inLoop own (e' :: es) x

end

theorem scan_progn {run : Nat → Bool} {inLoop own : Bool} {es : List Expr} {x : Scan} :
    scan run inLoop own (.progn es) x = scanProgn run inLoop own es x := by
  rw [scan]

/-! ## What evaluation leaves alone -/

/-- The code grew and the loop context is as it was. -/
structure Grown (s s' : St) : Prop where
  size_le : s.graph.size ≤ s'.graph.size
  owner : ∀ b, b < s.graph.size → s'.graph.owner? b = s.graph.owner? b
  whileLastCondBlock : s'.whileLastCondBlock = s.whileLastCondBlock
  whileLastAfterBlock : s'.whileLastAfterBlock = s.whileLastAfterBlock
  whileInLoop : s'.whileInLoop = s.whileInLoop

/-- The same function is being built. -/
structure Kept (s s' : St) : Prop extends Grown s s' where
  building : Building s'
  curllvmfn : s'.curllvmfn = s.curllvmfn

variable {run : Nat → Bool} {s s' s₁ s₂ : St} {e c body : Expr} {es : List Expr} {r : Rtv}
variable {l : Option Loop} {f : Fun} {sameMod : Bool}

theorem Grown.trans (h : Grown s s₁) (k : Grown s₁ s₂) : Grown s s₂ where
  size_le := h.size_le.trans k.size_le
  owner b hb := (k.owner b (hb.trans_le h.size_le)).trans (h.owner b hb)
  whileLastCondBlock := k.whileLastCondBlock.trans h.whileLastCondBlock
  whileLastAfterBlock := k.whileLastAfterBlock.trans h.whileLastAfterBlock
  whileInLoop := k.whileInLoop.trans h.whileInLoop

theorem Kept.trans (h : Kept s s₁) (k : Kept s₁ s₂) : Kept s s₂ :=
  ⟨h.toGrown.trans k.toGrown, k.building, k.curllvmfn.trans h.curllvmfn⟩

theorem Moves.kept (h : Moves s s') : Kept s s' :=
  ⟨⟨h.grows.size_le, h.grows.owner, h.whileLastCondBlock, h.whileLastAfterBlock, h.whileInLoop⟩,
    h.building, h.curllvmfn⟩

/-- Nothing but the code, the builder, the function and the loop matters. -/
theorem Kept.of_eq (h : Kept s s₁) (hg : s'.graph = s₁.graph) (hb : s'.bldr = s₁.bldr)
    (hfn : s'.curllvmfn = s₁.curllvmfn) (hc : s'.whileLastCondBlock = s.whileLastCondBlock)
    (ha : s'.whileLastAfterBlock = s.whileLastAfterBlock) (hl : s'.whileInLoop = s.whileInLoop) :
    Kept s s' := by
  have hblock : s'.block = s₁.block := by
    unfold St.block
    rw [hg, hb]
  exact ⟨⟨hg ▸ h.size_le, fun b hb => by rw [hg]; exact h.owner b hb, hc, ha, hl⟩,
    ⟨hb ▸ h.building.bldr, by rw [hblock, hg]; exact h.building.lt, hfn ▸ h.building.fn⟩,
    hfn.trans h.curllvmfn⟩

/-- The loop `l` of the function being built is the loop context. -/
structure Inside (l : Option Loop) (s : St) : Prop where
  building : Building s
  cond : ∀ loop, l = some loop → s.whileLastCondBlock = some loop.cond
  after : ∀ loop, l = some loop → s.whileLastAfterBlock = some loop.after
  inLoop : l.isSome → s.whileInLoop = true
  ownsCond : ∀ loop, l = some loop → s.graph.owner? loop.cond = s.curllvmfn
  ownsAfter : ∀ loop, l = some loop → s.graph.owner? loop.after = s.curllvmfn

/-- A block with an owner is not touched. -/
theorem Grown.owner_some (h : Grown s s') {b fn : Nat} (hb : s.graph.owner? b = some fn) :
    s'.graph.owner? b = some fn :=
  (h.owner b (s.graph.lt_size_of_owner? hb)).trans hb

theorem Inside.kept (h : Inside l s) (k : Kept s s') : Inside l s' := by
  obtain ⟨fn, hfn⟩ := Option.isSome_iff_exists.1 h.building.fn
  refine ⟨k.building, fun loop hl => k.whileLastCondBlock.trans (h.cond loop hl),
    fun loop hl => k.whileLastAfterBlock.trans (h.after loop hl),
    fun hl => k.whileInLoop.trans (h.inLoop hl), fun loop hl => ?_, fun loop hl => ?_⟩
  · rw [k.curllvmfn, hfn]
    exact k.owner_some ((h.ownsCond loop hl).trans hfn)
  · rw [k.curllvmfn, hfn]
    exact k.owner_some ((h.ownsAfter loop hl).trans hfn)

theorem Inside.none (h : Building s) : Inside .none s :=
  ⟨h, fun _ hl => (nomatch hl), fun _ hl => (nomatch hl), fun hl => (nomatch hl),
    fun _ hl => (nomatch hl), fun _ hl => (nomatch hl)⟩

/-! ## The scan predicts the evaluation -/

/-- The prediction of a state reached from `s`. -/
def Arrives (s : St) (x : Scan) (s' : St) : Prop := Kept s s' ∧ s'.scan = x

/-- The prediction of a value and the state it is found in. -/
def Gives (s : St) (k : Kind × Scan) (p : Rtv × St) : Prop :=
  p.1.kind = k.1 ∧ Arrives s k.2 p.2

def Follows (run : Nat → Bool) (e : Expr) : Prop :=
  ∀ {l s}, Inside l s →
    Predicts (Gives s) (scan run s.whileInLoop l.isSome e s.scan) (eval run e s)
      (Obeys run l e s)

theorem Arrives.refl (h : Building s) : Arrives s s.scan s := ⟨(Moves.refl h).kept, rfl⟩

theorem Kept.arrives {x : Scan} (h : Kept s s₁) (k : Arrives s₁ x s') : Arrives s x s' :=
  ⟨h.trans k.1, k.2⟩

theorem Kept.gives {k : Kind × Scan} {p : Rtv × St} (h : Kept s s₁) (g : Gives s₁ k p) :
    Gives s k p :=
  ⟨g.1, h.arrives g.2⟩

theorem kept_emitAll (h : Building s) (is : List Instr) : Kept s (s.emitAll is) :=
  (Moves.emitAll h is).kept

theorem kind_of_read {v : Rtv} {σ : Shape} (h : v.shape.read = some σ) :
    v.kind = ⟨v.t, true⟩ ∧ σ.t = v.t := by
  refine ⟨by simp [Rtv.kind, h], ?_⟩
  unfold Shape.read at h
  split at h
  · split at h
    · cases h
      rfl
    · cases h
  · cases h
    rfl

theorem prepareRead_predicts (v : Rtv) (s : St) :
    Predicts (fun k p => p.1.kind = k ∧ p.1.lval = false ∧ ∃ is, p.2 = s.emitAll is)
      (if v.kind.reads then .ok v.kind else .error .stops) (prepareRead v s) True := by
  have hspec := prepareRead_spec v s
  cases hσ : v.shape.read with
  | none =>
    simp only [hσ] at hspec
    rw [if_neg (by simp [Rtv.kind, hσ])]
    exact ⟨trivial, _, hspec⟩
  | some σ =>
    simp only [hσ] at hspec
    obtain ⟨r, is, hr, -, rfl⟩ := hspec
    obtain ⟨hkind, ht⟩ := kind_of_read hσ
    have hlval : r.lval = false := Shape.read_lval hσ
    rw [hkind, if_pos rfl]
    refine ⟨trivial, _, hr, ?_, hlval, is, rfl⟩
    simpa [Rtv.kind, Shape.read, Rtv.shape, hlval] using ht

theorem convertType_predicts {v : Rtv} (hv : v.lval = false) (dest : Rtt) (flags : Nat) (s : St) :
    match convertTypes v.t dest flags with
    | none => convertType v dest flags s = .ok (none, s)
    | some c => ∃ r is, convertType v dest flags s = .ok (some r, s.emitAll is) ∧
        r.kind = ⟨c.ty, true⟩ := by
  have hspec := convertType_spec hv dest flags s
  unfold Shape.convert at hspec
  rw [show v.shape.t = v.t from rfl] at hspec
  cases hc : convertTypes v.t dest flags with
  | none => simpa [hc] using hspec
  | some c =>
    simp only [hc, Option.map_some] at hspec
    obtain ⟨r, is, hr, -, hshape⟩ := hspec
    refine ⟨r, is, hr, ?_⟩
    have ht : r.t = c.ty := by
      rw [show r.t = r.shape.t from rfl, hshape]
      cases c <;> rfl
    have hl : r.lval = false := by
      rw [show r.lval = r.shape.lval from rfl, hshape]
      cases c
      · exact hv
      · rfl
    simp [Rtv.kind, Shape.read, Rtv.shape, hl, ht]

theorem toCondition_predicts (v : Rtv) (s : St) :
    Predicts (fun k p => p.1.kind = k ∧ ∃ is, p.2 = s.emitAll is) v.kind.condition
      (toCondition v s) True := by
  have hread := prepareRead_predicts v s
  unfold toCondition Kind.condition
  cases hr : v.kind.reads with
  | false =>
    rw [hr, if_neg Bool.false_ne_true] at hread
    obtain ⟨-, x, hx⟩ := hread
    rw [if_neg Bool.false_ne_true, hx]
    exact ⟨trivial, x, rfl⟩
  | true =>
    rw [hr, if_pos rfl] at hread
    obtain ⟨-, ⟨w, s₁⟩, hw, hkind, hlval, is, rfl⟩ := hread
    have hconv := convertType_predicts hlval (lowerIntegerType 1 false) 1 (s.emitAll is)
    have ht : w.t = v.kind.t := congrArg Kind.t hkind
    rw [ht] at hconv
    rw [if_pos rfl, hw, ok_bind]
    cases hc : convertTypes v.kind.t (lowerIntegerType 1 false) 1 with
    | none =>
      simp only [hc] at hconv
      exact ⟨trivial, .crash, by simp [hconv, ok_bind]⟩
    | some c =>
      simp only [hc] at hconv
      obtain ⟨r, js, hr', hk⟩ := hconv
      exact ⟨trivial, (r, s.emitAll (is ++ js)), by simp [hr', ok_bind], hk, _, rfl⟩

theorem follows_progn (hes : ∀ e ∈ es, Follows run e) {l : Option Loop} {s : St}
    (h : Inside l s) :
    Predicts (Gives s) (scanProgn run s.whileInLoop l.isSome es s.scan) (evalProgn run es s)
      (ObeysProgn run l es s) := by
  induction es generalizing s with
  | nil => exact ⟨obeysProgn_nil, (nullRtv, s), rfl, rfl, .refl h.building⟩
  | cons e es ih =>
    cases es with
    | nil =>
      rw [scanProgn, evalProgn]
      refine (hes e List.mem_cons_self h).congr ?_
      simp only [obeysProgn_cons, obeysProgn_nil, implies_true, and_true]
    | cons e' es =>
      have hbind := (hes e List.mem_cons_self h).bind (T := Gives s)
        (f := fun p => scanProgn run s.whileInLoop l.isSome (e' :: es) p.2)
        (g := fun p => evalProgn run (e' :: es) p.2)
        (Q := fun p => ObeysProgn run l (e' :: es) p.2) fun k p _ hp => by
          have hrest := ih (fun x hx => hes x (List.mem_cons_of_mem _ hx)) (h.kept hp.2.1)
          rw [hp.2.1.whileInLoop, hp.2.2] at hrest
          exact hrest.mono fun _ _ hg => hp.2.1.gives hg
      rw [scanProgn, evalProgn]
      refine hbind.congr ?_
      rw [obeysProgn_cons]
      exact and_congr_right fun _ => ⟨fun hQ r s₁ h₁ => hQ (r, s₁) h₁, fun hQ p hp => hQ p.1 p.2 hp⟩

/-- `break` and `continue`, which branch to `d`. -/
theorem jumps_predicts {dest : Loop → Nat} {msg : String} {d : Option Nat} (h : Inside l s)
    (hd : ∀ loop, l = some loop → d = some (dest loop))
    (howns : ∀ loop, l = some loop → s.graph.owner? (dest loop) = s.curllvmfn)
    (hok : eval run e s = if s.whileInLoop then jumpOut d s else .error (.error msg)) :
    Predicts (Gives s)
      (if l.isSome then .ok (nullRtv.kind, s.scan)
        else if s.whileInLoop then .error .violated else .error .stops)
      (eval run e s) (Jumps run l dest msg e s) := by
  obtain ⟨fn, hfn⟩ := Option.isSome_iff_exists.1 h.building.fn
  cases l with
  | some loop =>
    rw [if_pos (h.inLoop rfl), hd loop rfl, jumpOut_eq hfn] at hok
    have hat := Cfg.at?_append_endOf s.graph h.building.lt (.br (dest loop)) []
    rw [hok]
    refine ⟨⟨fn, _, _, hfn, (howns loop rfl).trans hfn, hok, ?_⟩, _, rfl, rfl,
      (jumpState_moves h.building fn _).kept, rfl⟩
    unfold Cfg.at? at hat ⊢
    simpa [jumpState, St.here] using hat
  | none =>
    rw [if_neg (by simp)]
    cases hin : s.whileInLoop with
    | true =>
      rw [hin, if_pos rfl] at hok
      intro hj
      rw [Jumps, hok] at hj
      cases d with
      | none => cases hj
      | some b =>
        rw [jumpOut_eq hfn] at hj
        cases hj
    | false =>
      rw [hin, if_neg Bool.false_ne_true] at hok
      exact ⟨hok, _, hok⟩

theorem follows_break : Follows run .break_ := by
  intro l s h
  rw [scan, Obeys]
  exact jumps_predicts h h.after h.ownsAfter (by rw [eval])

theorem follows_continue : Follows run .continue_ := by
  intro l s h
  rw [scan, Obeys]
  exact jumps_predicts h h.cond h.ownsCond (by rw [eval])

theorem follows_scope (hes : ∀ e ∈ es, Follows run e) : Follows run (.scope es) := by
  intro l s h
  rw [scan, eval, Obeys]
  cases hc : s.curfn with
  | none => exact follows_progn hes h
  | some scopes =>
    have hk : Kept s { s with curfn := some ([] :: scopes) } :=
      (Moves.refl h.building).kept.of_eq rfl rfl rfl rfl rfl rfl
    have hprogn := follows_progn hes (h.kept hk)
    exact hprogn.map fun k p hp => ⟨hp.1, hk.trans (hp.2.1.of_eq rfl rfl rfl
      hp.2.1.whileLastCondBlock hp.2.1.whileLastAfterBlock hp.2.1.whileInLoop), hp.2.2⟩

/-- A body that starts in `s₁` and after which the builder goes to block `b`. -/
theorem Gives.leave {k : Kind × Scan} {v : Rtv} {p : Rtv × St} (h : Kept s s₁)
    (hp : Gives s₁ k p) (i : Instr) {b : Nat} (hb : b < s₁.graph.size) :
    Gives s (v.kind, k.2) (v, (p.2.emit i).position b) := by
  have hk := h.trans hp.2.1
  refine ⟨rfl, ⟨⟨?_, fun c hc => ?_, hk.whileLastCondBlock, hk.whileLastAfterBlock,
    hk.whileInLoop⟩, ⟨rfl, ?_, hk.building.fn⟩, hk.curllvmfn⟩, hp.2.2⟩
  · simpa [St.emit, St.emitAll, St.position] using hk.size_le
  · simpa [St.emit, St.emitAll, St.position] using hk.owner c hc
  · simpa [St.emit, St.emitAll, St.position, St.block] using hb.trans_le hp.2.1.size_le

section Blocks

variable {fn : Nat}

theorem appendBlock_second (hfn : s.curllvmfn = some fn) :
    St.appendBlock { s with graph := s.graph.fresh fn } =
      .ok (s.graph.size + 1, twoBlocks fn s) := by
  rw [appendBlock_eq (s := { s with graph := s.graph.fresh fn }) hfn, Cfg.size_fresh]
  rfl

theorem appendBlock_third (hfn : s.curllvmfn = some fn) :
    (twoBlocks fn s).appendBlock = .ok (s.graph.size + 2, threeBlocks fn s) := by
  rw [appendBlock_eq (s := twoBlocks fn s) hfn, twoBlocks_size]
  rfl

theorem two_blocks (hfn : s.curllvmfn = some fn) {P : Nat → Nat → St → Prop} :
    (∀ b₁ s₁ b₂ s₂, s.appendBlock = .ok (b₁, s₁) → s₁.appendBlock = .ok (b₂, s₂) → P b₁ b₂ s₂) ↔
      P s.graph.size (s.graph.size + 1) (twoBlocks fn s) := by
  constructor
  · exact fun h => h _ _ _ _ (appendBlock_eq hfn) (appendBlock_second hfn)
  · intro h b₁ s₁ b₂ s₂ hb₁ hb₂
    rw [appendBlock_eq hfn] at hb₁
    cases hb₁
    rw [appendBlock_second hfn] at hb₂
    cases hb₂
    exact h

theorem three_blocks (hfn : s.curllvmfn = some fn) {P : Nat → Nat → Nat → St → Prop} :
    (∀ b₁ s₁ b₂ s₂ b₃ s₃, s.appendBlock = .ok (b₁, s₁) → s₁.appendBlock = .ok (b₂, s₂) →
      s₂.appendBlock = .ok (b₃, s₃) → P b₁ b₂ b₃ s₃) ↔
      P s.graph.size (s.graph.size + 1) (s.graph.size + 2) (threeBlocks fn s) := by
  constructor
  · exact fun h =>
      h _ _ _ _ _ _ (appendBlock_eq hfn) (appendBlock_second hfn) (appendBlock_third hfn)
  · intro h b₁ s₁ b₂ s₂ b₃ s₃ hb₁ hb₂ hb₃
    rw [appendBlock_eq hfn] at hb₁
    cases hb₁
    rw [appendBlock_second hfn] at hb₂
    cases hb₂
    rw [appendBlock_third hfn] at hb₃
    cases hb₃
    exact h

end Blocks

theorem guardStart_kept (fn : Nat) (c : Value) (hs : Building s) : Kept s (guardStart fn c s) :=
  ((twoBlocks_moves fn hs).jumpTo (.condBr c s.graph.size (s.graph.size + 1)) le_rfl
    (by rw [twoBlocks_size]; exact Nat.lt_add_of_pos_right Nat.two_pos)).kept

/-- The body of a `cond` in its own block. -/
theorem guard_predicts (hb : Follows run body) (h : Inside l s) (cb : Rtv) (hk : Kept s s₂) :
    Predicts (Gives s)
      (scan run s.whileInLoop l.isSome body s₂.scan >>= fun q => .ok (cb.kind, q.2))
      (s₂.appendBlock >>= fun p => p.2.appendBlock >>= fun q =>
        eval run body ((q.2.emit (.condBr cb.v p.1 q.1)).position p.1) >>= fun t =>
        .ok (cb, (t.2.emit (.br q.1)).position q.1))
      (∀ b₁ s₃ b₂ s₄, s₂.appendBlock = .ok (b₁, s₃) → s₃.appendBlock = .ok (b₂, s₄) →
        Obeys run l body ((s₄.emit (.condBr cb.v b₁ b₂)).position b₁)) := by
  obtain ⟨fn, hfn⟩ := Option.isSome_iff_exists.1 hk.building.fn
  have hstart := hk.trans (guardStart_kept fn cb.v hk.building)
  have hpred := hb (h.kept hstart)
  rw [hstart.whileInLoop] at hpred
  refine Predicts.congr ?_ (two_blocks hfn (P := fun b₁ b₂ s₄ =>
    Obeys run l body ((s₄.emit (.condBr cb.v b₁ b₂)).position b₁))).symm
  rw [appendBlock_eq hfn, ok_bind, appendBlock_second hfn, ok_bind]
  exact hpred.bind_ok (T := Gives s) (f := fun q => (cb.kind, q.2))
    (g := fun t => (cb, (t.2.emit (.br (s₂.graph.size + 1))).position (s₂.graph.size + 1)))
    fun k p hp => hp.leave hstart _ (by simp)

theorem follows_cond (hc : Follows run c) (hb : Follows run body) :
    Follows run (.cond c body) := by
  intro l s h
  rw [scan, eval]
  refine ((hc h).bind (T := Gives s)
    (f := fun p => p.1.condition >>= fun k =>
      scan run s.whileInLoop l.isSome body p.2 >>= fun q => .ok (k, q.2))
    (g := fun p => toCondition p.1 p.2 >>= fun q => q.2.appendBlock >>= fun b₁ =>
      b₁.2.appendBlock >>= fun b₂ =>
        eval run body ((b₂.2.emit (.condBr q.1.v b₁.1 b₂.1)).position b₁.1) >>= fun t =>
        .ok (q.1, (t.2.emit (.br b₂.1)).position b₂.1))
    (Q := fun p => ∀ q, toCondition p.1 p.2 = .ok q → ∀ b₁ s₃ b₂ s₄,
      q.2.appendBlock = .ok (b₁, s₃) → s₃.appendBlock = .ok (b₂, s₄) →
      Obeys run l body ((s₄.emit (.condBr q.1.v b₁ b₂)).position b₁))
    fun k p _ hp => ?_).congr ?_
  · rw [← hp.1]
    refine ((toCondition_predicts p.1 p.2).bind fun k' q _ hq => ?_).congr
      (and_iff_right trivial)
    obtain ⟨rfl, is, hs₂⟩ := hq
    have hk := hp.2.1.trans (hs₂ ▸ kept_emitAll hp.2.1.building is)
    have hscan : q.2.scan = k.2 := by
      rw [hs₂, ← hp.2.2]
      rfl
    exact hscan ▸ guard_predicts hb h q.1 hk
  · rw [Obeys]
    refine and_congr_right fun _ => ⟨fun hQ cv s₁ cb s₂ b₁ s₃ b₂ s₄ h₁ h₂ => ?_,
      fun hQ p hp q hq b₁ s₃ b₂ s₄ => ?_⟩
    · exact hQ (cv, s₁) h₁ (cb, s₂) h₂ b₁ s₃ b₂ s₄
    · exact hQ p.1 p.2 q.1 q.2 b₁ s₃ b₂ s₄ hp hq

/-- After the body of a loop, its context is that before the loop. -/
theorem Kept.restore {b a : Nat} (h : Kept s s₂) (k : Kept (s₂.enterLoop b a) s') :
    Kept s (s₂.restoreLoop s') :=
  ⟨⟨h.size_le.trans k.size_le, fun c hc => (k.owner c (hc.trans_le h.size_le)).trans (h.owner c hc),
    h.whileLastCondBlock, h.whileLastAfterBlock, h.whileInLoop⟩, ⟨k.building.bldr, k.building.lt,
    k.building.fn⟩, k.curllvmfn.trans h.curllvmfn⟩

theorem testStart_kept (fn : Nat) (hs : Building s) : Kept s (testStart fn s) :=
  ((threeBlocks_moves fn hs).jumpTo (.br s.graph.size) le_rfl
    (by rw [threeBlocks_size]; exact Nat.lt_add_of_pos_right (Nat.succ_pos _))).kept

theorem testStart_owner {fn i : Nat} (hi : i < 3) :
    (testStart fn s).graph.owner? (s.graph.size + i) = some fn :=
  (Cfg.owner?_append _ _ _ _).trans (threeBlocks_owner hi)

/-- Into the body of a loop. -/
theorem loopStart_kept {k : Nat} (c : Value) (hs : Building s) (hk : k + 1 < s.graph.size) :
    Kept s (loopStart k c s) :=
  ⟨⟨by simp, fun b _ => Cfg.owner?_append _ _ _ _, rfl, rfl, rfl⟩,
    ⟨rfl, by simpa [St.block, loopStart, St.position, St.emit, St.emitAll] using hk, hs.fn⟩, rfl⟩

theorem loopEnd_kept {k : Nat} (hs : Building s) (hk : k + 2 < s.graph.size) :
    Kept s (loopEnd k s) :=
  ⟨⟨by simp [loopEnd, St.position, St.emit, St.emitAll], fun b _ => Cfg.owner?_append _ _ _ _,
    rfl, rfl, rfl⟩,
    ⟨rfl, by simpa [St.block, loopEnd, St.position, St.emit, St.emitAll] using hk, hs.fn⟩, rfl⟩

/-- The body of a loop whose blocks belong to the function being built. -/
theorem loop_predicts (hb : Follows run body) {k fn : Nat} (c : Value) (hk : Kept s s₂)
    (hfn : s₂.curllvmfn = some fn) (h₀ : s₂.graph.owner? k = some fn) (hlt : k + 2 < s₂.graph.size)
    (h₂ : s₂.graph.owner? (k + 2) = some fn) :
    Predicts (Gives s)
      (scan run true true body s₂.scan >>= fun q => .ok (nullRtv.kind, q.2))
      (eval run body ((loopStart k c s₂).enterLoop k (k + 2)) >>= fun t =>
        .ok (nullRtv, loopEnd k ((loopStart k c s₂).restoreLoop t.2)))
      (Obeys run (some ⟨k, k + 2⟩) body ((loopStart k c s₂).enterLoop k (k + 2))) := by
  have hstart := loopStart_kept c hk.building (Nat.lt_of_succ_lt hlt)
  have hin : Inside (some ⟨k, k + 2⟩) ((loopStart k c s₂).enterLoop k (k + 2)) := by
    refine ⟨⟨rfl, hstart.building.lt, hk.building.fn⟩, ?_, ?_, fun _ => rfl, ?_, ?_⟩ <;>
      rintro _ ⟨⟩
    · rfl
    · rfl
    · exact (hstart.owner_some h₀).trans hfn.symm
    · exact (hstart.owner_some h₂).trans hfn.symm
  refine (hb hin).bind_ok fun q t ht => ⟨rfl, ?_, ht.2.2⟩
  have hrest := (hk.trans hstart).restore ht.2.1
  have hsize : k + 2 < ((loopStart k c s₂).restoreLoop t.2).graph.size :=
    hlt.trans_le (hstart.size_le.trans ht.2.1.size_le)
  exact hrest.trans (loopEnd_kept hrest.building hsize)

theorem follows_while (hc : Follows run c) (hb : Follows run body) :
    Follows run (.while_ c body) := by
  intro l s h
  obtain ⟨fn, hfn⟩ := Option.isSome_iff_exists.1 h.building.fn
  have htest := testStart_kept fn h.building
  have hcond := hc (h.kept htest)
  rw [htest.whileInLoop] at hcond
  rw [scan, eval_while hfn]
  refine (hcond.bind (T := Gives s)
    (f := fun p => p.1.condition >>= fun _ =>
      scan run true true body p.2 >>= fun q => .ok (nullRtv.kind, q.2))
    (Q := fun p => ∀ q, toCondition p.1 p.2 = .ok q →
      Obeys run (some ⟨s.graph.size, s.graph.size + 2⟩) body
        ((loopStart s.graph.size q.1.v q.2).enterLoop s.graph.size (s.graph.size + 2)))
    fun k p _ hp => ?_).congr ?_
  · rw [← hp.1]
    refine ((toCondition_predicts p.1 p.2).bind fun k' q _ hq => ?_).congr
      (and_iff_right trivial)
    obtain ⟨-, is, hs₂⟩ := hq
    have hk := hp.2.1.trans (hs₂ ▸ kept_emitAll hp.2.1.building is)
    have hscan : q.2.scan = k.2 := by
      rw [hs₂, ← hp.2.2]
      rfl
    have hlt : s.graph.size + 2 < q.2.graph.size :=
      Nat.lt_of_lt_of_le (by rw [testStart_size]; exact Nat.lt_succ_self _) hk.size_le
    exact hscan ▸ loop_predicts hb q.1.v (htest.trans hk)
      ((hk.curllvmfn.trans htest.curllvmfn).trans hfn)
      (hk.owner_some (testStart_owner (i := 0) (by decide))) hlt
      (hk.owner_some (testStart_owner (i := 2) (by decide)))
  · rw [Obeys, three_blocks hfn]
    exact and_congr_right fun _ => ⟨fun hQ cv s₁ cb s₂ h₁ h₂ => hQ (cv, s₁) h₁ (cb, s₂) h₂,
      fun hQ p hp q hq => hQ p.1 p.2 q.1 q.2 hp hq⟩

/-! ## Function bodies -/

theorem enterFunction_grown (f : Fun) (sameMod : Bool) (s : St) :
    Grown s (enterFunction f sameMod s) := by
  obtain ⟨is, hs, -⟩ := bindParms_spec s.fns.length f.parms 0 [] (entryState f sameMod s)
  have hgraph := entryState_graph f sameMod s
  rw [enterFunction_of_parms hs]
  refine ⟨by simp [St.emitAll, hgraph], fun b hb => ?_, ?_, ?_, ?_⟩
  · exact (Cfg.owner?_append _ _ _ _).trans (hgraph ▸ Cfg.owner?_fresh_of_lt _ _ hb)
  all_goals cases sameMod <;> rfl

theorem enterFunction_scan (f : Fun) (sameMod : Bool) (s : St) :
    (enterFunction f sameMod s).scan = { s.scan with fns := s.scan.fns + 1 } := by
  obtain ⟨is, hs, -⟩ := bindParms_spec s.fns.length f.parms 0 [] (entryState f sameMod s)
  rw [enterFunction_of_parms hs]
  cases sameMod <;>
    simp [St.scan, St.emitAll, entryState, St.addFunction, St.position, St.beginNewFunction]

/-- Back in the function around. -/
theorem leave_function (h : Kept (enterFunction f sameMod s) s₁) (hs : Building s)
    (is : List Instr) (m : Nat) :
    Arrives s s₁.scan { (s₁.emitAll is).setBuilderPosition s.bldr with
      curfn := s.curfn, curllvmfn := s.curllvmfn, mod := m } := by
  obtain ⟨b, hb⟩ := Option.isSome_iff_exists.1 hs.bldr
  have hblock : s.block = b := by simp [St.block, hb]
  have hg := (enterFunction_grown f sameMod s).trans h.toGrown
  have hlt : b < s₁.graph.size := (hblock ▸ hs.lt).trans_le hg.size_le
  simp only [hb, St.setBuilderPosition]
  refine ⟨⟨⟨?_, fun c hc => ?_, hg.whileLastCondBlock, hg.whileLastAfterBlock, hg.whileInLoop⟩,
    ⟨rfl, ?_, hs.fn⟩, rfl⟩, rfl⟩
  · simpa [St.emitAll, St.position] using hg.size_le
  · exact (Cfg.owner?_append _ _ _ _).trans (hg.owner c hc)
  · simpa [St.emitAll, St.position, St.block] using hlt

theorem buildReturn_predicts {v : Rtv} (hv : v.lval = false) (f : Fun) (s : St) (x : Scan) :
    Predicts (fun y s' => y = x ∧ ∃ is, s' = s.emitAll is)
      (if decide (f.ret.t = .void) || (convertTypes v.t f.ret 0).isSome then .ok x
        else .error .stops) (buildReturn f v s) True := by
  unfold buildReturn
  by_cases hvoid : f.ret.t = .void
  · rw [if_pos (by simp [hvoid]), if_pos hvoid]
    exact ⟨trivial, _, rfl, rfl, _, rfl⟩
  · have hconv := convertType_predicts hv f.ret 0 s
    rw [if_neg hvoid]
    cases hc : convertTypes v.t f.ret 0 with
    | none =>
      simp only [hc] at hconv
      rw [if_neg (by simp [hvoid]), hconv]
      exact ⟨trivial, _, rfl⟩
    | some c =>
      simp only [hc] at hconv
      obtain ⟨r, is, hr, -⟩ := hconv
      rw [if_pos (by simp), hr]
      exact ⟨trivial, _, rfl, rfl, is ++ [.ret r.v], by simp [St.emit]⟩

/-- The return of a function, and the way back to the function around it. -/
theorem return_predicts {v : Rtv} (h : Kept (enterFunction f sameMod s) s₁) (hs : Building s) :
    Predicts (Arrives s) (if v.kind.returns f.ret then .ok s₁.scan else .error .stops)
      (prepareRead v s₁ >>= fun p => buildReturn f p.1 p.2 >>= fun s' =>
        .ok { s'.setBuilderPosition s.bldr with
          curfn := s.curfn, curllvmfn := s.curllvmfn, mod := if sameMod then s'.mod else s.mod })
      True := by
  have hread := prepareRead_predicts v s₁
  unfold Kind.returns
  cases hr : v.kind.reads with
  | false =>
    rw [hr, if_neg Bool.false_ne_true] at hread
    obtain ⟨-, x, hx⟩ := hread
    rw [hx]
    exact ⟨trivial, x, rfl⟩
  | true =>
    rw [hr, if_pos rfl] at hread
    obtain ⟨-, ⟨w, s₂⟩, hw, hkind, hlval, is, rfl⟩ := hread
    have hret := buildReturn_predicts hlval f (s₁.emitAll is) s₁.scan
    rw [show w.t = v.kind.t from congrArg Kind.t hkind] at hret
    rw [hw, ok_bind, Bool.true_and]
    refine hret.map fun y s' hy => ?_
    obtain ⟨rfl, js, rfl⟩ := hy
    rw [St.emitAll_emitAll]
    exact leave_function h hs _ _

theorem body_predicts (hb : Follows run body) (f : Fun) (sameMod : Bool) (hs : Building s) :
    Predicts (Arrives s) (scanBody (scan run s.whileInLoop false body) f s.scan)
      (funbody (eval run body) f sameMod s)
      (s.precompiled = true → Obeys run none body (enterFunction f sameMod s)) := by
  unfold scanBody funbody
  cases hp : s.precompiled with
  | false =>
    rw [if_neg (by simp [St.scan, hp]), if_neg Bool.false_ne_true]
    exact ⟨fun h => (nomatch h), s, rfl, .refl hs⟩
  | true =>
    rw [if_pos (by simp [St.scan, hp]), if_pos rfl]
    have hframe := (enterFunction_spec f sameMod s).1
    have hbody := hb (Inside.none hframe.building)
    rw [(enterFunction_grown f sameMod s).whileInLoop, enterFunction_scan] at hbody
    refine (hbody.bind (T := Arrives s)
      (f := fun p => if p.1.returns f.ret then .ok p.2 else .error .stops)
      (Q := fun _ => True) fun k p _ hk => ?_).congr ⟨fun h _ => h.1, fun h => ⟨h rfl, fun _ _ => trivial⟩⟩
    rw [← hk.1, ← hk.2.2]
    exact return_predicts hk.2.1 hs

theorem registerNew_predicts (f : Fun) (s : St) :
    Predicts (fun x s' => s' = s.register f ∧ x = s'.scan) (s.scan.registerNew f)
      (registerNew f s) True := by
  unfold Scan.registerNew registerNew
  cases hf : s.funs.lookup f.name with
  | some g =>
    have hsome : (s.funs.lookup f.name).isSome := by simp [hf]
    obtain ⟨p, hp, hname⟩ := List.lookup_isSome_iff.1 hsome
    have hmem : f.name ∈ s.scan.funs := List.mem_map.2 ⟨p, hp, (beq_iff_eq.1 hname).symm⟩
    rw [if_pos hmem]
    exact ⟨trivial, _, rfl⟩
  | none =>
    have hmem : f.name ∉ s.scan.funs := by
      intro hm
      obtain ⟨p, hp, hname⟩ := List.mem_map.1 hm
      simpa [hname] using List.lookup_eq_none_iff.1 hf p hp
    rw [if_neg hmem]
    exact ⟨trivial, _, rfl, rfl, rfl⟩

theorem register_kept (hs : Building s) (f : Fun) : Kept s (s.register f) :=
  (Moves.refl hs).kept.of_eq rfl rfl rfl rfl rfl rfl

theorem follows_defun (f : Fun) (hb : Follows run body) : Follows run (.defun f body) := by
  intro l s h
  have hk := register_kept h.building f
  rw [scan, eval]
  refine ((registerNew_predicts f s).bind (T := Gives s)
    (f := fun x => scanBody (scan run s.whileInLoop false body) f x >>= fun x =>
      .ok (nullRtv.kind, x))
    (g := fun s₁ => funbody (eval run body) f false s₁ >>= fun s₂ => .ok (nullRtv, s₂))
    (Q := fun s₁ => s₁.precompiled = true → Obeys run none body (enterFunction f false s₁))
    fun x s₁ _ hx => ?_).congr ?_
  · obtain ⟨rfl, rfl⟩ := hx
    have hbody := body_predicts hb f false hk.building
    rw [hk.whileInLoop] at hbody
    exact hbody.bind_ok fun x s₂ hs₂ => ⟨rfl, hk.arrives hs₂⟩
  · rw [Obeys, and_iff_right trivial]

theorem follows_defmacro (name : String) (hb : Follows run body) :
    Follows run (body |> Expr.defmacro name) := by
  intro l s h
  have hk := register_kept h.building (macroproto name)
  have hbody := body_predicts hb (macroproto name) false hk.building
  rw [hk.whileInLoop] at hbody
  rw [scan, eval, Obeys]
  exact hbody.bind_ok fun x s₂ hs₂ => ⟨rfl, hk.arrives hs₂⟩

theorem follows_lambda (fileIdx charIdx : Nat) (ret : Rtt) (parms : List (String × Rtt))
    (vaArgs : Bool) (hb : Follows run body) :
    Follows run (.lambda fileIdx charIdx ret parms vaArgs body) := by
  intro l s h
  rw [scan, eval, Obeys]
  refine (body_predicts hb ⟨lambdaName fileIdx charIdx, ret, parms, vaArgs⟩ true
    h.building).bind_ok fun x s₂ hs₂ => ⟨?_, hs₂⟩
  rw [← hs₂.2]
  rfl

theorem follows_staticCond (hc : Follows run c) (hb : Follows run body) :
    Follows run (.staticCond c body) := by
  intro l s h
  have hcount : Kept s { s with staticCondNumber := s.staticCondNumber + 1 } :=
    (Moves.refl h.building).kept.of_eq rfl rfl rfl rfl rfl rfl
  have hk := hcount.trans (register_kept hcount.building (condFun (s.staticCondNumber + 1)))
  rw [scan, eval]
  refine ((registerNew_predicts (condFun (s.staticCondNumber + 1))
      { s with staticCondNumber := s.staticCondNumber + 1 }).bind (T := Gives s)
    (f := fun x => scanBody (scan run s.whileInLoop false c) (condFun (s.staticCondNumber + 1)) x
      >>= fun x => if run (s.staticCondNumber + 1) then
        scan run s.whileInLoop l.isSome body x >>= fun p => .ok (nullRtv.kind, p.2)
        else .ok (nullRtv.kind, x))
    (g := fun s₁ => funbody (eval run c) (condFun (s.staticCondNumber + 1)) false s₁ >>= fun s₂ =>
      if run (s.staticCondNumber + 1) then
        eval run body s₂ >>= fun p => .ok (nullRtv, p.2)
        else .ok (nullRtv, s₂))
    (Q := fun s₁ => (s₁.precompiled = true →
        Obeys run none c (enterFunction (condFun (s.staticCondNumber + 1)) false s₁)) ∧
      ∀ s₂, funbody (eval run c) (condFun (s.staticCondNumber + 1)) false s₁ = .ok s₂ →
        run (s.staticCondNumber + 1) = true → Obeys run l body s₂)
    fun x s₁ _ hx => ?_).congr ?_
  · obtain ⟨rfl, rfl⟩ := hx
    have hcond := body_predicts hc (condFun (s.staticCondNumber + 1)) false hk.building
    rw [hk.whileInLoop] at hcond
    refine hcond.bind fun x s₂ _ hs₂ => ?_
    have hk₂ := hk.trans hs₂.1
    cases run (s.staticCondNumber + 1) with
    | false => exact ⟨fun hr => absurd hr Bool.false_ne_true, _, rfl, rfl, hk₂, hs₂.2⟩
    | true =>
      have hbody := hb (h.kept hk₂)
      rw [hk₂.whileInLoop, hs₂.2] at hbody
      exact (hbody.bind_ok fun _ _ hp => ⟨rfl, hk₂.arrives hp.2⟩).congr
        (by simp)
  · rw [Obeys, and_iff_right trivial]

theorem Nested.follows (he : Nested e) : Follows run e := by
  induction he with
  | form ks r =>
    intro l s h
    rw [scan, eval, Obeys]
    exact ⟨trivial, _, rfl, rfl, kept_emitAll h.building _, rfl⟩
  | progn _ ih =>
    intro l s h
    rw [scan_progn, eval, obeys_progn]
    exact follows_progn ih h
  | scope _ ih => exact follows_scope ih
  | cond _ _ hc hb => exact follows_cond hc hb
  | while_ _ _ hc hb => exact follows_while hc hb
  | break_ => exact follows_break
  | continue_ => exact follows_continue
  | defun f _ hb => exact follows_defun f hb
  | defmacro name _ hb => exact follows_defmacro name hb
  | lambda fileIdx charIdx ret parms vaArgs _ hb =>
    exact follows_lambda fileIdx charIdx ret parms vaArgs hb
  | staticCond _ _ hc hb => exact follows_staticCond hc hb

/-- In nested loops and function definitions that are not in a loop themselves,
every `break` and `continue` follows the text if and only if evaluation does not
arrive at one that is in a loop of another function only. -/
theorem nested_obeys_iff (run : Nat → Bool) (e : Expr) (he : Nested e) (s : St) (hs : Building s)
    (hl : s.whileInLoop = false) :
    Obeys run none e s ↔ scan run false false e s.scan ≠ .error .violated := by
  have hfollows := (he.follows : Follows run e) (Inside.none hs)
  rw [hl] at hfollows
  exact hfollows.iff

/-- A function that returns nothing. -/
def voidFun : Fun := ⟨"g", ⟨.void, .void⟩, [], false⟩

/-- A loop around an opaque condition. -/
def loopOver (body : Expr) : Expr := .while_ (test [] ⟨.ext 7, .int 1⟩ false) body

theorem loopOver_nested (he : Nested e) : Nested (loopOver e) := .while_ (.form _ _) he

/-- A function with a loop of its own, defined in a loop. -/
theorem nested_obeys_iff_example :
    Obeys (fun _ => true) none (loopOver (.defun voidFun (loopOver .break_))) emptyBody :=
  (nested_obeys_iff (fun _ => true) (loopOver (.defun voidFun (loopOver .break_)))
    (loopOver_nested (.defun _ (loopOver_nested .break_))) emptyBody emptyBody_building rfl).2
    (by decide)

/-- The `break` in a function without loops branches to block 3 of the function
around: it is compiled without an error. -/
theorem captured_break :
    Nested (loopOver (.defun voidFun .break_)) ∧ emptyBody.whileInLoop = false ∧
      ¬ Obeys (fun _ => true) none (loopOver (.defun voidFun .break_)) emptyBody ∧
      ∃ r s', eval (fun _ => true) (loopOver (.defun voidFun .break_)) emptyBody = .ok (r, s') ∧
        .br 3 ∈ s'.graph.code 4 ∧ s'.graph.owner? 4 = some 1 ∧ s'.graph.owner? 3 = some 0 := by
  have hnested := loopOver_nested (.defun voidFun .break_)
  refine ⟨hnested, rfl, ?_, _, _, rfl, by decide, rfl, rfl⟩
  rw [(hnested.follows (Inside.none emptyBody_building)).iff]
  decide

end Dolorem.Codegen
