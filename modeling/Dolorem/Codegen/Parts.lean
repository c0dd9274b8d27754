import Dolorem.Codegen.Flow

/-!
# The parts of an evaluation

`IfRun`, `CondRun` and `WhileRun` are the evaluations of `if`, `cond` and
`while` cut into their parts: the evaluations of the subexpressions, the
conversions, and the states in between. With them follows what every evaluation
does to the blocks (`Valued.steps`).
-/

namespace Dolorem.Codegen

open CodeGraph

variable {run : Nat → Bool} {s s' s₁ s₂ : St} {n fn : Nat} {open_ : List Nat}
variable {r : Rtv} {c t e body : Expr} {es : List Expr}

/-! ## Conversions and calls that succeed -/

theorem prepareRead_ok {v : Rtv} (h : prepareRead v s = .ok (r, s')) :
    ∃ is, s' = s.emitAll is ∧ Ops is ∧ v.shape.read = some r.shape := by
  have hspec := prepareRead_spec v s
  cases hσ : v.shape.read with
  | none =>
    simp only [hσ] at hspec
    rw [hspec] at h
    cases h
  | some σ =>
    simp only [hσ] at hspec
    obtain ⟨v', is, hv, ops, rfl⟩ := hspec
    rw [hv] at h
    cases h
    exact ⟨is, rfl, ops, rfl⟩

theorem toCondition_ok {v : Rtv} (h : toCondition v s = .ok (r, s')) :
    ∃ is, s' = s.emitAll is ∧ Ops is ∧ v.shape.condition = some r.shape := by
  have hspec := toCondition_spec v s
  cases hσ : v.shape.condition with
  | none =>
    simp only [hσ] at hspec
    rw [hspec] at h
    cases h
  | some σ =>
    simp only [hσ] at hspec
    obtain ⟨r', is, hr, ops, rfl⟩ := hspec
    rw [hr] at h
    cases h
    exact ⟨is, rfl, ops, rfl⟩

theorem convertType_ok {v κ : Rtv} {dest : Rtt} {flags : Nat}
    (h : convertType v dest flags s = .ok (some κ, s')) :
    ∃ is τ, s' = s.emitAll is ∧ Ops is ∧ v.shape.read = some τ ∧
      τ.convert dest flags = some κ.shape := by
  rw [convertType_read] at h
  obtain ⟨⟨w, s₁⟩, hw, h⟩ := bind_ok.1 h
  obtain ⟨is, rfl, ops, hread⟩ := prepareRead_ok hw
  have hspec := convertType_spec (v := w) (Shape.read_lval hread) dest flags (s.emitAll is)
  simp only at h
  cases hκ : w.shape.convert dest flags with
  | none =>
    simp only [hκ] at hspec
    rw [hspec] at h
    cases h
  | some κ' =>
    simp only [hκ] at hspec
    obtain ⟨u, js, hu, ops', rfl⟩ := hspec
    rw [hu] at h
    cases h
    exact ⟨is ++ js, w.shape, by simp, ops.append ops', hread, hκ⟩

theorem lowerFuncall_ok {f : Fun} {v : Value} {args : List Rtv}
    (h : lowerFuncall v f args s = .ok (r, s')) :
    ∃ is, s' = s.emitAll is ∧ Ops is ∧ callShape f (args.map Rtv.shape) = some r.shape := by
  have hspec := lowerFuncall_spec v f args s
  cases hσ : callShape f (args.map Rtv.shape) with
  | none =>
    simp only [hσ] at hspec
    obtain ⟨x, hx⟩ := hspec
    rw [hx] at h
    cases h
  | some σ =>
    simp only [hσ] at hspec
    obtain ⟨r', is, hr, ops, rfl⟩ := hspec
    rw [hr] at h
    cases h
    exact ⟨is, rfl, ops, rfl⟩

/-! ## Control structures -/

/-- The blocks `if` and `while` start with. -/
def threeBlocks (fn : Nat) (s : St) : St :=
  { s with graph := ((s.graph.fresh fn).fresh fn).fresh fn }

/-- The blocks `cond` makes after its condition. -/
def twoBlocks (fn : Nat) (s : St) : St :=
  { s with graph := (s.graph.fresh fn).fresh fn }

/-- Where the then-branch of an `if` starts; `k` is the first of its blocks. -/
def thenStart (k : Nat) (c : Value) (s : St) : St := (s.emit (.condBr c k (k + 1))).position k

def elseStart (k : Nat) (s : St) : St := (s.emit (.br (k + 2))).position (k + 1)

/-- Where the branches of an `if` meet again. -/
def joinStart (k : Nat) (s : St) : St := (s.emit (.br (k + 2))).position (k + 2)

/-- Where the body of a `cond` starts. -/
def guardStart (fn : Nat) (c : Value) (s : St) : St :=
  thenStart s.graph.size c (twoBlocks fn s)

/-- Where the condition of a `while` starts. -/
def testStart (fn : Nat) (s : St) : St :=
  ((threeBlocks fn s).emit (.br s.graph.size)).position s.graph.size

/-- Where the body of a `while` starts. -/
def loopStart (k : Nat) (c : Value) (s : St) : St :=
  (s.emit (.condBr c (k + 1) (k + 2))).position (k + 1)

/-- What `while` does after its body. -/
def loopEnd (k : Nat) (s : St) : St := (s.emit (.br k)).position (k + 2)

/-- What `if` does after its branches: `rt` and `re` are their values. -/
def ifEnd (k : Nat) (rt re : Rtv) (s : St) : Except Halt (Rtv × St) := do
  let dest ← unwrapType rt
  let (κ, s) ← convertType re dest 0 s
  let s := joinStart k s
  let (phi, s) ← s.buildPhi dest.l
  match κ with
  | none => .error .crash
  | some κ =>
    .ok ({ rt with v := phi }, (s.addIncoming phi rt.v k).addIncoming phi κ.v (k + 1))

theorem eval_if (hfn : s.curllvmfn = some fn) :
    eval run (.if_ c t e) s =
      eval run c (threeBlocks fn s) >>= fun p => toCondition p.1 p.2 >>= fun p =>
        eval run t (thenStart s.graph.size p.1.v p.2) >>= fun pt =>
        eval run e (elseStart s.graph.size pt.2) >>= fun pe =>
        ifEnd s.graph.size pt.1 pe.1 pe.2 := by
  simp only [eval, St.appendBlock, hfn, ok_bind, Cfg.size_fresh, threeBlocks]
  rfl

theorem eval_while (hfn : s.curllvmfn = some fn) :
    eval run (.while_ c body) s =
      eval run c (testStart fn s) >>= fun p => toCondition p.1 p.2 >>= fun p =>
        let start := loopStart s.graph.size p.1.v p.2
        eval run body (start.enterLoop s.graph.size (s.graph.size + 2)) >>= fun pb =>
        .ok (nullRtv, loopEnd s.graph.size (start.restoreLoop pb.2)) := by
  simp only [eval, St.appendBlock, hfn, ok_bind, Cfg.size_fresh, testStart, threeBlocks]
  rfl

/-- What `cond` does after its condition. -/
def condEnd (fn : Nat) (body : St → Except Halt (Rtv × St)) (cb : Rtv) (s : St) :
    Except Halt (Rtv × St) := do
  let k := s.graph.size
  let (_, s) ← body (guardStart fn cb.v s)
  .ok (cb, (s.emit (.br (k + 1))).position (k + 1))

/-- The evaluation of `cond`, given that its condition stays in the function. -/
theorem eval_cond
    (hfn : ∀ cv s₁ cb s₂, eval run c s = .ok (cv, s₁) → toCondition cv s₁ = .ok (cb, s₂) →
      s₂.curllvmfn = some fn) :
    eval run (.cond c body) s =
      eval run c s >>= fun p => toCondition p.1 p.2 >>= fun p =>
        condEnd fn (eval run body) p.1 p.2 := by
  rw [eval]
  cases hc : eval run c s with
  | error x => rfl
  | ok p =>
    simp only [ok_bind]
    cases hb : toCondition p.1 p.2 with
    | error x => rfl
    | ok q =>
      have hq := hfn p.1 p.2 q.1 q.2 hc hb
      have h₁ := appendBlock_eq hq
      have h₂ := appendBlock_eq (s := { q.2 with graph := q.2.graph.fresh fn }) hq
      simp only [ok_bind, h₁, h₂, Cfg.size_fresh]
      rfl

theorem unwrapType_ok {v : Rtv} {dest : Rtt} (h : unwrapType v = .ok dest) (hl : dest.l ≠ .null) :
    v.t ≠ .void ∧ dest.t = v.t ∧
      if v.lval then v.v.ty.element = some dest.l else v.v.ty = dest.l := by
  unfold unwrapType at h
  split at h
  · cases h
    exact absurd rfl hl
  · next ht =>
    refine ⟨ht, ?_⟩
    split at h
    · split at h
      · next he =>
        cases h
        exact ⟨rfl, by rw [if_pos ‹_›]; exact he⟩
      · cases h
    · cases h
      exact ⟨rfl, by rw [if_neg ‹_›]⟩

theorem St.addIncoming_emit (h : s.block < s.graph.size) (ty : LTy) (inc : List (Value × Nat))
    (v : Value) (b : Nat) :
    (s.emit (.phi ty inc)).addIncoming ⟨.inst s.here, ty⟩ v b =
      s.emit (.phi ty (inc ++ [(v, b)])) := by
  simp only [addIncoming, emit, emitAll, here, Cfg.update_append s.graph h, Instr.addIncoming]

theorem ifEnd_ok {k : Nat} {rt re : Rtv} (h : ifEnd k rt re s = .ok (r, s'))
    (hk : k + 2 < s.graph.size) :
    ∃ dest κ s₁, unwrapType rt = .ok dest ∧ convertType re dest 0 s = .ok (some κ, s₁) ∧
      dest.l ≠ .null ∧ r.shape = ⟨dest.l, rt.t, rt.lval⟩ ∧
      s' = (joinStart k s₁).emit (.phi dest.l [(rt.v, k), (κ.v, k + 1)]) := by
  obtain ⟨dest, hd, h⟩ := bind_ok.1 h
  obtain ⟨⟨κ, s₁⟩, hκ, h⟩ := bind_ok.1 h
  simp only [St.buildPhi] at h
  split at h
  · cases h
  · next hl =>
    cases κ with
    | none => cases h
    | some κ =>
      have hsize : (joinStart k s₁).block < (joinStart k s₁).graph.size := by
        obtain ⟨is, -, rfl, -⟩ := convertType_ok hκ
        simpa [joinStart, St.emit, St.emitAll, St.position, St.block] using hk
      cases h
      refine ⟨dest, κ, s₁, hd, hκ, hl, rfl, ?_⟩
      simp only [St.build]
      rw [St.addIncoming_emit hsize, St.addIncoming_emit hsize, List.nil_append,
        List.singleton_append]

/-! ## New blocks -/

variable (fn) in
theorem threeBlocks_size : (threeBlocks fn s).graph.size = s.graph.size + 3 := by
  simp [threeBlocks]

theorem twoBlocks_size : (twoBlocks fn s).graph.size = s.graph.size + 2 := by
  simp [twoBlocks]

theorem threeBlocks_owner {i : Nat} (hi : i < 3) :
    (threeBlocks fn s).graph.owner? (s.graph.size + i) = some fn := by
  have h₁ := s.graph.owner?_fresh_self fn
  have h₂ := (s.graph.fresh fn).owner?_fresh_self fn
  have h₃ := ((s.graph.fresh fn).fresh fn).owner?_fresh_self fn
  simp only [Cfg.size_fresh] at h₂ h₃
  unfold threeBlocks
  obtain rfl | rfl | rfl : i = 0 ∨ i = 1 ∨ i = 2 := by omega
  · rw [Cfg.owner?_fresh_of_lt, Cfg.owner?_fresh_of_lt]
    · exact h₁
    all_goals simp only [Cfg.size_fresh]; omega
  · rw [Cfg.owner?_fresh_of_lt]
    · exact h₂
    simp only [Cfg.size_fresh]; omega
  · exact h₃

theorem twoBlocks_owner {i : Nat} (hi : i < 2) :
    (twoBlocks fn s).graph.owner? (s.graph.size + i) = some fn :=
  (Cfg.owner?_fresh_of_lt _ fn (by rw [twoBlocks_size]; exact Nat.add_lt_add_left hi _)).symm.trans
    (threeBlocks_owner (Nat.lt_succ_of_lt hi))

section Sizes

variable (k : Nat) (v : Value) (s : St)

@[simp] theorem thenStart_size : (thenStart k v s).graph.size = s.graph.size := by
  simp [thenStart, St.position, St.emit, St.emitAll]

@[simp] theorem elseStart_size : (elseStart k s).graph.size = s.graph.size := by
  simp [elseStart, St.position, St.emit, St.emitAll]

@[simp] theorem guardStart_size : (guardStart fn v s).graph.size = s.graph.size + 2 := by
  simp [guardStart, twoBlocks]

@[simp] theorem testStart_size : (testStart fn s).graph.size = s.graph.size + 3 := by
  simp [testStart, threeBlocks, St.position, St.emit, St.emitAll]

@[simp] theorem loopStart_size : (loopStart k v s).graph.size = s.graph.size := by
  simp [loopStart, St.position, St.emit, St.emitAll]

end Sizes

variable (fn) in
theorem threeBlocks_moves (hs : Building s) : Moves s (threeBlocks fn s) :=
  have h₁ := Moves.fresh hs fn
  have h₂ := h₁.trans (.fresh h₁.building fn)
  h₂.trans (.fresh h₂.building fn)

variable (fn) in
theorem twoBlocks_moves (hs : Building s) : Moves s (twoBlocks fn s) :=
  have h₁ := Moves.fresh hs fn
  h₁.trans (.fresh h₁.building fn)

theorem threeBlocks_keeps {x y : List Nat} :
    Keeps n x y s.graph (threeBlocks fn s).graph :=
  ((Keeps.fresh fn).trans (.fresh fn)).trans (.fresh fn)

theorem twoBlocks_keeps {x y : List Nat} : Keeps n x y s.graph (twoBlocks fn s).graph :=
  (Keeps.fresh fn).trans (.fresh fn)

theorem Frame.threeBlocks (h : Frame n fn open_ s) :
    Frame n fn (s.graph.size :: (s.graph.size + 1) :: (s.graph.size + 2) :: open_)
      (threeBlocks fn s) := by
  have h₃ := h.fresh.fresh.fresh
  simp only [Cfg.size_fresh] at h₃
  refine h₃.congr fun b => ?_
  simp only [List.mem_cons]
  tauto

theorem Frame.twoBlocks (h : Frame n fn open_ s) :
    Frame n fn (s.graph.size :: (s.graph.size + 1) :: open_) (twoBlocks fn s) := by
  have h₂ := h.fresh.fresh
  simp only [Cfg.size_fresh] at h₂
  refine h₂.congr fun b => ?_
  simp only [List.mem_cons]
  tauto

/-- A block made later is none of the waiting ones. -/
theorem Frame.not_mem (h : Frame n fn open_ s) {b : Nat} (hb : s.graph.size ≤ b) : b ∉ open_ :=
  fun hm => Nat.not_lt.2 hb (h.lt_size hm)

section Starts

variable {k : Nat} (c : Value)

theorem Frame.thenStart (h : Frame n fn (k :: (k + 1) :: (k + 2) :: open_) s) (hk : k ∉ open_) :
    Frame n fn ((k + 1) :: (k + 2) :: open_) (thenStart k c s) :=
  h.branchTo (by simp [hk]) rfl (by simp [Instr.flow, Flow.targets])

theorem Frame.elseStart (h : Frame n fn ((k + 1) :: (k + 2) :: open_) s) (hk : k + 1 ∉ open_) :
    Frame n fn ((k + 2) :: open_) (elseStart k s) :=
  h.branchTo (by simp [hk]) rfl (by simp [Instr.flow, Flow.targets])

theorem Frame.joinStart (h : Frame n fn ((k + 2) :: open_) s) (hk : k + 2 ∉ open_) :
    Frame n fn open_ (joinStart k s) :=
  h.branchTo hk rfl (by simp [Instr.flow, Flow.targets])

theorem Frame.guardStart (h : Frame n fn open_ s) :
    Frame n fn ((s.graph.size + 1) :: open_) (guardStart fn c s) :=
  h.twoBlocks.branchTo (by simp [h.not_mem (le_refl s.graph.size)]) rfl
    (by simp [Instr.flow, Flow.targets])

theorem Frame.testStart (h : Frame n fn open_ s) :
    Frame n fn ((s.graph.size + 1) :: (s.graph.size + 2) :: open_) (testStart fn s) :=
  h.threeBlocks.branchTo (by simp [h.not_mem (le_refl s.graph.size)]) rfl
    (by simp [Instr.flow, Flow.targets])

theorem Frame.loopStart (h : Frame n fn ((k + 1) :: (k + 2) :: open_) s) (hk : k + 1 ∉ open_) :
    Frame n fn ((k + 2) :: open_) ((loopStart k c s).enterLoop k (k + 2)) :=
  (h.branchTo (by simp [hk]) rfl (by simp [Instr.flow, Flow.targets])).of_eq rfl rfl rfl

end Starts

theorem toCondition_steps {v : Rtv} (h : Frame n fn open_ s)
    (hok : toCondition v s = .ok (r, s')) : Steps n fn open_ false s s' := by
  obtain ⟨is, rfl, ops, -⟩ := toCondition_ok hok
  exact .emitAll h ops

/-- Every evaluation of `e` inside a frame is a walk. -/
def Stepped (run : Nat → Bool) (e : Expr) : Prop :=
  ∀ {n fn open_ s r s'}, Frame n fn open_ s → eval run e s = .ok (r, s') →
    Steps n fn open_ (branches e) s s'

/-! ## `if` -/

/-- An evaluation of `if`, with the results and the states on the way. -/
structure IfRun (run : Nat → Bool) (fn : Nat) (c t e : Expr) (s : St) where
  cv : Rtv
  cb : Rtv
  rt : Rtv
  re : Rtv
  tested : St
  ready : St
  afterThen : St
  afterElse : St
  cond : eval run c (threeBlocks fn s) = .ok (cv, tested)
  bit : toCondition cv tested = .ok (cb, ready)
  yes : eval run t (thenStart s.graph.size cb.v ready) = .ok (rt, afterThen)
  no : eval run e (elseStart s.graph.size afterThen) = .ok (re, afterElse)

theorem eval_if_run (hfn : s.curllvmfn = some fn) (h : eval run (.if_ c t e) s = .ok (r, s')) :
    ∃ w : IfRun run fn c t e s, ifEnd s.graph.size w.rt w.re w.afterElse = .ok (r, s') := by
  rw [eval_if hfn] at h
  obtain ⟨⟨cv, s₁⟩, h₁, h⟩ := bind_ok.1 h
  obtain ⟨⟨cb, s₂⟩, h₂, h⟩ := bind_ok.1 h
  obtain ⟨⟨rt, s₄⟩, h₃, h⟩ := bind_ok.1 h
  obtain ⟨⟨re, s₆⟩, h₄, h⟩ := bind_ok.1 h
  exact ⟨⟨cv, cb, rt, re, s₁, s₂, s₄, s₆, h₁, h₂, h₃, h₄⟩, h⟩

namespace IfRun

variable (w : IfRun run fn c t e s)

abbrev thenStart : St := Codegen.thenStart s.graph.size w.cb.v w.ready

abbrev elseStart : St := Codegen.elseStart s.graph.size w.afterThen

variable {w}

theorem cond_steps (h : Frame n fn open_ s) (hc : Stepped run c) :
    Steps n fn (s.graph.size :: (s.graph.size + 1) :: (s.graph.size + 2) :: open_) (branches c)
      (threeBlocks fn s) w.ready := by
  have hcond := hc h.threeBlocks w.cond
  rw [← Bool.or_false (branches c)]
  exact hcond.trans (toCondition_steps hcond.frame w.bit)

theorem then_frame (h : Frame n fn open_ s) (hc : Stepped run c) :
    Frame n fn ((s.graph.size + 1) :: (s.graph.size + 2) :: open_) w.thenStart :=
  (w.cond_steps h hc).frame.thenStart w.cb.v (h.not_mem le_rfl)

theorem then_steps (h : Frame n fn open_ s) (hc : Stepped run c) (ht : Stepped run t) :
    Steps n fn ((s.graph.size + 1) :: (s.graph.size + 2) :: open_) (branches t) w.thenStart
      w.afterThen :=
  ht (w.then_frame h hc) w.yes

theorem else_frame (h : Frame n fn open_ s) (hc : Stepped run c) (ht : Stepped run t) :
    Frame n fn ((s.graph.size + 2) :: open_) w.elseStart :=
  (w.then_steps h hc ht).frame.elseStart (h.not_mem (Nat.le_succ _))

theorem else_steps (h : Frame n fn open_ s) (hc : Stepped run c) (ht : Stepped run t)
    (he : Stepped run e) :
    Steps n fn ((s.graph.size + 2) :: open_) (branches e) w.elseStart w.afterElse :=
  he (w.else_frame h hc ht) w.no

theorem join (h : Frame n fn open_ s) (hc : Stepped run c) (ht : Stepped run t)
    (he : Stepped run e)
    (hlast : ifEnd s.graph.size w.rt w.re w.afterElse = .ok (r, s')) :
    ∃ (dest : Rtt) (κ : Rtv) (τ : Shape) (s₇ : St), unwrapType w.rt = .ok dest ∧ dest.l ≠ .null ∧ w.re.shape.read = some τ ∧
      τ.convert dest 0 = some κ.shape ∧ r.shape = ⟨dest.l, w.rt.t, w.rt.lval⟩ ∧
      Steps n fn ((s.graph.size + 2) :: open_) false w.afterElse s₇ ∧
      s₇.graph.size = w.afterElse.graph.size ∧
      s' = (joinStart s.graph.size s₇).emit
        (.phi dest.l [(w.rt.v, s.graph.size), (κ.v, s.graph.size + 1)]) := by
  have helse := w.else_steps h hc ht he
  obtain ⟨dest, κ, s₇, hd, hκ, hl, hr, hs'⟩ :=
    ifEnd_ok hlast (helse.frame.lt_size List.mem_cons_self)
  obtain ⟨is, τ, rfl, ops, hτ, hconv⟩ := convertType_ok hκ
  exact ⟨dest, κ, τ, _, hd, hl, hτ, hconv, hr, .emitAll helse.frame ops,
    Cfg.size_append _ _ _, hs'⟩

theorem join_code {k : Nat} {s₇ : St} (h₇ : Frame n fn ((k + 2) :: open_) s₇) :
    (joinStart k s₇).graph.code (k + 2) = [] :=
  (Cfg.code_append_ne _ (ne_of_mem_of_not_mem List.mem_cons_self h₇.away) _).trans
    (h₇.empty _ List.mem_cons_self)

end IfRun

/-- The blocks of an `if`. -/
def ifBlocks (k : Nat) : List Nat := [k, k + 1, k + 2]

theorem not_mem_ifBlocks {k b : Nat} (hb : b < k) : b ∉ ifBlocks k := by
  simp only [ifBlocks, List.mem_cons, List.not_mem_nil, or_false]
  omega

theorem Keeps.of_new {x y : List Nat} {g g' : Cfg Nat Instr} (h : Keeps n x y g g')
    (hx : ∀ b < g.size, b ∉ x) (hy : ∀ b < g.size, b ∉ y) : Keeps n [] [] g g' :=
  h.mono (fun b hm hb => absurd hm (hx b hb)) fun b hm hb => absurd hm (hy b hb)

namespace IfRun

variable {w : IfRun run fn c t e s} {y : List Nat}

theorem then_keeps (h : Frame n fn open_ s) (hc : Stepped run c) :
    Keeps n (ifBlocks s.graph.size) y w.ready.graph w.thenStart.graph :=
  .jumpTo (w.cond_steps h hc).frame rfl (by simp [Instr.flow, Flow.targets, ifBlocks]) _

theorem else_keeps (h : Frame n fn open_ s) (hc : Stepped run c) (ht : Stepped run t) :
    Keeps n (ifBlocks s.graph.size) y w.afterThen.graph w.elseStart.graph :=
  .jumpTo (w.then_steps h hc ht).frame rfl (by simp [Instr.flow, Flow.targets, ifBlocks]) _

theorem join_keeps {k : Nat} {s₇ : St} (h₇ : Frame n fn ((k + 2) :: open_) s₇) :
    Keeps n (ifBlocks k) y s₇.graph (joinStart k s₇).graph :=
  .jumpTo h₇ rfl (by simp [Instr.flow, Flow.targets, ifBlocks]) _

theorem moves (h : Frame n fn open_ s) (hc : Stepped run c) (ht : Stepped run t)
    (he : Stepped run e) {s₇ : St}
    (h₇ : Steps n fn ((s.graph.size + 2) :: open_) false w.afterElse s₇) :
    Moves s (joinStart s.graph.size s₇) := by
  have hcond := w.cond_steps h hc
  have hthen := w.then_steps h hc ht
  have m₁ := ((threeBlocks_moves fn h.building).trans hcond.moves).jumpTo
    (.condBr w.cb.v s.graph.size (s.graph.size + 1)) le_rfl
    (hcond.frame.lt_size List.mem_cons_self)
  have m₂ := (m₁.trans hthen.moves).jumpTo (.br (s.graph.size + 2)) (Nat.le_succ _)
    (hthen.frame.lt_size List.mem_cons_self)
  exact ((m₂.trans (w.else_steps h hc ht he).moves).trans h₇.moves).jumpTo
    (.br (s.graph.size + 2)) (Nat.le_add_right _ 2) (h₇.frame.lt_size List.mem_cons_self)

theorem keeps (h : Frame n fn open_ s) (hc : Stepped run c) (ht : Stepped run t)
    (he : Stepped run e) {s₇ : St}
    (h₇ : Steps n fn ((s.graph.size + 2) :: open_) false w.afterElse s₇) :
    Keeps n (ifBlocks s.graph.size) y s.graph (joinStart s.graph.size s₇).graph := by
  have k₁ := (threeBlocks_keeps.trans (w.cond_steps h hc).keeps.of_nil).trans
    (w.then_keeps (y := y) h hc)
  have k₂ := (k₁.trans (w.then_steps h hc ht).keeps.of_nil).trans (w.else_keeps h hc ht)
  exact ((k₂.trans (w.else_steps h hc ht he).keeps.of_nil).trans h₇.keeps.of_nil).trans
    (join_keeps h₇.frame)

end IfRun

theorem stepped_if (hc : Stepped run c) (ht : Stepped run t) (he : Stepped run e) :
    Stepped run (.if_ c t e) := by
  intro n fn open_ s r s' h hok
  obtain ⟨w, hlast⟩ := eval_if_run h.curllvmfn hok
  obtain ⟨dest, κ, τ, s₇, -, -, -, -, -, h₇, -, rfl⟩ := w.join h hc ht he hlast
  have hjoin := h₇.frame.joinStart (h.not_mem (Nat.le_add_right _ 2))
  have hphi : Keeps n (ifBlocks s.graph.size) [s.graph.size + 2] _ _ :=
    Keeps.emitPhi hjoin dest.l [(w.rt.v, s.graph.size), (κ.v, s.graph.size + 1)]
  exact
    { moves := (IfRun.moves h hc ht he h₇).trans (.emitAll hjoin.building _)
      frame := hjoin.emitAll (by simp [Unfinished, Instr.flow, Flow.ends])
      keeps := ((IfRun.keeps h hc ht he h₇).trans hphi).of_new
        (fun b hb => not_mem_ifBlocks hb)
        (fun b hb => List.not_mem_cons_of_ne_of_not_mem (by omega) List.not_mem_nil)
      block := Nat.le_add_right _ 2 }

/-! ## `cond` -/

/-- An evaluation of `cond`, with the results and the states on the way. -/
structure CondRun (run : Nat → Bool) (fn : Nat) (c body : Expr) (s : St) where
  cv : Rtv
  cb : Rtv
  rb : Rtv
  tested : St
  ready : St
  afterBody : St
  cond : eval run c s = .ok (cv, tested)
  bit : toCondition cv tested = .ok (cb, ready)
  yes : eval run body (guardStart fn cb.v ready) = .ok (rb, afterBody)

def CondRun.last (w : CondRun run fn c body s) : St :=
  (w.afterBody.emit (.br (w.ready.graph.size + 1))).position (w.ready.graph.size + 1)

theorem toCondition_curllvmfn {v : Rtv} (h : toCondition v s = .ok (r, s')) :
    s'.curllvmfn = s.curllvmfn := by
  obtain ⟨is, rfl, -⟩ := toCondition_ok h
  rfl

theorem eval_cond_run (hfn : ∀ cv s₁, eval run c s = .ok (cv, s₁) → s₁.curllvmfn = some fn)
    (h : eval run (.cond c body) s = .ok (r, s')) :
    ∃ w : CondRun run fn c body s, r = w.cb ∧ s' = w.last := by
  rw [eval_cond fun cv s₁ cb s₂ h₁ h₂ => (toCondition_curllvmfn h₂).trans (hfn cv s₁ h₁)] at h
  obtain ⟨⟨cv, s₁⟩, h₁, h⟩ := bind_ok.1 h
  obtain ⟨⟨cb, s₂⟩, h₂, h⟩ := bind_ok.1 h
  obtain ⟨⟨rb, s₄⟩, h₃, h⟩ := bind_ok.1 h
  cases h
  exact ⟨⟨cv, cb, rb, s₁, s₂, s₄, h₁, h₂, h₃⟩, rfl, rfl⟩

namespace CondRun

variable (w : CondRun run fn c body s)

abbrev bodyStart : St := guardStart fn w.cb.v w.ready

variable {w} {y : List Nat}

theorem cond_steps (h : Frame n fn open_ s) (hc : Stepped run c) :
    Steps n fn open_ (branches c) s w.ready := by
  have hcond := hc h w.cond
  rw [← Bool.or_false (branches c)]
  exact hcond.trans (toCondition_steps hcond.frame w.bit)

theorem body_frame (h : Frame n fn open_ s) (hc : Stepped run c) :
    Frame n fn ((w.ready.graph.size + 1) :: open_) w.bodyStart :=
  (w.cond_steps h hc).frame.guardStart w.cb.v

theorem body_keeps (h : Frame n fn open_ s) (hc : Stepped run c) :
    Keeps n [w.ready.graph.size, w.ready.graph.size + 1] y w.ready.graph w.bodyStart.graph :=
  twoBlocks_keeps.trans <| .jumpTo (w.cond_steps h hc).frame.twoBlocks rfl
    (by simp [Instr.flow, Flow.targets]) _

theorem body_steps (h : Frame n fn open_ s) (hc : Stepped run c) (hb : Stepped run body) :
    Steps n fn ((w.ready.graph.size + 1) :: open_) (branches body) w.bodyStart w.afterBody :=
  hb (w.body_frame h hc) w.yes

theorem last_keeps (h : Frame n fn open_ s) (hc : Stepped run c) (hb : Stepped run body) :
    Keeps n [w.ready.graph.size, w.ready.graph.size + 1] y w.afterBody.graph w.last.graph :=
  .jumpTo (w.body_steps h hc hb).frame rfl (by simp [Instr.flow, Flow.targets]) _

end CondRun

theorem stepped_cond (hc : Stepped run c) (hb : Stepped run body) :
    Stepped run (.cond c body) := by
  intro n fn open_ s r s' h hok
  obtain ⟨w, rfl, rfl⟩ := eval_cond_run (fun cv s₁ h₁ => (hc h h₁).frame.curllvmfn) hok
  have hcond := w.cond_steps h hc
  have hbody := w.body_steps h hc hb
  have hk := ((hcond.keeps.of_nil.trans (w.body_keeps h hc)).trans hbody.keeps.of_nil).trans
    (w.last_keeps (y := []) h hc hb)
  have hsize := hcond.moves.grows.size_le
  have m₁ := (hcond.moves.trans (twoBlocks_moves fn hcond.moves.building)).jumpTo
    (.condBr w.cb.v w.ready.graph.size (w.ready.graph.size + 1)) hsize
    (hcond.frame.twoBlocks.lt_size List.mem_cons_self)
  have m₂ := (m₁.trans hbody.moves).jumpTo (.br (w.ready.graph.size + 1))
    (hsize.trans (Nat.le_succ _)) (hbody.frame.lt_size List.mem_cons_self)
  have hframe : Frame n fn open_ w.last :=
    hbody.frame.branchTo (hcond.frame.not_mem (Nat.le_succ _)) rfl
      (by simp [Instr.flow, Flow.targets])
  exact
    { moves := m₂
      frame := hframe
      keeps := hk.of_new (fun b hb => by simp; omega) (fun b _ => List.not_mem_nil)
      block := hsize.trans (Nat.le_succ _) }

/-! ## `while` -/

/-- An evaluation of `while`, with the results and the states on the way. -/
structure WhileRun (run : Nat → Bool) (fn : Nat) (c body : Expr) (s : St) where
  cv : Rtv
  cb : Rtv
  rb : Rtv
  tested : St
  ready : St
  afterBody : St
  cond : eval run c (testStart fn s) = .ok (cv, tested)
  bit : toCondition cv tested = .ok (cb, ready)
  yes : eval run body
    ((loopStart s.graph.size cb.v ready).enterLoop s.graph.size (s.graph.size + 2)) =
      .ok (rb, afterBody)

namespace WhileRun

variable (w : WhileRun run fn c body s)

/-- The start of the body, before the loop context is entered. -/
abbrev bodyStart : St := loopStart s.graph.size w.cb.v w.ready

def last : St := loopEnd s.graph.size (w.bodyStart.restoreLoop w.afterBody)

variable {w} {y : List Nat}

theorem cond_steps (h : Frame n fn open_ s) (hc : Stepped run c) :
    Steps n fn ((s.graph.size + 1) :: (s.graph.size + 2) :: open_) (branches c)
      (testStart fn s) w.ready := by
  have hcond := hc h.testStart w.cond
  rw [← Bool.or_false (branches c)]
  exact hcond.trans (toCondition_steps hcond.frame w.bit)

theorem body_frame (h : Frame n fn open_ s) (hc : Stepped run c) :
    Frame n fn ((s.graph.size + 2) :: open_)
      (w.bodyStart.enterLoop s.graph.size (s.graph.size + 2)) :=
  (w.cond_steps h hc).frame.loopStart w.cb.v (h.not_mem (Nat.le_succ _))

theorem body_steps (h : Frame n fn open_ s) (hc : Stepped run c) (hb : Stepped run body) :
    Steps n fn ((s.graph.size + 2) :: open_) (branches body)
      (w.bodyStart.enterLoop s.graph.size (s.graph.size + 2)) w.afterBody :=
  hb (w.body_frame h hc) w.yes

theorem restored_frame (h : Frame n fn open_ s) (hc : Stepped run c) (hb : Stepped run body) :
    Frame n fn ((s.graph.size + 2) :: open_) (w.bodyStart.restoreLoop w.afterBody) :=
  (w.body_steps h hc hb).frame.of_eq rfl rfl rfl

theorem start_keeps (h : Frame n fn open_ s) :
    Keeps n (ifBlocks s.graph.size) y s.graph (testStart fn s).graph :=
  threeBlocks_keeps.trans <| .jumpTo h.threeBlocks rfl
    (by simp [Instr.flow, Flow.targets, ifBlocks]) _

theorem body_keeps (h : Frame n fn open_ s) (hc : Stepped run c) :
    Keeps n (ifBlocks s.graph.size) y w.ready.graph w.bodyStart.graph :=
  .jumpTo (w.cond_steps h hc).frame rfl (by simp [Instr.flow, Flow.targets, ifBlocks]) _

theorem last_keeps (h : Frame n fn open_ s) (hc : Stepped run c) (hb : Stepped run body) :
    Keeps n (ifBlocks s.graph.size) y w.afterBody.graph w.last.graph :=
  Keeps.jumpTo (w.restored_frame h hc hb) rfl (by simp [Instr.flow, Flow.targets, ifBlocks])
    (s.graph.size + 2)

/-- The loop context after the loop is that before it. -/
theorem restored_moves (h : Frame n fn open_ s) (hc : Stepped run c) (hb : Stepped run body) :
    Moves w.bodyStart (w.bodyStart.restoreLoop w.afterBody) where
  building := (w.restored_frame h hc hb).building
  grows := (w.body_steps h hc hb).moves.grows
  rest :=
    calc (w.bodyStart.restoreLoop w.afterBody).rest
        = w.bodyStart.restoreLoop w.afterBody.rest := rfl
      _ = w.bodyStart.rest := by
        rw [(w.body_steps h hc hb).moves.rest]
        rfl

end WhileRun

theorem eval_while_run (hfn : s.curllvmfn = some fn)
    (h : eval run (.while_ c body) s = .ok (r, s')) :
    ∃ w : WhileRun run fn c body s, r = nullRtv ∧ s' = w.last := by
  rw [eval_while hfn] at h
  obtain ⟨⟨cv, s₁⟩, h₁, h⟩ := bind_ok.1 h
  obtain ⟨⟨cb, s₂⟩, h₂, h⟩ := bind_ok.1 h
  obtain ⟨⟨rb, s₄⟩, h₃, h⟩ := bind_ok.1 h
  cases h
  exact ⟨⟨cv, cb, rb, s₁, s₂, s₄, h₁, h₂, h₃⟩, rfl, rfl⟩

theorem stepped_while (hc : Stepped run c) (hb : Stepped run body) :
    Stepped run (.while_ c body) := by
  intro n fn open_ s r s' h hok
  obtain ⟨w, rfl, rfl⟩ := eval_while_run h.curllvmfn hok
  have hcond := w.cond_steps h hc
  have hbody := w.body_steps h hc hb
  have hrest := w.restored_frame h hc hb
  have hsize := hcond.moves.grows.size_le
  have m₁ := ((threeBlocks_moves fn h.building).jumpTo (.br s.graph.size) le_rfl
    (h.threeBlocks.lt_size List.mem_cons_self)).trans hcond.moves
  have m₂ := (m₁.jumpTo (.condBr w.cb.v (s.graph.size + 1) (s.graph.size + 2)) (Nat.le_succ _)
    (hcond.frame.lt_size List.mem_cons_self)).trans (w.restored_moves h hc hb)
  have m₃ := m₂.jumpTo (.br s.graph.size) (Nat.le_add_right _ 2)
    (hrest.lt_size List.mem_cons_self)
  have hframe : Frame n fn open_ w.last := by
    refine hrest.jumpTo (h.not_mem (Nat.le_add_right _ 2)) rfl fun b hb' => ?_
    rw [List.mem_singleton.1 hb']
    exact ⟨h.le_size, (Nat.le_add_right _ 2).trans_lt (hrest.lt_size List.mem_cons_self)⟩
  have hk := (((WhileRun.start_keeps h).trans hcond.keeps.of_nil).trans
    (w.body_keeps h hc)).trans (hbody.keeps.of_nil.trans (w.last_keeps (y := []) h hc hb))
  exact
    { moves := m₃
      frame := hframe
      keeps := hk.of_new (fun b hb => not_mem_ifBlocks hb) (fun b _ => List.not_mem_nil)
      block := Nat.le_add_right _ 2 }

/-! ## All expressions -/

theorem steps_evalIdent {x : String} (h : Frame n fn open_ s) (hok : evalIdent x s = .ok (r, s')) :
    Steps n fn open_ false s s' := by
  unfold evalIdent at hok
  split at hok
  · cases hok
    exact .refl h
  · split at hok
    · cases hok
      exact .refl h
    · cases hok

/-- The subexpressions are evaluated one after the other. -/
theorem steps_evalArgs {args : List Expr} (hargs : ∀ e ∈ args, Stepped run e) {vs : List Rtv}
    (h : Frame n fn open_ s) (hok : evalArgs run args s = .ok (vs, s')) :
    Steps n fn open_ (branchesAny args) s s' := by
  induction args generalizing s vs with
  | nil =>
    cases hok
    exact .refl h
  | cons e es ih =>
    rw [evalArgs] at hok
    obtain ⟨⟨v, s₁⟩, h₁, hok⟩ := bind_ok.1 hok
    obtain ⟨⟨vs', s₂⟩, h₂, hok⟩ := bind_ok.1 hok
    cases hok
    have hstep := hargs e List.mem_cons_self h h₁
    exact hstep.trans (ih (fun e' he' => hargs e' (List.mem_cons_of_mem _ he')) hstep.frame h₂)

theorem steps_evalProgn (hes : ∀ e ∈ es, Stepped run e) (h : Frame n fn open_ s)
    (hok : evalProgn run es s = .ok (r, s')) : Steps n fn open_ (branchesAny es) s s' := by
  induction es generalizing s r with
  | nil =>
    cases hok
    exact .refl h
  | cons e es ih =>
    obtain ⟨r₁, s₁, r₂, h₁, h₂⟩ := evalProgn_cons_ok hok
    have hstep := hes e List.mem_cons_self h h₁
    exact hstep.trans (ih (fun e' he' => hes e' (List.mem_cons_of_mem _ he')) hstep.frame h₂)

/-- Looking up or adding a function emits no code. -/
theorem requireFunction_eq (f : Fun) (s : St) :
    ∃ fns, (s.requireFunction f).2 = { s with fns := fns } := by
  by_cases hv : s.getNamedFunction f.name = .null
  · exact ⟨_, by simp only [St.requireFunction, if_pos hv, St.addFunction]; rfl⟩
  · exact ⟨s.fns, by simp only [St.requireFunction, if_neg hv]⟩

theorem stepped_call {f : String} {args : List Expr} (hargs : ∀ e ∈ args, Stepped run e) :
    Stepped run (.call f args) := by
  intro n fn open_ s r s' h hok
  rw [eval] at hok
  split at hok
  · cases hok
  · next f hf =>
    obtain ⟨fns, hreq⟩ := requireFunction_eq f s
    rcases hq : s.requireFunction f with ⟨fv, s₀⟩
    rw [hq] at hok hreq
    subst hreq
    obtain ⟨⟨vs, s₁⟩, h₁, hok⟩ := bind_ok.1 hok
    obtain ⟨is, rfl, ops, -⟩ := lowerFuncall_ok hok
    have h₀ : Frame n fn open_ { s with fns := fns } := h.of_eq rfl rfl rfl
    have hsteps := steps_evalArgs hargs h₀ h₁
    have hargs' : Steps n fn open_ (branchesAny args) s s₁ :=
      ⟨⟨hsteps.moves.building, hsteps.moves.grows, hsteps.moves.rest⟩, hsteps.frame, hsteps.keeps,
        hsteps.block⟩
    have := hargs'.trans (.emitAll hsteps.frame ops)
    rwa [Bool.or_false] at this

theorem stepped_scope (hes : ∀ e ∈ es, Stepped run e) : Stepped run (.scope es) := by
  intro n fn open_ s r s' h hok
  rw [eval] at hok
  split at hok
  · exact steps_evalProgn hes h hok
  · next scopes hscopes =>
    obtain ⟨⟨r₁, s₁⟩, h₁, hok⟩ := bind_ok.1 hok
    cases hok
    have h₀ : Frame n fn open_ { s with curfn := some ([] :: scopes) } := h.of_eq rfl rfl rfl
    have hsteps := steps_evalProgn hes h₀ h₁
    have hrest : s₁.popScope.rest = s.rest := by
      calc s₁.popScope.rest = s₁.rest.popScope := rfl
        _ = s.rest := by
          rw [hsteps.moves.rest]
          simp [St.popScope, St.rest, hscopes]
    exact ⟨⟨⟨hsteps.moves.building.bldr, hsteps.moves.building.lt, hsteps.moves.building.fn⟩,
      hsteps.moves.grows, hrest⟩, hsteps.frame.of_eq rfl rfl rfl, hsteps.keeps, hsteps.block⟩

/-- Evaluating an expression keeps the frame and leaves the old blocks as they
are. It ends in a new block if and only if it contains a control structure. -/
theorem Valued.steps {e : Expr} (he : Valued e) : Stepped run e := by
  induction he with
  | int i | float tok | string str | char c =>
    intro n fn open_ s r s' h hok
    cases hok
    exact .refl h
  | ident x => exact fun h hok => steps_evalIdent h hok
  | call f _ ih => exact stepped_call ih
  | progn _ ih => exact fun h hok => steps_evalProgn ih h hok
  | scope _ ih => exact stepped_scope ih
  | cond _ _ hc hb => exact stepped_cond hc hb
  | if_ _ _ _ hc ht he => exact stepped_if hc ht he
  | while_ _ _ hc hb => exact stepped_while hc hb

end Dolorem.Codegen
