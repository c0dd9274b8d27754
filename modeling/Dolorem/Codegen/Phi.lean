import Dolorem.Codegen.Parts

/-!
# The phis of `if`

`PhiOk`: a phi lists the predecessors of its block, each once and with a value
of its type. `check` decides whether the phis an expression is compiled to are
all of this kind (`Valued.judged`), and whether a function body is compiled to a
well-formed function (`funbody_wellFormed_iff`).
-/

namespace Dolorem.Codegen

open CodeGraph

variable {run : Nat → Bool} {s s' s₁ s₂ : St} {n fn m : Nat} {open_ : List Nat}
variable {r : Rtv} {c t e body : Expr} {es : List Expr} {Γ : Env}

/-! ## Phis -/

/-- The phi in block `b` of a function whose blocks are those from `n` on. -/
structure PhiOk (n : Nat) (g : Cfg Nat Instr) (b : Nat) (ty : LTy)
    (inc : List (Value × Nat)) : Prop where
  nodup : (inc.map Prod.snd).Nodup
  preds : ∀ a, a ∈ inc.map Prod.snd ↔ n ≤ a ∧ Edge Instr.flow g a b
  types : ∀ p ∈ inc, p.1.ty = ty

def Good (n : Nat) (g : Cfg Nat Instr) (b : Nat) : Prop :=
  ∀ ty inc, .phi ty inc ∈ g.code b → PhiOk n g b ty inc

/-- The phis in the blocks from `m` on are good. -/
def Sound (n m : Nat) (g : Cfg Nat Instr) : Prop := ∀ b, m ≤ b → Good n g b

def Bare (g : Cfg Nat Instr) (b : Nat) : Prop := ∀ ty inc, .phi ty inc ∉ g.code b

theorem Bare.good {g : Cfg Nat Instr} {b : Nat} (h : Bare g b) : Good n g b :=
  fun ty inc hi => absurd hi (h ty inc)

theorem bare_of_code_nil {g : Cfg Nat Instr} {b : Nat} (h : g.code b = []) : Bare g b := by
  intro ty inc hi
  rw [h] at hi
  cases hi

theorem sound_size (g : Cfg Nat Instr) : Sound n g.size g :=
  fun _ hb => (bare_of_code_nil (g.code_of_size_le hb)).good

theorem PhiOk.congr {g g' : Cfg Nat Instr} {b : Nat} {ty : LTy} {inc : List (Value × Nat)}
    (he : ∀ a, n ≤ a → (Edge Instr.flow g' a b ↔ Edge Instr.flow g a b))
    (h : PhiOk n g b ty inc) : PhiOk n g' b ty inc :=
  ⟨h.nodup, fun a => (h.preds a).trans (and_congr_right fun ha => (he a ha).symm), h.types⟩

namespace Keeps

variable {x y : List Nat} {g g' : Cfg Nat Instr} {b : Nat}

theorem bare (h : Keeps n x [] g g') (hb : b < g.size) (hbare : Bare g b) : Bare g' b :=
  fun ty inc hi => hbare ty inc ((h.phis b ty inc hb List.not_mem_nil).1 hi)

theorem good (h : Keeps n x y g g') (hb : b < g.size) (hx : b ∉ x) (hy : b ∉ y) :
    Good n g' b ↔ Good n g b := by
  refine forall₂_congr fun ty inc => ?_
  rw [h.phis b ty inc hb hy]
  exact imp_congr_right fun _ =>
    ⟨PhiOk.congr fun a ha => (h.edges a b ha hb hx).symm,
      PhiOk.congr fun a ha => h.edges a b ha hb hx⟩

/-- The phis of `g'` are those of `g` and those in new blocks. -/
theorem sound (h : Keeps n x [] g g') (hm : m ≤ g.size) (hx : ∀ b ∈ x, m ≤ b → Bare g b) :
    Sound n m g' ↔ Sound n m g ∧ Sound n g.size g' := by
  have old : ∀ b, m ≤ b → b < g.size → (Good n g' b ↔ Good n g b) := by
    intro b hmb hb
    by_cases hbx : b ∈ x
    · have hbare := hx b hbx hmb
      exact iff_of_true (h.bare hb hbare).good hbare.good
    · exact h.good hb hbx List.not_mem_nil
  constructor
  · intro hs
    refine ⟨fun b hb => ?_, fun b hb => hs b (hm.trans hb)⟩
    rcases Nat.lt_or_ge b g.size with hlt | hge
    · exact (old b hb hlt).1 (hs b hb)
    · exact sound_size g b hge
  · rintro ⟨hs, hn⟩ b hb
    rcases Nat.lt_or_ge b g.size with hlt | hge
    · exact (old b hb hlt).2 (hs b hb)
    · exact hn b hge

/-- There are no new blocks. -/
theorem sound_same (h : Keeps n x [] g g') (hsize : g'.size = g.size) (hm : m ≤ g.size)
    (hx : ∀ b ∈ x, m ≤ b → Bare g b) : Sound n m g' ↔ Sound n m g := by
  rw [h.sound hm hx, ← hsize]
  exact and_iff_left (sound_size g')

end Keeps

theorem Steps.sound {moved : Bool} (h : Steps n fn open_ moved s s') (hm : m ≤ s.graph.size) :
    Sound n m s'.graph ↔ Sound n m s.graph ∧ Sound n s.graph.size s'.graph :=
  h.keeps.sound hm fun _ hb => absurd hb List.not_mem_nil

theorem Frame.sound_emitAll (h : Frame n fn open_ s) {is : List Instr} (ops : Ops is)
    (hm : m ≤ s.graph.size) : Sound n m (s.emitAll is).graph ↔ Sound n m s.graph :=
  (Steps.emitAll h ops).keeps.sound_same (by simp [St.emitAll]) hm
    fun _ hb => absurd hb List.not_mem_nil

/-- A jump to blocks without phis. -/
theorem Frame.sound_jumpTo (h : Frame n fn open_ s) {i : Instr} (ends : i.flow.ends = true)
    (bare : ∀ t ∈ i.flow.targets, Bare s.graph t) (b : Nat) (hm : m ≤ s.graph.size) :
    Sound n m ((s.emit i).position b).graph ↔ Sound n m s.graph :=
  (Keeps.jumpTo h ends (fun _ ht => ht) b).sound_same
    (by simp [St.position, St.emit, St.emitAll]) hm fun t ht _ => bare t ht

theorem Frame.edge_jumpTo (h : Frame n fn open_ s) (i : Instr) (b : Nat) {x y : Nat} :
    Edge Instr.flow ((s.emit i).position b).graph x y ↔
      Edge Instr.flow s.graph x y ∨ x = s.block ∧ y ∈ i.flow.targets := by
  refine (edge_append Instr.flow h.building.lt [i]).trans (or_congr_right ?_)
  simp only [List.mem_singleton, exists_eq_left]

/-- A waiting block has no phi. -/
theorem Frame.bare (h : Frame n fn open_ s) {b : Nat} (hb : b ∈ open_) : Bare s.graph b :=
  bare_of_code_nil (h.empty b hb)

/-! ## What is declared -/

/-- `Γ` describes the scopes, globals and functions of `s`. -/
structure Agrees (Γ : Env) (s : St) : Prop where
  vars : ∀ x, ((s.curfn.bind (lookupInFunScope · x)).map fun v => (⟨v.v.ty, v.t, true⟩ : Shape)) =
    (Γ.vars.lookup x).map fun t => ⟨.ptr t.l, t.t, true⟩
  globals : s.globals = Γ.globals
  funs : s.funs = Γ.funs

theorem Agrees.of_eq (h : Agrees Γ s) (hc : s'.curfn = s.curfn) (hg : s'.globals = s.globals)
    (hf : s'.funs = s.funs) : Agrees Γ s' :=
  ⟨fun x => by rw [hc]; exact h.vars x, hg.trans h.globals, hf.trans h.funs⟩

theorem Agrees.moves (h : Agrees Γ s) (m : Moves s s') : Agrees Γ s' :=
  h.of_eq m.curfn (congrArg St.globals m.rest :) (congrArg St.funs m.rest :)

/-- A new scope is empty. -/
theorem Agrees.scope {scopes : List (List FunVar)} (h : Agrees Γ s)
    (hscopes : s.curfn = some scopes) : Agrees Γ { s with curfn := some ([] :: scopes) } := by
  refine ⟨fun x => ?_, h.globals, h.funs⟩
  rw [← h.vars x, hscopes]
  rfl

theorem evalIdent_spec (h : Agrees Γ s) (x : String) :
    match Γ.ident x with
    | some σ => ∃ r, evalIdent x s = .ok (r, s) ∧ r.shape = σ
    | none => ∃ msg, evalIdent x s = .error (.error msg) := by
  have hv := h.vars x
  unfold evalIdent Env.ident
  rw [h.globals]
  cases hx : s.curfn.bind (lookupInFunScope · x) with
  | some v =>
    rw [hx, Option.map_some] at hv
    obtain ⟨t, ht, hσ⟩ := Option.map_eq_some_iff.1 hv.symm
    simp only [ht, Option.some_or, Option.map_some, hσ]
    exact ⟨_, rfl, rfl⟩
  | none =>
    rw [hx, Option.map_none] at hv
    rw [Option.map_eq_none_iff.1 hv.symm, Option.none_or]
    cases Γ.globals.lookup x with
    | some t => exact ⟨_, rfl, rfl⟩
    | none => exact ⟨_, rfl⟩

/-- The check accepts `e` exactly when the phis of its code are good, and then
finds the shape of its value. -/
def Judged (run : Nat → Bool) (Γ : Env) (e : Expr) : Prop :=
  ∀ {n fn open_ s r s'}, Frame n fn open_ s → Agrees Γ s → eval run e s = .ok (r, s') →
    ∀ σ, check Γ e = some σ ↔ Sound n s.graph.size s'.graph ∧ r.shape = σ

/-! ## The phis of control structures -/

theorem sound_twoBlocks (hm : m ≤ s.graph.size) :
    Sound n m (twoBlocks fn s).graph ↔ Sound n m s.graph := by
  rw [(twoBlocks_keeps (x := [])).sound hm fun _ hb => absurd hb List.not_mem_nil]
  refine and_iff_left fun b hb => (bare_of_code_nil ?_).good
  simpa [twoBlocks] using s.graph.code_of_size_le hb

/-- The new blocks are empty. -/
theorem sound_threeBlocks : Sound n s.graph.size (threeBlocks fn s).graph := by
  refine fun b hb => (bare_of_code_nil ?_).good
  simpa [threeBlocks] using s.graph.code_of_size_le hb

theorem CondRun.sound_iff {w : CondRun run fn c body s} (h : Frame n fn open_ s)
    (hc : Stepped run c) (hb : Stepped run body) :
    Sound n s.graph.size w.last.graph ↔ Sound n s.graph.size w.tested.graph ∧
      Sound n w.bodyStart.graph.size w.afterBody.graph := by
  have htested := hc h w.cond
  have hready := w.cond_steps h hc
  have hbody := w.body_steps h hc hb
  have hsize := hready.moves.grows.size_le
  have htwo := hready.frame.twoBlocks
  have hstart : w.bodyStart.graph.size = w.ready.graph.size + 2 := guardStart_size _ _
  obtain ⟨is, hbit, ops, -⟩ := toCondition_ok w.bit
  calc Sound n s.graph.size w.last.graph
      ↔ Sound n s.graph.size w.afterBody.graph :=
        hbody.frame.sound_jumpTo rfl
          (fun t ht => by
            rw [List.mem_singleton.1 ht]
            exact hbody.frame.bare List.mem_cons_self) _
          (hsize.trans ((Nat.le_add_right _ 2).trans (hstart ▸ hbody.moves.grows.size_le)))
    _ ↔ Sound n s.graph.size w.bodyStart.graph ∧ Sound n w.bodyStart.graph.size w.afterBody.graph :=
        hbody.sound (hstart ▸ hsize.trans (Nat.le_add_right _ 2))
    _ ↔ Sound n s.graph.size w.tested.graph ∧
        Sound n w.bodyStart.graph.size w.afterBody.graph := by
      refine and_congr_left' ?_
      rw [bodyStart, guardStart, thenStart, htwo.sound_jumpTo rfl (fun t ht => htwo.bare ?_) _
        (by rw [twoBlocks_size]; exact hsize.trans (Nat.le_add_right _ 2)),
        sound_twoBlocks hsize, hbit, htested.frame.sound_emitAll ops htested.moves.grows.size_le]
      simp only [Instr.flow, Flow.targets, List.mem_cons, List.not_mem_nil, or_false] at ht ⊢
      tauto

theorem WhileRun.start_bare (h : Frame n fn open_ s) :
    Bare (testStart fn s).graph s.graph.size := by
  have hbare := h.threeBlocks.bare List.mem_cons_self
  refine Keeps.bare (n := n) (x := ifBlocks s.graph.size)
    (.jumpTo h.threeBlocks rfl (by simp [Instr.flow, Flow.targets, ifBlocks]) _) ?_ hbare
  rw [threeBlocks_size]
  exact Nat.lt_add_of_pos_right (Nat.succ_pos _)

/-- The condition's block has no phi when the loop branches back to it. -/
theorem WhileRun.back_bare {w : WhileRun run fn c body s} (h : Frame n fn open_ s)
    (hc : Stepped run c) (hb : Stepped run body) : Bare w.afterBody.graph s.graph.size := by
  have hk : Keeps n (ifBlocks s.graph.size) [] (testStart fn s).graph
      w.afterBody.graph :=
    ((w.cond_steps h hc).keeps.of_nil.trans (w.body_keeps h hc)).trans
      (w.body_steps h hc hb).keeps.of_nil
  refine hk.bare ?_ (WhileRun.start_bare h)
  rw [testStart_size]
  exact Nat.lt_add_of_pos_right (Nat.succ_pos _)

theorem WhileRun.sound_iff {w : WhileRun run fn c body s} (h : Frame n fn open_ s)
    (hc : Stepped run c) (hb : Stepped run body) :
    Sound n s.graph.size w.last.graph ↔
      Sound n (testStart fn s).graph.size w.tested.graph ∧
        Sound n w.bodyStart.graph.size w.afterBody.graph := by
  have hcond := h.testStart
  have htested := hc hcond w.cond
  have hready := w.cond_steps h hc
  have hbody := w.body_steps h hc hb
  have hstart : s.graph.size ≤ (testStart fn s).graph.size := by
    rw [testStart_size]
    exact Nat.le_add_right _ 3
  have hbodySize : s.graph.size ≤ w.bodyStart.graph.size :=
    (hstart.trans hready.moves.grows.size_le).trans (w.body_keeps (y := []) h hc).size_le
  obtain ⟨is, hbit, ops, -⟩ := toCondition_ok w.bit
  have hsound : Sound n s.graph.size (testStart fn s).graph := by
    refine (h.threeBlocks.sound_jumpTo rfl (fun t ht => h.threeBlocks.bare ?_) _
      (by rw [threeBlocks_size]; exact Nat.le_add_right _ 3)).2 sound_threeBlocks
    rw [List.mem_singleton.1 ht]
    exact List.mem_cons_self
  calc Sound n s.graph.size w.last.graph
      ↔ Sound n s.graph.size w.afterBody.graph :=
        (w.restored_frame h hc hb).sound_jumpTo rfl
          (fun t ht => by
            rw [List.mem_singleton.1 ht]
            exact w.back_bare h hc hb) _
          (hbodySize.trans hbody.moves.grows.size_le)
    _ ↔ Sound n s.graph.size w.bodyStart.graph ∧ Sound n w.bodyStart.graph.size w.afterBody.graph :=
        hbody.sound hbodySize
    _ ↔ Sound n (testStart fn s).graph.size w.tested.graph ∧
        Sound n w.bodyStart.graph.size w.afterBody.graph := by
      refine and_congr_left' ?_
      rw [bodyStart, loopStart, hready.frame.sound_jumpTo rfl (fun t ht => hready.frame.bare ?_) _
        (hstart.trans hready.moves.grows.size_le), hbit,
        htested.frame.sound_emitAll ops (hstart.trans htested.moves.grows.size_le),
        htested.sound hstart]
      · exact and_iff_right hsound
      · simp only [Instr.flow, Flow.targets, List.mem_cons, List.not_mem_nil, or_false] at ht ⊢
        tauto

section If

variable {w : IfRun run fn c t e s} {s₇ : St}

/-- The phis before the one `if` itself makes. -/
theorem IfRun.sound_iff (h : Frame n fn open_ s) (hc : Stepped run c) (ht : Stepped run t)
    (he : Stepped run e) (h₇ : Steps n fn ((s.graph.size + 2) :: open_) false w.afterElse s₇)
    (hsize : s₇.graph.size = w.afterElse.graph.size) :
    Sound n s.graph.size (joinStart s.graph.size s₇).graph ↔
      Sound n (threeBlocks fn s).graph.size w.tested.graph ∧
        Sound n w.thenStart.graph.size w.afterThen.graph ∧
          Sound n w.elseStart.graph.size w.afterElse.graph := by
  have htested := hc h.threeBlocks w.cond
  have hready := w.cond_steps h hc
  have hthen := w.then_steps h hc ht
  have helse := w.else_steps h hc ht he
  have l₀ : s.graph.size ≤ (threeBlocks fn s).graph.size := by
    rw [threeBlocks_size]
    exact Nat.le_add_right _ 3
  have l₁ := l₀.trans htested.moves.grows.size_le
  have l₂ := l₀.trans hready.moves.grows.size_le
  have l₃ := l₂.trans (w.then_keeps (y := []) h hc).size_le
  have l₄ := l₃.trans hthen.moves.grows.size_le
  have l₅ := l₄.trans (w.else_keeps (y := []) h hc ht).size_le
  have l₆ := l₅.trans helse.moves.grows.size_le
  obtain ⟨is, hbit, ops, -⟩ := toCondition_ok w.bit
  have hjoin : Sound n s.graph.size (joinStart s.graph.size s₇).graph ↔
      Sound n s.graph.size w.afterElse.graph := by
    rw [joinStart, h₇.frame.sound_jumpTo rfl (fun b hb => h₇.frame.bare ?_) _ (hsize ▸ l₆)]
    · exact h₇.keeps.sound_same hsize l₆ fun _ hb => absurd hb List.not_mem_nil
    · rw [List.mem_singleton.1 hb]
      exact List.mem_cons_self
  have helseStart : Sound n s.graph.size w.elseStart.graph ↔
      Sound n s.graph.size w.afterThen.graph := by
    refine hthen.frame.sound_jumpTo rfl (fun b hb => hthen.frame.bare ?_) _ l₄
    rw [List.mem_singleton.1 hb]
    exact List.mem_cons_of_mem _ List.mem_cons_self
  have hthenStart : Sound n s.graph.size w.thenStart.graph ↔
      Sound n s.graph.size w.ready.graph := by
    refine hready.frame.sound_jumpTo rfl (fun b hb => hready.frame.bare ?_) _ l₂
    simp only [Instr.flow, Flow.targets, List.mem_cons, List.not_mem_nil, or_false] at hb ⊢
    tauto
  rw [hjoin, helse.sound l₅, helseStart, hthen.sound l₃, hthenStart, hbit,
    htested.frame.sound_emitAll ops l₁, htested.sound l₀, and_iff_right sound_threeBlocks, and_assoc]

/-- The block of the phi has the ends of the two branches as its predecessors. -/
theorem IfRun.edge_join (h : Frame n fn open_ s) (hc : Stepped run c) (ht : Stepped run t)
    (he : Stepped run e) (h₇ : Steps n fn ((s.graph.size + 2) :: open_) false w.afterElse s₇)
    {a : Nat} (ha : n ≤ a) :
    Edge Instr.flow (joinStart s.graph.size s₇).graph a (s.graph.size + 2) ↔
      a = w.afterThen.block ∨ a = w.afterElse.block := by
  have hready := w.cond_steps h hc
  have hthen := w.then_steps h hc ht
  have helse := w.else_steps h hc ht he
  have hlt : s.graph.size + 2 < (threeBlocks fn s).graph.size := by
    rw [threeBlocks_size]
    exact Nat.lt_succ_self _
  have hltr := hlt.trans_le hready.moves.grows.size_le
  have hltt := hltr.trans_le (w.then_keeps (y := []) h hc).size_le
  have hlte := (hltt.trans_le hthen.moves.grows.size_le).trans_le
    (w.else_keeps (y := []) h hc ht).size_le
  have hlt₆ := hlte.trans_le helse.moves.grows.size_le
  have hready₀ : ¬ Edge Instr.flow w.ready.graph a (s.graph.size + 2) := by
    rw [hready.keeps.edges a _ ha hlt List.not_mem_nil, threeBlocks, edge_fresh, edge_fresh,
      edge_fresh]
    exact h.not_edge ha (Nat.le_add_right _ 2)
  have hthen₀ : ¬ Edge Instr.flow w.thenStart.graph a (s.graph.size + 2) := by
    rw [thenStart, Codegen.thenStart, hready.frame.edge_jumpTo]
    simp [hready₀, Instr.flow, Flow.targets]
  calc Edge Instr.flow (joinStart s.graph.size s₇).graph a (s.graph.size + 2)
      ↔ Edge Instr.flow s₇.graph a (s.graph.size + 2) ∨ a = s₇.block := by
        rw [joinStart, h₇.frame.edge_jumpTo]
        simp [Instr.flow, Flow.targets]
    _ ↔ Edge Instr.flow w.elseStart.graph a (s.graph.size + 2) ∨ a = w.afterElse.block := by
        rw [h₇.keeps.edges a _ ha hlt₆ List.not_mem_nil,
          helse.keeps.edges a _ ha hlte List.not_mem_nil, show s₇.block = _ from h₇.block]
    _ ↔ a = w.afterThen.block ∨ a = w.afterElse.block := by
        rw [elseStart, Codegen.elseStart, hthen.frame.edge_jumpTo, hthen.keeps.edges a _ ha hltt List.not_mem_nil]
        simp [hthen₀, Instr.flow, Flow.targets]

/-- The phi lists the blocks made for the branches: these are its predecessors
if and only if the branches end where they start. -/
theorem IfRun.phiOk_iff (h : Frame n fn open_ s) (hc : Stepped run c) (ht : Stepped run t)
    (he : Stepped run e) (h₇ : Steps n fn ((s.graph.size + 2) :: open_) false w.afterElse s₇)
    {l : LTy} {vt ve : Value} :
    PhiOk n (joinStart s.graph.size s₇).graph (s.graph.size + 2) l
        [(vt, s.graph.size), (ve, s.graph.size + 1)] ↔
      (branches t = false ∧ branches e = false) ∧ vt.ty = l ∧ ve.ty = l := by
  have hready := w.cond_steps h hc
  have hthen := w.then_steps h hc ht
  have helse := w.else_steps h hc ht he
  have hsize : s.graph.size + 3 ≤ w.thenStart.graph.size := by
    rw [thenStart_size, ← threeBlocks_size fn]
    exact hready.moves.grows.size_le
  have hsize' : s.graph.size + 3 ≤ w.elseStart.graph.size := by
    rw [elseStart_size]
    exact hsize.trans hthen.moves.grows.size_le
  have hbt : branches t = false ∧ w.afterThen.block = s.graph.size ∨
      branches t = true ∧ s.graph.size + 3 ≤ w.afterThen.block := by
    have hb := hthen.block
    cases hbr : branches t with
    | false => exact .inl ⟨rfl, by rwa [hbr, if_neg Bool.false_ne_true] at hb⟩
    | true => exact .inr ⟨rfl, hsize.trans (by rwa [hbr, if_pos rfl] at hb)⟩
  have hbe : branches e = false ∧ w.afterElse.block = s.graph.size + 1 ∨
      branches e = true ∧ s.graph.size + 3 ≤ w.afterElse.block := by
    have hb := helse.block
    cases hbr : branches e with
    | false => exact .inl ⟨rfl, by rwa [hbr, if_neg Bool.false_ne_true] at hb⟩
    | true => exact .inr ⟨rfl, hsize'.trans (by rwa [hbr, if_pos rfl] at hb)⟩
  have hn := h.le_size
  constructor
  · intro hphi
    have ht₁ := (w.edge_join h hc ht he h₇ hn).1
      ((hphi.preds s.graph.size).1 List.mem_cons_self).2
    have he₁ := (w.edge_join h hc ht he h₇ (hn.trans (Nat.le_succ _))).1
      ((hphi.preds (s.graph.size + 1)).1 (List.mem_cons_of_mem _ List.mem_cons_self)).2
    refine ⟨⟨?_, ?_⟩, hphi.types _ List.mem_cons_self,
      hphi.types _ (List.mem_cons_of_mem _ List.mem_cons_self)⟩
    · rcases hbt with hbt | hbt
      · exact hbt.1
      · omega
    · rcases hbe with hbe | hbe
      · exact hbe.1
      · omega
  · rintro ⟨⟨hbrt, hbre⟩, hvt, hve⟩
    have ht₁ : w.afterThen.block = s.graph.size := by
      simpa [hbrt] using hbt
    have he₁ : w.afterElse.block = s.graph.size + 1 := by
      simpa [hbre] using hbe
    refine ⟨by simp, fun a => ?_, by simp [hvt, hve]⟩
    simp only [List.map_cons, List.map_nil, List.mem_cons, List.not_mem_nil, or_false]
    constructor
    · intro ha
      have hna : n ≤ a := by omega
      exact ⟨hna, (w.edge_join h hc ht he h₇ hna).2 (by rwa [ht₁, he₁])⟩
    · rintro ⟨hna, hedge⟩
      simpa only [ht₁, he₁] using (w.edge_join h hc ht he h₇ hna).1 hedge

end If

/-! ## The check and the phis -/

theorem judged_cond (hc : Stepped run c) (hb : Stepped run body) (jc : Judged run Γ c)
    (jb : Judged run Γ body) : Judged run Γ (.cond c body) := by
  intro n fn open_ s r s' h hΓ hok σ
  obtain ⟨w, rfl, rfl⟩ := eval_cond_run (fun cv s₁ h₁ => (hc h h₁).frame.curllvmfn) hok
  obtain ⟨is, -, -, hσ⟩ := toCondition_ok w.bit
  have hΓb : Agrees Γ w.bodyStart :=
    (hΓ.moves (w.cond_steps h hc).moves).of_eq rfl rfl rfl
  have hcheckc := jc h hΓ w.cond
  have hcheckb := jb (w.body_frame h hc) hΓb w.yes
  rw [w.sound_iff h hc hb]
  simp only [check, Option.bind_eq_bind, Option.bind_eq_some_iff, hcheckc, hcheckb]
  constructor
  · rintro ⟨_, ⟨hsc, rfl⟩, τ, hτ, _, ⟨hsb, rfl⟩, hσ'⟩
    rw [hσ, Option.some_inj] at hτ
    exact ⟨⟨hsc, hsb⟩, hτ.trans (Option.some_inj.1 hσ')⟩
  · rintro ⟨⟨hsc, hsb⟩, rfl⟩
    exact ⟨_, ⟨hsc, rfl⟩, _, hσ, _, ⟨hsb, rfl⟩, rfl⟩

theorem judged_while (hc : Stepped run c) (hb : Stepped run body) (jc : Judged run Γ c)
    (jb : Judged run Γ body) : Judged run Γ (.while_ c body) := by
  intro n fn open_ s r s' h hΓ hok σ
  obtain ⟨w, rfl, rfl⟩ := eval_while_run h.curllvmfn hok
  obtain ⟨is, -, -, hσ⟩ := toCondition_ok w.bit
  have hΓc : Agrees Γ (testStart fn s) := hΓ.of_eq rfl rfl rfl
  have hΓb : Agrees Γ (w.bodyStart.enterLoop s.graph.size (s.graph.size + 2)) :=
    (hΓc.moves (w.cond_steps h hc).moves).of_eq rfl rfl rfl
  have hcheckc := jc (h.testStart) hΓc w.cond
  have hcheckb := jb (w.body_frame h hc) hΓb w.yes
  rw [w.sound_iff h hc hb]
  simp only [check, Option.bind_eq_bind, Option.bind_eq_some_iff, hcheckc, hcheckb]
  constructor
  · rintro ⟨_, ⟨hsc, rfl⟩, _, -, _, ⟨hsb, rfl⟩, hσ'⟩
    exact ⟨⟨hsc, hsb⟩, Option.some_inj.1 hσ'⟩
  · rintro ⟨⟨hsc, hsb⟩, rfl⟩
    exact ⟨_, ⟨hsc, rfl⟩, _, hσ, _, ⟨hsb, rfl⟩, rfl⟩

/-- A phi in an empty block. -/
theorem Frame.sound_emitPhi (h : Frame n fn open_ s) (hcode : s.graph.code s.block = [])
    (hm : m ≤ s.block) (ty : LTy) (inc : List (Value × Nat)) :
    Sound n m (s.emit (.phi ty inc)).graph ↔
      Sound n m s.graph ∧ PhiOk n s.graph s.block ty inc := by
  have hk : Keeps n [] [s.block] s.graph (s.emit (.phi ty inc)).graph := Keeps.emitPhi h ty inc
  have hself : (s.emit (.phi ty inc)).graph.code s.block = [.phi ty inc] := by
    rw [St.emit, St.emitAll, Cfg.code_append_self _ h.building.lt, hcode, List.nil_append]
  have hedge : ∀ a, n ≤ a → (Edge Instr.flow (s.emit (.phi ty inc)).graph a s.block ↔
      Edge Instr.flow s.graph a s.block) :=
    fun a ha => hk.edges a _ ha h.building.lt List.not_mem_nil
  have hgood : Good n (s.emit (.phi ty inc)).graph s.block ↔ PhiOk n s.graph s.block ty inc := by
    constructor
    · intro hg
      exact (hg ty inc (hself ▸ List.mem_cons_self)).congr fun a ha => (hedge a ha).symm
    · intro hp ty' inc' hi
      rw [hself, List.mem_singleton, Instr.phi.injEq] at hi
      obtain ⟨rfl, rfl⟩ := hi
      exact hp.congr hedge
  have old : ∀ b, b ≠ s.block → (Good n (s.emit (.phi ty inc)).graph b ↔ Good n s.graph b) := by
    intro b hb
    rcases Nat.lt_or_ge b s.graph.size with hlt | hge
    · exact hk.good hlt List.not_mem_nil (by simpa using hb)
    · refine iff_of_true ?_ (bare_of_code_nil (s.graph.code_of_size_le hge)).good
      refine (bare_of_code_nil (Cfg.code_of_size_le _ ?_)).good
      simpa [St.emit, St.emitAll] using hge
  constructor
  · intro hs
    refine ⟨fun b hb => ?_, hgood.1 (hs _ hm)⟩
    rcases eq_or_ne b s.block with rfl | hne
    · exact (bare_of_code_nil hcode).good
    · exact (old b hne).1 (hs b hb)
  · rintro ⟨hs, hp⟩ b hb
    rcases eq_or_ne b s.block with rfl | hne
    · exact hgood.2 hp
    · exact (old b hne).2 (hs b hb)

theorem judged_if (hc : Stepped run c) (ht : Stepped run t) (he : Stepped run e)
    (jc : Judged run Γ c) (jt : Judged run Γ t) (je : Judged run Γ e) :
    Judged run Γ (.if_ c t e) := by
  intro n fn open_ s r s' h hΓ hok σ
  obtain ⟨w, hlast⟩ := eval_if_run h.curllvmfn hok
  obtain ⟨dest, κ, τ, s₇, hdest, hnull, hτ, hκ, hr, h₇, hsize, rfl⟩ := w.join h hc ht he hlast
  obtain ⟨-, -, -, hσ⟩ := toCondition_ok w.bit
  have hΓc : Agrees Γ (threeBlocks fn s) := hΓ.of_eq rfl rfl rfl
  have hΓt : Agrees Γ w.thenStart := (hΓc.moves (w.cond_steps h hc).moves).of_eq rfl rfl rfl
  have hΓe : Agrees Γ w.elseStart := (hΓt.moves (w.then_steps h hc ht).moves).of_eq rfl rfl rfl
  have hcheckc := jc h.threeBlocks hΓc w.cond
  have hcheckt := jt (w.then_frame h hc) hΓt w.yes
  have hchecke := je (w.else_frame h hc ht) hΓe w.no
  have hjoin := h₇.frame.joinStart (h.not_mem (Nat.le_add_right _ 2))
  rw [hjoin.sound_emitPhi (IfRun.join_code h₇.frame) (Nat.le_add_right _ 2),
    w.sound_iff h hc ht he h₇ hsize,
    show (joinStart s.graph.size s₇).block = s.graph.size + 2 from rfl,
    w.phiOk_iff h hc ht he h₇]
  obtain ⟨hvoid, hdt, hdl⟩ := unwrapType_ok hdest hnull
  simp only [check, Option.bind_eq_bind, Option.bind_eq_some_iff, hcheckc, hcheckt, hchecke]
  constructor
  · rintro ⟨_, ⟨hsc, rfl⟩, _, -, _, ⟨hst, rfl⟩, _, ⟨hse, rfl⟩, τ', hτ', κ', hκ', hif⟩
    split at hif
    · next hcond =>
      obtain ⟨hbt, hbe, -, -, hlval, hty⟩ := hcond
      rw [show w.rt.lval = false from hlval, if_neg Bool.false_ne_true] at hdl
      have hdest' : dest = ⟨w.rt.v.ty, w.rt.t⟩ := by rw [hdl, ← hdt]
      rw [hτ, Option.some_inj] at hτ'
      subst hτ'
      have hκ₂ : some κ.shape = some κ' := by
        rw [← hκ, hdest']
        exact hκ'
      have hσ' := Option.some_inj.1 hif
      refine ⟨⟨⟨hsc, hst, hse⟩, ⟨hbt, hbe⟩, hdl, ?_⟩, ?_⟩
      · calc κ.v.ty = κ'.ty := congrArg Shape.ty (Option.some_inj.1 hκ₂)
          _ = dest.l := hty.trans hdl
      · rw [hr, ← hσ', ← hdl]
        rfl
    · cases hif
  · rintro ⟨⟨⟨hsc, hst, hse⟩, ⟨hbt, hbe⟩, hvt, hve⟩, rfl⟩
    have hlval : w.rt.lval = false := by
      rw [Bool.eq_false_iff]
      intro hl
      rw [if_pos hl, ← hvt] at hdl
      exact LTy.element_ne_self _ hdl
    have hdest' : dest = ⟨w.rt.v.ty, w.rt.t⟩ := by rw [hvt, ← hdt]
    refine ⟨_, ⟨hsc, rfl⟩, _, hσ, _, ⟨hst, rfl⟩, _, ⟨hse, rfl⟩, τ, hτ, κ.shape, ?_, ?_⟩
    · rw [← hκ, hdest']
      rfl
    · have hty : κ.shape.ty = w.rt.shape.ty := hve.trans hvt.symm
      have hne : w.rt.shape.ty ≠ .null := fun hn => hnull (hvt ▸ hn)
      rw [if_pos ⟨hbt, hbe, hvoid, hne, hlval, hty⟩, hr, ← hvt]
      rfl

/-! ## All expressions -/

theorem judged_ident (x : String) : Judged run Γ (.ident x) := by
  intro n fn open_ s r s' h hΓ hok σ
  have hspec := evalIdent_spec hΓ x
  rw [eval] at hok
  rw [check]
  cases hσ : Γ.ident x with
  | none =>
    simp only [hσ] at hspec
    obtain ⟨msg, hmsg⟩ := hspec
    rw [hmsg] at hok
    cases hok
  | some σ' =>
    simp only [hσ] at hspec
    obtain ⟨r', hr, rfl⟩ := hspec
    rw [hr] at hok
    cases hok
    rw [Option.some_inj]
    exact (and_iff_right (sound_size _)).symm

theorem checkArgs_iff {args : List Expr} (hargs : ∀ e ∈ args, Stepped run e)
    (jargs : ∀ e ∈ args, Judged run Γ e) {vs : List Rtv} (h : Frame n fn open_ s)
    (hΓ : Agrees Γ s) (hok : evalArgs run args s = .ok (vs, s')) (σs : List Shape) :
    checkArgs Γ args = some σs ↔ Sound n s.graph.size s'.graph ∧ vs.map Rtv.shape = σs := by
  induction args generalizing s vs σs with
  | nil =>
    cases hok
    rw [checkArgs, Option.some_inj]
    exact (and_iff_right (sound_size _)).symm
  | cons e es ih =>
    rw [evalArgs] at hok
    obtain ⟨⟨v, s₁⟩, h₁, hok⟩ := bind_ok.1 hok
    obtain ⟨⟨vs', s₂⟩, h₂, hok⟩ := bind_ok.1 hok
    cases hok
    have hstep := hargs e List.mem_cons_self h h₁
    have hrest : ∀ e' ∈ es, Stepped run e' := fun e' he' => hargs e' (List.mem_cons_of_mem _ he')
    have hje := jargs e List.mem_cons_self h hΓ h₁
    have hjes := ih hrest (fun e' he' => jargs e' (List.mem_cons_of_mem _ he')) hstep.frame
      (hΓ.moves hstep.moves) h₂
    rw [(steps_evalArgs hrest hstep.frame h₂).sound hstep.moves.grows.size_le]
    simp only [checkArgs, Option.bind_eq_bind, Option.bind_eq_some_iff, hje, hjes, Option.some_inj,
      List.map_cons]
    constructor
    · rintro ⟨_, ⟨hs, rfl⟩, _, ⟨hs', rfl⟩, hσ⟩
      exact ⟨⟨hs, hs'⟩, hσ⟩
    · rintro ⟨⟨hs, hs'⟩, rfl⟩
      exact ⟨_, ⟨hs, rfl⟩, _, ⟨hs', rfl⟩, rfl⟩

theorem checkProgn_iff (hes : ∀ e ∈ es, Stepped run e) (jes : ∀ e ∈ es, Judged run Γ e)
    (h : Frame n fn open_ s) (hΓ : Agrees Γ s) (hok : evalProgn run es s = .ok (r, s'))
    (σ : Shape) :
    checkProgn Γ es = some σ ↔ Sound n s.graph.size s'.graph ∧ r.shape = σ := by
  induction es generalizing s r σ with
  | nil =>
    cases hok
    rw [checkProgn, Option.some_inj]
    exact (and_iff_right (sound_size _)).symm
  | cons e es ih =>
    cases es with
    | nil =>
      rw [evalProgn] at hok
      rw [checkProgn]
      exact jes e List.mem_cons_self h hΓ hok σ
    | cons e' es =>
      rw [evalProgn] at hok
      obtain ⟨⟨r₁, s₁⟩, h₁, h₂⟩ := bind_ok.1 hok
      have hstep := hes e List.mem_cons_self h h₁
      have hrest : ∀ x ∈ e' :: es, Stepped run x := fun x hx => hes x (List.mem_cons_of_mem _ hx)
      have hje := jes e List.mem_cons_self h hΓ h₁
      have hjes := ih hrest (fun x hx => jes x (List.mem_cons_of_mem _ hx)) hstep.frame
        (hΓ.moves hstep.moves) h₂
      rw [(steps_evalProgn hrest hstep.frame h₂).sound hstep.moves.grows.size_le, and_assoc]
      simp only [checkProgn, Option.bind_eq_bind, Option.bind_eq_some_iff, hje, hjes]
      constructor
      · rintro ⟨_, ⟨hs, -⟩, hσ⟩
        exact ⟨hs, hσ⟩
      · rintro ⟨hs, hσ⟩
        exact ⟨_, ⟨hs, rfl⟩, hσ⟩

theorem judged_call {f : String} {args : List Expr} (hargs : ∀ e ∈ args, Stepped run e)
    (jargs : ∀ e ∈ args, Judged run Γ e) : Judged run Γ (.call f args) := by
  intro n fn open_ s r s' h hΓ hok σ
  rw [eval] at hok
  rw [check, ← hΓ.funs]
  revert hok
  cases s.funs.lookup f with
  | none =>
    intro hok
    cases hok
  | some f =>
    intro hok
    obtain ⟨fns, hreq⟩ := requireFunction_eq f s
    rcases hq : s.requireFunction f with ⟨fv, s₀⟩
    dsimp only at hok
    rw [hq] at hok hreq
    subst hreq
    obtain ⟨⟨vs, s₁⟩, h₁, hok⟩ := bind_ok.1 hok
    obtain ⟨is, rfl, ops, hcall⟩ := lowerFuncall_ok hok
    have h₀ : Frame n fn open_ { s with fns := fns } := h.of_eq rfl rfl rfl
    have hsteps := steps_evalArgs hargs h₀ h₁
    have hiff := checkArgs_iff hargs jargs h₀ (hΓ.of_eq rfl rfl rfl) h₁
    rw [hsteps.frame.sound_emitAll ops hsteps.moves.grows.size_le]
    simp only [Option.bind_eq_some_iff, hiff]
    constructor
    · rintro ⟨_, ⟨hs, rfl⟩, hσ⟩
      exact ⟨hs, Option.some_inj.1 (hcall.symm.trans hσ)⟩
    · rintro ⟨hs, rfl⟩
      exact ⟨_, ⟨hs, rfl⟩, hcall⟩

theorem judged_scope (hes : ∀ e ∈ es, Stepped run e) (jes : ∀ e ∈ es, Judged run Γ e) :
    Judged run Γ (.scope es) := by
  intro n fn open_ s r s' h hΓ hok σ
  rw [eval] at hok
  rw [check]
  split at hok
  · exact checkProgn_iff hes jes h hΓ hok σ
  · next scopes hscopes =>
    obtain ⟨⟨r₁, s₁⟩, h₁, hok⟩ := bind_ok.1 hok
    cases hok
    have h' : Frame n fn open_ { s with curfn := some ([] :: scopes) } := h.of_eq rfl rfl rfl
    exact checkProgn_iff hes jes h' (hΓ.scope hscopes) h₁ σ

/-- The check accepts an expression exactly when the phis of its code are good,
and then finds the shape of its value. -/
theorem Valued.judged {e : Expr} (he : Valued e) : Judged run Γ e := by
  have steps : ∀ {es : List Expr}, (∀ e ∈ es, Valued e) → ∀ e ∈ es, Stepped run e :=
    fun h e hm => (h e hm).steps
  induction he with
  | int i | float tok | string str | char c =>
    intro n fn open_ s r s' h hΓ hok σ
    cases hok
    rw [check, Option.some_inj]
    exact (and_iff_right (sound_size _)).symm
  | ident x => exact judged_ident x
  | call f h ih => exact judged_call (steps h) ih
  | progn h ih => exact fun hf hΓ hok => checkProgn_iff (steps h) ih hf hΓ hok
  | scope h ih => exact judged_scope (steps h) ih
  | cond hc hb jc jb => exact judged_cond hc.steps hb.steps jc jb
  | if_ hc ht he jc jt je => exact judged_if hc.steps ht.steps he.steps jc jt je
  | while_ hc hb jc jb => exact judged_while hc.steps hb.steps jc jb

end Dolorem.Codegen
