import Dolorem.Programs.Functions

/-!
# Whole programs

A program that is checked compiles, and its code computes what the interpreter
computes, in any image that has it: the same results with the same memory, a fault
where the interpreter goes wrong, and an endless run where no amount of fuel is
enough.
-/

namespace Dolorem.Programs

open Codegen CodeGraph Words Interp

variable {run : Nat → Bool} {I : Image} {s s' s₁ s₂ : St} {g : Func} {gs program : List Func}
variable {globals : List (String × IntTy)} {funs funs' : List Sig} {b : Nat} {y : String}

/-! ## Where functions begin -/

/-- Block `b` is the first one of a function called `y`. -/
structure Begins (s : St) (y : String) (b : Nat) : Prop where
  first : ∀ a < b, ∀ k lf, s.graph.owner? a = some k → s.fns[k]? = some lf → lf.name ≠ some y
  self : ∃ k lf, s.graph.owner? b = some k ∧ s.fns[k]? = some lf ∧ lf.name = some y

/-- The modules, with every name bound to the first function of that name. What the JIT binds
the names to is `loaded`. -/
def linked (s : St) (addr : String → Int) : Image where
  graph := s.graph
  fns := s.fns
  entry y := s.graph.blocks.findIdx? fun b => (s.fns[b.owner]?.bind (·.name)) = some y
  addr := addr

theorem getElem?_later {α : Type} {xs ys : List α} {k : Nat} {x : α} (h : xs <+: ys)
    (hx : xs[k]? = some x) : ys[k]? = some x := by
  obtain ⟨zs, rfl⟩ := h
  rw [List.getElem?_append_left (List.getElem?_eq_some_iff.1 hx).1, hx]

theorem Begins.entry (h : Begins s y b) (addr : String → Int) :
    (linked s addr).entry y = some b := by
  obtain ⟨k, lf, howner, hlf, hname⟩ := h.self
  unfold Cfg.owner? at howner
  obtain ⟨blk, hblk, rfl⟩ := Option.map_eq_some_iff.1 howner
  obtain ⟨hlt, hget⟩ := List.getElem?_eq_some_iff.1 hblk
  show s.graph.blocks.findIdx? (fun blk => (s.fns[blk.owner]?.bind (·.name)) = some y) = some b
  refine List.findIdx?_eq_some_iff_getElem.2 ⟨hlt, ?_, fun a ha => ?_⟩
  · rw [hget, hlf, Option.bind_some, hname]
    exact decide_eq_true rfl
  · have halt : a < s.graph.blocks.length := ha.trans hlt
    have howner : s.graph.owner? a = some s.graph.blocks[a].owner := by
      rw [Cfg.owner?, List.getElem?_eq_getElem halt, Option.map_some]
    rw [decide_eq_true_eq]
    intro hname
    obtain ⟨lf, hlf, hname⟩ := Option.bind_eq_some_iff.1 hname
    exact h.first a ha _ lf howner hlf hname

theorem leaves_trans (h : Codegen.Leaves s s₁) (k : Codegen.Leaves s₁ s₂) : Codegen.Leaves s s₂ where
  mod := k.mod.trans h.mod
  curfn := k.curfn.trans h.curfn
  curllvmfn := k.curllvmfn.trans h.curllvmfn
  size_le := h.size_le.trans k.size_le
  code b hb := (k.code b (hb.trans_le h.size_le)).trans (h.code b hb)
  owner b hb := (k.owner b (hb.trans_le h.size_le)).trans (h.owner b hb)
  fns := h.fns.trans k.fns
  mods := h.mods.trans k.mods
  precompiled := k.precompiled.trans h.precompiled

theorem sub_of_leaves (h : Codegen.Leaves s s') : s.graph.Sub s'.graph := by
  intro p i hp
  unfold Cfg.at? at hp ⊢
  rcases Nat.lt_or_ge p.blk s.graph.size with hlt | hge
  · rwa [h.code _ hlt]
  · rw [Cfg.code_of_size_le _ hge] at hp
    cases hp

theorem Image.Covers.of_leaves (h : I.Covers s') (k : Codegen.Leaves s s') : I.Covers s :=
  ⟨(sub_of_leaves k).trans h.graph, k.fns.trans h.fns⟩

/-- Later definitions do not change where a function begins. -/
theorem Begins.leaves (h : Begins s y b) (k : Codegen.Leaves s s')
    (ho : ∀ a k, s.graph.owner? a = some k → ∃ lf, s.fns[k]? = some lf) : Begins s' y b := by
  obtain ⟨j, lf, howner, hlf, hname⟩ := h.self
  have hb := Cfg.lt_size_of_owner? _ howner
  refine ⟨fun a ha i lf' howner' hlf' => ?_, j, lf, (k.owner b hb).trans howner,
    getElem?_later k.fns hlf, hname⟩
  rw [k.owner a (ha.trans hb)] at howner'
  obtain ⟨lf'', hlf''⟩ := ho a i howner'
  cases (getElem?_later k.fns hlf'').symm.trans hlf'
  exact h.first a ha i lf' howner' hlf''

/-! ## Definitions -/

theorem exists_setBuilderPosition (pos : Option Nat) (s : St) :
    ∃ b, s.setBuilderPosition pos = { s with bldr := b } := by
  cases pos with
  | none => exact ⟨s.bldr, rfl⟩
  | some b => exact ⟨some b, rfl⟩

theorem Outside.mono (h : Outside globals funs' s) (hf : ∀ f ∈ funs, f ∈ funs') :
    Outside globals funs s :=
  ⟨h.precompiled, h.loop, h.mods, h.owner, h.globals, fun f hmem => h.funs f (hf f hmem)⟩

theorem Outside.register (h : Outside globals funs s) {f : Sig} (hnew : ∀ f' ∈ funs, f'.name ≠ f.name) :
    Outside globals (f :: funs) (s.register f.fn) where
  precompiled := h.precompiled
  loop := h.loop
  mods := h.mods
  owner b k hb := by
    obtain ⟨lf, y, hlf, hname, hy⟩ := h.owner b k hb
    refine ⟨lf, y, hlf, hname, ?_⟩
    show (List.lookup y ((f.fn.name, f.fn) :: s.funs)).isSome
    rw [List.lookup_cons]
    split
    · rfl
    · exact hy
  globals := h.globals
  funs f' hf' := by
    show List.lookup f'.name ((f.name, f.fn) :: s.funs) = some f'.fn
    rw [List.lookup_cons]
    rcases List.mem_cons.1 hf' with rfl | hf'
    · rw [beq_self_eq_true]
    · rw [beq_false_of_ne (hnew f' hf')]
      exact h.funs f' hf'

/-- What the definition of `g` has added to `s`: the blocks of one function, and what else is
in its module. -/
structure Defined (g : Func) (s s' : St) : Prop where
  precompiled : s'.precompiled = s.precompiled
  loop : s'.whileInLoop = s.whileInLoop
  globals : s'.globals = s.globals
  funs : s'.funs = (g.sig.name, g.sig.fn) :: s.funs
  mods : s'.mods = s.mods + 1
  fns : ∀ lf ∈ s'.fns, lf ∈ s.fns ∨ lf.mod = s.mods
  self : s'.fns[s.fns.length]? = some ⟨s.mods, some g.sig.name, g.sig.fn.funtype⟩
  entry : s'.graph.owner? s.graph.size = some s.fns.length
  owner : ∀ b k, s'.graph.owner? b = some k → s.graph.owner? b = some k ∨ k = s.fns.length

theorem Extends.defined (h : Outside globals funs (s.register g.sig.fn))
    (hk : Extends (bodyStart g.sig.fn (s.register g.sig.fn)) s₁) : Defined g s s₁ := by
  obtain ⟨new, hfns, hmod⟩ := hk.fns
  rw [bodyStart_fns h] at hfns
  have hsize : (bodyStart g.sig.fn (s.register g.sig.fn)).graph.size = s.graph.size + 1 :=
    Cfg.size_fresh _ _
  refine ⟨hk.precompiled, hk.whileInLoop, hk.globals, hk.funs, hk.mods, fun lf hlf => ?_, ?_, ?_,
    fun b k hb => ?_⟩
  · rw [hfns, List.append_assoc] at hlf
    rcases List.mem_append.1 hlf with hlf | hlf
    · exact .inl hlf
    · rcases List.mem_append.1 hlf with hlf | hlf
      · cases List.mem_singleton.1 hlf
        exact .inr rfl
      · exact .inr (hmod lf hlf)
  · rw [hfns, List.getElem?_append_left (by simp [St.register])]
    exact List.getElem?_concat_length
  · rw [hk.grows.owner _ (hsize ▸ Nat.lt_succ_self _)]
    exact Cfg.owner?_fresh_self _ _
  · rcases Nat.lt_or_ge b (s.graph.size + 1) with hlt | hge
    · rw [hk.grows.owner b (hsize ▸ hlt)] at hb
      exact (Cfg.owner?_fresh_cases _ hb).imp id And.right
    · have hlt := Cfg.lt_size_of_owner? _ hb
      rw [hk.owner b (hsize ▸ hge) hlt] at hb
      exact .inr (Option.some.inj hb).symm

namespace Defined

theorem outside (k : Defined g s s') (h : Outside globals funs s)
    (hne : ∀ f ∈ funs, f.name ≠ g.sig.name) (hfns : s.fns <+: s'.fns) :
    Outside globals (g.sig :: funs) s' := by
  have h₀ := h.register hne
  refine ⟨k.precompiled.trans h.precompiled, k.loop.trans h.loop, fun lf hlf => ?_,
    fun b i hb => ?_, fun x t hx => ?_, fun f hf => ?_⟩
  · rw [k.mods]
    rcases k.fns lf hlf with hlf | hmod
    · exact (h.mods lf hlf).trans (Nat.lt_succ_self _)
    · rw [hmod]
      exact Nat.lt_succ_self _
  · rw [k.funs]
    rcases k.owner b i hb with hb | rfl
    · obtain ⟨lf, y, hlf, hname, hy⟩ := h₀.owner b i hb
      exact ⟨lf, y, getElem?_later hfns hlf, hname, hy⟩
    · exact ⟨_, g.sig.name, k.self, rfl, by rw [List.lookup_cons, beq_self_eq_true]; rfl⟩
  · exact (congrArg (List.lookup x) k.globals).trans (h.globals x t hx)
  · exact (congrArg (List.lookup f.name) k.funs).trans (h₀.funs f hf)

/-- No block before the definition is one of a function of this name. -/
theorem begins (k : Defined g s s') (h : Outside globals funs s)
    (hnew : s.funs.lookup g.sig.name = none) (hl : Codegen.Leaves s s') :
    Begins s' g.sig.name s.graph.size := by
  refine ⟨fun a ha i lf hb hlf => ?_, s.fns.length, _, k.entry, k.self, rfl⟩
  rw [hl.owner a ha] at hb
  obtain ⟨lf', y, hlf', hname, hy⟩ := h.owner a i hb
  cases (getElem?_later hl.fns hlf').symm.trans hlf
  rw [hname]
  rintro ⟨⟩
  rw [hnew] at hy
  cases hy

theorem inModule (k : Defined g s s') (hb : s.graph.size ≤ b) (hlt : b < s'.graph.size) :
    ∃ i lf, s'.graph.owner? b = some i ∧ s'.fns[i]? = some lf ∧ lf.mod = s.mods := by
  have howner : s'.graph.owner? b = some s'.graph.blocks[b].owner := by
    rw [Cfg.owner?, List.getElem?_eq_getElem hlt, Option.map_some]
  rcases k.owner b _ howner with hold | hself
  · exact absurd (Cfg.lt_size_of_owner? _ hold) (Nat.not_lt.2 hb)
  · exact ⟨s.fns.length, _, hself ▸ howner, k.self, rfl⟩

end Defined

/-- `defun` on a function that is checked. -/
theorem defun_sound (run : Nat → Bool) (h : Outside globals funs s)
    (hnew : s.funs.lookup g.sig.name = none) (hok : g.ok globals funs = true)
    (hne : ∀ f ∈ funs, f.name ≠ g.sig.name) :
    ∃ s', eval run g.expr s = .ok (nullRtv, s') ∧ Outside globals (g.sig :: funs) s' ∧
      Codegen.Leaves s s' ∧ s'.funs = (g.sig.name, g.sig.fn) :: s.funs ∧
      s'.globals = s.globals ∧ Begins s' g.sig.name s.graph.size ∧
      (∀ b, s.graph.size ≤ b → b < s'.graph.size → ∃ k lf, s'.graph.owner? b = some k ∧
        s'.fns[k]? = some lf ∧ lf.mod = s.mods) ∧
      ∀ {I : Image}, I.Covers s' → Entered I funs g s.graph.size := by
  have h₀ := h.register hne
  obtain ⟨s₁, hbody, hk, hrun⟩ :=
    funbody_sound run (h₀.mono fun f => List.mem_cons_of_mem _) hok
  have hleave := (funbody_leaves (eval_evolves run _) hbody).1.of_register
  obtain ⟨pos, hpos⟩ := exists_setBuilderPosition (s.register g.sig.fn).bldr s₁
  rw [hpos] at hbody hleave
  have k₁ := hk.defined h₀
  have k : Defined g s { s₁ with
      bldr := pos, curfn := s.curfn, curllvmfn := s.curllvmfn, mod := s.mod } :=
    ⟨k₁.precompiled, k₁.loop, k₁.globals, k₁.funs, k₁.mods, k₁.fns, k₁.self, k₁.entry, k₁.owner⟩
  refine ⟨_, ?_, k.outside h hne hleave.fns, hleave, k.funs, k.globals, k.begins h hnew hleave,
    fun b => k.inModule, fun hI => hrun ⟨hI.graph, hI.fns⟩⟩
  rw [Func.expr, eval, registerNew, show s.funs.lookup g.sig.fn.name = none from hnew]
  simp only [ok_bind, hbody]
  rfl

/-! ## Programs -/

theorem okFrom_ne (h : okFrom globals funs gs = true) :
    ∀ f ∈ funs, ∀ g ∈ gs, f.name ≠ g.sig.name := by
  induction gs generalizing funs with
  | nil => simp
  | cons g gs ih =>
    simp only [okFrom, Bool.and_eq_true, List.all_eq_true, decide_eq_true_eq] at h
    intro f hf g' hg'
    rcases List.mem_cons.1 hg' with rfl | hg'
    · exact h.1.2 f hf
    · exact ih h.2 f (List.mem_cons_of_mem _ hf) g' hg'

/-- A function of a program is found by its name. -/
theorem find?_of_okFrom (h : okFrom globals funs gs = true) :
    ∀ g ∈ gs, gs.find? (·.sig.name = g.sig.name) = some g := by
  induction gs generalizing funs with
  | nil => simp
  | cons g gs ih =>
    simp only [okFrom, Bool.and_eq_true] at h
    intro g' hg'
    rcases List.mem_cons.1 hg' with rfl | hg'
    · exact List.find?_cons_of_pos (by simp)
    · have hne := okFrom_ne h.2 g.sig List.mem_cons_self g' hg'
      rw [List.find?_cons_of_neg (by simpa using hne)]
      exact ih h.2 g' hg'

theorem Entered.mono (h : Entered I funs g b) (hf : ∀ f ∈ funs, f ∈ funs') : Entered I funs' g b :=
  fun hcalls => h fun f hmem => hcalls f (hf f hmem)

theorem evalProgn_cons (e : Expr) (es : List Expr) {s s₁ s' : St}
    (h : eval run e s = .ok (nullRtv, s₁)) (hes : evalProgn run es s₁ = .ok (nullRtv, s')) :
    evalProgn run (e :: es) s = .ok (nullRtv, s') := by
  cases es with
  | nil =>
    rw [evalProgn] at hes
    cases hes
    rw [evalProgn, h]
  | cons e' es =>
    rw [evalProgn, h]
    exact hes

/-- The definitions of a program that is checked, one after the other. -/
theorem program_sound (run : Nat → Bool) (hok : okFrom globals funs gs = true)
    (h : Outside globals funs s) (hnew : ∀ g ∈ gs, s.funs.lookup g.sig.name = none) :
    ∃ s', evalProgn run (gs.map Func.expr) s = .ok (nullRtv, s') ∧ Codegen.Leaves s s' ∧
      ∀ g ∈ gs, ∃ b, Begins s' g.sig.name b ∧
        ∀ {I : Image}, I.Covers s' → Entered I (gs.map Func.sig ++ funs) g b := by
  induction gs generalizing funs s with
  | nil => exact ⟨s, by rw [List.map_nil, evalProgn], .refl s, by simp⟩
  | cons g gs ih =>
    have hne' := okFrom_ne hok
    simp only [okFrom, Bool.and_eq_true] at hok
    obtain ⟨s₁, h₁, hout, hleave, hfuns, -, hbegins, -, hrun⟩ := defun_sound run h
      (hnew g List.mem_cons_self) hok.1.1 fun f hf => hne' f hf g List.mem_cons_self
    obtain ⟨s', h₂, hleave', hall⟩ := ih hok.2 hout fun g' hg' => by
      rw [hfuns, List.lookup_cons,
        beq_false_of_ne (okFrom_ne hok.2 g.sig List.mem_cons_self g' hg').symm]
      exact hnew g' (List.mem_cons_of_mem _ hg')
    have howner : ∀ a k, s₁.graph.owner? a = some k → ∃ lf, s₁.fns[k]? = some lf := by
      intro a k ha
      obtain ⟨lf, y, hlf, -⟩ := hout.owner a k ha
      exact ⟨lf, hlf⟩
    have hmem : ∀ f, f ∈ gs.map Func.sig ++ g.sig :: funs → f ∈ (g :: gs).map Func.sig ++ funs := by
      intro f hf
      simp only [List.map_cons, List.cons_append, List.mem_append, List.mem_cons] at hf ⊢
      tauto
    refine ⟨s', evalProgn_cons _ _ h₁ h₂, leaves_trans hleave hleave', fun g' hg' => ?_⟩
    rcases List.mem_cons.1 hg' with rfl | hg'
    · refine ⟨s.graph.size, hbegins.leaves hleave' howner, fun hI => ?_⟩
      exact Entered.mono (hrun (hI.of_leaves hleave')) fun f hf =>
        List.mem_append_right _ hf
    · obtain ⟨b, hb, hrun'⟩ := hall g' hg'
      exact ⟨b, hb, fun hI => Entered.mono (hrun' hI) hmem⟩

/-! ## Calls -/

/-- The return of a function that was called by `f`. -/
theorem step_returns {f : Frame} {stack : List Frame} {x : Int} {m : Mem} {c : Config}
    (h : Returns I g.sig (f :: stack) (x, m) c) :
    I.step c = some ⟨f.pos.skip 1, f.prev, (⟨f.val, m.cells⟩ : Core).define f.pos x, m.next,
      stack⟩ := by
  obtain ⟨hinstr, rfl, hstack, -⟩ := h
  unfold Image.step
  rcases hinstr with ⟨v, hi, hv⟩ | ⟨hi, rfl⟩
  · rw [hi]
    simp only [hv, Option.bind_some, Config.leave, hstack]
  · rw [hi]
    simp only [Config.leave, hstack]

/-- With more fuel, calls get one level deeper. -/
theorem callsIn_program (hfind : ∀ g ∈ program, program.find? (·.sig.name = g.sig.name) = some g)
    (hall : ∀ g ∈ program, ∃ b, I.entry g.sig.name = some b ∧
      Entered I (program.map Func.sig) g b) (n : Nat) :
    CallsIn I (program.map Func.sig) n (callIn I.addr program n) := by
  induction n with
  | zero => exact fun f _ c fn args xs k lf _ _ _ _ _ _ => ⟨c, rfl⟩
  | succ n ih =>
    intro f hf c fn args xs k lf hi hfn hlf hname hxs hfit
    obtain ⟨g, hg, rfl⟩ := List.mem_map.1 hf
    obtain ⟨b, hb, hrun⟩ := hall g hg
    have hcallee : I.callee fn = some b := by
      simp only [Image.callee, hfn, hlf, Option.bind_some, hname, hb]
    have hstep : I.step c = some (I.enter b b xs ⟨c.m.mem, c.next⟩
        (⟨c.pos, c.prev, c.m.val⟩ :: c.stack)) := by
      unfold Image.step
      rw [hi]
      simp only [hcallee, mapM_read hxs, Option.bind_eq_bind, Option.bind_some, Image.enter]
    rw [callIn, hfind g hg]
    refine .tick hstep ?_
    refine (hrun ih hfit).onward ?_
    rintro ⟨x, m⟩ c' hreturns
    exact ⟨_, .single (step_returns hreturns), rfl, hreturns.fits⟩

/-- The program is over, with this result and this memory. -/
def Image.Over (I : Image) (r : Int × Mem) (c : Config) : Prop :=
  I.result c = some r.1 ∧ c.m.mem = r.2.cells ∧ c.next = r.2.next

theorem Returns.over {r : Int × Mem} {c : Config} (h : Returns I g.sig [] r c) : I.Over r c := by
  refine ⟨?_, by rw [← h.mem], by rw [← h.mem]⟩
  unfold Image.result
  rw [h.stack]
  rcases h.instr with ⟨v, hi, hv⟩ | ⟨hi, hx⟩
  · rw [hi]
    exact hv
  · rw [hi, hx]

theorem Image.Over.unique {r r' : Int × Mem} {c : Config} (h : I.Over r c) (h' : I.Over r' c) :
    r = r' := by
  obtain ⟨x, cells, next⟩ := r
  obtain ⟨x', cells', next'⟩ := r'
  obtain ⟨hx, hcells, hnext⟩ := h
  obtain ⟨hx', hcells', hnext'⟩ := h'
  cases hx.symm.trans hx'
  cases hcells.symm.trans hcells'
  cases hnext.symm.trans hnext'
  rfl

/-- Without fuel there is no call. -/
theorem callIn_succ {addr : String → Int} {xs : List Int} {m : Mem} {o : Res (Int × Mem)}
    (ho : o ≠ .error .timeout) :
    (∃ n, callIn addr program n y xs m = o) ↔ ∃ n, callIn addr program (n + 1) y xs m = o := by
  refine ⟨?_, fun ⟨n, hn⟩ => ⟨n + 1, hn⟩⟩
  rintro ⟨n, hn⟩
  cases n with
  | zero => exact absurd hn.symm ho
  | succ n => exact ⟨n, hn⟩

/-- The machine in `c` does what the interpreter does with any amount of fuel. -/
structure Agrees (I : Image) (o : Nat → Res (Int × Mem)) (c : Config) : Prop where
  result : ∀ r, (∃ n, o n = .ok r) ↔ ∃ c', Halts I.step c c' ∧ I.Over r c'
  wrong : (∃ n, o n = .error .wrong) ↔ ∃ c', Halts I.step c c' ∧ I.Stuck c'
  timeout : (∀ n, o n = .error .timeout) ↔ ∀ n, Lives I.step n c

/-- The image has the code of `s`, and finds the functions of the program in it. -/
structure Image.Carries (I : Image) (program : List Func) (s : St) : Prop where
  covers : I.Covers s
  entry : ∀ g ∈ program, ∃ b, Begins s g.sig.name b ∧ I.entry g.sig.name = some b

/-- Interpreter and machine agree on every call of a function of the program, in
whatever image the code is. -/
theorem program_agrees (run : Nat → Bool) (hok : okFrom globals [] program = true)
    (h : Outside globals [] s) (hnew : ∀ g ∈ program, s.funs.lookup g.sig.name = none) :
    ∃ s', evalProgn run (program.map Func.expr) s = .ok (nullRtv, s') ∧
      (∀ addr, (linked s' addr).Carries program s') ∧
      ∀ {I : Image}, I.Carries program s' → ∀ (g : Func) (xs : List Int) (m : Mem), g ∈ program →
        List.Forall₂ (fun p x => Fits p.2.width x) g.sig.parms xs →
        ∃ c, I.start g.sig.name xs m.cells m.next = some c ∧
          Agrees I (fun n => callIn I.addr program n g.sig.name xs m) c := by
  obtain ⟨s', hcomp, -, hfuns⟩ := program_sound run hok h hnew
  have hlinked : ∀ addr, (linked s' addr).Carries program s' := fun addr =>
    ⟨⟨fun _ _ hi => hi, List.prefix_rfl⟩, fun g hg =>
      have ⟨b, hb, _⟩ := hfuns g hg
      ⟨b, hb, hb.entry addr⟩⟩
  refine ⟨s', hcomp, hlinked, fun {I} hI g xs m hg hxs => ?_⟩
  have hfind := find?_of_okFrom hok
  have hall : ∀ g ∈ program, ∃ b, I.entry g.sig.name = some b ∧
      Entered I (program.map Func.sig) g b := by
    intro g hg
    obtain ⟨b, hb, hrun⟩ := hfuns g hg
    obtain ⟨b', hb', hentry⟩ := hI.entry g hg
    obtain rfl : b' = b := Option.some.inj ((hb'.entry I.addr).symm.trans (hb.entry I.addr))
    refine ⟨b', hentry, Entered.mono (hrun hI.covers) fun f hf => ?_⟩
    rwa [List.append_nil] at hf
  obtain ⟨b, hb, hrun⟩ := hall g hg
  refine ⟨I.enter b b xs m [], by rw [Image.start, hb]; rfl, ?_⟩
  have hsim : ∀ n, Sim I.step I.Stuck n (I.enter b b xs m [])
      (callIn I.addr program (n + 1) g.sig.name xs m) I.Over fun _ _ => False := by
    intro n
    rw [callIn, hfind g hg]
    exact (hrun (callsIn_program hfind hall n) hxs).imp (fun _ _ hr => hr.over) fun _ _ h => h
  obtain ⟨hresult, hwrong, htimeout⟩ := Sim.adequate hsim (fun _ _ hr => step_of_result hr.1)
    (fun _ hc => hc.1) (fun _ _ hr hc => Option.some_ne_none _ (hr.1.symm.trans hc.2))
    fun _ _ _ hr hr' => hr.unique hr'
  refine ⟨fun r => ?_, ?_, ?_⟩
  · rw [← hresult r, callIn_succ (by rintro ⟨⟩)]
  · rw [← hwrong, callIn_succ (by rintro ⟨⟩)]
  · rw [← htimeout]
    refine ⟨fun ht n => ht (n + 1), fun ht n => ?_⟩
    cases n with
    | zero => rw [callIn]
    | succ n => exact ht n

/-- Nothing is defined yet. -/
def topLevel : St where
  graph := ⟨[]⟩
  fns := []
  bldr := none
  mod := 0
  mods := 1
  curfn := none
  curllvmfn := none
  funs := []
  globals := []
  whileLastCondBlock := none
  whileLastAfterBlock := none
  whileInLoop := false
  staticCondNumber := 0
  precompiled := true

theorem topLevel_outside : Outside [] [] topLevel where
  precompiled := rfl
  loop := rfl
  mods := by rintro lf ⟨⟩
  owner b k h := by cases h
  globals x t h := by cases h
  funs := by rintro f ⟨⟩

/-- Factorials, and their sum up to a number. -/
def factorials : List Func :=
  let long : IntTy := ⟨64, true⟩
  let fac : Sig := ⟨"fac", some long, [("n", long)]⟩
  let n := Form.ident "n" long
  let r := Form.ident "r" long
  let sum := Form.ident "sum" long
  [⟨fac, .progn [.varInit "r" long (.int 1),
      .while_ (.cmp .gt n (.int 1)) (.progn [.assign r (.arith .mul r n),
        .assign n (.arith .sub n (.int 1))]),
      r]⟩,
    ⟨⟨"sum", some long, [("n", long)]⟩, .progn [.varInit "sum" long (.int 0),
      .while_ (.int 1) (.progn [.cond (.cmp .le n (.int 0)) .break_,
        .assign sum (.arith .add sum (.call fac [n])), .assign n (.arith .sub n (.int 1))]),
      sum]⟩]

set_option maxRecDepth 8000 in
theorem callIn_factorials (addr : String → Int) :
    ∃ m, callIn addr factorials 6 "sum" [3] ⟨fun _ => none, 1⟩ = .ok (9, m) :=
  ⟨_, rfl⟩

end Dolorem.Programs
