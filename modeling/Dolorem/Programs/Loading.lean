import Dolorem.Programs.Names

/-!
# Programs in the JIT

A function is compiled, and its module is given to the JIT, before the next one
is compiled. The JIT links every module of a program that is checked, and the
code it has loaded computes what the interpreter computes.
-/

namespace Dolorem.Programs

open Codegen CodeGraph Words Interp

/-- The module of a function that was compiled from `s` to `s'`. The address of
the function is its first block. -/
def finished (g : Func) (s s' : St) : Jit.Module where
  name := g.sig.name
  addr := s.graph.size
  lambdas := []
  operands := Jit.moduleOperands s' s.mods

/-- The definitions of a program, compiled and linked one after the other. -/
def build (host : String → Option Nat) (run : Nat → Bool) :
    List Func → St → Jit.Tables → Except Halt (St × Jit.Tables)
  | [], s, j => .ok (s, j)
  | g :: gs, s, j => do
    let (_, s') ← eval run g.expr s
    let j' ← Jit.step host (.defun (finished g s s')) j
    build host run gs s' j'

/-- The code, with every name bound to what the JIT knows under it. -/
def loaded (s : St) (j : Jit.Tables) : Image where
  graph := s.graph
  fns := s.fns
  entry y := j.dylib.lookup y
  addr y := (j.dylib.lookup y).getD 0

/-- The JIT knows every name in the code from block `b₀` on. -/
def Resolved (b₀ : Nat) (s : St) (j : Jit.Tables) : Prop :=
  ∀ b, b₀ ≤ b → ∀ i ∈ s.graph.code b, ∀ v ∈ i.values, ∀ y, Jit.globalName s v = some y →
    (j.dylib.lookup y).isSome

/-- The names of the functions are free, and the globals of the compiler have
addresses the JIT can find: in the program, or among the definitions `ds`. -/
structure Linkable (host : String → Option Nat) (ds : List (String × Nat)) (s : St)
    (j : Jit.Tables) (gs : List Func) : Prop where
  sound : Jit.Sound host j ds
  free : ∀ g ∈ gs, ¬ j.Declares g.sig.name ∧ j.dylib.lookup g.sig.name = none
  globals : ∀ y, (s.globals.lookup y).isSome → j.Declares y ∧ (Jit.own host ds y).isSome ∧
    (Jit.anonymous y = false ∨ (j.dylib.lookup y).isSome)

variable {host : String → Option Nat} {run : Nat → Bool} {ds : List (String × Nat)}
variable {s s' s₁ : St} {j j' j₁ : Jit.Tables} {g : Func} {gs program : List Func} {b k : Nat}
variable {globals : List (String × IntTy)} {funs : List Sig} {y : String} {i : Instr} {v : Value}
variable {m : Jit.Module} {op : Jit.Operand}

/-! ## The operands of a module -/

theorem operandValues_iff : v ∈ Jit.operandValues i ↔ v ∈ i.values := by
  cases i <;> simp [Jit.operandValues, Instr.values, or_comm]

/-- The blocks of a function. -/
theorem mem_filter_owner {fn : Nat} {is : List Instr} :
    (∃ blk ∈ s.graph.blocks.filter (·.owner = fn), blk.code = is) ↔
      ∃ b, s.graph.owner? b = some fn ∧ s.graph.code b = is := by
  constructor
  · rintro ⟨blk, hblk, rfl⟩
    obtain ⟨hmem, howner⟩ := List.mem_filter.1 hblk
    obtain ⟨b, hb⟩ := List.mem_iff_getElem?.1 hmem
    refine ⟨b, ?_, by rw [Cfg.code, hb]⟩
    rw [Cfg.owner?, hb, Option.map_some, of_decide_eq_true howner]
  · rintro ⟨b, howner, rfl⟩
    obtain ⟨blk, hb, howner⟩ := Option.map_eq_some_iff.1 howner
    refine ⟨blk, List.mem_filter.2 ⟨List.mem_of_getElem? hb, decide_eq_true howner⟩, ?_⟩
    rw [Cfg.code, hb]

/-- What a module refers to, block by block. -/
theorem mem_moduleOperands : op ∈ Jit.moduleOperands s k ↔
    ∃ b fn lf, s.graph.owner? b = some fn ∧ s.fns[fn]? = some lf ∧ lf.mod = k ∧
      ∃ i ∈ s.graph.code b, ∃ v ∈ i.values, ∃ y, Jit.globalName s v = some y ∧ op = .value y := by
  have hcode : ∀ is : List Instr, (op ∈ is.flatMap fun i => (Jit.operandValues i).flatMap fun v =>
      (Jit.globalName s v).toList.map .value) ↔
      ∃ i ∈ is, ∃ v ∈ i.values, ∃ y, Jit.globalName s v = some y ∧ op = .value y := by
    intro is
    simp only [List.mem_flatMap, List.mem_map, Option.mem_toList, operandValues_iff, eq_comm]
  unfold Jit.moduleOperands
  simp only [List.bind_eq_flatMap, List.mem_flatMap, Prod.exists, List.mem_zipIdx_iff_getElem?]
  constructor
  · rintro ⟨lf, fn, hlf, hop⟩
    split at hop
    · next hmod =>
      obtain ⟨blk, hblk, hop⟩ := List.mem_flatMap.1 hop
      obtain ⟨b, howner, hb⟩ := mem_filter_owner.1 ⟨blk, hblk, rfl⟩
      exact ⟨b, fn, lf, howner, hlf, hmod, hb ▸ (hcode _).1 hop⟩
    · cases hop
  · rintro ⟨b, fn, lf, howner, hlf, hmod, hop⟩
    refine ⟨lf, fn, hlf, ?_⟩
    obtain ⟨blk, hblk, hb⟩ := mem_filter_owner.2 ⟨b, howner, rfl⟩
    rw [if_pos hmod]
    exact List.mem_flatMap.2 ⟨blk, hblk, (hcode _).2 (hb ▸ hop)⟩

theorem name_of_mayName {F G : String → Prop} (h : MayName F G s.fns v.ref)
    (hy : Jit.globalName s v = some y) : F y ∨ G y := by
  unfold Jit.globalName at hy
  split at hy
  · next href =>
    rw [href] at h
    obtain ⟨lf, y', hlf, hname, hF⟩ := h
    rw [hlf, Option.bind_some, hname] at hy
    exact .inl (Option.some.inj hy ▸ hF)
  · next href =>
    rw [href] at h
    exact .inr (Option.some.inj hy ▸ h)
  · cases hy

/-- A definition refers to functions before it and to globals. -/
theorem finished_operands {r : Rtv} (h : Outside globals funs s) (hok : g.ok globals funs = true)
    (hnew : s.funs.lookup g.sig.name = none) (hr : eval run g.expr s = .ok (r, s'))
    (hleave : Codegen.Leaves s s') :
    ∀ op ∈ (finished g s s').operands, op = .value op.name ∧
      (Called funs op.name ∨ (s.globals.lookup op.name).isSome) := by
  intro op hop
  obtain ⟨b, fn, lf, howner, hlf, hmod, i, hi, v, hv, y, hy, rfl⟩ := mem_moduleOperands.1 hop
  have hb : s.graph.size ≤ b := by
    by_contra hlt
    rw [hleave.owner b (Nat.lt_of_not_le hlt)] at howner
    obtain ⟨lf', -, hlf', -⟩ := h.owner b fn howner
    cases (getElem?_later hleave.fns hlf').symm.trans hlf
    exact absurd hmod (Nat.ne_of_lt (h.mods lf (List.mem_of_getElem? hlf')))
  exact ⟨rfl, name_of_mayName (defun_naming h hok hnew hr b hb i hi v hv) hy⟩

/-! ## Linking a module -/

/-- The module is linked: its function and all it refers to are known, what was
known is known as before, and only its name is new. -/
structure Links (host : String → Option Nat) (ds : List (String × Nat)) (m : Jit.Module)
    (j j' : Jit.Tables) : Prop where
  sound : Jit.Sound host j' (m.defs ++ ds)
  own : j'.dylib.lookup m.name = some m.addr
  operands : ∀ op ∈ m.operands, (j'.dylib.lookup op.name).isSome
  later : ∀ y r, j.dylib.lookup y = some r → j'.dylib.lookup y = some r
  declares : ∀ y, j'.Declares y ↔ y = m.name ∨ j.Declares y
  free : ∀ y, y ≠ m.name → ¬ j.Declares y → j'.dylib.lookup y = j.dylib.lookup y

/-- A module that was added, and had no lambdas. -/
theorem links_of_step (h : Jit.Sound host j ds) (hl : (Jit.Form.defun m).Legal host j ds)
    (hlam : m.lambdas = []) (hs : Jit.step host (.defun m) j = .ok j')
    (hb : (Jit.Form.defun m).Bound host ds j') : Links host ds m j j' := by
  obtain ⟨j₁, hc⟩ := h.defun_completes hs
  have hdefs : m.defs = [(m.name, m.addr)] := by rw [Jit.Module.defs, hlam]
  have hself : m.defs.lookup m.name = some m.addr := by rw [hdefs]; exact List.lookup_cons_self
  have hother : ∀ y, y ≠ m.name → m.defs.lookup y = none := by
    intro y hy
    rw [hdefs]
    exact Jit.lookup_eq_none fun d hd => by rwa [List.mem_singleton.1 hd]
  have hdecl : ∀ y, j'.Declares y ↔ y = m.name ∨ j.Declares y := by
    intro y
    rw [← Jit.newFun_declares, ← hc.updates.declares y, hc.after]
    rfl
  have hnew : ¬ j.Declares m.name := hl.1 (m.name, m.addr) List.mem_cons_self
  refine ⟨h.step hl hs, by rw [hc.lookup, hself, Option.some_or], fun op hop => ?_,
    fun y r hy => ?_, hdecl, fun y hne hy => ?_⟩
  · obtain ⟨r, -, hr⟩ := hb op hop
    rw [hr]
    rfl
  · have hne : y ≠ m.name := by
      rintro rfl
      rw [(hc.fresh (m.name, m.addr) List.mem_cons_self).2] at hy
      cases hy
    rw [hc.lookup, hother y hne, Option.none_or]
    by_cases hreg : Jit.Registers m.operands y
    · rw [hc.updates.known y hreg, h.dylib y r hy]
    · rw [hc.updates.dylib y hreg]
      exact hy
  · rw [hc.lookup, hother y hne, Option.none_or, hc.updates.dylib y fun hreg => ?_]
    · rfl
    · rcases Jit.newFun_declares.1 (hc.declared y hreg) with rfl | hd
      · exact hne rfl
      · exact hy hd

/-- The functions that were linked. -/
def AllLinked (funs : List Sig) (j : Jit.Tables) : Prop :=
  ∀ f ∈ funs, j.Declares f.name ∧ (j.dylib.lookup f.name).isSome

/-- The JIT links a definition that is checked. -/
theorem finished_links (h : Linkable host ds s j (g :: gs)) (hfuns : AllLinked funs j)
    (hne : ∀ f ∈ funs, f.name ≠ g.sig.name)
    (hops : ∀ op ∈ (finished g s s').operands, op = .value op.name ∧
      (Called funs op.name ∨ (s.globals.lookup op.name).isSome)) :
    ∃ j', Jit.step host (.defun (finished g s s')) j = .ok j' ∧
      Links host ds (finished g s s') j j' := by
  obtain ⟨hnew, hfree⟩ := h.free g List.mem_cons_self
  have hdefs : (finished g s s').defs = [(g.sig.name, s.graph.size)] := rfl
  -- every operand is declared, is not the function, and has an address
  have hdecl : ∀ op ∈ (finished g s s').operands, j.Declares op.name ∧
      op.name ≠ g.sig.name ∧ (Jit.own host ds op.name).isSome ∧
      (Jit.anonymous op.name = false ∨ (j.dylib.lookup op.name).isSome) := by
    intro op hop
    rcases (hops op hop).2 with ⟨f, hf, hname⟩ | hglobal
    · obtain ⟨hd, hsome⟩ := hfuns f hf
      obtain ⟨r, hr⟩ := Option.isSome_iff_exists.1 hsome
      rw [← hname]
      exact ⟨hd, hne f hf, by rw [h.sound.dylib _ r hr]; rfl, .inr hsome⟩
    · obtain ⟨hd, hrest⟩ := h.globals _ hglobal
      exact ⟨hd, fun heq => hnew (heq ▸ hd), hrest⟩
  have hlookup : ∀ op ∈ (finished g s s').operands,
      (finished g s s').defs.lookup op.name = none := by
    intro op hop
    rw [hdefs]
    exact Jit.lookup_eq_none fun d hd => by
      rw [List.mem_singleton.1 hd]
      exact (hdecl op hop).2.1
  have hlegal : (Jit.Form.defun (finished g s s')).Legal host j ds := by
    refine ⟨fun d hd => ?_, fun d hd => absurd hd List.not_mem_nil, fun op hop => ?_⟩
    · rw [hdefs] at hd
      rw [List.mem_singleton.1 hd]
      exact hnew
    · rw [Jit.own_of_new (hlookup op hop)]
      exact (hdecl op hop).2.2.1
  have hfits : (Jit.Form.defun (finished g s s')).Fits j := by
    refine Jit.fits_of_operands (by simp [finished, Jit.Form.defs, Jit.Module.defs])
      (fun d hd => ?_) (fun op hop => .inr ?_) fun op hop => ?_
    · rw [List.mem_singleton.1 (hdefs ▸ hd : d ∈ [(g.sig.name, s.graph.size)])]
      exact hfree
    · refine ⟨fun d hd => ?_, (hdecl op hop).1⟩
      rw [List.mem_singleton.1 (hdefs ▸ hd : d ∈ [(g.sig.name, s.graph.size)])]
      exact (hdecl op hop).2.1
    · rcases (hdecl op hop).2.2.2 with ha | hknown
      · exact .inl ⟨(hops op hop).1 ▸ hop, ha⟩
      · exact .inr (.inr hknown)
  obtain ⟨j', hs, hb⟩ := (h.sound.form_iff hlegal).2 hfits
  exact ⟨j', hs, links_of_step h.sound hlegal rfl hs hb⟩

/-! ## Linking a program -/

/-- What building a program does: its code is added and its functions are found
where they begin. -/
structure Loads (gs : List Func) (s s' : St) (j j' : Jit.Tables) : Prop where
  leaves : Codegen.Leaves s s'
  later : ∀ y r, j.dylib.lookup y = some r → j'.dylib.lookup y = some r
  entry : ∀ g ∈ gs, ∃ b, Begins s' g.sig.name b ∧ j'.dylib.lookup g.sig.name = some b
  resolved : Resolved s.graph.size s' j'

theorem known_later (h : ∀ y r, j.dylib.lookup y = some r → j'.dylib.lookup y = some r)
    (hy : (j.dylib.lookup y).isSome) : (j'.dylib.lookup y).isSome := by
  obtain ⟨r, hr⟩ := Option.isSome_iff_exists.1 hy
  rw [h y r hr]
  rfl

theorem globalName_later {F G : String → Prop} (h : MayName F G s.fns v.ref)
    (hf : s.fns <+: s'.fns) : Jit.globalName s' v = Jit.globalName s v := by
  unfold Jit.globalName
  split
  · next href =>
    rw [href] at h
    obtain ⟨lf, y, hlf, -⟩ := h
    rw [getElem?_later hf hlf, hlf]
  · rfl
  · rfl

/-- What is left to link after the first definition. -/
theorem Linkable.tail (h : Linkable host ds s j (g :: gs))
    (k : Links host ds (finished g s s₁) j j₁) (hglobals : s₁.globals = s.globals)
    (hne : ∀ g' ∈ gs, g'.sig.name ≠ g.sig.name) :
    Linkable host ((finished g s s₁).defs ++ ds) s₁ j₁ gs where
  sound := k.sound
  free g' hg' := by
    obtain ⟨hnew, hfree⟩ := h.free g' (List.mem_cons_of_mem _ hg')
    refine ⟨fun hd => ?_, (k.free _ (hne g' hg') hnew).trans hfree⟩
    exact ((k.declares _).1 hd).elim (hne g' hg') hnew
  globals y hy := by
    obtain ⟨hd, hown, hknown⟩ := h.globals y (hglobals ▸ hy)
    have hyg : y ≠ g.sig.name := by
      rintro rfl
      exact (h.free g List.mem_cons_self).1 hd
    have hlookup : (finished g s s₁).defs.lookup y = none :=
      Jit.lookup_eq_none fun d hd => by
        rw [List.mem_singleton.1 (hd : d ∈ [(g.sig.name, s.graph.size)])]
        exact hyg
    rw [Jit.own_of_new hlookup]
    exact ⟨(k.declares y).2 (.inr hd), hown, hknown.imp id (known_later k.later)⟩

theorem AllLinked.cons (h : AllLinked funs j) (k : Links host ds (finished g s s₁) j j₁) :
    AllLinked (g.sig :: funs) j₁ := by
  refine List.forall_mem_cons.2 ⟨⟨(k.declares _).2 (.inl rfl), ?_⟩, fun f hf => ?_⟩
  · have hown : j₁.dylib.lookup g.sig.name = some s.graph.size := k.own
    rw [hown]
    rfl
  · exact ⟨(k.declares _).2 (.inr (h f hf).1), known_later k.later (h f hf).2⟩

/-- A program that is checked is compiled and linked, function by function. -/
theorem build_sound (run : Nat → Bool) (hok : okFrom globals funs gs = true)
    (h : Outside globals funs s) (hnew : ∀ g ∈ gs, s.funs.lookup g.sig.name = none)
    (hlink : Linkable host ds s j gs) (hfuns : AllLinked funs j) :
    ∃ s' j', build host run gs s j = .ok (s', j') ∧
      evalProgn run (gs.map Func.expr) s = .ok (nullRtv, s') ∧ Loads gs s s' j j' := by
  induction gs generalizing funs s j ds with
  | nil =>
    refine ⟨s, j, rfl, by rw [List.map_nil, evalProgn],
      ⟨.refl s, fun _ _ h => h, fun _ hg => (nomatch hg), fun b hb i hi => ?_⟩⟩
    rw [Cfg.code_of_size_le _ hb] at hi
    cases hi
  | cons g gs ih =>
    have hne := okFrom_ne hok
    simp only [okFrom, Bool.and_eq_true] at hok
    have hne' : ∀ f ∈ funs, f.name ≠ g.sig.name := fun f hf => hne f hf g List.mem_cons_self
    have hrest : ∀ g' ∈ gs, g'.sig.name ≠ g.sig.name := fun g' hg' =>
      (okFrom_ne hok.2 g.sig List.mem_cons_self g' hg').symm
    have hg := hnew g List.mem_cons_self
    obtain ⟨s₁, h₁, hout, hleave, hsfuns, hglobals, hbegins, howner, -⟩ :=
      defun_sound run h hg hok.1.1 hne'
    obtain ⟨j₁, hs, hk⟩ := finished_links hlink hfuns hne'
      (finished_operands h hok.1.1 hg h₁ hleave)
    obtain ⟨s', j', hb, hp, hl⟩ := ih hok.2 hout
      (fun g' hg' => by
        rw [hsfuns, List.lookup_cons, beq_false_of_ne (hrest g' hg')]
        exact hnew g' (List.mem_cons_of_mem _ hg'))
      (hlink.tail hk hglobals hrest) (hfuns.cons hk)
    refine ⟨s', j', ?_, evalProgn_cons _ _ h₁ hp,
      ⟨leaves_trans hleave hl.leaves, fun y r hy => hl.later y r (hk.later y r hy),
        fun g' hg' => ?_, fun b hb i hi v hv y hy => ?_⟩⟩
    · simp only [build, h₁, hs, ok_bind, hb]
    · rcases List.mem_cons.1 hg' with rfl | hg'
      · refine ⟨s.graph.size, hbegins.leaves hl.leaves fun a k ha => ?_, hl.later _ _ hk.own⟩
        obtain ⟨lf, y, hlf, -⟩ := hout.owner a k ha
        exact ⟨lf, hlf⟩
      · exact hl.entry g' hg'
    · rcases Nat.lt_or_ge b s₁.graph.size with hlt | hge
      · rw [hl.leaves.code b hlt] at hi
        have hname := defun_naming h hok.1.1 hg h₁ b hb i hi v hv
        rw [globalName_later hname hl.leaves.fns] at hy
        obtain ⟨fn, lf, ho, hlf, hmod⟩ := howner b hb hlt
        exact known_later hl.later (hk.operands (.value y)
          (mem_moduleOperands.2 ⟨b, fn, lf, ho, hlf, hmod, i, hi, v, hv, y, hy, rfl⟩))
      · exact hl.resolved b hge i hi v hv y hy

/-- The JIT's image of a program has the program's code. -/
theorem Loads.carries (h : Loads program s s' j j') : (loaded s' j').Carries program s' where
  covers := ⟨fun _ _ hi => hi, List.prefix_rfl⟩
  entry := h.entry

/-- Interpreter and machine agree on every call in what the JIT has loaded. -/
theorem loaded_agrees (run : Nat → Bool) (hok : okFrom globals [] program = true)
    (h : Outside globals [] s) (hnew : ∀ g ∈ program, s.funs.lookup g.sig.name = none)
    (hlink : Linkable host ds s j program) :
    ∃ s' j', build host run program s j = .ok (s', j') ∧
      evalProgn run (program.map Func.expr) s = .ok (nullRtv, s') ∧
      Resolved s.graph.size s' j' ∧
      ∀ (g : Func) (xs : List Int) (m : Mem), g ∈ program →
        List.Forall₂ (fun p x => Fits p.2.width x) g.sig.parms xs →
        ∃ c, (loaded s' j').start g.sig.name xs m.cells m.next = some c ∧
          Agrees (loaded s' j') (fun n => callIn (loaded s' j').addr program n g.sig.name xs m) c := by
  obtain ⟨s', j', hbuild, hcomp, hloads⟩ :=
    build_sound run hok h hnew hlink fun _ hf => nomatch hf
  obtain ⟨s'', hcomp', -, hrun⟩ := program_agrees run hok h hnew
  cases hcomp.symm.trans hcomp'
  exact ⟨s', j', hbuild, hcomp, hloads.resolved, hrun hloads.carries⟩

/-- A program that is checked compiles, and the JIT links it: every name in its code
is bound. Then every call of one of its functions runs as the interpreter says: it
comes to an end with the interpreter's result and memory, it comes to something
undefined where the interpreter goes wrong, and it runs forever when no amount of
fuel is enough for the interpreter. -/
theorem compiled_program_runs (run : Nat → Bool) (hok : okFrom globals [] program = true)
    (h : Outside globals [] s) (hnew : ∀ g ∈ program, s.funs.lookup g.sig.name = none)
    (hlink : Linkable host ds s j program) :
    ∃ s' j', build host run program s j = .ok (s', j') ∧ Resolved s.graph.size s' j' ∧
      ∀ (g : Func) (xs : List Int) (m : Mem), g ∈ program →
        List.Forall₂ (fun p x => Fits p.2.width x) g.sig.parms xs →
        ∃ c, (loaded s' j').start g.sig.name xs m.cells m.next = some c ∧
          (∀ r, (∃ n, callIn (loaded s' j').addr program n g.sig.name xs m = .ok r) ↔
            ∃ c', Halts (loaded s' j').step c c' ∧ (loaded s' j').Over r c') ∧
          ((∃ n, callIn (loaded s' j').addr program n g.sig.name xs m = .error .wrong) ↔
            ∃ c', Halts (loaded s' j').step c c' ∧ (loaded s' j').Stuck c') ∧
          ((∀ n, callIn (loaded s' j').addr program n g.sig.name xs m = .error .timeout) ↔
            ∀ n, Lives (loaded s' j').step n c) := by
  obtain ⟨s', j', hbuild, -, hresolved, hrun⟩ := loaded_agrees run hok h hnew hlink
  refine ⟨s', j', hbuild, hresolved, fun g xs m hg hxs => ?_⟩
  obtain ⟨c, hstart, hagrees⟩ := hrun g xs m hg hxs
  exact ⟨c, hstart, hagrees.result, hagrees.wrong, hagrees.timeout⟩

/-- Nothing is declared, and the program around the JIT has no symbols. -/
theorem topLevel_linkable (gs : List Func) :
    Linkable (fun _ => none) [] topLevel ⟨[], [], []⟩ gs where
  sound := Jit.sound_empty _
  free _ _ := ⟨fun h => (by rcases h with h | h <;> cases h), rfl⟩
  globals y hy := by cases hy

theorem compiled_program_runs_factorials : ∃ s' j',
    build (fun _ => none) (fun _ => true) factorials topLevel ⟨[], [], []⟩ = .ok (s', j') ∧
      ∃ c, (loaded s' j').start "sum" [3] (fun _ => none) 1 = some c ∧
        ∃ c', Halts (loaded s' j').step c c' ∧ (loaded s' j').result c' = some 9 := by
  obtain ⟨s', j', hbuild, -, hrun⟩ := compiled_program_runs (fun _ => true)
    (show okFrom [] [] factorials = true by decide) topLevel_outside (fun _ _ => rfl)
    (topLevel_linkable factorials)
  obtain ⟨c, hstart, hresult, -⟩ := hrun _ [3] ⟨fun _ => none, 1⟩
    (List.mem_cons_of_mem _ List.mem_cons_self) (.cons (by decide) .nil)
  obtain ⟨m, hcall⟩ := callIn_factorials (loaded s' j').addr
  obtain ⟨c', hhalts, hover⟩ := (hresult (9, m)).1 ⟨6, hcall⟩
  exact ⟨s', j', hbuild, c, hstart, c', hhalts, hover.1⟩

end Dolorem.Programs
