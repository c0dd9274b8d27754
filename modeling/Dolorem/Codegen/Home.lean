import Dolorem.Codegen.Cache

/-!
# Code that stays in its function

`AtHome fn s`: the function `fn` is being compiled in the current module, its
code so far calls functions of that module, refers to globals, functions and
arguments of its own and to what its own instructions compute, and the variables
in scope are its allocas. Emitting code that refers to such values keeps it, and
so does entering a function.
-/

namespace Dolorem.Codegen

open CodeGraph

/-- A function of the current module. -/
def Declared (s : St) (id : Nat) : Prop := ∃ name ty, s.fns[id]? = some ⟨s.mod, name, ty⟩

/-- What the code of `fn` may refer to. -/
def Home (fn : Nat) (s : St) : Ref → Prop
  | .fn id => Declared s id
  | .global k _ => k = s.mod
  | .inst p => s.graph.owner? p.blk = some fn
  | .arg f _ => f = fn
  | .null | .const _ | .real _ | .str _ | .ext _ => True

/-- What code may call. -/
def Callable (s : St) (x : Ref) : Prop := ∃ id, x = .fn id ∧ Declared s id

/-- An alloca of `fn`. -/
def Variable (fn : Nat) (s : St) (x : Ref) : Prop :=
  ∃ p ty, x = .inst p ∧ s.graph.owner? p.blk = some fn ∧ s.graph.at? p = some (.alloca ty)

structure AtHome (fn : Nat) (s : St) : Prop where
  owned : Owned s
  curllvmfn : s.curllvmfn = some fn
  declared : Declared s fn
  block : s.graph.owner? s.block = some fn
  code : ∀ b, s.graph.owner? b = some fn → ∀ i ∈ s.graph.code b, i.Refers (Home fn s) (Callable s)
  vars : ∀ scopes, s.curfn = some scopes → ∀ vars ∈ scopes, ∀ v ∈ vars, Variable fn s v.v.ref

/-- The module goes on: nothing that was declared or owned changes, and a new block belongs to
`own` or to a new function. -/
structure Extends (own : Option Nat) (s s' : St) : Prop where
  mod : s'.mod = s.mod
  fns : s.fns <+: s'.fns
  size_le : s.graph.size ≤ s'.graph.size
  owner : ∀ b, b < s.graph.size → s'.graph.owner? b = s.graph.owner? b
  new : ∀ b f, s.graph.size ≤ b → s'.graph.owner? b = some f → own = some f ∨ s.fns.length ≤ f

variable {s s' s₁ s₂ : St} {fn : Nat} {own : Option Nat} {r v : Rtv} {i : Instr} {x : Ref}

namespace Extends

theorem refl (own : Option Nat) (s : St) : Extends own s s :=
  ⟨rfl, List.prefix_rfl, le_rfl, fun _ _ => rfl, fun _ _ hb ho =>
    absurd (Cfg.lt_size_of_owner? s.graph ho) (Nat.not_lt.2 hb)⟩

theorem trans (h : Extends own s s₁) (k : Extends own s₁ s₂) : Extends own s s₂ where
  mod := k.mod.trans h.mod
  fns := h.fns.trans k.fns
  size_le := h.size_le.trans k.size_le
  owner b hb := (k.owner b (hb.trans_le h.size_le)).trans (h.owner b hb)
  new b f hb ho := by
    rcases Nat.lt_or_ge b s₁.graph.size with hlt | hge
    · exact h.new b f hb ((k.owner b hlt).symm.trans ho)
    · exact (k.new b f hge ho).imp id h.fns.length_le.trans

/-- Only code is added. -/
theorem of_graph (hmod : s'.mod = s.mod) (hfns : s.fns <+: s'.fns)
    (hsize : s'.graph.size = s.graph.size) (howner : ∀ b, s'.graph.owner? b = s.graph.owner? b) :
    Extends own s s' :=
  ⟨hmod, hfns, hsize.ge, fun b _ => howner b, fun _ _ hb ho =>
    absurd (Cfg.lt_size_of_owner? _ ho) (Nat.not_lt.2 (hsize ▸ hb))⟩

theorem of_none (h : Extends none s s') (own : Option Nat) : Extends own s s' :=
  { h with new := fun b f hb ho => .inr ((h.new b f hb ho).resolve_left fun hn => nomatch hn) }

theorem fresh (s : St) (fn : Nat) :
    Extends (some fn) s { s with graph := s.graph.fresh fn } where
  mod := rfl
  fns := List.prefix_rfl
  size_le := by
    rw [Cfg.size_fresh]
    exact Nat.le_succ _
  owner b hb := Cfg.owner?_fresh_of_lt _ _ hb
  new b f hb ho := by
    rcases Cfg.owner?_fresh_cases _ ho with ho | ⟨-, rfl⟩
    · exact absurd (Cfg.lt_size_of_owner? _ ho) (Nat.not_lt.2 hb)
    · exact .inl rfl

end Extends

theorem Declared.extends {id : Nat} (h : Declared s id) (k : Extends own s s') : Declared s' id := by
  obtain ⟨name, ty, hid⟩ := h
  obtain ⟨more, hmore⟩ := k.fns
  refine ⟨name, ty, ?_⟩
  rw [← hmore, List.getElem?_append_left (List.getElem?_eq_some_iff.1 hid).1, hid, k.mod]

theorem owner_extends {b : Nat} (h : s.graph.owner? b = some fn) (k : Extends own s s') :
    s'.graph.owner? b = some fn :=
  (k.owner b (Cfg.lt_size_of_owner? _ h)).trans h

theorem Home.extends (h : Home fn s x) (k : Extends own s s') : Home fn s' x := by
  cases x with
  | fn id => exact Declared.extends h k
  | global m name => exact Eq.trans h k.mod.symm
  | inst p => exact owner_extends h k
  | arg f n => exact h
  | null | const _ | real _ | str _ | ext _ => trivial

theorem Callable.extends (h : Callable s x) (k : Extends own s s') : Callable s' x := by
  obtain ⟨id, rfl, h⟩ := h
  exact ⟨id, rfl, h.extends k⟩

theorem Variable.home (h : Variable fn s x) : Home fn s x := by
  obtain ⟨p, ty, rfl, howner, -⟩ := h
  exact howner

theorem Instr.Refers.imp {P P' C C' : Ref → Prop} (h : i.Refers P C) (hP : ∀ x, P x → P' x)
    (hC : ∀ x, C x → C' x) : i.Refers P' C' := by
  cases i with
  | call f args => exact ⟨hC _ h.1, fun a ha => hP _ (h.2 a ha)⟩
  | _ => exact fun v hv => hP _ (h v hv)

theorem Instr.Refers.extends (h : i.Refers (Home fn s) (Callable s)) (k : Extends own s s') :
    i.Refers (Home fn s') (Callable s') :=
  h.imp (fun _ hx => hx.extends k) fun _ hx => hx.extends k

/-! ## Emitting code -/

/-- From `s` to `s'` the function `fn` stays at home. -/
structure Stays (fn : Nat) (s s' : St) : Prop where
  home : AtHome fn s'
  extends_ : Extends (some fn) s s'

theorem Stays.trans (h : Stays fn s s₁) (k : Stays fn s₁ s₂) : Stays fn s s₂ :=
  ⟨k.home, h.extends_.trans k.extends_⟩

namespace AtHome

theorem refl (h : AtHome fn s) : Stays fn s s := ⟨h, .refl _ s⟩

theorem building (h : AtHome fn s) : Building s where
  bldr := by
    have hlt := Cfg.lt_size_of_owner? _ h.block
    cases hb : s.bldr with
    | some b => rfl
    | none =>
      rw [St.block, hb] at hlt
      exact absurd hlt (Nat.lt_irrefl _)
  lt := Cfg.lt_size_of_owner? _ h.block
  fn := h.curllvmfn ▸ rfl

theorem lt_length (h : AtHome fn s) : fn < s.fns.length := by
  obtain ⟨name, ty, hfn⟩ := h.declared
  exact (List.getElem?_eq_some_iff.1 hfn).1

theorem ofBlock (h : AtHome fn s) : OfBlock (Home fn s) s := fun _ => h.block

theorem variable_extends (hx : Variable fn s x) (k : Extends own s s')
    (hsub : s.graph.Sub s'.graph) : Variable fn s' x := by
  obtain ⟨p, ty, rfl, howner, hp⟩ := hx
  exact ⟨p, ty, rfl, owner_extends howner k, hsub p _ hp⟩

/-- Nothing that the invariant speaks about changes. -/
theorem of_eq (h : AtHome fn s) (hg : s'.graph = s.graph) (hb : s'.bldr = s.bldr)
    (hm : s'.mod = s.mod) (hfns : s'.fns = s.fns) (hfn : s'.curllvmfn = s.curllvmfn)
    (hvars : ∀ scopes, s'.curfn = some scopes → ∀ vars ∈ scopes, ∀ v ∈ vars,
      Variable fn s v.v.ref) : Stays fn s s' := by
  have hext : Extends (some fn) s s' :=
    .of_graph hm (hfns ▸ List.prefix_rfl) (hg ▸ rfl) fun b => hg ▸ rfl
  have hblock : s'.block = s.block := by
    unfold St.block
    rw [hg, hb]
  refine ⟨⟨?_, hfn.trans h.curllvmfn, h.declared.extends hext, ?_, fun b hb i hi => ?_,
    fun scopes hs vars hv v hm => ?_⟩, hext⟩
  · unfold Owned
    rw [hfn, hg, hfns]
    exact h.owned
  · rw [hblock, hg]
    exact h.block
  · rw [hg] at hb hi
    exact (h.code b hb i hi).extends hext
  · exact variable_extends (hvars scopes hs vars hv v hm) hext (hg ▸ fun _ _ h => h)

/-- Other variables are in scope. -/
theorem scopes (h : AtHome fn s) {scopes : Option (List (List FunVar))}
    (hvars : ∀ c, scopes = some c → ∀ vars ∈ c, ∀ v ∈ vars, Variable fn s v.v.ref) :
    Stays fn s { s with curfn := scopes } :=
  h.of_eq rfl rfl rfl rfl rfl hvars

/-- A declaration is added to the module. -/
theorem declare (h : AtHome fn s) {fns : List LFun} (hfns : s.fns <+: fns) :
    Stays fn s { s with fns := fns } := by
  have hext : Extends (some fn) s { s with fns := fns } := .of_graph rfl hfns rfl fun _ => rfl
  have hle := hfns.length_le
  exact ⟨⟨⟨fun f hf => (h.owned.1 f hf).trans_le hle, fun b f hb => (h.owned.2 b f hb).trans_le hle⟩,
    h.curllvmfn, h.declared.extends hext, h.block,
    fun b hb i hi => (h.code b hb i hi).extends hext, h.vars⟩, hext⟩

/-- Straight-line code. -/
theorem writes (h : AtHome fn s) (w : Writes (Home fn s) (Callable s) s s') : Stays fn s s' := by
  obtain ⟨is, rfl, his⟩ := w
  have hext : Extends (some fn) s (s.emitAll is) :=
    .of_graph rfl List.prefix_rfl (Cfg.size_append _ _ _) fun b => Cfg.owner?_append _ _ b _
  have hlt := h.building.lt
  refine ⟨⟨((Marks.start s).emitAll is).owned h.owned, h.curllvmfn, h.declared.extends hext, ?_,
    fun b hb i hi => ?_, fun scopes hs vars hv v hm =>
      variable_extends (h.vars scopes hs vars hv v hm) hext (Cfg.Grows.append hlt is).sub⟩, hext⟩
  · rw [St.block_emitAll]
    exact owner_extends h.block hext
  · have hb' : s.graph.owner? b = some fn := (Cfg.owner?_append _ _ b _).symm.trans hb
    rcases eq_or_ne b s.block with rfl | hne
    · rw [St.emitAll, Cfg.code_append_self _ hlt, List.mem_append] at hi
      exact hi.elim (fun hi => (h.code _ hb' i hi).extends hext) fun hi => (his i hi).extends hext
    · rw [St.emitAll, Cfg.code_append_ne _ hne] at hi
      exact (h.code b hb' i hi).extends hext

theorem emit (h : AtHome fn s) (hi : i.Refers (Home fn s) (Callable s)) : Stays fn s (s.emit i) :=
  h.writes (.emit s hi)

theorem position (h : AtHome fn s) {b : Nat} (hb : s.graph.owner? b = some fn) :
    Stays fn s (s.position b) :=
  ⟨⟨h.owned, h.curllvmfn, h.declared, hb, h.code, h.vars⟩, .of_graph rfl List.prefix_rfl rfl fun _ => rfl⟩

/-- A last instruction, and on in another block of the function. -/
theorem jump (h : AtHome fn s) (hi : i.Refers (Home fn s) (Callable s)) {b : Nat}
    (hb : s.graph.owner? b = some fn) : Stays fn s ((s.emit i).position b) :=
  have hemit := h.emit hi
  hemit.trans (hemit.home.position (owner_extends hb hemit.extends_))

/-- A new block of the function. -/
theorem fresh (h : AtHome fn s) : Stays fn s { s with graph := s.graph.fresh fn } := by
  have hext := Extends.fresh s fn
  have hmoves := Moves.fresh h.building fn
  refine ⟨⟨((Marks.start s).fresh h.curllvmfn).owned h.owned, h.curllvmfn, h.declared.extends hext,
    ?_, fun b hb i hi => ?_, fun scopes hs vars hv v hm =>
      variable_extends (h.vars scopes hs vars hv v hm) hext hmoves.grows.sub⟩, hext⟩
  · obtain ⟨b, hb⟩ := Option.isSome_iff_exists.1 h.building.bldr
    have hblock := h.block
    simp only [St.block, hb, Option.getD_some] at hblock ⊢
    exact owner_extends hblock hext
  · rw [Cfg.code_fresh] at hi
    rcases Cfg.owner?_fresh_cases _ hb with hb | ⟨rfl, -⟩
    · exact (h.code b hb i hi).extends hext
    · rw [Cfg.code_of_size_le _ le_rfl] at hi
      cases hi

/-- Straight-line code with a result. -/
theorem wrote (h : AtHome fn s) (w : Writes (Home fn s) (Callable s) s s' ∧ Home fn s x) :
    Stays fn s s' ∧ Home fn s' x :=
  have hstays := h.writes w.1
  ⟨hstays, w.2.extends hstays.extends_⟩

theorem toCondition (h : AtHome fn s) (hv : Home fn s v.v.ref)
    (hr : toCondition v s = .ok (r, s')) : Stays fn s s' ∧ Home fn s' r.v.ref :=
  h.wrote (toCondition_writes h.ofBlock hv hr)

theorem prepareRead (h : AtHome fn s) (hv : Home fn s v.v.ref)
    (hr : prepareRead v s = .ok (r, s')) : Stays fn s s' ∧ Home fn s' r.v.ref :=
  h.wrote (prepareRead_writes h.ofBlock hv hr)

theorem threeBlocks (h : AtHome fn s) : Stays fn s (threeBlocks fn s) :=
  have h₁ := h.fresh
  have h₂ := h₁.trans h₁.home.fresh
  h₂.trans h₂.home.fresh

theorem requireFunction (h : AtHome fn s) (f : Fun) :
    Stays fn s (s.requireFunction f).2 ∧
      Callable (s.requireFunction f).2 (s.requireFunction f).1.ref := by
  obtain ⟨hfns, id, ty, hid, hget⟩ := requireFunction_names f s
  obtain ⟨fns, heq⟩ := requireFunction_eq f s
  rw [heq] at hfns hget ⊢
  exact ⟨h.declare hfns, id, hid, some f.name, ty, hget⟩

end AtHome

/-! ## Function bodies -/

/-- The code for the parameters, and their variables. -/
theorem bindParms_writes {P C : Ref → Prop} (parms : List (String × Rtt)) (i : Nat)
    (vars : List FunVar) {s : St} (hP : OfBlock P s) (harg : ∀ j, P (.arg fn j))
    (hlt : s.block < s.graph.size) :
    Writes P C s (bindParms fn parms i vars s).2 ∧
      ∀ v ∈ (bindParms fn parms i vars s).1, v ∈ vars ∨ ∃ k ty, v.v.ref = .inst ⟨s.block, k⟩ ∧
        (bindParms fn parms i vars s).2.graph.at? ⟨s.block, k⟩ = some (.alloca ty) := by
  induction parms generalizing i vars s with
  | nil => exact ⟨.refl s, fun v hv => .inl hv⟩
  | cons p parms ih =>
    obtain ⟨name, t⟩ := p
    have halloca : Writes P C s (s.emit (.alloca t.l)) := .emit s fun _ h => nomatch h
    have hstore : Writes P C (s.emit (.alloca t.l))
        ((s.emit (.alloca t.l)).emit (.store ⟨.arg fn i, t.l⟩ ⟨.inst s.here, .ptr t.l⟩)) :=
      .emit _ (List.forall_mem_cons.2 ⟨harg i, List.forall_mem_singleton.2 (hP _)⟩)
    have hboth := halloca.trans hstore
    have hlt₁ : (s.emit (.alloca t.l)).block < (s.emit (.alloca t.l)).graph.size := by
      rw [St.emit, St.block_emitAll, St.emitAll, Cfg.size_append]
      exact hlt
    have hblock : ((s.emit (.alloca t.l)).emit
        (.store ⟨.arg fn i, t.l⟩ ⟨.inst s.here, .ptr t.l⟩)).block = s.block := by
      rw [St.emit, St.block_emitAll, St.emit, St.block_emitAll]
    have hsize : s.block < ((s.emit (.alloca t.l)).emit
        (.store ⟨.arg fn i, t.l⟩ ⟨.inst s.here, .ptr t.l⟩)).graph.size := by
      simpa [St.emit, St.emitAll] using hlt
    obtain ⟨hrest, hvars⟩ := ih (i + 1) (⟨name, ⟨.inst s.here, .ptr t.l⟩, t.t⟩ :: vars)
      (hboth.ofBlock hP) (hblock ▸ hsize)
    refine ⟨hboth.trans hrest, fun v hv => ?_⟩
    rcases hvars v hv with hv | ⟨k, ty, hk, hat⟩
    · rcases List.mem_cons.1 hv with rfl | hv
      · refine .inr ⟨s.here.idx, t.l, rfl, ?_⟩
        exact (hstore.trans hrest).sub hlt₁ s.here _ (Cfg.at?_append_endOf s.graph hlt _ [])
      · exact .inl hv
    · rw [hblock] at hk hat
      exact .inr ⟨k, ty, hk, hat⟩

/-- A function without parameters that is entered. -/
theorem entryState_home (f : Fun) (sameMod : Bool) (ho : Owned s) :
    AtHome s.fns.length { entryState f sameMod s with
      curfn := some [[]], curllvmfn := some s.fns.length } := by
  have hgraph := entryState_graph f sameMod s
  have hfns : ∃ name ty,
      (entryState f sameMod s).fns = s.fns ++ [⟨(entryState f sameMod s).mod, name, ty⟩] := by
    cases sameMod <;> exact ⟨_, _, rfl⟩
  obtain ⟨name, ty, hfns⟩ := hfns
  have hlt : s.fns.length < (entryState f sameMod s).fns.length := by
    rw [hfns, List.length_append]
    exact Nat.lt_succ_self _
  have only : ∀ b fn, (s.graph.fresh s.fns.length).owner? b = some fn →
      fn < s.fns.length ∨ b = s.graph.size ∧ fn = s.fns.length :=
    fun b fn hb => (Cfg.owner?_fresh_cases _ hb).imp_left (ho.2 b fn)
  refine ⟨⟨fun fn hfn => ?_, fun b fn hb => ?_⟩, rfl, ⟨name, ty, ?_⟩, ?_, fun b hb i hi => ?_,
    fun scopes hs vars hv v hm => ?_⟩
  · exact Option.some_inj.1 hfn ▸ hlt
  · rw [hgraph] at hb
    rcases only b fn hb with h | ⟨-, rfl⟩
    · exact h.trans hlt
    · exact hlt
  · show (entryState f sameMod s).fns[s.fns.length]? = _
    rw [hfns]
    exact List.getElem?_concat_length
  · show (entryState f sameMod s).graph.owner? (entryState f sameMod s).block = _
    rw [hgraph, entryState_block]
    exact Cfg.owner?_fresh_self _ _
  · rw [hgraph] at hb hi
    rcases only b _ hb with h | ⟨rfl, -⟩
    · exact absurd h (Nat.lt_irrefl _)
    · rw [Cfg.code_fresh, Cfg.code_of_size_le _ le_rfl] at hi
      cases hi
  · cases hs
    cases List.mem_singleton.1 hv
    cases hm

/-- A function that is entered is at home, its parameters included. -/
theorem enterFunction_home (f : Fun) (sameMod : Bool) (ho : Owned s) :
    AtHome s.fns.length (enterFunction f sameMod s) := by
  have hentry := entryState_home f sameMod ho
  obtain ⟨⟨is, heq, his⟩, hvars⟩ := bindParms_writes (s := entryState f sameMod s)
    (C := Callable { entryState f sameMod s with curfn := some [[]], curllvmfn := some s.fns.length })
    f.parms 0 [] hentry.ofBlock (fun _ => rfl) hentry.building.lt
  have hparms := hentry.writes ⟨is, rfl, his⟩
  rw [enterFunction_of_parms heq]
  refine (hparms.home.scopes fun scopes hs vars hv v hm => ?_).home
  cases hs
  obtain rfl := List.mem_singleton.1 hv
  rcases hvars v hm with hv | ⟨k, ty, hk, hat⟩
  · cases hv
  · rw [heq] at hat
    exact ⟨_, ty, hk, owner_extends hentry.block hparms.extends_, hat⟩

end Dolorem.Codegen
