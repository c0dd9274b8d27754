import Dolorem.Codegen.Eval
import Dolorem.Lib.Arena
import Mathlib.Data.List.Forall2

/-!
# Scopes

The scopes of the function being compiled are linked lists that `funbody`,
`scope` and `add_variable` change through the global variable `curfn`. The
second half of this module follows them pointer by pointer (`ScopeHeap`), the
first half is what they stand for: a stack of environments (`EnvStack`). `sim_step`
says that each step of the one is a step of the other, and `lookup_sim` that
`lookup_in_fun_scope`, with its comparison of hashed names first, finds what the
stack of environments says.
-/

namespace Dolorem.Codegen

/-- What evaluation does to scopes. The bodies of functions and the scopes are
nested in each other. -/
inductive ScopeEvent where
  | startFunction (parms : List FunVar)
  | endFunction
  | openScope
  | closeScope
  | add (v : FunVar)
deriving DecidableEq, Repr

/-! ## A stack of environments -/

/-- What is open: the outermost scope of a function, a scope in it, or a `scope`
outside of all functions, which has no variables. -/
inductive Open where
  | function (vars : List FunVar)
  | scope (vars : List FunVar)
  | free
deriving DecidableEq, Repr

/-- Everything that is open, innermost first. In a scope the latest variable
comes first. -/
abbrev EnvStack := List Open

namespace EnvStack

/-- The scope chain of the current function. -/
def chain : EnvStack → Option (List (List FunVar))
  | [] => none
  | .free :: k => chain k
  | .function vars :: _ => some [vars]
  | .scope vars :: k => (chain k).map (vars :: ·)

def step : ScopeEvent → EnvStack → Option EnvStack
  | .startFunction parms, k => some (.function parms.reverse :: k)
  | .endFunction, .function _ :: k => some k
  | .openScope, k => some ((if (chain k).isSome then .scope [] else .free) :: k)
  | .closeScope, .scope _ :: k | .closeScope, .free :: k => some k
  | .add v, .function vars :: k => some (.function (v :: vars) :: k)
  | .add v, .scope vars :: k => some (.scope (v :: vars) :: k)
  | _, _ => none

def run (es : List ScopeEvent) (k : EnvStack) : Option EnvStack :=
  es.foldlM (fun k e => step e k) k

/-- The latest variable of the name in the innermost scope of the current function that has one. -/
def lookup (x : String) (k : EnvStack) : Option FunVar :=
  (chain k).bind fun scopes => lookupInFunScope scopes x

end EnvStack

/-! ## The linked lists -/

/-- `struct funvar`, as a cell. -/
structure VarCell where
  hashedName : Nat
  var : FunVar
  last : Option Nat
deriving DecidableEq, Repr

/-- `struct funscope`. -/
structure ScopeCell where
  vars : Option Nat
  parent : Option Nat
deriving DecidableEq, Repr

/-- A call of `funbody` or `scope` that has not returned, with what it puts back. -/
inductive Call where
  | funbody (prev : Option Nat)
  | scope
  | progn
deriving DecidableEq, Repr

/-- The cells that `get_mem` has returned, `curfn`, and the calls that have not
returned. A `struct fun` is given by its field `scope`. -/
structure ScopeHeap where
  vars : List VarCell
  scopes : List ScopeCell
  funs : List (Option Nat)
  curfn : Option Nat
  calls : List Call
deriving DecidableEq, Repr

namespace ScopeHeap

/-- `curfn->scope`. -/
def current (m : ScopeHeap) : Option Nat := do (← m.funs[← m.curfn]?)

section

variable (hash : String → Nat)

/-- A new `struct funvar` in front of the variables of the scope at `p`. -/
def pushVar (p : Nat) (v : FunVar) (m : ScopeHeap) : Option ScopeHeap := do
  let c ← m.scopes[p]?
  some { m with
    vars := m.vars ++ [⟨hash v.name, v, c.vars⟩]
    scopes := m.scopes.set p { c with vars := some m.vars.length } }

/-- The loop over the parameters in `funbody`. -/
def pushParms (p : Nat) : List FunVar → ScopeHeap → Option ScopeHeap
  | [], m => some m
  | v :: vs, m => do pushParms p vs (← m.pushVar hash p v)

/-- `funbody` up to the evaluation of the body, for a new `struct fun`. -/
def startFunction (parms : List FunVar) (m : ScopeHeap) : Option ScopeHeap := do
  let m' ← pushParms hash m.scopes.length parms
    { m with scopes := m.scopes ++ [⟨none, none⟩], funs := m.funs ++ [some m.scopes.length] }
  some { m' with curfn := some m.funs.length, calls := .funbody m.curfn :: m.calls }

/-- `funbody` after the body. -/
def endFunction (m : ScopeHeap) : Option ScopeHeap :=
  match m.calls with
  | .funbody prev :: calls => some { m with curfn := prev, calls := calls }
  | _ => none

/-- `scope` up to its call of `progn`. -/
def openScope (m : ScopeHeap) : Option ScopeHeap :=
  match m.curfn with
  | none => some { m with calls := .progn :: m.calls }
  | some f => do
    let parent ← m.funs[f]?
    some { m with
      scopes := m.scopes ++ [⟨none, parent⟩]
      funs := m.funs.set f (some m.scopes.length)
      calls := .scope :: m.calls }

/-- `scope` after its call of `progn`. -/
def closeScope (m : ScopeHeap) : Option ScopeHeap :=
  match m.calls with
  | .progn :: calls => some { m with calls := calls }
  | .scope :: calls => do
    let f ← m.curfn
    let c ← m.scopes[← m.current]?
    some { m with funs := m.funs.set f c.parent, calls := calls }
  | _ => none

/-- `add_variable`. -/
def addVariable (v : FunVar) (m : ScopeHeap) : Option ScopeHeap := do
  m.pushVar hash (← m.current) v

def step : ScopeEvent → ScopeHeap → Option ScopeHeap
  | .startFunction parms => startFunction hash parms
  | .endFunction => endFunction
  | .openScope => openScope
  | .closeScope => closeScope
  | .add v => addVariable hash v

def run (es : List ScopeEvent) (m : ScopeHeap) : Option ScopeHeap :=
  es.foldlM (fun m e => step hash e m) m

/-- The inner loop of `lookup_in_fun_scope`: the variables of one scope. -/
def lookupVars (x : String) (m : ScopeHeap) (ptr : Option Nat) : Option (Option FunVar) :=
  Arena.search VarCell.last
    (fun c => some (if c.hashedName = hash x ∧ x = c.var.name then some c.var else none))
    m.vars m.vars.length ptr

/-- `lookup_in_fun_scope curfn`, or null without a function. -/
def lookup (x : String) (m : ScopeHeap) : Option (Option FunVar) :=
  match m.curfn with
  | none => some none
  | some f => do
    Arena.search ScopeCell.parent (fun c => m.lookupVars hash x c.vars) m.scopes m.scopes.length
      (← m.funs[f]?)

end

/-- Before the first form. -/
def init : ScopeHeap := ⟨[], [], [], none, []⟩

end ScopeHeap

/-! ## What the lists stand for -/

section Refinement

variable {hash : String → Nat} {vars vars' : List VarCell} {scopes scopes' : List ScopeCell}
variable {funs funs' : List (Option Nat)} {ptr : Option Nat} {vs : List FunVar} {v : FunVar}
variable {calls : List Call} {c : Option (Nat × Nat)} {k : EnvStack} {m m' : ScopeHeap}
variable {p : Nat} {x : String}

/-- The variables `vs` are stored from `ptr` on, with their hashed names. -/
def Stores (hash : String → Nat) (vars : List VarCell) (ptr : Option Nat) (vs : List FunVar) :
    Prop :=
  ∃ cells, Arena.Chain VarCell.last vars ptr cells ∧ cells.map VarCell.var = vs ∧
    ∀ c ∈ cells, c.hashedName = hash c.var.name

theorem Stores.nil : Stores hash vars none [] :=
  ⟨[], .nil, rfl, fun _ h => nomatch h⟩

theorem Stores.append (h : Stores hash vars ptr vs) (more : List VarCell) :
    Stores hash (vars ++ more) ptr vs := by
  obtain ⟨cells, hc, hmap, hhash⟩ := h
  exact ⟨cells, hc.append more, hmap, hhash⟩

theorem Stores.push (h : Stores hash vars ptr vs) (v : FunVar) :
    Stores hash (vars ++ [⟨hash v.name, v, ptr⟩]) (some vars.length) (v :: vs) := by
  obtain ⟨cells, hc, rfl, hhash⟩ := h
  exact ⟨_, hc.push rfl, rfl, List.forall_mem_cons.2 ⟨rfl, hhash⟩⟩

/-- Comparing the hashed names first makes no difference. -/
theorem findSome?_cells {cells : List VarCell} (h : ∀ c ∈ cells, c.hashedName = hash c.var.name) :
    cells.findSome? (fun c => if c.hashedName = hash x ∧ x = c.var.name then some c.var else none) =
      (cells.map VarCell.var).find? fun v => v.name = x := by
  induction cells with
  | nil => rfl
  | cons c cells ih =>
    obtain ⟨hc, hcs⟩ := List.forall_mem_cons.1 h
    rw [List.findSome?_cons, List.map_cons, List.find?_cons, ih hcs, hc]
    rcases eq_or_ne c.var.name x with rfl | hne
    · simp
    · simp [hne, hne.symm]

/-- The loop over the variables of a scope. -/
theorem Stores.lookupVars (h : Stores hash m.vars ptr vs) (x : String) :
    m.lookupVars hash x ptr = some (vs.find? fun v => v.name = x) := by
  obtain ⟨cells, hc, rfl, hhash⟩ := h
  rw [← findSome?_cells hhash]
  have hall : cells.map (fun c =>
        some (if c.hashedName = hash x ∧ x = c.var.name then some c.var else none)) =
      (cells.map fun c =>
        if c.hashedName = hash x ∧ x = c.var.name then some c.var else none).map some :=
    (List.map_map ..).symm
  have hloop := Arena.search_of_chain hc hall hc.length_le_length
  rw [List.findSome?_map] at hloop
  exact hloop

/-- The pointers `c`, a function and its scope, and the calls stand for the environments `k`. -/
inductive Tracks (hash : String → Nat) (vars : List VarCell) (scopes : List ScopeCell)
    (funs : List (Option Nat)) : Option (Nat × Nat) → List Call → EnvStack → Prop
  | nil : Tracks hash vars scopes funs none [] []
  | free {calls : List Call} {k : EnvStack} :
      Tracks hash vars scopes funs none calls k →
      Tracks hash vars scopes funs none (.progn :: calls) (.free :: k)
  | function {c : Option (Nat × Nat)} {calls : List Call} {k : EnvStack} {f p : Nat}
      {vp : Option Nat} {vs : List FunVar} :
      Tracks hash vars scopes funs c calls k →
      (∀ g q, c = some (g, q) → funs[g]? = some (some q) ∧ g < f ∧ q < p) →
      scopes[p]? = some ⟨vp, none⟩ → Stores hash vars vp vs →
      Tracks hash vars scopes funs (some (f, p)) (.funbody (c.map Prod.fst) :: calls)
        (.function vs :: k)
  | scope {calls : List Call} {k : EnvStack} {f p q : Nat} {vp : Option Nat} {vs : List FunVar} :
      Tracks hash vars scopes funs (some (f, q)) calls k → q < p →
      scopes[p]? = some ⟨vp, some q⟩ → Stores hash vars vp vs →
      Tracks hash vars scopes funs (some (f, p)) (.scope :: calls) (.scope vs :: k)

namespace Tracks

/-- Variables that are allocated later, scopes above the current one and functions from the
current one on do not matter. -/
theorem mono (h : Tracks hash vars scopes funs c calls k) (more : List VarCell)
    (hs : ∀ f p, c = some (f, p) → (∀ q, q ≤ p → scopes'[q]? = scopes[q]?) ∧
      ∀ g, g < f → funs'[g]? = funs[g]?) :
    Tracks hash (vars ++ more) scopes' funs' c calls k := by
  induction h with
  | nil => exact .nil
  | free _ ih => exact .free (ih fun _ _ hc => nomatch hc)
  | @function c _ _ f p _ _ _ hc hp hvs ih =>
    obtain ⟨hsc, hfn⟩ := hs f p rfl
    refine .function (ih fun g q hgq => ?_) (fun g q hgq => ?_) ((hsc p le_rfl).trans hp)
      (hvs.append more)
    · obtain ⟨-, hg, hq⟩ := hc g q hgq
      exact ⟨fun q' hq' => hsc q' (hq'.trans hq.le), fun g' hg' => hfn g' (hg'.trans hg)⟩
    · obtain ⟨hfun, hg, hq⟩ := hc g q hgq
      exact ⟨(hfn g hg).trans hfun, hg, hq⟩
  | @scope _ _ f p q _ _ _ hq hp hvs ih =>
    obtain ⟨hsc, hfn⟩ := hs f p rfl
    refine .scope (ih fun g q' hgq => ?_) hq ((hsc p le_rfl).trans hp) (hvs.append more)
    cases hgq
    exact ⟨fun q' hq' => hsc q' (hq'.trans hq.le), hfn⟩

/-- Outside of all functions there is no scope chain. -/
theorem chain_none (h : Tracks hash vars scopes funs none calls k) : k.chain = none := by
  generalize hc : (none : Option (Nat × Nat)) = c at h
  induction h with
  | nil => rfl
  | free _ ih => exact ih hc
  | function => cases hc
  | scope => cases hc

/-- The scope chain of the current function, as it is stored. -/
theorem chain_some {f p : Nat} (h : Tracks hash vars scopes funs (some (f, p)) calls k) :
    ∃ cells chain, k.chain = some chain ∧ Arena.Chain ScopeCell.parent scopes (some p) cells ∧
      List.Forall₂ (fun c vs => Stores hash vars c.vars vs) cells chain := by
  generalize hc : some (f, p) = c at h
  induction h generalizing p with
  | nil => cases hc
  | free => cases hc
  | @function _ _ _ _ _ vp vs _ _ hp hvs _ =>
    cases hc
    exact ⟨[⟨vp, none⟩], [vs], rfl, .cons hp (fun _ h => nomatch h) .nil, .cons hvs .nil⟩
  | @scope _ k _ _ q vp vs _ hq hp hvs ih =>
    cases hc
    obtain ⟨cells, chain, hk, hcells, hall⟩ := ih rfl
    refine ⟨⟨vp, some q⟩ :: cells, vs :: chain, ?_, .cons hp (fun q' h => ?_) hcells,
      .cons hvs hall⟩
    · show (k.chain).map (vs :: ·) = _
      rw [hk]
      rfl
    · cases h
      exact hq

end Tracks

/-- The heap `m` stands for the environments `k`. -/
def Sim (hash : String → Nat) (m : ScopeHeap) (k : EnvStack) : Prop :=
  ∃ c, Tracks hash m.vars m.scopes m.funs c m.calls k ∧ m.curfn = c.map Prod.fst ∧
    ∀ f p, c = some (f, p) → m.funs[f]? = some (some p)

/-- `lookup_in_fun_scope` finds what the environments say. -/
theorem lookup_sim (h : Sim hash m k) (x : String) : m.lookup hash x = some (k.lookup x) := by
  obtain ⟨c, ht, hcur, hfun⟩ := h
  unfold ScopeHeap.lookup EnvStack.lookup
  rw [hcur]
  match c, ht with
  | none, ht =>
    rw [ht.chain_none]
    rfl
  | some (f, p), ht =>
    obtain ⟨cells, chain, hk, hcells, hall⟩ := ht.chain_some
    have hvars : cells.map (fun c => m.lookupVars hash x c.vars) =
        (chain.map fun vs => vs.find? fun v => v.name = x).map some := by
      rw [List.map_map, ← List.forall₂_eq_eq_eq, List.forall₂_map_left_iff,
        List.forall₂_map_right_iff]
      exact hall.imp fun _ _ h => h.lookupVars x
    have hloop := Arena.search_of_chain hcells hvars hcells.length_le_length
    rw [List.findSome?_map] at hloop
    rw [hk]
    show (m.funs[f]?).bind _ = _
    rw [hfun f p rfl]
    exact hloop

/-! ## Steps -/

/-- What adding the variables `new` to the scope at `p` does, the last one first. -/
structure Pushed (hash : String → Nat) (p : Nat) (vs : List FunVar) (m m' : ScopeHeap) : Prop where
  vars : ∃ more, m'.vars = m.vars ++ more
  scope : ∀ vp parent, m.scopes[p]? = some ⟨vp, parent⟩ →
    ∃ vp', m'.scopes[p]? = some ⟨vp', parent⟩ ∧
      ∀ old, Stores hash m.vars vp old → Stores hash m'.vars vp' (vs ++ old)
  others : ∀ q, q ≠ p → m'.scopes[q]? = m.scopes[q]?
  funs : m'.funs = m.funs
  curfn : m'.curfn = m.curfn
  calls : m'.calls = m.calls

theorem Pushed.refl (m : ScopeHeap) : Pushed hash p [] m m :=
  ⟨⟨[], (List.append_nil _).symm⟩, fun vp _ h => ⟨vp, h, fun _ hold => hold⟩, fun _ _ => rfl,
    rfl, rfl, rfl⟩

theorem Pushed.trans {ws : List FunVar} {m₁ : ScopeHeap} (h : Pushed hash p vs m m₁)
    (k : Pushed hash p ws m₁ m') : Pushed hash p (ws ++ vs) m m' where
  vars := by
    obtain ⟨more, hm⟩ := h.vars
    obtain ⟨more', hm'⟩ := k.vars
    exact ⟨more ++ more', by rw [hm', hm, List.append_assoc]⟩
  scope vp parent hp := by
    obtain ⟨vp₁, hp₁, hstore⟩ := h.scope vp parent hp
    obtain ⟨vp₂, hp₂, hstore'⟩ := k.scope vp₁ parent hp₁
    exact ⟨vp₂, hp₂, fun old hold => by
      rw [List.append_assoc]
      exact hstore' _ (hstore old hold)⟩
  others q hq := (k.others q hq).trans (h.others q hq)
  funs := k.funs.trans h.funs
  curfn := k.curfn.trans h.curfn
  calls := k.calls.trans h.calls

theorem pushVar_ok {vp parent : Option Nat} (hp : m.scopes[p]? = some ⟨vp, parent⟩) (v : FunVar) :
    ∃ m', m.pushVar hash p v = some m' ∧ Pushed hash p [v] m m' := by
  have hlt := (List.getElem?_eq_some_iff.1 hp).1
  refine ⟨{ m with vars := m.vars ++ [⟨hash v.name, v, vp⟩],
                   scopes := m.scopes.set p ⟨some m.vars.length, parent⟩ },
    by rw [ScopeHeap.pushVar, hp]; rfl, ⟨_, rfl⟩, fun vp' parent' h => ?_, fun q hq => ?_,
    rfl, rfl, rfl⟩
  · cases hp.symm.trans h
    exact ⟨some m.vars.length, List.getElem?_set_self hlt, fun old hold => hold.push v⟩
  · exact List.getElem?_set_ne hq.symm

theorem pushParms_ok {vp parent : Option Nat} (hp : m.scopes[p]? = some ⟨vp, parent⟩)
    (parms : List FunVar) :
    ∃ m', m.pushParms hash p parms = some m' ∧ Pushed hash p parms.reverse m m' := by
  induction parms generalizing m vp with
  | nil => exact ⟨m, rfl, .refl m⟩
  | cons v vs ih =>
    obtain ⟨m₁, hm₁, h₁⟩ : ∃ m', m.pushVar hash p v = some m' ∧ Pushed hash p [v] m m' :=
      pushVar_ok hp v
    obtain ⟨vp₁, hp₁, -⟩ := h₁.scope vp parent hp
    obtain ⟨m₂, hm₂, h₂⟩ := ih hp₁
    refine ⟨m₂, by rw [ScopeHeap.pushParms, hm₁]; exact hm₂, ?_⟩
    rw [List.reverse_cons]
    exact h₁.trans h₂

/-- Variables for the current scope. -/
theorem Tracks.push {f : Nat} {vs' : List FunVar} {below : EnvStack} {o : List FunVar → Open}
    (ho : o = .function ∨ o = .scope)
    (h : Tracks hash m.vars m.scopes m.funs (some (f, p)) calls (o vs' :: below))
    (hpush : Pushed hash p vs m m') :
    Tracks hash m'.vars m'.scopes m'.funs (some (f, p)) calls (o (vs ++ vs') :: below) := by
  obtain ⟨more, hmore⟩ := hpush.vars
  rw [hmore, hpush.funs]
  rcases ho with rfl | rfl
  · cases h with
    | function hbelow hc hp hvs =>
      obtain ⟨vp', hp', hstore⟩ := hpush.scope _ _ hp
      rw [hmore] at hstore
      refine .function (hbelow.mono more fun g q hgq => ⟨fun q' hq' => ?_, fun _ _ => rfl⟩) hc hp'
        (hstore _ hvs)
      exact hpush.others q' (Nat.ne_of_lt (hq'.trans_lt (hc g q hgq).2.2))
  · cases h with
    | scope hbelow hq hp hvs =>
      obtain ⟨vp', hp', hstore⟩ := hpush.scope _ _ hp
      rw [hmore] at hstore
      refine .scope (hbelow.mono more fun g q hgq => ⟨fun q' hq' => ?_, fun _ _ => rfl⟩) hq hp'
        (hstore _ hvs)
      cases hgq
      exact hpush.others q' (Nat.ne_of_lt (hq'.trans_lt hq))

theorem current_of_sim {f : Nat} (hcur : m.curfn = some f) (hfun : m.funs[f]? = some (some p)) :
    m.current = some p := by
  unfold ScopeHeap.current
  rw [hcur]
  show (m.funs[f]?).bind _ = _
  rw [hfun]
  rfl

/-- Variables for the current scope, in the heap. -/
theorem Sim.pushed {f : Nat} {vs' : List FunVar} {below : EnvStack} {o : List FunVar → Open}
    (ho : o = .function ∨ o = .scope)
    (ht : Tracks hash m.vars m.scopes m.funs (some (f, p)) m.calls (o vs' :: below))
    (hcur : m.curfn = some f) (hfun : m.funs[f]? = some (some p)) (hpush : Pushed hash p vs m m') :
    Sim hash m' (o (vs ++ vs') :: below) := by
  refine ⟨some (f, p), ?_, hpush.curfn.trans hcur, fun g q hgq => ?_⟩
  · rw [hpush.calls]
    exact ht.push ho hpush
  · cases hgq
    rw [hpush.funs, hfun]

theorem sim_add (h : Sim hash m k) (v : FunVar) :
    Option.Rel (Sim hash) (m.addVariable hash v) (EnvStack.step (.add v) k) := by
  obtain ⟨c, ht, hcur, hfun⟩ := h
  have hin : ∀ {f p vp parent}, c = some (f, p) → m.scopes[p]? = some ⟨vp, parent⟩ →
      ∃ m', m.addVariable hash v = some m' ∧ Pushed hash p [v] m m' := by
    intro f p vp parent hc hp
    subst hc
    have hadd : m.addVariable hash v = m.pushVar hash p v := by
      unfold ScopeHeap.addVariable
      rw [current_of_sim hcur (hfun f p rfl)]
      rfl
    rw [hadd]
    exact pushVar_ok hp v
  have hout : c = none → m.addVariable hash v = none := by
    intro hc
    subst hc
    unfold ScopeHeap.addVariable ScopeHeap.current
    rw [hcur]
    rfl
  generalize hcalls : m.calls = calls at ht
  cases ht with
  | nil =>
    rw [hout rfl]
    exact .none
  | free =>
    rw [hout rfl]
    exact .none
  | function hbelow hc hp hvs =>
    obtain ⟨m', hm', hpush⟩ := hin rfl hp
    rw [hm']
    refine .some (Sim.pushed (.inl rfl) ?_ hcur (hfun _ _ rfl) hpush)
    rw [hcalls]
    exact .function hbelow hc hp hvs
  | scope hbelow hq hp hvs =>
    obtain ⟨m', hm', hpush⟩ := hin rfl hp
    rw [hm']
    refine .some (Sim.pushed (.inr rfl) ?_ hcur (hfun _ _ rfl) hpush)
    rw [hcalls]
    exact .scope hbelow hq hp hvs

theorem Tracks.lt_length {f : Nat} (h : Tracks hash vars scopes funs (some (f, p)) calls k) :
    p < scopes.length := by
  cases h with
  | function _ _ hp _ => exact (List.getElem?_eq_some_iff.1 hp).1
  | scope _ _ hp _ => exact (List.getElem?_eq_some_iff.1 hp).1

theorem sim_startFunction (h : Sim hash m k) (parms : List FunVar) :
    Option.Rel (Sim hash) (m.startFunction hash parms) (EnvStack.step (.startFunction parms) k) := by
  obtain ⟨c, ht, hcur, hfun⟩ := h
  obtain ⟨m', hm', hpush⟩ : ∃ m', ScopeHeap.pushParms hash m.scopes.length parms
      { m with scopes := m.scopes ++ [⟨none, none⟩], funs := m.funs ++ [some m.scopes.length] } =
        some m' ∧ Pushed hash m.scopes.length parms.reverse _ m' :=
    pushParms_ok List.getElem?_concat_length parms
  obtain ⟨vp, hp, hstore⟩ := hpush.scope none none List.getElem?_concat_length
  have hvs := hstore [] .nil
  rw [List.append_nil] at hvs
  obtain ⟨more, hmore⟩ := hpush.vars
  have hrun : m.startFunction hash parms = some
      { m' with curfn := some m.funs.length, calls := .funbody m.curfn :: m.calls } := by
    unfold ScopeHeap.startFunction
    rw [hm']
    rfl
  rw [hrun, hcur]
  have hlt : ∀ g q, c = some (g, q) → g < m.funs.length ∧ q < m.scopes.length := by
    intro g q hgq
    subst hgq
    exact ⟨(List.getElem?_eq_some_iff.1 (hfun g q rfl)).1, ht.lt_length⟩
  refine .some ⟨some (m.funs.length, m.scopes.length), .function ?_ (fun g q hgq => ?_) hp hvs, rfl,
    fun g q hgq => ?_⟩
  · show Tracks hash m'.vars m'.scopes m'.funs c m.calls k
    rw [hmore]
    refine ht.mono more fun g q hgq => ⟨fun q' hq' => ?_, fun g' hg' => ?_⟩
    · have hq := hq'.trans_lt (hlt g q hgq).2
      exact (hpush.others q' (Nat.ne_of_lt hq)).trans (List.getElem?_append_left hq)
    · rw [hpush.funs]
      exact List.getElem?_append_left (hg'.trans (hlt g q hgq).1)
  · refine ⟨?_, hlt g q hgq⟩
    show m'.funs[g]? = _
    rw [hpush.funs]
    exact (List.getElem?_append_left (hlt g q hgq).1).trans (hfun g q hgq)
  · cases hgq
    show m'.funs[m.funs.length]? = _
    rw [hpush.funs]
    exact List.getElem?_concat_length

theorem sim_endFunction (h : Sim hash m k) :
    Option.Rel (Sim hash) m.endFunction (EnvStack.step .endFunction k) := by
  obtain ⟨c, ht, hcur, hfun⟩ := h
  generalize hcalls : m.calls = calls at ht
  unfold ScopeHeap.endFunction
  rw [hcalls]
  cases ht with
  | nil => exact .none
  | free => exact .none
  | scope => exact .none
  | function hbelow hc _ _ =>
    exact .some ⟨_, hbelow, rfl, fun g q hgq => (hc g q hgq).1⟩

theorem sim_openScope (h : Sim hash m k) :
    Option.Rel (Sim hash) m.openScope (EnvStack.step .openScope k) := by
  obtain ⟨c, ht, hcur, hfun⟩ := h
  show Option.Rel _ _ (some ((if (EnvStack.chain k).isSome then .scope [] else .free) :: k))
  unfold ScopeHeap.openScope
  match c, ht with
  | none, ht =>
    rw [hcur, ht.chain_none]
    exact .some ⟨none, .free ht, rfl, fun _ _ h => nomatch h⟩
  | some (f, p), ht =>
    obtain ⟨cells, chain, hk, -⟩ := ht.chain_some
    rw [hcur, hk]
    show Option.Rel _ ((m.funs[f]?).bind _) _
    rw [hfun f p rfl]
    have hlt := ht.lt_length
    have hf := (List.getElem?_eq_some_iff.1 (hfun f p rfl)).1
    refine .some ⟨some (f, m.scopes.length), .scope ?_ hlt List.getElem?_concat_length .nil, rfl,
      fun g q hgq => ?_⟩
    · have hbelow : Tracks hash (m.vars ++ []) (m.scopes ++ [⟨none, some p⟩])
          (m.funs.set f (some m.scopes.length)) (some (f, p)) m.calls k :=
        ht.mono [] fun g q hgq => by
          cases hgq
          exact ⟨fun q' hq' => List.getElem?_append_left (hq'.trans_lt hlt),
            fun g' hg' => List.getElem?_set_ne (Nat.ne_of_gt hg')⟩
      rwa [List.append_nil] at hbelow
    · cases hgq
      exact List.getElem?_set_self hf

/-- `scope` after its call of `progn`, with a function. -/
theorem closeScope_of_scope {f : Nat} {vp parent : Option Nat} (hcalls : m.calls = .scope :: calls)
    (hcur : m.curfn = some f) (hfun : m.funs[f]? = some (some p))
    (hp : m.scopes[p]? = some ⟨vp, parent⟩) :
    m.closeScope = some { m with funs := m.funs.set f parent, calls := calls } := by
  unfold ScopeHeap.closeScope
  rw [hcalls]
  show (m.curfn).bind _ = _
  rw [current_of_sim hcur hfun, hcur]
  show (m.scopes[p]?).bind _ = _
  rw [hp]
  rfl

theorem sim_closeScope (h : Sim hash m k) :
    Option.Rel (Sim hash) m.closeScope (EnvStack.step .closeScope k) := by
  obtain ⟨c, ht, hcur, hfun⟩ := h
  generalize hcalls : m.calls = calls at ht
  cases ht with
  | nil =>
    unfold ScopeHeap.closeScope
    rw [hcalls]
    exact .none
  | function =>
    unfold ScopeHeap.closeScope
    rw [hcalls]
    exact .none
  | free hbelow =>
    unfold ScopeHeap.closeScope
    rw [hcalls]
    exact .some ⟨none, hbelow, hcur, fun _ _ h => nomatch h⟩
  | @scope calls k f p q vp vs hbelow hq hp hvs =>
    have hf := (List.getElem?_eq_some_iff.1 (hfun f p rfl)).1
    rw [closeScope_of_scope hcalls hcur (hfun f p rfl) hp]
    refine .some ⟨some (f, q), ?_, hcur, fun g q' hgq => ?_⟩
    · have hmono : Tracks hash (m.vars ++ []) m.scopes (m.funs.set f (some q)) (some (f, q))
          calls k :=
        hbelow.mono [] fun g q' hgq => by
          cases hgq
          exact ⟨fun _ _ => rfl, fun g' hg' => List.getElem?_set_ne (Nat.ne_of_gt hg')⟩
      rwa [List.append_nil] at hmono
    · cases hgq
      exact List.getElem?_set_self hf

/-- A step of the heap is a step of the environments. -/
theorem sim_step (h : Sim hash m k) (e : ScopeEvent) :
    Option.Rel (Sim hash) (m.step hash e) (EnvStack.step e k) := by
  cases e with
  | startFunction parms => exact sim_startFunction h parms
  | endFunction => exact sim_endFunction h
  | openScope => exact sim_openScope h
  | closeScope => exact sim_closeScope h
  | add v => exact sim_add h v

/-! ## Runs -/

/-- A whole run of the heap is one of the environments. -/
theorem sim_run (h : Sim hash m k) (es : List ScopeEvent) :
    Option.Rel (Sim hash) (m.run hash es) (k.run es) := by
  induction es generalizing m k with
  | nil => exact .some h
  | cons e es ih =>
    show Option.Rel _ ((m.step hash e).bind _) ((k.step e).bind _)
    have hstep := sim_step h e
    generalize m.step hash e = r, k.step e = r' at hstep
    cases hstep with
    | none => exact .none
    | some h' => exact ih h'

theorem sim_init : Sim hash .init [] :=
  ⟨none, .nil, rfl, fun _ _ h => nomatch h⟩

/-! ## What a scope leaves behind -/

/-- What can happen between the opening of a scope or a function and its end. -/
inductive Body : List ScopeEvent → Prop
  | nil : Body []
  | add (v : FunVar) {es : List ScopeEvent} : Body es → Body (.add v :: es)
  | scope {body es : List ScopeEvent} :
      Body body → Body es → Body (.openScope :: body ++ .closeScope :: es)
  | function (parms : List FunVar) {body es : List ScopeEvent} :
      Body body → Body es → Body (.startFunction parms :: body ++ .endFunction :: es)

/-- Everything that was there is there again, as it was. -/
structure Restored (m m' : ScopeHeap) : Prop where
  curfn : m'.curfn = m.curfn
  calls : m'.calls = m.calls
  vars : m.vars <+: m'.vars
  scopes : m.scopes <+: m'.scopes
  funs : m.funs <+: m'.funs

/-- Only the variables of the current scope may have changed. -/
structure KeptBelow (m m' : ScopeHeap) : Prop where
  curfn : m'.curfn = m.curfn
  calls : m'.calls = m.calls
  vars : m.vars <+: m'.vars
  scopes : ∀ q c, m.scopes[q]? = some c →
    ∃ vp, m'.scopes[q]? = some { c with vars := vp } ∧ (m.current ≠ some q → vp = c.vars)
  funs : m.funs <+: m'.funs

/-- The current function has been allocated. -/
def ScopeHeap.InRange (m : ScopeHeap) : Prop :=
  ∀ f, m.curfn = some f → f < m.funs.length

theorem getElem?_some_of_le {α : Type} {l l' : List α} (h : l <+: l') {n : Nat} {a : α}
    (hn : l[n]? = some a) : l'[n]? = some a := by
  obtain ⟨more, rfl⟩ := h
  rw [List.getElem?_append_left (List.getElem?_eq_some_iff.1 hn).1, hn]

theorem prefix_of_getElem? {α : Type} {l l' : List α}
    (h : ∀ (n : Nat) (a : α), l[n]? = some a → l'[n]? = some a) : l <+: l' :=
  List.prefix_iff_getElem?.2 fun n hn => h n _ (List.getElem?_eq_getElem hn)

namespace KeptBelow

theorem refl (m : ScopeHeap) : KeptBelow m m :=
  ⟨rfl, rfl, List.prefix_rfl, fun _ c h => ⟨c.vars, h, fun _ => rfl⟩, List.prefix_rfl⟩

theorem inRange (h : KeptBelow m m') (hm : m.InRange) : m'.InRange := by
  intro f hf
  exact (hm f (h.curfn ▸ hf)).trans_le h.funs.length_le

/-- The current scope stays the current one. -/
theorem current (h : KeptBelow m m') (hm : m.InRange) : m'.current = m.current := by
  unfold ScopeHeap.current
  rw [h.curfn]
  cases hf : m.curfn with
  | none => rfl
  | some f =>
    show (m'.funs[f]?).bind _ = (m.funs[f]?).bind _
    obtain ⟨more, hmore⟩ := h.funs
    rw [← hmore, List.getElem?_append_left (hm f hf)]

theorem trans {m₁ : ScopeHeap} (h : KeptBelow m m₁) (k : KeptBelow m₁ m') (hm : m.InRange) :
    KeptBelow m m' where
  curfn := k.curfn.trans h.curfn
  calls := k.calls.trans h.calls
  vars := h.vars.trans k.vars
  scopes q c hc := by
    obtain ⟨vp, hvp, hsame⟩ := h.scopes q c hc
    obtain ⟨vp', hvp', hsame'⟩ := k.scopes q _ hvp
    refine ⟨vp', hvp', fun hq => ?_⟩
    rw [hsame' ((h.current hm).symm ▸ hq)]
    exact hsame hq
  funs := h.funs.trans k.funs

end KeptBelow

theorem Restored.kept (h : Restored m m') : KeptBelow m m' :=
  ⟨h.curfn, h.calls, h.vars, fun _ c hc => ⟨c.vars, getElem?_some_of_le h.scopes hc, fun _ => rfl⟩,
    h.funs⟩

theorem KeptBelow.addVariable (h : m.addVariable hash v = some m') : KeptBelow m m' := by
  obtain ⟨p, hp, h⟩ := Option.bind_eq_some_iff.1 h
  obtain ⟨c, hc, h⟩ := Option.bind_eq_some_iff.1 h
  cases h
  refine ⟨rfl, rfl, List.prefix_append .., fun q c' hc' => ?_, List.prefix_rfl⟩
  rcases eq_or_ne p q with rfl | hne
  · cases hc.symm.trans hc'
    exact ⟨some m.vars.length, List.getElem?_set_self (List.getElem?_eq_some_iff.1 hc).1,
      fun hp' => absurd hp hp'⟩
  · exact ⟨c'.vars, (List.getElem?_set_ne hne).trans hc', fun _ => rfl⟩

/-- A scope with a body that keeps the rest. -/
theorem restored_scope {m₁ m₂ : ScopeHeap} (hm : m.InRange) (hopen : m.openScope = some m₁)
    (hbody : m₁.InRange → KeptBelow m₁ m₂) (hclose : m₂.closeScope = some m') : Restored m m' := by
  unfold ScopeHeap.openScope at hopen
  cases hcur : m.curfn with
  | none =>
    rw [hcur] at hopen
    cases hopen
    have hk := hbody fun f hf => nomatch hf
    unfold ScopeHeap.closeScope at hclose
    rw [hk.calls] at hclose
    cases hclose
    refine ⟨hk.curfn.trans hcur.symm, rfl, hk.vars, prefix_of_getElem? fun q c hc => ?_, hk.funs⟩
    obtain ⟨vp, hvp, hsame⟩ := hk.scopes q c hc
    rw [hvp, hsame fun h => nomatch h]
  | some f =>
    rw [hcur] at hopen
    obtain ⟨parent, hparent, hopen⟩ := Option.bind_eq_some_iff.1 hopen
    cases hopen
    have hf := hm f hcur
    have hk := hbody fun g hg => by
      rw [List.length_set]
      cases hg
      exact hf
    have htop : (m.funs.set f (some m.scopes.length))[f]? = some (some m.scopes.length) :=
      List.getElem?_set_self hf
    obtain ⟨vp, hvp, -⟩ := hk.scopes m.scopes.length _ List.getElem?_concat_length
    rw [closeScope_of_scope hk.calls hk.curfn (getElem?_some_of_le hk.funs htop) hvp] at hclose
    cases hclose
    refine ⟨hk.curfn.trans hcur.symm, rfl, hk.vars, prefix_of_getElem? fun q c hc => ?_, ?_⟩
    · have hq := (List.getElem?_eq_some_iff.1 hc).1
      obtain ⟨vp', hvp', hsame⟩ := hk.scopes q c ((List.getElem?_append_left hq).trans hc)
      rw [hvp', hsame fun h => ?_]
      rw [current_of_sim rfl htop] at h
      exact (Nat.ne_of_gt hq) (Option.some.inj h)
    · obtain ⟨more, hmore⟩ := hk.funs
      refine ⟨more, ?_⟩
      show _ = _
      rw [← hmore, List.set_append_left _ _ (by rwa [List.length_set]), List.set_set]
      rw [List.getElem?_eq_getElem hf] at hparent
      cases hparent
      rw [List.set_getElem_self]

/-- A function with a body that keeps the rest. -/
theorem restored_function {m₁ m₂ : ScopeHeap} {parms : List FunVar}
    (hstart : m.startFunction hash parms = some m₁) (hbody : m₁.InRange → KeptBelow m₁ m₂)
    (hend : m₂.endFunction = some m') : Restored m m' := by
  obtain ⟨m₀, hm₀, hpush⟩ : ∃ m', ScopeHeap.pushParms hash m.scopes.length parms
      { m with scopes := m.scopes ++ [⟨none, none⟩], funs := m.funs ++ [some m.scopes.length] } =
        some m' ∧ Pushed hash m.scopes.length parms.reverse _ m' :=
    pushParms_ok List.getElem?_concat_length parms
  unfold ScopeHeap.startFunction at hstart
  rw [hm₀] at hstart
  cases hstart
  have htop : m₀.funs[m.funs.length]? = some (some m.scopes.length) := by
    rw [hpush.funs]
    exact List.getElem?_concat_length
  have hk := hbody fun g hg => by
    cases hg
    exact (List.getElem?_eq_some_iff.1 htop).1
  unfold ScopeHeap.endFunction at hend
  rw [hk.calls] at hend
  cases hend
  obtain ⟨more, hmore⟩ := hpush.vars
  refine ⟨rfl, rfl, .trans ⟨more, hmore.symm⟩ hk.vars, prefix_of_getElem? fun q c hc => ?_,
    .trans ⟨_, hpush.funs.symm⟩ hk.funs⟩
  have hq := (List.getElem?_eq_some_iff.1 hc).1
  have hc₀ : m₀.scopes[q]? = some c :=
    ((hpush.others q (Nat.ne_of_lt hq)).trans (List.getElem?_append_left hq)).trans hc
  obtain ⟨vp', hvp', hsame⟩ := hk.scopes q c hc₀
  have hcurrent : ScopeHeap.current { m₀ with
      curfn := some m.funs.length, calls := .funbody m.curfn :: m.calls } =
        some m.scopes.length := current_of_sim rfl htop
  rw [hcurrent] at hsame
  rw [hvp', hsame fun h => Nat.ne_of_gt hq (Option.some.inj h)]

theorem run_cons {e : ScopeEvent} {es : List ScopeEvent} (h : m.run hash (e :: es) = some m') :
    ∃ m₁, m.step hash e = some m₁ ∧ m₁.run hash es = some m' :=
  Option.bind_eq_some_iff.1 h

theorem run_append {es es' : List ScopeEvent} (h : m.run hash (es ++ es') = some m') :
    ∃ m₁, m.run hash es = some m₁ ∧ m₁.run hash es' = some m' := by
  unfold ScopeHeap.run at h
  rw [List.foldlM_append] at h
  exact Option.bind_eq_some_iff.1 h

/-- Only the variables of the current scope have changed after a body. -/
theorem Body.kept {es : List ScopeEvent} (hb : Body es) (hm : m.InRange)
    (h : m.run hash es = some m') : KeptBelow m m' := by
  induction hb generalizing m m' with
  | nil =>
    cases h
    exact .refl m
  | add v _ ih =>
    obtain ⟨m₁, hadd, h⟩ := run_cons h
    have hk := KeptBelow.addVariable hadd
    exact hk.trans (ih (hk.inRange hm) h) hm
  | scope _ _ ihbody ih =>
    obtain ⟨m₁, hopen, h⟩ := run_cons h
    obtain ⟨m₂, hbody, h⟩ := run_append h
    obtain ⟨m₃, hclose, h⟩ := run_cons h
    have hk := (restored_scope hm hopen (fun hm₁ => ihbody hm₁ hbody) hclose).kept
    exact hk.trans (ih (hk.inRange hm) h) hm
  | function parms _ _ ihbody ih =>
    obtain ⟨m₁, hstart, h⟩ := run_cons h
    obtain ⟨m₂, hbody, h⟩ := run_append h
    obtain ⟨m₃, hend, h⟩ := run_cons h
    have hk := (restored_function hstart (fun hm₁ => ihbody hm₁ hbody) hend).kept
    exact hk.trans (ih (hk.inRange hm) h) hm

theorem Sim.inRange (h : Sim hash m k) : m.InRange := by
  obtain ⟨c, -, hcur, hfun⟩ := h
  intro f hf
  obtain ⟨⟨g, p⟩, rfl, rfl⟩ := Option.map_eq_some_iff.1 (hcur.symm.trans hf)
  exact (List.getElem?_eq_some_iff.1 (hfun g p rfl)).1

/-- What has been restored stands for the same environments. -/
theorem Restored.sim (h : Restored m m') (hs : Sim hash m k) : Sim hash m' k := by
  obtain ⟨c, ht, hcur, hfun⟩ := hs
  refine ⟨c, ?_, h.curfn.trans hcur, fun f p hc => getElem?_some_of_le h.funs (hfun f p hc)⟩
  obtain ⟨more, hmore⟩ := h.vars
  rw [← hmore, h.calls]
  refine ht.mono more fun f p hc => ?_
  subst hc
  have hf := (List.getElem?_eq_some_iff.1 (hfun f p rfl)).1
  obtain ⟨scopes, hscopes⟩ := h.scopes
  obtain ⟨funs, hfuns⟩ := h.funs
  refine ⟨fun q hq => ?_, fun g hg => ?_⟩
  · rw [← hscopes, List.getElem?_append_left (hq.trans_lt ht.lt_length)]
  · rw [← hfuns, List.getElem?_append_left (hg.trans hf)]

/-- A scope form returns with the heap it found. -/
theorem scopeForm_restored {body : List ScopeEvent} (hb : Body body) (hm : m.InRange)
    (h : m.run hash (.openScope :: body ++ [.closeScope]) = some m') : Restored m m' := by
  obtain ⟨m₁, hopen, h⟩ := run_cons h
  obtain ⟨m₂, hbody, h⟩ := run_append h
  obtain ⟨m₃, hclose, h⟩ := run_cons h
  cases h
  exact restored_scope hm hopen (fun hm₁ => hb.kept hm₁ hbody) hclose

end Refinement

end Dolorem.Codegen
