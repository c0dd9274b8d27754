import Dolorem.Codegen.Moves

/-!
# Linking

A finished module is added to the JIT by `addModule`. Before that, every global
value that an instruction of the module has as an operand is registered: its
address is looked up under its name, among the functions and the globals of the
compiler first, then in the JIT and in the program itself, and given to the JIT
as the address of that name.

What `dlsym` knows is a parameter, and `lookup` of LLJIT finds the names that
were defined or registered.
-/

namespace Dolorem.Jit

open Codegen

/-- An operand that mentions a global value: the value itself, or a constant
expression with the value in it. -/
inductive Operand where
  | value (name : String)
  | within (name : String)
deriving DecidableEq, Repr

def Operand.name : Operand → String
  | value x | within x => x

/-- A finished module: its function and the lambdas in it with the addresses they
get, and the operands of its instructions. -/
structure Module where
  name : String
  addr : Nat
  lambdas : List (String × Nat)
  operands : List Operand
deriving DecidableEq, Repr

/-- What the module defines. -/
def Module.defs (m : Module) : List (String × Nat) := (m.name, m.addr) :: m.lambdas

/-- `map_funs` and `map_globals` with the `ptr` of their entries, and the names
the JIT knows. -/
structure Tables where
  funs : List (String × Option Nat)
  globals : List (String × Option Nat)
  dylib : List (String × Nat)
deriving DecidableEq, Repr

/-- A name that `addModule` does not register. -/
def anonymous (name : String) : Bool := "<anonymous-".toList.isPrefixOf name.toList

/-- Assign `ptr`. -/
def setPtr (name : String) (r : Nat) (t : List (String × Option Nat)) : List (String × Option Nat) :=
  t.map fun e => if e.1 = name then (e.1, some r) else e

section

variable (host : String → Option Nat)

/-- The address of an entry whose `ptr` is `ptr`: cached, in the JIT, or in the
program. -/
def address (text name : String) (ptr : Option Nat) (j : Tables) : Except Halt Nat :=
  match ptr with
  | some r => .ok r
  | none =>
    match (j.dylib.lookup name).or (host name) with
    | some r => .ok r
    | none => .error (.error text)

/-- `resolve_sym`. -/
def resolveSym (name : String) (ptr : Option Nat) (j : Tables) : Except Halt (Nat × Tables) := do
  let r ← address host "couldn't resolve function symbol in JIT: \"%s\"" name ptr j
  .ok (r, { j with funs := setPtr name r j.funs })

/-- `lower_resolve_address`. -/
def lowerResolveAddress (name : String) (j : Tables) : Except Halt (Nat × Tables) :=
  match j.funs.lookup name with
  | some ptr => resolveSym host name ptr j
  | none =>
    match j.globals.lookup name with
    | none => .error (.error "attempted to register unknown symbol: \"%s\"")
    | some ptr => do
      let r ← address host "couldn't resolve global symbol in JIT: \"%s\"" name ptr j
      .ok (r, { j with globals := setPtr name r j.globals })

/-- `registerAddress`. A name that is known already is an error, which
`address_registrar` drops. -/
def registerAddress (name : String) (r : Nat) (j : Tables) : Tables :=
  if (j.dylib.lookup name).isSome then j else { j with dylib := (name, r) :: j.dylib }

/-- `address_registrar`. -/
def addressRegistrar (name : String) (j : Tables) : Except Halt Tables := do
  let (r, j) ← lowerResolveAddress host name j
  .ok (registerAddress name r j)

/-- The loops of `addModule` over the operands. -/
def registerOperands : List Operand → Tables → Except Halt Tables
  | [], j => .ok j
  | .value x :: ops, j =>
    if anonymous x then registerOperands ops j
    else do
      let j ← addressRegistrar host x j
      registerOperands ops j
  | .within _ :: ops, j => registerOperands ops j

/-- `addIRModule`: no name is defined twice. -/
def addIRModule (defs : List (String × Nat)) (j : Tables) : Except Halt Tables :=
  if (defs.map (·.1)).Nodup ∧ ∀ d ∈ defs, j.dylib.lookup d.1 = none then
    .ok { j with dylib := defs ++ j.dylib }
  else .error (.error "LLVM error: %s")

/-- `addModule`. -/
def addModule (m : Module) (j : Tables) : Except Halt Tables := do
  let j ← registerOperands host m.operands j
  addIRModule m.defs j

/-- What reaches the tables: declarations, definitions, and calls of functions
while compiling. -/
inductive Form where
  | funproto (name : String)
  | externalGlobal (name : String)
  | defglobal (name : String) (addr : Nat)
  | defun (m : Module)
  | call (name : String)
deriving DecidableEq, Repr

/-- `hashmap_put` of a name that must be new. -/
def enter (text name : String) (t : List (String × Option Nat)) :
    Except Halt (List (String × Option Nat)) :=
  if (t.lookup name).isSome then .error (.error text) else .ok ((name, none) :: t)

/-- `funproto`, `external_global`, `defglobal`, `defun`, and `call_fun_macro`. -/
def step : Form → Tables → Except Halt Tables
  | .funproto name, j => do
    let funs ← enter "function already exists: \"%s\"" name j.funs
    .ok { j with funs := funs }
  | .externalGlobal name, j => do
    let globals ← enter "global already defined: \"%s\"" name j.globals
    .ok { j with globals := globals }
  | .defglobal name addr, j => do
    let globals ← enter "global already defined: \"%s\"" name j.globals
    addIRModule [(name, addr)] { j with globals := globals }
  | .defun m, j => do
    let funs ← enter "function already exists: \"%s\"" m.name j.funs
    addModule host m { j with funs := funs }
  | .call name, j =>
    match j.funs.lookup name with
    | none => .error (.error "unknown function \"%s\"")
    | some ptr => do
      let (_, j) ← resolveSym host name ptr j
      .ok j

end

/-! ## The operands of compiled code -/

/-- `operand_values`. -/
def operandValues : Instr → List Value
  | .prim _ | .alloca _ | .br _ | .retVoid => []
  | .load p => [p]
  | .store v p => [v, p]
  | .cast _ v _ | .not v | .ret v => [v]
  | .bin _ a b | .icmp _ a b | .fcmp _ a b => [a, b]
  | .call f args => args ++ [f]
  | .structGep p _ => [p]
  | .gep p indices => p :: indices
  | .phi _ incoming => incoming.map (·.1)
  | .condBr c _ _ => [c]

/-- The name of a global value. -/
def globalName (s : St) (v : Value) : Option String :=
  match v.ref with
  | .fn id => s.fns[id]?.bind (·.name)
  | .global _ name => some name
  | _ => none

/-- The operands of module `k`, function by function and block by block. -/
def moduleOperands (s : St) (k : Nat) : List Operand := do
  let (lf, fn) ← s.fns.zipIdx
  let b ← if lf.mod = k then s.graph.blocks.filter (·.owner = fn) else []
  let i ← b.code
  let v ← operandValues i
  (globalName s v).toList.map .value

/-! ## What is linked right -/

variable {host : String → Option Nat} {j j' j₁ : Tables} {ds : List (String × Nat)} {m : Module}
  {x y name text : String} {r : Nat} {ptr : Option Nat} {ops : List Operand} {f : Form}

/-- The address of what is called `x`, where `ds` are the definitions so far: that of its
definition, or that in the program. -/
def own (host : String → Option Nat) (ds : List (String × Nat)) (x : String) : Option Nat :=
  (ds.lookup x).or (host x)

/-- `x` is the name of a function or of a global. -/
def Tables.Declares (j : Tables) (x : String) : Prop :=
  (j.funs.lookup x).isSome ∨ (j.globals.lookup x).isSome

instance (j : Tables) (x : String) : Decidable (j.Declares x) :=
  inferInstanceAs (Decidable (_ ∨ _))

/-- `addModule` registers `x`, which occurs among the operands `ops`. -/
def Registers (ops : List Operand) (x : String) : Prop :=
  .value x ∈ ops ∧ anonymous x = false

instance (ops : List Operand) (x : String) : Decidable (Registers ops x) :=
  inferInstanceAs (Decidable (_ ∧ _))

/-- What the form defines. -/
def Form.defs : Form → List (String × Nat)
  | .defglobal x r => [(x, r)]
  | .defun m => m.defs
  | .funproto _ | .externalGlobal _ | .call _ => []

/-- The global values that the instructions of the form refer to. -/
def Form.operands : Form → List Operand
  | .defun m => m.operands
  | .funproto _ | .externalGlobal _ | .defglobal _ _ | .call _ => []

/-- What a form declares or defines is new, what it calls exists, and what its body refers to is a
symbol of the program, defined already, or defined by its own module. -/
def Form.Legal (host : String → Option Nat) (j : Tables) (ds : List (String × Nat)) : Form → Prop
  | .funproto x => j.funs.lookup x = none
  | .externalGlobal x => j.globals.lookup x = none
  | .defglobal x _ => ¬ j.Declares x
  | .defun m => (∀ d ∈ m.defs, ¬ j.Declares d.1) ∧ (∀ d ∈ m.lambdas, anonymous d.1 = true) ∧
      ∀ op ∈ m.operands, (own host (m.defs ++ ds) op.name).isSome
  | .call x => (j.funs.lookup x).isSome ∧ (own host ds x).isSome

/-- The JIT knows none of the names the form defines. What `addModule` registers is declared and is
not the function itself. What it does not register is defined by the module, or known to the JIT. -/
structure Form.Fits (j : Tables) (f : Form) : Prop where
  nodup : (f.defs.map (·.1)).Nodup
  fresh : ∀ d ∈ f.defs, j.dylib.lookup d.1 = none
  declared : ∀ x, Registers f.operands x → (∀ d ∈ f.defs, x ≠ d.1) ∧ j.Declares x
  known : ∀ op ∈ f.operands, ¬ Registers f.operands op.name →
    (f.defs.lookup op.name).isSome ∨ (j.dylib.lookup op.name).isSome

/-- Every name the form refers to is bound to the address of its own definition. -/
def Form.Bound (host : String → Option Nat) (ds : List (String × Nat)) (j' : Tables) (f : Form) :
    Prop :=
  ∀ op ∈ f.operands, ∃ r, own host (f.defs ++ ds) op.name = some r ∧
    j'.dylib.lookup op.name = some r

/-- `P` holds of every form where it stands in the sequence. -/
def Throughout (host : String → Option Nat) (P : Tables → List (String × Nat) → Form → Prop) :
    List Form → Tables → List (String × Nat) → Prop
  | [], _, _ => True
  | f :: fs, j, ds => P j ds f ∧ ∀ j', step host f j = .ok j' → Throughout host P fs j' (f.defs ++ ds)

/-- The sequence completes, and every form is bound. -/
def Linked (host : String → Option Nat) : List Form → Tables → List (String × Nat) → Prop
  | [], _, _ => True
  | f :: fs, j, ds => ∃ j', step host f j = .ok j' ∧ f.Bound host ds j' ∧
      Linked host fs j' (f.defs ++ ds)

/-- Cached addresses and the names the JIT knows agree with the definitions. -/
structure Sound (host : String → Option Nat) (j : Tables) (ds : List (String × Nat)) : Prop where
  funs : ∀ x r, j.funs.lookup x = some (some r) → own host ds x = some r
  globals : ∀ x r, j.globals.lookup x = some (some r) → own host ds x = some r
  dylib : ∀ x r, j.dylib.lookup x = some r → own host ds x = some r
  defs : ∀ x r, ds.lookup x = some r → j.dylib.lookup x = some r

theorem sound_empty (host : String → Option Nat) : Sound host ⟨[], [], []⟩ [] where
  funs _ _ h := by cases h
  globals _ _ h := by cases h
  dylib _ _ h := by cases h
  defs _ _ h := by cases h

/-! ## Tables -/

theorem lookup_setPtr (name : String) (r : Nat) (t : List (String × Option Nat)) (x : String) :
    (setPtr name r t).lookup x = if x = name then (t.lookup x).map fun _ => some r else t.lookup x := by
  induction t with
  | nil => simp [setPtr]
  | cons e t ih =>
    obtain ⟨y, p⟩ := e
    change ((if y = name then (y, some r) else (y, p)) :: setPtr name r t).lookup x = _
    rcases eq_or_ne x y with rfl | hxy
    · split <;> simp_all
    · have hbeq : (x == y) = false := beq_eq_false_iff_ne.2 hxy
      split <;> simp only [List.lookup_cons, hbeq, ih]

theorem setPtr_isSome (name : String) (r : Nat) (t : List (String × Option Nat)) (x : String) :
    ((setPtr name r t).lookup x).isSome = (t.lookup x).isSome := by
  rw [lookup_setPtr]
  split
  · exact Option.isSome_map
  · rfl

theorem setPtr_cached {t : List (String × Option Nat)} {r' : Nat}
    (h : (setPtr name r t).lookup x = some (some r')) :
    (x = name ∧ r = r') ∨ t.lookup x = some (some r') := by
  rw [lookup_setPtr] at h
  split at h
  · next hx =>
    obtain ⟨_, -, hr⟩ := Option.map_eq_some_iff.1 h
    exact .inl ⟨hx, Option.some.inj hr⟩
  · exact .inr h

theorem lookup_new {t : List (String × Option Nat)} (h : ((name, none) :: t).lookup x = some (some r)) :
    t.lookup x = some (some r) := by
  rw [List.lookup_cons] at h
  split at h
  · cases h
  · exact h

theorem lookup_append (ds ds' : List (String × Nat)) (x : String) :
    (ds ++ ds').lookup x = (ds.lookup x).or (ds'.lookup x) :=
  List.lookup_append

/-- A name that is not among the definitions. -/
theorem lookup_eq_none (h : ∀ d ∈ ds, x ≠ d.1) : ds.lookup x = none :=
  List.lookup_eq_none_iff.2 fun d hd => bne_iff_ne.2 (h d hd)

theorem own_of_new {defs : List (String × Nat)} (h : defs.lookup x = none) :
    own host (defs ++ ds) x = own host ds x := by
  rw [own, lookup_append, h, Option.none_or, own]

theorem enter_iff {t t' : List (String × Option Nat)} :
    enter text name t = .ok t' ↔ t.lookup name = none ∧ t' = (name, none) :: t := by
  unfold enter
  cases t.lookup name with
  | some p => simp
  | none => simp [eq_comm]

theorem addIRModule_iff {defs : List (String × Nat)} :
    addIRModule defs j = .ok j' ↔ ((defs.map (·.1)).Nodup ∧ ∀ d ∈ defs, j.dylib.lookup d.1 = none) ∧
      j' = { j with dylib := defs ++ j.dylib } := by
  unfold addIRModule
  split
  · next hfresh => rw [Except.ok.injEq, eq_comm, and_iff_right hfresh]
  · next hfresh => simp only [hfresh, false_and, reduceCtorEq]

/-! ## Looking up an address -/

/-- The address of `x` is cached. -/
def Tables.cache (j : Tables) (x : String) (r : Nat) : Tables :=
  if (j.funs.lookup x).isSome then { j with funs := setPtr x r j.funs }
  else { j with globals := setPtr x r j.globals }

theorem cache_dylib (j : Tables) (x : String) (r : Nat) : (j.cache x r).dylib = j.dylib := by
  unfold Tables.cache
  split <;> rfl

theorem cache_funs (j : Tables) (r : Nat) (h : y ≠ x) :
    (j.cache x r).funs.lookup y = j.funs.lookup y := by
  unfold Tables.cache
  split
  · rw [lookup_setPtr, if_neg h]
  · rfl

theorem cache_globals (j : Tables) (r : Nat) (h : y ≠ x) :
    (j.cache x r).globals.lookup y = j.globals.lookup y := by
  unfold Tables.cache
  split
  · rfl
  · rw [lookup_setPtr, if_neg h]

theorem cache_declares (j : Tables) (x : String) (r : Nat) (y : String) :
    (j.cache x r).Declares y ↔ j.Declares y := by
  unfold Tables.cache Tables.Declares
  split
  · rw [setPtr_isSome]
  · rw [setPtr_isSome]

theorem Sound.cache (h : Sound host j ds) (hr : own host ds x = some r) :
    Sound host (j.cache x r) ds := by
  unfold Tables.cache
  split
  · refine ⟨fun y r' hy => ?_, h.globals, h.dylib, h.defs⟩
    rcases setPtr_cached hy with ⟨rfl, rfl⟩ | hy
    · exact hr
    · exact h.funs y r' hy
  · refine ⟨h.funs, fun y r' hy => ?_, h.dylib, h.defs⟩
    rcases setPtr_cached hy with ⟨rfl, rfl⟩ | hy
    · exact hr
    · exact h.globals y r' hy

/-- What the JIT or else the program knows under a name is its own address. -/
theorem Sound.lookup_or (h : Sound host j ds) (x : String) :
    (j.dylib.lookup x).or (host x) = own host ds x := by
  cases hx : j.dylib.lookup x with
  | some r => exact (h.dylib x r hx).symm
  | none =>
    cases hd : ds.lookup x with
    | none => rw [own, hd]
    | some r =>
      rw [h.defs x r hd] at hx
      cases hx

theorem Sound.address_iff (h : Sound host j ds) (hptr : ∀ r, ptr = some r → own host ds x = some r) :
    address host text x ptr j = .ok r ↔ own host ds x = some r := by
  unfold address
  cases ptr with
  | some r' => simp [hptr r' rfl]
  | none =>
    rw [h.lookup_or]
    cases own host ds x <;> simp

/-- The address is stored where it was missing. -/
theorem bind_address {e : Except Halt Nat} {k : Nat → Tables}
    (he : ∀ r, e = .ok r ↔ own host ds x = some r) :
    (e >>= fun r => .ok (r, k r)) = .ok (r, j') ↔ own host ds x = some r ∧ j' = k r := by
  rw [bind_ok]
  constructor
  · rintro ⟨r', ha, hj⟩
    cases hj
    exact ⟨(he _).1 ha, rfl⟩
  · rintro ⟨hr, rfl⟩
    exact ⟨r, (he r).2 hr, rfl⟩

theorem Sound.resolveSym_iff (h : Sound host j ds) (hf : j.funs.lookup x = some ptr) :
    resolveSym host x ptr j = .ok (r, j') ↔ own host ds x = some r ∧ j' = j.cache x r := by
  have hcache : j.cache x r = { j with funs := setPtr x r j.funs } := by
    rw [Tables.cache, hf]
    rfl
  rw [hcache]
  exact bind_address fun r => h.address_iff fun r' hp => h.funs x r' (hp ▸ hf)

/-- The address that is looked up is that of the definition. -/
theorem Sound.lowerResolveAddress_iff (h : Sound host j ds) :
    lowerResolveAddress host x j = .ok (r, j') ↔
      j.Declares x ∧ own host ds x = some r ∧ j' = j.cache x r := by
  unfold lowerResolveAddress Tables.Declares
  cases hf : j.funs.lookup x with
  | some ptr =>
    have hdecl : (some ptr).isSome ∨ (j.globals.lookup x).isSome := .inl rfl
    rw [and_iff_right hdecl]
    exact h.resolveSym_iff hf
  | none =>
    cases hg : j.globals.lookup x with
    | none => simp
    | some ptr =>
      have hdecl : (none : Option (Option Nat)).isSome ∨ (some ptr).isSome := .inr rfl
      have hcache : j.cache x r = { j with globals := setPtr x r j.globals } := by
        rw [Tables.cache, hf]
        rfl
      rw [and_iff_right hdecl, hcache]
      exact bind_address fun r => h.address_iff fun r' hp => h.globals x r' (hp ▸ hg)

/-! ## Registering -/

theorem lookup_registerAddress (h : Sound host j ds) (hr : own host ds x = some r) (y : String) :
    (registerAddress x r j).dylib.lookup y = if y = x then some r else j.dylib.lookup y := by
  unfold registerAddress
  split
  · next hx =>
    obtain ⟨r', hx⟩ := Option.isSome_iff_exists.1 hx
    split
    · next hy =>
      rw [hy, hx, ← h.dylib x r' hx, hr]
    · rfl
  · rcases eq_or_ne y x with rfl | hy
    · rw [if_pos rfl]
      exact List.lookup_cons_self
    · rw [if_neg hy, List.lookup_cons, beq_eq_false_iff_ne.2 hy]

/-- The names in `R` were registered: the JIT knows their own addresses, and nothing else changed but
what is cached for them. -/
structure Updates (host : String → Option Nat) (ds : List (String × Nat)) (R : String → Prop)
    (j j' : Tables) : Prop where
  sound : Sound host j' ds
  known : ∀ y, R y → j'.dylib.lookup y = own host ds y
  dylib : ∀ y, ¬ R y → j'.dylib.lookup y = j.dylib.lookup y
  funs : ∀ y, ¬ R y → j'.funs.lookup y = j.funs.lookup y
  globals : ∀ y, ¬ R y → j'.globals.lookup y = j.globals.lookup y
  declares : ∀ y, j'.Declares y ↔ j.Declares y

namespace Updates

variable {R R' : String → Prop}

theorem refl (h : Sound host j ds) (hR : ∀ y, ¬ R y) : Updates host ds R j j where
  sound := h
  known y hy := absurd hy (hR y)
  dylib _ _ := rfl
  funs _ _ := rfl
  globals _ _ := rfl
  declares _ := .rfl

theorem trans (h : Updates host ds R j j₁) (k : Updates host ds R' j₁ j') :
    Updates host ds (fun y => R y ∨ R' y) j j' where
  sound := k.sound
  known y hy := by
    by_cases hy' : R' y
    · exact k.known y hy'
    · rw [k.dylib y hy', h.known y (hy.resolve_right hy')]
  dylib y hy := (k.dylib y fun hy' => hy (.inr hy')).trans (h.dylib y fun hy' => hy (.inl hy'))
  funs y hy := (k.funs y fun hy' => hy (.inr hy')).trans (h.funs y fun hy' => hy (.inl hy'))
  globals y hy := (k.globals y fun hy' => hy (.inr hy')).trans
    (h.globals y fun hy' => hy (.inl hy'))
  declares y := (k.declares y).trans (h.declares y)

theorem congr (h : Updates host ds R j j') (hR : ∀ y, R y ↔ R' y) : Updates host ds R' j j' :=
  (funext fun y => propext (hR y) : R = R') ▸ h

end Updates

theorem registerAddress_fields (x : String) (r : Nat) (j : Tables) :
    (registerAddress x r j).funs = j.funs ∧ (registerAddress x r j).globals = j.globals := by
  unfold registerAddress
  split <;> exact ⟨rfl, rfl⟩

theorem Sound.registerAddress (h : Sound host j ds) (hr : own host ds x = some r) :
    Sound host (registerAddress x r j) ds := by
  have hdylib := lookup_registerAddress h hr
  obtain ⟨hfuns, hglobals⟩ := registerAddress_fields x r j
  refine ⟨by rw [hfuns]; exact h.funs, by rw [hglobals]; exact h.globals, fun y r' hy => ?_,
    fun y r' hy => ?_⟩
  · rw [hdylib] at hy
    split at hy
    · next hyx =>
      cases hy
      rw [hyx, hr]
    · exact h.dylib y r' hy
  · rw [hdylib]
    split
    · next hyx =>
      rw [← hr, ← hyx, own, hy, Option.some_or]
    · exact h.defs y r' hy

theorem Sound.addressRegistrar_iff (h : Sound host j ds) :
    addressRegistrar host x j = .ok j' ↔
      j.Declares x ∧ ∃ r, own host ds x = some r ∧ j' = Jit.registerAddress x r (j.cache x r) := by
  unfold addressRegistrar
  rw [bind_ok]
  constructor
  · rintro ⟨⟨r, j₁⟩, ha, hj⟩
    obtain ⟨hd, hr, rfl⟩ := h.lowerResolveAddress_iff.1 ha
    exact ⟨hd, r, hr, (Except.ok.inj hj).symm⟩
  · rintro ⟨hd, r, hr, rfl⟩
    exact ⟨(r, j.cache x r), h.lowerResolveAddress_iff.2 ⟨hd, hr, rfl⟩, rfl⟩

theorem Sound.registered (h : Sound host j ds) (hr : own host ds x = some r) :
    Updates host ds (· = x) j (Jit.registerAddress x r (j.cache x r)) := by
  have hc := h.cache hr
  obtain ⟨hfuns, hglobals⟩ := registerAddress_fields x r (j.cache x r)
  refine ⟨hc.registerAddress hr, fun y hy => ?_, fun y hy => ?_, fun y hy => ?_, fun y hy => ?_,
    fun y => ?_⟩
  · rw [lookup_registerAddress hc hr, if_pos hy, hy, hr]
  · rw [lookup_registerAddress hc hr, if_neg hy, cache_dylib]
  · rw [hfuns, cache_funs j r hy]
  · rw [hglobals, cache_globals j r hy]
  · rw [← cache_declares j x r y, Tables.Declares, Tables.Declares, hfuns, hglobals]

theorem registers_value (h : anonymous x = false) :
    Registers (.value x :: ops) y ↔ y = x ∨ Registers ops y := by
  unfold Registers
  rw [List.mem_cons, Operand.value.injEq]
  constructor
  · rintro ⟨hy | hy, ha⟩
    · exact .inl hy
    · exact .inr ⟨hy, ha⟩
  · rintro (rfl | ⟨hy, ha⟩)
    · exact ⟨.inl rfl, h⟩
    · exact ⟨.inr hy, ha⟩

theorem registers_anonymous (h : anonymous x = true) :
    Registers (.value x :: ops) y ↔ Registers ops y := by
  unfold Registers
  rw [List.mem_cons, Operand.value.injEq]
  constructor
  · rintro ⟨rfl | hy, ha⟩
    · rw [h] at ha
      cases ha
    · exact ⟨hy, ha⟩
  · exact fun hy => ⟨.inr hy.1, hy.2⟩

theorem registers_within : Registers (.within x :: ops) y ↔ Registers ops y := by
  simp [Registers]

theorem not_registers_nil : ¬ Registers [] y :=
  fun h => List.not_mem_nil h.1

/-- The loops over the operands register what is to be registered, and it is all declared. -/
theorem Sound.registerOperands_ok (h : Sound host j ds) (ho : registerOperands host ops j = .ok j') :
    Updates host ds (Registers ops) j j' ∧
      ∀ x, Registers ops x → j.Declares x ∧ (own host ds x).isSome := by
  induction ops generalizing j with
  | nil =>
    cases ho
    exact ⟨.refl h fun _ => not_registers_nil, fun x hx => absurd hx not_registers_nil⟩
  | cons op ops ih =>
    cases op with
    | within x =>
      obtain ⟨hu, hd⟩ := ih h ho
      exact ⟨hu.congr fun _ => registers_within.symm, fun y hy => hd y (registers_within.1 hy)⟩
    | value x =>
      unfold registerOperands at ho
      split at ho
      · next ha =>
        obtain ⟨hu, hd⟩ := ih h ho
        exact ⟨hu.congr fun _ => (registers_anonymous ha).symm,
          fun y hy => hd y ((registers_anonymous ha).1 hy)⟩
      · next ha =>
        have ha : anonymous x = false := Bool.eq_false_iff.2 ha
        obtain ⟨j₁, hx, ho⟩ := bind_ok.1 ho
        obtain ⟨hdecl, r, hr, rfl⟩ := h.addressRegistrar_iff.1 hx
        have hone := h.registered hr
        obtain ⟨hu, hd⟩ := ih hone.sound ho
        refine ⟨(hone.trans hu).congr fun _ => (registers_value ha).symm, fun y hy => ?_⟩
        rcases (registers_value ha).1 hy with rfl | hy
        · exact ⟨hdecl, by rw [hr]; rfl⟩
        · exact ⟨(hone.declares y).1 (hd y hy).1, (hd y hy).2⟩

theorem Sound.registerOperands_of (h : Sound host j ds)
    (hd : ∀ x, Registers ops x → j.Declares x ∧ (own host ds x).isSome) :
    ∃ j', registerOperands host ops j = .ok j' := by
  induction ops generalizing j with
  | nil => exact ⟨j, rfl⟩
  | cons op ops ih =>
    cases op with
    | within x => exact ih h fun y hy => hd y (registers_within.2 hy)
    | value x =>
      unfold registerOperands
      split
      · next ha => exact ih h fun y hy => hd y ((registers_anonymous ha).2 hy)
      · next ha =>
        have ha : anonymous x = false := Bool.eq_false_iff.2 ha
        obtain ⟨hdecl, hown⟩ := hd x ((registers_value ha).2 (.inl rfl))
        obtain ⟨r, hr⟩ := Option.isSome_iff_exists.1 hown
        have hone := h.registered hr
        rw [h.addressRegistrar_iff.2 ⟨hdecl, r, hr, rfl⟩, ok_bind]
        refine ih hone.sound fun y hy => ?_
        obtain ⟨hy₁, hy₂⟩ := hd y ((registers_value ha).2 (.inr hy))
        exact ⟨(hone.declares y).2 hy₁, hy₂⟩

/-! ## One form -/

/-- `hashmap_put` of a new function. -/
def Tables.newFun (j : Tables) (x : String) : Tables := { j with funs := (x, none) :: j.funs }

/-- `hashmap_put` of a new global. -/
def Tables.newGlobal (j : Tables) (x : String) : Tables :=
  { j with globals := (x, none) :: j.globals }

theorem Sound.newFun (h : Sound host j ds) (x : String) : Sound host (j.newFun x) ds where
  funs y r hy := h.funs y r (lookup_new hy)
  globals := h.globals
  dylib := h.dylib
  defs := h.defs

theorem Sound.newGlobal (h : Sound host j ds) (x : String) : Sound host (j.newGlobal x) ds where
  funs := h.funs
  globals y r hy := h.globals y r (lookup_new hy)
  dylib := h.dylib
  defs := h.defs

/-- No address of `x` is cached. -/
def Tables.Uncached (j : Tables) (x : String) : Prop :=
  (∀ r, j.funs.lookup x ≠ some (some r)) ∧ ∀ r, j.globals.lookup x ≠ some (some r)

theorem uncached_of_new (h : ¬ j.Declares x) : j.Uncached x :=
  ⟨fun r hr => h (.inl (by rw [hr]; rfl)), fun r hr => h (.inr (by rw [hr]; rfl))⟩

theorem Tables.Uncached.newFun (h : j.Uncached x) (y : String) : (j.newFun y).Uncached x :=
  ⟨fun r hr => h.1 r (lookup_new hr), h.2⟩

theorem Tables.Uncached.newGlobal (h : j.Uncached x) (y : String) : (j.newGlobal y).Uncached x :=
  ⟨h.1, fun r hr => h.2 r (lookup_new hr)⟩

theorem Updates.uncached {R : String → Prop} (h : Updates host ds R j j') (hx : ¬ R x)
    (hj : j.Uncached x) : j'.Uncached x := by
  unfold Tables.Uncached
  rw [h.funs x hx, h.globals x hx]
  exact hj

/-- Names that no address is cached for are defined. -/
theorem Sound.addDefs {defs : List (String × Nat)} (h : Sound host j ds)
    (hnew : ∀ d ∈ defs, j.Uncached d.1) :
    Sound host { j with dylib := defs ++ j.dylib } (defs ++ ds) := by
  have hcached : ∀ x, ¬ j.Uncached x → defs.lookup x = none := fun x hx =>
    lookup_eq_none fun d hd hxd => hx (hxd ▸ hnew d hd)
  refine ⟨fun x r hx => ?_, fun x r hx => ?_, fun x r hx => ?_, fun x r hx => ?_⟩
  · rw [own_of_new (hcached x fun hu => hu.1 r hx)]
    exact h.funs x r hx
  · rw [own_of_new (hcached x fun hu => hu.2 r hx)]
    exact h.globals x r hx
  · rw [lookup_append] at hx
    rw [own, lookup_append]
    cases hd : defs.lookup x with
    | some r' =>
      rw [hd] at hx
      exact hx
    | none =>
      rw [hd, Option.none_or] at hx
      exact h.dylib x r hx
  · rw [lookup_append] at hx ⊢
    cases hd : defs.lookup x with
    | some r' =>
      rw [hd] at hx
      exact hx
    | none =>
      rw [hd, Option.none_or] at hx
      exact h.defs x r hx

/-- How a definition of a function completes: what it registers is declared and not defined by its own
module, and then the module is added. -/
structure Completes (host : String → Option Nat) (ds : List (String × Nat)) (m : Module)
    (j j₁ j' : Tables) : Prop where
  updates : Updates host ds (Registers m.operands) (j.newFun m.name) j₁
  declared : ∀ x, Registers m.operands x → (j.newFun m.name).Declares x
  nodup : (m.defs.map (·.1)).Nodup
  fresh : ∀ d ∈ m.defs, ¬ Registers m.operands d.1 ∧ j.dylib.lookup d.1 = none
  after : j' = { j₁ with dylib := m.defs ++ j₁.dylib }

theorem newFun_declares : (j.newFun name).Declares x ↔ x = name ∨ j.Declares x := by
  unfold Tables.newFun Tables.Declares
  rw [List.lookup_cons]
  rcases eq_or_ne x name with rfl | hx
  · simp
  · simp [beq_eq_false_iff_ne.2 hx, hx]

theorem Sound.defun_completes (h : Sound host j ds) (hs : step host (.defun m) j = .ok j') :
    ∃ j₁, Completes host ds m j j₁ j' := by
  obtain ⟨funs, hnew, hs⟩ := bind_ok.1 hs
  obtain ⟨-, rfl⟩ := enter_iff.1 hnew
  obtain ⟨j₁, hreg, hadd⟩ := bind_ok.1 hs
  obtain ⟨hu, hd⟩ := (h.newFun m.name).registerOperands_ok hreg
  obtain ⟨⟨hnodup, hfresh⟩, hj'⟩ := addIRModule_iff.1 hadd
  have hnot : ∀ d ∈ m.defs, ¬ Registers m.operands d.1 := by
    intro d hd' hr
    have hsome := (hd d.1 hr).2
    rw [← hu.known d.1 hr, hfresh d hd'] at hsome
    cases hsome
  refine ⟨j₁, hu, fun x hx => (hd x hx).1, hnodup, fun d hd' => ⟨hnot d hd', ?_⟩, hj'⟩
  exact (hu.dylib d.1 (hnot d hd')).symm.trans (hfresh d hd')

/-- What an operand is bound to after the definition. -/
theorem Completes.lookup (h : Completes host ds m j j₁ j') (x : String) :
    j'.dylib.lookup x = (m.defs.lookup x).or (j₁.dylib.lookup x) := by
  rw [h.after]
  exact lookup_append _ _ _

theorem Completes.fits (h : Completes host ds m j j₁ j') (hb : (Form.defun m).Bound host ds j') :
    (Form.defun m).Fits j where
  nodup := h.nodup
  fresh d hd := (h.fresh d hd).2
  declared x hx := by
    have hne : ∀ d ∈ m.defs, x ≠ d.1 := fun d hd hxd => (h.fresh d hd).1 (hxd ▸ hx)
    refine ⟨hne, (newFun_declares.1 (h.declared x hx)).resolve_left ?_⟩
    exact hne _ List.mem_cons_self
  known op hop hr := by
    obtain ⟨r, -, hj'⟩ := hb op hop
    rw [h.lookup, h.updates.dylib _ hr] at hj'
    rcases Option.or_eq_some_iff.1 hj' with hd | ⟨-, hj⟩
    · exact .inl (by rw [Form.defs, hd]; rfl)
    · exact .inr (by rw [show j.dylib = (j.newFun m.name).dylib from rfl, hj]; rfl)

theorem Completes.bound (h : Completes host ds m j j₁ j') (hj : Sound host j ds)
    (hf : (Form.defun m).Fits j)
    (hrefs : ∀ op ∈ m.operands, (own host (m.defs ++ ds) op.name).isSome) :
    (Form.defun m).Bound host ds j' := by
  intro op hop
  obtain ⟨r, hr⟩ := Option.isSome_iff_exists.1 (hrefs op hop)
  refine ⟨r, hr, ?_⟩
  rw [h.lookup]
  cases hd : m.defs.lookup op.name with
  | some r' =>
    rw [own, lookup_append, hd] at hr
    exact hr
  | none =>
    rw [own_of_new hd] at hr
    rw [Option.none_or]
    by_cases hreg : Registers m.operands op.name
    · rw [h.updates.known _ hreg, hr]
    · rw [h.updates.dylib _ hreg]
      rcases hf.known op hop hreg with hsome | hsome
      · rw [Form.defs, hd] at hsome
        cases hsome
      · obtain ⟨r', hr'⟩ := Option.isSome_iff_exists.1 hsome
        rw [hj.dylib _ _ hr'] at hr
        exact hr'.trans hr

theorem Sound.defun_of_fits (h : Sound host j ds) (hnew : j.funs.lookup m.name = none)
    (hrefs : ∀ op ∈ m.operands, (own host (m.defs ++ ds) op.name).isSome)
    (hf : (Form.defun m).Fits j) : ∃ j', step host (.defun m) j = .ok j' := by
  have hd : ∀ x, Registers m.operands x →
      (j.newFun m.name).Declares x ∧ (own host ds x).isSome := by
    intro x hx
    obtain ⟨hne, hdecl⟩ := hf.declared x hx
    have hown : (own host (m.defs ++ ds) x).isSome := hrefs _ hx.1
    have hnone : m.defs.lookup x = none := lookup_eq_none hne
    rw [own_of_new hnone] at hown
    exact ⟨newFun_declares.2 (.inr hdecl), hown⟩
  obtain ⟨j₁, hreg⟩ := (h.newFun m.name).registerOperands_of hd
  have hu := ((h.newFun m.name).registerOperands_ok hreg).1
  have hadd : addIRModule m.defs j₁ = .ok { j₁ with dylib := m.defs ++ j₁.dylib } := by
    refine addIRModule_iff.2 ⟨⟨hf.nodup, fun d hd => ?_⟩, rfl⟩
    have hnot : ¬ Registers m.operands d.1 := fun hr => (hf.declared _ hr).1 d hd rfl
    exact (hu.dylib _ hnot).trans (hf.fresh d hd)
  refine ⟨{ j₁ with dylib := m.defs ++ j₁.dylib }, bind_ok.2 ⟨_, enter_iff.2 ⟨hnew, rfl⟩, ?_⟩⟩
  exact bind_ok.2 ⟨j₁, hreg, hadd⟩

theorem Sound.call_iff (h : Sound host j ds) (hf : (j.funs.lookup x).isSome) :
    step host (.call x) j = .ok j' ↔ ∃ r, own host ds x = some r ∧ j' = j.cache x r := by
  obtain ⟨ptr, hf⟩ := Option.isSome_iff_exists.1 hf
  simp only [Jit.step, hf]
  rw [bind_ok]
  constructor
  · rintro ⟨⟨r, j₁⟩, hr, hj⟩
    cases hj
    exact ⟨r, (h.resolveSym_iff hf).1 hr⟩
  · rintro ⟨r, hr⟩
    exact ⟨(r, j'), (h.resolveSym_iff hf).2 hr, rfl⟩

/-- A form that defines nothing and refers to nothing. -/
theorem fits_of_plain (hd : f.defs = []) (ho : f.operands = []) : f.Fits j where
  nodup := by rw [hd]; exact List.nodup_nil
  fresh := by rw [hd]; exact fun _ h => absurd h List.not_mem_nil
  declared := by rw [ho]; exact fun x h => absurd h not_registers_nil
  known := by rw [ho]; exact fun _ h => absurd h List.not_mem_nil

/-- `Fits`, checked operand by operand. -/
theorem fits_of_operands (hnodup : (f.defs.map (·.1)).Nodup)
    (hfresh : ∀ d ∈ f.defs, j.dylib.lookup d.1 = none)
    (hdecl : ∀ op ∈ f.operands, anonymous op.name = true ∨
      (∀ d ∈ f.defs, op.name ≠ d.1) ∧ j.Declares op.name)
    (hknown : ∀ op ∈ f.operands, Registers f.operands op.name ∨
      (f.defs.lookup op.name).isSome ∨ (j.dylib.lookup op.name).isSome) : f.Fits j where
  nodup := hnodup
  fresh := hfresh
  declared _ hx := (hdecl _ hx.1).resolve_left (Bool.eq_false_iff.1 hx.2)
  known op hop hr := (hknown op hop).resolve_left hr

theorem bound_of_plain (ho : f.operands = []) (j : Tables) : f.Bound host ds j := by
  unfold Form.Bound
  rw [ho]
  exact fun _ h => absurd h List.not_mem_nil

/-- A legal form that completes keeps the tables sound. -/
theorem Sound.step (h : Sound host j ds) (hl : f.Legal host j ds) (hs : step host f j = .ok j') :
    Sound host j' (f.defs ++ ds) := by
  cases f with
  | funproto x =>
    obtain ⟨funs, hnew, hs⟩ := bind_ok.1 hs
    obtain ⟨-, rfl⟩ := enter_iff.1 hnew
    cases hs
    exact h.newFun x
  | externalGlobal x =>
    obtain ⟨globals, hnew, hs⟩ := bind_ok.1 hs
    obtain ⟨-, rfl⟩ := enter_iff.1 hnew
    cases hs
    exact h.newGlobal x
  | defglobal x r =>
    obtain ⟨globals, hnew, hs⟩ := bind_ok.1 hs
    obtain ⟨-, rfl⟩ := enter_iff.1 hnew
    obtain ⟨-, rfl⟩ := addIRModule_iff.1 hs
    refine (h.newGlobal x).addDefs fun d hd => ?_
    rw [List.mem_singleton.1 hd]
    exact (uncached_of_new hl).newGlobal x
  | defun m =>
    obtain ⟨j₁, hc⟩ := h.defun_completes hs
    rw [hc.after]
    exact hc.updates.sound.addDefs fun d hd =>
      hc.updates.uncached (hc.fresh d hd).1 ((uncached_of_new (hl.1 d hd)).newFun m.name)
  | call x =>
    obtain ⟨r, hr, rfl⟩ := (h.call_iff hl.1).1 hs
    exact h.cache hr

/-- A legal form is linked if and only if it fits. -/
theorem Sound.form_iff (h : Sound host j ds) (hl : f.Legal host j ds) :
    (∃ j', Jit.step host f j = .ok j' ∧ f.Bound host ds j') ↔ f.Fits j := by
  cases f with
  | funproto x =>
    refine ⟨fun _ => fits_of_plain rfl rfl, fun _ => ⟨j.newFun x, ?_, bound_of_plain rfl _⟩⟩
    exact bind_ok.2 ⟨_, enter_iff.2 ⟨hl, rfl⟩, rfl⟩
  | externalGlobal x =>
    refine ⟨fun _ => fits_of_plain rfl rfl, fun _ => ⟨j.newGlobal x, ?_, bound_of_plain rfl _⟩⟩
    exact bind_ok.2 ⟨_, enter_iff.2 ⟨hl, rfl⟩, rfl⟩
  | defglobal x r =>
    constructor
    · rintro ⟨j', hs, -⟩
      obtain ⟨globals, hnew, hs⟩ := bind_ok.1 hs
      obtain ⟨-, rfl⟩ := enter_iff.1 hnew
      obtain ⟨⟨hnodup, hfresh⟩, -⟩ := addIRModule_iff.1 hs
      exact ⟨hnodup, hfresh, fun _ h => absurd h not_registers_nil,
        fun _ h => absurd h List.not_mem_nil⟩
    · intro hf
      have hnew : j.globals.lookup x = none :=
        Option.not_isSome_iff_eq_none.1 fun hx => hl (.inr hx)
      have hadd : addIRModule [(x, r)] (j.newGlobal x) =
          .ok { j.newGlobal x with dylib := (x, r) :: j.dylib } :=
        addIRModule_iff.2 ⟨⟨hf.nodup, hf.fresh⟩, rfl⟩
      exact ⟨_, bind_ok.2 ⟨_, enter_iff.2 ⟨hnew, rfl⟩, hadd⟩, bound_of_plain rfl _⟩
  | defun m =>
    constructor
    · rintro ⟨j', hs, hb⟩
      obtain ⟨j₁, hc⟩ := h.defun_completes hs
      exact hc.fits hb
    · intro hf
      have hnew : j.funs.lookup m.name = none := Option.not_isSome_iff_eq_none.1 fun hx =>
        hl.1 _ List.mem_cons_self (.inl hx)
      obtain ⟨j', hs⟩ := h.defun_of_fits hnew hl.2.2 hf
      obtain ⟨j₁, hc⟩ := h.defun_completes hs
      exact ⟨j', hs, hc.bound h hf hl.2.2⟩
  | call x =>
    obtain ⟨r, hr⟩ := Option.isSome_iff_exists.1 hl.2
    exact ⟨fun _ => fits_of_plain rfl rfl,
      fun _ => ⟨_, (h.call_iff hl.1).2 ⟨r, hr, rfl⟩, bound_of_plain rfl _⟩⟩

/-! ## A sequence of forms -/

theorem Sound.linked_iff {fs : List Form} (h : Sound host j ds)
    (hl : Throughout host (Form.Legal host) fs j ds) :
    Linked host fs j ds ↔ Throughout host (fun j _ f => f.Fits j) fs j ds := by
  induction fs generalizing j ds with
  | nil => exact Iff.rfl
  | cons f fs ih =>
    obtain ⟨hf, hrest⟩ := hl
    constructor
    · rintro ⟨j', hs, hb, hlinked⟩
      refine ⟨(h.form_iff hf).1 ⟨j', hs, hb⟩, fun j₁ hs₁ => ?_⟩
      cases hs.symm.trans hs₁
      exact (ih (h.step hf hs) (hrest j' hs)).1 hlinked
    · rintro ⟨hfits, hthen⟩
      obtain ⟨j', hs, hb⟩ := (h.form_iff hf).2 hfits
      exact ⟨j', hs, hb, (ih (h.step hf hs) (hrest j' hs)).2 (hthen j' hs)⟩

theorem Throughout.cons {P : Tables → List (String × Nat) → Form → Prop} {fs : List Form}
    (hP : P j ds f) (hs : step host f j = .ok j') (h : Throughout host P fs j' (f.defs ++ ds)) :
    Throughout host P (f :: fs) j ds := by
  refine ⟨hP, fun j₁ hs₁ => ?_⟩
  cases hs.symm.trans hs₁
  exact h

/-- In a legal sequence of forms, every form completes and finds every name bound to the address of
its own definition if and only if every form fits where it stands. -/
theorem sequence_linked_iff (host : String → Option Nat) (fs : List Form)
    (hl : Throughout host (Form.Legal host) fs ⟨[], [], []⟩ []) :
    Linked host fs ⟨[], [], []⟩ [] ↔ Throughout host (fun j _ f => f.Fits j) fs ⟨[], [], []⟩ [] :=
  (sound_empty host).linked_iff hl

/-- `puts` is a symbol of the program. -/
def putsOnly (x : String) : Option Nat := if x = "puts" then some 7 else none

/-- A function that calls `puts` and a lambda of its own, and a function that calls it. -/
def greeting : List Form :=
  [.funproto "puts",
   .defun ⟨"greet", 1, [("<anonymous-fun-0-0-3>", 2)], [.value "puts", .value "<anonymous-fun-0-0-3>"]⟩,
   .defun ⟨"main", 3, [], [.value "greet", .value "puts"]⟩]

theorem greeting_linked : Linked putsOnly greeting ⟨[], [], []⟩ [] := by
  refine (sequence_linked_iff putsOnly greeting ?_).2 ?_
  · refine .cons rfl rfl (.cons ?_ rfl (.cons ?_ rfl trivial))
    · exact ⟨by decide, by decide, by decide⟩
    · exact ⟨by decide, by decide, by decide⟩
  · refine .cons (fits_of_plain rfl rfl) rfl (.cons ?_ rfl (.cons ?_ rfl trivial))
    · refine fits_of_operands ?_ ?_ ?_ ?_ <;> decide
    · refine fits_of_operands ?_ ?_ ?_ ?_ <;> decide

/-- A function that calls itself. -/
def recursive : Fun := ⟨"f", ⟨.void, .void⟩, [], false⟩

/-- The compiler before the first form. -/
def atTop : St :=
  { emptyBody with graph := ⟨[]⟩, fns := [], bldr := none, curfn := none, curllvmfn := none }

/-- The function is looked up before the JIT has its module. -/
theorem recursive_not_linked : ∃ s, eval (fun _ => true) (.defun recursive (.call "f" [])) atTop =
      .ok (nullRtv, s) ∧
    Throughout (fun _ => none) (Form.Legal fun _ => none) [.defun ⟨"f", 1, [], moduleOperands s 1⟩]
      ⟨[], [], []⟩ [] ∧
    step (fun _ => none) (.defun ⟨"f", 1, [], moduleOperands s 1⟩) ⟨[], [], []⟩ =
      .error (.error "couldn't resolve function symbol in JIT: \"%s\"") ∧
    ¬ Linked (fun _ => none) [.defun ⟨"f", 1, [], moduleOperands s 1⟩] ⟨[], [], []⟩ [] := by
  refine ⟨_, rfl, ⟨⟨by decide, by decide, by decide⟩, fun _ _ => trivial⟩, by rfl, ?_⟩
  rintro ⟨j', hs, -⟩
  cases hs

end Dolorem.Jit
