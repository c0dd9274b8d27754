import Dolorem.Programs.Functions
import Dolorem.Programs.Static

/-!
# What forms leave alone

A form writes to the variables it makes and to globals, and to nothing else. It
can only go wrong at a division, a remainder or a shift, or at a variable that
was declared and not set, and only run forever through a loop. All of this is
read off one invariant of the interpreter, `Live`.
-/

namespace Dolorem.Programs

open Codegen Words Interp

variable {Γ : Ctx} {globals : List (String × IntTy)} {addr : String → Int} {base a x : Int}
variable {m m₁ m₂ : Mem} {σ σ₀ σ₁ σ' : Store} {W T : Prop} {call : Caller} {fuel : Nat}

/-! ## Memory -/

/-- From `m` to `m'` only cells from `base` on and those of globals are written,
and no cell in use loses its value. -/
structure Confined (globals : List (String × IntTy)) (addr : String → Int) (base : Int)
    (m m' : Mem) : Prop where
  grows : m.next ≤ m'.next
  kept : ∀ a < base, (∀ y t, globals.lookup y = some t → addr y ≠ a) → m'.cells a = m.cells a
  set : ∀ a < m.next, (m.cells a).isSome → (m'.cells a).isSome

/-- The cells a function may write to. -/
def Own (globals : List (String × IntTy)) (addr : String → Int) (base a : Int) : Prop :=
  base ≤ a ∨ ∃ y t, globals.lookup y = some t ∧ addr y = a

/-- The cell is in use and was set, unless the interpreter may go wrong. -/
def Readable (W : Prop) (m : Mem) (a : Int) : Prop := W ∨ a < m.next ∧ (m.cells a).isSome

namespace Confined

theorem refl (m : Mem) : Confined globals addr base m m :=
  ⟨le_rfl, fun _ _ _ => rfl, fun _ _ h => h⟩

theorem trans (h : Confined globals addr base m m₁) (k : Confined globals addr base m₁ m₂) :
    Confined globals addr base m m₂ :=
  ⟨h.grows.trans k.grows, fun a ha hg => (k.kept a ha hg).trans (h.kept a ha hg),
    fun a ha hs => k.set a (ha.trans_le h.grows) (h.set a ha hs)⟩

theorem mono {base' : Int} (h : Confined globals addr base' m m₁) (hb : base ≤ base') :
    Confined globals addr base m m₁ :=
  ⟨h.grows, fun a ha => h.kept a (ha.trans_le hb), h.set⟩

theorem alloc (h : base ≤ m.next) : Confined globals addr base m m.alloc where
  grows := Int.le_of_lt (Int.lt_succ _)
  kept _ ha _ := if_neg (ha.trans_le h).ne
  set a ha hs := by
    show (if a = m.next then none else m.cells a).isSome
    rwa [if_neg ha.ne]

theorem write (h : Own globals addr base a) (m : Mem) (x : Int) :
    Confined globals addr base m (m.write a x) where
  grows := le_rfl
  kept b hb hg := by
    refine if_neg ?_
    rintro rfl
    rcases h with h | ⟨y, t, hy, hya⟩
    · exact absurd h (Int.not_le.2 hb)
    · exact hg y t hy hya
  set b _ hs := by
    show (if b = a then some x else m.cells b).isSome
    split
    · rfl
    · exact hs

end Confined

theorem Readable.later (h : Readable W m a) (k : Confined globals addr base m m₁) :
    Readable W m₁ a :=
  h.imp id fun h => ⟨h.1.trans_le k.grows, k.set a h.1 h.2⟩

theorem readable_write (W : Prop) (ha : a < m.next) : Readable W (m.write a x) a :=
  .inr ⟨ha, by simp [Mem.write]⟩

/-- The variables in use have places of their own, and were set. -/
structure Live (W : Prop) (addr : String → Int) (Γ : Ctx) (base : Int) (σ : Store) : Prop where
  le : base ≤ σ.mem.next
  vars : List.Forall₂ (fun p q => p.1 = q.1 ∧ (p.2.isSome → base ≤ q.2 ∧ Readable W σ.mem q.2))
    Γ.vars σ.env
  globals : ∀ y t, Γ.globals.lookup y = some t → Readable W σ.mem (addr y)

namespace Live

variable {xs : List (String × Option IntTy)}

theorem mem (h : Live W addr Γ base σ) (k : Confined Γ.globals addr base σ.mem m) :
    Live W addr Γ base ⟨σ.env, m⟩ where
  le := h.le.trans k.grows
  vars := h.vars.imp fun _ _ hp => ⟨hp.1, fun ht => ⟨(hp.2 ht).1, (hp.2 ht).2.later k⟩⟩
  globals y t hy := (h.globals y t hy).later k

/-- A variable that must not be read, or one that goes wrong when it is. -/
theorem declare (h : Live W addr Γ base σ) (y : String) {u : Option IntTy} (hu : u.isSome → W) :
    Live W addr (Γ.add [(y, u)]) base (σ.declare y) :=
  have hm := h.mem (.alloc h.le)
  ⟨hm.le, .cons ⟨rfl, fun ht => ⟨h.le, .inl (hu ht)⟩⟩ hm.vars, hm.globals⟩

/-- Variables without places. -/
theorem nowhere (h : Live W addr Γ base σ) (xs : List (String × Option IntTy))
    (k : Confined Γ.globals addr base σ.mem m) :
    Live W addr (Γ.add (Form.hide xs)) base ⟨nowhere xs ++ σ.env, m⟩ := by
  have hm := h.mem k
  refine ⟨hm.le, List.rel_append ?_ hm.vars, hm.globals⟩
  induction xs with
  | nil => exact .nil
  | cons p xs ih => exact .cons ⟨rfl, fun hp => absurd hp (by simp)⟩ ih

/-- A variable is set, whatever was declared after it. -/
theorem fill {y : String} {u v : Option IntTy} {env env' : List (String × Int)}
    (h : Live W addr ((Γ.add [(y, u)]).add xs) base σ) (henv : σ.env = env' ++ (y, a) :: env)
    (hlen : Γ.vars.length = env.length) (ha : base ≤ a) (hnext : a < σ.mem.next) :
    Live W addr ((Γ.add [(y, v)]).add xs) base ⟨σ.env, σ.mem.write a x⟩ := by
  have hm := h.mem (.write (.inl ha) σ.mem x)
  have hvars : List.Forall₂ _ (xs ++ (y, u) :: Γ.vars) (env' ++ (y, a) :: env) := henv ▸ hm.vars
  have hxs : xs.length = env'.length := by
    have hall := hvars.length_eq
    simp only [List.length_append, List.length_cons] at hall
    omega
  have hold := List.forall₂_take xs.length hvars
  have hnew := List.forall₂_drop xs.length hvars
  rw [List.take_left' rfl, List.take_left' hxs.symm] at hold
  rw [List.drop_left' rfl, List.drop_left' hxs.symm] at hnew
  refine ⟨hm.le, ?_, hm.globals⟩
  show List.Forall₂ _ (xs ++ (y, v) :: Γ.vars) σ.env
  rw [henv]
  cases hnew with
  | cons _ hrest =>
    exact List.rel_append hold (.cons ⟨rfl, fun _ => ⟨ha, readable_write W hnext⟩⟩ hrest)

theorem lookup {R : Int → Prop} {t : IntTy} {y : String}
    {vars : List (String × Option IntTy)} {env : List (String × Int)}
    (h : List.Forall₂ (fun p q => p.1 = q.1 ∧ (p.2.isSome → R q.2)) vars env) :
    (vars.lookup y = some (some t) → ∃ a, env.lookup y = some a ∧ R a) ∧
      (vars.lookup y = none → env.lookup y = none) := by
  induction h with
  | nil => exact ⟨by rintro ⟨⟩, fun _ => rfl⟩
  | @cons p q vars env hpq _ ih =>
    rw [List.lookup_cons, List.lookup_cons, ← hpq.1]
    cases y == p.1 with
    | false => exact ih
    | true =>
      refine ⟨fun ht => ⟨q.2, rfl, hpq.2 ?_⟩, by rintro ⟨⟩⟩
      rw [Option.some.inj ht]
      rfl

theorem find {t : IntTy} {y : String} (h : Live W addr Γ base σ) (hy : Γ.find y = some t) :
    Own Γ.globals addr base (σ.find addr y) ∧ Readable W σ.mem (σ.find addr y) := by
  have hlookup := lookup (R := fun a => base ≤ a ∧ Readable W σ.mem a) (t := t) (y := y) h.vars
  unfold Ctx.find at hy
  unfold Store.find
  cases hv : Γ.vars.lookup y with
  | none =>
    rw [hv] at hy
    rw [hlookup.2 hv, Option.getD_none]
    exact ⟨.inr ⟨y, t, hy, rfl⟩, h.globals y t hy⟩
  | some t' =>
    rw [hv] at hy
    obtain rfl : t' = some t := hy
    obtain ⟨a, ha, hle, hread⟩ := hlookup.1 hv
    rw [ha, Option.getD_some]
    exact ⟨.inl hle, hread⟩

end Live

/-! ## Forms -/

def Exit.mem : Exit → Mem
  | .break_ m | .continue_ m => m

/-- A result in the context `Γ`, reached from the store `σ₀`. -/
structure Done (W : Prop) (addr : String → Int) (Γ : Ctx) (base : Int) (σ₀ : Store) {α : Type}
    (Q : α → Mem → Prop) (r : α × Store) : Prop where
  live : Live W addr Γ base r.2
  env : σ₀.env <:+ r.2.env
  confined : Confined Γ.globals addr base σ₀.mem r.2.mem
  value : Q r.1 r.2.mem

/-- The code is left for a loop around it. -/
structure Left (addr : String → Int) (Γ : Ctx) (base : Int) (σ₀ : Store) (x : Exit) : Prop where
  inLoop : Γ.inLoop = true
  confined : Confined Γ.globals addr base σ₀.mem x.mem

def Does (W T : Prop) (addr : String → Int) (Γ : Ctx) (base : Int) (σ₀ : Store) {α : Type}
    (Q : α → Mem → Prop) (o : Res (α × Store)) : Prop :=
  Post (Done W addr Γ base σ₀ Q) (Left addr Γ base σ₀) W T o

/-- A place that is left behind may be written to, and read. -/
def Owned (W : Prop) (globals : List (String × IntTy)) (addr : String → Int) (base : Int)
    (o : Operand) (m : Mem) : Prop :=
  ∀ a w, o = .place a w → Own globals addr base a ∧ Readable W m a

/-- Calls write to nothing that is there, except for globals. -/
def Polite (globals : List (String × IntTy)) (addr : String → Int) (W T : Prop) (call : Caller)
    (funs : List Sig) : Prop :=
  ∀ f ∈ funs, ∀ xs m, xs.length = f.parms.length →
    (∀ y t, globals.lookup y = some t → Readable W m (addr y)) →
    Post (fun r => Confined globals addr m.next m r.2) (fun _ => False) W T (call f.name xs m)

def Confines (addr : String → Int) (call : Caller) (fuel : Nat) (W T : Prop) (e : Form) : Prop :=
  ∀ {Γ : Ctx} {base : Int} {σ : Store}, e.ok Γ = true →
    Polite Γ.globals addr W T call Γ.funs → (e.any Form.mayFail = true → W) →
    (e.any Form.isLoop = true → T) → Live W addr Γ base σ →
    Does W T addr (Γ.add e.adds) base σ (Owned W Γ.globals addr base) (e.exec addr call fuel σ)

theorem owned_val : Owned W globals addr base (.val x) m := by
  rintro a w ⟨⟩

theorem Owned.later {o : Operand} (h : Owned W globals addr base o m)
    (k : Confined globals addr base m m₁) : Owned W globals addr base o m₁ :=
  fun a w ho => ⟨(h a w ho).1, (h a w ho).2.later k⟩

namespace Does

variable {Γ' : Ctx} {α β : Type} {Q : α → Mem → Prop} {R : β → Mem → Prop} {o : Res (α × Store)}

theorem ok {v : α} (hl : Live W addr Γ base σ) (he : σ₀.env <:+ σ.env)
    (hc : Confined Γ.globals addr base σ₀.mem σ.mem) (hq : Q v σ.mem) :
    Does W T addr Γ base σ₀ Q (.ok (v, σ)) := ⟨hl, he, hc, hq⟩

/-- Nothing was done. -/
theorem here {v : α} (hl : Live W addr Γ base σ) (hq : Q v σ.mem) :
    Does W T addr Γ base σ Q (.ok (v, σ)) := ok hl List.suffix_rfl (.refl _) hq

/-- What was done before. -/
theorem from_ (h : Does W T addr Γ base σ Q o) (he : σ₀.env <:+ σ.env)
    (hc : Confined Γ.globals addr base σ₀.mem σ.mem) : Does W T addr Γ base σ₀ Q o :=
  Post.imp h (fun _ hr => ⟨hr.live, he.trans hr.env, hc.trans hr.confined, hr.value⟩)
    fun _ hx => ⟨hx.inLoop, hc.trans hx.confined⟩

theorem bind {f : α × Store → Res (β × Store)} (h : Does W T addr Γ base σ₀ Q o)
    (hg : Γ'.globals = Γ.globals) (hl : Γ'.inLoop = Γ.inLoop)
    (k : ∀ v σ₁, Live W addr Γ base σ₁ → σ₀.env <:+ σ₁.env →
      Confined Γ.globals addr base σ₀.mem σ₁.mem → Q v σ₁.mem →
      Does W T addr Γ' base σ₁ R (f (v, σ₁))) :
    Does W T addr Γ' base σ₀ R (o >>= f) := by
  refine Post.bind (Post.imp h (fun _ hr => hr) fun e he =>
    ⟨hl.trans he.inLoop, hg ▸ he.confined⟩) ?_
  rintro ⟨v, σ₁⟩ ⟨hlive, henv, hconf, hv⟩
  exact (k v σ₁ hlive henv hconf hv).from_ henv (hg ▸ hconf)

/-- The value of an operand. -/
theorem load {o : Operand} (hl : Live W addr Γ base σ) (ho : Owned W Γ.globals addr base o σ.mem) :
    Does W T addr Γ base σ (fun _ _ => True) (o.load σ) := by
  cases o with
  | val x => exact here hl trivial
  | place a w =>
    cases hx : σ.mem.cells a with
    | some x =>
      rw [load_set w hx]
      exact here hl trivial
    | none =>
      rw [load_unset w hx]
      rcases (ho a w rfl).2 with hW | ⟨-, hset⟩
      · exact hW
      · rw [hx] at hset
        cases hset

theorem value {e : Form}
    (h : Does W T addr Γ base σ₀ (Owned W Γ.globals addr base) (e.exec addr call fuel σ)) :
    Does W T addr Γ base σ₀ (fun _ _ => True) (e.value addr call fuel σ) :=
  h.bind rfl rfl fun _ _ hl _ _ ho => load hl ho

/-- What a call passes. -/
theorem pass {parms : List (String × IntTy)} {os : List Operand} (hl : Live W addr Γ base σ)
    (hos : ∀ o ∈ os, Owned W Γ.globals addr base o σ.mem) (hlen : os.length = parms.length) :
    Does W T addr Γ base σ (fun xs _ => xs.length = parms.length) (passArgs parms os σ) := by
  induction parms generalizing os σ with
  | nil =>
    rw [passArgs]
    exact here hl rfl
  | cons p parms ih =>
    cases os with
    | nil => cases hlen
    | cons o os =>
      rw [passArgs]
      refine (load hl (hos o List.mem_cons_self)).bind rfl rfl fun x σ₁ hl₁ _ hc _ => ?_
      have hrest := ih hl₁ (fun o' ho' => (hos o' (List.mem_cons_of_mem _ ho')).later hc)
        (Nat.succ.inj hlen)
      exact hrest.bind rfl rfl fun xs σ₂ hl₂ _ _ hxs => here hl₂ (congrArg Nat.succ hxs)

end Does

section

attribute [local simp] Form.any Form.anyOf

variable {e f g : Form} {es : List Form} {t : IntTy} {y : String}

theorem literal_confines (hadds : e.adds = [])
    (hexec : ∀ σ, e.exec addr call fuel σ = .ok (.val x, σ)) : Confines addr call fuel W T e := by
  intro Γ base σ hok hcall hW hT hl
  rw [hexec, hadds]
  exact .here hl owned_val

theorem ident_confines : Confines addr call fuel W T (.ident y t) := by
  intro Γ base σ hok hcall hW hT hl
  have hfind : Γ.find y = some t := by simpa [Form.ok] using hok
  simp only [Form.exec, Form.adds]
  refine .here hl ?_
  rintro a w ⟨⟩
  exact hl.find hfind

theorem var_confines : Confines addr call fuel W T (.var y t) := by
  intro Γ base σ hok hcall hW hT hl
  simp only [Form.exec, Form.adds]
  exact .ok (hl.declare y fun _ => hW (by simp [Form.mayFail])) (List.suffix_cons _ _) (.alloc hl.le)
    owned_val

/-- In its own initial value a variable is not set yet. -/
theorem varInit_confines (he : Confines addr call fuel W T e) :
    Confines addr call fuel W T (.varInit y t e) := by
  intro Γ base σ hok hcall hW hT hl
  simp only [Form.ok, Bool.and_eq_true] at hok
  -- the initial value is as good without the variable, or may go wrong
  obtain ⟨u, hoku, hu⟩ : ∃ u, e.ok (Γ.add [(y, u)]) = true ∧ (u.isSome → W) := by
    cases hy : e.any (Form.isIdent y) with
    | true => exact ⟨some t, hok.1, fun _ => hW (by simp [Form.mayFail, hy])⟩
    | false =>
      have hagree : Form.AgreeOn e (Γ.add [(y, some t)]) (Γ.add [(y, none)]) := by
        refine ⟨fun z hz => ?_, rfl, rfl⟩
        have hne : (z == y) = false := by
          rw [beq_eq_false_iff_ne]
          rintro rfl
          rw [hy] at hz
          cases hz
        simp only [Ctx.find, Ctx.add, List.singleton_append, List.lookup_cons, hne]
      exact ⟨none, e.ok_congr hagree hok.1, by rintro ⟨⟩⟩
  simp only [Form.exec, Form.adds]
  rw [← Ctx.add_add]
  have hdone := he hoku hcall (fun h => hW (by simp [h])) (fun h => hT (by simp [h]))
    (hl.declare y hu)
  refine Does.from_ (σ := σ.declare y) ?_ (List.suffix_cons _ _) (.alloc hl.le)
  refine hdone.bind rfl rfl fun o σ₁ hl₁ hs₁ hc₁ ho => ?_
  refine (Does.load hl₁ ho).bind rfl rfl fun x σ₂ hl₂ hs₂ hc₂ _ => ?_
  obtain ⟨new, hnew⟩ := hs₁
  obtain ⟨new', hnew'⟩ := hs₂
  have hnext : σ.mem.next < σ₂.mem.next :=
    (Int.lt_succ _).trans_le (hc₁.grows.trans hc₂.grows)
  have henv : σ₂.env = (new' ++ new) ++ (y, σ.mem.next) :: σ.env := by
    rw [← hnew', ← hnew, List.append_assoc]
    rfl
  exact .ok (hl₂.fill henv hl.vars.length_eq hl.le hnext) List.suffix_rfl (.write (.inl hl.le) _ _)
    owned_val

theorem assign_confines (he : Confines addr call fuel W T e) (hf : Confines addr call fuel W T f) :
    Confines addr call fuel W T (.assign e f) := by
  intro Γ base σ hok hcall hW hT hl
  simp only [Form.ok, Bool.and_eq_true] at hok
  simp only [Form.exec, Form.adds]
  rw [← Ctx.add_add]
  refine (he hok.1.1.1.1 hcall (fun h => hW (by simp [h]))
    (fun h => hT (by simp [h])) hl).bind rfl rfl fun p σ₁ hl₁ _ _ hp => ?_
  refine (hf hok.1.1.1.2 hcall (fun h => hW (by simp [h]))
    (fun h => hT (by simp [h])) hl₁).bind rfl rfl fun o σ₂ hl₂ _ _ ho => ?_
  refine (Does.load hl₂ ho).bind rfl rfl fun x σ₃ hl₃ _ _ _ => ?_
  cases p with
  | val _ => exact .here hl₃ owned_val
  | place a w =>
    have hwrite : Confined Γ.globals addr base σ₃.mem (σ₃.mem.write a (wrap w x)) :=
      .write (hp a w rfl).1 _ _
    exact .ok (hl₃.mem hwrite) List.suffix_rfl hwrite owned_val

/-- Both operands. -/
theorem operands_confine (he : Confines addr call fuel W T e) (hf : Confines addr call fuel W T f)
    {Γ : Ctx} (hoke : e.ok Γ = true) (hokf : f.ok (Γ.add e.adds) = true)
    (hcall : Polite Γ.globals addr W T call Γ.funs)
    (hW : (e.any Form.mayFail || f.any Form.mayFail) = true → W)
    (hT : (e.any Form.isLoop || f.any Form.isLoop) = true → T) (hl : Live W addr Γ base σ) :
    Does W T addr (Γ.add (f.adds ++ e.adds)) base σ (fun (_ : Int × Int) _ => True)
      (e.value addr call fuel σ >>= fun p => f.value addr call fuel p.2 >>= fun q =>
        .ok ((p.1, q.1), q.2)) := by
  rw [← Ctx.add_add]
  refine (he hoke hcall (fun h => hW (by simp [h])) (fun h => hT (by simp [h])) hl).value.bind
    rfl rfl fun a σ₁ hl₁ _ _ _ => ?_
  refine (hf hokf hcall (fun h => hW (by simp [h])) (fun h => hT (by simp [h])) hl₁).value.bind
    rfl rfl fun b σ₂ hl₂ _ _ _ => ?_
  exact .here hl₂ trivial

theorem arith_confines (op : ArithOp) (he : Confines addr call fuel W T e)
    (hf : Confines addr call fuel W T f) : Confines addr call fuel W T (.arith op e f) := by
  intro Γ base σ hok hcall hW hT hl
  simp only [Form.ok, Bool.and_eq_true, Option.isSome_iff_exists] at hok
  obtain ⟨⟨⟨hoke, hokf⟩, t, ht⟩, u, hu⟩ := hok
  rw [exec_arith addr op ht hu, Form.adds]
  refine (operands_confine he hf hoke hokf hcall (fun h => hW (by simp [h]))
    (fun h => hT (by simp [h])) hl).bind rfl rfl fun p σ₁ hl₁ _ _ _ => ?_
  have hfail : calculate op (t.join u).width p.1 p.2 = none → W := by
    intro hnone
    refine hW ?_
    cases op with
    | add | sub | mul | and | or => cases hnone
    | div | mod | shl | shr => simp [Form.mayFail]
  dsimp only
  cases hz : calculate op (t.join u).width p.1 p.2 with
  | none => exact hfail hz
  | some z => exact .here hl₁ owned_val

theorem cmp_confines (op : CmpOp) (he : Confines addr call fuel W T e)
    (hf : Confines addr call fuel W T f) : Confines addr call fuel W T (.cmp op e f) := by
  intro Γ base σ hok hcall hW hT hl
  simp only [Form.ok, Bool.and_eq_true] at hok
  rw [exec_cmp addr op, Form.adds]
  refine (operands_confine he hf hok.1.1.1 hok.1.1.2 hcall (fun h => hW (by simp [h]))
    (fun h => hT (by simp [h])) hl).bind rfl rfl fun p σ₁ hl₁ _ _ _ => ?_
  exact .here hl₁ owned_val

theorem not_confines (he : Confines addr call fuel W T e) : Confines addr call fuel W T (.not e) := by
  intro Γ base σ hok hcall hW hT hl
  simp only [Form.ok, Bool.and_eq_true] at hok
  simp only [Form.exec, Form.adds]
  refine (he hok.1 hcall (fun h => hW (by simp [h]))
    (fun h => hT (by simp [h])) hl).bind rfl rfl fun o σ₁ hl₁ _ _ ho => ?_
  exact (Does.load hl₁ ho).bind rfl rfl fun x σ₂ hl₂ _ _ _ => .here hl₂ owned_val

theorem if_confines (he : Confines addr call fuel W T e) (hf : Confines addr call fuel W T f)
    (hg : Confines addr call fuel W T g) : Confines addr call fuel W T (.if_ e f g) := by
  intro Γ base σ hok hcall hW hT hl
  simp only [Form.ok, Bool.and_eq_true, Option.isSome_iff_exists] at hok
  obtain ⟨⟨⟨⟨⟨⟨⟨⟨hoke, hokf⟩, hokg⟩, -⟩, u, hu⟩, -⟩, -⟩, -⟩, -⟩ := hok
  rw [exec_if addr hu, Form.adds, ← List.append_assoc, ← Ctx.add_add]
  refine (he hoke hcall (fun h => hW (by simp [h]))
    (fun h => hT (by simp [h])) hl).value.bind rfl rfl fun x σ₁ hl₁ _ _ _ => ?_
  -- the variables of both branches
  have hboth : ∀ {m : Mem} {v : Operand}, Confined Γ.globals addr base σ₁.mem m →
      Owned W Γ.globals addr base v m →
      Does W T addr ((Γ.add e.adds).add (Form.hide g.adds ++ Form.hide f.adds)) base σ₁
        (Owned W Γ.globals addr base)
        (.ok (v, ⟨nowhere g.adds ++ (nowhere f.adds ++ σ₁.env), m⟩)) := by
    intro m v hm hv
    refine .ok ?_ ((List.suffix_append _ _).trans (List.suffix_append _ _)) hm hv
    rw [← Ctx.add_add]
    exact (hl₁.nowhere f.adds hm).nowhere g.adds (.refl m)
  split
  · have hthen := (hf hokf hcall (fun h => hW (by simp [h])) (fun h => hT (by simp [h])) hl₁).value
    refine Post.bind (Post.imp hthen (fun _ hr => hr) fun _ hx => ⟨hx.inLoop, hx.confined⟩) ?_
    rintro ⟨y, σ₂⟩ hr
    exact hboth hr.confined owned_val
  · have hl₁' : Live W addr (Γ.add (Form.hide f.adds ++ e.adds)) base
        ⟨nowhere f.adds ++ σ₁.env, σ₁.mem⟩ := by
      rw [← Ctx.add_add]
      exact hl₁.nowhere f.adds (.refl _)
    have helse := (hg hokg hcall (fun h => hW (by simp [h])) (fun h => hT (by simp [h])) hl₁').value
    refine Post.bind (Post.imp helse (fun _ hr => hr) fun _ hx => ⟨hx.inLoop, hx.confined⟩) ?_
    rintro ⟨y, σ₂⟩ hr
    exact hboth hr.confined owned_val

theorem cond_confines (he : Confines addr call fuel W T e) (hf : Confines addr call fuel W T f) :
    Confines addr call fuel W T (.cond e f) := by
  intro Γ base σ hok hcall hW hT hl
  simp only [Form.ok, Bool.and_eq_true] at hok
  rw [exec_cond, Form.adds, ← Ctx.add_add]
  refine (he hok.1.1 hcall (fun h => hW (by simp [h]))
    (fun h => hT (by simp [h])) hl).value.bind rfl rfl fun x σ₁ hl₁ _ _ _ => ?_
  split
  · have hbody := hf hok.1.2 hcall (fun h => hW (by simp [h])) (fun h => hT (by simp [h])) hl₁
    refine Post.bind (Post.imp hbody (fun _ hr => hr) fun _ hx => ⟨hx.inLoop, hx.confined⟩) ?_
    rintro ⟨o, σ₂⟩ hr
    exact Does.ok (hl₁.nowhere f.adds hr.confined) (List.suffix_append _ _) hr.confined owned_val
  · exact .ok (hl₁.nowhere f.adds (.refl _)) (List.suffix_append _ _) (.refl _) owned_val

/-- The end of a turn: there is no other way out of the body. -/
theorem endTurn_post {Γ' : Ctx} {o : Res (Operand × Store)} {Q : Operand → Mem → Prop}
    {E : Exit → Prop} (h : Does W T addr Γ' base σ₀ Q o) :
    Post (fun r => Confined Γ'.globals addr base σ₀.mem r.1) E W T (endTurn o) := by
  match o, h with
  | .ok r, h => exact h.confined
  | .error (.exit (.break_ _)), h => exact h.confined
  | .error (.exit (.continue_ _)), h => exact h.confined
  | .error .wrong, h => exact h
  | .error .timeout, h => exact h

theorem while_confines (he : Confines addr call fuel W T e) (hf : Confines addr call fuel W T f) :
    Confines addr call fuel W T (.while_ e f) := by
  intro Γ base σ hok hcall hW hT hl
  simp only [Form.ok, Bool.and_eq_true] at hok
  rw [exec_while, Form.adds]
  refine Post.bind (Q := fun σ₁ => Confined Γ.globals addr base σ.mem σ₁.mem) ?_ ?_
  · refine Post.iterate (I := fun σ₁ => Confined Γ.globals addr base σ.mem σ₁.mem)
      (J := fun σ₁ => Live W addr (Γ.add e.adds) base σ₁ ∧
        Confined Γ.globals addr base σ.mem σ₁.mem)
      (fun σ₁ h₁ => ?_) (fun σ₁ h₁ => ?_) (hT (by simp [Form.isLoop])) (.refl _)
    · have htest := he hok.1.1 hcall (fun h => hW (by simp [h]))
        (fun h => hT (by simp [h])) (hl.mem h₁)
      refine Post.bind (Post.imp htest.value (fun _ hr => hr) fun x hx =>
        ⟨hx.inLoop, h₁.trans hx.confined⟩) ?_
      rintro ⟨x, σ₂⟩ ⟨hl₂, -, h₂, -⟩
      show if truth x = true then _ else _
      split
      · exact ⟨hl₂, h₁.trans h₂⟩
      · exact h₁.trans h₂
    · have hbody := hf (Γ := (Γ.add e.adds).loop) hok.1.2 hcall
        (fun h => hW (by simp [h])) (fun h => hT (by simp [h]))
        ⟨h₁.1.le, h₁.1.vars, h₁.1.globals⟩
      refine Post.bind (endTurn_post hbody) ?_
      rintro ⟨m, again⟩ hm
      cases again with
      | false => exact h₁.2.trans hm
      | true => exact h₁.2.trans hm
  · intro σ₁ h₁
    exact Does.ok (hl.nowhere _ h₁) (List.suffix_append _ _) h₁ owned_val

theorem break_confines : Confines addr call fuel W T .break_ := by
  intro Γ base σ hok hcall hW hT hl
  simp only [Form.exec]
  exact ⟨hok, .refl _⟩

theorem continue_confines : Confines addr call fuel W T .continue_ := by
  intro Γ base σ hok hcall hW hT hl
  simp only [Form.exec]
  exact ⟨hok, .refl _⟩

/-! ## Lists of forms -/

def ConfinesProgn (addr : String → Int) (call : Caller) (fuel : Nat) (W T : Prop) (es : List Form) :
    Prop :=
  ∀ {Γ : Ctx} {base : Int} {σ : Store}, Form.allOk es Γ = true →
    Polite Γ.globals addr W T call Γ.funs → (Form.anyOf Form.mayFail es = true → W) →
    (Form.anyOf Form.isLoop es = true → T) → Live W addr Γ base σ →
    Does W T addr (Γ.add (Form.addsAll es)) base σ (Owned W Γ.globals addr base)
        (Form.execProgn addr call fuel es σ) ∧
      Does W T addr (Γ.add (Form.addsAll es)) base σ
        (fun os m => os.length = es.length ∧ ∀ o ∈ os, Owned W Γ.globals addr base o m)
        (Form.execArgs addr call fuel es σ)

theorem nil_confines : ConfinesProgn addr call fuel W T [] := by
  intro Γ base σ hok hcall hW hT hl
  simp only [Form.execProgn, Form.execArgs, Form.addsAll]
  exact ⟨.here hl owned_val, .here hl ⟨rfl, fun o ho => absurd ho List.not_mem_nil⟩⟩

theorem cons_confines (he : Confines addr call fuel W T e)
    (hes : ConfinesProgn addr call fuel W T es) : ConfinesProgn addr call fuel W T (e :: es) := by
  intro Γ base σ hok hcall hW hT hl
  simp only [Form.allOk, Bool.and_eq_true] at hok
  simp only [Form.anyOf, Bool.or_eq_true] at hW hT
  have hfirst := he hok.1 hcall (fun h => hW (.inl h)) (fun h => hT (.inl h)) hl
  have hrest : ∀ σ₁, Live W addr (Γ.add e.adds) base σ₁ → _ := fun σ₁ hl₁ =>
    hes (σ := σ₁) hok.2 hcall (fun h => hW (.inr h)) (fun h => hT (.inr h)) hl₁
  rw [Form.addsAll, ← Ctx.add_add]
  constructor
  · cases es with
    | nil =>
      rw [Form.execProgn]
      exact hfirst
    | cons e' es =>
      rw [Form.execProgn]
      exact hfirst.bind rfl rfl fun _ σ₁ hl₁ _ _ _ => (hrest σ₁ hl₁).1
  · rw [Form.execArgs]
    refine hfirst.bind rfl rfl fun o σ₁ hl₁ _ _ ho => ?_
    refine (hrest σ₁ hl₁).2.bind rfl rfl fun os σ₂ hl₂ _ hc₂ hos => ?_
    refine .here hl₂ ⟨congrArg Nat.succ hos.1, fun o' ho' => ?_⟩
    rcases List.mem_cons.1 ho' with rfl | ho'
    · exact ho.later hc₂
    · exact hos.2 o' ho'

theorem progn_confines (hes : ConfinesProgn addr call fuel W T es) :
    Confines addr call fuel W T (.progn es) := by
  intro Γ base σ hok hcall hW hT hl
  simp only [Form.exec, Form.adds]
  exact (hes (by simpa [Form.ok] using hok) hcall (fun h => hW (by simp [h]))
    (fun h => hT (by simp [h])) hl).1

theorem scope_confines (hes : ConfinesProgn addr call fuel W T es) :
    Confines addr call fuel W T (.scope es) := by
  intro Γ base σ hok hcall hW hT hl
  simp only [Form.exec, Form.adds]
  have hbody := (hes (by simpa [Form.ok] using hok) hcall (fun h => hW (by simp [h]))
    (fun h => hT (by simp [h])) hl).1
  refine Post.bind (Post.imp hbody (fun _ hr => hr) fun _ hx => ⟨hx.inLoop, hx.confined⟩) ?_
  rintro ⟨o, σ₁⟩ hr
  exact Does.ok (hl.mem hr.confined) List.suffix_rfl hr.confined hr.value

theorem call_confines {f : Sig} (hes : ConfinesProgn addr call fuel W T es) :
    Confines addr call fuel W T (.call f es) := by
  intro Γ base σ hok hcall hW hT hl
  simp only [Form.ok, Bool.and_eq_true, List.contains_iff_mem, decide_eq_true_eq] at hok
  obtain ⟨⟨⟨hf, hoks⟩, -⟩, hlen⟩ := hok
  simp only [Form.exec, Form.adds]
  refine (hes hoks hcall (fun h => hW (by simp [h]))
    (fun h => hT (by simp [h])) hl).2.bind rfl rfl fun os σ₁ hl₁ _ _ hos => ?_
  refine (Does.pass hl₁ hos.2 (hos.1.trans hlen)).bind rfl rfl fun xs σ₂ hl₂ _ _ hxs => ?_
  refine Post.bind (Post.imp (hcall f hf xs σ₂.mem hxs hl₂.globals) (fun _ hr => hr)
    fun _ h => h.elim) ?_
  rintro ⟨x, m⟩ hm
  have hm := hm.mono hl₂.le
  exact Does.ok (hl₂.mem hm) List.suffix_rfl hm owned_val

end

mutual

/-- No form writes to anything but its function's variables and globals. -/
theorem confines (addr : String → Int) (call : Caller) (fuel : Nat) (W T : Prop) :
    ∀ e : Form, Confines addr call fuel W T e
  | .int i => literal_confines (x := i) (by rw [Form.adds]) fun σ => by rw [Form.exec]
  | .char i => literal_confines (x := i) (by rw [Form.adds]) fun σ => by rw [Form.exec]
  | .ident _ _ => ident_confines
  | .var _ _ => var_confines
  | .varInit _ _ e => varInit_confines (confines addr call fuel W T e)
  | .assign a b => assign_confines (confines addr call fuel W T a) (confines addr call fuel W T b)
  | .arith op a b =>
    arith_confines op (confines addr call fuel W T a) (confines addr call fuel W T b)
  | .cmp op a b => cmp_confines op (confines addr call fuel W T a) (confines addr call fuel W T b)
  | .not a => not_confines (confines addr call fuel W T a)
  | .if_ c t e => if_confines (confines addr call fuel W T c) (confines addr call fuel W T t)
      (confines addr call fuel W T e)
  | .cond c b => cond_confines (confines addr call fuel W T c) (confines addr call fuel W T b)
  | .while_ c b => while_confines (confines addr call fuel W T c) (confines addr call fuel W T b)
  | .break_ => break_confines
  | .continue_ => continue_confines
  | .progn es => progn_confines (all_confine addr call fuel W T es)
  | .scope es => scope_confines (all_confine addr call fuel W T es)
  | .call _ es => call_confines (all_confine addr call fuel W T es)

theorem all_confine (addr : String → Int) (call : Caller) (fuel : Nat) (W T : Prop) :
    ∀ es : List Form, ConfinesProgn addr call fuel W T es
  | [] => nil_confines
  | e :: es => cons_confines (confines addr call fuel W T e) (all_confine addr call fuel W T es)

end

end Dolorem.Programs
