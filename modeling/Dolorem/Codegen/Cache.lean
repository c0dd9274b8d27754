import Dolorem.Codegen.Evolve
import Dolorem.Codegen.Operands
import Dolorem.Codegen.Visits

/-!
# The functions quotations call

`setup_quote` keeps the functions that the code of a quotation calls in static
variables: they are those of the module that was current at the last quotation
that was begun. `mark` follows through the parts of an expression which module
that is, and `eval_marks` says that it agrees with the evaluation. `Emits` are
the moments at which `lower_quote` uses the variables.
-/

namespace Dolorem.Codegen

open CodeGraph

/-- What became of the static variables since some moment: nothing, the last
quotation was one of the current module, or it was one of a module made since. -/
inductive Cache where
  | kept
  | here
  | away
deriving DecidableEq, Repr

/-- The static variables of `quote.c`, and the counter of `static-cond`. -/
structure Mark where
  cache : Cache
  conds : Nat
deriving DecidableEq, Repr

namespace Mark

/-- Nothing happened yet. -/
def start (s : St) : Mark := ⟨.kept, s.staticCondNumber⟩

/-- After `setup_quote`. -/
def quoting (s : St) : Mark := ⟨.here, s.staticCondNumber⟩

/-- A function body is compiled, which changes its own mark by `body`. -/
def function (precompiled sameMod : Bool) (body : Mark → Mark) (m : Mark) : Mark :=
  if precompiled then
    let m' := body { m with cache := .kept }
    match m'.cache with
    | .kept => { m' with cache := m.cache }
    | .here => { m' with cache := if sameMod then .here else .away }
    | .away => m'
  else m

end Mark

section

variable (run : Nat → Bool) (precompiled : Bool)

mutual

def Expr.mark : Expr → Mark → Mark
  | .form _ _, m | .int _, m | .float _, m | .string _, m | .char _, m | .ident _, m => m
  | .break_, m | .continue_, m | .var _ _, m | .funptrTo _, m => m
  | .call _ args, m => markAll args m
  | .progn es, m => markAll es m
  | .scope es, m => markAll es m
  | .cond c body, m => body.mark (c.mark m)
  | .if_ c t e, m => e.mark (t.mark (c.mark m))
  | .while_ c body, m => body.mark (c.mark m)
  | .arith _ a b, m => b.mark (a.mark m)
  | .cmp _ a b, m => b.mark (a.mark m)
  | .assign a b, m => b.mark (a.mark m)
  | .not a, m => a.mark m
  | .defun _ body, m => m.function precompiled false body.mark
  | Expr.defmacro _ body, m => m.function precompiled false body.mark
  | Expr.deftypemacro _ body, m => m.function precompiled false body.mark
  | .lambda _ _ _ _ _ body, m => m.function precompiled true body.mark
  | .staticCond c body, m =>
    let m := { m with conds := m.conds + 1 }
    let m' := m.function precompiled false c.mark
    if run m.conds then body.mark m' else m'
  | .quote q, m => q.mark { m with cache := .here }

def Quoted.mark : Quoted → Mark → Mark
  | .nil, m | .int _, m | .float _, m | .string _, m | .ident _, m | .char _, m => m
  | .cons a d, m => d.mark (a.mark m)
  | .unquote e, m => e.mark m

def markAll : List Expr → Mark → Mark
  | [], m => m
  | e :: es, m => markAll es (e.mark m)

end

/-- Compiling a function does not undo what happened to the static variables. -/
theorem Mark.function_ne_kept (sameMod : Bool) (body : Mark → Mark) {m : Mark}
    (h : m.cache ≠ .kept) : (m.function precompiled sameMod body).cache ≠ .kept := by
  unfold Mark.function
  split
  · dsimp only
    split
    · exact h
    · cases sameMod <;> exact fun hc => nomatch hc
    · next hc => exact hc ▸ fun hc => nomatch hc
  · exact h

mutual

theorem Expr.mark_ne_kept : ∀ (e : Expr) {m : Mark}, m.cache ≠ .kept →
    (e.mark run precompiled m).cache ≠ .kept
  | .form _ _, _, h | .int _, _, h | .float _, _, h | .string _, _, h | .char _, _, h
  | .ident _, _, h | .break_, _, h | .continue_, _, h | .var _ _, _, h | .funptrTo _, _, h => by
    rw [Expr.mark]
    exact h
  | .call _ es, _, h | .progn es, _, h | .scope es, _, h => by
    rw [Expr.mark]
    exact markAll_ne_kept es h
  | .cond c body, _, h | .while_ c body, _, h => by
    rw [Expr.mark]
    exact body.mark_ne_kept (c.mark_ne_kept h)
  | .if_ c t e, _, h => by
    rw [Expr.mark]
    exact e.mark_ne_kept (t.mark_ne_kept (c.mark_ne_kept h))
  | .arith _ a b, _, h | .cmp _ a b, _, h | .assign a b, _, h => by
    rw [Expr.mark]
    exact b.mark_ne_kept (a.mark_ne_kept h)
  | .not a, _, h => by
    rw [Expr.mark]
    exact a.mark_ne_kept h
  | .defun _ _, _, h | Expr.defmacro _ _, _, h | Expr.deftypemacro _ _, _, h
  | .lambda _ _ _ _ _ _, _, h => by
    rw [Expr.mark]
    exact Mark.function_ne_kept _ _ _ h
  | .staticCond c body, m, h => by
    rw [Expr.mark]
    have hcond : (Mark.function precompiled false (c.mark run precompiled)
        { m with conds := m.conds + 1 }).cache ≠ .kept := Mark.function_ne_kept _ _ _ h
    dsimp only
    split
    · exact body.mark_ne_kept hcond
    · exact hcond
  | .quote q, _, _ => by
    rw [Expr.mark]
    exact q.mark_ne_kept fun hc => nomatch hc

theorem Quoted.mark_ne_kept : ∀ (q : Quoted) {m : Mark}, m.cache ≠ .kept →
    (q.mark run precompiled m).cache ≠ .kept
  | .nil, _, h | .int _, _, h | .float _, _, h | .string _, _, h | .ident _, _, h
  | .char _, _, h => by
    rw [Quoted.mark]
    exact h
  | .cons a d, _, h => by
    rw [Quoted.mark]
    exact d.mark_ne_kept (a.mark_ne_kept h)
  | .unquote e, _, h => by
    rw [Quoted.mark]
    exact e.mark_ne_kept h

theorem markAll_ne_kept : ∀ (es : List Expr) {m : Mark}, m.cache ≠ .kept →
    (markAll run precompiled es m).cache ≠ .kept
  | [], _, h => by
    rw [markAll]
    exact h
  | e :: es, _, h => by
    rw [markAll]
    exact markAll_ne_kept es (e.mark_ne_kept h)

end

theorem mark_progn (es : List Expr) (m : Mark) :
    (Expr.progn es).mark run precompiled m = markAll run precompiled es m := by
  rw [Expr.mark]

end

/-! ## What a mark says about the state -/

/-- `v` is the function called `name` of module `k`. -/
def Names (s : St) (k : Nat) (name : String) (v : Value) : Prop :=
  ∃ id ty, v.ref = .fn id ∧ s.fns[id]? = some ⟨k, some name, ty⟩

/-- The static variables are functions of module `k`. -/
structure CachedIn (s : St) (k : Nat) : Prop where
  cons : Names s k "cons" s.quoteFuns.cons
  nil : Names s k "make_nil_val" s.quoteFuns.nil
  int : Names s k "make_int_val" s.quoteFuns.int
  string : Names s k "make_string_val" s.quoteFuns.string
  ident : Names s k "make_ident_val" s.quoteFuns.ident
  char : Names s k "make_char_val" s.quoteFuns.char

/-- What the mark `c` says about the static variables in `s` since `s₀`. -/
def Cache.Says (s₀ s : St) : Cache → Prop
  | .kept => s.quoteFuns = s₀.quoteFuns
  | .here => CachedIn s s.mod
  | .away => ∃ k, s₀.mods ≤ k ∧ CachedIn s k

/-- The functions that are compiled and that own blocks exist. -/
def Owned (s : St) : Prop :=
  (∀ fn, s.curllvmfn = some fn → fn < s.fns.length) ∧
    ∀ b fn, s.graph.owner? b = some fn → fn < s.fns.length

/-- Between `s₀` and `s` the static variables became what `m` says, and the same
function is compiled. -/
structure Marks (s₀ : St) (m : Mark) (s : St) : Prop where
  curllvmfn : s.curllvmfn = s₀.curllvmfn
  mod : s.mod = s₀.mod
  mods : s₀.mods ≤ s.mods
  precompiled : s.precompiled = s₀.precompiled
  fns : s₀.fns <+: s.fns
  conds : s.staticCondNumber = m.conds
  cache : m.cache.Says s₀ s
  owned : Owned s₀ → Owned s

/-- What a mark and its context speak about. -/
def St.watched (s : St) : Option Nat × Nat × Nat × Bool × List LFun × Nat × QuoteFuns ×
    (Nat → Option Nat) :=
  (s.curllvmfn, s.mod, s.mods, s.precompiled, s.fns, s.staticCondNumber, s.quoteFuns,
    s.graph.owner?)

variable {run : Nat → Bool} {s₀ s s' s₁ s₂ : St} {m : Mark} {r : Rtv} {c t e body : Expr}
variable {es : List Expr} {q : Quoted} {k : Nat} {name : String} {v : Value}

theorem Names.mono (h : Names s k name v) (hfns : s.fns <+: s'.fns) : Names s' k name v := by
  obtain ⟨id, ty, hv, hid⟩ := h
  obtain ⟨more, hmore⟩ := hfns
  refine ⟨id, ty, hv, ?_⟩
  rw [← hmore, List.getElem?_append_left (List.getElem?_eq_some_iff.1 hid).1, hid]

theorem CachedIn.mono (h : CachedIn s k) (hfns : s.fns <+: s'.fns)
    (hq : s'.quoteFuns = s.quoteFuns) : CachedIn s' k := by
  rcases h with ⟨h₁, h₂, h₃, h₄, h₅, h₆⟩
  constructor <;> rw [hq]
  exacts [h₁.mono hfns, h₂.mono hfns, h₃.mono hfns, h₄.mono hfns, h₅.mono hfns, h₆.mono hfns]

theorem Cache.Says.step {c : Cache} (h : c.Says s₀ s) (hmod : s'.mod = s.mod)
    (hfns : s.fns <+: s'.fns) (hq : s'.quoteFuns = s.quoteFuns) : c.Says s₀ s' := by
  cases c with
  | kept => exact hq.trans h
  | here =>
    show CachedIn s' s'.mod
    rw [hmod]
    exact CachedIn.mono h hfns hq
  | away =>
    obtain ⟨k, hk, h⟩ := h
    exact ⟨k, hk, h.mono hfns hq⟩

namespace Marks

theorem start (s : St) : Marks s (.start s) s :=
  ⟨rfl, rfl, le_rfl, rfl, List.prefix_rfl, rfl, rfl, id⟩

/-- The state changes where the mark says nothing. -/
theorem step (h : Marks s₀ m s) (hfn : s'.curllvmfn = s.curllvmfn) (hmod : s'.mod = s.mod)
    (hmods : s'.mods = s.mods) (hp : s'.precompiled = s.precompiled) (hfns : s.fns <+: s'.fns)
    (hc : s'.staticCondNumber = s.staticCondNumber) (hq : s'.quoteFuns = s.quoteFuns)
    (ho : s'.graph.owner? = s.graph.owner?) : Marks s₀ m s' where
  curllvmfn := hfn.trans h.curllvmfn
  mod := hmod.trans h.mod
  mods := hmods ▸ h.mods
  precompiled := hp.trans h.precompiled
  fns := h.fns.trans hfns
  conds := hc.trans h.conds
  cache := h.cache.step hmod hfns hq
  owned h₀ := by
    obtain ⟨hcur, hown⟩ := h.owned h₀
    refine ⟨fun fn h => ?_, fun b fn h => ?_⟩
    · exact (hcur fn (hfn ▸ h)).trans_le hfns.length_le
    · exact (hown b fn (ho ▸ h)).trans_le hfns.length_le

theorem quiet (h : Marks s₀ m s) (hs : s'.watched = s.watched) : Marks s₀ m s' := by
  simp only [St.watched, Prod.mk.injEq] at hs
  obtain ⟨hfn, hmod, hmods, hp, hfns, hc, hq, ho⟩ := hs
  exact h.step hfn hmod hmods hp (hfns ▸ List.prefix_rfl) hc hq ho

theorem emitAll (h : Marks s₀ m s) (is : List Instr) : Marks s₀ m (s.emitAll is) :=
  h.step rfl rfl rfl rfl List.prefix_rfl rfl rfl (funext fun b => Cfg.owner?_append _ _ b is)

/-- An instruction, and on in another block. -/
theorem jump (h : Marks s₀ m s) (i : Instr) (b : Nat) : Marks s₀ m ((s.emit i).position b) :=
  (h.emitAll [i]).quiet rfl

/-- A new block of the function that is compiled. -/
theorem fresh (h : Marks s₀ m s) {fn : Nat} (hfn : s.curllvmfn = some fn) :
    Marks s₀ m { s with graph := s.graph.fresh fn } where
  curllvmfn := h.curllvmfn
  mod := h.mod
  mods := h.mods
  precompiled := h.precompiled
  fns := h.fns
  conds := h.conds
  cache := h.cache.step rfl List.prefix_rfl rfl
  owned h₀ := by
    obtain ⟨hcur, hown⟩ := h.owned h₀
    refine ⟨hcur, fun b f hb => ?_⟩
    rcases Cfg.owner?_fresh_cases _ hb with hb | ⟨-, rfl⟩
    · exact hown b f hb
    · exact hcur f hfn

theorem writes {P C : Ref → Prop} (h : Marks s₀ m s) (w : Writes P C s s') : Marks s₀ m s' := by
  obtain ⟨is, rfl, -⟩ := w
  exact h.emitAll is

theorem appendBlock {b : Nat} (h : Marks s₀ m s) (hb : s.appendBlock = .ok (b, s')) :
    Marks s₀ m s' := by
  unfold St.appendBlock at hb
  split at hb
  · cases hb
  · next fn hfn =>
    cases hb
    exact h.fresh hfn

theorem threeBlocks {fn : Nat} (h : Marks s₀ m s) (hfn : s.curllvmfn = some fn) :
    Marks s₀ m (threeBlocks fn s) :=
  ((h.fresh hfn).fresh hfn).fresh hfn

end Marks

/-- A function that is looked up or declared in the current module. -/
theorem requireFunction_names (f : Fun) (s : St) :
    s.fns <+: (s.requireFunction f).2.fns ∧
      Names (s.requireFunction f).2 s.mod f.name (s.requireFunction f).1 := by
  unfold St.requireFunction
  dsimp only
  split
  · next hnull =>
    have htaken : (s.fns.any fun lf => lf.mod = s.mod ∧ lf.name = some f.name) = false := by
      unfold St.getNamedFunction at hnull
      split at hnull
      · cases hnull
      · next hnone =>
        rw [List.findIdx?_eq_none_iff] at hnone
        exact List.any_eq_false.2 fun lf hlf => Bool.eq_false_iff.1 (hnone lf hlf)
    refine ⟨List.prefix_append _ _, s.fns.length, f.funtype, rfl, ?_⟩
    show (s.fns ++ [_])[s.fns.length]? = _
    rw [htaken]
    exact List.getElem?_concat_length
  · next hnull =>
    refine ⟨List.prefix_rfl, ?_⟩
    unfold St.getNamedFunction at hnull ⊢
    split at hnull
    · next i hi =>
      obtain ⟨hlt, hnamed, -⟩ := List.findIdx?_eq_some_iff_getElem.1 hi
      obtain ⟨hmod, hname⟩ := of_decide_eq_true hnamed
      refine ⟨i, s.fns[i].ty, rfl, ?_⟩
      rw [List.getElem?_eq_getElem hlt, ← hmod, ← hname]
    · exact absurd rfl hnull

theorem Marks.requireFunction (h : Marks s₀ m s) (f : Fun) :
    Marks s₀ m (s.requireFunction f).2 := by
  have hfns := (requireFunction_names f s).1
  obtain ⟨fns, heq⟩ := requireFunction_eq f s
  rw [heq] at hfns ⊢
  exact h.step rfl rfl rfl rfl hfns rfl rfl rfl

/-! ## Evaluation follows the marks -/

/-- Evaluating `e` does to the static variables what its mark says. -/
def Marked (run : Nat → Bool) (e : Expr) : Prop :=
  ∀ {s₀ m s r s'}, Marks s₀ m s → eval run e s = .ok (r, s') →
    Marks s₀ (e.mark run s₀.precompiled m) s'

/-- No reference is ruled out: what is emitted does not matter here. -/
def anyRef (_ : Ref) : Prop := True

theorem ofBlock_anyRef (s : St) : OfBlock anyRef s := fun _ => trivial

theorem Marks.prepareRead {v : Rtv} (h : Marks s₀ m s) (hr : prepareRead v s = .ok (r, s')) :
    Marks s₀ m s' :=
  h.writes (C := anyRef) (prepareRead_writes (ofBlock_anyRef s) trivial hr).1

theorem Marks.toCondition {v : Rtv} (h : Marks s₀ m s) (hr : toCondition v s = .ok (r, s')) :
    Marks s₀ m s' :=
  h.writes (C := anyRef) (toCondition_writes (ofBlock_anyRef s) trivial hr).1

theorem marks_progn (hes : ∀ e ∈ es, Marked run e) (h : Marks s₀ m s)
    (hr : evalProgn run es s = .ok (r, s')) : Marks s₀ (markAll run s₀.precompiled es m) s' := by
  induction es generalizing m s r with
  | nil =>
    rw [evalProgn] at hr
    cases hr
    rw [markAll]
    exact h
  | cons e es ih =>
    obtain ⟨r₁, s₁, r₂, h₁, h₂⟩ := evalProgn_cons_ok hr
    rw [markAll]
    exact ih (fun e he => hes e (List.mem_cons_of_mem _ he)) (hes e List.mem_cons_self h h₁) h₂

theorem marks_args (hes : ∀ e ∈ es, Marked run e) {vs : List Rtv} (h : Marks s₀ m s)
    (hr : evalArgs run es s = .ok (vs, s')) : Marks s₀ (markAll run s₀.precompiled es m) s' := by
  induction es generalizing m s vs with
  | nil =>
    rw [evalArgs] at hr
    cases hr
    rw [markAll]
    exact h
  | cons e es ih =>
    rw [evalArgs] at hr
    obtain ⟨⟨v, s₁⟩, h₁, hr⟩ := bind_ok.1 hr
    obtain ⟨⟨vs', s₂⟩, h₂, hr⟩ := bind_ok.1 hr
    cases hr
    rw [markAll]
    exact ih (fun e he => hes e (List.mem_cons_of_mem _ he)) (hes e List.mem_cons_self h h₁) h₂

theorem marked_call {f : String} (hes : ∀ e ∈ es, Marked run e) : Marked run (.call f es) := by
  intro s₀ m s r s' h hr
  rw [eval] at hr
  rw [Expr.mark]
  split at hr
  · cases hr
  · next f hf =>
    obtain ⟨⟨vs, s₁⟩, h₁, hr⟩ := bind_ok.1 hr
    have hargs := marks_args hes (h.requireFunction f) h₁
    obtain ⟨is, rfl, -⟩ := lowerFuncall_ok hr
    exact hargs.emitAll is

theorem marked_scope (hes : ∀ e ∈ es, Marked run e) : Marked run (.scope es) := by
  intro s₀ m s r s' h hr
  rw [eval] at hr
  rw [Expr.mark]
  split at hr
  · exact marks_progn hes h hr
  · next scopes _ =>
    obtain ⟨⟨r₁, s₁⟩, h₁, hr⟩ := bind_ok.1 hr
    cases hr
    have hin : Marks s₀ m { s with curfn := some ([] :: scopes) } := h.quiet rfl
    exact (marks_progn hes hin h₁).quiet rfl

theorem marked_cond (hc : Marked run c) (hb : Marked run body) : Marked run (.cond c body) := by
  intro s₀ m s r s' h hr
  rw [eval] at hr
  rw [Expr.mark]
  obtain ⟨⟨cv, s₁⟩, h₁, hr⟩ := bind_ok.1 hr
  obtain ⟨⟨cb, s₂⟩, h₂, hr⟩ := bind_ok.1 hr
  obtain ⟨⟨b₁, s₃⟩, h₃, hr⟩ := bind_ok.1 hr
  obtain ⟨⟨b₂, s₄⟩, h₄, hr⟩ := bind_ok.1 hr
  obtain ⟨⟨rb, s₅⟩, h₅, hr⟩ := bind_ok.1 hr
  cases hr
  have hready := ((hc h h₁).toCondition h₂).appendBlock h₃ |>.appendBlock h₄
  exact (hb (hready.jump _ _) h₅).jump _ _

theorem Marks.ifEnd {n : Nat} {rt re : Rtv} (h : Marks s₀ m s)
    (hr : ifEnd n rt re s = .ok (r, s')) : Marks s₀ m s' := by
  unfold Codegen.ifEnd at hr
  obtain ⟨dest, -, hr⟩ := bind_ok.1 hr
  obtain ⟨⟨κ, s₁⟩, hκ, hr⟩ := bind_ok.1 hr
  obtain ⟨⟨phi, s₂⟩, hphi, hr⟩ := bind_ok.1 hr
  have h₁ := h.writes (C := anyRef) (convertType_writes (ofBlock_anyRef s) trivial hκ).1
  have h₂ : Marks s₀ m s₂ := by
    unfold St.buildPhi at hphi
    split at hphi
    · cases hphi
    · cases hphi
      exact (h₁.jump _ _).emitAll _
  have incoming : ∀ {s}, Marks s₀ m s → ∀ v b, Marks s₀ m (s.addIncoming phi v b) := by
    intro s h v b
    unfold St.addIncoming
    split
    · exact h.step rfl rfl rfl rfl List.prefix_rfl rfl rfl
        (funext fun b => Cfg.owner?_update _ _ b _)
    · exact h
  cases κ with
  | none => cases hr
  | some κ =>
    cases hr
    exact incoming (incoming h₂ _ _) _ _

theorem marked_if (hc : Marked run c) (ht : Marked run t) (he : Marked run e) :
    Marked run (.if_ c t e) := by
  intro s₀ m s r s' h hr
  cases hfn : s.curllvmfn with
  | none =>
    rw [eval] at hr
    obtain ⟨⟨b, s₁⟩, h₁, -⟩ := bind_ok.1 hr
    unfold St.appendBlock at h₁
    rw [hfn] at h₁
    cases h₁
  | some fn =>
    rw [eval_if hfn] at hr
    rw [Expr.mark]
    obtain ⟨⟨cv, s₁⟩, h₁, hr⟩ := bind_ok.1 hr
    obtain ⟨⟨cb, s₂⟩, h₂, hr⟩ := bind_ok.1 hr
    obtain ⟨⟨rt, s₃⟩, h₃, hr⟩ := bind_ok.1 hr
    obtain ⟨⟨re, s₄⟩, h₄, hr⟩ := bind_ok.1 hr
    have hready := (hc (h.threeBlocks hfn) h₁).toCondition h₂
    have hthen := ht (hready.jump _ _) h₃
    exact (he (hthen.jump _ _) h₄).ifEnd hr

theorem marked_while (hc : Marked run c) (hb : Marked run body) :
    Marked run (.while_ c body) := by
  intro s₀ m s r s' h hr
  cases hfn : s.curllvmfn with
  | none =>
    rw [eval] at hr
    obtain ⟨⟨b, s₁⟩, h₁, -⟩ := bind_ok.1 hr
    unfold St.appendBlock at h₁
    rw [hfn] at h₁
    cases h₁
  | some fn =>
    rw [eval_while hfn] at hr
    rw [Expr.mark]
    obtain ⟨⟨cv, s₁⟩, h₁, hr⟩ := bind_ok.1 hr
    obtain ⟨⟨cb, s₂⟩, h₂, hr⟩ := bind_ok.1 hr
    obtain ⟨⟨rb, s₃⟩, h₃, hr⟩ := bind_ok.1 hr
    cases hr
    have hready := (hc ((h.threeBlocks hfn).jump _ _) h₁).toCondition h₂
    have hin : Marks s₀ (c.mark run s₀.precompiled m)
        ((loopStart s.graph.size cb.v s₂).enterLoop s.graph.size (s.graph.size + 2)) :=
      (hready.jump _ (s.graph.size + 1)).quiet rfl
    have hout : Marks s₀ _ ((loopStart s.graph.size cb.v s₂).restoreLoop s₃) :=
      (hb hin h₃).quiet rfl
    exact hout.jump _ _

theorem Marks.jumpOut {dest : Option Nat} (h : Marks s₀ m s)
    (hr : jumpOut dest s = .ok (r, s')) : Marks s₀ m s' := by
  cases dest with
  | none => cases hr
  | some b =>
    obtain ⟨⟨d, s₁⟩, h₁, hr⟩ := bind_ok.1 hr
    cases hr
    exact ((h.emitAll [.br b]).appendBlock h₁).quiet rfl

theorem marked_break : Marked run .break_ := by
  intro s₀ m s r s' h hr
  rw [eval] at hr
  rw [Expr.mark]
  split at hr
  · exact h.jumpOut hr
  · cases hr

theorem marked_continue : Marked run .continue_ := by
  intro s₀ m s r s' h hr
  rw [eval] at hr
  rw [Expr.mark]
  split at hr
  · exact h.jumpOut hr
  · cases hr

theorem marks_operands {a b : Expr} (ha : Marked run a) (hb : Marked run b) {p : Rtv × Rtv}
    (h : Marks s₀ m s) (hr : operands run a b s = .ok (p, s')) :
    Marks s₀ (b.mark run s₀.precompiled (a.mark run s₀.precompiled m)) s' := by
  obtain ⟨⟨v, s₁⟩, h₁, hr⟩ := bind_ok.1 hr
  obtain ⟨⟨w, s₂⟩, h₂, hr⟩ := bind_ok.1 hr
  obtain ⟨⟨v', s₃⟩, h₃, hr⟩ := bind_ok.1 hr
  obtain ⟨⟨w', s₄⟩, h₄, hr⟩ := bind_ok.1 hr
  have hread := (hb ((ha h h₁).prepareRead h₂) h₃).prepareRead h₄
  exact hread.writes (C := anyRef) (expectSameNumber_writes (ofBlock_anyRef s₄) trivial trivial hr).1

theorem marked_arith (op : ArithOp) {a b : Expr} (ha : Marked run a) (hb : Marked run b) :
    Marked run (.arith op a b) := by
  intro s₀ m s r s' h hr
  rw [eval_arith] at hr
  rw [Expr.mark]
  obtain ⟨⟨p, s₁⟩, h₁, hr⟩ := bind_ok.1 hr
  have hop := marks_operands ha hb h h₁
  exact hop.writes (C := anyRef) (buildArith_writes (ofBlock_anyRef s₁) trivial trivial hr).1

theorem marked_cmp (op : CmpOp) {a b : Expr} (ha : Marked run a) (hb : Marked run b) :
    Marked run (.cmp op a b) := by
  intro s₀ m s r s' h hr
  rw [eval_cmp] at hr
  rw [Expr.mark]
  obtain ⟨⟨p, s₁⟩, h₁, hr⟩ := bind_ok.1 hr
  cases hr
  exact (marks_operands ha hb h h₁).emitAll _

theorem marked_not {a : Expr} (ha : Marked run a) : Marked run (.not a) := by
  intro s₀ m s r s' h hr
  rw [eval] at hr
  rw [Expr.mark]
  obtain ⟨⟨v, s₁⟩, h₁, hr⟩ := bind_ok.1 hr
  obtain ⟨⟨w, s₂⟩, h₂, hr⟩ := bind_ok.1 hr
  cases hr
  exact ((ha h h₁).prepareRead h₂).emitAll _

theorem marked_assign {a b : Expr} (ha : Marked run a) (hb : Marked run b) :
    Marked run (.assign a b) := by
  intro s₀ m s r s' h hr
  rw [eval] at hr
  rw [Expr.mark]
  obtain ⟨⟨v, s₁⟩, h₁, hr⟩ := bind_ok.1 hr
  obtain ⟨⟨w, s₂⟩, h₂, hr⟩ := bind_ok.1 hr
  obtain ⟨s₃, h₃, hr⟩ := bind_ok.1 hr
  cases hr
  exact (hb (ha h h₁) h₂).writes (C := anyRef)
    (lowerAssign_writes (ofBlock_anyRef s₂) trivial trivial h₃)

theorem marked_var (name : String) (t : Rtt) : Marked run (.var name t) := by
  intro s₀ m s r s' h hr
  rw [eval] at hr
  rw [Expr.mark]
  unfold addVariable at hr
  split at hr
  · cases hr
    exact (h.emitAll [.alloca t.l]).quiet rfl
  · cases hr

theorem marked_funptrTo (f : String) : Marked run (.funptrTo f) := by
  intro s₀ m s r s' h hr
  rw [eval] at hr
  rw [Expr.mark]
  split at hr
  · cases hr
  · next g _ =>
    cases hr
    exact h.requireFunction g

/-! ### Function bodies -/

/-- What entering a function does, as far as marks are concerned. -/
theorem enterFunction_watched (f : Fun) (sameMod : Bool) (s : St) :
    (enterFunction f sameMod s).watched =
      (some s.fns.length, if sameMod then s.mod else s.mods, if sameMod then s.mods else s.mods + 1,
        s.precompiled, (entryState f sameMod s).fns, s.staticCondNumber, s.quoteFuns,
        (s.graph.fresh s.fns.length).owner?) := by
  obtain ⟨is, vars, -, henter⟩ := enterFunction_eq f sameMod s
  have howner : (enterFunction f sameMod s).graph.owner? = (s.graph.fresh s.fns.length).owner? := by
    rw [henter, ← entryState_graph f sameMod s]
    exact funext fun b => Cfg.owner?_append _ _ b is
  rw [St.watched, howner, henter]
  cases sameMod <;> rfl

theorem entryState_fns (f : Fun) (sameMod : Bool) (s : St) :
    s.fns <+: (entryState f sameMod s).fns := by
  cases sameMod <;> exact List.prefix_append _ _

/-- A body is compiled between `s` and `s'`. -/
theorem Marks.leave {f : Fun} {sameMod : Bool} {body : Mark → Mark} (h : Marks s₀ m s)
    (hp : s₀.precompiled = true)
    (k : Marks (enterFunction f sameMod s) (body { m with cache := .kept }) s₁)
    (hs' : s'.watched = (s.curllvmfn, if sameMod then s₁.mod else s.mod, s₁.mods, s₁.precompiled,
      s₁.fns, s₁.staticCondNumber, s₁.quoteFuns, s₁.graph.owner?)) :
    Marks s₀ (m.function s₀.precompiled sameMod body) s' := by
  have henter := enterFunction_watched f sameMod s
  simp only [St.watched, Prod.mk.injEq] at henter hs'
  obtain ⟨hcur, hmod, hmods, hpre, hfns, -, hq, howner⟩ := henter
  obtain ⟨sfn, smod, smods, spre, sfns, sconds, sq, sowner⟩ := hs'
  have hmod' : s'.mod = s.mod := by
    rw [smod]
    split
    · next hsame => rw [k.mod, hmod, if_pos hsame]
    · rfl
  have hprefix : s.fns <+: s'.fns := by
    rw [sfns]
    exact (hfns ▸ entryState_fns f sameMod s).trans k.fns
  have hle : s.mods ≤ (enterFunction f sameMod s).mods := by
    rw [hmods]
    split
    · exact le_rfl
    · exact Nat.le_succ _
  rw [hp]
  refine
    { curllvmfn := sfn.trans h.curllvmfn
      mod := hmod'.trans h.mod
      mods := h.mods.trans (hle.trans (smods ▸ k.mods))
      precompiled := ?_
      fns := h.fns.trans hprefix
      conds := ?_
      cache := ?_
      owned := ?_ }
  · rw [spre, k.precompiled, hpre, h.precompiled, hp]
  · rw [sconds, k.conds, Mark.function, if_pos rfl]
    dsimp only
    split <;> rfl
  -- a cache that the body has filled is in the module of the body
  · have hcache := k.cache
    rw [Mark.function, if_pos rfl]
    dsimp only
    split
    · next hm =>
      rw [hm] at hcache
      exact h.cache.step hmod' hprefix (sq.trans (Eq.trans hcache hq))
    · next hm =>
      rw [hm] at hcache
      have hin : CachedIn s' s₁.mod := CachedIn.mono hcache (sfns ▸ List.prefix_rfl) sq
      rw [k.mod, hmod] at hin
      cases sameMod with
      | true =>
        show CachedIn s' s'.mod
        rw [hmod']
        exact hin
      | false => exact ⟨s.mods, h.mods, hin⟩
    · next hm =>
      rw [hm] at hcache
      obtain ⟨n, hn, hin⟩ := hcache
      rw [hm]
      exact ⟨n, h.mods.trans (hle.trans hn), hin.mono (sfns ▸ List.prefix_rfl) sq⟩
  -- the new function owns its entry block, and the old ones keep theirs
  · intro h₀
    obtain ⟨hlt, hown⟩ := h.owned h₀
    have hnew : s.fns.length < (enterFunction f sameMod s).fns.length := by
      rw [hfns]
      cases sameMod <;> exact List.length_append ▸ Nat.lt_succ_self _
    have hentered : Owned (enterFunction f sameMod s) := by
      refine ⟨fun fn hfn => ?_, fun b fn hb => ?_⟩
      · rw [hcur] at hfn
        exact Option.some_inj.1 hfn ▸ hnew
      · rw [howner] at hb
        rcases Cfg.owner?_fresh_cases _ hb with hb | ⟨-, rfl⟩
        · exact (hown b fn hb).trans hnew
        · exact hnew
    refine ⟨fun fn hfn => ?_, fun b fn hb => ?_⟩
    · exact (hlt fn (sfn ▸ hfn)).trans_le hprefix.length_le
    · rw [sowner] at hb
      rw [sfns]
      exact (k.owned hentered).2 b fn hb

theorem marks_funbody {f : Fun} {sameMod : Bool} (hb : Marked run body) (h : Marks s₀ m s)
    (hr : funbody (eval run body) f sameMod s = .ok s') :
    Marks s₀ (m.function s₀.precompiled sameMod (body.mark run s₀.precompiled)) s' := by
  unfold funbody at hr
  split at hr
  · next hp =>
    have hp₀ : s₀.precompiled = true := h.precompiled ▸ hp
    have henter := enterFunction_watched f sameMod s
    simp only [St.watched, Prod.mk.injEq] at henter
    obtain ⟨-, -, -, hpre, -, hconds, -, -⟩ := henter
    obtain ⟨⟨v, s₁⟩, h₁, hr⟩ := bind_ok.1 hr
    obtain ⟨⟨w, s₂⟩, h₂, hr⟩ := bind_ok.1 hr
    obtain ⟨s₃, h₃, hr⟩ := bind_ok.1 hr
    have hstart := Marks.start (enterFunction f sameMod s)
    rw [Mark.start, hconds, h.conds] at hstart
    have hbody := (hb hstart h₁).prepareRead h₂
    rw [hpre, h.precompiled] at hbody
    have hret := hbody.writes (C := anyRef) (buildReturn_writes (ofBlock_anyRef s₂) trivial h₃)
    refine h.leave hp₀ hret ?_
    cases hr
    cases s.bldr <;> rfl
  · next hp =>
    cases hr
    rw [h.precompiled] at hp
    rw [Mark.function, if_neg hp]
    exact h

theorem registerNew_watched {f : Fun} (h : registerNew f s = .ok s') : s'.watched = s.watched := by
  obtain rfl := registerNew_ok h
  rfl

theorem marked_defun (f : Fun) (hb : Marked run body) : Marked run (.defun f body) := by
  intro s₀ m s r s' h hr
  rw [eval] at hr
  rw [Expr.mark]
  obtain ⟨s₁, h₁, hr⟩ := bind_ok.1 hr
  obtain ⟨s₂, h₂, hr⟩ := bind_ok.1 hr
  cases hr
  exact marks_funbody hb (h.quiet (registerNew_watched h₁)) h₂

/-- `defmacro` and `deftypemacro`. -/
theorem marks_define (f : Fun) (hb : Marked run body) (h : Marks s₀ m s)
    (hr : (funbody (eval run body) f false (s.register f) >>= fun s' => .ok (nullRtv, s')) =
      .ok (r, s')) :
    Marks s₀ (m.function s₀.precompiled false (body.mark run s₀.precompiled)) s' := by
  obtain ⟨s₁, h₁, hr⟩ := bind_ok.1 hr
  cases hr
  exact marks_funbody hb (h.quiet (by rfl)) h₁

theorem marked_lambda (fileIdx charIdx : Nat) (ret : Rtt) (parms : List (String × Rtt))
    (vaArgs : Bool) (hb : Marked run body) :
    Marked run (.lambda fileIdx charIdx ret parms vaArgs body) := by
  intro s₀ m s r s' h hr
  rw [eval] at hr
  rw [Expr.mark]
  obtain ⟨s₁, h₁, hr⟩ := bind_ok.1 hr
  cases hr
  exact marks_funbody hb h h₁

/-- Up to the body of a `static-cond`. -/
theorem marks_static (hc : Marked run c) (h : Marks s₀ m s)
    (h₁ : registerNew (condFun (s.staticCondNumber + 1))
      { s with staticCondNumber := s.staticCondNumber + 1 } = .ok s₁)
    (h₂ : funbody (eval run c) (condFun (s.staticCondNumber + 1)) false s₁ = .ok s₂) :
    Marks s₀ (Mark.function s₀.precompiled false (c.mark run s₀.precompiled)
      { m with conds := m.conds + 1 }) s₂ := by
  have hnext : Marks s₀ { m with conds := m.conds + 1 } s₁ := by
    obtain rfl := registerNew_ok h₁
    exact ⟨h.curllvmfn, h.mod, h.mods, h.precompiled, h.fns, congrArg Nat.succ h.conds,
      h.cache.step rfl List.prefix_rfl rfl, h.owned⟩
  exact marks_funbody hc hnext h₂

theorem marked_staticCond (hc : Marked run c) (hb : Marked run body) :
    Marked run (.staticCond c body) := by
  intro s₀ m s r s' h hr
  rw [eval] at hr
  rw [Expr.mark]
  obtain ⟨s₁, h₁, hr⟩ := bind_ok.1 hr
  obtain ⟨s₂, h₂, hr⟩ := bind_ok.1 hr
  have hcond := marks_static hc h h₁ h₂
  simp only [← h.conds] at hcond ⊢
  split at hr
  · next hrun =>
    obtain ⟨⟨rb, s₃⟩, h₃, hr⟩ := bind_ok.1 hr
    cases hr
    rw [if_pos hrun]
    exact hb hcond h₃
  · next hrun =>
    cases hr
    rw [if_neg hrun]
    exact hcond

/-! ### Quotations -/

/-- `setup_quote` declares one function after the other. -/
theorem setupQuote_ind {motive : St → Prop} (s : St)
    (h : ∀ cons nil int char string ident : Value × St,
      cons = s.requireFunction (quoteFun "cons" [.ptr (.int 8), .ptr (.int 8)]) →
      nil = cons.2.requireFunction (quoteFun "make_nil_val" []) →
      int = nil.2.requireFunction (quoteFun "make_int_val" [.int 64]) →
      char = int.2.requireFunction (quoteFun "make_char_val" [.int 8]) →
      string = char.2.requireFunction (quoteFun "make_string_val" [.ptr (.int 8)]) →
      ident = string.2.requireFunction (quoteFun "make_ident_val" [.ptr (.int 8)]) →
      motive { ident.2 with
        quoteFuns := ⟨cons.1, nil.1, int.1, string.1, ident.1, char.1⟩ }) :
    motive s.setupQuote :=
  h _ _ _ _ _ _ rfl rfl rfl rfl rfl rfl

/-- A function that `setup_quote` declares, in a state with the module of `s`. -/
theorem Marks.declare {f : Fun} {p : Value × St} (h : Marks s₀ m s) (hp : p = s.requireFunction f) :
    Marks s₀ m p.2 ∧ s.fns <+: p.2.fns ∧ Names p.2 s₀.mod f.name p.1 := by
  subst hp
  have hnames := requireFunction_names f s
  rw [h.mod] at hnames
  exact ⟨h.requireFunction f, hnames⟩

/-- After `setup_quote` the static variables are functions of the current module. -/
theorem Marks.setupQuote (h : Marks s₀ m s) :
    Marks s₀ { m with cache := .here } s.setupQuote := by
  refine setupQuote_ind s fun cons nil int char string ident h₁ h₂ h₃ h₄ h₅ h₆ => ?_
  obtain ⟨k₁, -, n₁⟩ := h.declare h₁
  obtain ⟨k₂, p₂, n₂⟩ := k₁.declare h₂
  obtain ⟨k₃, p₃, n₃⟩ := k₂.declare h₃
  obtain ⟨k₄, p₄, n₄⟩ := k₃.declare h₄
  obtain ⟨k₅, p₅, n₅⟩ := k₄.declare h₅
  obtain ⟨k₆, p₆, n₆⟩ := k₅.declare h₆
  refine ⟨k₆.curllvmfn, k₆.mod, k₆.mods, k₆.precompiled, k₆.fns, k₆.conds, ?_, k₆.owned⟩
  show CachedIn _ ident.2.mod
  rw [k₆.mod]
  have p₅' := p₅.trans p₆
  have p₄' := p₄.trans p₅'
  have p₃' := p₃.trans p₄'
  exact ⟨n₁.mono (p₂.trans p₃'), n₂.mono p₃', n₃.mono p₄', n₅.mono p₆, n₆, n₄.mono p₅'⟩

/-- Lowering `q` does to the static variables what its mark says. -/
def MarkedQuoted (run : Nat → Bool) (q : Quoted) : Prop :=
  ∀ {s₀ m s v s'}, Marks s₀ m s → lowerQuote run q s = .ok (v, s') →
    Marks s₀ (q.mark run s₀.precompiled m) s'

theorem marked_quote (hq : MarkedQuoted run q) : Marked run (.quote q) := by
  intro s₀ m s r s' h hr
  rw [eval] at hr
  rw [Expr.mark]
  obtain ⟨⟨v, s₁⟩, h₁, hr⟩ := bind_ok.1 hr
  cases hr
  exact hq h.setupQuote h₁

theorem marked_unquote (he : Marked run e) : MarkedQuoted run (.unquote e) := by
  intro s₀ m s v s' h hr
  rw [lowerQuote] at hr
  rw [Quoted.mark]
  obtain ⟨⟨r, s₁⟩, h₁, hr⟩ := bind_ok.1 hr
  exact (he h h₁).writes (C := anyRef) (unquoteResult_writes (ofBlock_anyRef s₁) trivial hr).1

theorem marked_consQuoted {a d : Quoted} (ha : MarkedQuoted run a) (hd : MarkedQuoted run d) :
    MarkedQuoted run (.cons a d) := by
  intro s₀ m s v s' h hr
  rw [lowerQuote] at hr
  rw [Quoted.mark]
  obtain ⟨⟨va, s₁⟩, h₁, hr⟩ := bind_ok.1 hr
  obtain ⟨⟨vd, s₂⟩, h₂, hr⟩ := bind_ok.1 hr
  cases hr
  exact (hd (ha h h₁) h₂).emitAll _

mutual

theorem eval_marks (run : Nat → Bool) : ∀ e, Marked run e
  | .form _ _ => fun h hr => by
    rw [eval] at hr
    cases hr
    exact h.emitAll _
  | .int _ | .float _ | .string _ | .char _ => fun h hr => by
    rw [eval] at hr
    cases hr
    exact h
  | .ident x => fun h hr => by
    rw [eval] at hr
    obtain rfl := evalIdent_state hr
    exact h
  | .call _ args => marked_call (evals_mark run args)
  | .progn es => fun h hr => by
    rw [eval] at hr
    rw [mark_progn]
    exact marks_progn (evals_mark run es) h hr
  | .scope es => marked_scope (evals_mark run es)
  | .cond c body => marked_cond (eval_marks run c) (eval_marks run body)
  | .if_ c t e => marked_if (eval_marks run c) (eval_marks run t) (eval_marks run e)
  | .while_ c body => marked_while (eval_marks run c) (eval_marks run body)
  | .break_ => marked_break
  | .continue_ => marked_continue
  | .arith op a b => marked_arith op (eval_marks run a) (eval_marks run b)
  | .cmp op a b => marked_cmp op (eval_marks run a) (eval_marks run b)
  | .not a => marked_not (eval_marks run a)
  | .defun f body => marked_defun f (eval_marks run body)
  | Expr.defmacro name body => fun h hr => by
    rw [eval] at hr
    rw [Expr.mark]
    exact marks_define (macroproto name) (eval_marks run body) h hr
  | .lambda fileIdx charIdx ret parms vaArgs body =>
    marked_lambda fileIdx charIdx ret parms vaArgs (eval_marks run body)
  | .staticCond c body => marked_staticCond (eval_marks run c) (eval_marks run body)
  | Expr.deftypemacro name body => fun h hr => by
    rw [eval] at hr
    rw [Expr.mark]
    exact marks_define (typemacroproto name) (eval_marks run body) h hr
  | .var name t => marked_var name t
  | .assign a b => marked_assign (eval_marks run a) (eval_marks run b)
  | .funptrTo f => marked_funptrTo f
  | .quote q => marked_quote (lowerQuote_marks run q)

theorem lowerQuote_marks (run : Nat → Bool) : ∀ q, MarkedQuoted run q
  | .nil | .int _ | .ident _ | .string _ | .char _ => fun h hr => by
    rw [lowerQuote] at hr
    cases hr
    exact h.emitAll _
  | .float _ => fun _ hr => by
    rw [lowerQuote] at hr
    cases hr
  | .cons a d => marked_consQuoted (lowerQuote_marks run a) (lowerQuote_marks run d)
  | .unquote e => marked_unquote (eval_marks run e)

theorem evals_mark (run : Nat → Bool) : ∀ es : List Expr, ∀ e ∈ es, Marked run e
  | [] => fun _ h => nomatch h
  | e :: es => List.forall_mem_cons.2 ⟨eval_marks run e, evals_mark run es⟩

end

/-! ## Using the static variables -/

/-- Lowering `q` from `s`, with the mark `m`, comes to building a call of one of the static
variables, with the mark `m'`. -/
inductive Emits (run : Nat → Bool) : Quoted → St → Mark → Mark → Prop
  | nil (s : St) (m : Mark) : Emits run .nil s m m
  | int (i : Int) (s : St) (m : Mark) : Emits run (.int i) s m m
  | string (x : List Char) (s : St) (m : Mark) : Emits run (.string x) s m m
  | ident (x : List Char) (s : St) (m : Mark) : Emits run (.ident x) s m m
  | char (c : Int) (s : St) (m : Mark) : Emits run (.char c) s m m
  | car {a d : Quoted} {s : St} {m m' : Mark} : Emits run a s m m' → Emits run (.cons a d) s m m'
  | cdr {a d : Quoted} {s s₁ : St} {m m' : Mark} {v : Value} :
      lowerQuote run a s = .ok (v, s₁) → Emits run d s₁ (a.mark run s.precompiled m) m' →
      Emits run (.cons a d) s m m'
  | cons {a d : Quoted} {s s₁ s₂ : St} {m : Mark} {v w : Value} :
      lowerQuote run a s = .ok (v, s₁) → lowerQuote run d s₁ = .ok (w, s₂) →
      Emits run (.cons a d) s m (d.mark run s.precompiled (a.mark run s.precompiled m))

/-- Evaluating the quotation `q` in `s` uses the static variables only while the last quotation
that was begun is one of the current module. -/
def Steady (run : Nat → Bool) (q : Quoted) (s : St) : Prop :=
  ∀ m, Emits run q s.setupQuote (.quoting s) m → m.cache = .here

end Dolorem.Codegen
