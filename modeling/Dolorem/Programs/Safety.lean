import Dolorem.Programs.Confined
import Dolorem.Programs.Loading

/-!
# What programs never do

Whatever a function of a program calls, it writes to memory that was free and to
globals, and the variables of the functions that wait for it keep their values.
It comes to nothing undefined where it divides and shifts nothing and sets its
variables when it declares them, and it ends where nothing loops. The interpreter
has these properties by `Confines`, and the compiled code has them from it.
-/

namespace Dolorem.Programs

open Codegen Words Interp

variable {Γ : Ctx} {globals : List (String × IntTy)} {addr : String → Int} {base : Int}
variable {m : Mem} {σ : Store} {W T : Prop} {call : Caller} {fuel : Nat}
variable {funs : List Sig} {g : Func} {gs program : List Func} {s : St} {j : Jit.Tables}
variable {host : String → Option Nat} {ds : List (String × Nat)}

/-! ## Functions -/

theorem bindArgs_live {parms : List (String × IntTy)} {xs : List Int} (hl : Live W addr Γ base σ)
    (hlen : xs.length = parms.length) :
    Live W addr (Γ.add (parms.map fun p => (p.1, some p.2)).reverse) base (bindArgs parms xs σ) ∧
      Confined Γ.globals addr base σ.mem (bindArgs parms xs σ).mem := by
  induction parms generalizing xs σ Γ with
  | nil =>
    rw [bindArgs]
    exact ⟨hl, .refl _⟩
  | cons p parms ih =>
    cases xs with
    | nil => cases hlen
    | cons x xs =>
      have hdecl : Live W addr ((Γ.add [(p.1, none)]).add []) base (σ.declare p.1) :=
        hl.declare p.1 (by rintro ⟨⟩)
      have hl₁ : Live W addr (Γ.add [(p.1, some p.2)]) base
          ⟨(σ.declare p.1).env, (σ.declare p.1).mem.write σ.mem.next x⟩ :=
        hdecl.fill (show (σ.declare p.1).env = [] ++ (p.1, σ.mem.next) :: σ.env from rfl)
          hl.vars.length_eq hl.le (Int.lt_succ _)
      have hstep : Confined Γ.globals addr base σ.mem
          ((σ.declare p.1).mem.write σ.mem.next x) :=
        (Confined.alloc hl.le).trans (.write (.inl hl.le) _ _)
      obtain ⟨hl₂, hconf⟩ := ih hl₁ (Nat.succ.inj hlen)
      rw [Ctx.add_add] at hl₂
      rw [List.map_cons, List.reverse_cons]
      exact ⟨hl₂, hstep.trans hconf⟩

/-- A function whose callees are polite is. -/
theorem exec_polite (hok : g.ok globals funs = true) (hcall : Polite globals addr W T call funs)
    (hW : g.body.any Form.mayFail = true → W) (hT : g.body.any Form.isLoop = true → T)
    {xs : List Int} (hlen : xs.length = g.sig.parms.length)
    (hread : ∀ y t, globals.lookup y = some t → Readable W m (addr y)) :
    Post (fun r => Confined globals addr m.next m r.2) (fun _ => False) W T
      (g.exec addr call fuel xs m) := by
  simp only [Func.ok, Bool.and_eq_true] at hok
  have hstart : Live W addr ⟨[], globals, funs, false⟩ m.next ⟨[], m⟩ := ⟨le_rfl, .nil, hread⟩
  have hctx : (⟨[], globals, funs, false⟩ : Ctx).add
      (g.sig.parms.map fun p => (p.1, some p.2)).reverse = g.sig.ctx globals funs := by
    simp [Ctx.add, Sig.ctx]
  obtain ⟨hl, hconf⟩ := bindArgs_live hstart hlen
  rw [hctx] at hl
  have hbody := confines addr call fuel W T g.body hok.1 hcall hW hT hl
  refine Post.bind (Post.imp hbody (fun _ hr => hr) fun x hx => ?_) ?_
  · exact absurd hx.inLoop Bool.false_ne_true
  · rintro ⟨o, σ⟩ hdone
    have hresult : Does W T addr ((g.sig.ctx globals funs).add g.body.adds) m.next σ
        (fun _ _ => True) (o.result g.body.ty σ) := by
      unfold Operand.result
      split
      · exact .load hdone.live hdone.value
      · exact .here hdone.live trivial
    refine Post.bind (Post.imp hresult (fun _ hr => hr) fun x hx => ?_) ?_
    · exact absurd hx.inLoop Bool.false_ne_true
    · rintro ⟨x, σ₁⟩ hread
      exact (hconf.trans hdone.confined).trans hread.confined

/-- Every function of a program is checked with functions of the program. -/
theorem ok_of_okFrom (h : okFrom globals funs gs = true) :
    ∀ g ∈ gs, ∃ funs', g.ok globals funs' = true ∧ ∀ f ∈ funs', f ∈ gs.map Func.sig ++ funs := by
  induction gs generalizing funs with
  | nil => simp
  | cons g gs ih =>
    simp only [okFrom, Bool.and_eq_true] at h
    intro g' hg'
    rcases List.mem_cons.1 hg' with rfl | hg'
    · refine ⟨_, h.1.1, fun f hf => ?_⟩
      simp only [List.map_cons, List.cons_append, List.mem_append, List.mem_cons] at hf ⊢
      tauto
    · obtain ⟨funs', hok, hmem⟩ := ih h.2 g' hg'
      refine ⟨funs', hok, fun f hf => ?_⟩
      have hf := hmem f hf
      simp only [List.map_cons, List.cons_append, List.mem_append, List.mem_cons] at hf ⊢
      tauto

/-- Calls are polite, however deep they get. -/
theorem callIn_polite (hok : okFrom globals [] program = true)
    (hW : ∀ g ∈ program, g.body.any Form.mayFail = true → W) (n : Nat) :
    Polite globals addr W True (callIn addr program n) (program.map Func.sig) := by
  induction n with
  | zero => exact fun _ _ _ _ _ _ => trivial
  | succ n ih =>
    intro f hf xs m hlen hread
    obtain ⟨g, hg, rfl⟩ := List.mem_map.1 hf
    obtain ⟨funs', hgok, hmem⟩ := ok_of_okFrom hok g hg
    rw [List.append_nil] at hmem
    rw [callIn, find?_of_okFrom hok g hg]
    exact exec_polite hgok (fun f hf => ih f (hmem f hf)) (hW g hg) (fun _ => trivial) hlen hread

/-! ## Memory -/

/-- Wherever it runs and whatever it calls, a function of a program that passes
its check changes globals and memory that was free when it was called, and
nothing else. -/
theorem compiled_calls_confined (run : Nat → Bool) (hok : okFrom globals [] program = true)
    (h : Outside globals [] s) (hnew : ∀ g ∈ program, s.funs.lookup g.sig.name = none)
    (hlink : Linkable host ds s j program) :
    ∃ s' j', build host run program s j = .ok (s', j') ∧
      ∀ (g : Func) (xs : List Int) (m : Mem), g ∈ program →
        List.Forall₂ (fun p x => Fits p.2.width x) g.sig.parms xs →
        ∃ c, (loaded s' j').start g.sig.name xs m.cells m.next = some c ∧
          ∀ c' x, Halts (loaded s' j').step c c' → (loaded s' j').result c' = some x →
            Confined globals (loaded s' j').addr m.next m ⟨c'.m.mem, c'.next⟩ := by
  obtain ⟨s', j', hbuild, -, -, hrun⟩ := loaded_agrees run hok h hnew hlink
  refine ⟨s', j', hbuild, fun g xs m hg hxs => ?_⟩
  obtain ⟨c, hstart, hagrees⟩ := hrun g xs m hg hxs
  refine ⟨c, hstart, fun c' x hhalts hx => ?_⟩
  obtain ⟨n, hn⟩ := (hagrees.result (x, ⟨c'.m.mem, c'.next⟩)).2 ⟨c', hhalts, hx, rfl, rfl⟩
  have hpolite : Polite globals (loaded s' j').addr True True
      (callIn (loaded s' j').addr program n) (program.map Func.sig) :=
    callIn_polite hok (fun _ _ _ => trivial) n
  have hdone := hpolite g.sig (List.mem_map_of_mem hg) xs m hxs.length_eq.symm
    fun _ _ _ => .inl trivial
  rw [hn] at hdone
  exact hdone

theorem compiled_calls_confined_factorials : ∃ s' j',
    build (fun _ => none) (fun _ => true) factorials topLevel ⟨[], [], []⟩ = .ok (s', j') ∧
      ∃ c, (loaded s' j').start "sum" [3] (fun _ => some 7) 1 = some c ∧
        ∀ c' x, Halts (loaded s' j').step c c' → (loaded s' j').result c' = some x →
          c'.m.mem 0 = some 7 := by
  obtain ⟨s', j', hbuild, hrun⟩ := compiled_calls_confined (fun _ => true)
    (show okFrom [] [] factorials = true by decide) topLevel_outside (fun _ _ => rfl)
    (topLevel_linkable factorials)
  obtain ⟨c, hstart, hconf⟩ := hrun _ [3] ⟨fun _ => some 7, 1⟩
    (List.mem_cons_of_mem _ List.mem_cons_self) (.cons (by decide) .nil)
  refine ⟨s', j', hbuild, c, hstart, fun c' x hhalts hx => ?_⟩
  exact (hconf c' x hhalts hx).kept 0 (by decide) (by rintro y t ⟨⟩)

/-! ## Undefined behaviour -/

/-- A program that passes its check, has no divisions, remainders and shifts, and
sets its variables when it declares them, never comes to anything undefined, where
the globals it was given are set. -/
theorem compiled_never_stuck (run : Nat → Bool) (hok : okFrom globals [] program = true)
    (h : Outside globals [] s) (hnew : ∀ g ∈ program, s.funs.lookup g.sig.name = none)
    (hlink : Linkable host ds s j program)
    (htotal : ∀ g ∈ program, g.body.any Form.mayFail = false) :
    ∃ s' j', build host run program s j = .ok (s', j') ∧
      ∀ (g : Func) (xs : List Int) (m : Mem), g ∈ program →
        List.Forall₂ (fun p x => Fits p.2.width x) g.sig.parms xs →
        (∀ y t, globals.lookup y = some t →
          (loaded s' j').addr y < m.next ∧ (m.cells ((loaded s' j').addr y)).isSome) →
        ∃ c, (loaded s' j').start g.sig.name xs m.cells m.next = some c ∧
          ∀ c', Reaches (loaded s' j').step c c' → ¬ (loaded s' j').Stuck c' := by
  obtain ⟨s', j', hbuild, -, -, hrun⟩ := loaded_agrees run hok h hnew hlink
  refine ⟨s', j', hbuild, fun g xs m hg hxs hset => ?_⟩
  obtain ⟨c, hstart, hagrees⟩ := hrun g xs m hg hxs
  refine ⟨c, hstart, fun c' hreach hstuck => ?_⟩
  obtain ⟨n, hn⟩ := hagrees.wrong.2 ⟨c', ⟨hreach, hstuck.1⟩, hstuck⟩
  have hpolite : Polite globals (loaded s' j').addr False True
      (callIn (loaded s' j').addr program n) (program.map Func.sig) :=
    callIn_polite hok
      (fun g hg hfail => absurd ((htotal g hg).symm.trans hfail) Bool.false_ne_true) n
  have hdone := hpolite g.sig (List.mem_map_of_mem hg) xs m hxs.length_eq.symm
    fun y t hy => .inr (hset y t hy)
  rw [hn] at hdone
  exact hdone

/-- A counter in a global, and a function that counts twice. -/
def counting : List Func :=
  let long : IntTy := ⟨64, true⟩
  let count : Sig := ⟨"count", some long, [("by", long)]⟩
  let counter := Form.ident "counter" long
  [⟨count, .progn [.assign counter (.arith .add counter (.ident "by" long)), counter]⟩,
    ⟨⟨"twice", some long, [("by", long)]⟩,
      .progn [.call count [.ident "by" long], .call count [.ident "by" long]]⟩]

/-- The counter is declared, and the program around the JIT has it at 4096. -/
def withCounter : St := { topLevel with globals := [("counter", (⟨64, true⟩ : IntTy).rtt)] }

def counterHost (y : String) : Option Nat := if y = "counter" then some 4096 else none

theorem withCounter_outside : Outside [("counter", ⟨64, true⟩)] [] withCounter where
  precompiled := rfl
  loop := rfl
  mods := by rintro lf ⟨⟩
  owner b k h := by cases h
  globals y t h := by
    rw [List.lookup_cons] at h
    show List.lookup y [("counter", (⟨64, true⟩ : IntTy).rtt)] = _
    rw [List.lookup_cons]
    split at h
    · cases h
      rfl
    · cases h
  funs := by rintro f ⟨⟩

theorem withCounter_linkable :
    Linkable counterHost [] withCounter ⟨[], [("counter", none)], []⟩ counting where
  sound :=
    { funs := by rintro x r ⟨⟩
      globals := fun x r h => by
        have hnone := Jit.lookup_new h
        cases hnone
      dylib := by rintro x r ⟨⟩
      defs := by rintro x r ⟨⟩ }
  free := by decide
  globals y hy := by
    obtain rfl : y = "counter" := by
      change (List.lookup y [("counter", (⟨64, true⟩ : IntTy).rtt)]).isSome at hy
      rw [List.lookup_cons] at hy
      split at hy
      · next h => exact eq_of_beq h
      · cases hy
    exact ⟨.inr rfl, rfl, .inl (by decide)⟩

theorem compiled_never_stuck_counting : ∃ s' j',
    build counterHost (fun _ => true) counting withCounter ⟨[], [("counter", none)], []⟩ =
        .ok (s', j') ∧
      ∃ c, (loaded s' j').start "twice" [3] (fun _ => some 0)
          ((loaded s' j').addr "counter" + 1) = some c ∧
        ∀ c', Reaches (loaded s' j').step c c' → ¬ (loaded s' j').Stuck c' := by
  obtain ⟨s', j', hbuild, hrun⟩ := compiled_never_stuck (fun _ => true)
    (show okFrom [("counter", ⟨64, true⟩)] [] counting = true by decide) withCounter_outside
    (fun _ _ => rfl) withCounter_linkable (by decide)
  obtain ⟨c, hstart, hsafe⟩ := hrun _ [3] ⟨fun _ => some 0, (loaded s' j').addr "counter" + 1⟩
    (List.mem_cons_of_mem _ List.mem_cons_self) (.cons (by decide) .nil) fun y t hy => by
      obtain rfl : y = "counter" := by
        rw [List.lookup_cons] at hy
        split at hy
        · next h => exact eq_of_beq h
        · cases hy
      exact ⟨Int.lt_succ _, rfl⟩
  exact ⟨s', j', hbuild, c, hstart, hsafe⟩

/-! ## Termination -/

/-- With a unit of fuel for each function, calls have enough. -/
theorem callIn_ends (hfind : ∀ g ∈ gs, program.find? (·.sig.name = g.sig.name) = some g)
    (hok : okFrom globals funs gs = true)
    (hloop : ∀ g ∈ gs, g.body.any Form.isLoop = false)
    (hfuns : ∀ n, funs.length ≤ n → Polite globals addr True False (callIn addr program n) funs) :
    ∀ n, funs.length + gs.length ≤ n →
      Polite globals addr True False (callIn addr program n) (gs.map Func.sig ++ funs) := by
  induction gs generalizing funs with
  | nil => exact hfuns
  | cons g gs ih =>
    simp only [okFrom, Bool.and_eq_true] at hok
    have hnext : ∀ n, (g.sig :: funs).length ≤ n →
        Polite globals addr True False (callIn addr program n) (g.sig :: funs) := by
      intro n hn f hf xs m hlen hread
      rw [List.length_cons] at hn
      rcases List.mem_cons.1 hf with rfl | hf
      · cases n with
        | zero => exact absurd hn (Nat.not_succ_le_zero _)
        | succ n =>
          rw [callIn, hfind g List.mem_cons_self]
          refine exec_polite hok.1.1 (hfuns n (Nat.le_of_succ_le_succ hn)) (fun _ => trivial)
            (fun h => ?_) hlen hread
          exact absurd ((hloop g List.mem_cons_self).symm.trans h) Bool.false_ne_true
      · exact hfuns n (Nat.le_of_succ_le hn) f hf xs m hlen hread
    intro n hn f hf
    refine ih (fun g' hg' => hfind g' (List.mem_cons_of_mem _ hg')) hok.2
      (fun g' hg' => hloop g' (List.mem_cons_of_mem _ hg')) hnext n ?_ f ?_
    · rw [List.length_cons] at hn ⊢
      rwa [Nat.succ_add, ← Nat.add_succ]
    · simp only [List.map_cons, List.cons_append, List.mem_append, List.mem_cons] at hf ⊢
      tauto

/-- A program without loops whose functions do not call themselves halts, wherever its
code is run, as in the JIT that links it: it returns what the interpreter returns, or it
ends where the interpreter goes wrong. -/
theorem compiled_halts (run : Nat → Bool) (hok : okFrom globals [] program = true)
    (h : Outside globals [] s) (hnew : ∀ g ∈ program, s.funs.lookup g.sig.name = none)
    (hloop : ∀ g ∈ program, g.body.any Form.isLoop = false) :
    ∃ s', evalProgn run (program.map Func.expr) s = .ok (nullRtv, s') ∧
      (∀ addr, (linked s' addr).Carries program s') ∧
      (∀ host ds j, Linkable host ds s j program → ∃ j',
        build host run program s j = .ok (s', j') ∧ (loaded s' j').Carries program s') ∧
      ∀ (I : Image) (g : Func) (xs : List Int) (m : Mem), I.Carries program s' → g ∈ program →
        List.Forall₂ (fun p x => Fits p.2.width x) g.sig.parms xs →
        ∃ c, I.start g.sig.name xs m.cells m.next = some c ∧
          ∃ c', Halts I.step c c' ∧
            ((∃ n r, callIn I.addr program n g.sig.name xs m = .ok r ∧ I.Over r c') ∨
              (∃ n, callIn I.addr program n g.sig.name xs m = .error .wrong) ∧ I.Stuck c') := by
  obtain ⟨s', hcomp, hlinked, hrun⟩ := program_agrees run hok h hnew
  refine ⟨s', hcomp, hlinked, fun host ds j hlink => ?_, fun I g xs m hI hg hxs => ?_⟩
  · obtain ⟨s'', j', hbuild, hcomp', hloads⟩ :=
      build_sound run hok h hnew hlink fun _ hf => nomatch hf
    cases hcomp.symm.trans hcomp'
    exact ⟨j', hbuild, hloads.carries⟩
  obtain ⟨c, hstart, hagrees⟩ := hrun hI g xs m hg hxs
  refine ⟨c, hstart, ?_⟩
  have hpolite : Polite globals I.addr True False (callIn I.addr program program.length)
      (program.map Func.sig ++ []) :=
    callIn_ends (find?_of_okFrom hok) hok hloop (fun n _ f hf => by cases hf) _ (by simp)
  have hmem : g.sig ∈ program.map Func.sig ++ [] :=
    List.mem_append_left _ (List.mem_map_of_mem hg)
  have hdone := hpolite g.sig hmem xs m hxs.length_eq.symm fun _ _ _ => .inl trivial
  rcases ho : callIn I.addr program program.length g.sig.name xs m with (e | - | -) | r
  · rw [ho] at hdone
    exact hdone.elim
  · obtain ⟨c', hhalts, hstuck⟩ := hagrees.wrong.1 ⟨_, ho⟩
    exact ⟨c', hhalts, .inr ⟨⟨_, ho⟩, hstuck⟩⟩
  · rw [ho] at hdone
    exact hdone.elim
  · obtain ⟨c', hhalts, hover⟩ := (hagrees.result r).1 ⟨_, ho⟩
    exact ⟨c', hhalts, .inl ⟨_, r, ho, hover⟩⟩

/-- Doubling, twice. -/
def doubling : List Func :=
  let long : IntTy := ⟨64, true⟩
  let twice : Sig := ⟨"twice", some long, [("x", long)]⟩
  let x := Form.ident "x" long
  [⟨twice, .arith .add x x⟩,
    ⟨⟨"four-times", some long, [("x", long)]⟩, .call twice [.call twice [x]]⟩]

theorem compiled_halts_doubling : ∃ s' j',
    build (fun _ => none) (fun _ => true) doubling topLevel ⟨[], [], []⟩ = .ok (s', j') ∧
      ∃ c, (loaded s' j').start "four-times" [3] (fun _ => none) 1 = some c ∧
        ∃ c', Halts (loaded s' j').step c c' := by
  obtain ⟨s', -, -, hload, hrun⟩ := compiled_halts (fun _ => true)
    (show okFrom [] [] doubling = true by decide) topLevel_outside (fun _ _ => rfl) (by decide)
  obtain ⟨j', hbuild, hcarries⟩ := hload _ _ _ (topLevel_linkable doubling)
  obtain ⟨c, hstart, c', hhalts, -⟩ := hrun (loaded s' j') _ [3] ⟨fun _ => none, 1⟩ hcarries
    (List.mem_cons_of_mem _ List.mem_cons_self) (.cons (by decide) .nil)
  exact ⟨s', j', hbuild, c, hstart, c', hhalts⟩

end Dolorem.Programs
