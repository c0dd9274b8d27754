import Dolorem.Programs.Running

/-!
# Steps of the emitted code

The rules of `Leads` and `Follows`, and what the instructions that `eval` emits
do: each instruction leads from the point in front of it to the point behind it.
Reading and converting a value of an integer type emits at most one of them.
-/

namespace Dolorem.Programs

open Codegen CodeGraph Words Interp

variable {I : Image} {Γ Γ' Γ₁ Γ₂ : Ctx} {s s' s₁ s₂ : St} {σ σ' σ₁ σ₂ : Store}
variable {c c' c₁ c₂ : Config} {t : IntTy} {r : Rtv} {v p : Value} {x a : Int} {i : Instr}
variable {fuel : Nat} {o : Operand} {Q R : Config → Prop}

theorem Leads.refl (h : At I Γ s σ c) (hq : Q c) : Leads I s c Γ s σ Q :=
  ⟨c, .refl c, h, .refl s c, hq⟩

theorem Leads.trans (h : Leads I s c Γ₁ s₁ σ₁ Q) (hk : Extends s s₁)
    (k : ∀ c₁, At I Γ₁ s₁ σ₁ c₁ → Same s c c₁ → Q c₁ → Leads I s₁ c₁ Γ₂ s₂ σ₂ R) :
    Leads I s c Γ₂ s₂ σ₂ R := by
  obtain ⟨c₁, h₁, hat, hsame, hq⟩ := h
  obtain ⟨c₂, h₂, hat', hsame', hr⟩ := k c₁ hat hsame hq
  exact ⟨c₂, h₁.trans h₂, hat', hsame.trans hk.later hsame', hr⟩

theorem Leads.imp (h : Leads I s c Γ s₁ σ Q) (k : ∀ c', At I Γ s₁ σ c' → Same s c c' → Q c' → R c') :
    Leads I s c Γ s₁ σ R := by
  obtain ⟨c₁, h₁, hat, hsame, hq⟩ := h
  exact ⟨c₁, h₁, hat, hsame, k c₁ hat hsame hq⟩

section

variable {α β : Type} {Q : α → Config → Prop} {R : β → Config → Prop} {m : Res (α × Store)}

theorem Follows.ok {x : α} (h : Leads I s c Γ s₁ σ (Q x)) :
    Follows I fuel s c (.ok (x, σ)) Γ s₁ Q := by
  obtain ⟨c', hreach, hat, hsame, hq⟩ := h
  exact ⟨c', hreach, hat, hsame, hq⟩

/-- Steps that the interpreter takes no notice of. -/
theorem Follows.of_leads {P : Config → Prop} (h : Leads I s c Γ₁ s₁ σ₁ P) (hk : Extends s s₁)
    (k : ∀ c₁, At I Γ₁ s₁ σ₁ c₁ → Same s c c₁ → P c₁ → Follows I fuel s₁ c₁ m Γ s₂ Q) :
    Follows I fuel s c m Γ s₂ Q := by
  obtain ⟨c₁, hreach, hat, hsame, hq⟩ := h
  refine (Sim.of_reaches hreach (k c₁ hat hsame hq)).imp ?_ fun e c' => Leaves.mono hk hsame
  rintro r c' ⟨hat', hsame', hq'⟩
  exact ⟨hat', hsame.trans hk.later hsame', hq'⟩

theorem Follows.bind {f : α × Store → Res (β × Store)} (h : Follows I fuel s c m Γ₁ s₁ Q)
    (hk : Extends s s₁)
    (k : ∀ x σ₁ c₁, At I Γ₁ s₁ σ₁ c₁ → Same s c c₁ → Q x c₁ →
      Follows I fuel s₁ c₁ (f (x, σ₁)) Γ s₂ R) : Follows I fuel s c (m >>= f) Γ s₂ R := by
  refine Sim.bind h ?_
  rintro ⟨x, σ₁⟩ c₁ ⟨hat, hsame, hq⟩
  refine (k x σ₁ c₁ hat hsame hq).imp ?_ fun e c' => Leaves.mono hk hsame
  rintro r c' ⟨hat', hsame', hr⟩
  exact ⟨hat', hsame.trans hk.later hsame', hr⟩

theorem Follows.imp {Q' : α → Config → Prop} (h : Follows I fuel s c m Γ s₁ Q)
    (k : ∀ x σ c', At I Γ s₁ σ c' → Same s c c' → Q x c' → Q' x c') :
    Follows I fuel s c m Γ s₁ Q' :=
  Sim.imp h (fun r c' hr => ⟨hr.1, hr.2.1, k r.1 r.2 c' hr.1 hr.2.1 hr.2.2⟩) fun _ _ h => h

end

/-! ## Instructions -/

theorem emit_extends (hs : Building s) (i : Instr) : Extends s (s.emit i) := .emitAll hs [i]

theorem here_emit (hs : Building s) (i : Instr) : (s.emit i).here = s.here.skip 1 :=
  here_emitAll hs [i]

theorem known_here (hs : Building s) (i : Instr) : Known (s.emit i) (.inst s.here) := by
  rintro p ⟨⟩
  exact ⟨i, Cfg.at?_append_endOf _ hs.lt i []⟩

/-- The next instruction is not known yet. -/
theorem Known.ne_here {y : Ref} (h : Known s y) : y ≠ .inst s.here := by
  rintro rfl
  obtain ⟨i, hi⟩ := h _ rfl
  unfold Cfg.at? St.here Cfg.endOf at hi
  rw [List.getElem?_eq_none le_rfl] at hi
  cases hi

theorem At.fetch (h : At I Γ s σ c) (hs : Building s) (hI : I.Covers (s.emit i)) :
    I.graph.at? c.pos = some i := by
  rw [h.pos]
  exact hI.graph _ _ (Cfg.at?_append_endOf _ hs.lt i [])

/-- A register that was not known is set. -/
theorem same_define {m : Core} (hs : c.pos = s.here) (hm : m.val = c.m.val) (x : Int) (next : Int) :
    Same s c { c with pos := c.pos.skip 1, m := m.define c.pos x, next := next } := by
  refine ⟨rfl, fun y hy => (if_neg ?_).trans (congrFun hm y)⟩
  rw [hs]
  exact hy.ne_here

theorem At.emit (h : At I Γ s σ c) (hs : Building s) (hsame : Same s c c') (hσ : σ'.env = σ.env)
    (hpos : c'.pos = c.pos.skip 1) (hcells : c'.m.mem = σ'.mem.cells) (hnext : c'.next = σ'.mem.next) :
    At I Γ (s.emit i) σ' c' where
  pos := by rw [hpos, h.pos, here_emit hs]
  cells := hcells
  next := hnext
  places := by
    rw [hσ]
    exact h.places.mono (fun x => (emit_extends hs i).known) fun v => hsame.read
  globals m x := (hsame.val _ (Same.known_global s m x)).trans (h.globals m x)

theorem At.define (h : At I Γ s σ c) (hs : Building s) (hI : I.Covers (s.emit i))
    (hi : perform c.m c.pos i = some (c.m.define c.pos x)) :
    Leads I s c Γ (s.emit i) σ fun c' => c'.m.val (.inst s.here) = some x := by
  have hsame := same_define h.pos rfl x c.next
  refine ⟨_, .single (step_perform (h.fetch hs hI) hi), ?_, hsame, ?_⟩
  · exact h.emit hs hsame rfl rfl h.cells h.next
  · rw [← h.pos]
    exact if_pos rfl

theorem At.store (h : At I Γ s σ c) (hs : Building s) (hI : I.Covers (s.emit (.store v p)))
    (hv : c.m.read v = some x) (hp : c.m.read p = some a) :
    Leads I s c Γ (s.emit (.store v p)) { σ with mem := σ.mem.write a x } fun _ => True := by
  have hstore : perform c.m c.pos (.store v p) = some (c.m.fill a (some x)) := by
    simp only [perform, hv, hp]
    rfl
  refine ⟨_, .single (step_perform (h.fetch hs hI) hstore), ?_, ⟨rfl, fun _ _ => rfl⟩, trivial⟩
  refine h.emit hs ⟨rfl, fun _ _ => rfl⟩ rfl rfl ?_ h.next
  funext y
  show (if y = a then some x else c.m.mem y) = if y = a then some x else σ.mem.cells y
  rw [h.cells]

/-- A new variable. -/
theorem At.alloca {l : LTy} (h : At I Γ s σ c) (hs : Building s)
    (hI : I.Covers (s.emit (.alloca l))) :
    Leads I s c Γ (s.emit (.alloca l)) { σ with mem := σ.mem.alloc } fun c' =>
      c'.m.val (.inst s.here) = some σ.mem.next := by
  have hsame := same_define (m := c.m.fill c.next none) h.pos rfl c.next (c.next + 1)
  refine ⟨_, ?_, ?_, hsame, ?_⟩
  · refine .single ?_
    unfold Image.step
    rw [h.fetch hs hI]
  · refine h.emit hs hsame rfl rfl ?_ ?_
    · funext y
      show (if y = c.next then none else c.m.mem y) = if y = σ.mem.next then none else σ.mem.cells y
      rw [h.next, h.cells]
    · show c.next + 1 = σ.mem.next + 1
      rw [h.next]
  · rw [← h.pos, ← h.next]
    exact if_pos rfl

/-- A branch from the end of the code to block `b`. -/
theorem At.branch {b : Nat} (h : At I Γ s σ c) (hs : Building s) (hI : I.Covers (s.emit i))
    (hi : c.m.target i = some b) :
    I.step c = some { c with pos := ⟨b, 0⟩, prev := s.block } := by
  rw [step_target (h.fetch hs hI) hi, h.pos]
  rfl

/-- The same point, for a state at the start of an empty block. -/
theorem At.move {b n : Nat} (h : At I Γ s σ c) (hk : Extends s s') (hc : s'.curfn = s.curfn)
    (hb : s'.here = ⟨b, 0⟩) : At I Γ s' σ { c with pos := ⟨b, 0⟩, prev := n } where
  pos := hb.symm
  cells := h.cells
  next := h.next
  places := by
    have hvars : vars s' = vars s := by simp [vars, hc]
    rw [hvars]
    exact h.places.mono (fun x => hk.known) fun _ _ => rfl
  globals := h.globals

/-! ## Reading and converting -/

/-- `prepare_read` on an operand. -/
theorem prepareRead_sound {l : Bool} (hs : Building s) (hr : HasTy s t l r) :
    ∃ r' is, prepareRead r s = .ok (r', s.emitAll is) ∧ HasTy (s.emitAll is) t false r' ∧
      ∀ {I fuel Γ σ c o}, I.Covers (s.emitAll is) → At I Γ s σ c → Holds c t r o →
        Follows I fuel s c (o.load σ) Γ (s.emitAll is) fun x c' =>
          c'.m.read r'.v = some x ∧ Fits t.width x := by
  have hl := hr.lval
  cases l with
  | false =>
    refine ⟨r, [], by rw [prepareRead_of_rval hl, St.emitAll_nil], by rw [St.emitAll_nil]; exact hr,
      ?_⟩
    intro I fuel Γ σ c o hI hat hh
    rw [St.emitAll_nil]
    cases o with
    | val x => exact .ok (.refl hat hh.2)
    | place a w =>
      rw [hh.1] at hl
      cases hl
  | true =>
    have hty : r.v.ty = .ptr (.int t.width) := hr.ty
    refine ⟨⟨⟨.inst s.here, .int t.width⟩, r.t, false⟩, [.load r.v], ?_, ?_, ?_⟩
    · simp only [prepareRead, hl, if_true, hty]
      rfl
    · exact ⟨hr.type, rfl, rfl, known_here hs _⟩
    · intro I fuel Γ σ c o hI hat hh
      cases o with
      | val x =>
        rw [hh.1] at hl
        cases hl
      | place a w =>
        obtain ⟨-, ha, rfl⟩ := hh
        have hload : perform c.m c.pos (.load r.v) =
            (σ.mem.cells a).map fun x => c.m.define c.pos (wrap t.width x) := by
          simp only [perform, hty, ha, hat.cells, Option.bind_eq_bind, Option.bind_some]
          cases σ.mem.cells a <;> rfl
        cases hx : σ.mem.cells a with
        | none =>
          rw [hx] at hload
          rw [load_unset _ hx]
          exact ⟨c, .refl c, stuck_of_perform (hat.fetch hs hI) (.inl ⟨_, rfl⟩) hload⟩
        | some x =>
          rw [hx] at hload
          rw [load_set _ hx]
          refine .ok ((hat.define hs hI hload).imp ?_)
          intro c' _ _ hval
          exact ⟨hval, fits_wrap _ _⟩

theorem convertTypes_int (t u : IntTy) (flags : Nat) :
    convertTypes (.integer t.width t.flag) u.rtt flags =
      some (if t = u then .same (.integer t.width t.flag)
        else .build .intCast (.int u.width) (.integer u.width u.flag)) := by
  have hiff : Ty.integer t.width t.flag = Ty.integer u.width u.flag ↔ t = u := by
    obtain ⟨w, f⟩ := t
    obtain ⟨w', f'⟩ := u
    simp
  simp only [convertTypes, Ty.aliases, IntTy.rtt, lowerIntegerType, convertWithin, convertEqualTypes,
    convertPointerTypes, convertNumbers, Ty.isPointer, hiff]
  split <;> simp_all

/-- `convert_type` between integer types. -/
theorem convertType_sound (hs : Building s) (hr : HasTy s t false r) (u : IntTy) (flags : Nat) :
    ∃ r' is, convertType r u.rtt flags s = .ok (some r', s.emitAll is) ∧
      HasTy (s.emitAll is) u false r' ∧
      ∀ {I Γ σ c x}, I.Covers (s.emitAll is) → At I Γ s σ c → c.m.read r.v = some x → Fits t.width x →
        Leads I s c Γ (s.emitAll is) σ fun c' => c'.m.read r'.v = some (wrap u.width x) := by
  have hty : r.v.ty = .int t.width := hr.ty
  have hconv : convertType r u.rtt flags s = .ok (some ((if t = u then Conv.same (.integer t.width
      t.flag) else .build .intCast (.int u.width) (.integer u.width u.flag)).apply r s).1,
      ((if t = u then Conv.same (.integer t.width t.flag)
        else .build .intCast (.int u.width) (.integer u.width u.flag)).apply r s).2) := by
    rw [convertType, prepareRead_of_rval hr.lval]
    simp only [ok_bind, hr.type, convertTypes_int]
  rcases eq_or_ne t u with rfl | hne
  · -- the type is kept
    rw [if_pos rfl] at hconv
    refine ⟨{ r with t := .integer t.width t.flag }, [], ?_, ?_, ?_⟩
    · rw [St.emitAll_nil]
      exact hconv
    · rw [St.emitAll_nil]
      exact ⟨rfl, hr.lval, hr.ty, hr.known⟩
    · intro I Γ σ c x hI hat hx hfit
      rw [St.emitAll_nil]
      exact .refl hat (hx.trans (congrArg some hfit.symm))
  rw [if_neg hne] at hconv
  rcases eq_or_ne t.width u.width with hw | hw
  · -- only the flag changes: `LLVMBuildIntCast` returns the value
    have hcast : s.buildCast .intCast r.v (.int u.width) = (r.v, s) := by
      rw [St.buildCast, if_pos (by rw [hty, hw])]
    rw [Conv.apply, hcast] at hconv
    refine ⟨⟨r.v, .integer u.width u.flag, false⟩, [], ?_, ?_, ?_⟩
    · rw [St.emitAll_nil]
      exact hconv
    · rw [St.emitAll_nil]
      exact ⟨rfl, rfl, by rw [hty, hw]; rfl, hr.known⟩
    · intro I Γ σ c x hI hat hx hfit
      rw [hw] at hfit
      rw [St.emitAll_nil]
      exact .refl hat (hx.trans (congrArg some hfit.symm))
  · have hcast : s.buildCast .intCast r.v (.int u.width) =
        s.build (.cast .intCast r.v (.int u.width)) (.int u.width) := by
      rw [St.buildCast, if_neg (fun h => hw (LTy.int.inj (hty.symm.trans h)))]
    rw [Conv.apply, hcast] at hconv
    refine ⟨⟨⟨.inst s.here, .int u.width⟩, .integer u.width u.flag, false⟩,
      [.cast .intCast r.v (.int u.width)], hconv, ⟨rfl, rfl, rfl, known_here hs _⟩, ?_⟩
    intro I Γ σ c x hI hat hx hfit
    refine hat.define hs hI ?_
    simp only [perform, hty, hx]
    exact congrArg some (congrArg _ (toInt_signExtend hfit _))

end Dolorem.Programs
