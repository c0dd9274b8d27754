import Dolorem.Programs.Structures

/-!
# `if`

The branches of `if` are compiled in blocks of their own, and a phi takes the
value of the branch that was run. It names the blocks the branches start with,
which are those they end in because the branches are flat.
-/

namespace Dolorem.Programs

open Codegen CodeGraph Words Interp

variable {run : Nat → Bool} {I : Image} {Γ : Ctx} {s s' s₁ : St} {σ : Store} {c c' : Config}
variable {t u : IntTy} {v : Value} {x : Int} {n fuel : Nat} {call : Caller} {e f g : Form}
variable {xs ys : List (String × Option IntTy)}

theorem hide_append : Form.hide (xs ++ ys) = Form.hide xs ++ Form.hide ys := by
  simp [Form.hide]

theorem hide_hide : Form.hide (Form.hide xs) = Form.hide xs := by
  simp [Form.hide]

theorem nowhere_append : nowhere (xs ++ ys) = nowhere xs ++ nowhere ys := by
  simp [nowhere]

theorem nowhere_hide : nowhere (Form.hide xs) = nowhere xs := by
  simp [nowhere, Form.hide]

/-- A phi takes the value for the block control came from. -/
theorem step_phi {l : LTy} {inc : List (Value × Nat)} (hs : Building s)
    (hI : I.Covers (s.emit (.phi l inc))) (hpos : c.pos = s.here)
    (hv : inc.find? (·.2 = c.prev) = some (v, n)) (hx : c.m.read v = some x) :
    I.step c = some { c with pos := c.pos.skip 1, m := c.m.define c.pos x } := by
  have hi : I.graph.at? c.pos = some (.phi l inc) := by
    rw [hpos]
    exact hI.graph _ _ (Cfg.at?_append_endOf _ hs.lt _ [])
  unfold Image.step
  rw [hi]
  simp only [hv, hx, Option.bind_eq_bind, Option.bind_some]

/-- Where two branches meet: the variables of both may have no places. -/
theorem At.phi {l : LTy} {inc : List (Value × Nat)} {m : Mem} (h : At I Γ s σ c) (hM : Matches Γ s)
    (hk : Later s s₁) (hs₁ : Building s₁) (hM' : Matches (Γ.add xs) (s₁.emit (.phi l inc)))
    (hI : I.Covers (s₁.emit (.phi l inc))) (hsame : Same s c c') (hpos : c'.pos = s₁.here)
    (hcells : c'.m.mem = m.cells) (hnext : c'.next = m.next)
    (hv : inc.find? (·.2 = c'.prev) = some (v, n)) (hx : c'.m.read v = some x) :
    ∃ c'', Reaches I.step c' c'' ∧
      At I (Γ.add (Form.hide xs)) (s₁.emit (.phi l inc)) ⟨nowhere xs ++ σ.env, m⟩ c'' ∧
      Same s c c'' ∧ c''.m.val (.inst s₁.here) = some x := by
  have hsame' := hsame.trans hk (same_define (c := c') hpos rfl x c'.next)
  refine ⟨_, .single (step_phi hs₁ hI hpos hv hx), ?_, hsame', ?_⟩
  · refine h.join hM (hk.trans (emit_extends hs₁ _).later) hM' hsame' ?_ hcells hnext
    rw [here_emit hs₁, ← hpos]
  · rw [← hpos]
    exact if_pos rfl

theorem exec_if (addr : String → Int) (hu : f.ty = some u) (σ : Store) :
    (Form.if_ e f g).exec addr call fuel σ =
      e.value addr call fuel σ >>= fun p =>
        if truth p.1 then
          f.value addr call fuel p.2 >>= fun q =>
            .ok (.val q.1, ⟨nowhere g.adds ++ (nowhere f.adds ++ p.2.env), q.2.mem⟩)
        else
          g.value addr call fuel ⟨nowhere f.adds ++ p.2.env, p.2.mem⟩ >>= fun q =>
            .ok (.val (wrap u.width q.1),
              ⟨nowhere g.adds ++ (nowhere f.adds ++ p.2.env), q.2.mem⟩) := by
  simp only [Form.exec, Form.value, bind_assoc, hu]
  rfl

/-- What `if` does after its branches, for branches of integer types. -/
theorem ifEnd_sound {k : Nat} {rt re r : Rtv} {s₀ s₇ : St} (hrt : HasTy s₀ u false rt)
    (hread : prepareRead re s = .ok (r, s₇)) (hs : Building s₇) (hr : HasTy s₇ t false r)
    (hk : k + 2 < s₇.graph.size) :
    ∃ r' is, HasTy (s₇.emitAll is) u false r' ∧
      ifEnd k rt re s = .ok ({ rt with v := ⟨.inst (joinStart k (s₇.emitAll is)).here, .int u.width⟩ },
        (joinStart k (s₇.emitAll is)).emit (.phi (.int u.width) [(rt.v, k), (r'.v, k + 1)])) ∧
      ∀ {I Γ σ c x}, I.Covers (s₇.emitAll is) → At I Γ s₇ σ c → c.m.read r.v = some x →
        Fits t.width x →
        Leads I s₇ c Γ (s₇.emitAll is) σ fun c' => c'.m.read r'.v = some (wrap u.width x) := by
  obtain ⟨r', is, hconv, hty, hrun⟩ := convertType_sound hs hr u 0
  refine ⟨r', is, hty, ?_, hrun⟩
  have hdest : unwrapType rt = .ok u.rtt := by
    have hvoid : rt.t ≠ .void := by
      rw [hrt.type]
      rintro ⟨⟩
    rw [unwrapType, if_neg hvoid, hrt.lval, if_neg Bool.false_ne_true, hrt.rtt]
  have hconv' : convertType re u.rtt 0 s = .ok (some r', s₇.emitAll is) := by
    rw [convertType_read, hread]
    exact hconv
  have hnull : u.rtt.l ≠ .null := by rintro ⟨⟩
  have hlt : (joinStart k (s₇.emitAll is)).block < (joinStart k (s₇.emitAll is)).graph.size := by
    simpa [joinStart, St.emit, St.emitAll, St.position, St.block] using hk
  unfold ifEnd
  simp only [hdest, ok_bind, hconv', St.buildPhi, if_neg hnull]
  simp only [St.build]
  rw [St.addIncoming_emit hlt, St.addIncoming_emit hlt, List.nil_append, List.singleton_append]
  rfl

theorem if_sound (he : Sound run e) (hf : Sound run f) (hg : Sound run g) :
    Sound run (.if_ e f g) := by
  intro Γ s hok hM
  simp only [Form.ok, Bool.and_eq_true, Option.isSome_iff_exists, Bool.not_eq_true'] at hok
  obtain ⟨⟨⟨⟨⟨⟨⟨⟨hoke, hokf⟩, hokg⟩, t, ht⟩, u, hu⟩, w, hw⟩, hlval⟩, hflatf⟩, hflatg⟩ := hok
  have hs := hM.building
  obtain ⟨fn, hfn⟩ := Option.isSome_iff_exists.1 hs.fn
  have hk₁ := Extends.threeBlocks hs hfn
  have hs₁ := hk₁.building
  obtain ⟨r₁, s₂', cb, s₂, h₁, h₂, hM₂, hk₂, hty₂, hrun₂⟩ := he.condition hoke (hM.keep hk₁ rfl) ht
  have hs₂ := hM₂.building
  -- the branches are compiled in the first and the second of three blocks
  have hblank₂ : ∀ n, n < 3 → Blank s₂ (s.graph.size + n) := fun n h3 =>
    (threeBlocks_blank hs fn h3).extends_ hk₂
  have hk₃ : Extends s (thenStart s.graph.size cb.v s₂) :=
    (hk₁.trans hk₂).jumpTo _ le_rfl (hblank₂ 0 (by decide)).lt
  have hhere₃ : (thenStart s.graph.size cb.v s₂).here = ⟨s.graph.size, 0⟩ :=
    (hblank₂ 0 (by decide)).jump hs₂ _
  have hM₃ : Matches _ (thenStart s.graph.size cb.v s₂) := hM₂.jump _ (hblank₂ 0 (by decide)).lt
  obtain ⟨rt, s₄, h₃, hcf⟩ := hf hokf hM₃
  have hs₄ := hcf.ext.building
  have hblock₄ : s₄.block = s.graph.size := hcf.flat hflatf
  have hblank₄ : ∀ n, 0 < n → n < 3 → Blank s₄ (s.graph.size + n) := fun n h0 h3 =>
    ((hblank₂ n h3).other hs₂ _ (by omega)).extends_ hcf.ext
  have hlt₄ := (hblank₄ 1 (by decide) (by decide)).lt
  have hk₅ : Extends s (elseStart s.graph.size s₄) :=
    (hk₃.trans hcf.ext).jumpTo _ (Nat.le_succ _) hlt₄
  have hhere₅ : (elseStart s.graph.size s₄).here = ⟨s.graph.size + 1, 0⟩ :=
    (hblank₄ 1 (by decide) (by decide)).jump hs₄ _
  have hM₅ : Matches _ (elseStart s.graph.size s₄) := (hcf.ctx.jump _ hlt₄)
  have hM₅' := hM₅.hide
  rw [Ctx.add_add] at hM₅'
  obtain ⟨r₅, s₆, r₆, s₇, h₄, hread, hM₇, hk₇, hty₇, hflat₇, hrun₇⟩ := hg.operand hokg hM₅' hw
  have hs₇ := hM₇.building
  -- both values go into the phi in the third block
  have hblank₇ : Blank s₇ (s.graph.size + 2) :=
    ((hblank₄ 2 (by decide) (by decide)).other hs₄ _ (by omega)).extends_ hk₇
  have htyt := hcf.ty u hu
  rw [show f.meaning.lval = false from hlval] at htyt
  obtain ⟨r₇, is, hty₈, hend, hrun₈⟩ := ifEnd_sound htyt hread hs₇ hty₇ hblank₇.lt
  have hk₈ : Extends s₇ (s₇.emitAll is) := .emitAll hs₇ is
  have hs₈ := hk₈.building
  have hblank₈ := hblank₇.extends_ hk₈
  have hblock₈ : (s₇.emitAll is).block = s.graph.size + 1 := by
    rw [St.block_emitAll, hflat₇ hflatg]
    rfl
  have hk₉ : Extends s (joinStart s.graph.size (s₇.emitAll is)) :=
    (hk₅.trans (hk₇.trans hk₈)).jumpTo _ (Nat.le_add_right _ 2) hblank₈.lt
  have hs₉ := hk₉.building
  have hhere₉ : (joinStart s.graph.size (s₇.emitAll is)).here = ⟨s.graph.size + 2, 0⟩ :=
    hblank₈.jump hs₈ _
  have hM₉ : Matches _ (joinStart s.graph.size (s₇.emitAll is)) :=
    (hM₇.keep hk₈ rfl).jump _ hblank₈.lt
  generalize hphi : Instr.phi (.int u.width) [(rt.v, s.graph.size), (r₇.v, s.graph.size + 1)] = phi
    at hend
  have hk₁₀ := emit_extends hs₉ phi
  have hM₁₀ := hM₉.keep hk₁₀ rfl
  have hM' := hM₁₀.hide
  rw [Ctx.add_add] at hM'
  -- seen from the end of the condition, the variables of both branches are new
  have hctx : (Γ.add (Form.hide f.adds ++ e.adds)).add g.adds =
      (Γ.add e.adds).add (g.adds ++ Form.hide f.adds) := by
    rw [Ctx.add_add, Ctx.add_add, List.append_assoc]
  rw [hctx] at hM₁₀
  have hlater₂ : Later s₂ (elseStart s.graph.size s₄) :=
    (Later.jump hs₂ _ _).trans (hcf.ext.later.trans (.jump hs₄ _ _))
  have hlater₉ : Later (elseStart s.graph.size s₄) (joinStart s.graph.size (s₇.emitAll is)) :=
    (hk₇.trans hk₈).later.trans (.jump hs₈ _ _)
  refine ⟨{ rt with v := ⟨.inst (joinStart s.graph.size (s₇.emitAll is)).here, .int u.width⟩ }, _, ?_,
    ⟨hM', hk₉.trans hk₁₀, ?_, fun _ => htyt.lval, by rintro ⟨⟩, ?_⟩⟩
  · rw [Form.expr, eval_if hfn]
    simp only [h₁, h₂, h₃, h₄, ok_bind]
    exact hend
  · intro u' hu'
    cases hu.symm.trans hu'
    exact ⟨htyt.type, htyt.lval, rfl, known_here hs₉ _⟩
  intro I fuel call hI hcalls σ c hat
  have hI₉ := hI.of_extends hk₁₀
  obtain ⟨hI₈', hI₈⟩ : I.Covers ((s₇.emitAll is).emit _) ∧ _ := hI₉.of_jump hs₈
  have hI₇ := hI₈.of_extends hk₈
  obtain ⟨hI₄', hI₄⟩ : I.Covers (s₄.emit _) ∧ _ := (hI₇.of_extends hk₇).of_jump hs₄
  obtain ⟨hI₂', hI₂⟩ : I.Covers (s₂.emit _) ∧ _ := (hI₄.of_extends hcf.ext).of_jump hs₂
  have hat' := hat.keep hk₁ rfl (threeBlocks_here hs)
  simp only [Form.meaning]
  rw [exec_if I.addr hu]
  refine Sim.bind (Sim.imp (hrun₂ hI₂ hcalls hat') (fun _ _ h => h) fun ex c' =>
    Leaves.mono hk₁ (.refl s c)) ?_
  rintro ⟨x, σ₁⟩ c₁ ⟨hat₁, hsame₁, hval⟩
  have hsame : Same s c c₁ := ⟨hsame₁.stack, fun y hy => hsame₁.val y (hk₁.known hy)⟩
  -- the phi takes `y`
  have hjoin : ∀ {d : Config} {m : Mem} {v : Value} {n : Nat} {y : Int}, Same s₂ c₁ d →
      d.pos = ⟨s.graph.size + 2, 0⟩ → d.m.mem = m.cells → d.next = m.next →
      [(rt.v, s.graph.size), (r₇.v, s.graph.size + 1)].find? (·.2 = d.prev) = some (v, n) →
      d.m.read v = some y → Fits u.width y →
      ∃ c₆, Reaches I.step d c₆ ∧ At I (Γ.add (Form.if_ e f g).adds)
        ((joinStart s.graph.size (s₇.emitAll is)).emit phi)
        ⟨nowhere g.adds ++ (nowhere f.adds ++ σ₁.env), m⟩ c₆ ∧ Same s c c₆ ∧
        ∀ t, (Form.if_ e f g).ty = some t → Holds c₆ t
          { rt with v := ⟨.inst (joinStart s.graph.size (s₇.emitAll is)).here, .int u.width⟩ }
          (.val y) := by
    intro d m v n y hsame₅ hpos hcells hnext hfind hy hfit
    subst hphi
    obtain ⟨c₆, hreach, hat₆, hsame₆, hval⟩ := hat₁.phi hM₂ (hlater₂.trans hlater₉) hs₉ hM₁₀ hI
      hsame₅ (hpos.trans hhere₉.symm) hcells hnext hfind hy
    rw [hide_append, hide_hide, nowhere_append, nowhere_hide, Ctx.add_add, List.append_assoc,
      List.append_assoc] at hat₆
    refine ⟨c₆, hreach, hat₆, hsame.trans (hk₁.trans hk₂).later hsame₆, fun u' hu' => ?_⟩
    cases hu.symm.trans hu'
    exact ⟨htyt.lval, hval, hfit⟩
  cases hx : truth x with
  | true =>
    have hgo : Reaches I.step c₁ { c₁ with pos := ⟨s.graph.size, 0⟩, prev := s₂.block } :=
      hat₁.goto hs₂ hI₂' (by rw [target_condBr hval, hx, if_pos rfl])
    have hat₃ := hat₁.enter hs₂ (.condBr cb.v s.graph.size (s.graph.size + 1)) s₂.block hhere₃
    refine .of_reaches hgo ?_
    rw [if_pos rfl, Form.value, bind_assoc]
    refine Sim.bind (Sim.imp (hcf.run hI₄ hcalls hat₃) (fun _ _ h => h) fun ex c' =>
      Leaves.mono hk₃ (hsame.trans (Extends.refl hs).later (.jump _ _ _ _))) ?_
    rintro ⟨o, σ₂⟩ c₄ ⟨hat₄, hsame₄, hh⟩
    have hh := hh u hu
    cases o with
    | place a w' =>
      have hfalse := hh.1
      rw [htyt.lval] at hfalse
      cases hfalse
    | val y =>
      obtain ⟨-, hy, hfit⟩ := hh
      have hsame₅ : Same s₂ c₁ c₄ := (Same.jump s₂ c₁ _ _).trans (.jump hs₂ _ _) hsame₄
      obtain ⟨c₆, hreach, hend⟩ := hjoin (d := { c₄ with pos := _, prev := s₄.block }) (y := y)
        ⟨hsame₅.stack, hsame₅.val⟩ rfl hat₄.cells hat₄.next
        (by rw [hblock₄, List.find?_cons_of_pos (by simp)]) hy hfit
      exact .of_reaches ((hat₄.goto hs₄ hI₄' rfl).trans hreach) (.ok hend)
  | false =>
    have hgo : Reaches I.step c₁ { c₁ with pos := ⟨s.graph.size + 1, 0⟩, prev := s₂.block } :=
      hat₁.goto hs₂ hI₂' (by rw [target_condBr hval, hx, if_neg Bool.false_ne_true])
    have hat₅ := hat₁.join hM₂ hlater₂ hM₅ (.jump s₂ c₁ ⟨s.graph.size + 1, 0⟩ s₂.block)
      (m := σ₁.mem) hhere₅.symm hat₁.cells hat₁.next
    rw [Ctx.add_add] at hat₅
    refine .of_reaches hgo (Sim.bind (Sim.imp (hrun₇ hI₇ hcalls hat₅) (fun _ _ h => h) fun ex c' =>
      Leaves.mono hk₅ (hsame.trans (Extends.refl hs).later (.jump _ _ _ _))) ?_)
    rintro ⟨y, σ₂⟩ c₇ ⟨hat₇, hsame₇, hy, hfit⟩
    obtain ⟨c₈, hreach₈, hat₈, hsame₈, hval₈⟩ := hrun₈ hI₈ hat₇ hy hfit
    have hsame₅ : Same s₂ c₁ c₈ :=
      ((Same.jump s₂ c₁ _ _).trans hlater₂ hsame₇).trans (hlater₂.trans hk₇.later) hsame₈
    obtain ⟨c₆, hreach, hend⟩ := hjoin (d := { c₈ with pos := _, prev := (s₇.emitAll is).block })
      (y := wrap u.width y) ⟨hsame₅.stack, hsame₅.val⟩ rfl hat₈.cells hat₈.next
      (by rw [hblock₈, List.find?_cons_of_neg (by simp), List.find?_cons_of_pos (by simp)]) hval₈
      (fits_wrap _ _)
    exact .of_reaches (hreach₈.trans ((hat₈.goto hs₈ hI₈' rfl).trans hreach)) (.ok hend)

end Dolorem.Programs
