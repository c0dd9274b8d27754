import Dolorem.Programs.Structures

/-!
# `while`

The code of a loop does what the interpreter does turn by turn: in front of the
condition the variables are where they were in front of the loop, and so are the
registers that were known then.
-/

namespace Dolorem.Programs

open Codegen CodeGraph Words Interp

variable {run : Nat → Bool} {I : Image} {Γ : Ctx} {s s' s₁ : St} {σ : Store}
variable {c c' c₁ : Config} {fn k : Nat} {t : IntTy} {fuel : Nat} {call : Caller} {e f : Form}

theorem Sim.endTurn {o : Res (Operand × Store)} {Q : Operand × Store → Config → Prop}
    {E E' : Exit → Config → Prop} {P : Mem × Bool → Config → Prop}
    (h : Sim I.step I.Stuck fuel c o Q E)
    (hok : ∀ r c', Q r c' → ∃ c'', Reaches I.step c' c'' ∧ P (r.2.mem, true) c'')
    (hbreak : ∀ m c', E (.break_ m) c' → P (m, false) c')
    (hcontinue : ∀ m c', E (.continue_ m) c' → P (m, true) c') :
    Sim I.step I.Stuck fuel c (endTurn o) P E' := by
  match o, h with
  | .ok r, ⟨c', hreach, hq⟩ =>
    obtain ⟨c'', hreach', hp⟩ := hok r c' hq
    exact ⟨c'', hreach.trans hreach', hp⟩
  | .error (.exit (.break_ m)), ⟨c', hreach, he⟩ => exact ⟨c', hreach, hbreak m c' he⟩
  | .error (.exit (.continue_ m)), ⟨c', hreach, he⟩ => exact ⟨c', hreach, hcontinue m c' he⟩
  | .error .wrong, h => exact h
  | .error .timeout, h => exact h

/-- What was done to the loop's blocks while its body was compiled. -/
theorem restoreLoop_extends {a b : Nat} (h : Extends (s.enterLoop a b) s') :
    Extends s (s.restoreLoop s') where
  building := ⟨h.building.bldr, h.building.lt, h.building.fn⟩
  grows := h.grows
  owner := h.owner
  fns := h.fns
  curfn := h.curfn
  outer :=
    calc outer (s.restoreLoop s') = s.restoreLoop (outer s') := rfl
      _ = outer s := by
        rw [h.outer]
        rfl

theorem enterLoop_matches (h : Matches Γ s) (a b : Nat) : Matches Γ.loop (s.enterLoop a b) where
  building := ⟨h.building.bldr, h.building.lt, h.building.fn⟩
  scopes := h.scopes
  slots := h.slots.imp fun _ _ hp => ⟨hp.name, hp.shape⟩
  globals := h.globals
  funs := h.funs
  loop _ := ⟨rfl, rfl, rfl⟩

theorem restoreLoop_matches {xs : List (String × Option IntTy)} (h : Matches Γ s)
    (hk : Extends s (s.restoreLoop s')) (h' : Matches (Γ.loop.add xs) s') :
    Matches (Γ.add xs) (s.restoreLoop s') where
  building := hk.building
  scopes := h'.scopes
  slots := h'.slots.imp fun _ _ hp => ⟨hp.name, hp.shape⟩
  globals := h'.globals
  funs := h'.funs
  loop := h.loop

theorem exec_while (addr : String → Int) (σ : Store) :
    (Form.while_ e f).exec addr call fuel σ =
      iterate
        (fun σ₁ => e.value addr call fuel ⟨σ.env, σ₁.mem⟩ >>= fun p => .ok (p.2, truth p.1))
        (fun σ₁ => endTurn (f.exec addr call fuel σ₁) >>= fun q => .ok (⟨σ.env, q.1⟩, q.2))
        fuel σ >>= fun σ₁ =>
      .ok (.val 0, ⟨nowhere (f.adds ++ e.adds) ++ σ.env, σ₁.mem⟩) := by
  simp only [Form.exec, Form.value, bind_assoc]

theorem while_sound (he : Sound run e) (hf : Sound run f) : Sound run (.while_ e f) := by
  intro Γ s hok hM
  simp only [Form.ok, Bool.and_eq_true, Option.isSome_iff_exists] at hok
  obtain ⟨⟨hoke, hokf⟩, t, ht⟩ := hok
  have hs := hM.building
  obtain ⟨fn, hfn⟩ := Option.isSome_iff_exists.1 hs.fn
  -- the condition is compiled in the first of three blocks
  have hk₁ := Extends.threeBlocks hs hfn
  have hs₁ := hk₁.building
  have hsize₁ := threeBlocks_size fn (s := s)
  have hk₂ : Extends s (testStart fn s) := hk₁.jumpTo _ le_rfl (by omega)
  have hhere₂ : (testStart fn s).here = ⟨s.graph.size, 0⟩ :=
    (threeBlocks_blank hs fn (n := 0) (by decide)).jump hs₁ _
  have hM₂ := hM.keep hk₂ rfl
  obtain ⟨r₁, s₃', cb, s₃, h₁, h₂, hM₃, hk₃, hty₃, hrun₃⟩ := he.condition hoke hM₂ ht
  have hs₃ := hM₃.building
  -- the body in the second one
  have hblank₃ : ∀ n, 0 < n → n < 3 → Blank s₃ (s.graph.size + n) := fun n h0 h3 =>
    ((threeBlocks_blank hs fn h3).other hs₁ _ (by omega)).extends_ hk₃
  have hlt₁ := (hblank₃ 1 (by decide) (by decide)).lt
  have hk₄ : Extends s (loopStart s.graph.size cb.v s₃) :=
    (hk₂.trans hk₃).jumpTo _ (Nat.le_succ _) hlt₁
  have hhere₄ : (loopStart s.graph.size cb.v s₃).here = ⟨s.graph.size + 1, 0⟩ :=
    (hblank₃ 1 (by decide) (by decide)).jump hs₃ _
  have hM₄ : Matches _ (loopStart s.graph.size cb.v s₃) := hM₃.jump _ hlt₁
  have hblank₄ : Blank (loopStart s.graph.size cb.v s₃) (s.graph.size + 2) :=
    (hblank₃ 2 (by decide) (by decide)).other hs₃ _ (by omega)
  obtain ⟨rb, s₅, hb, hcb⟩ :=
    hf hokf (enterLoop_matches hM₄ s.graph.size (s.graph.size + 2))
  have hk₆ := restoreLoop_extends hcb.ext
  have hM₆ := restoreLoop_matches hM₄ hk₆ hcb.ctx
  have hs₆ := hk₆.building
  -- what follows in the third one
  have hblank₆ := hblank₄.extends_ hk₆
  have hk₇ := (hk₄.trans hk₆).jumpTo (.br s.graph.size) (Nat.le_add_right _ 2) hblank₆.lt
  have hhere₇ := hblank₆.jump hs₆ (.br s.graph.size)
  have hM₇ := hM₆.jump (.br s.graph.size) hblank₆.lt
  rw [Ctx.add_add] at hM₇
  refine ⟨nullRtv, _, ?_, ⟨hM₇.hide, hk₇, by rintro u ⟨⟩, fun _ => rfl, by rintro ⟨⟩, ?_⟩⟩
  · rw [Form.expr, eval_while hfn]
    simp only [h₁, h₂, ok_bind, hb]
    rfl
  intro I fuel call hI hcalls σ c hat
  obtain ⟨hI₆', hI₆⟩ := hI.of_jump hs₆
  have hI₅ : I.Covers s₅ := ⟨hI₆.graph, hI₆.fns⟩
  have hI₄ := hI₆.of_extends hk₆
  obtain ⟨hI₃', hI₃⟩ : I.Covers (s₃.emit _) ∧ I.Covers s₃ := hI₄.of_jump hs₃
  obtain ⟨hI₁', -⟩ : I.Covers ((threeBlocks fn s).emit _) ∧ _ := (hI₃.of_extends hk₃).of_jump hs₁
  simp only [Form.meaning]
  rw [exec_while]
  -- in front of the condition
  have hM₂' : Matches (Γ.add []) (testStart fn s) := hM₂
  have hback : ∀ {m : Mem} {c' : Config}, Same s c c' → c'.pos = ⟨s.graph.size, 0⟩ →
      c'.m.mem = m.cells → c'.next = m.next → At I Γ (testStart fn s) ⟨σ.env, m⟩ c' :=
    fun {m c'} hsame hpos hcells hnext =>
      hat.join hM hk₂.later hM₂' hsame (hpos.trans hhere₂.symm) hcells hnext
  have hgo := (hat.keep hk₁ rfl (threeBlocks_here hs)).goto hs₁ hI₁' rfl
  refine Sim.of_reaches hgo (Sim.bind (Q := fun σ₁ c' => Same s c c' ∧
    c'.pos = ⟨s.graph.size + 2, 0⟩ ∧ c'.m.mem = σ₁.mem.cells ∧ c'.next = σ₁.mem.next) ?_ ?_)
  · refine Sim.iterate (I := fun σ₁ c' => Same s c c' ∧ At I Γ (testStart fn s) ⟨σ.env, σ₁.mem⟩ c')
      (J := fun σ₁ c' => Same s c c' ∧
        At I (Γ.add e.adds) (loopStart s.graph.size cb.v s₃) σ₁ c') ?_ ?_ le_rfl
      ⟨.jump _ _ _ _, hback (.jump _ _ _ _) rfl hat.cells hat.next⟩
    · rintro σ₁ c₁ ⟨hsame₁, hat₁⟩
      refine Sim.bind ((Sim.imp (hrun₃ hI₃ hcalls hat₁) (fun _ _ h => h) fun ex c' =>
        Leaves.mono hk₂ hsame₁)) ?_
      rintro ⟨x, σ₂⟩ c₂ ⟨hat₂, hsame₂, hval⟩
      have hsame := hsame₁.trans hk₂.later hsame₂
      cases hx : truth x with
      | true =>
        refine .ok ⟨_, hat₂.branch (b := s.graph.size + 1) hs₃ hI₃' ?_,
          hsame.trans (hk₂.trans hk₃).later (.jump _ _ _ _), ?_⟩
        · rw [target_condBr hval, hx, if_pos rfl]
        · exact hat₂.enter hs₃ _ _ hhere₄
      | false =>
        have hgo : Reaches I.step c₂ { c₂ with pos := ⟨s.graph.size + 2, 0⟩, prev := s₃.block } :=
          hat₂.goto hs₃ hI₃' (by rw [target_condBr hval, hx, if_neg Bool.false_ne_true])
        exact .of_reaches hgo (.ok ⟨hsame.trans (hk₂.trans hk₃).later (.jump _ _ _ _), rfl, hat₂.cells,
          hat₂.next⟩)
    · rintro σ₁ c₁ ⟨hsame₁, hat₁⟩
      have hat₁' : At I (Γ.add e.adds).loop
          ((loopStart s.graph.size cb.v s₃).enterLoop s.graph.size (s.graph.size + 2)) σ₁ c₁ :=
        ⟨hat₁.pos, hat₁.cells, hat₁.next, hat₁.places.mono (fun _ h => h) fun _ _ => rfl,
          hat₁.globals⟩
      refine Sim.bind (Q := fun q c' => if q.2 then
        Same s c c' ∧ At I Γ (testStart fn s) ⟨σ.env, q.1⟩ c' else Same s c c' ∧
          c'.pos = ⟨s.graph.size + 2, 0⟩ ∧ c'.m.mem = q.1.cells ∧ c'.next = q.1.next)
        (Sim.endTurn (hcb.run hI₅ hcalls hat₁') ?_ ?_ ?_) ?_
      · rintro ⟨o, σ₃⟩ c₃ ⟨hat₃, hsame₃, -⟩
        have hat₆ : At I ((Γ.add e.adds).loop.add f.adds)
            ((loopStart s.graph.size cb.v s₃).restoreLoop s₅) σ₃ c₃ :=
          ⟨hat₃.pos, hat₃.cells, hat₃.next, hat₃.places.mono (fun _ h => h) fun _ _ => rfl,
            hat₃.globals⟩
        have hsame : Same s c c₃ := hsame₁.trans hk₄.later ⟨hsame₃.stack, hsame₃.val⟩
        have hsame' := hsame.trans (Extends.refl hs).later (.jump s c₃ ⟨s.graph.size, 0⟩
          ((loopStart s.graph.size cb.v s₃).restoreLoop s₅).block)
        exact ⟨_, hat₆.goto hs₆ hI₆' rfl, hsame', hback hsame' rfl hat₃.cells hat₃.next⟩
      · rintro m c' ⟨-, hsame, hpos, hcells, hnext⟩
        exact ⟨hsame₁.trans hk₄.later ⟨hsame.stack, hsame.val⟩, hpos, hcells, hnext⟩
      · rintro m c' ⟨-, hsame, hpos, hcells, hnext⟩
        have hsame' : Same s c c' := hsame₁.trans hk₄.later ⟨hsame.stack, hsame.val⟩
        exact ⟨hsame', hback hsame' hpos hcells hnext⟩
      · rintro ⟨m, again⟩ c' h
        cases again with
        | true => exact .ok h
        | false => exact .ok h
  · rintro σ₁ c' ⟨hsame, hpos, hcells, hnext⟩
    refine .ok ⟨hat.join hM hk₇.later hM₇ hsame (hpos.trans hhere₇.symm) hcells hnext, hsame, ?_⟩
    rintro u ⟨⟩

end Dolorem.Programs
