import Dolorem.Codegen.Structured

/-!
# The blocks of a statement do what the statement says

Both directions are about a graph `G` that has at least the code emitted for the
statement, so that they apply inside larger statements. Forwards, an execution
of the statement is a run through `G` from the block current before the
statement to where its outcome leads (`exit`). Backwards, a run through `G` from
there either stays in the statement, and shows a part of an execution, or begins
with a whole execution and continues where its outcome leads.
-/

namespace Dolorem.Codegen

open CodeGraph Lts

variable {run : Nat → Bool} {e : Expr} {es : List Expr} {s s' s₁ : St} {r : Rtv}
  {G : Cfg Nat Instr} {ls : List Event} {n : Nat} {q : Pos} {o : Outcome}

/-- Where control goes when a statement evaluated from `s` to `s'` ends with an
outcome. -/
def exit (s s' : St) : Outcome → Option Pos
  | .normal => some s'.here
  | .brk => s.whileLastAfterBlock.map (⟨·, 0⟩)
  | .cont => s.whileLastCondBlock.map (⟨·, 0⟩)
  | .cut => none

theorem exit_of_moves (hm : Moves s s₁) (t t' : St) (ho : o ≠ .normal) :
    exit s₁ t o = exit s t' o := by
  cases o with
  | normal => exact absurd rfl ho
  | brk => simp [exit, hm.whileLastAfterBlock]
  | cont => simp [exit, hm.whileLastCondBlock]
  | cut => rfl

/-- The steps of control through `G`. -/
abbrev Goes (G : Cfg Nat Instr) : Pos → Option Event → Pos → Prop := Step Instr.flow G

/-! ## From executions to runs -/

/-- Some run from `p` shows `ls` and ends as the outcome says. -/
def Leads (G : Cfg Nat Instr) (s s' : St) (p : Pos) (ls : List Event) : Outcome → Prop
  | .cut => ∃ q, Runs (Goes G) p ls q
  | o => ∃ x, exit s s' o = some x ∧ Runs (Goes G) p ls x

theorem Leads.prepend {p : Pos} {ms : List Event} (hr : Runs (Goes G) p ms q)
    (h : Leads G s s' q ls o) : Leads G s s' p (ms ++ ls) o := by
  cases o with
  | cut => exact h.imp fun _ hx => hr.trans hx
  | _ => exact h.imp fun _ hx => ⟨hx.1, hr.trans hx.2⟩

theorem Leads.of_moves {p : Pos} {t : St} (hm : Moves s s₁) (h : Leads G s₁ s' p ls o)
    (hn : o = .normal → s'.here = t.here) : Leads G s t p ls o := by
  cases o with
  | normal =>
    obtain ⟨x, hx, hr⟩ := h
    exact ⟨x, by rw [← hx, exit, exit, hn rfl], hr⟩
  | brk =>
    obtain ⟨x, hx, hr⟩ := h
    exact ⟨x, by rw [← hx, exit_of_moves hm s' t (by simp)], hr⟩
  | cont =>
    obtain ⟨x, hx, hr⟩ := h
    exact ⟨x, by rw [← hx, exit_of_moves hm s' t (by simp)], hr⟩
  | cut => exact h

/-- Any part of the straight-line code at `p`. -/
theorem leads_part {p : Pos} {ks : List Nat} (h : Stretch G p (prims ks)) (hpre : ls <+: shows ks) :
    Leads G s s' p ls .cut := by
  obtain ⟨ks₁, hk₁, rfl⟩ : ∃ ks₁, ks₁ <+: ks ∧ ls = shows ks₁ := by
    obtain ⟨t, ht⟩ := hpre
    refine ⟨ks.take ls.length, List.take_prefix _ _, ?_⟩
    calc ls = (shows ks).take ls.length := by rw [← ht, List.take_left]
      _ = shows (ks.take ls.length) := by simp [shows, prims, List.map_take]
  obtain ⟨ks₂, rfl⟩ := hk₁
  have h₁ : Stretch G p (prims ks₁) := by
    rw [prims, List.map_append] at h
    exact h.of_append.1
  exact ⟨_, runs_stretch prims_flow h₁⟩

/-- Through the code of a condition and along one of the two edges. -/
theorem runs_test {p : Pos} {ks : List Nat} {v : Value} {t f : Nat}
    (h : Stretch G p (prims ks ++ [.condBr v t f])) (b : Bool) :
    Runs (Goes G) p (shows ks ++ [.test v b]) ⟨if b then t else f, 0⟩ := by
  obtain ⟨hks, hbr⟩ := h.of_append
  refine (runs_stretch prims_flow hks).trans ?_
  cases b with
  | true => exact .event (.yes hbr.head rfl) (.refl _)
  | false => exact .event (.no hbr.head rfl) (.refl _)

/-- Where an execution of a statement may start: at the block current before it,
and for a loop also at its condition. -/
def Starts (e : Expr) (s : St) (p : Pos) : Prop :=
  p = s.here ∨ ∃ c body, e = .while_ c body ∧ p = ⟨s.graph.size, 0⟩

theorem Starts.here {p : Pos} (h : Starts e s p) (he : ∀ c body, e ≠ .while_ c body) :
    p = s.here :=
  h.elim id fun ⟨c, body, hc, _⟩ => absurd hc (he c body)

/-- An execution of a loop from its condition is one from the branch to it. -/
theorem LoopCode.leads {ks : List Nat} {v : Value} {start : St} {c body : Expr} {p : Pos}
    (h : LoopCode G ks v s s' start s₁) (hp : Starts (.while_ c body) s p)
    (hl : Leads G s s' ⟨s.graph.size, 0⟩ ls o) : Leads G s s' p ls o := by
  rcases hp with rfl | ⟨-, -, -, rfl⟩
  · exact Leads.prepend (.silent (.jump h.enter rfl) (.refl _)) hl
  · exact hl

/-- The first statement of several, and the rest. -/
theorem progn_parts (hes : ∀ x ∈ e :: es, Structured x) (hs : Building s)
    (h : eval run (.progn (e :: es)) s = .ok (r, s')) :
    ∃ r₁ s₁ r₂, eval run e s = .ok (r₁, s₁) ∧ eval run (.progn es) s₁ = .ok (r₂, s') ∧
      Moves s s₁ ∧ Moves s₁ s' := by
  rw [eval] at h
  obtain ⟨r₁, s₁, r₂, h₁, h₂⟩ := evalProgn_cons_ok h
  obtain ⟨he, hes⟩ := List.forall_mem_cons.1 hes
  have hm := he.moves hs h₁
  exact ⟨r₁, s₁, r₂, h₁, by rwa [eval], hm,
    evalProgn_moves (fun x hx => (hes x hx).moves) hm.building h₂⟩

section Code

variable {ks : List Nat} {v : Value} {start : St}

/-- Through the body of a `cond`. -/
theorem CondCode.leads_true (h : CondCode G ks v s s' start s₁)
    (hbody : Leads G start s₁ start.here ls o) :
    Leads G s s' s.here (shows ks ++ .test v true :: ls) o := by
  rw [h.start_here] at hbody
  rw [List.append_cons]
  refine Leads.prepend (runs_test h.test true) ?_
  cases o with
  | normal =>
    obtain ⟨x, hx, hr⟩ := hbody
    cases hx
    have hout := hr.trans (.silent (.jump h.leave rfl) (.refl _))
    rw [List.append_nil] at hout
    exact ⟨_, congrArg some h.end_here, hout⟩
  | _ => exact hbody.of_moves h.moves (by simp)

/-- Through the condition of a loop into its body. -/
theorem LoopCode.leads_true (h : LoopCode G ks v s s' start s₁)
    (hl : Leads G s s' ⟨s.graph.size + 1, 0⟩ ls o) :
    Leads G s s' ⟨s.graph.size, 0⟩ (shows ks ++ .test v true :: ls) o := by
  rw [List.append_cons]
  exact Leads.prepend (runs_test h.test true) hl

/-- The body of a loop ends at the branch back, or jumps to the condition itself. -/
theorem LoopCode.runs_back (h : LoopCode G ks v s s' start s₁) (ho : o = .normal ∨ o = .cont)
    (hbody : Leads G start s₁ start.here ls o) :
    Runs (Goes G) ⟨s.graph.size + 1, 0⟩ ls ⟨s.graph.size, 0⟩ := by
  rw [h.start_here] at hbody
  rcases ho with rfl | rfl
  · obtain ⟨x, hx, hr⟩ := hbody
    cases hx
    have hback := hr.trans (.silent (.jump h.back rfl) (.refl _))
    rwa [List.append_nil] at hback
  · obtain ⟨x, hx, hr⟩ := hbody
    simp only [exit, h.cond, Option.map_some, Option.some.injEq] at hx
    rwa [← hx] at hr

/-- The body of a loop jumps out of it. -/
theorem LoopCode.leads_break (h : LoopCode G ks v s s' start s₁)
    (hbody : Leads G start s₁ start.here ls .brk) :
    Leads G s s' ⟨s.graph.size + 1, 0⟩ ls .normal := by
  rw [h.start_here] at hbody
  obtain ⟨x, hx, hr⟩ := hbody
  simp only [exit, h.after, Option.map_some, Option.some.injEq] at hx
  subst hx
  exact ⟨_, congrArg some h.end_here, hr⟩

end Code

/-- Every execution of a statement is a run through its code. -/
theorem exec_leads (hx : Exec e ls o) : ∀ {s s' : St} {r : Rtv} {p : Pos}, Structured e →
    Building s → eval run e s = .ok (r, s') → s'.graph.Sub G → Starts e s p →
    Leads G s s' p ls o := by
  induction hx with
  | stop =>
    intro s s' r p _ _ _ _ _
    exact ⟨p, .refl p⟩
  | done _ ih =>
    intro s s' r p he hs h hG hp
    obtain ⟨x, -, hr⟩ := ih he hs h hG hp
    exact ⟨x, hr⟩
  | @form ks r₀ =>
    intro s s' r p _ hs h hG hp
    rw [hp.here (by simp)]
    rw [eval] at h
    cases h
    have hst : Stretch G s.here (prims ks) :=
      (stretch_of_code (Cfg.code_append_self _ hs.lt (prims ks))).mono hG
    -- the run ends where the next form starts
    refine ⟨_, rfl, ?_⟩
    have hend : (s.emitAll (prims ks)).here = s.here.skip (prims ks).length := by
      rw [St.here, St.block_emitAll]
      exact Cfg.endOf_append _ hs.lt _
    rw [← prims, hend]
    exact runs_stretch prims_flow hst
  | @formPart ks r₀ ls hpre =>
    intro s s' r p _ hs h hG hp
    rw [hp.here (by simp)]
    rw [eval] at h
    cases h
    exact leads_part ((stretch_of_code (Cfg.code_append_self _ hs.lt (prims ks))).mono hG) hpre
  | break_ =>
    intro s s' r p _ hs h hG hp
    rw [hp.here (by simp)]
    obtain ⟨-, b, fn, hb, rfl⟩ := eval_break_ok hs h
    exact ⟨⟨b, 0⟩, by simp [exit, hb], .silent (.jump (jumpState_at? hs hG) rfl) (.refl _)⟩
  | continue_ =>
    intro s s' r p _ hs h hG hp
    rw [hp.here (by simp)]
    obtain ⟨-, b, fn, hb, rfl⟩ := eval_continue_ok hs h
    exact ⟨⟨b, 0⟩, by simp [exit, hb], .silent (.jump (jumpState_at? hs hG) rfl) (.refl _)⟩
  -- a sequence goes on where its first form has left off, unless that was a jump
  | prognNil =>
    intro s s' r p _ hs h hG hp
    rw [hp.here (by simp)]
    rw [eval, evalProgn] at h
    cases h
    exact ⟨s.here, rfl, .refl _⟩
  | @prognNext e es ls ms o _ _ ih₁ ih₂ =>
    intro s s' r p he hs h hG hp
    rw [hp.here (by simp)]
    cases he with
    | progn hes =>
      obtain ⟨r₁, s₁, r₂, h₁, h₂, hm, hm₂⟩ := progn_parts hes hs h
      obtain ⟨he, hes⟩ := List.forall_mem_cons.1 hes
      obtain ⟨x, hx, hr⟩ := ih₁ he hs h₁ (hm₂.sub.trans hG) (.inl rfl)
      cases hx
      exact Leads.prepend hr
        ((ih₂ (.progn hes) hm.building h₂ hG (.inl rfl)).of_moves hm fun _ => rfl)
  | @prognExit e es ls o ho _ ih =>
    intro s s' r p he hs h hG hp
    rw [hp.here (by simp)]
    cases he with
    | progn hes =>
      obtain ⟨r₁, s₁, r₂, h₁, -, -, hm₂⟩ := progn_parts hes hs h
      exact (ih (hes e List.mem_cons_self) hs h₁ (hm₂.sub.trans hG) (.inl rfl)).of_moves (.refl hs)
        fun h => absurd h ho
  | @scope es ls o _ ih =>
    intro s s' r p he hs h hG hp
    rw [hp.here (by simp)]
    cases he with
    | scope hes =>
      obtain ⟨t, t', ht, ⟨rfl, rfl⟩ | ⟨scopes, hc, rfl, rfl⟩⟩ := eval_scope_ok h
      · exact ih (.progn hes) hs (by rwa [eval]) hG (.inl rfl)
      · rw [← eval] at ht
        have hs' : Building { s with curfn := some ([] :: scopes) } := ⟨hs.bldr, hs.lt, hs.fn⟩
        have hl : Leads G { s with curfn := some ([] :: scopes) } t' s.here ls o :=
          ih (.progn hes) hs' ht hG (.inl rfl)
        exact hl
  | @condPart ks v flag body ls hpre =>
    intro s s' r p he hs h hG hp
    rw [hp.here (by simp)]
    cases he with
    | cond hv hb =>
      obtain ⟨r₁, start, s₁, -, hc⟩ := condCode hb hs hv h hG
      exact leads_part hc.test.of_append.1 hpre
  | @condFalse ks v flag body =>
    intro s s' r p he hs h hG hp
    rw [hp.here (by simp)]
    cases he with
    | cond hv hb =>
      obtain ⟨r₁, start, s₁, -, hc⟩ := condCode hb hs hv h hG
      exact ⟨_, congrArg some hc.end_here, runs_test hc.test false⟩
  | @condTrue ks v flag body ls o _ ih =>
    intro s s' r p he hs h hG hp
    rw [hp.here (by simp)]
    cases he with
    | cond hv hb =>
      obtain ⟨r₁, start, s₁, h₁, hc⟩ := condCode hb hs hv h hG
      exact hc.leads_true (ih hb hc.moves.building h₁ hc.sub (.inl rfl))
  -- the code of a loop may be entered from above or from its own end
  | @whilePart ks v flag body ls hpre =>
    intro s s' r p he hs h hG hp
    cases he with
    | while_ hv hb =>
      obtain ⟨r₁, start, s₁, -, hc⟩ := loopCode hb hs hv h hG
      exact hc.leads hp (leads_part hc.test.of_append.1 hpre)
  | @whileFalse ks v flag body =>
    intro s s' r p he hs h hG hp
    cases he with
    | while_ hv hb =>
      obtain ⟨r₁, start, s₁, -, hc⟩ := loopCode hb hs hv h hG
      exact hc.leads hp ⟨_, congrArg some hc.end_here, runs_test hc.test false⟩
  | @whileNext ks v flag body ls ms o o' ho _ _ ih₁ ih₂ =>
    intro s s' r p he hs h hG hp
    have hloop := ih₂ he hs h hG (.inr ⟨_, _, rfl, rfl⟩)
    cases he with
    | while_ hv hb =>
      obtain ⟨r₁, start, s₁, h₁, hc⟩ := loopCode hb hs hv h hG
      have hback := hc.runs_back ho (ih₁ hb hc.building h₁ hc.sub (.inl rfl))
      exact hc.leads hp (hc.leads_true (Leads.prepend hback hloop))
  | @whileBreak ks v flag body ls _ ih =>
    intro s s' r p he hs h hG hp
    cases he with
    | while_ hv hb =>
      obtain ⟨r₁, start, s₁, h₁, hc⟩ := loopCode hb hs hv h hG
      exact hc.leads hp (hc.leads_true (hc.leads_break (ih hb hc.building h₁ hc.sub (.inl rfl))))
  | @whileCut ks v flag body ls _ ih =>
    intro s s' r p he hs h hG hp
    cases he with
    | while_ hv hb =>
      obtain ⟨r₁, start, s₁, h₁, hc⟩ := loopCode hb hs hv h hG
      obtain ⟨x, hr⟩ := ih hb hc.building h₁ hc.sub (.inl rfl)
      rw [hc.start_here] at hr
      have hcut : Leads G s s' ⟨s.graph.size + 1, 0⟩ ls .cut := ⟨x, hr⟩
      exact hc.leads hp (hc.leads_true hcut)

/-! ## From runs to executions -/

/-- A run of `n` steps that shows `ls` and ends in `q` is a part of an execution
of `e`, stopped before some instruction, or a whole execution and a run from
where it leads. -/
def Splits (G : Cfg Nat Instr) (e : Expr) (s s' : St) (n : Nat) (ls : List Event) (q : Pos) :
    Prop :=
  (Exec e ls .cut ∧ ∃ i, G.at? q = some i) ∨
    ∃ l₁ l₂ o m x, ls = l₁ ++ l₂ ∧ m ≤ n ∧ Exec e l₁ o ∧ exit s s' o = some x ∧
      Run (Goes G) m x l₂ q

/-- The run starts with the code of a condition. -/
theorem run_test_inv {p : Pos} {ks : List Nat} {v : Value} {t f : Nat}
    (h : Stretch G p (prims ks ++ [.condBr v t f])) (hr : Run (Goes G) n p ls q) :
    (ls <+: shows ks ∧ ∃ i, G.at? q = some i) ∨
      ∃ b m ms, m < n ∧ ls = shows ks ++ .test v b :: ms ∧
        Run (Goes G) m ⟨if b then t else f, 0⟩ ms q := by
  obtain ⟨hks, hbr⟩ := h.of_append
  rcases run_stretch_inv prims_flow hks hr with hpart | ⟨m, ms, hm, rfl, hrest⟩
  · exact .inl hpart
  · have hat := hbr.head
    rcases run_branch_inv hat rfl hrest with ⟨rfl, rfl⟩ | ⟨m', ms', rfl, rfl, hgo⟩ |
      ⟨m', ms', rfl, rfl, hgo⟩
    · exact .inl ⟨by rw [List.append_nil]; exact List.prefix_rfl, _, hat⟩
    · exact .inr ⟨true, m', ms', hm, rfl, hgo⟩
    · exact .inr ⟨false, m', ms', hm, rfl, hgo⟩

theorem splits_jump {b : Nat} (he : Exec e [] o) (hx : exit s s' o = some ⟨b, 0⟩)
    (hat : G.at? s.here = some (.br b)) (hr : Run (Goes G) n s.here ls q) :
    Splits G e s s' n ls q := by
  rcases run_jump_inv hat rfl hr with ⟨rfl, rfl⟩ | ⟨m, rfl, hgo⟩
  · exact .inl ⟨.stop, _, hat⟩
  · exact .inr ⟨[], ls, o, m, _, rfl, Nat.le_succ m, he, hx, hgo⟩

theorem progn_splits
    (ih : ∀ e ∈ es, ∀ {s s' : St} {r : Rtv} {n : Nat} {ls : List Event}, Building s →
      eval run e s = .ok (r, s') → s'.graph.Sub G → Run (Goes G) n s.here ls q →
      Splits G e s s' n ls q)
    (hes : ∀ e ∈ es, Structured e) (hs : Building s) (h : evalProgn run es s = .ok (r, s'))
    (hG : s'.graph.Sub G) (hr : Run (Goes G) n s.here ls q) :
    Splits G (.progn es) s s' n ls q := by
  induction es generalizing s r n ls with
  | nil =>
    rw [evalProgn] at h
    cases h
    exact .inr ⟨[], ls, .normal, n, _, rfl, le_rfl, .prognNil, rfl, hr⟩
  | cons e es ihl =>
    obtain ⟨r₁, s₁, r₂, h₁, h₂⟩ := evalProgn_cons_ok h
    have hes' : ∀ x ∈ es, Structured x := fun x hx => hes x (List.mem_cons_of_mem _ hx)
    have hm := (hes e List.mem_cons_self).moves hs h₁
    have hm₂ := evalProgn_moves (fun x hx => (hes' x hx).moves) hm.building h₂
    rcases ih e List.mem_cons_self hs h₁ (hm₂.sub.trans hG) hr with
      ⟨hx, live⟩ | ⟨l₁, l₂, o, m, x, rfl, hmn, hx, he, hr⟩
    · exact .inl ⟨.prognExit (by simp) hx, live⟩
    · by_cases ho : o = .normal
      · subst ho
        cases he
        rcases ihl (fun x hx => ih x (List.mem_cons_of_mem _ hx)) hes' hm.building h₂ hr with
          ⟨hx₂, live⟩ | ⟨m₁, m₂, o', m', x', rfl, hm', hx₂, he', hr'⟩
        · exact .inl ⟨.prognNext hx hx₂, live⟩
        · refine .inr ⟨l₁ ++ m₁, m₂, o', m', x', (List.append_assoc ..).symm, hm'.trans hmn,
            .prognNext hx hx₂, ?_, hr'⟩
          by_cases ho' : o' = .normal
          · subst ho'
            exact he'
          · rwa [exit_of_moves hm s' s' ho'] at he'
      · exact .inr ⟨l₁, l₂, o, m, x, rfl, hmn, .prognExit ho hx,
          by rwa [exit_of_moves (.refl hs) s' s₁ ho], hr⟩

/-- A loop, from its condition: induction on the length of the run, which has
got shorter when the body leads back. -/
theorem loop_splits {ks : List Nat} {v : Value} {flag : Bool} {body : Expr} {start : St}
    (hc : LoopCode G ks v s s' start s₁)
    (ih : ∀ {n : Nat} {ls : List Event}, Run (Goes G) n start.here ls q →
      Splits G body start s₁ n ls q) :
    ∀ n ls, Run (Goes G) n ⟨s.graph.size, 0⟩ ls q →
      Splits G (.while_ (test ks v flag) body) s s' n ls q := by
  intro n
  induction n using Nat.strong_induction_on with
  | _ n ihn =>
    intro ls hr
    rcases run_test_inv hc.test hr with ⟨hpre, live⟩ | ⟨b, m, ms, hmn, rfl, hgo⟩
    · exact .inl ⟨.whilePart hpre, live⟩
    cases b with
    | false =>
      rw [List.append_cons]
      exact .inr ⟨_, ms, .normal, m, _, rfl, hmn.le, .whileFalse, congrArg some hc.end_here, hgo⟩
    | true =>
      -- what a run back at the condition is, after a body that showed `l₁`
      have hagain : ∀ {l₁ l₂ : List Event} {o : Outcome} {k : Nat}, o = .normal ∨ o = .cont →
          Exec body l₁ o → k < n → Run (Goes G) k ⟨s.graph.size, 0⟩ l₂ q →
          Splits G (.while_ (test ks v flag) body) s s' n
            (shows ks ++ .test v true :: (l₁ ++ l₂)) q := by
        intro l₁ l₂ o k ho hx hk hr
        rcases ihn k hk l₂ hr with ⟨hx₂, live⟩ | ⟨m₁, m₂, o', k', x, rfl, hk', hx₂, he, hr'⟩
        · exact .inl ⟨.whileNext ho hx hx₂, live⟩
        · exact .inr ⟨_, m₂, o', k', x, by simp [List.append_assoc], hk'.trans hk.le,
            .whileNext ho hx hx₂, he, hr'⟩
      rw [if_pos rfl, ← hc.start_here] at hgo
      rcases ih hgo with ⟨hx, live⟩ | ⟨l₁, l₂, o, k, x, rfl, hk, hx, he, hon⟩
      · exact .inl ⟨.whileCut hx, live⟩
      · cases o with
        | normal =>
          cases he
          rcases run_jump_inv hc.back rfl hon with ⟨rfl, rfl⟩ | ⟨k', rfl, hback⟩
          · rw [List.append_nil]
            exact .inl ⟨.whileCut (.done hx), _, hc.back⟩
          · exact hagain (.inl rfl) hx (Nat.lt_of_succ_lt (hk.trans_lt hmn)) hback
        | cont =>
          simp only [exit, hc.cond, Option.map_some, Option.some.injEq] at he
          subst he
          exact hagain (.inr rfl) hx (hk.trans_lt hmn) hon
        | brk =>
          simp only [exit, hc.after, Option.map_some, Option.some.injEq] at he
          subst he
          exact .inr ⟨_, l₂, .normal, k, _, by simp, hk.trans hmn.le, .whileBreak hx,
            congrArg some hc.end_here, hon⟩
        | cut => cases he

/-- Every run into the code of a statement is an execution or a part of one. -/
theorem run_splits (he : Structured e) : ∀ {s s' : St} {r : Rtv} {n : Nat} {ls : List Event},
    Building s → eval run e s = .ok (r, s') → s'.graph.Sub G → Run (Goes G) n s.here ls q →
    Splits G e s s' n ls q := by
  induction he with
  | form ks r₀ =>
    intro s s' r n ls hs h hG hr
    rw [eval] at h
    cases h
    have hst : Stretch G s.here (prims ks) :=
      (stretch_of_code (Cfg.code_append_self _ hs.lt (prims ks))).mono hG
    rcases run_stretch_inv prims_flow hst hr with ⟨hpre, live⟩ | ⟨m, ms, hm, rfl, hgo⟩
    · exact .inl ⟨.formPart hpre, live⟩
    · refine .inr ⟨_, ms, .normal, m, _, rfl, hm, .form, ?_, hgo⟩
      rw [exit, ← prims, St.here, St.block_emitAll]
      exact congrArg some (Cfg.endOf_append _ hs.lt _)
  | progn hes ih =>
    intro s s' r n ls hs h hG hr
    rw [eval] at h
    exact progn_splits ih hes hs h hG hr
  | @scope es hes ih =>
    intro s s' r n ls hs h hG hr
    have hlift : ∀ {t t' : St}, Splits G (.progn es) t t' n ls q →
        (∀ o, exit t t' o = exit s s' o) → Splits G (.scope es) s s' n ls q := by
      rintro t t' (⟨hx, live⟩ | ⟨l₁, l₂, o, m, x, rfl, hm, hx, he, hr⟩) hexit
      · exact .inl ⟨.scope hx, live⟩
      · exact .inr ⟨l₁, l₂, o, m, x, rfl, hm, .scope hx, by rwa [← hexit], hr⟩
    obtain ⟨t, t', ht, ⟨rfl, rfl⟩ | ⟨scopes, hc, rfl, rfl⟩⟩ := eval_scope_ok h
    · exact hlift (progn_splits ih hes hs ht hG hr) fun _ => rfl
    · have hs' : Building { s with curfn := some ([] :: scopes) } := ⟨hs.bldr, hs.lt, hs.fn⟩
      refine hlift (progn_splits ih hes hs' ht hG hr) fun o => ?_
      cases o <;> rfl
  | @cond ks v flag body hv hb ih =>
    intro s s' r n ls hs h hG hr
    obtain ⟨r₁, start, s₁, h₁, hc⟩ := condCode hb hs hv h hG
    rcases run_test_inv hc.test hr with ⟨hpre, live⟩ | ⟨b, m, ms, hmn, rfl, hgo⟩
    · exact .inl ⟨.condPart hpre, live⟩
    cases b with
    | false =>
      rw [List.append_cons]
      exact .inr ⟨_, ms, .normal, m, _, rfl, hmn.le, .condFalse, congrArg some hc.end_here, hgo⟩
    | true =>
      rw [if_pos rfl, ← hc.start_here] at hgo
      rcases ih hc.moves.building h₁ hc.sub hgo with
        ⟨hx, live⟩ | ⟨l₁, l₂, o, k, x, rfl, hk, hx, he, hon⟩
      · exact .inl ⟨.condTrue hx, live⟩
      · by_cases ho : o = .normal
        · subst ho
          cases he
          rcases run_jump_inv hc.leave rfl hon with ⟨rfl, rfl⟩ | ⟨k', rfl, hend⟩
          · rw [List.append_nil]
            exact .inl ⟨.condTrue (.done hx), _, hc.leave⟩
          · exact .inr ⟨_, l₂, .normal, k', _, by simp, (Nat.le_of_succ_le hk).trans hmn.le,
              .condTrue hx, congrArg some hc.end_here, hend⟩
        · refine .inr ⟨_, l₂, o, k, x, by simp, hk.trans hmn.le, .condTrue hx, ?_, hon⟩
          rwa [exit_of_moves hc.moves s₁ s' ho] at he
  | @while_ ks v flag body hv hb ih =>
    intro s s' r n ls hs h hG hr
    obtain ⟨r₁, start, s₁, h₁, hc⟩ := loopCode hb hs hv h hG
    rcases run_jump_inv hc.enter rfl hr with ⟨rfl, rfl⟩ | ⟨m, rfl, hgo⟩
    · exact .inl ⟨.stop, _, hc.enter⟩
    · rcases loop_splits hc (fun hr => ih hc.building h₁ hc.sub hr) m ls hgo with
        hpart | ⟨l₁, l₂, o, k, x, hls, hk, hrest⟩
      · exact .inl hpart
      · exact .inr ⟨l₁, l₂, o, k, x, hls, Nat.le_succ_of_le hk, hrest⟩
  | break_ =>
    intro s s' r n ls hs h hG hr
    obtain ⟨-, b, fn, hb, rfl⟩ := eval_break_ok hs h
    exact splits_jump .break_ (by simp [exit, hb]) (jumpState_at? hs hG) hr
  | continue_ =>
    intro s s' r n ls hs h hG hr
    obtain ⟨-, b, fn, hb, rfl⟩ := eval_continue_ok hs h
    exact splits_jump .continue_ (by simp [exit, hb]) (jumpState_at? hs hG) hr

/-! ## Errors -/

theorem exec_jump (hx : Exec e ls o) (ho : o = .brk ∨ o = .cont) : orphan e ≠ none := by
  induction hx with
  | break_ | continue_ => simp [orphan]
  | prognNext _ _ _ ih =>
    have hes := ih ho
    rw [orphan] at hes ⊢
    rw [orphans]
    exact fun h => hes (Option.or_eq_none_iff.1 h).2
  | prognExit _ _ ih =>
    have he := ih ho
    rw [orphan, orphans]
    exact fun h => he (Option.or_eq_none_iff.1 h).1
  | scope _ ih =>
    have hes := ih ho
    simpa only [orphan] using hes
  | condTrue _ ih =>
    rw [orphan_cond_test]
    exact ih ho
  | whileNext _ _ _ _ ih =>
    have hw := ih ho
    exact hw
  | _ => rcases ho with ho | ho <;> cases ho

/-- Evaluation in `s` fails with exactly the error about the first jump outside
of all loops, if there is no loop around the statement either. -/
def Reports (run : Nat → Bool) (s : St) (e : Expr) : Prop :=
  (∀ r s', eval run e s = .ok (r, s') → s.whileInLoop = true ∨ orphan e = none) ∧
  ∀ h, eval run e s = .error h →
    s.whileInLoop = false ∧ ∃ msg, h = .error msg ∧ orphan e = some msg

/-- The loop context is usable. -/
def LoopKnown (s : St) : Prop :=
  s.whileInLoop = true → s.whileLastCondBlock.isSome ∧ s.whileLastAfterBlock.isSome

theorem LoopKnown.of_moves (h : LoopKnown s) (hm : Moves s s₁) : LoopKnown s₁ := by
  unfold LoopKnown
  rw [hm.whileInLoop, hm.whileLastCondBlock, hm.whileLastAfterBlock]
  exact h

theorem progn_reports
    (ih : ∀ e ∈ es, ∀ {s : St}, Building s → LoopKnown s → Reports run s e)
    (hes : ∀ e ∈ es, Structured e) (hs : Building s) (hl : LoopKnown s) :
    Reports run s (.progn es) := by
  induction es generalizing s with
  | nil =>
    unfold Reports
    simp [eval, evalProgn, orphan, orphans]
  | cons e es ihl =>
    obtain ⟨hok, herr⟩ := ih e List.mem_cons_self hs hl
    have hrest : ∀ {r₁ : Rtv} {s₁ : St}, eval run e s = .ok (r₁, s₁) → Reports run s₁ (.progn es) ∧
        s₁.whileInLoop = s.whileInLoop := by
      intro r₁ s₁ h₁
      have hm := (hes e List.mem_cons_self).moves hs h₁
      exact ⟨ihl (fun x hx => ih x (List.mem_cons_of_mem _ hx))
        (fun x hx => hes x (List.mem_cons_of_mem _ hx)) hm.building (hl.of_moves hm),
        hm.whileInLoop⟩
    constructor
    · intro r s' h
      rw [eval] at h
      obtain ⟨r₁, s₁, r₂, h₁, h₂⟩ := evalProgn_cons_ok h
      obtain ⟨⟨hok₂, -⟩, hsame⟩ := hrest h₁
      rw [← eval] at h₂
      rcases hok _ _ h₁ with hin | hnone
      · exact .inl hin
      · rw [orphan, orphans, hnone, Option.none_or, ← hsame]
        simpa [orphan] using hok₂ _ _ h₂
    · intro x h
      rw [eval] at h
      rcases evalProgn_cons_error.1 h with h₁ | ⟨r₁, s₁, h₁, h₂⟩
      · obtain ⟨hout, msg, rfl, hmsg⟩ := herr _ h₁
        exact ⟨hout, msg, rfl, by rw [orphan, orphans, hmsg, Option.some_or]⟩
      · obtain ⟨⟨-, herr₂⟩, hsame⟩ := hrest h₁
        rw [← eval] at h₂
        obtain ⟨hout, msg, rfl, hmsg⟩ := herr₂ _ h₂
        have hnone : orphan e = none := by
          rcases hok _ _ h₁ with hin | hnone
          · rw [hsame, hin] at hout
            cases hout
          · exact hnone
        refine ⟨hsame ▸ hout, msg, rfl, ?_⟩
        rwa [orphan, orphans, hnone, Option.none_or, ← orphan]

theorem jump_reports {dest : Option Nat} {msg : String} (horphan : orphan e = some msg)
    (heval : eval run e s = if s.whileInLoop then jumpOut dest s else .error (.error msg))
    (hs : Building s) (hdest : s.whileInLoop = true → dest.isSome) : Reports run s e := by
  cases hl : s.whileInLoop with
  | true =>
    obtain ⟨b, rfl⟩ := Option.isSome_iff_exists.1 (hdest hl)
    obtain ⟨fn, hfn⟩ := Option.isSome_iff_exists.1 hs.fn
    rw [hl, if_pos rfl, jumpOut_eq hfn] at heval
    exact ⟨fun _ _ _ => .inl hl, fun x h => by rw [heval] at h; cases h⟩
  | false =>
    rw [hl, if_neg (by simp)] at heval
    refine ⟨fun _ _ h => (by rw [heval] at h; cases h), fun x h => ?_⟩
    rw [heval] at h
    cases h
    exact ⟨hl, msg, rfl, horphan⟩

/-- What is said of the results of a part of a form is true of those of the form. -/
theorem results_bind {α : Type} {m : Except Halt (Rtv × St)} {k : Rtv × St → α} {P : Prop}
    {Q : Halt → Prop} (h : (∀ r s', m = .ok (r, s') → P) ∧ ∀ x, m = .error x → Q x) :
    (∀ y, (m >>= fun p => .ok (k p)) = .ok y → P) ∧
      ∀ x, (m >>= fun p => .ok (k p)) = .error x → Q x := by
  constructor
  · intro y hok
    obtain ⟨⟨r₁, s₁⟩, h₁, -⟩ := bind_ok.1 hok
    exact h.1 _ _ h₁
  · intro x herr
    rcases bind_error.1 herr with h₁ | ⟨⟨r₁, s₁⟩, -, h₂⟩
    · exact h.2 _ h₁
    · cases h₂

theorem Structured.reports (he : Structured e) :
    ∀ {s : St}, Building s → LoopKnown s → Reports run s e := by
  induction he with
  | form ks r₀ =>
    intro s _ _
    unfold Reports
    simp [eval, orphan]
  | progn hes ih =>
    intro s hs hl
    exact progn_reports ih hes hs hl
  | @scope es hes ih =>
    intro s hs hl
    unfold Reports
    rw [eval, orphan]
    cases hc : s.curfn with
    | none =>
      have h := progn_reports ih hes hs hl
      unfold Reports at h
      rwa [eval, orphan] at h
    | some scopes =>
      have h := progn_reports (s := { s with curfn := some ([] :: scopes) }) ih hes
        ⟨hs.bldr, hs.lt, hs.fn⟩ hl
      unfold Reports at h
      rw [eval, orphan] at h
      obtain ⟨hok, herr⟩ := results_bind h
      exact ⟨fun _ _ => hok _, herr⟩
  | @cond ks v flag body hv hb ih =>
    intro s hs hl
    obtain ⟨fn, hfn⟩ := Option.isSome_iff_exists.1 hs.fn
    have hm := @condStart_moves fn ks v s hs
    have h : Reports run (condStart fn ks v s) body := ih hm.building (hl.of_moves hm)
    unfold Reports at h ⊢
    rw [eval_cond_test hs hfn hv, orphan_cond_test]
    obtain ⟨hok, herr⟩ := results_bind h
    exact ⟨fun _ _ => hok _, herr⟩
  | @while_ ks v flag body hv hb ih =>
    intro s hs hl
    obtain ⟨fn, hfn⟩ := Option.isSome_iff_exists.1 hs.fn
    have hm := @whileStart_moves fn ks v s hs
    obtain ⟨-, herr⟩ := ih (enterLoop_building hm.building s.graph.size (s.graph.size + 2))
      fun _ => ⟨rfl, rfl⟩
    unfold Reports
    rw [eval_while_test hs hfn hv, orphan_while_test]
    refine ⟨fun _ _ _ => .inr rfl, fun x hx => ?_⟩
    -- nothing is outside of all loops in a loop body
    rcases bind_error.1 hx with h₁ | ⟨⟨r₁, s₁⟩, -, h₂⟩
    · cases (herr _ h₁).1
    · cases h₂
  | break_ =>
    intro s hs hl
    exact jump_reports rfl (by rw [eval]) hs fun h => (hl h).2
  | continue_ =>
    intro s hs hl
    exact jump_reports rfl (by rw [eval]) hs fun h => (hl h).1

/-! ## The statement and its code -/

/-- Inside a function and outside of all loops, a statement compiles unless it
has a jump outside of all its loops, which is then reported; and the runs
through its code, from the block current before it to the block the builder is
left in, are its executions, and those that stop anywhere the parts of its
executions. -/
theorem structured_runs (run : Nat → Bool) (e : Expr) (he : Structured e) (s : St) (hs : Building s)
    (hl : s.whileInLoop = false) :
    (∀ r s', eval run e s = .ok (r, s') → orphan e = none ∧
      (∀ ls, Runs (Goes s'.graph) s.here ls s'.here ↔ Exec e ls .normal) ∧
      ∀ ls, (∃ q, Runs (Goes s'.graph) s.here ls q) ↔ Exec e ls .cut) ∧
    ∀ h, eval run e s = .error h ↔ ∃ msg, h = .error msg ∧ orphan e = some msg := by
  have hout : ∀ {p : Prop}, s.whileInLoop = true → p := fun h => by rw [hl] at h; cases h
  have hrep : Reports run s e := he.reports hs fun h => hout h
  have hnone : ∀ r s', eval run e s = .ok (r, s') → orphan e = none :=
    fun r s' h => (hrep.1 r s' h).elim hout id
  refine ⟨fun r s' h => ⟨hnone r s' h, ?_⟩, fun x => ⟨fun h => (hrep.2 x h).2, ?_⟩⟩
  · -- a run cannot leave the statement by a jump
    have hend : ∀ {n ls q}, Run (Goes s'.graph) n s.here ls q →
        (Exec e ls .cut ∧ ∃ i, s'.graph.at? q = some i) ∨ (Exec e ls .normal ∧ q = s'.here) := by
      intro n ls q hr
      rcases run_splits he hs h (fun _ _ hi => hi) hr with
        hpart | ⟨l₁, l₂, o, m, x, rfl, -, hx, hexit, hrest⟩
      · exact .inl hpart
      · cases o with
        | normal =>
          cases hexit
          obtain ⟨rfl, rfl⟩ := run_end_inv (at?_endOf _) hrest
          rw [List.append_nil]
          exact .inr ⟨hx, rfl⟩
        | brk => exact absurd (hnone r s' h) (exec_jump hx (.inl rfl))
        | cont => exact absurd (hnone r s' h) (exec_jump hx (.inr rfl))
        | cut => cases hexit
    refine ⟨fun ls => ⟨?_, ?_⟩, fun ls => ⟨?_, ?_⟩⟩
    · rintro ⟨n, hr⟩
      rcases hend hr with ⟨-, i, hi⟩ | ⟨hx, -⟩
      · rw [St.here, at?_endOf] at hi
        cases hi
      · exact hx
    · intro hx
      obtain ⟨x, hexit, hr⟩ := exec_leads hx he hs h (fun _ _ hi => hi) (.inl rfl)
      cases hexit
      exact hr
    · rintro ⟨q, n, hr⟩
      rcases hend hr with ⟨hx, -⟩ | ⟨hx, -⟩
      · exact hx
      · exact .done hx
    · intro hx
      exact exec_leads hx he hs h (fun _ _ hi => hi) (.inl rfl)
  · rintro ⟨msg, rfl, hmsg⟩
    cases hev : eval run e s with
    | ok p =>
      rw [hnone p.1 p.2 hev] at hmsg
      cases hmsg
    | error x =>
      obtain ⟨-, msg', rfl, hmsg'⟩ := hrep.2 x hev
      rw [hmsg] at hmsg'
      cases hmsg'
      rfl

/-- A loop that is left by `break`, with code after it that is never reached. -/
def breakLoop : Expr :=
  .while_ (test [1] ⟨.ext 7, .int 1⟩ false) (.progn [.form [2] nullRtv, .break_, .form [3] nullRtv])

theorem structured_runs_example :
    ∃ r s', eval (fun _ => true) breakLoop emptyBody = .ok (r, s') ∧
      ∀ ls, Runs (Goes s'.graph) emptyBody.here ls s'.here ↔ Exec breakLoop ls .normal := by
  have he : Structured breakLoop := by
    refine .while_ rfl (.progn fun e he => ?_)
    simp only [List.mem_cons, List.not_mem_nil, or_false] at he
    rcases he with rfl | rfl | rfl
    · exact .form _ _
    · exact .break_
    · exact .form _ _
  obtain ⟨r, s', h⟩ : ∃ r s', eval (fun _ => true) breakLoop emptyBody = .ok (r, s') :=
    ⟨_, _, rfl⟩
  have hruns := structured_runs (fun _ => true) breakLoop he emptyBody emptyBody_building rfl
  exact ⟨r, s', h, (hruns.1 r s' h).2.1⟩

end Dolorem.Codegen
