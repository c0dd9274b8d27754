import Dolorem.Codegen.Check

/-!
# The blocks an expression is compiled to

`Frame n fn open_ s`: the blocks from `n` on belong to the function `fn`, which
is being built; of these only the builder's block and the blocks `open_` have no
end yet, and the blocks `open_` are empty. `Keeps n x g g'`: from `g` to `g'` no
block of `g` got a phi, and only the blocks `x` got new predecessors. Evaluating
an expression keeps the frame, whatever blocks are open around it, and gives no
old block a phi or a predecessor (`Valued.steps`).
-/

namespace Dolorem.Codegen

open CodeGraph

variable {run : Nat → Bool} {s s' s₁ s₂ : St} {n fn : Nat} {open_ : List Nat}

/-! ## Frames -/

structure Frame (n fn : Nat) (open_ : List Nat) (s : St) : Prop where
  building : Building s
  curllvmfn : s.curllvmfn = some fn
  tidy : Tidy Instr.flow n s.graph (s.block :: open_)
  away : s.block ∉ open_
  empty : ∀ b ∈ open_, s.graph.code b = []
  owner : ∀ b, n ≤ b → b < s.graph.size → s.graph.owner? b = some fn

namespace Frame

theorem congr {open' : List Nat} (h : Frame n fn open_ s) (same : ∀ b, b ∈ open' ↔ b ∈ open_) :
    Frame n fn open' s where
  building := h.building
  curllvmfn := h.curllvmfn
  tidy := h.tidy.congr fun b => by simp only [List.mem_cons, same]
  away := mt (same _).1 h.away
  empty b hb := h.empty b ((same b).1 hb)
  owner := h.owner

theorem lt_size (h : Frame n fn open_ s) {b : Nat} (hb : b ∈ open_) : b < s.graph.size :=
  (h.tidy.unfinished b (List.mem_cons_of_mem _ hb)).2.1

theorem le_of_mem (h : Frame n fn open_ s) {b : Nat} (hb : b ∈ open_) : n ≤ b :=
  (h.tidy.unfinished b (List.mem_cons_of_mem _ hb)).1

theorem le_size (h : Frame n fn open_ s) : n ≤ s.graph.size :=
  h.tidy.le

/-- Control does not lead to a block that does not exist. -/
theorem not_edge (h : Frame n fn open_ s) {a b : Nat} (ha : n ≤ a) (hb : s.graph.size ≤ b) :
    ¬ Edge Instr.flow s.graph a b :=
  fun hab => Nat.not_lt.2 hb (h.tidy.targets a b ha hab).2

/-- Nothing but the code, the builder and the function being built matters. -/
theorem of_eq (h : Frame n fn open_ s) (hg : s'.graph = s.graph) (hb : s'.bldr = s.bldr)
    (hfn : s'.curllvmfn = s.curllvmfn) : Frame n fn open_ s' := by
  have hblock : s'.block = s.block := by
    unfold St.block
    rw [hg, hb]
  exact
    { building := ⟨hb ▸ h.building.bldr, by rw [hblock, hg]; exact h.building.lt,
        hfn ▸ h.building.fn⟩
      curllvmfn := hfn ▸ h.curllvmfn
      tidy := by rw [hblock, hg]; exact h.tidy
      away := by rw [hblock]; exact h.away
      empty := by rw [hg]; exact h.empty
      owner := by rw [hg]; exact h.owner }

/-- A new block waits for its code. -/
theorem fresh (h : Frame n fn open_ s) :
    Frame n fn (s.graph.size :: open_) { s with graph := s.graph.fresh fn } := by
  obtain ⟨b, hb⟩ := Option.isSome_iff_exists.1 h.building.bldr
  have hblock : ({ s with graph := s.graph.fresh fn } : St).block = s.block := by
    simp [St.block, hb]
  refine ⟨⟨h.building.bldr, ?_, h.building.fn⟩, h.curllvmfn, ?_, ?_, ?_, ?_⟩
  · rw [hblock]
    simpa using Nat.lt_succ_of_lt h.building.lt
  · rw [hblock]
    exact (h.tidy.fresh fn).congr fun x => by
      simp only [List.mem_cons]
      exact or_left_comm
  · rw [hblock]
    exact List.not_mem_cons_of_ne_of_not_mem (Nat.ne_of_lt h.building.lt) h.away
  · intro x hx
    rw [Cfg.code_fresh]
    rcases List.mem_cons.1 hx with rfl | hx
    · exact Cfg.code_of_size_le _ le_rfl
    · exact h.empty x hx
  · intro x hn hx
    rw [Cfg.size_fresh] at hx
    rcases Nat.lt_succ_iff_lt_or_eq.1 hx with hx | rfl
    · exact (Cfg.owner?_fresh_of_lt _ _ hx).trans (h.owner x hn hx)
    · exact Cfg.owner?_fresh_self _ _

/-- Code that does not end the builder's block. -/
theorem emitAll (h : Frame n fn open_ s) {is : List Instr} (goes : Unfinished Instr.flow is) :
    Frame n fn open_ (s.emitAll is) where
  building := (Moves.emitAll h.building is).building
  curllvmfn := h.curllvmfn
  tidy := by
    rw [St.block_emitAll]
    exact h.tidy.append List.mem_cons_self goes
  away := by
    rw [St.block_emitAll]
    exact h.away
  empty b hb := (Cfg.code_append_ne _ (ne_of_mem_of_not_mem hb h.away) _).trans (h.empty b hb)
  owner b hn hb := by
    have hb' : b < s.graph.size := by simpa [St.emitAll] using hb
    simpa [St.emitAll] using h.owner b hn hb'

/-- The builder's block is ended, and the builder goes to a waiting block. -/
theorem jumpTo {b : Nat} (h : Frame n fn (b :: open_) s) (hb : b ∉ open_) {i : Instr}
    (ends : i.flow.ends = true) (inside : ∀ t ∈ i.flow.targets, n ≤ t ∧ t < s.graph.size) :
    Frame n fn open_ ((s.emit i).position b) where
  building := by
    refine ⟨rfl, ?_, h.building.fn⟩
    simpa [St.emit, St.emitAll, St.position, St.block] using h.lt_size List.mem_cons_self
  curllvmfn := h.curllvmfn
  tidy := h.tidy.close h.away ends inside
  away := hb
  empty x hx :=
    (Cfg.code_append_ne _ (ne_of_mem_of_not_mem (List.mem_cons_of_mem _ hx) h.away) _).trans
      (h.empty x (List.mem_cons_of_mem _ hx))
  owner x hn hx := by
    have hx' : x < s.graph.size := by simpa [St.position, St.emit, St.emitAll] using hx
    simpa [St.position, St.emit, St.emitAll] using h.owner x hn hx'

/-- All targets of the jump are waiting. -/
theorem branchTo {b : Nat} (h : Frame n fn (b :: open_) s) (hb : b ∉ open_) {i : Instr}
    (ends : i.flow.ends = true) (inside : ∀ t ∈ i.flow.targets, t ∈ b :: open_) :
    Frame n fn open_ ((s.emit i).position b) :=
  h.jumpTo hb ends fun t ht => ⟨h.le_of_mem (inside t ht), h.lt_size (inside t ht)⟩

end Frame

/-! ## What becomes of the blocks there are -/

/-- From `g` to `g'` only the blocks `x` got new predecessors, and only the
blocks `y` got a phi. -/
structure Keeps (n : Nat) (x y : List Nat) (g g' : Cfg Nat Instr) : Prop where
  size_le : g.size ≤ g'.size
  edges : ∀ a b, n ≤ a → b < g.size → b ∉ x →
    (Edge Instr.flow g' a b ↔ Edge Instr.flow g a b)
  phis : ∀ b ty inc, b < g.size → b ∉ y →
    (.phi ty inc ∈ g'.code b ↔ .phi ty inc ∈ g.code b)

namespace Keeps

variable {x x' y y' : List Nat} {g g₁ g₂ : Cfg Nat Instr}

theorem refl : Keeps n x y g g :=
  ⟨le_rfl, fun _ _ _ _ _ => Iff.rfl, fun _ _ _ _ _ => Iff.rfl⟩

theorem trans (h : Keeps n x y g g₁) (k : Keeps n x y g₁ g₂) : Keeps n x y g g₂ where
  size_le := h.size_le.trans k.size_le
  edges a b ha hb hx := (k.edges a b ha (hb.trans_le h.size_le) hx).trans (h.edges a b ha hb hx)
  phis b ty inc hb hy :=
    (k.phis b ty inc (hb.trans_le h.size_le) hy).trans (h.phis b ty inc hb hy)

theorem mono (h : Keeps n x y g g₁) (hx : ∀ b ∈ x, b < g.size → b ∈ x')
    (hy : ∀ b ∈ y, b < g.size → b ∈ y') : Keeps n x' y' g g₁ where
  size_le := h.size_le
  edges a b ha hb hb' := h.edges a b ha hb fun hm => hb' (hx b hm hb)
  phis b ty inc hb hb' := h.phis b ty inc hb fun hm => hb' (hy b hm hb)

/-- What holds of no block holds of any. -/
theorem of_nil (h : Keeps n [] [] g g₁) : Keeps n x y g g₁ :=
  h.mono (fun _ hb => absurd hb List.not_mem_nil) fun _ hb => absurd hb List.not_mem_nil

theorem fresh (o : Nat) : Keeps n x y g (g.fresh o) where
  size_le := by simp
  edges _ _ _ _ _ := edge_fresh o
  phis b ty inc _ _ := by rw [Cfg.code_fresh]

theorem emitAll (h : Frame n fn open_ s) {is : List Instr} (ops : Ops is) :
    Keeps n x y s.graph (s.emitAll is).graph where
  size_le := by simp [St.emitAll]
  edges _ _ _ _ _ := edge_append_straight h.building.lt ops.unfinished
  phis b ty inc _ _ := by
    unfold St.emitAll
    rcases eq_or_ne b s.block with rfl | hb
    · rw [Cfg.code_append_self _ h.building.lt, List.mem_append, or_iff_left (ops.not_phi ty inc)]
    · rw [Cfg.code_append_ne _ hb]

theorem emitPhi (h : Frame n fn open_ s) (ty : LTy) (inc : List (Value × Nat)) :
    Keeps n x (s.block :: y) s.graph (s.emit (.phi ty inc)).graph where
  size_le := by simp [St.emit, St.emitAll]
  edges _ _ _ _ _ := edge_append_straight h.building.lt (by simp [Unfinished, Instr.flow, Flow.ends])
  phis b _ _ _ hb := by
    rw [List.mem_cons, not_or] at hb
    rw [St.emit, St.emitAll, Cfg.code_append_ne _ hb.1]

theorem jumpTo (h : Frame n fn open_ s) {i : Instr} (ends : i.flow.ends = true)
    (hx : ∀ t ∈ i.flow.targets, t ∈ x) (b : Nat) :
    Keeps n x y s.graph ((s.emit i).position b).graph where
  size_le := by simp [St.position, St.emit, St.emitAll]
  edges a t _ _ ht := by
    have he := edge_append Instr.flow h.building.lt [i] (a := a) (b := t)
    refine he.trans (or_iff_left ?_)
    rintro ⟨-, j, hj, htj⟩
    rw [List.mem_singleton.1 hj] at htj
    exact ht (hx t htj)
  phis a ty inc _ _ := by
    show Instr.phi ty inc ∈ (s.graph.append s.block [i]).code a ↔ _
    rcases eq_or_ne a s.block with rfl | ha
    · rw [Cfg.code_append_self _ h.building.lt, List.mem_append, or_iff_left]
      rintro hi
      rw [← List.mem_singleton.1 hi] at ends
      cases ends
    · rw [Cfg.code_append_ne _ ha]

end Keeps

/-- The way from `s` to `s'` of an evaluation while the blocks `open_` wait.
`moved` says that it ends in a new block. -/
structure Steps (n fn : Nat) (open_ : List Nat) (moved : Bool) (s s' : St) : Prop where
  moves : Moves s s'
  frame : Frame n fn open_ s'
  keeps : Keeps n [] [] s.graph s'.graph
  block : if moved then s.graph.size ≤ s'.block else s'.block = s.block

namespace Steps

variable {m m₁ : Bool}

theorem refl (h : Frame n fn open_ s) : Steps n fn open_ false s s :=
  ⟨.refl h.building, h, .refl, rfl⟩

theorem trans (h : Steps n fn open_ m s s₁) (k : Steps n fn open_ m₁ s₁ s₂) :
    Steps n fn open_ (m || m₁) s s₂ where
  moves := h.moves.trans k.moves
  frame := k.frame
  keeps := h.keeps.trans k.keeps
  block := by
    have h₁ := h.block
    have h₂ := k.block
    cases m₁ with
    | true => simpa using h.moves.grows.size_le.trans h₂
    | false =>
      simp only [Bool.false_eq_true, if_false] at h₂
      simpa [h₂] using h₁

theorem emitAll (h : Frame n fn open_ s) {is : List Instr} (ops : Ops is) :
    Steps n fn open_ false s (s.emitAll is) where
  moves := .emitAll h.building is
  frame := h.emitAll ops.unfinished
  keeps := .emitAll h ops
  block := by simp

end Steps

end Dolorem.Codegen
