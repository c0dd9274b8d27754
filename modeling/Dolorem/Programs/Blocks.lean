import Dolorem.Programs.Expressions

/-!
# Blocks and scopes

New blocks stay blank until the builder moves into them. Sequences, scopes,
`break` and `continue` compile to what the interpreter does, and so does a
condition, which is a form and the conversion of its result to one bit.
-/

namespace Dolorem.Programs

open Codegen CodeGraph Words Interp

/-- An empty block that the builder is not in. -/
structure Blank (s : St) (b : Nat) : Prop where
  lt : b < s.graph.size
  ne : b ≠ s.block
  code : s.graph.code b = []

variable {run : Nat → Bool} {I : Image} {Γ Γ' : Ctx} {s s' s₁ s₂ : St} {σ σ' : Store}
variable {c c' c₁ : Config} {b b' fn n : Nat} {i : Instr} {t : IntTy} {r : Rtv} {x : Int}
variable {fuel : Nat} {call : Caller} {e : Form} {es : List Form}
variable {xs : List (String × Option IntTy)}

namespace Blank

theorem extends_ (h : Blank s b) (hk : Extends s s') : Blank s' b :=
  ⟨h.lt.trans_le hk.size_le, hk.grows.ne_cursor h.lt h.ne, by rw [hk.grows.frame b h.lt h.ne, h.code]⟩

theorem emit (h : Blank s b) (hs : Building s) (i : Instr) : Blank (s.emit i) b :=
  h.extends_ (emit_extends hs i)

theorem jump (h : Blank s b) (hs : Building s) (i : Instr) :
    ((s.emit i).position b).here = ⟨b, 0⟩ := by
  unfold St.here Cfg.endOf
  rw [St.block_position]
  show Pos.mk b ((s.emit i).graph.code b).length = _
  rw [(h.emit hs i).code]
  rfl

/-- The builder moves to another block. -/
theorem other (h : Blank s b) (hs : Building s) (i : Instr) (hne : b ≠ b') :
    Blank ((s.emit i).position b') b :=
  ⟨(h.emit hs i).lt, by rw [St.block_position]; exact hne, (h.emit hs i).code⟩

theorem of_size_le (hs : Building s) (hblock : s'.block = s.block)
    (hcode : ∀ b, s'.graph.code b = s.graph.code b) (hle : s.graph.size ≤ b)
    (hlt : b < s'.graph.size) : Blank s' b :=
  ⟨hlt, by rw [hblock]; exact (hs.lt.trans_le hle).ne', by
    rw [hcode, Cfg.code_of_size_le _ hle]⟩

end Blank

theorem block_fresh (hs : Building s) (g : Cfg Nat Instr) : ({ s with graph := g } : St).block =
    s.block := by
  obtain ⟨k, hk⟩ := Option.isSome_iff_exists.1 hs.bldr
  simp [St.block, hk]

theorem Extends.twoBlocks (hs : Building s) (hfn : s.curllvmfn = some fn) :
    Extends s (twoBlocks fn s) :=
  have h₁ := Extends.fresh hs hfn
  h₁.trans (.fresh h₁.building hfn)

theorem Extends.threeBlocks (hs : Building s) (hfn : s.curllvmfn = some fn) :
    Extends s (threeBlocks fn s) :=
  have h₁ := Extends.twoBlocks hs hfn
  h₁.trans (.fresh h₁.building hfn)

theorem twoBlocks_blank (hs : Building s) (fn : Nat) (hn : n < 2) :
    Blank (twoBlocks fn s) (s.graph.size + n) :=
  .of_size_le hs (block_fresh hs _) (fun b => by simp [twoBlocks])
    (Nat.le_add_right _ _) (by rw [twoBlocks_size]; exact Nat.add_lt_add_left hn _)

theorem threeBlocks_blank (hs : Building s) (fn : Nat) (hn : n < 3) :
    Blank (threeBlocks fn s) (s.graph.size + n) :=
  .of_size_le hs (block_fresh hs _) (fun b => by simp [threeBlocks])
    (Nat.le_add_right _ _) (by rw [threeBlocks_size]; exact Nat.add_lt_add_left hn _)

theorem twoBlocks_here (hs : Building s) : (twoBlocks fn s).here = s.here := by
  unfold St.here Cfg.endOf
  rw [twoBlocks, block_fresh hs]
  simp only [Cfg.code_fresh]

theorem threeBlocks_here (hs : Building s) : (threeBlocks fn s).here = s.here := by
  unfold St.here Cfg.endOf
  rw [threeBlocks, block_fresh hs]
  simp only [Cfg.code_fresh]

theorem vars_congr (h : s'.curfn = s.curfn) : vars s' = vars s := by
  rw [vars, h, vars]

/-- The same point, seen from a later state. -/
theorem At.keep (h : At I Γ s σ c) (hk : Extends s s') (hc : s'.curfn = s.curfn)
    (hhere : s'.here = s.here) : At I Γ s' σ c where
  pos := h.pos.trans hhere.symm
  cells := h.cells
  next := h.next
  places := by
    rw [vars_congr hc]
    exact h.places.mono (fun x => hk.known) fun _ _ => rfl
  globals := h.globals

theorem Matches.new (h : Matches Γ s) (hk : Later s s') (h' : Matches (Γ.add xs) s') :
    ∃ new, vars s' = new ++ vars s ∧ List.Forall₂ (Slot s') xs new := by
  obtain ⟨vs, rest, hs⟩ := h.scopes
  have hadds := hk.curfn
  rw [hs] at hadds
  obtain ⟨new, hnew⟩ := hadds
  have hvars : vars s' = new ++ vars s := by
    rw [vars_of_scopes hnew, vars_of_scopes hs, List.append_assoc]
  refine ⟨new, hvars, ?_⟩
  have hslots := h'.slots
  rw [hvars] at hslots
  have hlen : xs.length = new.length := by
    have hall := hslots.length_eq
    have hold := h.slots.length_eq
    simp only [Ctx.add, List.length_append] at hall
    omega
  have htake := List.forall₂_take xs.length hslots
  rwa [show (Γ.add xs).vars = xs ++ Γ.vars from rfl, List.take_left' rfl, List.take_left' hlen.symm]
    at htake

/-- Code that need not have run is over: its variables have no places. -/
theorem At.join (h : At I Γ s σ c) (hM : Matches Γ s) (hk : Later s s')
    (hM' : Matches (Γ.add xs) s') (hsame : Same s c c') {m : Mem} (hpos : c'.pos = s'.here)
    (hcells : c'.m.mem = m.cells) (hnext : c'.next = m.next) :
    At I (Γ.add (Form.hide xs)) s' ⟨nowhere xs ++ σ.env, m⟩ c' where
  pos := hpos
  cells := hcells
  next := hnext
  places := by
    obtain ⟨new, hvars, hslots⟩ := hM.new hk hM'
    rw [hvars]
    refine Places.append_hidden ?_ hslots
    exact h.places.mono (fun x => hk.known) fun v => hsame.read
  globals m x := (hsame.val _ (Same.known_global s m x)).trans (h.globals m x)

/-! ## `break` and `continue` -/

theorem jumpState_extends (hs : Building s) (hfn : s.curllvmfn = some fn) (b : Nat) :
    Extends s (jumpState fn b s) := by
  have hk := (emit_extends hs (.br b)).trans (.fresh (emit_extends hs (.br b)).building hfn)
  have hmoves := jumpState_moves hs fn b
  exact ⟨hmoves.building, hmoves.grows, hk.owner, hk.fns, hk.curfn, hk.outer⟩

/-- A jump out of the code, to a block the loop knows. -/
theorem jumpOut_compiled (hM : Matches Γ s) (hfn : s.curllvmfn = some fn) {M : Meaning}
    {e : Mem → Exit} (hadds : M.adds = []) (hty : M.ty = none) (hflat : M.flat = false)
    (hexec : ∀ addr call fuel σ, M.exec addr call fuel σ = .error (.exit (e σ.mem)))
    (hleaves : ∀ m c c', Same s c c' → c'.pos = ⟨b, 0⟩ → c'.m.mem = m.cells → c'.next = m.next →
      Leaves s c (e m) c') :
    Compiled Γ s M nullRtv (jumpState fn b s) where
  ctx := by
    rw [hadds]
    exact hM.keep (jumpState_extends hM.building hfn b) rfl
  ext := jumpState_extends hM.building hfn b
  ty u hu := by
    rw [hty] at hu
    cases hu
  void _ := rfl
  flat h := by
    rw [hflat] at h
    cases h
  run := by
    intro I fuel call hI hcalls σ c hat
    have hs := hM.building
    have hi : I.Covers (s.emit (.br b)) := by
      refine ⟨fun p j hj => hI.graph p j ?_, hI.fns⟩
      have hsub := (Extends.fresh (emit_extends hs (.br b)).building hfn).sub
      exact hsub p j hj
    rw [hexec]
    exact ⟨_, .single (hat.branch hs hi rfl), hleaves σ.mem c _ ⟨rfl, fun _ _ => rfl⟩ rfl hat.cells
      hat.next⟩

theorem break_sound (run : Nat → Bool) : Sound run .break_ := by
  intro Γ s hok hM
  obtain ⟨fn, hfn⟩ := Option.isSome_iff_exists.1 hM.building.fn
  obtain ⟨hin, -, hafter⟩ := hM.loop hok
  obtain ⟨b, hb⟩ := Option.isSome_iff_exists.1 hafter
  refine ⟨nullRtv, jumpState fn b s, ?_, jumpOut_compiled hM hfn rfl rfl rfl (e := .break_) ?_ ?_⟩
  · rw [Form.expr, eval, if_pos hin, hb, jumpOut_eq hfn]
  · intro addr call fuel σ
    simp only [Form.meaning, Form.exec]
  · intro m c c' hsame hpos hcells hnext
    exact ⟨hin, hsame, by rw [hpos, hb]; rfl, hcells, hnext⟩

theorem continue_sound (run : Nat → Bool) : Sound run .continue_ := by
  intro Γ s hok hM
  obtain ⟨fn, hfn⟩ := Option.isSome_iff_exists.1 hM.building.fn
  obtain ⟨hin, hcond, -⟩ := hM.loop hok
  obtain ⟨b, hb⟩ := Option.isSome_iff_exists.1 hcond
  refine ⟨nullRtv, jumpState fn b s, ?_,
    jumpOut_compiled hM hfn rfl rfl rfl (e := .continue_) ?_ ?_⟩
  · rw [Form.expr, eval, if_pos hin, hb, jumpOut_eq hfn]
  · intro addr call fuel σ
    simp only [Form.meaning, Form.exec]
  · intro m c c' hsame hpos hcells hnext
    exact ⟨hin, hsame, by rw [hpos, hb]; rfl, hcells, hnext⟩

end Dolorem.Programs
