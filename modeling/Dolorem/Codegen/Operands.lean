import Dolorem.Codegen.Parts

/-!
# What straight-line code refers to

`Writes P C s s'`: straight-line code leads from `s` to `s'`, its operands have
the property `P`, and the functions it calls have the property `C`. There is a
lemma for each function that emits such code; all they ask of `P` is that it
holds of what they are given and of the results of the builder's block.
-/

namespace Dolorem.Codegen

open CodeGraph

/-- The operands of an instruction. -/
def Instr.values : Instr → List Value
  | prim _ | alloca _ | br _ | retVoid => []
  | load v | cast _ v _ | not v | structGep v _ | condBr v _ _ | ret v => [v]
  | store a b | bin _ a b | icmp _ a b | fcmp _ a b => [a, b]
  | call v vs | gep v vs => v :: vs
  | phi _ inc => inc.map (·.1)

/-- `P` holds of the operands of an instruction, `C` of the function it calls. -/
def Instr.Refers (P C : Ref → Prop) : Instr → Prop
  | call f args => C f.ref ∧ ∀ a ∈ args, P a.ref
  | i => ∀ v ∈ i.values, P v.ref

def Writes (P C : Ref → Prop) (s s' : St) : Prop :=
  ∃ is, s' = s.emitAll is ∧ ∀ i ∈ is, i.Refers P C

/-- `P` holds of the results of the builder's block. -/
def OfBlock (P : Ref → Prop) (s : St) : Prop := ∀ k, P (.inst ⟨s.block, k⟩)

variable {P C : Ref → Prop} {s s' s₁ s₂ : St} {v a b r : Rtv} {i : Instr}

namespace Writes

theorem refl (s : St) : Writes P C s s := ⟨[], s.emitAll_nil.symm, fun _ h => nomatch h⟩

theorem trans (h : Writes P C s s₁) (k : Writes P C s₁ s₂) : Writes P C s s₂ := by
  obtain ⟨is, rfl, his⟩ := h
  obtain ⟨js, rfl, hjs⟩ := k
  exact ⟨is ++ js, St.emitAll_emitAll s is js, List.forall_mem_append.2 ⟨his, hjs⟩⟩

theorem emit (s : St) (h : i.Refers P C) : Writes P C s (s.emit i) :=
  ⟨[i], rfl, List.forall_mem_singleton.2 h⟩

theorem ofBlock (h : Writes P C s s') (hP : OfBlock P s) : OfBlock P s' := by
  obtain ⟨is, rfl, -⟩ := h
  unfold OfBlock
  rw [St.block_emitAll]
  exact hP

/-- The code before stays. -/
theorem sub (h : Writes P C s s') (hlt : s.block < s.graph.size) : s.graph.Sub s'.graph := by
  obtain ⟨is, rfl, -⟩ := h
  exact (Cfg.Grows.append hlt is).sub

end Writes

/-- An instruction with a result. -/
theorem build_writes (hP : OfBlock P s) (h : i.Refers P C) (ty : LTy) :
    Writes P C s (s.build i ty).2 ∧ P (s.build i ty).1.ref :=
  ⟨.emit s h, hP _⟩

/-! ## Reading and converting -/

theorem prepareRead_writes (hP : OfBlock P s) (hv : P v.v.ref) (h : prepareRead v s = .ok (r, s')) :
    Writes P C s s' ∧ P r.v.ref := by
  unfold prepareRead at h
  split at h
  · split at h
    · cases h
      exact build_writes (i := .load v.v) hP (List.forall_mem_singleton.2 hv) _
    · cases h
  · cases h
    exact ⟨.refl s, hv⟩

theorem apply_writes (hP : OfBlock P s) (hv : P v.v.ref) (c : Conv) :
    Writes P C s (c.apply v s).2 ∧ P (c.apply v s).1.v.ref := by
  cases c with
  | same t => exact ⟨.refl s, hv⟩
  | build op l t =>
    unfold Conv.apply St.buildCast
    dsimp only
    split
    · exact ⟨.refl s, hv⟩
    · exact build_writes (i := .cast op v.v l) hP (List.forall_mem_singleton.2 hv) l

theorem convertType_writes {dest : Rtt} {flags : Nat} {κ : Option Rtv} (hP : OfBlock P s)
    (hv : P v.v.ref) (h : convertType v dest flags s = .ok (κ, s')) :
    Writes P C s s' ∧ ∀ r, κ = some r → P r.v.ref := by
  unfold convertType at h
  obtain ⟨⟨w, s₁⟩, hw, h⟩ := bind_ok.1 h
  have hread := prepareRead_writes (C := C) hP hv hw
  simp only at h
  split at h
  · cases h
    exact ⟨hread.1, fun _ h => nomatch h⟩
  · next c _ =>
    cases h
    have hconv := apply_writes (C := C) (hread.1.ofBlock hP) hread.2 c
    refine ⟨hread.1.trans hconv.1, fun r hr => ?_⟩
    cases hr
    exact hconv.2

theorem convertOrCrash_writes {dest : Rtt} {flags : Nat} (hP : OfBlock P s) (hv : P v.v.ref)
    (h : convertOrCrash v dest flags s = .ok (r, s')) : Writes P C s s' ∧ P r.v.ref := by
  unfold convertOrCrash at h
  obtain ⟨⟨κ, s₁⟩, hκ, h⟩ := bind_ok.1 h
  have hconv := convertType_writes (C := C) hP hv hκ
  cases κ with
  | none => cases h
  | some κ =>
    cases h
    exact ⟨hconv.1, hconv.2 _ rfl⟩

theorem toCondition_writes (hP : OfBlock P s) (hv : P v.v.ref)
    (h : toCondition v s = .ok (r, s')) : Writes P C s s' ∧ P r.v.ref := by
  unfold toCondition at h
  obtain ⟨⟨w, s₁⟩, hw, h⟩ := bind_ok.1 h
  have hread := prepareRead_writes (C := C) hP hv hw
  obtain ⟨⟨κ, s₂⟩, hκ, h⟩ := bind_ok.1 h
  have hconv := convertType_writes (C := C) (hread.1.ofBlock hP) hread.2 hκ
  cases κ with
  | none => cases h
  | some κ =>
    cases h
    exact ⟨hread.1.trans hconv.1, hconv.2 _ rfl⟩

theorem unquoteResult_writes {u : Value} (hP : OfBlock P s) (hv : P v.v.ref)
    (h : unquoteResult v s = .ok (u, s')) : Writes P C s s' ∧ P u.ref := by
  unfold unquoteResult at h
  obtain ⟨⟨w, s₁⟩, hw, h⟩ := bind_ok.1 h
  have hread := prepareRead_writes (C := C) hP hv hw
  obtain ⟨⟨κ, s₂⟩, hκ, h⟩ := bind_ok.1 h
  have hconv := convertType_writes (C := C) (hread.1.ofBlock hP) hread.2 hκ
  cases κ with
  | none => cases h
  | some κ =>
    cases h
    exact ⟨hread.1.trans hconv.1, hconv.2 _ rfl⟩

theorem lowerAssign_writes (hP : OfBlock P s) (ha : P a.v.ref) (hb : P b.v.ref)
    (h : lowerAssign a b s = .ok s') : Writes P C s s' := by
  unfold lowerAssign at h
  split at h
  · cases h
  · obtain ⟨⟨w, s₁⟩, hw, h⟩ := bind_ok.1 h
    have hread := prepareRead_writes (C := C) hP hb hw
    simp only at h
    split at h
    · cases h
    · obtain ⟨⟨κ, s₂⟩, hκ, h⟩ := bind_ok.1 h
      have hconv := convertType_writes (C := C) (hread.1.ofBlock hP) hread.2 hκ
      cases κ with
      | none => cases h
      | some κ =>
        cases h
        refine (hread.1.trans hconv.1).trans (.emit s₂ ?_)
        exact List.forall_mem_cons.2 ⟨hconv.2 κ rfl, List.forall_mem_singleton.2 ha⟩

theorem buildReturn_writes {f : Fun} (hP : OfBlock P s) (hv : P v.v.ref)
    (h : buildReturn f v s = .ok s') : Writes P C s s' := by
  unfold buildReturn at h
  split at h
  · cases h
    exact .emit s fun _ h => nomatch h
  · obtain ⟨⟨κ, s₁⟩, hκ, h⟩ := bind_ok.1 h
    have hconv := convertType_writes (C := C) hP hv hκ
    cases κ with
    | none => cases h
    | some κ =>
      cases h
      exact hconv.1.trans (.emit s₁ (List.forall_mem_singleton.2 (hconv.2 κ rfl)))

/-! ## Calls -/

theorem lowerArgs_writes {room : Bool} {parms : List (String × Rtt)} {args : List Rtv}
    {vs : List Value} (hP : OfBlock P s) (hargs : ∀ a ∈ args, P a.v.ref)
    (h : lowerArgs room parms args s = .ok (vs, s')) :
    Writes P C s s' ∧ ∀ u ∈ vs, P u.ref := by
  induction args generalizing parms s vs with
  | nil =>
    have hnil : vs = [] ∧ s' = s := by
      cases parms <;> cases h <;> exact ⟨rfl, rfl⟩
    obtain ⟨rfl, rfl⟩ := hnil
    exact ⟨.refl s', fun _ h => nomatch h⟩
  | cons a args ih =>
    obtain ⟨ha, hargs⟩ := List.forall_mem_cons.1 hargs
    cases parms with
    | nil =>
      unfold lowerArgs at h
      obtain ⟨⟨w, s₁⟩, hw, h⟩ := bind_ok.1 h
      have hread := prepareRead_writes (C := C) hP ha hw
      simp only at h
      split at h
      · obtain ⟨⟨us, s₂⟩, hus, h⟩ := bind_ok.1 h
        cases h
        have hrest := ih (hread.1.ofBlock hP) hargs hus
        exact ⟨hread.1.trans hrest.1, List.forall_mem_cons.2 ⟨hread.2, hrest.2⟩⟩
      · cases h
    | cons p parms =>
      unfold lowerArgs at h
      obtain ⟨⟨w, s₁⟩, hw, h⟩ := bind_ok.1 h
      have hread := prepareRead_writes (C := C) hP ha hw
      obtain ⟨⟨κ, s₂⟩, hκ, h⟩ := bind_ok.1 h
      have hconv := convertType_writes (C := C) (hread.1.ofBlock hP) hread.2 hκ
      cases κ with
      | none => cases h
      | some κ =>
        obtain ⟨⟨us, s₃⟩, hus, h⟩ := bind_ok.1 h
        cases h
        have hboth := hread.1.trans hconv.1
        have hrest := ih (hboth.ofBlock hP) hargs hus
        exact ⟨hboth.trans hrest.1, List.forall_mem_cons.2 ⟨hconv.2 κ rfl, hrest.2⟩⟩

theorem lowerFuncall_writes {u : Value} {f : Fun} {args : List Rtv} (hP : OfBlock P s)
    (hu : C u.ref) (hargs : ∀ a ∈ args, P a.v.ref) (h : lowerFuncall u f args s = .ok (r, s')) :
    Writes P C s s' ∧ P r.v.ref := by
  unfold lowerFuncall at h
  split at h
  · cases h
  · split at h
    · cases h
    · obtain ⟨⟨vs, s₁⟩, hvs, h⟩ := bind_ok.1 h
      have hlist := lowerArgs_writes (C := C) hP hargs hvs
      simp only at h
      split at h
      · cases h
      · cases h
        have hcall := build_writes (C := C) (i := .call u vs) (hlist.1.ofBlock hP) ⟨hu, hlist.2⟩
          f.ret.l
        exact ⟨hlist.1.trans hcall.1, hcall.2⟩

theorem buildQuote_writes {f : Value} {args : List Value} (hP : OfBlock P s) (hf : C f.ref)
    (hargs : ∀ a ∈ args, P a.ref) :
    Writes P C s (s.buildQuote f args).2 ∧ P (s.buildQuote f args).1.ref :=
  build_writes (i := .call f args) hP ⟨hf, hargs⟩ _

/-! ## Numbers -/

theorem expectSameNumber_writes {p : Rtv × Rtv} (hP : OfBlock P s) (ha : P a.v.ref)
    (hb : P b.v.ref) (h : expectSameNumber a b s = .ok (p, s')) :
    Writes P C s s' ∧ P p.1.v.ref ∧ P p.2.v.ref := by
  have left : ∀ {dest flags}, (convertOrCrash a dest flags s >>= fun q => .ok ((q.1, b), q.2)) =
      .ok (p, s') → Writes P C s s' ∧ P p.1.v.ref ∧ P p.2.v.ref := by
    intro dest flags h
    obtain ⟨⟨w, s₁⟩, hw, h⟩ := bind_ok.1 h
    cases h
    have hconv := convertOrCrash_writes (C := C) hP ha hw
    exact ⟨hconv.1, hconv.2, hb⟩
  have right : ∀ {dest flags}, (convertOrCrash b dest flags s >>= fun q => .ok ((a, q.1), q.2)) =
      .ok (p, s') → Writes P C s s' ∧ P p.1.v.ref ∧ P p.2.v.ref := by
    intro dest flags h
    obtain ⟨⟨w, s₁⟩, hw, h⟩ := bind_ok.1 h
    cases h
    have hconv := convertOrCrash_writes (C := C) hP hb hw
    exact ⟨hconv.1, ha, hconv.2⟩
  unfold expectSameNumber at h
  split at h
  · split at h
    · cases h
      exact ⟨.refl s, ha, hb⟩
    · split at h
      · exact left h
      · exact right h
  · split at h
    · cases h
      exact ⟨.refl s, ha, hb⟩
    · split at h
      · exact left h
      · exact right h
  · obtain ⟨dest, -, h⟩ := bind_ok.1 h
    exact right h
  · obtain ⟨dest, -, h⟩ := bind_ok.1 h
    exact left h
  · cases h

theorem buildArith_writes {op : ArithOp} (hP : OfBlock P s) (ha : P a.v.ref) (hb : P b.v.ref)
    (h : buildArith op a b s = .ok (r, s')) : Writes P C s s' ∧ P r.v.ref := by
  have hops : ∀ u ∈ [a.v, b.v], P u.ref :=
    List.forall_mem_cons.2 ⟨ha, List.forall_mem_singleton.2 hb⟩
  unfold buildArith at h
  split at h
  · cases h
    exact build_writes (i := .bin op.int a.v b.v) hP hops _
  · split at h
    · next fop _ =>
      cases h
      exact build_writes (i := .bin fop a.v b.v) hP hops _
    · cases h

theorem buildCmp_writes (op : CmpOp) (hP : OfBlock P s) (ha : P a.v.ref) (hb : P b.v.ref) :
    Writes P C s (buildCmp op a b s).2 ∧ P (buildCmp op a b s).1.v.ref := by
  have hops : ∀ u ∈ [a.v, b.v], P u.ref :=
    List.forall_mem_cons.2 ⟨ha, List.forall_mem_singleton.2 hb⟩
  unfold buildCmp
  split
  · exact build_writes (i := .icmp op.preds.1 a.v b.v) hP hops _
  · exact build_writes (i := .fcmp op.preds.2 a.v b.v) hP hops _

end Dolorem.Codegen
