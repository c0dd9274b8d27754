import Dolorem.Codegen.Eval

/-!
# Straight-line code

Reading and converting a value emits straight-line code, and whether it works
depends only on the value's shape: its LLVM type, its front-end type and
whether it is an l-value. `Shape.read`, `Shape.convert` and `Shape.condition`
compute the shape of the result; `prepareRead_spec`, `convertType_spec` and
`toCondition_spec` say that the code follows them.
-/

namespace Dolorem.Codegen

open CodeGraph

theorem bind_ok {ε α β : Type} {x : Except ε α} {f : α → Except ε β} {b : β} :
    x >>= f = .ok b ↔ ∃ a, x = .ok a ∧ f a = .ok b := by
  cases x <;> simp [bind, Except.bind]

theorem bind_error {ε α β : Type} {x : Except ε α} {f : α → Except ε β} {e : ε} :
    x >>= f = .error e ↔ x = .error e ∨ ∃ a, x = .ok a ∧ f a = .error e := by
  cases x <;> simp [bind, Except.bind]

theorem ok_bind {ε α β : Type} (a : α) (f : α → Except ε β) : (Except.ok a >>= f) = f a := rfl

theorem error_bind {ε α β : Type} (e : ε) (f : α → Except ε β) :
    (Except.error e >>= f) = .error e := rfl

/-- The instruction neither ends its block nor is a phi. -/
def Instr.plain : Instr → Bool
  | phi _ _ => false
  | i => !i.flow.ends

/-- Straight-line code. -/
def Ops (is : List Instr) : Prop := ∀ i ∈ is, i.plain = true

namespace Ops

theorem nil : Ops [] := by simp [Ops]

theorem append {is js : List Instr} (h : Ops is) (k : Ops js) : Ops (is ++ js) :=
  fun i hi => (List.mem_append.1 hi).elim (h i) (k i)

theorem single {i : Instr} (h : i.plain = true) : Ops [i] :=
  fun _ hj => List.mem_singleton.1 hj ▸ h

theorem unfinished {is : List Instr} (h : Ops is) : Unfinished Instr.flow is := by
  intro i hi
  have hp := h i hi
  cases i <;> simp_all [Instr.plain, Instr.flow, Flow.ends]

theorem not_phi {is : List Instr} (h : Ops is) (ty : LTy) (inc : List (Value × Nat)) :
    .phi ty inc ∉ is := by
  intro hi
  have hp := h _ hi
  cases hp

end Ops

namespace St

variable (s : St)

@[simp] theorem emitAll_nil : s.emitAll [] = s := by
  simp [emitAll]

@[simp] theorem block_emitAll (is : List Instr) : (s.emitAll is).block = s.block := by
  simp [block, emitAll]

@[simp] theorem emitAll_emitAll (is js : List Instr) :
    (s.emitAll is).emitAll js = s.emitAll (is ++ js) := by
  calc (s.emitAll is).emitAll js
      = { s with graph := (s.graph.append s.block is).append (s.emitAll is).block js } := rfl
    _ = s.emitAll (is ++ js) := by
        rw [block_emitAll, Cfg.append_append]
        rfl

@[simp] theorem block_position (b : Nat) : (s.position b).block = b := rfl

end St

/-! ## Shapes -/

/-- What the code generator's decisions about a value depend on. -/
structure Shape where
  ty : LTy
  t : Ty
  lval : Bool
deriving DecidableEq, Repr

def Rtv.shape (v : Rtv) : Shape := ⟨v.v.ty, v.t, v.lval⟩

def Conv.shape (c : Conv) (σ : Shape) : Shape :=
  match c with
  | .same t => { σ with t := t }
  | .build _ l t => ⟨l, t, false⟩

namespace Shape

/-- After `prepare_read`; `none` is a crash. -/
def read (σ : Shape) : Option Shape :=
  if σ.lval then
    match σ.ty with
    | .ptr t => some ⟨t, σ.t, false⟩
    | _ => none
  else some σ

/-- After a conversion of an r-value. -/
def convert (σ : Shape) (dest : Rtt) (flags : Nat) : Option Shape :=
  (convertTypes σ.t dest flags).map (·.shape σ)

/-- After the conversion to a condition; `none` is a crash. -/
def condition (σ : Shape) : Option Shape :=
  σ.read.bind fun σ => σ.convert (lowerIntegerType 1 false) 1

theorem read_lval {σ τ : Shape} (h : σ.read = some τ) : τ.lval = false := by
  unfold read at h
  split at h
  · split at h
    · cases h
      rfl
    · cases h
  · next hl =>
    cases h
    simpa using hl

theorem read_of_rval {σ : Shape} (h : σ.lval = false) : σ.read = some σ := by
  simp [read, h]

theorem convert_lval {σ τ : Shape} {dest : Rtt} {flags : Nat} (hl : σ.lval = false)
    (h : σ.convert dest flags = some τ) : τ.lval = false := by
  obtain ⟨c, -, rfl⟩ := Option.map_eq_some_iff.1 h
  cases c
  · exact hl
  · rfl

end Shape

/-! ## The code follows the shapes -/

theorem prepareRead_spec (v : Rtv) (s : St) :
    match v.shape.read with
    | none => prepareRead v s = .error .crash
    | some σ => ∃ r is, prepareRead v s = .ok (r, s.emitAll is) ∧ Ops is ∧ r.shape = σ := by
  unfold prepareRead Shape.read Rtv.shape
  cases hv : v.lval with
  | false => exact ⟨v, [], by simp, Ops.nil, by simp [hv]⟩
  | true =>
    cases v.v.ty with
    | ptr t => exact ⟨_, [.load v.v], rfl, Ops.single rfl, rfl⟩
    | _ => rfl

theorem prepareRead_of_rval {v : Rtv} (h : v.lval = false) (s : St) :
    prepareRead v s = .ok (v, s) := by
  simp [prepareRead, h]

theorem buildCast_spec (op : CastOp) (v : Value) (l : LTy) (s : St) :
    ∃ is, (s.buildCast op v l).2 = s.emitAll is ∧ Ops is ∧ (s.buildCast op v l).1.ty = l := by
  unfold St.buildCast
  split
  · next h => exact ⟨[], by simp, Ops.nil, h⟩
  · exact ⟨[.cast op v l], rfl, Ops.single rfl, rfl⟩

theorem Conv.apply_spec (c : Conv) (v : Rtv) (s : St) :
    ∃ is, (c.apply v s).2 = s.emitAll is ∧ Ops is ∧ (c.apply v s).1.shape = c.shape v.shape := by
  cases c with
  | same t => exact ⟨[], by simp [apply], Ops.nil, rfl⟩
  | build op l t =>
    obtain ⟨is, hs, ops, hty⟩ := buildCast_spec op v.v l s
    exact ⟨is, hs, ops, by simp [apply, Rtv.shape, shape, hty]⟩

theorem convertType_spec {v : Rtv} (hv : v.lval = false) (dest : Rtt) (flags : Nat) (s : St) :
    match v.shape.convert dest flags with
    | none => convertType v dest flags s = .ok (none, s)
    | some σ => ∃ r is, convertType v dest flags s = .ok (some r, s.emitAll is) ∧ Ops is ∧
        r.shape = σ := by
  unfold convertType Shape.convert
  rw [prepareRead_of_rval hv]
  simp only [ok_bind, Rtv.shape]
  cases convertTypes v.t dest flags with
  | none => rfl
  | some c =>
    obtain ⟨is, hs, ops, hsh⟩ := c.apply_spec v s
    exact ⟨(c.apply v s).1, is, by rw [← hs], ops, hsh⟩

/-- `convert_type` reads the value first. -/
theorem convertType_read (v : Rtv) (dest : Rtt) (flags : Nat) (s : St) :
    convertType v dest flags s = prepareRead v s >>= fun p => convertType p.1 dest flags p.2 := by
  cases hv : v.lval with
  | false =>
    rw [prepareRead_of_rval hv]
    rfl
  | true =>
    unfold prepareRead
    rw [hv]
    cases hty : v.v.ty with
    | ptr t => simp [convertType, prepareRead, hv, hty, ok_bind]
    | _ => simp [convertType, prepareRead, hv, hty, error_bind]

theorem toCondition_spec (v : Rtv) (s : St) :
    match v.shape.condition with
    | none => toCondition v s = .error .crash
    | some σ => ∃ r is, toCondition v s = .ok (r, s.emitAll is) ∧ Ops is ∧ r.shape = σ := by
  have hread := prepareRead_spec v s
  unfold toCondition Shape.condition
  cases hσ : v.shape.read with
  | none =>
    simp only [hσ] at hread
    simp [hread, error_bind]
  | some σ =>
    simp only [hσ] at hread
    obtain ⟨r, is, hr, ops, rfl⟩ := hread
    have hl : r.lval = false := Shape.read_lval hσ
    have hconv := convertType_spec hl (lowerIntegerType 1 false) 1 (s.emitAll is)
    simp only [hr, ok_bind, Option.bind_some]
    cases hc : r.shape.convert (lowerIntegerType 1 false) 1 with
    | none =>
      simp only [hc] at hconv
      simp [hconv, ok_bind]
    | some τ =>
      simp only [hc] at hconv
      obtain ⟨c, js, hconv, ops', rfl⟩ := hconv
      exact ⟨c, is ++ js, by simp [hconv, ok_bind], ops.append ops', rfl⟩

end Dolorem.Codegen
