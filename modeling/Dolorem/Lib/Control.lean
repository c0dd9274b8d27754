import Dolorem.Lib.Graph

/-!
# Runs through a code graph

How a run starts when the code at its first position is known: a stretch of
straight-line code (`Stretch`), a jump, or a branch. Each fact comes twice, as a
run that exists and as what every run must look like; a run of the second kind
may also stop early.
-/

namespace CodeGraph

open Lts

variable {κ ι ε : Type}

/-- The instructions `is` stand at `p` and after it. -/
def Stretch (g : Cfg κ ι) (p : Pos) (is : List ι) : Prop :=
  ∀ j i, is[j]? = some i → g.at? ⟨p.blk, p.idx + j⟩ = some i

/-- Where a stretch of `n` instructions from `p` ends. -/
def Pos.skip (p : Pos) (n : Nat) : Pos := ⟨p.blk, p.idx + n⟩

@[simp] theorem Pos.skip_zero (p : Pos) : p.skip 0 = p := rfl

theorem Pos.skip_skip (p : Pos) (m n : Nat) : (p.skip m).skip n = p.skip (m + n) := by
  simp [skip, Nat.add_assoc]

section

variable {flow : ι → Flow ε} {g : Cfg κ ι} {p r : Pos} {n : Nat} {ls : List ε}

theorem Stretch.head {i : ι} {is : List ι} (h : Stretch g p (i :: is)) : g.at? p = some i :=
  h 0 i rfl

theorem Stretch.tail {i : ι} {is : List ι} (h : Stretch g p (i :: is)) :
    Stretch g (p.skip 1) is := by
  intro j x hx
  have := h (j + 1) x (by simpa using hx)
  rwa [Nat.add_comm j 1, ← Nat.add_assoc] at this

theorem Stretch.mono {g' : Cfg κ ι} (sub : g.Sub g') {is : List ι} (h : Stretch g p is) :
    Stretch g' p is :=
  fun j i hi => sub _ _ (h j i hi)

/-- What a block got is a stretch at its old end. -/
theorem stretch_of_code {g' : Cfg κ ι} {b : Nat} {is : List ι}
    (h : g'.code b = g.code b ++ is) : Stretch g' (g.endOf b) is := by
  intro j i hi
  unfold Cfg.at? Cfg.endOf
  rw [h, List.getElem?_append_right (Nat.le_add_right _ _), Nat.add_sub_cancel_left, hi]

theorem Stretch.of_append {is js : List ι} (h : Stretch g p (is ++ js)) :
    Stretch g p is ∧ Stretch g (p.skip is.length) js := by
  constructor
  · intro j i hi
    exact h j i (by rw [List.getElem?_append_left (List.getElem?_eq_some_iff.1 hi).1, hi])
  · intro j i hi
    have := h (is.length + j) i
      (by rw [List.getElem?_append_right (Nat.le_add_right _ _), Nat.add_sub_cancel_left, hi])
    rwa [← Nat.add_assoc] at this

theorem Stretch.concat {is : List ι} {i : ι} (h : Stretch g p is)
    (hi : g.at? (p.skip is.length) = some i) : Stretch g p (is ++ [i]) := by
  intro j x hx
  rcases Nat.lt_trichotomy j is.length with hj | rfl | hj
  · exact h j x (by rwa [List.getElem?_append_left hj] at hx)
  · rw [List.getElem?_concat_length] at hx
    exact hi.trans hx
  · rw [List.getElem?_eq_none (by simpa using Nat.succ_le_of_lt hj)] at hx
    cases hx

theorem runs_stretch {is : List ι} {ev : ι → ε} (ops : ∀ i ∈ is, flow i = .op (ev i))
    (h : Stretch g p is) : Runs (Step flow g) p (is.map ev) (p.skip is.length) := by
  induction is generalizing p with
  | nil => exact Runs.refl p
  | cons i is ih =>
    have hstep : Step flow g p (some (ev i)) (p.skip 1) :=
      .op h.head (ops i List.mem_cons_self)
    have hrest := ih (fun j hj => ops j (List.mem_cons_of_mem _ hj)) h.tail
    rw [Pos.skip_skip, Nat.add_comm] at hrest
    exact .event hstep hrest

/-- A run over a stretch stops inside it or gets to its end. -/
theorem run_stretch_inv {is : List ι} {ev : ι → ε} (ops : ∀ i ∈ is, flow i = .op (ev i))
    (h : Stretch g p is) (hr : Run (Step flow g) n p ls r) :
    (ls <+: is.map ev ∧ ∃ i, g.at? r = some i) ∨
      ∃ m ms, m ≤ n ∧ ls = is.map ev ++ ms ∧ Run (Step flow g) m (p.skip is.length) ms r := by
  induction is generalizing p n ls with
  | nil => exact .inr ⟨n, ls, le_rfl, rfl, hr⟩
  | cons i is ih =>
    have hi := h.head
    have hop := ops i List.mem_cons_self
    cases hr with
    | done => exact .inl ⟨List.nil_prefix, i, hi⟩
    | silent hs _ =>
      cases hs with
      | jump hj hf =>
        rw [hi] at hj
        cases hj
        rw [hop] at hf
        cases hf
    | event hs hr =>
      cases hs with
      | op hj hf =>
        rw [hi] at hj
        cases hj
        rw [hop] at hf
        cases hf
        rcases ih (fun j hj => ops j (List.mem_cons_of_mem _ hj)) h.tail hr with
          ⟨hpre, live⟩ | ⟨m, ms, hm, rfl, hrest⟩
        · exact .inl ⟨by simpa using hpre, live⟩
        · rw [Pos.skip_skip, Nat.add_comm] at hrest
          exact .inr ⟨m, ms, Nat.le_succ_of_le hm, rfl, hrest⟩
      | yes hj hf | no hj hf =>
        rw [hi] at hj
        cases hj
        rw [hop] at hf
        cases hf

theorem run_jump_inv {i : ι} {b : Nat} (hi : g.at? p = some i) (hf : flow i = .jump b)
    (hr : Run (Step flow g) n p ls r) :
    ls = [] ∧ r = p ∨ ∃ m, n = m + 1 ∧ Run (Step flow g) m ⟨b, 0⟩ ls r := by
  cases hr with
  | done => exact .inl ⟨rfl, rfl⟩
  | silent hs hr =>
    cases hs with
    | jump hj hf' =>
      rw [hi] at hj
      cases hj
      rw [hf] at hf'
      cases hf'
      exact .inr ⟨_, rfl, hr⟩
  | event hs _ =>
    cases hs with
    | op hj hf' | yes hj hf' | no hj hf' =>
      rw [hi] at hj
      cases hj
      rw [hf] at hf'
      cases hf'

theorem run_branch_inv {i : ι} {y z : ε} {t f : Nat} (hi : g.at? p = some i)
    (hf : flow i = .branch y t z f) (hr : Run (Step flow g) n p ls r) :
    ls = [] ∧ r = p ∨
      (∃ m ms, n = m + 1 ∧ ls = y :: ms ∧ Run (Step flow g) m ⟨t, 0⟩ ms r) ∨
      ∃ m ms, n = m + 1 ∧ ls = z :: ms ∧ Run (Step flow g) m ⟨f, 0⟩ ms r := by
  cases hr with
  | done => exact .inl ⟨rfl, rfl⟩
  | silent hs hr =>
    cases hs with
    | jump hj hf' =>
      rw [hi] at hj
      cases hj
      rw [hf] at hf'
      cases hf'
  | event hs hr =>
    cases hs with
    | op hj hf' =>
      rw [hi] at hj
      cases hj
      rw [hf] at hf'
      cases hf'
    | yes hj hf' =>
      rw [hi] at hj
      cases hj
      rw [hf] at hf'
      cases hf'
      exact .inr (.inl ⟨_, _, rfl, rfl, hr⟩)
    | no hj hf' =>
      rw [hi] at hj
      cases hj
      rw [hf] at hf'
      cases hf'
      exact .inr (.inr ⟨_, _, rfl, rfl, hr⟩)

/-- No run leaves a position without an instruction. -/
theorem run_end_inv (hend : g.at? p = none) (hr : Run (Step flow g) n p ls r) :
    ls = [] ∧ r = p := by
  refine hr.of_stuck fun o q hs => ?_
  cases hs with
  | op hj _ | jump hj _ | yes hj _ | no hj _ => simp [hend] at hj

theorem at?_endOf (b : Nat) : g.at? (g.endOf b) = none := by
  simp [Cfg.at?, Cfg.endOf]

end

end CodeGraph
