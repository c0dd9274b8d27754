import Mathlib.Data.List.Basic

/-!
# Labelled runs

Runs of a transition relation whose steps may be silent. `Run step n p ls q`
counts the steps, so that an argument about a loop can be an induction on the
length of the run; `Runs` forgets the count.
-/

namespace Lts

variable {α ε : Type}

/-- `n` steps lead from `p` to `q` and write `ls`. -/
inductive Run (step : α → Option ε → α → Prop) : Nat → α → List ε → α → Prop
  | done (p : α) : Run step 0 p [] p
  | silent {p q r : α} {n : Nat} {ls : List ε} :
      step p none q → Run step n q ls r → Run step (n + 1) p ls r
  | event {p q r : α} {n : Nat} {e : ε} {ls : List ε} :
      step p (some e) q → Run step n q ls r → Run step (n + 1) p (e :: ls) r

/-- Some number of steps leads from `p` to `q` and writes `ls`. -/
def Runs (step : α → Option ε → α → Prop) (p : α) (ls : List ε) (q : α) : Prop :=
  ∃ n, Run step n p ls q

variable {step : α → Option ε → α → Prop} {p q r : α} {n m : Nat} {ls ms : List ε}

theorem Run.trans (h : Run step n p ls q) (k : Run step m q ms r) :
    Run step (n + m) p (ls ++ ms) r := by
  induction h with
  | done => simpa using k
  | silent hs _ ih =>
    rw [Nat.add_right_comm]
    exact .silent hs (ih k)
  | event hs _ ih =>
    rw [Nat.add_right_comm]
    exact .event hs (ih k)

/-- Nothing runs on from a state without a step. -/
theorem Run.of_stuck (stuck : ∀ o q, ¬ step p o q) (h : Run step n p ls q) :
    ls = [] ∧ q = p := by
  cases h with
  | done => exact ⟨rfl, rfl⟩
  | silent hs _ => exact absurd hs (stuck _ _)
  | event hs _ => exact absurd hs (stuck _ _)

theorem Runs.refl (p : α) : Runs step p [] p :=
  ⟨0, .done p⟩

theorem Runs.trans (h : Runs step p ls q) (k : Runs step q ms r) : Runs step p (ls ++ ms) r := by
  obtain ⟨n, h⟩ := h
  obtain ⟨m, k⟩ := k
  exact ⟨n + m, h.trans k⟩

theorem Runs.silent (hs : step p none q) (h : Runs step q ls r) : Runs step p ls r := by
  obtain ⟨n, h⟩ := h
  exact ⟨n + 1, .silent hs h⟩

theorem Runs.event {e : ε} (hs : step p (some e) q) (h : Runs step q ls r) :
    Runs step p (e :: ls) r := by
  obtain ⟨n, h⟩ := h
  exact ⟨n + 1, .event hs h⟩

end Lts
