import Mathlib.Data.List.Basic

/-!
# Arrays that are filled from the front

An array of a fixed size is a list; `assign` changes one of its slots and has no
result outside of the array. Filling an array from the front writes the slots of
`front xs n`: those of `xs`, and then `n` blank ones.
-/

namespace Slots

variable {α β : Type} {blank : α} {xs ys : List α} {i n : Nat} {f : α → α}

/-- Change slot `i`. -/
def assign (i : Nat) (f : α → α) (xs : List α) : Option (List α) :=
  if i < xs.length then some (xs.modify i f) else none

/-- `xs`, and `n` blank slots behind. -/
def front (blank : α) (xs : List α) (n : Nat) : List α := xs ++ List.replicate n blank

theorem assign_of_lt (h : i < xs.length) : assign i f xs = some (xs.modify i f) := if_pos h

theorem modify_append (xs : List α) (a : α) (ys : List α) (f : α → α) :
    (xs ++ a :: ys).modify xs.length f = xs ++ f a :: ys := by
  induction xs with
  | nil => rfl
  | cons x xs ih => rw [List.cons_append, List.length_cons, List.modify_succ_cons, ih, List.cons_append]

@[simp] theorem length_front (xs : List α) (n : Nat) :
    (front blank xs n).length = xs.length + n := by
  rw [front, List.length_append, List.length_replicate]

/-- The first blank slot is written. -/
theorem assign_front (blank : α) (xs : List α) (n : Nat) (f : α → α) :
    assign xs.length f (front blank xs (n + 1)) = some (front blank (xs ++ [f blank]) n) := by
  have hlt : xs.length < (front blank xs (n + 1)).length := by
    rw [length_front]
    exact Nat.lt_add_of_pos_right (Nat.succ_pos n)
  rw [assign_of_lt hlt, front, List.replicate_succ, modify_append, front, List.append_assoc]
  rfl

/-- The slot that was written last is changed again. -/
theorem assign_last (blank : α) (xs : List α) (a : α) (n : Nat) (f : α → α) :
    assign xs.length f (front blank (xs ++ [a]) n) = some (front blank (xs ++ [f a]) n) := by
  have hlt : xs.length < (front blank (xs ++ [a]) n).length := by
    rw [length_front, List.length_append, List.length_singleton, Nat.add_right_comm]
    exact Nat.lt_succ_of_le (Nat.le_add_right _ _)
  rw [assign_of_lt hlt, front, List.append_assoc, List.singleton_append, modify_append, front,
    List.append_assoc, List.singleton_append]

/-- A slot behind `xs` is changed. -/
theorem assign_behind (blank : α) (xs ys : List α) (h : i < ys.length) (n : Nat) (f : α → α) :
    assign (xs.length + i) f (front blank (xs ++ ys) n) =
      some (front blank (xs ++ ys.modify i f) n) := by
  obtain ⟨bs, b, cs, rfl, rfl⟩ : ∃ bs b cs, ys = bs ++ b :: cs ∧ bs.length = i :=
    ⟨ys.take i, ys[i], ys.drop (i + 1), by simp, by simp [Nat.le_of_lt h]⟩
  have hlt : xs.length + bs.length < (front blank (xs ++ (bs ++ b :: cs)) n).length := by
    rw [length_front, List.length_append]
    exact Nat.lt_of_lt_of_le (Nat.add_lt_add_left h _) (Nat.le_add_right _ _)
  rw [assign_of_lt hlt, front, List.append_assoc, List.append_assoc, ← List.append_assoc,
    ← List.length_append, List.cons_append, modify_append, modify_append, front]
  simp only [List.append_assoc, List.cons_append]

/-- Under a map, a slot is overwritten with the image. -/
theorem map_modify_const (g : α → β) (xs : List α) (i : Nat) (a : α) :
    (xs.modify i fun _ => a).map g = (xs.map g).modify i fun _ => g a := by
  induction xs generalizing i with
  | nil => rw [List.modify_nil, List.map_nil, List.modify_nil]
  | cons x xs ih =>
    cases i with
    | zero => rfl
    | succ i =>
      rw [List.modify_succ_cons, List.map_cons, List.map_cons, List.modify_succ_cons, ih]

theorem modify_mapIdx (g : Nat → β → α) (f : α → α) (l : List β) (k : Nat) :
    (l.mapIdx g).modify k f = l.mapIdx fun i b => if i = k then f (g i b) else g i b := by
  refine List.ext_getElem? fun i => ?_
  rw [List.getElem?_modify, List.getElem?_mapIdx, List.getElem?_mapIdx]
  cases l[i]? with
  | none => rfl
  | some b =>
    rcases eq_or_ne k i with rfl | hne
    · simp
    · simp [hne, hne.symm]

/-- Every slot satisfies what the blank one does not if and only if none is blank. -/
theorem forall_front_iff {p : α → Prop} (hxs : ∀ x ∈ xs, p x) (hb : ¬ p blank) :
    (∀ x ∈ front blank xs n, p x) ↔ n = 0 := by
  constructor
  · intro h
    by_contra hn
    exact hb (h blank (List.mem_append_right _ (List.mem_replicate.2 ⟨hn, rfl⟩)))
  · rintro rfl
    rw [front, List.replicate_zero, List.append_nil]
    exact hxs

end Slots
