import Mathlib.Data.Nat.Basic
import Mathlib.Data.List.Basic

/-!
# Natural layout

The storage of an object has a size and an alignment, and the size is a multiple
of the alignment. Objects are laid out one behind the other, each at the next
offset its alignment allows. A union has the size and the alignment its largest
and its most aligned member need, which may be two members.
-/

namespace Layout

/-- The storage an object takes. -/
@[ext] structure Shape where
  size : Nat
  align : Nat
  pos : 0 < align
  dvd : align ∣ size

/-- The next offset that is a multiple of `a`. -/
def alignUp (n a : Nat) : Nat := (n + a - 1) / a * a

theorem alignUp_of_dvd {n a : Nat} (ha : 0 < a) (h : a ∣ n) : alignUp n a = n := by
  obtain ⟨k, rfl⟩ := h
  unfold alignUp
  have hdiv : (a * k + a - 1) / a = k := by
    rw [Nat.add_sub_assoc (Nat.one_le_of_lt ha), Nat.mul_add_div ha,
      Nat.div_eq_of_lt (Nat.sub_lt ha Nat.one_pos), Nat.add_zero]
  rw [hdiv, Nat.mul_comm]

theorem dvd_alignUp (n a : Nat) : a ∣ alignUp n a := Nat.dvd_mul_left a _

/-- The offsets of objects laid out from offset `n` on. -/
def offsets : Nat → List Shape → List Nat
  | _, [] => []
  | n, s :: ss => alignUp n s.align :: offsets (alignUp n s.align + s.size) ss

/-- The largest value of `f`, at least `n`. -/
def largest (f : Shape → Nat) (n : Nat) (ss : List Shape) : Nat := ss.foldr (fun s m => max (f s) m) n

variable {f : Shape → Nat} {n : Nat} {ss : List Shape} {r : Shape}

theorem le_largest (f : Shape → Nat) (n : Nat) (ss : List Shape) : n ≤ largest f n ss := by
  induction ss with
  | nil => exact le_rfl
  | cons s ss ih => exact Nat.le_trans ih (le_max_right _ _)

theorem largest_eq (hr : r ∈ ss) (hn : n ≤ f r) (h : ∀ s ∈ ss, f s ≤ f r) :
    largest f n ss = f r := by
  apply le_antisymm
  · clear hr
    induction ss with
    | nil => exact hn
    | cons s ss ih =>
      obtain ⟨hs, hss⟩ := List.forall_mem_cons.1 h
      exact max_le hs (ih hss)
  · clear h
    induction ss with
    | nil => cases hr
    | cons s ss ih =>
      rcases List.mem_cons.1 hr with rfl | hr
      · exact le_max_left _ _
      · exact Nat.le_trans (ih hr) (le_max_right _ _)

/-- The storage of a union. -/
def union (ss : List Shape) : Shape where
  size := alignUp (largest Shape.size 0 ss) (largest Shape.align 1 ss)
  align := largest Shape.align 1 ss
  pos := le_largest _ _ _
  dvd := dvd_alignUp _ _

/-- The offset behind objects laid out from offset `n` on. -/
def extent : Nat → List Shape → Nat
  | n, [] => n
  | n, s :: ss => extent (alignUp n s.align + s.size) ss

/-- The storage of a struct. -/
def struct (ss : List Shape) : Shape where
  size := alignUp (extent 0 ss) (largest Shape.align 1 ss)
  align := largest Shape.align 1 ss
  pos := le_largest _ _ _
  dvd := dvd_alignUp _ _

/-- A member that is the largest and the most aligned one takes the storage of the union. -/
theorem union_eq (hr : r ∈ ss) (hsize : ∀ s ∈ ss, s.size ≤ r.size)
    (halign : ∀ s ∈ ss, s.align ≤ r.align) : union ss = r := by
  have ha : largest Shape.align 1 ss = r.align := largest_eq hr r.pos halign
  have hs : largest Shape.size 0 ss = r.size := largest_eq hr (Nat.zero_le _) hsize
  ext
  · show alignUp (largest Shape.size 0 ss) (largest Shape.align 1 ss) = r.size
    rw [ha, hs, alignUp_of_dvd r.pos r.dvd]
  · exact ha

/-! ## The first of the largest -/

/-- `r` is the first of the elements of `xs` for which `f` is largest. -/
def FirstLargest {α : Type} (f : α → Nat) (xs : List α) (r : α) : Prop :=
  ∃ before after, xs = before ++ r :: after ∧ (∀ x ∈ before, f x < f r) ∧ ∀ x ∈ after, f x ≤ f r

theorem FirstLargest.mem {α : Type} {f : α → Nat} {xs : List α} {r : α} (h : FirstLargest f xs r) :
    r ∈ xs := by
  obtain ⟨before, after, rfl, -, -⟩ := h
  exact List.mem_append_right _ List.mem_cons_self

theorem FirstLargest.unique {α : Type} {f : α → Nat} {xs : List α} {r r' : α}
    (h : FirstLargest f xs r) (h' : FirstLargest f xs r') : r = r' := by
  obtain ⟨b, a, rfl, hb, ha⟩ := h
  obtain ⟨b', a', he, hb', ha'⟩ := h'
  rcases List.append_eq_append_iff.1 he with ⟨c, rfl, hc⟩ | ⟨c, rfl, hc⟩
  · cases c with
    | nil => exact (List.cons.inj hc).1
    | cons x c =>
      obtain ⟨rfl, rfl⟩ := List.cons.inj hc
      have h₁ := hb' r (List.mem_append_right _ List.mem_cons_self)
      have h₂ := ha r' (List.mem_append_right _ List.mem_cons_self)
      exact absurd h₁ (Nat.not_lt.2 h₂)
  · cases c with
    | nil => exact (List.cons.inj hc).1.symm
    | cons x c =>
      obtain ⟨rfl, rfl⟩ := List.cons.inj hc
      have h₁ := hb r' (List.mem_append_right _ List.mem_cons_self)
      have h₂ := ha' r (List.mem_append_right _ List.mem_cons_self)
      exact absurd h₁ (Nat.not_lt.2 h₂)

end Layout
