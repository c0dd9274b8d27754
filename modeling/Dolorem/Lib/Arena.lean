import Mathlib.Data.List.Basic
import Mathlib.Order.Basic

/-!
# Linked lists in an arena

Cells are allocated one after the other and never freed, so a pointer is an
index and a cell links to cells allocated before it. `Chain` says which cells a
pointer leads to. Later allocations do not change that, and neither does writing
to a cell above the pointer (`Chain.mono`). `search` is the loop over such a list.
-/

namespace Arena

variable {α β : Type} {next : α → Option Nat} {cells : List α} {ptr : Option Nat} {cs : List α}

/-- The cells the pointer leads to, in this order. -/
inductive Chain (next : α → Option Nat) (cells : List α) : Option Nat → List α → Prop
  | nil : Chain next cells none []
  | cons {p : Nat} {c : α} {cs : List α} :
      cells[p]? = some c → (∀ q, next c = some q → q < p) → Chain next cells (next c) cs →
      Chain next cells (some p) (c :: cs)

namespace Chain

theorem lt_length {p : Nat} (h : Chain next cells (some p) cs) : p < cells.length := by
  cases h with
  | cons hp _ _ => exact (List.getElem?_eq_some_iff.1 hp).1

/-- Only the cells up to the pointer matter. -/
theorem mono (h : Chain next cells ptr cs) {cells' : List α}
    (hc : ∀ p, ptr = some p → ∀ q c, q ≤ p → cells[q]? = some c → cells'[q]? = some c) :
    Chain next cells' ptr cs := by
  induction h with
  | nil => exact .nil
  | @cons p _ _ hp hlt _ ih =>
    refine .cons (hc p rfl p _ (Nat.le_refl p) hp) hlt (ih fun q hq x c hx => ?_)
    exact hc p rfl x c (Nat.le_trans hx (Nat.le_of_lt (hlt q hq)))

/-- Allocating cells. -/
theorem append (h : Chain next cells ptr cs) (more : List α) :
    Chain next (cells ++ more) ptr cs :=
  h.mono fun _ _ q c _ hq => by
    rw [List.getElem?_append_left (List.getElem?_eq_some_iff.1 hq).1, hq]

/-- Allocating a cell in front of the list. -/
theorem push (h : Chain next cells ptr cs) {c : α} (hc : next c = ptr) :
    Chain next (cells ++ [c]) (some cells.length) (c :: cs) := by
  refine .cons List.getElem?_concat_length (fun q hq => ?_) (hc ▸ h.append [c])
  rw [hc] at hq
  subst hq
  exact h.lt_length

theorem eq_nil (h : Chain next cells none cs) : cs = [] := by
  cases h
  rfl

theorem length_le (h : Chain next cells ptr cs) : ∀ p, ptr = some p → cs.length ≤ p + 1 := by
  induction h with
  | nil => exact fun _ hp => nomatch hp
  | @cons p c cs _ hlt hrest ih =>
    intro _ heq
    cases heq
    cases hc : next c with
    | none =>
      rw [hc] at hrest
      rw [hrest.eq_nil]
      exact Nat.le_add_left _ _
    | some q => exact Nat.succ_le_succ (Nat.le_trans (ih q hc) (Nat.succ_le_of_lt (hlt q hc)))

/-- There are enough cells for the list. -/
theorem length_le_length (h : Chain next cells ptr cs) : cs.length ≤ cells.length := by
  cases ptr with
  | none =>
    rw [h.eq_nil]
    exact Nat.zero_le _
  | some p => exact Nat.le_trans (h.length_le p rfl) (Nat.succ_le_of_lt h.lt_length)

end Chain

/-- Follow the links until `f` has a result; `f` itself may be stuck. The
outcome `none` stands for a loop that has not ended after `n` rounds or that
followed a wild pointer. -/
def search (next : α → Option Nat) (f : α → Option (Option β)) (cells : List α) :
    Nat → Option Nat → Option (Option β)
  | _, none => some none
  | 0, some _ => none
  | n + 1, some p => do
    let c ← cells[p]?
    match ← f c with
    | some b => some (some b)
    | none => search next f cells n (next c)

/-- The loop finds the first result along the list. -/
theorem search_of_chain (h : Chain next cells ptr cs) {f : α → Option (Option β)}
    {bs : List (Option β)} (hf : cs.map f = bs.map some) {n : Nat} (hn : cs.length ≤ n) :
    search next f cells n ptr = some (bs.findSome? id) := by
  induction h generalizing n bs with
  | nil =>
    rw [List.map_nil, eq_comm, List.map_eq_nil_iff] at hf
    subst hf
    cases n <;> rfl
  | @cons p c cs hp _ _ ih =>
    cases n with
    | zero => exact absurd hn (Nat.not_succ_le_zero _)
    | succ n =>
      cases bs with
      | nil => cases hf
      | cons b bs =>
        obtain ⟨hb, hf⟩ := List.cons_eq_cons.1 hf
        have hrest := ih hf (Nat.le_of_succ_le_succ hn)
        rw [search, hp, Option.bind_eq_bind, Option.bind_some, hb, Option.bind_eq_bind,
          Option.bind_some, List.findSome?_cons]
        cases b with
        | some b => rfl
        | none => exact hrest

end Arena
