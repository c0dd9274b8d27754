import Dolorem.Memory.Blocks

/-!
# What the allocator's memory contains

The memory that is handed out is zero and stays as its owner has written it, in
whatever order blocks are requested and written. `fresh_memory` says so of every
state such requests and writes lead to.
-/

namespace Dolorem.Memory

open Bump

/-- A caller writes one byte of a block it has been given. -/
def Run.write (r : Run) (k i : Nat) (c : Char) : Option Run :=
  match r.blocks[k]? with
  | none => none
  | some b =>
    let heap := MemAllocator.overwrite r.m.heap ⟨b.addr.chunk, b.addr.off + i⟩ [c]
    if i < b.size then some ⟨{ r.m with heap := heap }, r.blocks⟩ else none

/-- The states that requests a chunk has room for, and writes inside the blocks, lead to. -/
inductive Reach : Run → Prop
  | init : Reach .init
  | call {r r' : Run} {c : Call} :
      Reach r → c.need r.lastSize ≤ partSize → r.step c = some r' → Reach r'
  | write {r r' : Run} {k i : Nat} {c : Char} :
      Reach r → r.write k i c = some r' → Reach r'

section

variable {r r' : Run} {k i : Nat} {c : Char}

/-- A write is not behind the pointer. -/
theorem Good.write (h : Good r.m r.blocks) (hw : r.write k i c = some r') :
    Good r'.m r'.blocks := by
  unfold Run.write at hw
  cases hb : r.blocks[k]? with
  | none =>
    rw [hb] at hw
    cases hw
  | some b =>
    simp only [hb] at hw
    split at hw
    · next hi =>
      cases hw
      refine ⟨h.cur, h.off, h.left, h.laid, h.last, fun a hc hoff hlt => ?_⟩
      have hbelow := h.below_ptr (List.mem_of_getElem? hb) (Block.Has.cell hi)
      refine (MemAllocator.overwrite_out fun heq => Or.inr ?_).trans (h.clean a hc hoff hlt)
      exact Nat.le_trans (hbelow (heq.symm.trans hc)) hoff
    · cases hw

/-- By induction on the requests and writes. -/
theorem Reach.good (h : Reach r) : Good r.m r.blocks := by
  induction h with
  | init => exact Good.init
  | call _ hc hstep ih =>
    obtain ⟨r₁, hstep₁, hgood, -, -⟩ := ih.step hc
    cases hstep.symm.trans hstep₁
    exact hgood
  | write _ hw ih => exact ih.write hw

end

/-- A request returns zeroed memory, the old contents followed by zeros, or the whole text; the
other blocks keep their contents. -/
theorem fresh_memory {r : Run} (h : Reach r) (c : Call) (hc : c.need r.lastSize ≤ partSize) :
    ∃ r', r.step c = some r' ∧ Served r c r' ∧ Kept r.blocks r.m r'.m := by
  obtain ⟨r', hstep, -, hkept, hserved⟩ := h.good.step hc
  exact ⟨r', hstep, hserved, hkept⟩

/-- A block is requested and written, a text is printed, a second block is requested and written,
and that one is extended. -/
theorem fresh_memory_example : ∃ r r', Reach r ∧ r.blocks.length = 3 ∧
    r.step (.more 4) = some r' ∧ Served r (.more 4) r' ∧ Kept r.blocks r.m r'.m := by
  obtain ⟨r₁, r₂, r₃, r₄, r₅, h₁, h₂, h₃, h₄, h₅, hsize, hlen⟩ : ∃ r₁ r₂ r₃ r₄ r₅,
      Run.init.step (.get 3) = some r₁ ∧ r₁.write 0 1 'x' = some r₂ ∧
        r₂.step (.print ['h', 'i']) = some r₃ ∧ r₃.step (.get 2) = some r₄ ∧
        r₄.write 0 0 'y' = some r₅ ∧ r₅.lastSize = 2 ∧ r₅.blocks.length = 3 :=
    ⟨_, _, _, _, _, rfl, rfl, rfl, rfl, rfl, rfl, rfl⟩
  have hwritten : Reach r₂ := .write (.call .init (by decide) h₁) h₂
  have hprinted : Reach r₃ :=
    .call (c := .print ['h', 'i']) hwritten (show 3 ≤ partSize by decide) h₃
  have h : Reach r₅ :=
    .write (.call (c := .get 2) hprinted (show 2 ≤ partSize by decide) h₄) h₅
  obtain ⟨r', hstep, hserved, hkept⟩ := fresh_memory h (.more 4) (by rw [hsize]; decide)
  exact ⟨r₅, r', h, hlen, hstep, hserved, hkept⟩

end Dolorem.Memory
