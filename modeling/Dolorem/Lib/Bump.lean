import Mathlib.Data.List.Basic

/-!
# Bump allocation in chunks

Blocks are cut off the current chunk one after the other, and a chunk without
enough room is given up for a fresh one. `Laid` says that what has been handed
out lies below the pointer and does not overlap. Cutting off a block, extending
the last one in place, and opening a chunk keep that.
-/

namespace Bump

/-- A place in a chunk. -/
structure Addr where
  chunk : Nat
  off : Nat
deriving DecidableEq, Repr

/-- The `size` cells from an address on. -/
structure Block where
  addr : Addr
  size : Nat
deriving DecidableEq, Repr

variable {cap size n : Nat} {ptr a : Addr} {b c : Block} {blocks : List Block}

/-- The address is one of the block's cells. -/
def Block.Has (b : Block) (a : Addr) : Prop :=
  a.chunk = b.addr.chunk ∧ b.addr.off ≤ a.off ∧ a.off < b.addr.off + b.size

/-- No cell belongs to both. -/
def Block.Apart (b c : Block) : Prop := ∀ a, b.Has a → ¬ c.Has a

/-- The block lies inside one of the first `chunks` chunks. -/
def Block.Inside (cap chunks : Nat) (b : Block) : Prop :=
  b.addr.chunk < chunks ∧ b.addr.off + b.size ≤ cap

/-- The block lies below the pointer: in an earlier chunk, or in the same one before it. -/
def Block.Below (cap : Nat) (ptr : Addr) (b : Block) : Prop :=
  (b.addr.chunk < ptr.chunk ∧ b.addr.off + b.size ≤ cap) ∨
    (b.addr.chunk = ptr.chunk ∧ b.addr.off + b.size ≤ ptr.off)

/-- The pointer is just behind the block. -/
def Block.EndsAt (ptr : Addr) (b : Block) : Prop := ptr = ⟨b.addr.chunk, b.addr.off + b.size⟩

structure Laid (cap : Nat) (ptr : Addr) (blocks : List Block) : Prop where
  below : ∀ b ∈ blocks, b.Below cap ptr
  apart : blocks.Pairwise Block.Apart

theorem Block.Has.cell {i : Nat} (h : i < b.size) : b.Has ⟨b.addr.chunk, b.addr.off + i⟩ :=
  ⟨rfl, Nat.le_add_right _ _, Nat.add_lt_add_left h _⟩

theorem Block.Below.inside (h : b.Below cap ptr) (hoff : ptr.off ≤ cap) :
    b.Inside cap (ptr.chunk + 1) := by
  rcases h with ⟨hchunk, hend⟩ | ⟨hchunk, hend⟩
  · exact ⟨Nat.lt_succ_of_lt hchunk, hend⟩
  · exact ⟨Nat.lt_succ_of_le (Nat.le_of_eq hchunk), Nat.le_trans hend hoff⟩

/-- No cell of a block below the pointer is at the pointer or behind it. -/
theorem Block.Below.not_has (h : b.Below cap ptr) (hchunk : a.chunk = ptr.chunk)
    (hoff : ptr.off ≤ a.off) : ¬ b.Has a := by
  rintro ⟨heq, -, hlt⟩
  rcases h with ⟨hbelow, -⟩ | ⟨-, hend⟩ <;> omega

theorem Block.Below.mono (h : b.Below cap ptr) (n : Nat) :
    b.Below cap ⟨ptr.chunk, ptr.off + n⟩ :=
  h.imp_right fun h => ⟨h.1, Nat.le_add_right_of_le h.2⟩

theorem Block.Below.next (h : b.Below cap ptr) (hoff : ptr.off ≤ cap) :
    b.Below cap ⟨ptr.chunk + 1, 0⟩ :=
  Or.inl (h.inside hoff)

namespace Laid

/-- The new block starts at the pointer. -/
theorem push (h : Laid cap ptr blocks) (n : Nat) :
    Laid cap ⟨ptr.chunk, ptr.off + n⟩ (⟨ptr, n⟩ :: blocks) := by
  constructor
  · intro b hb
    rcases List.mem_cons.1 hb with rfl | hb
    · exact Or.inr ⟨rfl, Nat.le_refl _⟩
    · exact (h.below b hb).mono n
  · refine List.pairwise_cons.2 ⟨fun b hb a hnew => ?_, h.apart⟩
    exact (h.below b hb).not_has hnew.1 hnew.2.1

/-- The last block takes the cells behind it. -/
theorem grow (h : Laid cap ptr (b :: blocks)) (hend : b.EndsAt ptr) (n : Nat) :
    Laid cap ⟨ptr.chunk, ptr.off + n⟩ (⟨b.addr, b.size + n⟩ :: blocks) := by
  obtain ⟨happart, hrest⟩ := List.pairwise_cons.1 h.apart
  subst hend
  constructor
  · intro c hc
    rcases List.mem_cons.1 hc with rfl | hc
    · exact Or.inr ⟨rfl, Nat.le_of_eq (Nat.add_assoc _ _ _).symm⟩
    · exact (h.below c (List.mem_cons_of_mem _ hc)).mono n
  · refine List.pairwise_cons.2 ⟨fun c hc a hnew => ?_, hrest⟩
    by_cases hold : a.off < b.addr.off + b.size
    · exact happart c hc a ⟨hnew.1, hnew.2.1, hold⟩
    · exact (h.below c (List.mem_cons_of_mem _ hc)).not_has hnew.1 (Nat.le_of_not_lt hold)

theorem openChunk (h : Laid cap ptr blocks) (hoff : ptr.off ≤ cap) :
    Laid cap ⟨ptr.chunk + 1, 0⟩ blocks :=
  ⟨fun b hb => (h.below b hb).next hoff, h.apart⟩

end Laid

end Bump
