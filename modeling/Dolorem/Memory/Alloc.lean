import Mathlib.Algebra.Group.Int.Defs
import Mathlib.Algebra.Group.Nat.Defs
import Mathlib.Data.List.GetD
import Dolorem.Lib.Bump

/-!
# The allocator of `list.c`

Memory is cut off chunks of `PART_SIZE` bytes: the operations, sequences of
requests, and one equation for each way a request is served.
-/

namespace Dolorem.Memory

open Bump

def partSize : Nat := 1048576

/-- `memalloc`, with the number of chunks that `calloc` has returned and what is stored in them.
An entry of `Mem` that nothing has been stored in is `none`. -/
structure MemAllocator where
  atAddr : Addr
  left : Int
  mem : List (Option Nat)
  chunks : Nat
  heap : Addr → Char

namespace MemAllocator

/-- `init_alloc`. -/
def init : MemAllocator := ⟨⟨0, 0⟩, partSize, [some 0], 1, fun _ => '\x00'⟩

/-- The new chunk that `get_mem` takes, with `MemSize++` and the larger table. -/
def openChunk (m : MemAllocator) : MemAllocator where
  atAddr := ⟨m.chunks, 0⟩
  left := partSize
  mem := m.mem ++ [none]
  chunks := m.chunks + 1
  heap := fun a => if a.chunk = m.chunks then '\x00' else m.heap a

/-- `Left -= s` and `At += s`. -/
def advance (m : MemAllocator) (s : Nat) : MemAllocator :=
  { m with atAddr := ⟨m.atAddr.chunk, m.atAddr.off + s⟩, left := m.left - s }

/-- `get_mem`. -/
def getMem (m : MemAllocator) (s : Nat) : MemAllocator × Addr :=
  let m := if m.left < s then m.openChunk else m
  (m.advance s, m.atAddr)

/-- The bytes from an address on, unless they lead out of the chunk. -/
def load (m : MemAllocator) (a : Addr) (n : Nat) : Option (List Char) :=
  if a.off + n ≤ partSize then some ((List.range n).map fun i => m.heap ⟨a.chunk, a.off + i⟩)
  else none

/-- The heap with bytes written from an address on. -/
def overwrite (heap : Addr → Char) (a : Addr) (bytes : List Char) (c : Addr) : Char :=
  if c.chunk = a.chunk ∧ a.off ≤ c.off then bytes.getD (c.off - a.off) (heap c) else heap c

/-- Bytes written from an address on, unless they lead out of the chunk. -/
def store (m : MemAllocator) (a : Addr) (bytes : List Char) : Option MemAllocator :=
  if a.off + bytes.length ≤ partSize then some { m with heap := overwrite m.heap a bytes }
  else none

/-- `more_mem`; `none` is the failed assertion, or an access out of a chunk. -/
def moreMem (m : MemAllocator) (before : Option Addr) (beforesize addedsize : Nat) :
    Option (MemAllocator × Addr) :=
  match before with
  | none => some (m.getMem addedsize)
  | some before =>
    if m.atAddr ≠ ⟨before.chunk, before.off + beforesize⟩ then none
    else if m.left < addedsize then do
      let (m, r) := m.getMem (beforesize + addedsize)
      let bytes ← m.load before beforesize
      let m ← m.store r bytes
      return (m, r)
    else some (m.advance addedsize, before)

/-- What `vsnprintf` returns about a formatted text, an `int`. -/
def printedLen (text : List Char) : Int := if text.length < 2 ^ 31 then text.length else -1

/-- What `vsnprintf` writes, at most `size` bytes. -/
def vsnprintf (m : MemAllocator) (str : Addr) (size : Nat) (text : List Char) :
    Option MemAllocator :=
  if size = 0 then some m else m.store str (text.take (size - 1) ++ ['\x00'])

/-- `print_to_mem`, with the formatted text. -/
def printToMem (m : MemAllocator) (text : List Char) : Option (MemAllocator × Addr) := do
  let str := m.atAddr
  let len := printedLen text
  let m ← m.vsnprintf str (m.left % 2 ^ 64).toNat text
  if len = 2 ^ 31 - 1 then none -- `len + 1` overflows
  else if m.left ≤ len then do
    let (m, str) := m.getMem (len + 1).toNat
    let m ← m.store str (text ++ ['\x00'])
    return (m, str)
  else return (m.advance (len + 1).toNat, str)

/-- The pointers that `end_alloc` frees. -/
def endAlloc (m : MemAllocator) : List (Option Nat) := m.mem

/-- The table has every chunk, and each one once. -/
def Tracked (m : MemAllocator) : Prop := m.endAlloc.Perm ((List.range m.chunks).map some)

end MemAllocator

/-! ## Sequences of requests -/

/-- A request; `more` is about the last block. -/
inductive Call where
  | get (s : Nat)
  | more (addedsize : Nat)
  | print (text : List Char)

/-- The allocator and the blocks it has returned, the last one first. -/
structure Run where
  m : MemAllocator
  blocks : List Block

namespace Run

def init : Run := ⟨.init, []⟩

/-- A block that is extended in place takes the place of the old one. -/
def more (r : Run) (addedsize : Nat) : Option Run :=
  match r.blocks with
  | [] => do
    let (m, a) ← r.m.moreMem none 0 addedsize
    return ⟨m, [⟨a, addedsize⟩]⟩
  | b :: bs => do
    let (m, a) ← r.m.moreMem (some b.addr) b.size addedsize
    return ⟨m, ⟨a, b.size + addedsize⟩ :: if a = b.addr then bs else b :: bs⟩

def step (r : Run) : Call → Option Run
  | .get s =>
    let (m, a) := r.m.getMem s
    some ⟨m, ⟨a, s⟩ :: r.blocks⟩
  | .more addedsize => r.more addedsize
  | .print text => do
    let (m, a) ← r.m.printToMem text
    return ⟨m, ⟨a, text.length + 1⟩ :: r.blocks⟩

/-- The requests succeed one after the other, and `P` holds in every state. -/
def Along (P : Run → Prop) : Run → List Call → Prop
  | r, [] => P r
  | r, c :: cs => P r ∧ ∃ r', r.step c = some r' ∧ Along P r' cs

/-- Every block is inside a chunk, and no two overlap. -/
structure Laid (r : Run) : Prop where
  inside : ∀ b ∈ r.blocks, b.Inside partSize r.m.chunks
  apart : r.blocks.Pairwise Block.Apart

/-- The size of the last block. -/
def lastSize (r : Run) : Nat :=
  match r.blocks with
  | [] => 0
  | b :: _ => b.size

end Run

/-- The bytes a request needs, when the last block has `last` bytes. -/
def Call.need (last : Nat) : Call → Nat
  | .get s => s
  | .more addedsize => last + addedsize
  | .print text => text.length + 1

/-- Every request needs at most a chunk. -/
def Fit : Nat → List Call → Prop
  | _, [] => True
  | last, c :: cs => c.need last ≤ partSize ∧ Fit (c.need last) cs

/-- All the requests together need at most `room` bytes. -/
def Within : Nat → List Call → Prop
  | _, [] => True
  | room, c :: cs => c.need 0 ≤ room ∧ Within (room - c.need 0) cs

/-! ## The operations -/

section

variable {m m' : MemAllocator} {a before : Addr} {b : Block} {blocks : List Block}
variable {bytes text : List Char} {heap : Addr → Char} {s n addedsize : Nat}

namespace MemAllocator

theorem getMem_room (h : (s : Int) ≤ m.left) : m.getMem s = (m.advance s, m.atAddr) := by
  rw [getMem, if_neg (Int.not_lt.2 h)]

theorem getMem_open (h : m.left < s) :
    m.getMem s = (m.openChunk.advance s, ⟨m.chunks, 0⟩) := by
  rw [getMem, if_pos h]
  rfl

theorem store_eq (h : a.off + bytes.length ≤ partSize) :
    m.store a bytes = some { m with heap := overwrite m.heap a bytes } := if_pos h

theorem store_some (h : m.store a bytes = some m') :
    m' = { m with heap := overwrite m.heap a bytes } := by
  unfold store at h
  split at h
  · exact (Option.some.inj h).symm
  · cases h

theorem overwrite_out {c : Addr} (h : c.chunk = a.chunk → c.off < a.off ∨
    a.off + bytes.length ≤ c.off) : overwrite heap a bytes c = heap c := by
  unfold overwrite
  split
  · next hc =>
    have hend := (h hc.1).resolve_left (Nat.not_lt.2 hc.2)
    rw [List.getD_eq_default _ _ (by omega)]
  · rfl

theorem overwrite_in {i : Nat} (h : i < bytes.length) :
    overwrite heap a bytes ⟨a.chunk, a.off + i⟩ = bytes[i] := by
  rw [overwrite, if_pos ⟨rfl, Nat.le_add_right _ _⟩, Nat.add_sub_cancel_left,
    List.getD_eq_getElem _ _ h]

theorem moreMem_inPlace (hend : m.atAddr = ⟨before.chunk, before.off + n⟩)
    (h : (addedsize : Int) ≤ m.left) :
    m.moreMem (some before) n addedsize = some (m.advance addedsize, before) := by
  rw [moreMem, if_neg (not_not_intro hend), if_neg (Int.not_lt.2 h)]

/-- The bytes of the old block in the new one. -/
theorem moreMem_copy (hend : m.atAddr = ⟨before.chunk, before.off + n⟩)
    (h : m.left < addedsize) (hbefore : before.off + n ≤ partSize) (hsize : n ≤ partSize) :
    m.moreMem (some before) n addedsize =
      some ({ m.openChunk.advance (n + addedsize) with
        heap := overwrite m.openChunk.heap ⟨m.chunks, 0⟩
          ((List.range n).map fun i => m.openChunk.heap ⟨before.chunk, before.off + i⟩) },
        ⟨m.chunks, 0⟩) := by
  have hopen : m.left < (n + addedsize : Nat) := by omega
  rw [moreMem, if_neg (not_not_intro hend), if_pos h, getMem_open hopen]
  simp only [load, if_pos hbefore, Option.bind_eq_bind, Option.bind_some]
  rw [store_eq (by simpa using hsize)]
  rfl

theorem printedLen_eq (h : text.length < 2 ^ 31) : printedLen text = text.length := if_pos h

/-- `(size_t)Left`. -/
theorem size_eq (h : 0 ≤ m.left) (hle : m.left ≤ partSize) :
    (m.left % 2 ^ 64).toNat = m.left.toNat := by
  have hpart : (partSize : Int) < 2 ^ 64 := by decide
  rw [Int.emod_eq_of_lt h (by omega)]

/-- A text that fits into the room left is written once. -/
theorem printToMem_room (hleft : m.left = (partSize : Int) - m.atAddr.off)
    (h : (text.length : Int) < m.left) :
    m.printToMem text = some ({ m.advance (text.length + 1) with
      heap := overwrite m.heap m.atAddr (text ++ ['\x00']) }, m.atAddr) := by
  have hpart : (partSize : Int) < 2 ^ 31 - 1 := by decide
  have hlen : printedLen text = text.length := printedLen_eq (by omega)
  have hsize : (m.left % 2 ^ 64).toNat = m.left.toNat := size_eq (by omega) (by omega)
  have htake : text.take (m.left.toNat - 1) = text := List.take_of_length_le (by omega)
  have hfits : m.atAddr.off + (text ++ ['\x00']).length ≤ partSize := by
    rw [List.length_append, List.length_singleton]
    omega
  have hfirst : m.vsnprintf m.atAddr m.left.toNat text =
      some { m with heap := overwrite m.heap m.atAddr (text ++ ['\x00']) } := by
    rw [vsnprintf, if_neg (by omega), htake, store_eq hfits]
  unfold printToMem
  simp only [hlen, hsize, hfirst, Option.bind_eq_bind, Option.bind_some]
  rw [if_neg (by omega), if_neg (Int.not_le.2 h), Int.toNat_natCast_add_one]
  rfl

/-- A longer one is written into a new chunk. What had been written before that lies behind the
pointer. -/
theorem printToMem_open (hleft : m.left = (partSize : Int) - m.atAddr.off)
    (hoff : m.atAddr.off ≤ partSize) (h : m.left ≤ text.length)
    (hsize : text.length + 1 ≤ partSize) : ∃ heap : Addr → Char,
      (∀ a, (a.chunk = m.atAddr.chunk → a.off < m.atAddr.off) → heap a = m.heap a) ∧
      m.printToMem text = some ({ m.openChunk.advance (text.length + 1) with
        heap := overwrite (openChunk { m with heap }).heap ⟨m.chunks, 0⟩ (text ++ ['\x00']) },
        ⟨m.chunks, 0⟩) := by
  have hpart : partSize < 2 ^ 31 := by decide
  have hlen : printedLen text = text.length := printedLen_eq (by omega)
  have hsize_t : (m.left % 2 ^ 64).toNat = m.left.toNat := size_eq (by omega) (by omega)
  have hfits : 0 + (text ++ ['\x00']).length ≤ partSize := by
    rwa [Nat.zero_add, List.length_append, List.length_singleton]
  obtain ⟨heap, hheap, hfirst⟩ : ∃ heap : Addr → Char,
      (∀ a, (a.chunk = m.atAddr.chunk → a.off < m.atAddr.off) → heap a = m.heap a) ∧
      m.vsnprintf m.atAddr m.left.toNat text = some { m with heap } := by
    by_cases hzero : m.left.toNat = 0
    · exact ⟨m.heap, fun _ _ => rfl, if_pos hzero⟩
    · refine ⟨overwrite m.heap m.atAddr (text.take (m.left.toNat - 1) ++ ['\x00']),
        fun a ha => overwrite_out fun hc => Or.inl (ha hc), ?_⟩
      rw [vsnprintf, if_neg hzero, store_eq]
      rw [List.length_append, List.length_take, List.length_singleton]
      omega
  have hopen : ({ m with heap } : MemAllocator).left < (text.length + 1 : Nat) := by
    dsimp only
    omega
  refine ⟨heap, hheap, ?_⟩
  unfold printToMem
  simp only [hlen, hsize_t, hfirst, Option.bind_eq_bind, Option.bind_some]
  rw [if_neg (by omega), if_pos h, Int.toNat_natCast_add_one, getMem_open hopen]
  dsimp only
  rw [store_eq hfits]
  rfl

end MemAllocator

end

end Dolorem.Memory
