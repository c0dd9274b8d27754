import Dolorem.Memory.Alloc

/-!
# The blocks and the chunks of the allocator

A request that no chunk has room for is served all the same, and only the first
chunk gets into the table that `end_alloc` frees. `blocks_laid_iff` and
`chunks_tracked` say for which sequences of requests neither happens.
-/

namespace Dolorem.Memory

open Bump

section

variable {r r' : Run} {m m' : MemAllocator} {c : Call} {cs : List Call} {a : Addr} {b : Block}
variable {blocks blocks' : List Block} {text : List Char} {heap : Addr → Char} {s n room : Nat}

/-- The invariant of the requests: what is left of the current chunk is behind the last block, and
nothing has been written there. -/
structure Good (m : MemAllocator) (blocks : List Block) : Prop where
  cur : m.atAddr.chunk + 1 = m.chunks
  off : m.atAddr.off ≤ partSize
  left : m.left = (partSize : Int) - m.atAddr.off
  laid : Laid partSize m.atAddr blocks
  last : ∀ b ∈ blocks.head?, b.EndsAt m.atAddr
  clean : ∀ a : Addr, a.chunk = m.atAddr.chunk → m.atAddr.off ≤ a.off → a.off < partSize →
    m.heap a = '\x00'

/-- The cells of these blocks keep their contents. -/
def Kept (blocks : List Block) (m m' : MemAllocator) : Prop :=
  ∀ b ∈ blocks, ∀ a, b.Has a → m'.heap a = m.heap a

/-- The contents of a block. -/
def byte (m : MemAllocator) (b : Block) (i : Nat) : Char :=
  m.heap ⟨b.addr.chunk, b.addr.off + i⟩

namespace Good

theorem init : Good .init [] where
  cur := rfl
  off := Nat.zero_le _
  left := (Int.sub_zero _).symm
  laid := ⟨fun _ hb => (nomatch hb), List.Pairwise.nil⟩
  last := fun _ hb => nomatch hb
  clean := fun _ _ _ _ => rfl

/-- The room left is used. -/
theorem cut (h : Good m blocks) (hs : (s : Int) ≤ m.left)
    (hlaid : Laid partSize ⟨m.atAddr.chunk, m.atAddr.off + s⟩ (b :: blocks'))
    (hlast : b.EndsAt ⟨m.atAddr.chunk, m.atAddr.off + s⟩)
    (hclean : ∀ a : Addr, a.chunk = m.atAddr.chunk → m.atAddr.off + s ≤ a.off →
      a.off < partSize → heap a = '\x00') :
    Good { m.advance s with heap := heap } (b :: blocks') where
  cur := h.cur
  off := by
    have hleft := h.left
    dsimp only [MemAllocator.advance]
    omega
  left := by
    have hleft := h.left
    dsimp only [MemAllocator.advance]
    omega
  laid := hlaid
  last := fun _ hb => Option.some.inj hb ▸ hlast
  clean := hclean

/-- A new chunk is opened for a block. -/
theorem fresh (h : Good m blocks) (hs : s ≤ partSize)
    (hclean : ∀ a : Addr, a.chunk = m.chunks → s ≤ a.off → a.off < partSize → heap a = '\x00') :
    Good { m.openChunk.advance s with heap := heap } (⟨⟨m.chunks, 0⟩, s⟩ :: blocks) where
  cur := rfl
  off := Nat.le_trans (Nat.le_of_eq (Nat.zero_add s)) hs
  left := by
    dsimp only [MemAllocator.advance, MemAllocator.openChunk]
    omega
  laid := by
    have hlaid := (h.laid.openChunk h.off).push s
    rw [h.cur] at hlaid
    exact hlaid
  last := fun _ hb => Option.some.inj hb ▸ rfl
  clean := fun a hc hoff hlt => hclean a hc (Nat.le_trans (Nat.le_add_left s 0) hoff) hlt

/-- Nothing has been handed out in the next chunk. -/
theorem chunk_ne (h : Good m blocks) (hb : b ∈ blocks) (ha : b.Has a) : a.chunk ≠ m.chunks := by
  obtain ⟨hlt, -⟩ := (h.laid.below b hb).inside h.off
  rw [h.cur] at hlt
  rw [ha.1]
  exact Nat.ne_of_lt hlt

/-- Cells of the blocks lie below the pointer. -/
theorem below_ptr (h : Good m blocks) (hb : b ∈ blocks) (ha : b.Has a)
    (hc : a.chunk = m.atAddr.chunk) : a.off < m.atAddr.off :=
  Nat.lt_of_not_le fun hle => (h.laid.below b hb).not_has hc hle ha

/-- The blocks keep their contents in a new chunk's heap. -/
theorem openChunk_heap (h : Good m blocks) (hb : b ∈ blocks) (ha : b.Has a) :
    m.openChunk.heap a = m.heap a :=
  if_neg (h.chunk_ne hb ha)

/-- `get_mem` returns zeroed memory. -/
theorem getMem (h : Good m blocks) (hs : s ≤ partSize) : ∃ m' a, m.getMem s = (m', a) ∧
    Good m' (⟨a, s⟩ :: blocks) ∧ Kept blocks m m' ∧ ∀ i < s, byte m' ⟨a, s⟩ i = '\x00' := by
  have hleft := h.left
  rcases Int.lt_or_le m.left s with hlt | hge
  · refine ⟨_, _, MemAllocator.getMem_open hlt, ?_, ?_, fun i _ => if_pos rfl⟩
    · exact h.fresh hs fun a hc _ _ => if_pos hc
    · exact fun b hb a ha => h.openChunk_heap hb ha
  · refine ⟨_, _, MemAllocator.getMem_room hge, ?_, fun _ _ _ _ => rfl, fun i hi => ?_⟩
    · refine h.cut hge (h.laid.push s) rfl fun a hc hoff hlt => ?_
      exact h.clean a hc (Nat.le_of_add_right_le hoff) hlt
    · exact h.clean ⟨m.atAddr.chunk, m.atAddr.off + i⟩ rfl (Nat.le_add_right _ _)
        (by dsimp only; omega)

/-- `more_mem` on the last block keeps its contents, and the bytes it adds are zero. -/
theorem moreMem (h : Good m (b :: blocks)) (hs : b.size + n ≤ partSize) : ∃ m' a,
    m.moreMem (some b.addr) b.size n = some (m', a) ∧
      Good m' (⟨a, b.size + n⟩ :: if a = b.addr then blocks else b :: blocks) ∧
      Kept (b :: blocks) m m' ∧ (∀ i < b.size, byte m' ⟨a, b.size + n⟩ i = byte m b i) ∧
      ∀ i, b.size ≤ i → i < b.size + n → byte m' ⟨a, b.size + n⟩ i = '\x00' := by
  have hleft := h.left
  have hend : b.EndsAt m.atAddr := h.last b rfl
  have hoff : b.addr.off + b.size = m.atAddr.off := (congrArg Addr.off hend).symm
  have hchunk : b.addr.chunk = m.atAddr.chunk := (congrArg Addr.chunk hend).symm
  have hin : b.addr.off + b.size ≤ partSize := Nat.le_trans (Nat.le_of_eq hoff) h.off
  rcases Int.lt_or_le m.left n with hlt | hge
  -- the block moves to a new chunk
  · have hne : (⟨m.chunks, 0⟩ : Addr) ≠ b.addr := by
      intro heq
      have hcur := h.cur
      have hchunks : m.chunks = b.addr.chunk := congrArg Addr.chunk heq
      omega
    refine ⟨_, _, MemAllocator.moreMem_copy hend hlt hin (by omega), ?_, ?_, ?_, ?_⟩
    · rw [if_neg hne]
      refine h.fresh hs fun a hc hle _ => ?_
      refine (MemAllocator.overwrite_out fun _ => Or.inr ?_).trans (if_pos hc)
      simpa using Nat.le_of_add_right_le hle
    · intro c hc a ha
      dsimp only
      rw [MemAllocator.overwrite_out fun heq => absurd heq (h.chunk_ne hc ha)]
      exact h.openChunk_heap hc ha
    · intro i hi
      have hlen : i < ((List.range b.size).map fun i =>
          m.openChunk.heap ⟨b.addr.chunk, b.addr.off + i⟩).length := by simpa using hi
      refine (MemAllocator.overwrite_in hlen).trans ?_
      rw [List.getElem_map, List.getElem_range]
      exact h.openChunk_heap (List.mem_cons_self ..) (Block.Has.cell hi)
    · intro i hi _
      refine (MemAllocator.overwrite_out fun _ => Or.inr ?_).trans (if_pos rfl)
      simpa using hi
  · refine ⟨_, _, MemAllocator.moreMem_inPlace hend hge, ?_, fun _ _ _ _ => rfl,
      fun _ _ => rfl, fun i hi hlt => ?_⟩
    · rw [if_pos rfl]
      refine h.cut hge (h.laid.grow hend n) ?_ fun a hc hle hlt => ?_
      · rw [Block.EndsAt, ← hoff, hchunk, Nat.add_assoc]
      · exact h.clean a hc (Nat.le_of_add_right_le hle) hlt
    · exact h.clean ⟨b.addr.chunk, b.addr.off + i⟩ hchunk (by dsimp only; omega)
        (by dsimp only; omega)

/-- `print_to_mem` returns the whole text. -/
theorem printToMem (h : Good m blocks) (hs : text.length + 1 ≤ partSize) : ∃ m' a,
    m.printToMem text = some (m', a) ∧ Good m' (⟨a, text.length + 1⟩ :: blocks) ∧
      Kept blocks m m' ∧
      ∀ (i : Nat) (hi : i < (text ++ ['\x00']).length),
        byte m' ⟨a, text.length + 1⟩ i = (text ++ ['\x00'])[i] := by
  have hlen : (text ++ ['\x00']).length = text.length + 1 := by simp
  rcases Int.lt_or_le text.length m.left with hlt | hge
  · refine ⟨_, _, MemAllocator.printToMem_room h.left hlt, ?_, fun b hb a ha => ?_,
      fun i hi => MemAllocator.overwrite_in hi⟩
    · refine h.cut (by omega) (h.laid.push _) rfl fun a hc hoff hlt => ?_
      refine (MemAllocator.overwrite_out fun _ => Or.inr ?_).trans
        (h.clean a hc (Nat.le_of_add_right_le hoff) hlt)
      rwa [hlen]
    · exact MemAllocator.overwrite_out fun hc => Or.inl (h.below_ptr hb ha hc)
  · obtain ⟨heap, hheap, hrun⟩ := MemAllocator.printToMem_open h.left h.off hge hs
    refine ⟨_, _, hrun, ?_, fun b hb a ha => ?_, fun i hi => MemAllocator.overwrite_in hi⟩
    · refine h.fresh hs fun a hc hoff _ => ?_
      refine (MemAllocator.overwrite_out fun _ => Or.inr ?_).trans (if_pos hc)
      rwa [hlen, Nat.zero_add]
    · have hne := h.chunk_ne hb ha
      refine (MemAllocator.overwrite_out fun hc => absurd hc hne).trans ((if_neg hne).trans ?_)
      exact hheap a (h.below_ptr hb ha)

end Good

/-! ## Runs -/

/-- What a request returns: the new block, with the bytes of the old one it extends, and zeros or
the text. -/
def Served (r : Run) (c : Call) (r' : Run) : Prop :=
  ∃ b ∈ r'.blocks.head?, b.size = c.need r.lastSize ∧
    match c with
    | .get _ => ∀ i < b.size, byte r'.m b i = '\x00'
    | .more _ => (∀ old ∈ r.blocks.head?, ∀ i < old.size, byte r'.m b i = byte r.m old i) ∧
        ∀ i, r.lastSize ≤ i → i < b.size → byte r'.m b i = '\x00'
    | .print text => ∀ (i : Nat) (hi : i < (text ++ ['\x00']).length),
        byte r'.m b i = (text ++ ['\x00'])[i]

/-- One request that a chunk has room for. -/
theorem Good.step (h : Good r.m r.blocks) (hc : c.need r.lastSize ≤ partSize) :
    ∃ r', r.step c = some r' ∧ Good r'.m r'.blocks ∧ Kept r.blocks r.m r'.m ∧ Served r c r' := by
  obtain ⟨m, blocks⟩ := r
  cases c with
  | get s =>
    have hs : s ≤ partSize := hc
    obtain ⟨m', a, hrun, hgood, hkept, hzero⟩ := h.getMem hs
    dsimp only at hrun
    refine ⟨⟨m', ⟨a, s⟩ :: blocks⟩, ?_, hgood, hkept, ⟨a, s⟩, rfl, rfl, hzero⟩
    simp only [Run.step, hrun]
  | print text =>
    obtain ⟨m', a, hrun, hgood, hkept, htext⟩ := h.printToMem hc
    dsimp only at hrun
    refine ⟨⟨m', ⟨a, text.length + 1⟩ :: blocks⟩, ?_, hgood, hkept, _, rfl, rfl, htext⟩
    simp only [Run.step, hrun, Option.bind_eq_bind, Option.bind_some]
    rfl
  | more addedsize =>
    cases blocks with
    | nil =>
      rw [Call.need, Run.lastSize, Nat.zero_add] at hc
      obtain ⟨m', a, hrun, hgood, hkept, hzero⟩ := h.getMem hc
      refine ⟨⟨m', [⟨a, addedsize⟩]⟩, ?_, hgood, hkept, _, rfl, (Nat.zero_add _).symm,
        fun _ hold => (nomatch hold), fun i _ => hzero i⟩
      simp only [Run.step, Run.more, MemAllocator.moreMem, hrun, Option.bind_eq_bind,
        Option.bind_some]
      rfl
    | cons b bs =>
      obtain ⟨m', a, hrun, hgood, hkept, hold, hnew⟩ := h.moreMem hc
      refine ⟨⟨m', _⟩, ?_, hgood, hkept, _, rfl, rfl, fun old hmem => ?_, hnew⟩
      · simp only [Run.step, Run.more, hrun, Option.bind_eq_bind, Option.bind_some]
        rfl
      · cases hmem
        exact hold

theorem Run.step_lastSize (h : r.step c = some r') : r'.lastSize = c.need r.lastSize := by
  cases c with
  | get s =>
    cases h
    rfl
  | print text =>
    obtain ⟨p, -, h⟩ := Option.bind_eq_some_iff.1 h
    cases h
    rfl
  | more addedsize =>
    obtain ⟨m, blocks⟩ := r
    cases blocks with
    | nil =>
      cases h
      exact (Nat.zero_add _).symm
    | cons b bs =>
      obtain ⟨p, -, h⟩ := Option.bind_eq_some_iff.1 h
      cases h
      rfl

theorem Run.Along.head {P : Run → Prop} (h : Run.Along P r cs) : P r := by
  cases cs with
  | nil => exact h
  | cons c cs => exact h.1

theorem Good.laid_run (h : Good r.m r.blocks) : r.Laid := by
  refine ⟨fun b hb => ?_, h.laid.apart⟩
  rw [← h.cur]
  exact (h.laid.below b hb).inside h.off

/-- By induction on the requests: the invariant is kept as long as they fit. -/
theorem Good.along_laid (h : Good r.m r.blocks) (hfit : Fit r.lastSize cs) :
    Run.Along Run.Laid r cs := by
  induction cs generalizing r with
  | nil => exact h.laid_run
  | cons c cs ih =>
    obtain ⟨r', hstep, hgood, -, -⟩ := h.step hfit.1
    refine ⟨h.laid_run, r', hstep, ih hgood ?_⟩
    rw [Run.step_lastSize hstep]
    exact hfit.2

/-- By induction on the requests: the block that is returned has all the bytes asked for. -/
theorem Run.Along.fit (h : Run.Along Run.Laid r cs) : Fit r.lastSize cs := by
  induction cs generalizing r with
  | nil => trivial
  | cons c cs ih =>
    obtain ⟨-, r', hstep, hrest⟩ := h
    have hlast := Run.step_lastSize hstep
    refine ⟨?_, hlast ▸ ih hrest⟩
    rw [← hlast]
    obtain ⟨m, blocks⟩ := r'
    cases blocks with
    | nil => exact Nat.zero_le _
    | cons b bs =>
      obtain ⟨-, hend⟩ := hrest.head.inside b (List.mem_cons_self ..)
      exact Nat.le_of_add_left_le hend

end

/-- All the blocks are inside their chunks and apart, in every state, if and only if every request
needs at most a chunk. -/
theorem blocks_laid_iff (calls : List Call) : Run.Along Run.Laid .init calls ↔ Fit 0 calls :=
  ⟨Run.Along.fit, Good.init.along_laid (r := .init)⟩

/-- One byte more than a chunk has. -/
theorem large_block_sticks_out : ¬ Run.Along Run.Laid .init [.get (partSize + 1)] := by
  intro h
  exact absurd h.fit.1 (Nat.not_succ_le_self partSize)

/-! ## The table of chunks -/

section

variable {r r' : Run} {c : Call} {cs : List Call} {room : Nat}

theorem Call.need_le (c : Call) (last : Nat) : c.need last ≤ last + c.need 0 := by
  cases c with
  | get s => exact Nat.le_add_left _ _
  | more addedsize => exact Nat.add_le_add_left (Nat.le_add_left _ _) _
  | print text => exact Nat.le_add_left _ _

theorem Good.lastSize_le (h : Good r.m r.blocks) : r.lastSize ≤ r.m.atAddr.off := by
  obtain ⟨m, blocks⟩ := r
  cases blocks with
  | nil => exact Nat.zero_le _
  | cons b bs =>
    have hoff : m.atAddr.off = b.addr.off + b.size := congrArg Addr.off (h.last b rfl)
    exact Nat.le_trans (Nat.le_add_left _ _) (Nat.le_of_eq hoff.symm)

/-- A request that the room left is enough for opens no chunk. -/
theorem Good.step_room (h : Good r.m r.blocks) (hc : (c.need 0 : Int) ≤ r.m.left) :
    ∃ r' heap, r.step c = some r' ∧ Good r'.m r'.blocks ∧
      r'.m = { r.m.advance (c.need 0) with heap := heap } := by
  have hleft := h.left
  have hneed := c.need_le r.lastSize
  have hlast := h.lastSize_le
  obtain ⟨r', hstep, hgood, -, -⟩ := h.step (c := c) (by omega)
  refine ⟨r', r'.m.heap, hstep, hgood, ?_⟩
  obtain ⟨m, blocks⟩ := r
  dsimp only at h hc hleft
  cases c with
  | get s =>
    have hs : (s : Int) ≤ m.left := hc
    simp only [Run.step, MemAllocator.getMem_room hs] at hstep
    cases hstep
    rfl
  | print text =>
    have hlt : (text.length : Int) < m.left := Int.lt_of_add_one_le hc
    simp only [Run.step, MemAllocator.printToMem_room hleft hlt] at hstep
    cases hstep
    rfl
  | more addedsize =>
    rw [Call.need, Nat.zero_add] at hc ⊢
    cases blocks with
    | nil =>
      simp only [Run.step, Run.more, MemAllocator.moreMem, MemAllocator.getMem_room hc] at hstep
      cases hstep
      rfl
    | cons b bs =>
      simp only [Run.step, Run.more, MemAllocator.moreMem_inPlace (h.last b rfl) hc] at hstep
      cases hstep
      rfl

/-- Any other request opens one. -/
theorem Run.step_open (hc : r.m.left < c.need 0)
    (htext : ∀ text, c = .print text → text.length < 2 ^ 31) (h : r.step c = some r') :
    r'.m.mem = r.m.mem ++ [none] := by
  obtain ⟨m, blocks⟩ := r
  dsimp only at hc
  cases c with
  | get s =>
    have hs : m.left < s := hc
    simp only [Run.step, MemAllocator.getMem_open hs] at h
    cases h
    rfl
  | print text =>
    have hlen := MemAllocator.printedLen_eq (htext text rfl)
    have hle : m.left ≤ text.length := Int.le_of_lt_add_one hc
    obtain ⟨p, hrun, h⟩ := Option.bind_eq_some_iff.1 h
    cases h
    obtain ⟨m₁, hfirst, hrun⟩ := Option.bind_eq_some_iff.1 hrun
    have hm₁ : ∃ heap, m₁ = { m with heap := heap } := by
      unfold MemAllocator.vsnprintf at hfirst
      split at hfirst
      · exact ⟨m.heap, (Option.some.inj hfirst).symm⟩
      · exact ⟨_, MemAllocator.store_some hfirst⟩
    obtain ⟨heap, rfl⟩ := hm₁
    split at hrun
    · cases hrun
    · have hopen : ({ m with heap := heap } : MemAllocator).left < (text.length + 1 : Nat) := hc
      simp only [hlen, if_pos hle, Int.toNat_natCast_add_one,
        MemAllocator.getMem_open hopen] at hrun
      obtain ⟨m₂, hstore, hrun⟩ := Option.bind_eq_some_iff.1 hrun
      cases hrun
      cases MemAllocator.store_some hstore
      rfl
  | more addedsize =>
    rw [Call.need, Nat.zero_add] at hc
    cases blocks with
    | nil =>
      simp only [Run.step, Run.more, MemAllocator.moreMem, MemAllocator.getMem_open hc] at h
      cases h
      rfl
    | cons b bs =>
      obtain ⟨p, hrun, h⟩ := Option.bind_eq_some_iff.1 h
      cases h
      simp only [MemAllocator.moreMem] at hrun
      split at hrun
      · cases hrun
      · have hopen : m.left < (b.size + addedsize : Nat) := by omega
        simp only [MemAllocator.getMem_open hopen] at hrun
        obtain ⟨bytes, -, hrun⟩ := Option.bind_eq_some_iff.1 hrun
        obtain ⟨m₁, hstore, hrun⟩ := Option.bind_eq_some_iff.1 hrun
        cases hrun
        cases MemAllocator.store_some hstore
        rfl

theorem MemAllocator.not_tracked {m : MemAllocator} {mem : List (Option Nat)}
    (h : m.mem = mem ++ [none]) : ¬ m.Tracked := by
  intro htracked
  have hmem : none ∈ m.mem := by
    rw [h]
    exact List.mem_append_right _ (List.mem_cons_self ..)
  obtain ⟨k, -, hk⟩ := List.mem_map.1 (htracked.mem_iff.1 hmem)
  cases hk

/-- By induction on the requests: the first chunk stays the only one. -/
theorem Good.along_tracked (h : Good r.m r.blocks) (hmem : r.m.mem = [some 0])
    (hchunks : r.m.chunks = 1) (hroom : r.m.left = room) (hwithin : Within room cs) :
    Run.Along (fun r => r.m.Tracked) r cs := by
  have htracked : r.m.Tracked := by
    rw [MemAllocator.Tracked, MemAllocator.endAlloc, hmem, hchunks]
    exact List.Perm.refl _
  induction cs generalizing r room with
  | nil => exact htracked
  | cons c cs ih =>
    obtain ⟨hneed, hrest⟩ := hwithin
    obtain ⟨r', heap, hstep, hgood, hm⟩ := h.step_room (c := c) (by omega)
    refine ⟨htracked, r', hstep, ih hgood ?_ ?_ ?_ hrest ?_⟩
    · rw [hm]
      exact hmem
    · rw [hm]
      exact hchunks
    · rw [hm]
      dsimp only [MemAllocator.advance]
      omega
    · rw [hm]
      exact htracked

/-- By induction on the requests: the first one that needs a new chunk leaves an entry of the table
without a chunk. -/
theorem Good.within (h : Good r.m r.blocks) (hroom : r.m.left = room)
    (htext : ∀ text, Call.print text ∈ cs → text.length < 2 ^ 31)
    (halong : Run.Along (fun r => r.m.Tracked) r cs) : Within room cs := by
  induction cs generalizing r room with
  | nil => trivial
  | cons c cs ih =>
    obtain ⟨-, r', hstep, hrest⟩ := halong
    have hneed : c.need 0 ≤ room := by
      refine Nat.le_of_not_lt fun hlt => ?_
      have hopen := Run.step_open (by omega)
        (fun text heq => htext text (heq ▸ List.mem_cons_self ..)) hstep
      exact MemAllocator.not_tracked hopen hrest.head
    obtain ⟨r₁, heap, hstep₁, hgood, hm⟩ := h.step_room (c := c) (by omega)
    cases hstep.symm.trans hstep₁
    refine ⟨hneed, ih hgood ?_ (fun text hmem => htext text (List.mem_cons_of_mem _ hmem)) hrest⟩
    rw [hm]
    dsimp only [MemAllocator.advance]
    omega

end

/-- The table has every chunk as long as the requests together fit into the first one; and, unless
a text is longer than `vsnprintf` can tell, only as long as they do. -/
theorem chunks_tracked (calls : List Call) :
    (Within partSize calls → Run.Along (fun r => r.m.Tracked) .init calls) ∧
      ((∀ text, Call.print text ∈ calls → text.length < 2 ^ 31) →
        Run.Along (fun r => r.m.Tracked) .init calls → Within partSize calls) :=
  ⟨Good.init.along_tracked (r := .init) rfl rfl rfl, Good.init.within (r := .init) rfl⟩

/-- Two structures. -/
theorem chunks_tracked_example : Run.Along (fun r => r.m.Tracked) .init [.get 24, .get 40] :=
  (chunks_tracked [.get 24, .get 40]).1 ⟨by decide, by decide, trivial⟩

/-- The whole of the first chunk, and one byte more. -/
theorem second_chunk_lost :
    ¬ Run.Along (fun r => r.m.Tracked) .init [.get partSize, .get 1] := by
  rintro ⟨-, r, hfirst, -, r', hsecond, htracked⟩
  cases hfirst
  have hopen := Run.step_open (c := .get 1) (by decide) (fun _ heq => nomatch heq) hsecond
  exact MemAllocator.not_tracked hopen htracked

end Dolorem.Memory
