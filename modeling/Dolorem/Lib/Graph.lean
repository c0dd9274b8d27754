import Mathlib.Data.List.Basic
import Mathlib.Data.Nat.Basic
import Mathlib.Logic.Relation
import Mathlib.Order.Basic
import Dolorem.Lib.Run

/-!
# Code graphs that grow at a cursor

A code graph is a list of blocks, each with an owner and a list of
instructions. A builder adds to it in two ways only: it appends instructions to
the block its cursor is in (`append`), and it appends an empty block (`fresh`).
`Grows g c g' c'` says what any number of such steps leaves alone when the
cursor only ever moves to blocks made on the way.

An instruction is anything with a `Flow`: how control leaves it and what it
shows. `Step` is the resulting transition relation on positions, and `Tidy` the
invariant of a builder that ends every block exactly once.
-/

namespace CodeGraph

structure Block (κ ι : Type) where
  owner : κ
  code : List ι
deriving DecidableEq, Repr

structure Cfg (κ ι : Type) where
  blocks : List (Block κ ι)
deriving DecidableEq, Repr

/-- A place in the code: the `idx`-th instruction of block `blk`. -/
structure Pos where
  blk : Nat
  idx : Nat
deriving DecidableEq, Repr

variable {κ ι ε : Type}

namespace Cfg

def size (g : Cfg κ ι) : Nat := g.blocks.length

/-- The instructions of block `b`; a block that does not exist has none. -/
def code (g : Cfg κ ι) (b : Nat) : List ι :=
  match g.blocks[b]? with
  | some blk => blk.code
  | none => []

def owner? (g : Cfg κ ι) (b : Nat) : Option κ :=
  g.blocks[b]?.map (·.owner)

/-- Append instructions to block `b`. -/
def append (g : Cfg κ ι) (b : Nat) (is : List ι) : Cfg κ ι :=
  ⟨g.blocks.modify b fun blk => { blk with code := blk.code ++ is }⟩

/-- Append an empty block; its number is the old `size`. -/
def fresh (g : Cfg κ ι) (o : κ) : Cfg κ ι :=
  ⟨g.blocks ++ [⟨o, []⟩]⟩

/-- Change the instruction at a position. -/
def update (g : Cfg κ ι) (p : Pos) (f : ι → ι) : Cfg κ ι :=
  ⟨g.blocks.modify p.blk fun blk => { blk with code := blk.code.modify p.idx f }⟩

/-- The instruction at a position. -/
def at? (g : Cfg κ ι) (p : Pos) : Option ι := (g.code p.blk)[p.idx]?

/-- The end of block `b`: where the next instruction will stand. -/
def endOf (g : Cfg κ ι) (b : Nat) : Pos := ⟨b, (g.code b).length⟩

section Laws

variable (g : Cfg κ ι)

@[simp] theorem size_append (b : Nat) (is : List ι) : (g.append b is).size = g.size := by
  simp [size, append]

@[simp] theorem size_fresh (o : κ) : (g.fresh o).size = g.size + 1 := by
  simp [size, fresh]

theorem code_of_size_le {b : Nat} (h : g.size ≤ b) : g.code b = [] := by
  unfold code
  rw [List.getElem?_eq_none h]

@[simp] theorem append_nil (b : Nat) : g.append b [] = g := by
  cases g
  simp only [append, List.append_nil, mk.injEq]
  exact List.modify_id _ _

@[simp] theorem append_append (b : Nat) (is js : List ι) :
    (g.append b is).append b js = g.append b (is ++ js) := by
  simp only [append, List.modify_modify_eq, mk.injEq]
  congr 1
  funext blk
  simp

theorem code_append_self {b : Nat} (h : b < g.size) (is : List ι) :
    (g.append b is).code b = g.code b ++ is := by
  have hb : b < g.blocks.length := h
  simp [code, append, hb]

theorem code_append_ne {b c : Nat} (h : c ≠ b) (is : List ι) :
    (g.append b is).code c = g.code c := by
  simp [code, append, Ne.symm h]

@[simp] theorem code_fresh (o : κ) (b : Nat) : (g.fresh o).code b = g.code b := by
  unfold code fresh
  rcases Nat.lt_trichotomy b g.blocks.length with h | h | h
  · rw [List.getElem?_append_left h]
  · subst h
    simp
  · rw [List.getElem?_eq_none (Nat.le_of_lt h), List.getElem?_eq_none]
    simpa using Nat.succ_le_of_lt h

@[simp] theorem owner?_append (b c : Nat) (is : List ι) :
    (g.append b is).owner? c = g.owner? c := by
  unfold owner? append
  rw [List.getElem?_modify]
  cases g.blocks[c]? <;> simp [apply_ite]

@[simp] theorem owner?_update (p : Pos) (c : Nat) (f : ι → ι) :
    (g.update p f).owner? c = g.owner? c := by
  unfold owner? update
  rw [List.getElem?_modify]
  cases g.blocks[c]? <;> simp [apply_ite]

theorem owner?_fresh_of_lt (o : κ) {c : Nat} (h : c < g.size) :
    (g.fresh o).owner? c = g.owner? c := by
  unfold owner? fresh
  rw [List.getElem?_append_left h]

@[simp] theorem owner?_fresh_self (o : κ) : (g.fresh o).owner? g.size = some o := by
  simp [owner?, fresh, size]

theorem lt_size_of_owner? {b : Nat} {o : κ} (h : g.owner? b = some o) : b < g.size := by
  rcases Nat.lt_or_ge b g.size with hb | hb
  · exact hb
  · unfold owner? at h
    rw [List.getElem?_eq_none hb] at h
    simp at h

/-- A block of the graph with a new block was there, or it is the new one. -/
theorem owner?_fresh_cases {o o' : κ} {b : Nat} (h : (g.fresh o).owner? b = some o') :
    g.owner? b = some o' ∨ b = g.size ∧ o' = o := by
  have hlt := (g.fresh o).lt_size_of_owner? h
  rw [size_fresh] at hlt
  rcases Nat.lt_succ_iff_lt_or_eq.1 hlt with hlt | rfl
  · exact .inl ((owner?_fresh_of_lt g o hlt).symm.trans h)
  · rw [owner?_fresh_self] at h
    exact .inr ⟨rfl, (Option.some_inj.1 h).symm⟩

theorem modify_concat (f : ι → ι) (i : ι) : ∀ l : List ι,
    (l ++ [i]).modify l.length f = l ++ [f i]
  | [] => rfl
  | _ :: l => congrArg _ (modify_concat f i l)

/-- An instruction that was just appended and is then changed. -/
theorem update_append {b : Nat} (h : b < g.size) (i : ι) (f : ι → ι) :
    (g.append b [i]).update (g.endOf b) f = g.append b [f i] := by
  have hb : b < g.blocks.length := h
  simp only [append, update, endOf, code, List.getElem?_eq_getElem hb, mk.injEq]
  apply List.ext_getElem?
  intro c
  rcases eq_or_ne b c with rfl | hc
  · simp [List.getElem?_eq_getElem hb, modify_concat]
  · simp [hc]

theorem mem_code_append {b c : Nat} {i : ι} {is : List ι} (h : i ∈ (g.append b is).code c) :
    i ∈ g.code c ∨ i ∈ is := by
  rcases eq_or_ne c b with rfl | hne
  · rcases Nat.lt_or_ge c g.size with hc | hc
    · rw [code_append_self g hc] at h
      exact List.mem_append.1 h
    · rw [code_of_size_le _ (by rwa [size_append])] at h
      cases h
  · rw [code_append_ne g hne] at h
    exact .inl h

/-- The first of the appended instructions. -/
theorem at?_append_endOf {b : Nat} (h : b < g.size) (i : ι) (is : List ι) :
    (g.append b (i :: is)).at? (g.endOf b) = some i := by
  simp [at?, endOf, code_append_self g h]

theorem endOf_append {b : Nat} (h : b < g.size) (is : List ι) :
    (g.append b is).endOf b = ⟨b, (g.endOf b).idx + is.length⟩ := by
  simp [endOf, code_append_self g h]

end Laws

/-- Every instruction of `g` is at its place in `g'`. -/
def Sub (g g' : Cfg κ ι) : Prop := ∀ p i, g.at? p = some i → g'.at? p = some i

theorem Sub.trans {g₁ g₂ g₃ : Cfg κ ι} (h : g₁.Sub g₂) (k : g₂.Sub g₃) : g₁.Sub g₃ :=
  fun p i hi => k p i (h p i hi)

/-! ## Growing -/

/-- From `g` with the cursor in block `c`, appending led to `g'` with the cursor
in block `c'`: no instruction was lost, the blocks of `g` other than `c` are as
they were, and the cursor is where it was or in a new block. -/
structure Grows (g : Cfg κ ι) (c : Nat) (g' : Cfg κ ι) (c' : Nat) : Prop where
  size_le : g.size ≤ g'.size
  code_prefix : ∀ b, g.code b <+: g'.code b
  frame : ∀ b, b < g.size → b ≠ c → g'.code b = g.code b
  owner : ∀ b, b < g.size → g'.owner? b = g.owner? b
  cursor : c' = c ∨ g.size ≤ c'
  cursor_lt : c' < g'.size

namespace Grows

variable {g g₁ g₂ : Cfg κ ι} {c c₁ c₂ : Nat}

theorem refl (h : c < g.size) : Grows g c g c :=
  ⟨le_rfl, fun _ => List.prefix_rfl, fun _ _ _ => rfl, fun _ _ => rfl, .inl rfl, h⟩

theorem ne_cursor (h : Grows g c g₁ c₁) {b : Nat} (hb : b < g.size) (hc : b ≠ c) : b ≠ c₁ := by
  rcases h.cursor with e | e
  · exact e ▸ hc
  · exact Nat.ne_of_lt (hb.trans_le e)

theorem trans (h : Grows g c g₁ c₁) (k : Grows g₁ c₁ g₂ c₂) : Grows g c g₂ c₂ where
  size_le := h.size_le.trans k.size_le
  code_prefix b := (h.code_prefix b).trans (k.code_prefix b)
  frame b hb hc := by
    rw [k.frame b (hb.trans_le h.size_le) (h.ne_cursor hb hc), h.frame b hb hc]
  owner b hb := (k.owner b (hb.trans_le h.size_le)).trans (h.owner b hb)
  cursor := by
    rcases k.cursor with rfl | e
    · exact h.cursor
    · exact .inr (h.size_le.trans e)
  cursor_lt := k.cursor_lt

theorem append (h : c < g.size) (is : List ι) : Grows g c (g.append c is) c where
  size_le := by simp
  code_prefix b := by
    rcases eq_or_ne b c with rfl | hb
    · rw [code_append_self g h]
      exact List.prefix_append _ _
    · exact (code_append_ne g hb is).symm ▸ List.prefix_rfl
  frame b _ hb := code_append_ne g hb is
  owner b _ := owner?_append g c b is
  cursor := .inl rfl
  cursor_lt := by simpa using h

/-- A new block; the cursor stays. -/
theorem fresh (h : c < g.size) (o : κ) : Grows g c (g.fresh o) c where
  size_le := by simp
  code_prefix b := by simp
  frame b _ _ := code_fresh g o b
  owner _ hb := owner?_fresh_of_lt g o hb
  cursor := .inl rfl
  cursor_lt := by
    rw [size_fresh]
    exact Nat.lt_succ_of_lt h

/-- The cursor moves to a block made since `g`. -/
theorem move (h : Grows g c g₁ c₁) {b : Nat} (new : g.size ≤ b) (hb : b < g₁.size) :
    Grows g c g₁ b where
  size_le := h.size_le
  code_prefix := h.code_prefix
  frame := h.frame
  owner := h.owner
  cursor := .inr new
  cursor_lt := hb

theorem sub (h : Grows g c g₁ c₁) : g.Sub g₁ := by
  intro p i hi
  obtain ⟨t, ht⟩ := h.code_prefix p.blk
  unfold Cfg.at? at hi ⊢
  rw [← ht, List.getElem?_append_left (List.getElem?_eq_some_iff.1 hi).1, hi]

end Grows

end Cfg

/-! ## Control flow -/

/-- How control leaves an instruction: on to the next one, to a block, to one
of two blocks, or not at all. -/
inductive Flow (ε : Type) where
  | op (e : ε)
  | jump (b : Nat)
  | branch (yes : ε) (t : Nat) (no : ε) (f : Nat)
  | stop
deriving DecidableEq, Repr

namespace Flow

/-- The blocks control can go to. -/
def targets : Flow ε → List Nat
  | op _ | stop => []
  | jump b => [b]
  | branch _ t _ f => [t, f]

/-- The instruction ends its block. -/
def ends : Flow ε → Bool
  | op _ => false
  | jump _ | branch _ _ _ _ | stop => true

theorem targets_of_not_ends {f : Flow ε} (h : f.ends = false) : f.targets = [] := by
  cases f <;> simp_all [ends, targets]

end Flow

section Flow

variable (flow : ι → Flow ε)

/-- One step of control through a graph. -/
inductive Step (g : Cfg κ ι) : Pos → Option ε → Pos → Prop
  | op {p : Pos} {i : ι} {e : ε} :
      g.at? p = some i → flow i = .op e → Step g p (some e) ⟨p.blk, p.idx + 1⟩
  | jump {p : Pos} {i : ι} {b : Nat} :
      g.at? p = some i → flow i = .jump b → Step g p none ⟨b, 0⟩
  | yes {p : Pos} {i : ι} {y n : ε} {t f : Nat} :
      g.at? p = some i → flow i = .branch y t n f → Step g p (some y) ⟨t, 0⟩
  | no {p : Pos} {i : ι} {y n : ε} {t f : Nat} :
      g.at? p = some i → flow i = .branch y t n f → Step g p (some n) ⟨f, 0⟩

/-- Some instruction of block `a` can transfer control to block `b`. -/
def Edge (g : Cfg κ ι) (a b : Nat) : Prop :=
  ∃ i ∈ g.code a, b ∈ (flow i).targets

/-- No instruction ends the block yet. -/
def Unfinished (code : List ι) : Prop :=
  ∀ i ∈ code, (flow i).ends = false

/-- Exactly one instruction ends the block, and it is the last. -/
def Finished (code : List ι) : Prop :=
  ∃ init last, code = init ++ [last] ∧ Unfinished flow init ∧ (flow last).ends = true

/-- The blocks from number `n` on are those of one function under construction:
the blocks in `open_` have no end yet, every other one is finished, and control
stays among them. -/
structure Tidy (n : Nat) (g : Cfg κ ι) (open_ : List Nat) : Prop where
  le : n ≤ g.size
  unfinished : ∀ b ∈ open_, n ≤ b ∧ b < g.size ∧ Unfinished flow (g.code b)
  finished : ∀ b, n ≤ b → b < g.size → b ∉ open_ → Finished flow (g.code b)
  targets : ∀ a b, n ≤ a → Edge flow g a b → n ≤ b ∧ b < g.size

variable {flow} {g : Cfg κ ι} {n c : Nat} {open_ : List Nat}

theorem edge_fresh (o : κ) {a b : Nat} : Edge flow (g.fresh o) a b ↔ Edge flow g a b := by
  simp [Edge]

variable (flow) in
theorem edge_append (h : c < g.size) (is : List ι) {a b : Nat} :
    Edge flow (g.append c is) a b ↔
      Edge flow g a b ∨ a = c ∧ ∃ i ∈ is, b ∈ (flow i).targets := by
  unfold Edge
  rcases eq_or_ne a c with rfl | ha
  · simp [Cfg.code_append_self g h, or_and_right, exists_or]
  · simp [Cfg.code_append_ne g ha, ha]

theorem edge_append_straight (h : c < g.size) {is : List ι} (ops : Unfinished flow is) {a b : Nat} :
    Edge flow (g.append c is) a b ↔ Edge flow g a b := by
  rw [edge_append flow h, or_iff_left]
  rintro ⟨-, i, hi, hb⟩
  rw [Flow.targets_of_not_ends (ops i hi)] at hb
  cases hb

namespace Tidy

theorem congr (h : Tidy flow n g open_) {open' : List Nat} (same : ∀ b, b ∈ open' ↔ b ∈ open_) :
    Tidy flow n g open' where
  le := h.le
  unfinished b hb := h.unfinished b ((same b).1 hb)
  finished b hn hb ho := h.finished b hn hb (mt (same b).2 ho)
  targets := h.targets

/-- The blocks control can reach are those of the function. -/
theorem reaches (h : Tidy flow n g open_) {a b : Nat} (ha : n ≤ a ∧ a < g.size)
    (hab : Relation.ReflTransGen (Edge flow g) a b) : n ≤ b ∧ b < g.size := by
  induction hab with
  | refl => exact ha
  | tail _ hedge ih => exact h.targets _ _ ih.1 hedge

theorem fresh (h : Tidy flow n g open_) (o : κ) : Tidy flow n (g.fresh o) (g.size :: open_) where
  le := by
    rw [Cfg.size_fresh]
    exact Nat.le_succ_of_le h.le
  unfinished b hb := by
    rw [Cfg.size_fresh, Cfg.code_fresh]
    rcases List.mem_cons.1 hb with rfl | hb
    · rw [Cfg.code_of_size_le g le_rfl]
      exact ⟨h.le, Nat.lt_succ_self _, by simp [Unfinished]⟩
    · obtain ⟨hn, hlt, hu⟩ := h.unfinished b hb
      exact ⟨hn, Nat.lt_succ_of_lt hlt, hu⟩
  finished b hn hb ho := by
    rw [Cfg.code_fresh]
    simp only [Cfg.size_fresh, List.mem_cons, not_or] at hb ho
    exact h.finished b hn (Nat.lt_of_le_of_ne (Nat.le_of_lt_succ hb) ho.1) ho.2
  targets a b ha hab := by
    obtain ⟨hn, hb⟩ := h.targets a b ha ((edge_fresh o).1 hab)
    rw [Cfg.size_fresh]
    exact ⟨hn, Nat.lt_succ_of_lt hb⟩

/-- Straight-line code in an open block. -/
theorem append (h : Tidy flow n g open_) (hc : c ∈ open_) {is : List ι}
    (ops : Unfinished flow is) : Tidy flow n (g.append c is) open_ where
  le := by simpa using h.le
  unfinished b hb := by
    obtain ⟨hn, hlt, hu⟩ := h.unfinished b hb
    refine ⟨hn, by simpa using hlt, ?_⟩
    rcases eq_or_ne b c with rfl | hbc
    · rw [Cfg.code_append_self g hlt]
      intro i hi
      exact (List.mem_append.1 hi).elim (hu i) (ops i)
    · rwa [Cfg.code_append_ne g hbc]
  finished b hn hb ho := by
    rw [Cfg.code_append_ne g (ne_of_mem_of_not_mem hc ho).symm]
    exact h.finished b hn (by simpa using hb) ho
  targets a b ha hab := by
    rw [Cfg.size_append]
    exact h.targets a b ha
      ((edge_append_straight (h.unfinished c hc).2.1 ops).1 hab)

/-- An open block is ended. -/
theorem close (h : Tidy flow n g (c :: open_)) (hc : c ∉ open_) {i : ι}
    (ends : (flow i).ends = true) (inside : ∀ b ∈ (flow i).targets, n ≤ b ∧ b < g.size) :
    Tidy flow n (g.append c [i]) open_ where
  le := by simpa using h.le
  unfinished b hb := by
    obtain ⟨hn, hlt, hu⟩ := h.unfinished b (List.mem_cons_of_mem _ hb)
    rw [Cfg.code_append_ne g (ne_of_mem_of_not_mem hb hc)]
    exact ⟨hn, by simpa using hlt, hu⟩
  finished b hn hb ho := by
    obtain ⟨-, hlt, hu⟩ := h.unfinished c List.mem_cons_self
    rw [Cfg.size_append] at hb
    rcases eq_or_ne b c with rfl | hbc
    · rw [Cfg.code_append_self g hlt]
      exact ⟨_, i, rfl, hu, ends⟩
    · rw [Cfg.code_append_ne g hbc]
      exact h.finished b hn hb (by simp [hbc, ho])
  targets a b ha hab := by
    rw [Cfg.size_append]
    rcases (edge_append _ (h.unfinished c List.mem_cons_self).2.1 [i]).1 hab with hab | ⟨-, hab⟩
    · exact h.targets a b ha hab
    · obtain ⟨j, hj, hb⟩ := hab
      rw [List.mem_singleton.1 hj] at hb
      exact inside b hb

end Tidy

end Flow

end CodeGraph
