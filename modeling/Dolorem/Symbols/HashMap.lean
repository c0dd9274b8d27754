import Mathlib.Algebra.Group.Nat.Defs
import Dolorem.Lib.Probing

/-!
# The hash map

`hashmap.c`: a table with linear probing over at most eight slots that is doubled
when it is half full or when there is no place for a key. Doubling it inserts
every entry again, which may double it once more, so inserting is given a bound
on how deep this may go, and `none` is an insertion that has not returned by then.
-/

namespace Dolorem.Symbols

/-- `hashmap_map`. A slot holds a key and data if it is in use. -/
structure HashMap (α : Type) where
  tableSize : Nat
  pos : 0 < tableSize
  size : Nat
  data : Probing.Slots String α tableSize

namespace HashMap

variable {α : Type}

/-- `INITIAL_SIZE`. -/
def initialSize : Nat := 256

/-- `MAX_CHAIN_LENGTH`. -/
def maxChainLength : Nat := 8

/-- `hashmap_new`. -/
def new : HashMap α := ⟨initialSize, by decide, 0, fun _ => none⟩

section

variable (hash : String → Nat)

/-- `hashmap_hash_int`. -/
def hashInt (m : HashMap α) (key : String) : Fin m.tableSize :=
  ⟨hash key % m.tableSize, Nat.mod_lt _ m.pos⟩

/-- `hashmap_hash`, where `none` is `MAP_FULL`. -/
def slotOf (m : HashMap α) (key : String) : Option (Fin m.tableSize) :=
  if m.tableSize / 2 ≤ m.size then none
  else Probing.place m.data key maxChainLength (m.hashInt hash key)

/-- The new table of `hashmap_rehash`. -/
def doubled (m : HashMap α) : HashMap α :=
  ⟨2 * m.tableSize, Nat.mul_pos Nat.two_pos m.pos, 0, fun _ => none⟩

/-- One round of the loop in `hashmap_rehash`. -/
def reinsert (put : String → α → HashMap α → Option (HashMap α)) (old : HashMap α)
    (m : HashMap α) (i : Fin old.tableSize) : Option (HashMap α) :=
  match old.data i with
  | none => some m
  | some (key, data) => put key data m

/-- `hashmap_rehash`, with `put` for its calls of `hashmap_put`. The size is an `int`: once it
cannot be doubled, `calloc` is asked for a negative number of elements and fails. -/
def rehash (put : String → α → HashMap α → Option (HashMap α)) (m : HashMap α) :
    Option (HashMap α) :=
  if 2 * m.tableSize < 2 ^ 31 then
    (List.finRange m.tableSize).foldlM (reinsert put m) m.doubled
  else none

/-- The end of `hashmap_put`. The size also counts values that replace others. -/
def store (m : HashMap α) (i : Fin m.tableSize) (key : String) (value : α) : HashMap α :=
  { m with data := Function.update m.data i (some (key, value)), size := m.size + 1 }

/-- `hashmap_put`, with at most `n` calls of `hashmap_rehash` within each other or in a row. -/
def put : Nat → String → α → HashMap α → Option (HashMap α)
  | 0, key, value, m => do some (m.store (← m.slotOf hash key) key value)
  | n + 1, key, value, m =>
    match m.slotOf hash key with
    | some i => some (m.store i key value)
    | none => do put n key value (← rehash (put n) m)

/-- `hashmap_get`, where `none` is `MAP_MISSING`. -/
def get (m : HashMap α) (key : String) : Option α :=
  Probing.get m.data key maxChainLength (m.hashInt hash key)

/-! ## Insertions -/

/-- Every entry is reached from the slot its key is hashed to, over at most seven slots that
are in use for other keys. -/
def Placed (m : HashMap α) : Prop :=
  Probing.Placed maxChainLength (m.hashInt hash) m.data

end

/-- The name is stored with this value. -/
def Holds (m : HashMap α) (key : String) (value : α) : Prop :=
  Probing.Holds m.data key value

/-- Everything that is stored, slot by slot. -/
def entries (m : HashMap α) : List (String × α) :=
  Probing.entries m.data

variable {hash : String → Nat} {m m' : HashMap α} {key key' : String} {value w : α} {n : Nat}

theorem placed_new : (new : HashMap α).Placed hash := Probing.placed_empty

theorem not_holds_doubled : ¬ m.doubled.Holds key value := fun ⟨_, h⟩ => nomatch h

/-- A place that is found is one within the chain. -/
theorem place_of_slotOf {i : Fin m.tableSize} (h : m.slotOf hash key = some i) :
    Probing.place m.data key maxChainLength (m.hashInt hash key) = some i := by
  unfold slotOf at h
  split_ifs at h
  exact h

/-- What an insertion does to a table whose entries are all in their places. -/
structure Inserted (hash : String → Nat) (key : String) (value : α) (m m' : HashMap α) : Prop where
  placed : m'.Placed hash
  holds : ∀ key' w, m'.Holds key' w ↔ (key' = key ∧ w = value) ∨ (key' ≠ key ∧ m.Holds key' w)

theorem store_inserted (hm : m.Placed hash) {i : Fin m.tableSize} (h : m.slotOf hash key = some i)
    (value : α) : Inserted hash key value m (m.store i key value) where
  placed := Probing.Placed.update hm (place_of_slotOf h) value
  holds _ _ := Probing.Placed.holds_update hm (place_of_slotOf h)

/-- Inserting what an old table holds into a table that holds a part of it. -/
theorem reinsert_all {put : String → α → HashMap α → Option (HashMap α)}
    (hput : ∀ {key value m m'}, m.Placed hash → put key value m = some m' →
      Inserted hash key value m m')
    {old : HashMap α} (hold : old.Placed hash) (is : List (Fin old.tableSize))
    (hm : m.Placed hash) (hsub : ∀ key value, m.Holds key value → old.Holds key value)
    (hrun : is.foldlM (reinsert put old) m = some m') :
    m'.Placed hash ∧ ∀ key value, m'.Holds key value ↔
      m.Holds key value ∨ ∃ i ∈ is, old.data i = some (key, value) := by
  induction is generalizing m with
  | nil =>
    cases hrun
    exact ⟨hm, fun key value => ⟨.inl, fun h => h.resolve_right fun ⟨_, hi, _⟩ => nomatch hi⟩⟩
  | cons i is ih =>
    obtain ⟨m₁, hstep, hrun⟩ := Option.bind_eq_some_iff.1 hrun
    unfold reinsert at hstep
    cases hi : old.data i with
    | none =>
      rw [hi] at hstep
      cases hstep
      obtain ⟨hm', hholds⟩ := ih hm hsub hrun
      refine ⟨hm', fun key value => ?_⟩
      rw [hholds, List.exists_mem_cons_iff, hi]
      exact or_congr_right (Iff.symm (or_iff_right fun h => nomatch h))
    | some e =>
      obtain ⟨k, v⟩ := e
      rw [hi] at hstep
      have hins := hput hm hstep
      have hk : ∀ {w}, old.Holds k w → w = v := fun hw => hold.value_unique hw ⟨i, hi⟩
      have hsub' : ∀ key value, m₁.Holds key value → old.Holds key value := by
        intro key value h
        rcases (hins.holds key value).1 h with ⟨rfl, rfl⟩ | ⟨-, h⟩
        · exact ⟨i, hi⟩
        · exact hsub _ _ h
      obtain ⟨hm', hholds⟩ := ih hins.placed hsub' hrun
      refine ⟨hm', fun key value => ?_⟩
      rw [hholds, hins.holds, List.exists_mem_cons_iff, hi]
      constructor
      · rintro ((⟨rfl, rfl⟩ | ⟨-, h⟩) | h)
        · exact .inr (.inl rfl)
        · exact .inl h
        · exact .inr (.inr h)
      · rintro (h | h | h)
        · rcases eq_or_ne key k with rfl | hne
          · exact .inl (.inl ⟨rfl, hk (hsub _ _ h)⟩)
          · exact .inl (.inr ⟨hne, h⟩)
        · cases h
          exact .inl (.inl ⟨rfl, rfl⟩)
        · exact .inr h

/-- Doubling the table keeps every entry. -/
theorem rehash_holds {put : String → α → HashMap α → Option (HashMap α)}
    (hput : ∀ {key value m m'}, m.Placed hash → put key value m = some m' →
      Inserted hash key value m m')
    (hm : m.Placed hash) (hrun : rehash put m = some m') :
    m'.Placed hash ∧ ∀ key value, m'.Holds key value ↔ m.Holds key value := by
  unfold rehash at hrun
  split_ifs at hrun
  have hempty : m.doubled.Placed hash := Probing.placed_empty
  obtain ⟨hm', hholds⟩ := reinsert_all hput hm _ hempty
    (fun _ _ h => absurd h not_holds_doubled) hrun
  refine ⟨hm', fun key value => (hholds key value).trans ?_⟩
  constructor
  · rintro (h | ⟨i, -, hi⟩)
    · exact absurd h not_holds_doubled
    · exact ⟨i, hi⟩
  · rintro ⟨i, hi⟩
    exact .inr ⟨i, List.mem_finRange i, hi⟩

/-- `hashmap_put` stores the value and leaves the other names alone. -/
theorem put_inserted (hm : m.Placed hash) (hrun : m.put hash n key value = some m') :
    Inserted hash key value m m' := by
  induction n generalizing key value m m' with
  | zero =>
    obtain ⟨i, hi, hrun⟩ := Option.bind_eq_some_iff.1 hrun
    cases hrun
    exact store_inserted hm hi value
  | succ n ih =>
    unfold put at hrun
    cases hi : m.slotOf hash key with
    | some i =>
      rw [hi] at hrun
      cases hrun
      exact store_inserted hm hi value
    | none =>
      rw [hi] at hrun
      obtain ⟨m₁, hrehash, hrun⟩ := Option.bind_eq_some_iff.1 hrun
      obtain ⟨hm₁, hsame⟩ := rehash_holds ih hm hrehash
      have hins := ih hm₁ hrun
      refine ⟨hins.placed, fun key' w => ?_⟩
      rw [hins.holds, hsame]

/-- A rehash loses, duplicates or alters no entry. -/
theorem rehash_perm (hm : m.Placed hash) (hrun : rehash (put hash n) m = some m') :
    m'.Placed hash ∧ m'.entries.Perm m.entries := by
  obtain ⟨hm', hsame⟩ := rehash_holds put_inserted hm hrun
  exact ⟨hm', hm'.entries_perm hm hsame⟩

/-- `hashmap_get` finds what is stored, and nothing else. -/
theorem get_eq_some (hm : m.Placed hash) : m.get hash key = some value ↔ m.Holds key value :=
  Probing.Placed.get_eq_some hm

/-- A lookup after an insertion. -/
theorem Inserted.get (h : Inserted hash key value m m') (hm : m.Placed hash) :
    m'.get hash = Function.update (m.get hash) key (some value) := by
  funext key'
  refine Option.ext fun w => ?_
  rw [get_eq_some h.placed, h.holds]
  rcases eq_or_ne key' key with rfl | hne
  · rw [Function.update_self, Option.some_inj, eq_comm (a := value)]
    exact ⟨fun h => (h.resolve_right fun h => h.1 rfl).2, fun h => .inl ⟨rfl, h⟩⟩
  · rw [Function.update_of_ne hne, get_eq_some hm]
    exact ⟨fun h => (h.resolve_left fun h => hne h.1).2, fun h => .inr ⟨hne, h⟩⟩

end HashMap

end Dolorem.Symbols
