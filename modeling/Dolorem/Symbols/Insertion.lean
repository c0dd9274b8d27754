import Dolorem.Lib.Clusters
import Dolorem.Symbols.HashMap
import Dolorem.Symbols.Hash

/-!
# When inserting a name ends

`hashmap_put` doubles the table until there is a place for the name. That comes
to an end if the names are spread in the largest table there can be
(`insertions_end`), and it does not if nine of them have one hash
(`equal_hashes_never_inserted`).
-/

namespace Dolorem.Symbols

namespace HashMap

/-- The number of slots of the largest table whose size is an `int`. -/
def maxSize : Nat := 2 ^ 30

section

variable {α : Type} (hash : String → Nat)

/-- Where a name belongs in the largest table. -/
def lastHome (key : String) : Fin maxSize := ⟨hash key % maxSize, Nat.mod_lt _ (by decide)⟩

/-- The largest table has room for these names, and no eight or more of its slots in a row are home
to more of them than they are. -/
def Uncrowded (names : List String) : Prop :=
  names.length ≤ maxSize / 2 ∧ Probing.Spread maxChainLength (lastHome hash) names

/-- The names are inserted one after the other: each call returns after some number of rehashes,
and the size of the table stays an `int`. -/
def InsertsAll : HashMap α → List (String × α) → Prop
  | m, [] => m.tableSize < 2 ^ 31
  | m, (key, value) :: rest => m.tableSize < 2 ^ 31 ∧
      ∃ n m', m.put hash n key value = some m' ∧ InsertsAll m' rest

/-- At each call there is a place for the name in the table as it is, or the names up to this one
are not crowded. -/
def RoomyAlong : HashMap α → List String → List (String × α) → Prop
  | _, _, [] => True
  | m, before, (key, value) :: rest =>
    (m.slotOf hash key ≠ none ∨ Uncrowded hash (key :: before)) ∧
      ∀ n m', m.put hash n key value = some m' → RoomyAlong m' (key :: before) rest

end

/-! ## More rehashes -/

section

variable {α : Type} {hash : String → Nat} {m m' : HashMap α} {key : String} {value : α}
variable {n n' q : Nat} {names : List String}

theorem reinsert_mono {put put' : String → α → HashMap α → Option (HashMap α)}
    (hput : ∀ {key value m m'}, put key value m = some m' → put' key value m = some m')
    {old : HashMap α} {is : List (Fin old.tableSize)}
    (h : is.foldlM (reinsert put old) m = some m') :
    is.foldlM (reinsert put' old) m = some m' := by
  induction is generalizing m with
  | nil => exact h
  | cons i is ih =>
    obtain ⟨m₁, hstep, hrun⟩ := Option.bind_eq_some_iff.1 h
    refine Option.bind_eq_some_iff.2 ⟨m₁, ?_, ih hrun⟩
    unfold reinsert at hstep ⊢
    cases hi : old.data i with
    | none =>
      rw [hi] at hstep
      exact hstep
    | some e =>
      rw [hi] at hstep
      exact hput hstep

theorem rehash_mono {put put' : String → α → HashMap α → Option (HashMap α)}
    (hput : ∀ {key value m m'}, put key value m = some m' → put' key value m = some m')
    (h : rehash put m = some m') : rehash put' m = some m' := by
  unfold rehash at h ⊢
  split_ifs at h ⊢
  exact reinsert_mono hput h

/-- A call that has returned does so with a higher bound. -/
theorem put_mono (h : m.put hash n key value = some m') (hn : n ≤ n') :
    m.put hash n' key value = some m' := by
  induction n generalizing n' m key value m' with
  | zero =>
    obtain ⟨i, hi, h⟩ := Option.bind_eq_some_iff.1 h
    cases n' with
    | zero => exact Option.bind_eq_some_iff.2 ⟨i, hi, h⟩
    | succ n' =>
      rw [put, hi]
      exact h
  | succ n ih =>
    obtain ⟨n', rfl⟩ : ∃ k, n' = k + 1 := ⟨n' - 1, by omega⟩
    unfold put at h ⊢
    cases hi : m.slotOf hash key with
    | some i =>
      rw [hi] at h
      exact h
    | none =>
      rw [hi] at h
      obtain ⟨m₁, hrehash, hrun⟩ := Option.bind_eq_some_iff.1 h
      refine Option.bind_eq_some_iff.2 ⟨m₁, ?_, ih hrun (by omega)⟩
      exact rehash_mono (fun h => ih h (by omega)) hrehash

/-! ## Tables that can still be doubled -/

/-- The size is the number of entries. -/
def Counted (m : HashMap α) : Prop := m.size = m.entries.length

/-- A table with some of the names, doubled at least `q` times from a single slot on. -/
structure Ready (hash : String → Nat) (names : List String) (q : Nat) (m : HashMap α) : Prop where
  placed : m.Placed hash
  counted : m.Counted
  held : ∀ key value, m.Holds key value → key ∈ names
  doubled : ∃ p, q ≤ p ∧ p ≤ 30 ∧ m.tableSize = 2 ^ p

theorem counted_doubled : m.doubled.Counted := by
  have hnone : m.doubled.entries = [] :=
    List.filterMap_eq_nil_iff.2 fun _ _ => rfl
  rw [Counted, hnone]
  rfl

/-- A name that is not there is stored in a free slot. -/
theorem store_counted (hm : m.Counted) {i : Fin m.tableSize} (h : m.slotOf hash key = some i)
    (hnew : ∀ w, ¬ m.Holds key w) (value : α) : (m.store i key value).Counted := by
  have hfree : m.data i = none :=
    (Probing.place_spec (place_of_slotOf h)).resolve_right fun ⟨w, hw⟩ => hnew w ⟨i, hw⟩
  have hperm := Probing.entries_perm_of_free hfree (key, value)
  exact (congrArg Nat.succ hm).trans hperm.length_eq.symm

theorem Ready.store (h : Ready hash names q m) {i : Fin m.tableSize}
    (hi : m.slotOf hash key = some i) (hkey : key ∈ names) (hnew : ∀ w, ¬ m.Holds key w)
    (value : α) : Ready hash names q (m.store i key value) where
  placed := (store_inserted h.placed hi value).placed
  counted := store_counted h.counted hi hnew value
  held key' w hw := by
    rcases ((store_inserted h.placed hi value).holds key' w).1 hw with ⟨rfl, -⟩ | ⟨-, hw⟩
    · exact hkey
    · exact h.held key' w hw
  doubled := h.doubled

theorem Ready.mono (h : Ready hash names q m) {q' : Nat} (hq : q' ≤ q) :
    Ready hash names q' m := by
  obtain ⟨p, hp, hle, hsize⟩ := h.doubled
  exact ⟨h.placed, h.counted, h.held, p, hq.trans hp, hle, hsize⟩

theorem ready_doubled (hsize : m.tableSize = 2 ^ q) (hq : q < 30) :
    Ready hash names (q + 1) m.doubled where
  placed := Probing.placed_empty
  counted := counted_doubled
  held _ _ hw := absurd hw not_holds_doubled
  doubled := ⟨q + 1, Nat.le_refl _, hq, (congrArg (2 * ·) hsize).trans (Nat.pow_succ').symm⟩

/-- The names in the table and one more. -/
theorem Ready.length_lt (h : Ready hash names q m) (hkey : key ∈ names)
    (hnew : ∀ w, ¬ m.Holds key w) : m.size < names.length := by
  have hnodup : (m.entries.map Prod.fst).Nodup := by
    refine List.Nodup.map_on (fun e he e' he' heq => ?_) h.placed.nodup_entries
    have he₁ : m.Holds e.1 e.2 := Probing.mem_entries.1 he
    have he₂ : m.Holds e.1 e'.2 := heq ▸ Probing.mem_entries.1 he'
    exact Prod.ext heq (h.placed.value_unique he₁ he₂)
  have hmem : key ∉ m.entries.map Prod.fst := by
    intro hmem
    obtain ⟨e, he, rfl⟩ := List.mem_map.1 hmem
    exact hnew e.2 (Probing.mem_entries.1 he)
  have hsub : key :: m.entries.map Prod.fst ⊆ names := by
    refine List.cons_subset.2 ⟨hkey, fun key' hkey' => ?_⟩
    obtain ⟨e, he, rfl⟩ := List.mem_map.1 hkey'
    exact h.held e.1 e.2 (Probing.mem_entries.1 he)
  have hle := (List.subperm_of_subset (List.nodup_cons.2 ⟨hmem, hnodup⟩) hsub).length_le
  rw [List.length_cons, List.length_map, ← h.counted] at hle
  exact hle

/-- In the largest table there is a place. -/
theorem Ready.slotOf_last (h : Ready hash names 30 m) (hnames : Uncrowded hash names)
    (hkey : key ∈ names) (hnew : ∀ w, ¬ m.Holds key w) : ∃ i, m.slotOf hash key = some i := by
  have hlt := h.length_lt hkey hnew
  have hcounted : m.size = (Probing.entries m.data).length := h.counted
  obtain ⟨p, hp, hle, hsize⟩ := h.doubled
  obtain rfl : p = 30 := Nat.le_antisymm hle hp
  obtain ⟨hlength, hspread⟩ := hnames
  have hplaced := h.placed
  have hheld := h.held
  obtain ⟨tableSize, pos, size, data⟩ := m
  subst hsize
  dsimp only at hlt hcounted
  have hroom : ¬ 2 ^ 30 / 2 ≤ size := Nat.not_le.2 (Nat.lt_of_lt_of_le hlt hlength)
  obtain ⟨f, hf⟩ := Probing.exists_free (t := data) (by omega)
  rw [slotOf, if_neg hroom]
  exact Probing.Placed.place_of_spread hplaced (by decide) hspread hheld hkey hf

/-- By induction on the slots that are left: the entries of an old table can be inserted into a
larger one, if inserting a name into one of that size ends. -/
theorem reinsert_ends {old : HashMap α} (hold : old.Placed hash)
    (hnames : ∀ key value, old.Holds key value → key ∈ names)
    (hput : ∀ {key value} {m : HashMap α}, Ready hash names q m → key ∈ names →
      (∀ w, ¬ m.Holds key w) → ∃ n m', m.put hash n key value = some m' ∧ Ready hash names q m')
    (is : List (Fin old.tableSize)) (his : is.Nodup) (hm : Ready hash names q m)
    (hsub : ∀ key value, m.Holds key value → ∃ i ∉ is, old.data i = some (key, value)) :
    ∃ n m', is.foldlM (reinsert (put hash n) old) m = some m' ∧ Ready hash names q m' := by
  induction is generalizing m with
  | nil => exact ⟨0, m, rfl, hm⟩
  | cons i is ih =>
    obtain ⟨hi, his⟩ := List.nodup_cons.1 his
    have hskip : ∀ key value, m.Holds key value →
        ∃ j ∉ is, old.data j = some (key, value) := by
      intro key value hw
      obtain ⟨j, hj, hdata⟩ := hsub key value hw
      exact ⟨j, fun hmem => hj (List.mem_cons_of_mem i hmem), hdata⟩
    cases hdata : old.data i with
    | none =>
      obtain ⟨n, m', hrun, hready⟩ := ih his hm hskip
      refine ⟨n, m', Option.bind_eq_some_iff.2 ⟨m, ?_, hrun⟩, hready⟩
      unfold reinsert
      rw [hdata]
    | some e =>
      obtain ⟨key, value⟩ := e
      have hnew : ∀ w, ¬ m.Holds key w := by
        intro w hw
        obtain ⟨j, hj, hjdata⟩ := hsub key w hw
        exact hj (hold.slot_unique hjdata hdata ▸ List.mem_cons_self ..)
      obtain ⟨n₁, m₁, hfirst, hready₁⟩ := hput hm (hnames key value ⟨i, hdata⟩) hnew
      have hsub₁ : ∀ key' w, m₁.Holds key' w → ∃ j ∉ is, old.data j = some (key', w) := by
        intro key' w hw
        rcases ((put_inserted hm.placed hfirst).holds key' w).1 hw with ⟨rfl, rfl⟩ | ⟨-, hw⟩
        · exact ⟨i, hi, hdata⟩
        · exact hskip key' w hw
      obtain ⟨n₂, m', hrest, hready⟩ := ih his hready₁ hsub₁
      refine ⟨max n₁ n₂, m', Option.bind_eq_some_iff.2 ⟨m₁, ?_, ?_⟩, hready⟩
      · unfold reinsert
        rw [hdata]
        exact put_mono hfirst (le_max_left ..)
      · exact reinsert_mono (fun h => put_mono h (le_max_right ..)) hrest

/-- By induction on how often the table can still be doubled: inserting a name ends. -/
theorem put_ends (hnames : Uncrowded hash names) (r : Nat) (hq : q + r = 30)
    (hm : Ready hash names q m) (hkey : key ∈ names) (hnew : ∀ w, ¬ m.Holds key w) :
    ∃ n m', m.put hash n key value = some m' ∧ Ready hash names q m' := by
  induction r generalizing q m key value with
  | zero =>
    obtain rfl : q = 30 := hq
    obtain ⟨i, hi⟩ := hm.slotOf_last hnames hkey hnew
    exact ⟨0, _, Option.bind_eq_some_iff.2 ⟨i, hi, rfl⟩, hm.store hi hkey hnew value⟩
  | succ r ih =>
    have hq' : q + 1 + r = 30 := by omega
    obtain ⟨p, hp, hle, hsize⟩ := hm.doubled
    rcases Nat.eq_or_lt_of_le hp with rfl | hlt
    · cases hi : m.slotOf hash key with
      | some i =>
        refine ⟨0, _, Option.bind_eq_some_iff.2 ⟨i, hi, rfl⟩, hm.store hi hkey hnew value⟩
      | none =>
        have hdouble : 2 * m.tableSize < 2 ^ 31 := by
          rw [hsize, ← Nat.pow_succ']
          exact Nat.pow_lt_pow_right (by decide) (by omega)
        obtain ⟨n₁, m₁, hrun, hready₁⟩ := reinsert_ends hm.placed hm.held (ih hq')
          (List.finRange m.tableSize) (List.nodup_finRange _) (ready_doubled hsize (by omega))
          (fun _ _ hw => absurd hw not_holds_doubled)
        have hrehash : rehash (put hash n₁) m = some m₁ := (if_pos hdouble).trans hrun
        obtain ⟨-, hsame⟩ := rehash_holds put_inserted hm.placed hrehash
        obtain ⟨n₂, m', hput, hready⟩ := ih hq' hready₁ hkey fun w hw => hnew w ((hsame _ _).1 hw)
        refine ⟨max n₁ n₂ + 1, m', ?_, hready.mono (Nat.le_succ q)⟩
        rw [put, hi]
        refine Option.bind_eq_some_iff.2 ⟨m₁, ?_, put_mono hput (le_max_right ..)⟩
        exact rehash_mono (fun h => put_mono h (le_max_left ..)) hrehash
    · have hm' : Ready hash names (q + 1) m := ⟨hm.placed, hm.counted, hm.held, p, hlt, hle, hsize⟩
      obtain ⟨n, m', hput, hready⟩ := ih hq' hm' hkey hnew
      exact ⟨n, m', hput, hready.mono (Nat.le_succ q)⟩

/-! ## Runs -/

theorem Ready.tableSize_lt (h : Ready hash names q m) : m.tableSize < 2 ^ 31 := by
  obtain ⟨p, -, hle, hsize⟩ := h.doubled
  rw [hsize]
  exact Nat.pow_lt_pow_right (by decide) (Nat.lt_succ_of_le hle)

theorem Ready.more (h : Ready hash names q m) (key : String) :
    Ready hash (key :: names) q m :=
  ⟨h.placed, h.counted, fun key' w hw => List.mem_cons_of_mem key (h.held key' w hw), h.doubled⟩

/-- By induction on the names. -/
theorem Ready.insertsAll {entries : List (String × α)} (h : Ready hash names 8 m)
    (hnodup : (entries.map Prod.fst).Nodup) (hnew : ∀ e ∈ entries, e.1 ∉ names)
    (hroomy : RoomyAlong hash m names entries) : InsertsAll hash m entries := by
  induction entries generalizing m names with
  | nil => exact h.tableSize_lt
  | cons e entries ih =>
    obtain ⟨key, value⟩ := e
    obtain ⟨hkey, hnodup⟩ := List.nodup_cons.1 hnodup
    obtain ⟨hroom, hrest⟩ := hroomy
    have habsent : ∀ w, ¬ m.Holds key w := fun w hw =>
      hnew (key, value) (List.mem_cons_self ..) (h.held key w hw)
    have hmem : key ∈ key :: names := List.mem_cons_self ..
    obtain ⟨n, m', hput, hready⟩ : ∃ n m', m.put hash n key value = some m' ∧
        Ready hash (key :: names) 8 m' := by
      rcases hroom with hplace | hspread
      · obtain ⟨i, hi⟩ := Option.ne_none_iff_exists'.1 hplace
        exact ⟨0, _, Option.bind_eq_some_iff.2 ⟨i, hi, rfl⟩, (h.more key).store hi hmem habsent value⟩
      · exact put_ends hspread 22 rfl (h.more key) hmem habsent
    refine ⟨h.tableSize_lt, n, m', hput, ih hready hnodup (fun e he hmem => ?_) (hrest n m' hput)⟩
    rcases List.mem_cons.1 hmem with heq | hmem
    · exact hkey (List.mem_map.2 ⟨e, he, heq⟩)
    · exact hnew e (List.mem_cons_of_mem _ he) hmem

theorem ready_new : Ready hash [] 8 (new : HashMap α) where
  placed := placed_new
  counted := (congrArg List.length (List.filterMap_eq_nil_iff.2 fun _ _ => rfl)).symm
  held _ _ := fun ⟨_, hi⟩ => nomatch hi
  doubled := ⟨8, Nat.le_refl 8, by decide, rfl⟩

/-- By induction on the names: all of them are stored at the end, with those that were there. -/
theorem InsertsAll.stored {entries : List (String × α)} (hm : m.Placed hash)
    (h : InsertsAll hash m entries) : ∃ m' : HashMap α, m'.Placed hash ∧
      ∀ key, (∃ w, m.Holds key w) ∨ key ∈ entries.map Prod.fst → ∃ w, m'.Holds key w := by
  induction entries generalizing m with
  | nil => exact ⟨m, hm, fun key hkey => hkey.resolve_right List.not_mem_nil⟩
  | cons e entries ih =>
    obtain ⟨name, value⟩ := e
    obtain ⟨-, n, m₁, hput, hrest⟩ := h
    have hins := put_inserted hm hput
    obtain ⟨m', hm', hstored⟩ := ih hins.placed hrest
    refine ⟨m', hm', fun key hkey => hstored key ?_⟩
    rcases eq_or_ne key name with rfl | hne
    · exact Or.inl ⟨value, (hins.holds key value).2 (Or.inl ⟨rfl, rfl⟩)⟩
    · rcases hkey with ⟨w, hw⟩ | hmem
      · exact Or.inl ⟨w, (hins.holds key w).2 (Or.inr ⟨hne, hw⟩)⟩
      · exact Or.inr ((List.mem_cons.1 hmem).resolve_left hne)

theorem Uncrowded.of_sublist {names' : List String} (h : Uncrowded hash names)
    (hs : names'.Sublist names) : Uncrowded hash names' :=
  ⟨hs.length_le.trans h.1, fun w l hl => (hs.countP_le (p := _)).trans (h.2 w l hl)⟩

/-- It is enough that all the names together are not crowded. -/
theorem RoomyAlong.of_uncrowded {entries : List (String × α)} {before : List String}
    (h : Uncrowded hash ((entries.map Prod.fst).reverse ++ before)) (m : HashMap α) :
    RoomyAlong hash m before entries := by
  induction entries generalizing before m with
  | nil => trivial
  | cons e entries ih =>
    rw [List.map_cons, List.reverse_cons, List.append_assoc, List.singleton_append] at h
    exact ⟨.inr (h.of_sublist (List.sublist_append_right _ _)), fun _ m' _ => ih h m'⟩

/-- No more than eight names with one hash are ever inserted. -/
theorem InsertsAll.length_le {entries : List (String × α)} (h : InsertsAll hash .new entries)
    {c : Nat} (hnodup : (entries.map Prod.fst).Nodup)
    (hhash : ∀ key ∈ entries.map Prod.fst, hash key = c) : entries.length ≤ maxChainLength := by
  obtain ⟨m', hm', hstored⟩ := h.stored placed_new
  have hhome : ∀ key ∈ entries.map Prod.fst,
      m'.hashInt hash key = ⟨c % m'.tableSize, Nat.mod_lt _ m'.pos⟩ :=
    fun key hkey => Fin.ext (congrArg (· % m'.tableSize) (hhash key hkey))
  have hle := Probing.Placed.length_le_of_home hm' hnodup
    (fun key hkey => hstored key (Or.inr hkey)) hhome
  rwa [List.length_map] at hle

end

end HashMap

open HashMap

/-- Inserting distinct names always ends, if for each of them there is a place in the table as it
is, or the names up to it are not crowded in the largest table. -/
theorem insertions_end {α : Type} (entries : List (String × α))
    (hnodup : (entries.map Prod.fst).Nodup) (hroomy : RoomyAlong hashOfString .new [] entries) :
    InsertsAll hashOfString .new entries :=
  ready_new.insertsAll hnodup (fun _ _ => List.not_mem_nil) hroomy

/-- Eight names with one hash, and one that belongs in the same slot of the first table. -/
def sharedSlot : List (String × Unit) :=
  ["variable", "qxdfajkg", "dhwzasdi", "rirrbmxn", "fnhsbqfs", "ylbqckyl", "mkxpcwgq", "qdkudmqq",
    "xi"].map fun name => (name, ())

/-- The ninth one is inserted into a table of twice the size. -/
theorem insertions_end_example : InsertsAll hashOfString .new sharedSlot := by
  have huncrowded : Uncrowded hashOfString ((sharedSlot.map Prod.fst).reverse ++ []) := by
    refine ⟨by decide, fun w l hl => ?_⟩
    rcases Nat.eq_or_lt_of_le hl with rfl | hlt
    · -- no eight slots in a row are home to the first name and to the ninth
      refine Nat.le_of_lt_succ (lt_of_le_of_ne List.countP_le_length fun hall => ?_)
      have hin := List.countP_eq_length.1 hall
      have hfirst := of_decide_eq_true (hin "variable" (by decide))
      have hninth := of_decide_eq_true (hin "xi" (by decide))
      have hhomes : lastHome hashOfString "variable" = ⟨1238580, by decide⟩ ∧
          lastHome hashOfString "xi" = ⟨192853812, by decide⟩ := by decide
      rw [hhomes.1, Probing.dist] at hfirst
      rw [hhomes.2, Probing.dist] at hninth
      simp only [maxSize, maxChainLength] at hfirst hninth
      omega
    · exact List.countP_le_length.trans (Nat.succ_le_of_lt hlt)
  exact insertions_end sharedSlot (by decide) (.of_uncrowded huncrowded .new)

/-- Nine names with one hash. -/
def equalHashes : List (String × Unit) :=
  ["variable", "qxdfajkg", "dhwzasdi", "rirrbmxn", "fnhsbqfs", "ylbqckyl", "mkxpcwgq", "qdkudmqq",
    "ecqtdqol"].map fun name => (name, ())

theorem equal_hashes_never_inserted : (equalHashes.map Prod.fst).Nodup ∧
    ¬ InsertsAll hashOfString .new equalHashes := by
  have hnodup : (equalHashes.map Prod.fst).Nodup := by decide
  have hhash : ∀ key ∈ equalHashes.map Prod.fst, hashOfString key = 1238580 := by decide
  exact ⟨hnodup, fun h => absurd (h.length_le hnodup hhash) (by decide)⟩

end Dolorem.Symbols
