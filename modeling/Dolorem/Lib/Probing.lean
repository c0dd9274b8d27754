import Mathlib.Data.List.FinRange
import Mathlib.Logic.Function.Basic

/-!
# Linear probing

A table of slots in which a key is searched for from its home slot on, for at
most `limit` slots. Nothing is ever removed. Then the table is a finite map as
long as every key is where the search for a place for it ends (`Placed`):
searching for a place, storing there and looking up agree on what a key's slot
is, and storing something elsewhere does not move it (`Placed.update`).
-/

namespace Probing

variable {κ α : Type} [DecidableEq κ] {n limit : Nat}

/-- A slot that is in use holds a key and a value. -/
abbrev Slots (κ α : Type) (n : Nat) := Fin n → Option (κ × α)

variable {t : Slots κ α n} {home : κ → Fin n} {i j : Fin n} {k k' : κ} {v w : α}

/-- The slot after `i`; the first one comes after the last one. -/
def next (i : Fin n) : Fin n :=
  ⟨(i.val + 1) % n, Nat.mod_lt _ i.pos⟩

/-- The first slot from `i` on that is free or holds the key. -/
def place (t : Slots κ α n) (k : κ) : Nat → Fin n → Option (Fin n)
  | 0, _ => none
  | l + 1, i =>
    match t i with
    | none => some i
    | some (k', _) => if k' = k then some i else place t k l (next i)

/-- The value of the first slot from `i` on that holds the key. Free slots are passed over. -/
def get (t : Slots κ α n) (k : κ) : Nat → Fin n → Option α
  | 0, _ => none
  | l + 1, i =>
    match t i with
    | none => get t k l (next i)
    | some (k', v) => if k' = k then some v else get t k l (next i)

/-- The key has this value somewhere in the table. -/
def Holds (t : Slots κ α n) (k : κ) (v : α) : Prop :=
  ∃ i, t i = some (k, v)

/-- Every key that is stored is where the search for a place for it ends. -/
def Placed (limit : Nat) (home : κ → Fin n) (t : Slots κ α n) : Prop :=
  ∀ i k v, t i = some (k, v) → place t k limit (home k) = some i

theorem placed_empty : Placed limit home (fun _ => none : Slots κ α n) :=
  fun _ _ _ h => nomatch h

/-- A place is free or holds the key. -/
theorem place_spec {l : Nat} (h : place t k l i = some j) :
    t j = none ∨ ∃ v, t j = some (k, v) := by
  induction l generalizing i with
  | zero => cases h
  | succ l ih =>
    unfold place at h
    cases hi : t i with
    | none =>
      rw [hi] at h
      cases h
      exact .inl hi
    | some e =>
      obtain ⟨k', v⟩ := e
      rw [hi] at h
      dsimp only at h
      split_ifs at h with hk
      · cases h
        exact .inr ⟨v, hk ▸ hi⟩
      · exact ih h

/-- What is found is stored. -/
theorem holds_of_get {l : Nat} (h : get t k l i = some v) : Holds t k v := by
  induction l generalizing i with
  | zero => cases h
  | succ l ih =>
    unfold get at h
    cases hi : t i with
    | none =>
      rw [hi] at h
      exact ih h
    | some e =>
      obtain ⟨k', w⟩ := e
      rw [hi] at h
      dsimp only at h
      split_ifs at h with hk
      · cases h
        exact ⟨i, hk ▸ hi⟩
      · exact ih h

/-- The lookup comes to the place of the key. -/
theorem get_of_place {l : Nat} (hplace : place t k l i = some j) (hj : t j = some (k, v)) :
    get t k l i = some v := by
  induction l generalizing i with
  | zero => cases hplace
  | succ l ih =>
    unfold place at hplace
    unfold get
    cases hi : t i with
    | none =>
      rw [hi] at hplace
      cases hplace
      cases hi.symm.trans hj
    | some e =>
      obtain ⟨k', w⟩ := e
      rw [hi] at hplace
      dsimp only at hplace ⊢
      split_ifs at hplace ⊢ with hk
      · cases hplace
        cases hi.symm.trans hj
        rfl
      · exact ih hplace

/-- The search for `k` does not see what is stored in a place for another key. -/
theorem place_update {l : Nat} (hplace : place t k l i = some j) {j' : Fin n} (hne : j ≠ j')
    (hj' : t j' = none ∨ ∃ v, t j' = some (k', v)) :
    place (Function.update t j' (some (k', w))) k l i = some j := by
  induction l generalizing i with
  | zero => cases hplace
  | succ l ih =>
    unfold place at hplace ⊢
    rcases eq_or_ne i j' with rfl | hi
    · rw [Function.update_self]
      rcases hj' with hfree | ⟨v, hv⟩
      · rw [hfree] at hplace
        cases hplace
        exact absurd rfl hne
      · rw [hv] at hplace
        dsimp only at hplace ⊢
        split_ifs at hplace ⊢ with hk
        · cases hplace
          exact absurd rfl hne
        · exact ih hplace
    · rw [Function.update_of_ne hi]
      cases hti : t i with
      | none =>
        rw [hti] at hplace
        exact hplace
      | some e =>
        rw [hti] at hplace
        dsimp only at hplace ⊢
        split_ifs at hplace ⊢ with hk
        · exact hplace
        · exact ih hplace

/-- The search for `k` ends in the same place when `k` is stored there. -/
theorem place_update_self {l : Nat} (hplace : place t k l i = some j) :
    place (Function.update t j (some (k, w))) k l i = some j := by
  induction l generalizing i with
  | zero => cases hplace
  | succ l ih =>
    unfold place at hplace ⊢
    rcases eq_or_ne i j with rfl | hi
    · rw [Function.update_self]
      dsimp only
      rw [if_pos rfl]
    · rw [Function.update_of_ne hi]
      cases hti : t i with
      | none =>
        rw [hti] at hplace
        cases hplace
        exact absurd rfl hi
      | some e =>
        rw [hti] at hplace
        dsimp only at hplace ⊢
        split_ifs at hplace ⊢ with hk
        · exact hplace
        · exact ih hplace

namespace Placed

/-- No key is stored twice. -/
theorem slot_unique (h : Placed limit home t) (hi : t i = some (k, v)) (hj : t j = some (k, w)) :
    i = j :=
  Option.some.inj ((h i k v hi).symm.trans (h j k w hj))

theorem value_unique (h : Placed limit home t) (hv : Holds t k v) (hw : Holds t k w) : v = w := by
  obtain ⟨i, hi⟩ := hv
  obtain ⟨j, hj⟩ := hw
  obtain rfl := h.slot_unique hi hj
  cases hi.symm.trans hj
  rfl

/-- A lookup finds what is stored, and nothing else. -/
theorem get_eq_some (h : Placed limit home t) :
    get t k limit (home k) = some v ↔ Holds t k v := by
  constructor
  · exact holds_of_get
  · rintro ⟨i, hi⟩
    exact get_of_place (h i k v hi) hi

/-- Storing a key in its place. -/
theorem update (h : Placed limit home t) (hplace : place t k limit (home k) = some j) (w : α) :
    Placed limit home (Function.update t j (some (k, w))) := by
  intro i k' v hi
  rcases eq_or_ne i j with rfl | hne
  · rw [Function.update_self] at hi
    cases hi
    exact place_update_self hplace
  · rw [Function.update_of_ne hne] at hi
    exact place_update (h i k' v hi) hne (place_spec hplace)

/-- What is stored afterwards. -/
theorem holds_update (h : Placed limit home t) (hplace : place t k limit (home k) = some j) :
    Holds (Function.update t j (some (k, w))) k' v ↔
      (k' = k ∧ v = w) ∨ (k' ≠ k ∧ Holds t k' v) := by
  constructor
  · rintro ⟨i, hi⟩
    rcases eq_or_ne i j with rfl | hne
    · rw [Function.update_self] at hi
      cases hi
      exact .inl ⟨rfl, rfl⟩
    · rw [Function.update_of_ne hne] at hi
      refine .inr ⟨fun hk => ?_, i, hi⟩
      subst hk
      exact hne (Option.some.inj ((h i k' v hi).symm.trans hplace))
  · rintro (⟨rfl, rfl⟩ | ⟨hk, i, hi⟩)
    · exact ⟨j, Function.update_self ..⟩
    · refine ⟨i, (Function.update_of_ne (fun hij => ?_) ..).trans hi⟩
      subst hij
      rcases place_spec hplace with hfree | ⟨v', hv'⟩
      · cases hfree.symm.trans hi
      · cases hv'.symm.trans hi
        exact hk rfl

end Placed

/-! ## The entries -/

/-- Everything that is stored, slot by slot. -/
def entries (t : Slots κ α n) : List (κ × α) :=
  (List.finRange n).filterMap t

omit [DecidableEq κ] in
theorem mem_entries : (k, v) ∈ entries t ↔ Holds t k v := by
  unfold entries Holds
  rw [List.mem_filterMap]
  exact ⟨fun ⟨i, _, hi⟩ => ⟨i, hi⟩, fun ⟨i, hi⟩ => ⟨i, List.mem_finRange i, hi⟩⟩

omit [DecidableEq κ] in
/-- The entries around a slot do not depend on what is in it. -/
theorem entries_update (t : Slots κ α n) (j : Fin n) : ∃ xs ys : List (κ × α), ∀ x,
    entries (Function.update t j x) = xs ++ (x.toList ++ ys) := by
  obtain ⟨is, js, hsplit⟩ := List.append_of_mem (List.mem_finRange j)
  have hnodup := List.nodup_finRange n
  rw [hsplit] at hnodup
  have hother : ∀ i ∈ is ++ js, i ≠ j := fun i hi =>
    ne_of_mem_of_not_mem hi (List.nodup_middle.1 hnodup).notMem
  refine ⟨is.filterMap t, js.filterMap t, fun x => ?_⟩
  have hsame : ∀ ks ⊆ is ++ js, ks.filterMap (Function.update t j x) = ks.filterMap t :=
    fun ks hks => List.filterMap_congr fun i hi => Function.update_of_ne (hother i (hks hi)) ..
  rw [entries, hsplit, List.filterMap_append, List.filterMap_cons, Function.update_self,
    hsame is (List.subset_append_left ..), hsame js (List.subset_append_right ..)]
  cases x <;> rfl

omit [DecidableEq κ] in
/-- A free slot takes an entry. -/
theorem entries_perm_of_free (hj : t j = none) (e : κ × α) :
    (entries (Function.update t j (some e))).Perm (e :: entries t) := by
  obtain ⟨xs, ys, hentries⟩ := entries_update t j
  have hold := hentries (t j)
  rw [Function.update_eq_self, hj] at hold
  rw [hentries, hold]
  exact List.perm_middle

omit [DecidableEq κ] in
/-- A table with fewer entries than slots has a free one. -/
theorem exists_free (h : (entries t).length < n) : ∃ f, t f = none := by
  by_contra hfull
  have hall : ∀ i ∈ List.finRange n, (t i).isSome := fun i _ =>
    Option.isSome_iff_ne_none.2 fun hi => hfull ⟨i, hi⟩
  rw [entries, List.filterMap_length_eq_length.2 hall, List.length_finRange] at h
  exact Nat.lt_irrefl n h

theorem Placed.nodup_entries (h : Placed limit home t) : (entries t).Nodup := by
  refine List.Nodup.filterMap (fun i j e hi hj => ?_) (List.nodup_finRange n)
  exact h.slot_unique (k := e.1) (v := e.2) (w := e.2) hi hj

/-- Two tables that hold the same have the same entries. -/
theorem Placed.entries_perm {n' : Nat} {t' : Slots κ α n'} {home' : κ → Fin n'}
    (h : Placed limit home t) (h' : Placed limit home' t')
    (hsame : ∀ k v, Holds t k v ↔ Holds t' k v) : (entries t).Perm (entries t') :=
  (List.perm_ext_iff_of_nodup h.nodup_entries h'.nodup_entries).2 fun ⟨k, v⟩ => by
    rw [mem_entries, mem_entries, hsame]

end Probing
