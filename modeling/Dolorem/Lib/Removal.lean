import Mathlib.Data.List.Pairwise
import Dolorem.Lib.Clusters

/-!
# Linear probing with removals

Removing a key frees its slot, and the keys behind it stay where they are. Then
the search for a place may end before the slot of the key, but a lookup, which
passes over free slots, still finds it: what is kept is that no key has two slots
(`Once`) and that every slot is near the home of its key (`Near`).
-/

namespace Probing

variable {κ α : Type} {n limit : Nat}

section

variable {t : Slots κ α n} {home : κ → Fin n} {i j : Fin n} {k : κ} {v w : α}

/-- No key has two slots. -/
def Once (t : Slots κ α n) : Prop :=
  ∀ i j k v w, t i = some (k, v) → t j = some (k, w) → i = j

/-- Every slot is less than `limit` slots behind the home of its key. -/
def Near (limit : Nat) (home : κ → Fin n) (t : Slots κ α n) : Prop :=
  ∀ i k v, t i = some (k, v) → ∃ d < limit, i = forward (home k) d

theorem once_empty : Once (fun _ => none : Slots κ α n) := fun _ _ _ _ _ h => nomatch h

theorem near_empty : Near limit home (fun _ => none : Slots κ α n) := fun _ _ _ h => nomatch h

/-- In terms of the keys of the entries. -/
theorem nodup_keys_iff : ((entries t).map Prod.fst).Nodup ↔ Once t := by
  rw [entries, List.map_filterMap, List.Nodup, List.pairwise_filterMap]
  constructor
  · intro h i j k v w hi hj
    by_contra hne
    have hsymm : Std.Symm fun i j : Fin n => ∀ b, (t i).map Prod.fst = some b →
        ∀ b', (t j).map Prod.fst = some b' → b ≠ b' :=
      ⟨fun i j h b hb b' hb' => (h b' hb' b hb).symm⟩
    exact h.forall (List.mem_finRange i) (List.mem_finRange j) hne k (by rw [hi]; rfl)
      k (by rw [hj]; rfl) rfl
  · intro h
    refine (List.nodup_finRange n).imp fun {i j} hne b hb b' hb' heq => hne ?_
    obtain ⟨⟨k, v⟩, hi, rfl⟩ := Option.map_eq_some_iff.1 hb
    obtain ⟨⟨k', w⟩, hj, rfl⟩ := Option.map_eq_some_iff.1 hb'
    obtain rfl : k = k' := heq
    exact h i j k v w hi hj

/-- A new key in a free slot. -/
theorem Once.update (h : Once t) (hnew : ∀ w, ¬ Holds t k w) (v : α) :
    Once (Function.update t j (some (k, v))) := by
  intro i₁ i₂ k' v₁ v₂ h₁ h₂
  rcases eq_or_ne i₁ j with rfl | hne₁
  · rcases eq_or_ne i₂ i₁ with rfl | hne₂
    · rfl
    · rw [Function.update_self] at h₁
      rw [Function.update_of_ne hne₂] at h₂
      cases h₁
      exact absurd ⟨i₂, h₂⟩ (hnew v₂)
  · rw [Function.update_of_ne hne₁] at h₁
    rcases eq_or_ne i₂ j with rfl | hne₂
    · rw [Function.update_self] at h₂
      cases h₂
      exact absurd ⟨i₁, h₁⟩ (hnew v₁)
    · rw [Function.update_of_ne hne₂] at h₂
      exact h i₁ i₂ k' v₁ v₂ h₁ h₂

theorem Near.update (h : Near limit home t) {d : Nat} (hd : d < limit)
    (hj : j = forward (home k) d) (v : α) : Near limit home (Function.update t j (some (k, v))) := by
  intro i k' w hi
  rcases eq_or_ne i j with rfl | hne
  · rw [Function.update_self] at hi
    cases hi
    exact ⟨d, hd, hj⟩
  · rw [Function.update_of_ne hne] at hi
    exact h i k' w hi

/-- What is left when a slot is freed was there before. -/
theorem of_update_none (h : Function.update t j none i = some (k, v)) :
    i ≠ j ∧ t i = some (k, v) := by
  rcases eq_or_ne i j with rfl | hne
  · rw [Function.update_self] at h
    cases h
  · rw [Function.update_of_ne hne] at h
    exact ⟨hne, h⟩

theorem Once.update_none (h : Once t) : Once (Function.update t j none) :=
  fun i₁ i₂ k v w h₁ h₂ => h i₁ i₂ k v w (of_update_none h₁).2 (of_update_none h₂).2

theorem Near.update_none (h : Near limit home t) : Near limit home (Function.update t j none) :=
  fun i k v hi => h i k v (of_update_none hi).2

theorem Once.not_holds_update_none (h : Once t) (hj : t j = some (k, v)) :
    ¬ Holds (Function.update t j none) k w := by
  rintro ⟨i, hi⟩
  obtain ⟨hne, hi⟩ := of_update_none hi
  exact hne (h i j k w v hi hj)

end

/-! ## Looking up -/

variable [DecidableEq κ] {t : Slots κ α n} {home : κ → Fin n} {i j : Fin n} {k : κ} {v w : α}
variable {l d : Nat}

/-- The first slot from `i` on that holds the key. Free slots are passed over. -/
def find (t : Slots κ α n) (k : κ) : Nat → Fin n → Option (Fin n)
  | 0, _ => none
  | l + 1, i =>
    match t i with
    | none => find t k l (next i)
    | some (k', _) => if k' = k then some i else find t k l (next i)

/-- Looking up is finding the slot. -/
theorem get_eq_find : get t k l i = (find t k l i).bind fun j => (t j).map Prod.snd := by
  induction l generalizing i with
  | zero => rfl
  | succ l ih =>
    unfold get find
    cases hi : t i with
    | none => exact ih
    | some e =>
      obtain ⟨k', v⟩ := e
      dsimp only
      split_ifs with hk
      · rw [Option.bind_some, hi]
        rfl
      · exact ih

theorem find_spec (h : find t k l i = some j) : ∃ v, t j = some (k, v) := by
  induction l generalizing i with
  | zero => cases h
  | succ l ih =>
    unfold find at h
    cases hi : t i with
    | none =>
      rw [hi] at h
      exact ih h
    | some e =>
      obtain ⟨k', v⟩ := e
      rw [hi] at h
      dsimp only at h
      split_ifs at h with hk
      · cases h
        exact ⟨v, hk ▸ hi⟩
      · exact ih h

/-- A slot that is near enough is found, or an earlier one. -/
theorem exists_find (hd : d < l) (h : t (forward i d) = some (k, v)) :
    ∃ j, find t k l i = some j := by
  induction l generalizing i d with
  | zero => exact absurd hd (Nat.not_lt_zero d)
  | succ l ih =>
    have hrest : d ≠ 0 → ∃ j, find t k l (next i) = some j := by
      intro hne
      obtain ⟨d, rfl⟩ := Nat.exists_eq_succ_of_ne_zero hne
      refine ih (Nat.lt_of_succ_lt_succ hd) ?_
      rwa [show next i = forward i 1 from rfl, forward_forward, Nat.add_comm]
    unfold find
    cases hi : t i with
    | none =>
      refine hrest fun hzero => ?_
      rw [hzero, forward_zero, hi] at h
      cases h
    | some e =>
      obtain ⟨k', w⟩ := e
      dsimp only
      split_ifs with hk
      · exact ⟨i, rfl⟩
      · refine hrest fun hzero => hk ?_
        rw [hzero, forward_zero, hi] at h
        cases h
        rfl

/-- The slot of a key is found. -/
theorem Near.find_eq (hnear : Near limit home t) (honce : Once t) (h : t j = some (k, v)) :
    find t k limit (home k) = some j := by
  obtain ⟨d, hd, rfl⟩ := hnear j k v h
  obtain ⟨i, hi⟩ := exists_find hd h
  obtain ⟨w, hw⟩ := find_spec hi
  rw [hi, honce _ _ k w v hw h]

/-- A lookup finds what is stored, and nothing else. -/
theorem Near.get_eq_some (hnear : Near limit home t) (honce : Once t) :
    get t k limit (home k) = some v ↔ Holds t k v := by
  refine ⟨holds_of_get, fun ⟨j, hj⟩ => ?_⟩
  rw [get_eq_find, hnear.find_eq honce hj, Option.bind_some, hj]
  rfl

end Probing
