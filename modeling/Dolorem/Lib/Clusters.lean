import Mathlib.Data.List.Perm.Subperm
import Mathlib.Data.Nat.Find
import Dolorem.Lib.Probing

/-!
# Clusters in a table with linear probing

When is there a place for a key? The keys of an unbroken run of slots all have
their homes in it, because a search does not get past a free slot. So a search
of `limit` full slots ends a run that is home to more keys than it has slots,
and if no run is (`Spread`), every key finds its place (`Placed.place_of_spread`).
In turn no slot is home to more than `limit` of the keys stored
(`Placed.length_le_of_home`).
-/

namespace Probing

variable {κ α : Type} {n limit : Nat}

/-- The slot `d` places after `i`. -/
def forward (i : Fin n) (d : Nat) : Fin n :=
  ⟨(i.val + d) % n, Nat.mod_lt _ i.pos⟩

/-- How many places `j` is after `i`. -/
def dist (i j : Fin n) : Nat := (j.val + (n - i.val)) % n

/-- No `limit` or more consecutive slots are home to more keys than they are. -/
def Spread (limit : Nat) (home : κ → Fin n) (keys : List κ) : Prop :=
  ∀ (w : Fin n) (l : Nat), limit ≤ l → keys.countP (fun k => dist w (home k) < l) ≤ l

section

variable {i j f w : Fin n} {c d e : Nat}

theorem dist_lt : dist i j < n := Nat.mod_lt _ i.pos

theorem forward_val (i : Fin n) (d : Nat) : (forward i d).val = (i.val + d) % n := rfl

theorem forward_dist (i j : Fin n) : forward i (dist i j) = j := by
  refine Fin.ext ?_
  have hi := i.isLt
  rw [forward_val, dist, Nat.add_mod_mod, show i.val + (j.val + (n - i.val)) = j.val + n by omega,
    Nat.add_mod_right, Nat.mod_eq_of_lt j.isLt]

theorem dist_forward (i : Fin n) (hd : d < n) : dist i (forward i d) = d := by
  have hi := i.isLt
  rw [dist, forward_val, Nat.mod_add_mod, show i.val + d + (n - i.val) = d + n by omega,
    Nat.add_mod_right, Nat.mod_eq_of_lt hd]

theorem forward_forward (i : Fin n) (c d : Nat) : forward (forward i c) d = forward i (c + d) :=
  Fin.ext (by rw [forward_val, forward_val, forward_val, Nat.mod_add_mod, Nat.add_assoc])

@[simp] theorem forward_zero (i : Fin n) : forward i 0 = i :=
  Fin.ext (Nat.mod_eq_of_lt i.isLt)

theorem forward_self (i : Fin n) : forward i n = i :=
  Fin.ext ((Nat.add_mod_right _ _).trans (Nat.mod_eq_of_lt i.isLt))

theorem next_forward (i : Fin n) (d : Nat) : next (forward i d) = forward i (d + 1) :=
  forward_forward i d 1

theorem forward_injective (hc : c < n) (hd : d < n) (h : forward i c = forward i d) : c = d := by
  rw [← dist_forward i hc, h, dist_forward i hd]

/-- A distance from a later slot on. -/
theorem dist_forward_left (hc : c ≤ dist f i) : dist (forward f c) i = dist f i - c := by
  have hlt : dist f i - c < n := Nat.lt_of_le_of_lt (Nat.sub_le _ _) dist_lt
  have hi : forward (forward f c) (dist f i - c) = i := by
    rw [forward_forward, Nat.add_sub_cancel' hc, forward_dist]
  calc dist (forward f c) i
      = dist (forward f c) (forward (forward f c) (dist f i - c)) := by rw [hi]
    _ = dist f i - c := dist_forward _ hlt

end

variable [DecidableEq κ] {t : Slots κ α n} {home : κ → Fin n} {f i j : Fin n} {k : κ} {v : α}
variable {l d e : Nat}

/-- A place is less than `l` slots away. -/
theorem place_near (h : place t k l i = some j) : ∃ d < l, j = forward i d := by
  induction l generalizing i with
  | zero => cases h
  | succ l ih =>
    unfold place at h
    cases hi : t i with
    | none =>
      rw [hi] at h
      cases h
      exact ⟨0, Nat.succ_pos l, (forward_zero _).symm⟩
    | some x =>
      rw [hi] at h
      dsimp only at h
      split_ifs at h with hk
      · cases h
        exact ⟨0, Nat.succ_pos l, (forward_zero _).symm⟩
      · obtain ⟨d, hd, rfl⟩ := ih h
        exact ⟨d + 1, Nat.succ_lt_succ hd, by
          rw [show next i = forward i 1 from rfl, forward_forward, Nat.add_comm]⟩

/-- Seen from a free slot, a key's slot comes after its home, and all the slots from there on are
in use. -/
theorem place_run (hfree : t f = none) (hd : d < n) (he : e < n)
    (h : place t k l (forward f d) = some (forward f e)) (hv : t (forward f e) = some (k, v)) :
    d ≤ e ∧ ∀ c, d ≤ c → c ≤ e → t (forward f c) ≠ none := by
  induction l generalizing d with
  | zero => cases h
  | succ l ih =>
    have huse : t (forward f e) ≠ none := by rw [hv]; exact Option.some_ne_none _
    have hself : forward f d = forward f e → d ≤ e ∧
        ∀ c, d ≤ c → c ≤ e → t (forward f c) ≠ none := by
      intro heq
      obtain rfl := forward_injective hd he heq
      exact ⟨Nat.le_refl d, fun c hdc hcd => Nat.le_antisymm hdc hcd ▸ huse⟩
    unfold place at h
    cases hi : t (forward f d) with
    | none =>
      rw [hi] at h
      exact hself (Option.some.inj h)
    | some x =>
      rw [hi] at h
      dsimp only at h
      split_ifs at h with hk
      · exact hself (Option.some.inj h)
      · rw [next_forward] at h
        rcases Nat.lt_or_ge (d + 1) n with hlt | hge
        · obtain ⟨hle, hrun⟩ := ih hlt h
          refine ⟨Nat.le_of_succ_le hle, fun c hdc hce => ?_⟩
          rcases Nat.eq_or_lt_of_le hdc with rfl | hlt'
          · rw [hi]
            exact Option.some_ne_none x
          · exact hrun c hlt' hce
        · -- The search has come round to the free slot.
          have hround : forward f (d + 1) = f := by
            rw [show d + 1 = n by omega, forward_self]
          rw [hround] at h
          cases l with
          | zero => cases h
          | succ l =>
            unfold place at h
            rw [hfree] at h
            rw [← Option.some.inj h, hfree] at huse
            exact absurd rfl huse

/-- A search without a result has seen nothing but other keys. -/
theorem place_none_run (hfree : t f = none) (hd : d < n)
    (h : place t k l (forward f d) = none) :
    d + l ≤ n ∧ ∀ c, d ≤ c → c < d + l → ∃ k' v, t (forward f c) = some (k', v) := by
  induction l generalizing d with
  | zero => exact ⟨Nat.le_of_lt hd, fun c hdc hlt => absurd hlt (Nat.not_lt.2 hdc)⟩
  | succ l ih =>
    unfold place at h
    cases hi : t (forward f d) with
    | none =>
      rw [hi] at h
      cases h
    | some x =>
      rw [hi] at h
      dsimp only at h
      split_ifs at h with hk
      rw [next_forward] at h
      rcases Nat.lt_or_ge (d + 1) n with hlt | hge
      · obtain ⟨hle, hrun⟩ := ih hlt h
        refine ⟨by omega, fun c hdc hcl => ?_⟩
        rcases Nat.eq_or_lt_of_le hdc with rfl | hlt'
        · exact ⟨x.1, x.2, hi⟩
        · exact hrun c hlt' (by omega)
      · cases l with
        | zero =>
          refine ⟨by omega, fun c hdc hcl => ?_⟩
          obtain rfl : d = c := by omega
          exact ⟨x.1, x.2, hi⟩
        | succ l =>
          rw [show d + 1 = n by omega, forward_self] at h
          unfold place at h
          rw [hfree] at h
          cases h

omit [DecidableEq κ] in
/-- The nearest slot before `d` places after `f` that is free. -/
theorem exists_last_free (hfree : t f = none) (hd : d ≠ 0) :
    ∃ a < d, t (forward f a) = none ∧ ∀ c, a < c → c < d → t (forward f c) ≠ none := by
  have hzero : t (forward f 0) = none := by rw [forward_zero, hfree]
  refine ⟨Nat.findGreatest (fun c => t (forward f c) = none) (d - 1), ?_, ?_, fun c hac hcd => ?_⟩
  · have hle := Nat.findGreatest_le (P := fun c => t (forward f c) = none) (d - 1)
    omega
  · exact Nat.findGreatest_spec (P := fun c => t (forward f c) = none) (Nat.zero_le _) hzero
  · exact Nat.findGreatest_is_greatest hac (by omega)

namespace Placed

/-- The keys of a run of full slots. -/
theorem run_keys (h : Placed limit home t) {a e : Nat} (he : e ≤ n)
    (hfull : ∀ c, a < c → c < e → ∃ x, t (forward f c) = some x) :
    ∃ ks : List κ, ks.length = e - (a + 1) ∧ ks.Nodup ∧
      ∀ k ∈ ks, ∃ c v, a < c ∧ c < e ∧ t (forward f c) = some (k, v) := by
  have hkeys : ∀ i : Fin (e - (a + 1)), ∃ x : κ × α, t (forward f (a + 1 + i.val)) = some x :=
    fun i => hfull _ (by omega) (by omega)
  choose entryAt hat using hkeys
  refine ⟨(List.finRange (e - (a + 1))).map fun i => (entryAt i).1,
    by rw [List.length_map, List.length_finRange], ?_, fun k hk => ?_⟩
  · refine (List.nodup_finRange _).map fun i j heq => ?_
    -- a key is in one slot only
    have hslot := h.slot_unique (hat i) (show t _ = some ((entryAt i).1, (entryAt j).2) by
      rw [hat j, show (entryAt i).1 = (entryAt j).1 from heq])
    exact Fin.ext (Nat.add_left_cancel (forward_injective (by omega) (by omega) hslot))
  · obtain ⟨i, -, rfl⟩ := List.mem_map.1 hk
    exact ⟨a + 1 + i.val, (entryAt i).2, by omega, by omega, hat i⟩

/-- A key stored behind a free slot has its home behind it too. -/
theorem home_behind (h : Placed limit home t) (hfree : t f = none) {a c : Nat}
    (ha : t (forward f a) = none) (hac : a < c) (hc : c < n)
    (hslot : t (forward f c) = some (k, v)) :
    a < dist f (home k) ∧ dist f (home k) ≤ c := by
  have hplace := h _ _ _ hslot
  rw [← forward_dist f (home k)] at hplace
  obtain ⟨hle, hrun⟩ := place_run hfree dist_lt hc hplace hslot
  exact ⟨Nat.lt_of_not_le fun hle' => hrun a hle' (Nat.le_of_lt hac) ha, hle⟩

/-- A key that is not stored, and no place for it: the slots up to where its search ends, from the
nearest free slot before its home on, are home to one key more than they are. -/
theorem crowded (h : Placed limit home t) (hlimit : 0 < limit) (hfree : t f = none)
    (hnone : place t k limit (home k) = none) : ∃ (w : Fin n) (l : Nat) (ks : List κ),
      limit ≤ l ∧ ks.length = l + 1 ∧ ks.Nodup ∧
      ∀ k' ∈ ks, (k' = k ∨ ∃ v, Holds t k' v) ∧ dist w (home k') < l := by
  have hhome : forward f (dist f (home k)) = home k := forward_dist f (home k)
  obtain ⟨hround, hfull⟩ := place_none_run hfree dist_lt (hhome.symm ▸ hnone)
  have hpos : dist f (home k) ≠ 0 := by
    intro hzero
    obtain ⟨k', v, hv⟩ := hfull 0 (Nat.le_of_eq hzero) (by omega)
    rw [forward_zero, hfree] at hv
    cases hv
  obtain ⟨a, ha, hafree, hrun⟩ := exists_last_free hfree hpos
  obtain ⟨ks, hlen, hnodup, hks⟩ := h.run_keys (f := f) (a := a) hround fun c hac hc => by
    rcases Nat.lt_or_ge c (dist f (home k)) with hlt | hge
    · exact Option.ne_none_iff_exists'.1 (hrun c hac hlt)
    · obtain ⟨k', v, hv⟩ := hfull c hge hc
      exact ⟨(k', v), hv⟩
  have hnew : k ∉ ks := fun hk => by
    obtain ⟨c, v, -, -, hslot⟩ := hks k hk
    cases (h _ _ _ hslot).symm.trans hnone
  refine ⟨forward f (a + 1), dist f (home k) + limit - (a + 1), k :: ks, by omega,
    by rw [List.length_cons, hlen], List.nodup_cons.2 ⟨hnew, hnodup⟩, fun k' hk' => ?_⟩
  rcases List.mem_cons.1 hk' with rfl | hk'
  · refine ⟨Or.inl rfl, ?_⟩
    rw [dist_forward_left ha]
    omega
  · obtain ⟨c, v, hac, hc, hslot⟩ := hks k' hk'
    obtain ⟨hstart, hle⟩ := h.home_behind hfree hafree hac (Nat.lt_of_lt_of_le hc hround) hslot
    refine ⟨Or.inr ⟨v, _, hslot⟩, ?_⟩
    rw [dist_forward_left hstart]
    omega

/-- Every key finds a place in a table whose keys are spread. -/
theorem place_of_spread (h : Placed limit home t) (hlimit : 0 < limit) {keys : List κ}
    (hspread : Spread limit home keys) (hstored : ∀ k v, Holds t k v → k ∈ keys) (hk : k ∈ keys)
    (hfree : t f = none) : ∃ j, place t k limit (home k) = some j := by
  rw [← Option.ne_none_iff_exists']
  intro hnone
  obtain ⟨w, l, ks, hl, hlen, hnodup, hks⟩ := h.crowded hlimit hfree hnone
  have hsub : ks ⊆ keys.filter fun k => dist w (home k) < l := by
    intro k' hk'
    obtain ⟨hstands, hdist⟩ := hks k' hk'
    refine List.mem_filter.2 ⟨?_, decide_eq_true hdist⟩
    rcases hstands with rfl | ⟨v, hv⟩
    · exact hk
    · exact hstored k' v hv
  have hle := (List.subperm_of_subset hnodup hsub).length_le
  have hcount := hspread w l hl
  rw [List.countP_eq_length_filter] at hcount
  omega

/-- No more than `limit` of the keys stored have the same home. -/
theorem length_le_of_home (h : Placed limit home t) {keys : List κ} (hnodup : keys.Nodup)
    (hstored : ∀ k ∈ keys, ∃ v, Holds t k v) (hhome : ∀ k ∈ keys, home k = i) :
    keys.length ≤ limit := by
  have hplace : ∀ k ∈ keys, ∃ j v, place t k limit i = some j ∧ t j = some (k, v) := by
    intro k hk
    obtain ⟨v, j, hj⟩ := hstored k hk
    exact ⟨j, v, hhome k hk ▸ h j k v hj, hj⟩
  have hslots : (keys.map fun k => place t k limit i).Nodup := by
    refine List.Nodup.map_on (fun k hk k' hk' heq => ?_) hnodup
    obtain ⟨j, v, hj, hv⟩ := hplace k hk
    obtain ⟨j', v', hj', hv'⟩ := hplace k' hk'
    cases hj.symm.trans (heq.trans hj')
    cases hv.symm.trans hv'
    rfl
  have hsub : (keys.map fun k => place t k limit i) ⊆
      (List.range limit).map fun d => some (forward i d) := by
    intro p hp
    obtain ⟨k, hk, rfl⟩ := List.mem_map.1 hp
    obtain ⟨j, v, hj, -⟩ := hplace k hk
    obtain ⟨d, hd, rfl⟩ := place_near hj
    exact List.mem_map.2 ⟨d, List.mem_range.2 hd, hj.symm⟩
  have hle := (List.subperm_of_subset hslots hsub).length_le
  rwa [List.length_map, List.length_map, List.length_range] at hle

end Placed

end Probing
