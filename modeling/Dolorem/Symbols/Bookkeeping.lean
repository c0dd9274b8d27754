import Mathlib.Data.List.Dedup
import Dolorem.Lib.Removal
import Dolorem.Symbols.Insertion

/-!
# The bookkeeping of the hash map

`hashmap_put` with a failing `calloc`, and `hashmap_remove`. `size` is counted up
for every value that is stored, also for one that replaces another, and a name
behind a slot that has become free is stored a second time.
`bookkeeping_exact_iff` says that neither happens exactly if only new names are
put into the table.
-/

namespace Dolorem.Symbols

/-- `MAP_OK`, `MAP_OMEM` and `MAP_MISSING`. -/
inductive Status where
  | ok
  | omem
  | missing
deriving DecidableEq, Repr

namespace HashMap

variable {α : Type}

/-- `hashmap_length`. -/
def length (m : HashMap α) : Nat := m.size

/-- `hashmap_remove`. -/
def remove (hash : String → Nat) (m : HashMap α) (key : String) : Status × HashMap α :=
  match Probing.find m.data key maxChainLength (m.hashInt hash key) with
  | none => (.missing, m)
  | some i => (.ok, { m with data := Function.update m.data i none, size := m.size - 1 })

/-- `hashmap_put`, `hashmap_rehash`, and the loop of the latter at the slots `is` of the old
table. -/
inductive Task (α : Type) where
  | put (key : String) (value : α)
  | rehash
  | reinsert (old : HashMap α) (is : List (Fin old.tableSize))

/-- A call that returns, with its status and the table it leaves. Any `calloc` may fail. -/
inductive Exec (hash : String → Nat) : Task α → HashMap α → Status → HashMap α → Prop
  | store {m : HashMap α} {key : String} {value : α} {i : Fin m.tableSize} :
      m.slotOf hash key = some i → Exec hash (.put key value) m .ok (m.store i key value)
  | again {m m₁ m' : HashMap α} {key : String} {value : α} {st : Status} :
      m.slotOf hash key = none → Exec hash .rehash m .ok m₁ →
      Exec hash (.put key value) m₁ st m' → Exec hash (.put key value) m st m'
  | full {m m' : HashMap α} {key : String} {value : α} :
      m.slotOf hash key = none → Exec hash .rehash m .omem m' →
      Exec hash (.put key value) m .omem m'
  | noMemory {m : HashMap α} : Exec hash .rehash m .omem m
  | rehash {m m' : HashMap α} {st : Status} :
      2 * m.tableSize < 2 ^ 31 →
      Exec hash (.reinsert m (List.finRange m.tableSize)) m.doubled st m' →
      Exec hash .rehash m st m'
  | done {old m : HashMap α} : Exec hash (.reinsert old []) m .ok m
  | skip {old m m' : HashMap α} {i : Fin old.tableSize} {is : List (Fin old.tableSize)}
      {st : Status} :
      old.data i = none → Exec hash (.reinsert old is) m st m' →
      Exec hash (.reinsert old (i :: is)) m st m'
  | next {old m m₁ m' : HashMap α} {i : Fin old.tableSize} {is : List (Fin old.tableSize)}
      {st : Status} {key : String} {value : α} :
      old.data i = some (key, value) → Exec hash (.put key value) m .ok m₁ →
      Exec hash (.reinsert old is) m₁ st m' → Exec hash (.reinsert old (i :: is)) m st m'
  | stop {old m m' : HashMap α} {i : Fin old.tableSize} {is : List (Fin old.tableSize)}
      {key : String} {value : α} :
      old.data i = some (key, value) → Exec hash (.put key value) m .omem m' →
      Exec hash (.reinsert old (i :: is)) m .omem m'

/-- A call of the program. -/
inductive Op (α : Type) where
  | put (key : String) (value : α)
  | remove (key : String)

inductive Step (hash : String → Nat) : HashMap α → Op α → Status → HashMap α → Prop
  | put {m m' : HashMap α} {key : String} {value : α} {st : Status} :
      Exec hash (.put key value) m st m' → Step hash m (.put key value) st m'
  | remove {m : HashMap α} {key : String} :
      Step hash m (.remove key) (m.remove hash key).1 (m.remove hash key).2

/-- A call, its status and the table afterwards. -/
structure Event (α : Type) where
  op : Op α
  st : Status
  m : HashMap α

/-- The calls return one after the other. -/
inductive Calls (hash : String → Nat) : HashMap α → List (Event α) → Prop
  | nil (m : HashMap α) : Calls hash m []
  | cons {m : HashMap α} {e : Event α} {es : List (Event α)} :
      Step hash m e.op e.st e.m → Calls hash e.m es → Calls hash m (e :: es)

/-- Each name has at most one slot, and the length is the number of the slots in use, which is the
number of names. -/
structure Exact (m : HashMap α) : Prop where
  once : (m.entries.map Prod.fst).Nodup
  counted : m.length = m.entries.length
  names : m.length = (m.entries.map Prod.fst).dedup.length

/-- The table is exact after each call, and a name that has been removed is missing. -/
def ExactAlong (hash : String → Nat) (es : List (Event α)) : Prop :=
  ∀ e ∈ es, e.m.Exact ∧ ∀ key, e.op = .remove key → e.m.get hash key = none

/-- The names that are stored are missing before that. -/
def NewNames (hash : String → Nat) : HashMap α → List (Event α) → Prop
  | _, [] => True
  | m, e :: es =>
    (∀ key value, e.op = .put key value → e.st = .ok → m.get hash key = none) ∧
      NewNames hash e.m es

/-! ## Tables with holes -/

section

variable {hash : String → Nat} {m m' m₁ : HashMap α} {key : String} {value : α} {st : Status}
variable {t : Task α}

/-- The invariant, with or without holes. -/
structure Sound (hash : String → Nat) (m : HashMap α) : Prop where
  once : Probing.Once m.data
  near : Probing.Near maxChainLength (m.hashInt hash) m.data
  counted : m.Counted

theorem Sound.exact (h : m.Sound hash) : m.Exact := by
  have hnodup : (m.entries.map Prod.fst).Nodup := Probing.nodup_keys_iff.2 h.once
  refine ⟨hnodup, h.counted, ?_⟩
  rw [hnodup.dedup, List.length_map]
  exact h.counted

theorem sound_new : (new : HashMap α).Sound hash :=
  have hready : Ready hash [] 8 new := ready_new
  ⟨Probing.once_empty, Probing.near_empty, hready.counted⟩

theorem sound_doubled : m.doubled.Sound hash :=
  ⟨Probing.once_empty, Probing.near_empty, counted_doubled⟩

theorem Sound.get_eq_none (h : m.Sound hash) :
    m.get hash key = none ↔ ∀ w, ¬ m.Holds key w := by
  rw [Option.eq_none_iff_forall_ne_some]
  exact forall_congr' fun w => not_congr (h.near.get_eq_some h.once)

/-- A call that should leave the entries `P`: all of them are there if it has succeeded, and nothing
else is. -/
structure Leaves (hash : String → Nat) (P : String → α → Prop) (st : Status) (m : HashMap α) :
    Prop where
  sound : m.Sound hash
  only : ∀ key value, m.Holds key value → P key value
  all : st = .ok → ∀ key value, P key value → m.Holds key value

theorem Leaves.iff {P Q : String → α → Prop} (h : Leaves hash P st m)
    (hiff : ∀ key value, P key value ↔ Q key value) : Leaves hash Q st m :=
  ⟨h.sound, fun key value hm => (hiff key value).1 (h.only key value hm),
    fun hst key value hq => h.all hst key value ((hiff key value).2 hq)⟩

/-- A new name is stored. -/
theorem Sound.store (h : m.Sound hash) {i : Fin m.tableSize} (hi : m.slotOf hash key = some i)
    (hnew : ∀ w, ¬ m.Holds key w) (value : α) :
    Leaves hash (fun key' w => (key' = key ∧ w = value) ∨ m.Holds key' w) .ok
      (m.store i key value) := by
  obtain ⟨d, hd, hdist⟩ := Probing.place_near (place_of_slotOf hi)
  have hfree : m.data i = none :=
    (Probing.place_spec (place_of_slotOf hi)).resolve_right fun ⟨w, hw⟩ => hnew w ⟨i, hw⟩
  refine ⟨⟨h.once.update hnew value, h.near.update hd hdist value,
    store_counted h.counted hi hnew value⟩, fun key' w ⟨j, hj⟩ => ?_, fun _ key' w hw => ?_⟩
  · rcases eq_or_ne j i with heq | hne
    · rw [heq] at hj
      cases (Function.update_self ..).symm.trans hj
      exact Or.inl ⟨rfl, rfl⟩
    · exact Or.inr ⟨j, (Function.update_of_ne hne ..).symm.trans hj⟩
  · rcases hw with ⟨rfl, rfl⟩ | ⟨j, hj⟩
    · exact ⟨i, Function.update_self ..⟩
    · refine ⟨j, (Function.update_of_ne (fun heq => ?_) ..).trans hj⟩
      rw [heq, hfree] at hj
      cases hj

/-- A name that is there already is stored once more: the size counts it twice, or it gets a second
slot. -/
theorem Sound.store_present (h : m.Sound hash) {i : Fin m.tableSize}
    (hi : m.slotOf hash key = some i) {w : α} (hw : m.Holds key w) (value : α) :
    ¬ (m.store i key value).Exact := by
  intro hexact
  have hself : (m.store i key value).data i = some (key, value) := Function.update_self ..
  obtain ⟨j, hj⟩ := hw
  rcases eq_or_ne j i with rfl | hne
  · obtain ⟨xs, ys, hentries⟩ := Probing.entries_update m.data j
    have hold : m.entries = xs ++ ((m.data j).toList ++ ys) := by
      rw [← hentries, Function.update_eq_self]
      rfl
    have hnew : (m.store j key value).entries = xs ++ ((some (key, value)).toList ++ ys) :=
      hentries _
    have hlength : (m.store j key value).entries.length = m.entries.length := by
      rw [hnew, hold, hj]
      simp
    have hsize : m.size + 1 = (m.store j key value).entries.length := hexact.counted
    have hcounted : m.size = m.entries.length := h.counted
    omega
  · have hother : (m.store i key value).data j = some (key, w) :=
      (Function.update_of_ne hne ..).trans hj
    exact hne (Probing.nodup_keys_iff.1 hexact.once j i key w value hother hself)

/-- An entry of the old table that is still to be inserted is missing in the new one. -/
theorem not_holds_of_later {old : HashMap α} (hold : Probing.Once old.data)
    {i : Fin old.tableSize} {is : List (Fin old.tableSize)}
    (hsub : ∀ key value, m.Holds key value → ∃ j ∉ i :: is, old.data j = some (key, value))
    (hi : old.data i = some (key, value)) (w : α) : ¬ m.Holds key w := by
  intro hw
  obtain ⟨j, hj, hjdata⟩ := hsub key w hw
  exact hj (hold j i key w value hjdata hi ▸ List.mem_cons_self ..)

/-- What each call does to a table that satisfies the invariant. -/
def Task.Spec (hash : String → Nat) : Task α → HashMap α → Status → HashMap α → Prop
  | .put key value, m, st, m' => m.Sound hash →
    ((∀ w, ¬ m.Holds key w) →
      Leaves hash (fun key' w => (key' = key ∧ w = value) ∨ m.Holds key' w) st m') ∧
    ((∃ w, m.Holds key w) → (st = .ok → ¬ m'.Exact) ∧ (st ≠ .ok → m'.Sound hash))
  | .rehash, m, st, m' => m.Sound hash → Leaves hash m.Holds st m'
  | .reinsert old is, m, st, m' => Probing.Once old.data → is.Nodup → m.Sound hash →
    (∀ key value, m.Holds key value → ∃ i ∉ is, old.data i = some (key, value)) →
    Leaves hash (fun key value => m.Holds key value ∨ ∃ i ∈ is, old.data i = some (key, value)) st m'

/-- By induction on the call: names are only ever inserted again where they are missing. -/
theorem exec_spec (h : Exec hash t m st m') : t.Spec hash m st m' := by
  induction h with
  | store hi =>
    exact fun hm => ⟨fun hnew => hm.store hi hnew _,
      fun ⟨_, hw⟩ => ⟨fun _ => hm.store_present hi hw _, fun hst => absurd rfl hst⟩⟩
  | again _ _ _ ihr ihp =>
    intro hm
    have hsame := ihr hm
    obtain ⟨hnew, hpresent⟩ := ihp hsame.sound
    refine ⟨fun habsent => ?_, fun ⟨w, hw⟩ => hpresent ⟨w, hsame.all rfl _ w hw⟩⟩
    refine (hnew fun w hw => habsent w (hsame.only _ w hw)).iff fun key' w => ?_
    exact or_congr_right ⟨hsame.only key' w, hsame.all rfl key' w⟩
  | full _ _ ihr =>
    intro hm
    have hsame := ihr hm
    refine ⟨fun _ => ⟨hsame.sound, fun key' w hw => Or.inr (hsame.only key' w hw), ?_⟩,
      fun _ => ⟨?_, fun _ => hsame.sound⟩⟩
    · exact fun hst => nomatch hst
    · exact fun hst => nomatch hst
  | noMemory => exact fun hm => ⟨hm, fun _ _ hw => hw, fun hst => nomatch hst⟩
  | rehash _ _ ih =>
    intro hm
    refine (ih hm.once (List.nodup_finRange _) sound_doubled
      fun _ _ hw => absurd hw not_holds_doubled).iff fun key value => ?_
    refine (or_iff_right not_holds_doubled).trans ?_
    exact ⟨fun ⟨i, _, hi⟩ => ⟨i, hi⟩, fun ⟨i, hi⟩ => ⟨i, List.mem_finRange i, hi⟩⟩
  | done =>
    intro _ _ hm _
    exact ⟨hm, fun _ _ hw => Or.inl hw,
      fun _ _ _ hw => hw.resolve_right fun ⟨_, hi, _⟩ => nomatch hi⟩
  | skip hdata _ ih =>
    intro hold his hm hsub
    obtain ⟨hi, his⟩ := List.nodup_cons.1 his
    refine (ih hold his hm fun key value hw => ?_).iff fun key value => ?_
    · obtain ⟨j, hj, hjdata⟩ := hsub key value hw
      exact ⟨j, fun hmem => hj (List.mem_cons_of_mem _ hmem), hjdata⟩
    · rw [List.exists_mem_cons_iff, hdata]
      exact or_congr_right (Iff.symm (or_iff_right fun h => nomatch h))
  | next hdata _ _ ihp ih =>
    intro hold his hm hsub
    obtain ⟨hi, his⟩ := List.nodup_cons.1 his
    have hput := (ihp hm).1 (not_holds_of_later hold hsub hdata)
    refine (ih hold his hput.sound fun key' w hw => ?_).iff fun key' w => ?_
    · rcases hput.only key' w hw with ⟨rfl, rfl⟩ | hw
      · exact ⟨_, hi, hdata⟩
      · obtain ⟨j, hj, hjdata⟩ := hsub key' w hw
        exact ⟨j, fun hmem => hj (List.mem_cons_of_mem _ hmem), hjdata⟩
    -- what is inserted now or later is what is inserted from here on
    · rw [List.exists_mem_cons_iff, hdata]
      have hafter : _ ↔ _ := ⟨hput.only key' w, hput.all rfl key' w⟩
      rw [hafter, or_comm (a := _ ∧ _), or_assoc]
      refine or_congr_right (or_congr_left ?_)
      rw [Option.some_inj, Prod.mk.injEq, eq_comm (a := key'), eq_comm (a := w)]
  | stop hdata _ ihp =>
    intro hold his hm hsub
    have hput := (ihp hm).1 (not_holds_of_later hold hsub hdata)
    refine ⟨hput.sound, fun key' w hw => ?_, fun hst => nomatch hst⟩
    rcases hput.only key' w hw with ⟨rfl, rfl⟩ | hw
    · exact Or.inr ⟨_, List.mem_cons_self .., hdata⟩
    · exact Or.inl hw

/-- A name that is removed is missing afterwards. -/
theorem Sound.remove (h : m.Sound hash) (key : String) :
    (m.remove hash key).2.Sound hash ∧ (m.remove hash key).2.get hash key = none := by
  unfold HashMap.remove
  cases hfind : Probing.find m.data key maxChainLength (m.hashInt hash key) with
  | none =>
    refine ⟨h, ?_⟩
    rw [get, Probing.get_eq_find, hfind]
    rfl
  | some i =>
    obtain ⟨v, hv⟩ := Probing.find_spec hfind
    have hcounted : m.size - 1 = (Probing.entries (Function.update m.data i none)).length := by
      obtain ⟨xs, ys, hentries⟩ := Probing.entries_update m.data i
      have hold : m.entries = xs ++ ((m.data i).toList ++ ys) := by
        rw [← hentries, Function.update_eq_self]
        rfl
      have hsize : m.size = m.entries.length := h.counted
      rw [hsize, hold, hentries, hv]
      simp
    have hsound : Sound hash { m with data := Function.update m.data i none, size := m.size - 1 } :=
      ⟨h.once.update_none, h.near.update_none, hcounted⟩
    exact ⟨hsound, hsound.get_eq_none.2 fun w => h.once.not_holds_update_none hv⟩

/-! ## Calls that succeed -/

/-- The call, with a bound on the rehashes. -/
def Task.run (hash : String → Nat) (n : Nat) : Task α → HashMap α → Option (HashMap α)
  | .put key value, m => m.put hash n key value
  | .rehash, m => HashMap.rehash (HashMap.put hash n) m
  | .reinsert old is, m => is.foldlM (HashMap.reinsert (HashMap.put hash n) old) m

theorem exec_of_reinsert {old : HashMap α} {is : List (Fin old.tableSize)}
    {put : String → α → HashMap α → Option (HashMap α)}
    (hput : ∀ {key value m m'}, put key value m = some m' →
      Exec hash (.put key value) m .ok m')
    (h : is.foldlM (HashMap.reinsert put old) m = some m') :
    Exec hash (.reinsert old is) m .ok m' := by
  induction is generalizing m with
  | nil =>
    cases h
    exact .done
  | cons i is ih =>
    obtain ⟨m₁, hstep, hrun⟩ := Option.bind_eq_some_iff.1 h
    unfold HashMap.reinsert at hstep
    cases hi : old.data i with
    | none =>
      rw [hi] at hstep
      cases hstep
      exact .skip hi (ih hrun)
    | some e =>
      rw [hi] at hstep
      exact .next hi (hput hstep) (ih hrun)

theorem exec_of_rehash {put : String → α → HashMap α → Option (HashMap α)}
    (hput : ∀ {key value m m'}, put key value m = some m' →
      Exec hash (.put key value) m .ok m')
    (h : HashMap.rehash put m = some m') : Exec hash .rehash m .ok m' := by
  unfold HashMap.rehash at h
  split_ifs at h with hdouble
  exact .rehash hdouble (exec_of_reinsert hput h)

theorem exec_of_put {n : Nat} (h : m.put hash n key value = some m') :
    Exec hash (.put key value) m .ok m' := by
  induction n generalizing m key value m' with
  | zero =>
    obtain ⟨i, hi, h⟩ := Option.bind_eq_some_iff.1 h
    cases h
    exact .store hi
  | succ n ih =>
    unfold HashMap.put at h
    cases hi : m.slotOf hash key with
    | some i =>
      rw [hi] at h
      cases h
      exact .store hi
    | none =>
      rw [hi] at h
      obtain ⟨m₁, hrehash, hrun⟩ := Option.bind_eq_some_iff.1 h
      exact .again hi (exec_of_rehash ih hrehash) (ih hrun)

/-- By induction on the call: the bound is the largest one needed in it. -/
theorem Exec.exists_run (h : Exec hash t m st m') (hst : st = .ok) :
    ∃ n, t.run hash n m = some m' := by
  induction h with
  | store hi => exact ⟨0, Option.bind_eq_some_iff.2 ⟨_, hi, rfl⟩⟩
  | again hi _ _ ihr ihp =>
    obtain ⟨n₁, hrehash⟩ := ihr rfl
    obtain ⟨n₂, hput⟩ := ihp hst
    refine ⟨max n₁ n₂ + 1, ?_⟩
    rw [Task.run, HashMap.put, hi]
    refine Option.bind_eq_some_iff.2 ⟨_, ?_, put_mono hput (le_max_right ..)⟩
    exact rehash_mono (fun h => put_mono h (le_max_left ..)) hrehash
  | full => cases hst
  | noMemory => cases hst
  | rehash hdouble _ ih =>
    obtain ⟨n, hrun⟩ := ih hst
    exact ⟨n, (if_pos hdouble).trans hrun⟩
  | done => exact ⟨0, rfl⟩
  | skip hdata _ ih =>
    obtain ⟨n, hrun⟩ := ih hst
    refine ⟨n, Option.bind_eq_some_iff.2 ⟨_, ?_, hrun⟩⟩
    unfold HashMap.reinsert
    rw [hdata]
  | @next _ _ m₁ _ _ _ _ _ _ hdata _ _ ihp ih =>
    obtain ⟨n₁, hput⟩ := ihp rfl
    obtain ⟨n₂, hrest⟩ := ih hst
    refine ⟨max n₁ n₂, Option.bind_eq_some_iff.2 ⟨m₁, ?_, ?_⟩⟩
    · unfold HashMap.reinsert
      rw [hdata]
      exact put_mono hput (le_max_left ..)
    · exact reinsert_mono (fun h => put_mono h (le_max_right ..)) hrest
  | stop => cases hst

/-- An insertion succeeds if and only if it returns while `calloc` does not fail. -/
theorem exec_put_ok_iff :
    Exec hash (.put key value) m .ok m' ↔ ∃ n, m.put hash n key value = some m' :=
  ⟨fun h => h.exists_run rfl, fun ⟨_, h⟩ => exec_of_put h⟩

/-! ## Runs -/

/-- By induction on the calls: as long as only new names are stored, the invariant holds. -/
theorem Sound.exactAlong {es : List (Event α)} (h : m.Sound hash) (hcalls : Calls hash m es)
    (hnew : NewNames hash m es) : ExactAlong hash es := by
  induction hcalls with
  | nil => exact fun _ he => nomatch he
  | @cons m e es hstep _ ih =>
    obtain ⟨hfirst, hrest⟩ := hnew
    have hafter : e.m.Sound hash ∧ ∀ key, e.op = .remove key → e.m.get hash key = none := by
      obtain ⟨op, st, m'⟩ := e
      cases hstep with
      | @put _ key value _ hexec =>
        obtain ⟨habsent, hpresent⟩ := exec_spec hexec h
        refine ⟨?_, fun _ hop => nomatch hop⟩
        by_cases hst : st = .ok
        · exact (habsent (h.get_eq_none.1 (hfirst key value rfl hst))).sound
        · by_cases hmem : ∃ w, m.Holds key w
          · exact (hpresent hmem).2 hst
          · exact (habsent (not_exists.1 hmem)).sound
      | @remove key =>
        obtain ⟨hsound, hmissing⟩ := h.remove key
        refine ⟨hsound, fun key' hop => ?_⟩
        cases hop
        exact hmissing
    intro e' he'
    rcases List.mem_cons.1 he' with rfl | he'
    · exact ⟨hafter.1.exact, hafter.2⟩
    · exact ih hafter.1 hrest e' he'

/-- By induction on the calls: storing a name that is there already spoils the table. -/
theorem Sound.newNames {es : List (Event α)} (h : m.Sound hash) (hcalls : Calls hash m es)
    (hexact : ExactAlong hash es) : NewNames hash m es := by
  induction hcalls with
  | nil => trivial
  | @cons m e es hstep _ ih =>
    obtain ⟨hexact₁, -⟩ := hexact e (List.mem_cons_self ..)
    have hafter : e.m.Sound hash ∧
        ∀ key value, e.op = .put key value → e.st = .ok → m.get hash key = none := by
      obtain ⟨op, st, m'⟩ := e
      cases hstep with
      | @put _ key value _ hexec =>
        obtain ⟨habsent, hpresent⟩ := exec_spec hexec h
        by_cases hmem : ∃ w, m.Holds key w
        · have hst : st ≠ .ok := fun hst => (hpresent hmem).1 hst hexact₁
          exact ⟨(hpresent hmem).2 hst, fun _ _ _ hok => absurd hok hst⟩
        · refine ⟨(habsent (not_exists.1 hmem)).sound, fun key' value' hop _ => ?_⟩
          cases hop
          exact h.get_eq_none.2 (not_exists.1 hmem)
      | remove => exact ⟨(h.remove _).1, fun _ _ hop => nomatch hop⟩
    refine ⟨hafter.2, ih hafter.1 fun e' he' => hexact e' (List.mem_cons_of_mem _ he')⟩

end

end HashMap

open HashMap

/-- The bookkeeping is exact after every call, and removed names are missing, if and only if no
name is stored that is there already. -/
theorem bookkeeping_exact_iff {α : Type} (hash : String → Nat) (es : List (Event α))
    (hcalls : Calls hash .new es) : ExactAlong hash es ↔ NewNames hash .new es :=
  ⟨sound_new.newNames hcalls, sound_new.exactAlong hcalls⟩

/-- Storing a name and removing it. -/
theorem bookkeeping_exact_iff_example : ∃ m m' : HashMap Nat,
    Calls hashOfString .new [⟨.put "x" 1, .ok, m⟩, ⟨.remove "x", .ok, m'⟩] ∧
      (ExactAlong hashOfString [⟨.put "x" 1, .ok, m⟩, ⟨.remove "x", .ok, m'⟩] ↔
        NewNames hashOfString .new [⟨.put "x" 1, .ok, m⟩, ⟨.remove "x", .ok, m'⟩]) := by
  obtain ⟨m, hput⟩ : ∃ m : HashMap Nat, HashMap.put hashOfString 0 "x" 1 .new = some m := ⟨_, rfl⟩
  have hstatus : (m.remove hashOfString "x").1 = .ok := by
    cases hput
    rfl
  have hremove : Step hashOfString m (.remove "x") _ _ := .remove
  rw [hstatus] at hremove
  have hcalls : Calls hashOfString .new
      [⟨.put "x" 1, .ok, m⟩, ⟨.remove "x", .ok, (m.remove hashOfString "x").2⟩] :=
    .cons (.put (exec_of_put hput)) (.cons hremove (.nil _))
  exact ⟨m, _, hcalls, bookkeeping_exact_iff hashOfString _ hcalls⟩

/-- A name whose value is replaced, as for a symbol that is linked in, is counted twice. -/
theorem replaced_name_counted_twice : ∃ m m' : HashMap Nat,
    Calls hashOfString .new [⟨.put "x" 1, .ok, m⟩, ⟨.put "x" 2, .ok, m'⟩] ∧
      ¬ ExactAlong hashOfString [⟨.put "x" 1, .ok, m⟩, ⟨.put "x" 2, .ok, m'⟩] := by
  obtain ⟨m, hfirst⟩ : ∃ m : HashMap Nat, HashMap.put hashOfString 0 "x" 1 .new = some m :=
    ⟨_, rfl⟩
  obtain ⟨m', hsecond⟩ : ∃ m' : HashMap Nat, m.put hashOfString 0 "x" 2 = some m' := by
    cases hfirst
    exact ⟨_, rfl⟩
  have hcalls : Calls hashOfString .new [⟨.put "x" 1, .ok, m⟩, ⟨.put "x" 2, .ok, m'⟩] :=
    .cons (.put (exec_of_put hfirst)) (.cons (.put (exec_of_put hsecond)) (.nil _))
  refine ⟨m, m', hcalls, fun hexact => ?_⟩
  have hmissing := (sound_new.newNames hcalls hexact).2.1 "x" 2 rfl rfl
  cases hfirst
  exact absurd hmissing (Option.some_ne_none 1)

end Dolorem.Symbols
