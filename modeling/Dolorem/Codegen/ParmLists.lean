import Dolorem.Codegen.TypeExprs

/-!
# Parameter lists

`parse_parms` counts the elements of a list and fills an array of that size with
their names and types. It looks at the first two elements of an entry, and it
takes a list that starts with `()` for the empty one: `parms_right_iff`.
-/

namespace Dolorem.Codegen

open Reader (Sexp)

variable {Γ : Types} {ends : Sexp → Prop} {l : Sexp} {n n' i : Nat} {es done q : List FunParm}
  {va : Bool}

/-- `l` is a list of entries `(type name . more)` with `more` as in `ends`, and maybe `...` behind
them. The types are evaluated from left to right. -/
inductive Entries (Γ : Types) (ends : Sexp → Prop) : Sexp → Nat → List FunParm → Bool → Nat → Prop
  | nil (n : Nat) : Entries Γ ends .nil n [] false n
  | dots (n : Nat) : Entries Γ ends (.cons (.ident dots) .nil) n [] true n
  | entry {type more l : Sexp} {name : List Char} {n n₁ n' : Nat} {t : Rtt} {es : List FunParm}
    {va : Bool} :
    evalType Γ type n = .ok (t, n₁) → ends more → Entries Γ ends l n₁ es va n' →
      Entries Γ ends (.cons (.cons type (.cons (.ident name) more)) l) n (⟨some name, t⟩ :: es) va n'

/-- The entries have two elements each. -/
abbrev Pairs (Γ : Types) : Sexp → Nat → List FunParm → Bool → Nat → Prop := Entries Γ (· = .nil)

/-- The entries have two elements or more. -/
abbrev LongEntries (Γ : Types) : Sexp → Nat → List FunParm → Bool → Nat → Prop :=
  Entries Γ fun _ => True

/-- Behind entries that can be read there is one whose type is read through a null pointer. -/
inductive Crashes (Γ : Types) : Sexp → Nat → Prop
  | here {type more l : Sexp} {name : List Char} {n : Nat} :
    evalType Γ type n = .error .crash →
      Crashes Γ (.cons (.cons type (.cons (.ident name) more)) l) n
  | later {type more l : Sexp} {name : List Char} {n n₁ : Nat} {t : Rtt} :
    evalType Γ type n = .ok (t, n₁) → Crashes Γ l n₁ →
      Crashes Γ (.cons (.cons type (.cons (.ident name) more)) l) n

/-- The list of parameters is what the code returns, and where there is none the code reports
it. -/
structure ParmsRight (Γ : Types) (l : Sexp) (n : Nat) : Prop where
  accepts : ∀ es va n', Pairs Γ l n es va n' → ∃ q : ParmList,
    parseParms Γ l n = .ok (q, n') ∧ q.nparms = es.length ∧ q.parms.take q.nparms = es ∧
      q.vaArgs = va
  reports : (¬ ∃ es va n', Pairs Γ l n es va n') →
    ∃ msg, parseParms Γ l n = .error (.error msg)

/-! ## The loop -/

theorem Entries.countLen (h : Entries Γ ends l n es va n') :
    countLen l = es.length + va.toNat := by
  induction h with
  | nil n => rfl
  | dots n => rfl
  | entry _ _ _ ih =>
    rw [Codegen.countLen, ih, List.length_cons, Nat.add_right_comm]

theorem Entries.mono {ends' : Sexp → Prop} (h : ∀ x, ends x → ends' x)
    (hl : Entries Γ ends l n es va n') : Entries Γ ends' l n es va n' := by
  induction hl with
  | nil n => exact .nil n
  | dots n => exact .dots n
  | entry ht hm _ ih => exact .entry ht (h _ hm) ih

/-- The entry at index `done.length` goes into the first free slot. -/
theorem putParm_front (done : List FunParm) (k : Nat) (name : List Char) (t : Rtt) :
    putParm done.length name t (Slots.front FunParm.blank done (k + 1)) =
      .ok (Slots.front FunParm.blank (done ++ [FunParm.mk (some name) t]) k) := by
  rw [putParm, Slots.assign_front]

/-- One round of the loop, with an entry at the head of the list. -/
theorem parmsLoop_entry (Γ : Types) (type more l : Sexp) (name : List Char) (done : List FunParm)
    (n : Nat) :
    parmsLoop Γ (.cons (.cons type (.cons (.ident name) more)) l) done.length
        (Slots.front FunParm.blank done (countLen l + 1)) n =
      (evalType Γ type n).bind fun r =>
        let done' := done ++ [FunParm.mk (some name) r.1]
        let ps := Slots.front FunParm.blank done' (countLen l)
        if l = .nil then .ok (ps, false, r.2) else parmsLoop Γ l done'.length ps r.2 := by
  rw [parmsLoop]
  cases evalType Γ type n with
  | error h => rfl
  | ok r =>
    simp only [ok_bind, putParm_front, List.length_append, List.length_singleton]
    rfl

/-- The entries are read into the array. -/
theorem parmsLoop_of_entries (h : LongEntries Γ l n es va n') (hl : l ≠ .nil)
    (done : List FunParm) :
    parmsLoop Γ l done.length (Slots.front FunParm.blank done (countLen l)) n =
      .ok (Slots.front FunParm.blank (done ++ es) va.toNat, va, n') := by
  induction h generalizing done with
  | nil n => exact absurd rfl hl
  | dots n =>
    rw [List.append_nil]
    rfl
  | @entry type more l name n n₁ n' t es va ht _ hrest ih =>
    rw [countLen, parmsLoop_entry, ht]
    simp only [Except.bind]
    split
    · next hnil =>
      subst hnil
      cases hrest
      rfl
    · next hne =>
      rw [ih hne, List.append_assoc]
      rfl

theorem parmsLoop_of_crashes (h : Crashes Γ l n) (done : List FunParm) :
    parmsLoop Γ l done.length (Slots.front FunParm.blank done (countLen l)) n = .error .crash := by
  induction h generalizing done with
  | here ht => rw [countLen, parmsLoop_entry, ht]; rfl
  | @later type more l name n n₁ t ht hrest ih =>
    have hne : l ≠ .nil := by
      rintro rfl
      cases hrest
    rw [countLen, parmsLoop_entry, ht]
    simp only [Except.bind, if_neg hne, ih]

/-- What is no entry ends the loop, and is an error unless it is `...` at the end. -/
theorem parmsLoop_other {e : Sexp}
    (he : ∀ type name more, e ≠ .cons type (.cons (.ident name) more)) (l : Sexp) (i : Nat)
    (ps : List FunParm) (n : Nat) :
    e = .ident dots ∧ l = .nil ∨ ∃ msg, parmsLoop Γ (.cons e l) i ps n = .error (.error msg) := by
  unfold parmsLoop
  split
  · next hcons =>
    cases hcons
    split
    · next hx =>
      split
      · next hl => exact .inl ⟨congrArg Sexp.ident hx, hl⟩
      · exact .inr ⟨_, rfl⟩
    · exact .inr ⟨_, rfl⟩
  · next hcons =>
    cases hcons
    exact absurd rfl (he _ _ _)
  · next d _ _ _ =>
    cases d <;> exact .inr ⟨_, rfl⟩
  all_goals exact .inr ⟨_, rfl⟩

/-- The loop reads entries to the end of the list, or comes to a type it does not survive, or
reports an error. -/
theorem parmsLoop_outcome (hl : l ≠ .nil) (done : List FunParm) (n : Nat) :
    (∃ es va n', LongEntries Γ l n es va n') ∨ Crashes Γ l n ∨
      ∃ msg, parmsLoop Γ l done.length (Slots.front FunParm.blank done (countLen l)) n =
        .error (.error msg) := by
  induction l generalizing done n with
  | nil => exact absurd rfl hl
  | cons e l _ ih =>
    by_cases he : ∃ type name more, e = .cons type (.cons (.ident name) more)
    · obtain ⟨type, name, more, rfl⟩ := he
      rw [countLen, parmsLoop_entry]
      cases ht : evalType Γ type n with
      | error h =>
        cases h with
        | error msg => exact .inr (.inr ⟨msg, rfl⟩)
        | crash => exact .inr (.inl (.here ht))
      | ok r =>
        obtain ⟨t, n₁⟩ := r
        simp only [Except.bind]
        by_cases hnil : l = .nil
        · subst hnil
          exact .inl ⟨_, _, _, .entry ht trivial (.nil n₁)⟩
        · simp only [if_neg hnil]
          rcases ih hnil (done ++ [FunParm.mk (some name) t]) n₁ with
            ⟨es, va, n', hes⟩ | hcrash | herr
          · exact .inl ⟨_, va, n', .entry ht trivial hes⟩
          · exact .inr (.inl (.later ht hcrash))
          · exact .inr (.inr herr)
    · have he' : ∀ type name more, e ≠ .cons type (.cons (.ident name) more) :=
        fun type name more h => he ⟨type, name, more, h⟩
      rcases parmsLoop_other he' l done.length
        (Slots.front FunParm.blank done (countLen (.cons e l))) n with ⟨rfl, rfl⟩ | herr
      · exact .inl ⟨[], true, n, .dots n⟩
      · exact .inr (.inr herr)
  | _ => exact .inr (.inr ⟨_, rfl⟩)

/-! ## The list -/

theorem parseParms_loop {first : Sexp} (hcar : car l = .ok first) (hfirst : first ≠ .nil) (n : Nat) :
    parseParms Γ l n =
      (parmsLoop Γ l 0 (Slots.front FunParm.blank [] (countLen l)) n).bind fun r =>
        .ok (⟨r.1, if r.2.1 then countLen l - 1 else countLen l, r.2.1⟩, r.2.2) := by
  unfold parseParms parseParmsWith
  simp only [hcar, ok_bind, if_neg hfirst]
  rfl

/-- A list that starts with an entry or `...` does not start with `()`. -/
theorem Entries.first (h : Entries Γ ends l n es va n') (hl : l ≠ .nil) :
    ∃ first, car l = .ok first ∧ first ≠ .nil := by
  cases h with
  | nil => exact absurd rfl hl
  | dots => exact ⟨_, rfl, Sexp.noConfusion⟩
  | entry => exact ⟨_, rfl, Sexp.noConfusion⟩

theorem parseParms_of_entries (h : LongEntries Γ l n es va n') : ∃ q : ParmList,
    parseParms Γ l n = .ok (q, n') ∧ q.nparms = es.length ∧ q.parms.take q.nparms = es ∧
      q.vaArgs = va := by
  by_cases hl : l = .nil
  · subst hl
    cases h
    exact ⟨_, rfl, rfl, rfl, rfl⟩
  · obtain ⟨first, hcar, hfirst⟩ := h.first hl
    have hloop := parmsLoop_of_entries h hl []
    have hcount : (if va then countLen l - 1 else countLen l) = es.length := by
      rw [h.countLen]
      cases va <;> rfl
    refine ⟨⟨Slots.front FunParm.blank es va.toNat, es.length, va⟩, ?_, rfl, ?_, rfl⟩
    · rw [parseParms_loop hcar hfirst]
      change parmsLoop Γ l 0 _ n = _ at hloop
      rw [hloop]
      simp only [Except.bind, hcount, List.nil_append]
    · exact List.take_left' rfl

theorem parseParms_of_crashes (h : Crashes Γ l n) : parseParms Γ l n = .error .crash := by
  have hcar : ∃ first, car l = .ok first ∧ first ≠ .nil := by
    cases h <;> exact ⟨_, rfl, Sexp.noConfusion⟩
  obtain ⟨first, hcar, hfirst⟩ := hcar
  have hloop := parmsLoop_of_crashes h []
  change parmsLoop Γ l 0 _ n = _ at hloop
  rw [parseParms_loop hcar hfirst, hloop]
  rfl

theorem parseParms_outcome (hfirst : ∀ l', l ≠ .cons .nil l') (n : Nat) :
    (∃ es va n', LongEntries Γ l n es va n') ∨ Crashes Γ l n ∨
      ∃ msg, parseParms Γ l n = .error (.error msg) := by
  by_cases hl : l = .nil
  · subst hl
    exact .inl ⟨[], false, n, .nil n⟩
  cases hcar : car l with
  | error h =>
    refine .inr (.inr ?_)
    cases l with
    | nil => exact absurd rfl hl
    | cons e l => cases hcar
    | _ => exact ⟨_, rfl⟩
  | ok first =>
    have hne : first ≠ .nil := by
      rintro rfl
      cases l with
      | nil => exact hl rfl
      | cons e l =>
        cases hcar
        exact hfirst l rfl
      | _ => cases hcar
    rcases parmsLoop_outcome hl [] n with h | h | ⟨msg, hmsg⟩
    · exact .inl h
    · exact .inr (.inl h)
    · refine .inr (.inr ⟨msg, ?_⟩)
      change parmsLoop Γ l 0 _ n = _ at hmsg
      rw [parseParms_loop hcar hne, hmsg]
      rfl

/-- A parameter list is parsed exactly if and only if it does not start with `()`, the code comes to
no type that it does not survive, and it is no list of entries some of which have more than two
elements. -/
theorem parms_right_iff (Γ : Types) (l : Sexp) (n : Nat) :
    ParmsRight Γ l n ↔ (∀ l', l ≠ .cons .nil l') ∧ ¬ Crashes Γ l n ∧
      ∀ es va n', LongEntries Γ l n es va n' → Pairs Γ l n es va n' := by
  have hany : ∀ {es va n'}, Pairs Γ l n es va n' → LongEntries Γ l n es va n' :=
    fun h => h.mono fun _ _ => trivial
  constructor
  · intro h
    refine ⟨?_, fun hcrash => ?_, fun es va n' hes => ?_⟩
    · rintro l' rfl
      have hno : ¬ ∃ es va n', Pairs Γ (.cons .nil l') n es va n' := by
        rintro ⟨es, va, n', hes⟩
        cases hes
      obtain ⟨msg, hmsg⟩ := h.reports hno
      cases hmsg
    · have hrun := parseParms_of_crashes hcrash
      have hno : ¬ ∃ es va n', Pairs Γ l n es va n' := by
        rintro ⟨es, va, n', hes⟩
        obtain ⟨q, hq, -⟩ := parseParms_of_entries (hany hes)
        rw [hrun] at hq
        cases hq
      obtain ⟨msg, hmsg⟩ := h.reports hno
      rw [hrun] at hmsg
      cases hmsg
    · obtain ⟨q, hq, hn, htake, hva⟩ := parseParms_of_entries hes
      by_contra hno
      have hno' : ¬ ∃ es va n', Pairs Γ l n es va n' := by
        rintro ⟨es', va', n'', hes'⟩
        obtain ⟨q', hq', hn', htake', hva'⟩ := parseParms_of_entries (hany hes')
        rw [hq] at hq'
        cases hq'
        refine hno ?_
        rw [← htake, htake', ← hva, hva']
        exact hes'
      obtain ⟨msg, hmsg⟩ := h.reports hno'
      rw [hq] at hmsg
      cases hmsg
  · rintro ⟨hfirst, hcrash, hlong⟩
    refine ⟨fun es va n' hes => parseParms_of_entries (hany hes), fun hno => ?_⟩
    rcases parseParms_outcome hfirst n with ⟨es, va, n', hes⟩ | h | h
    · exact absurd ⟨es, va, n', hlong es va n' hes⟩ hno
    · exact absurd h hcrash
    · exact h

/-- `(() 5)` -/
def nilFirst : Sexp := .ofList [.nil, .int 5]

/-- It is read as two parameters without names and types. -/
theorem nil_first_accepted : parseParms initTypes nilFirst 0 =
      .ok (⟨[FunParm.blank, FunParm.blank], 2, false⟩, 0) ∧
    (¬ ∃ es va n', Pairs initTypes nilFirst 0 es va n') ∧ ¬ ParmsRight initTypes nilFirst 0 := by
  have hrun : parseParms initTypes nilFirst 0 =
      .ok (⟨[FunParm.blank, FunParm.blank], 2, false⟩, 0) := rfl
  have hno : ¬ ∃ es va n', Pairs initTypes nilFirst 0 es va n' := by
    rintro ⟨es, va, n', h⟩
    cases h
  refine ⟨hrun, hno, fun h => ?_⟩
  obtain ⟨msg, hmsg⟩ := h.reports hno
  rw [hrun] at hmsg
  cases hmsg

end Dolorem.Codegen
