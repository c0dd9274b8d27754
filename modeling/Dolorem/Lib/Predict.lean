/-!
# Predicting a computation

`Predicts R o x P`: the abstract outcome `o` predicts the outcome of the
computation `x` and whether the property `P` of its course holds. A result is
predicted up to the relation `R`; `stops` predicts an error before any harm, and
`violated` says that `P` fails, whatever happens then. `bind` predicts two
computations in sequence, the second of which matters only where it is reached.
-/

namespace Predict

inductive Verdict where
  | violated
  | stops
deriving DecidableEq, Repr

variable {α α' β β' ε : Type}

def Predicts (R : α → β → Prop) (o : Except Verdict α) (x : Except ε β) (P : Prop) : Prop :=
  match o with
  | .ok a => P ∧ ∃ b, x = .ok b ∧ R a b
  | .error .stops => P ∧ ∃ h, x = .error h
  | .error .violated => ¬ P

namespace Predicts

variable {R : α → β → Prop} {T : α' → β' → Prop} {o : Except Verdict α} {x : Except ε β}
variable {P P' : Prop}

theorem congr (h : Predicts R o x P) (hP : P ↔ P') : Predicts R o x P' :=
  propext hP ▸ h

theorem mono {S : α → β → Prop} (h : Predicts R o x P) (hRS : ∀ a b, R a b → S a b) :
    Predicts S o x P :=
  match o, h with
  | .ok _, ⟨hP, b, hx, hR⟩ => ⟨hP, b, hx, hRS _ b hR⟩
  | .error .stops, h => h
  | .error .violated, h => h

theorem bind (h : Predicts R o x P) {f : α → Except Verdict α'} {g : β → Except ε β'}
    {Q : β → Prop} (k : ∀ a b, x = .ok b → R a b → Predicts T (f a) (g b) (Q b)) :
    Predicts T (o >>= f) (x >>= g) (P ∧ ∀ b, x = .ok b → Q b) := by
  match o, h with
  | .ok a, ⟨hP, b, hx, hR⟩ =>
    subst hx
    refine (k a b rfl hR).congr ⟨fun hQ => ⟨hP, fun b' hb' => ?_⟩, fun hQ => hQ.2 b rfl⟩
    cases hb'
    exact hQ
  | .error .stops, ⟨hP, msg, hx⟩ =>
    subst hx
    exact ⟨⟨hP, fun b hb => nomatch hb⟩, msg, rfl⟩
  | .error .violated, hP => exact fun hQ => hP hQ.1

/-- A last step that cannot fail. -/
theorem bind_ok (h : Predicts R o x P) {f : α → α'} {g : β → β'}
    (k : ∀ a b, R a b → T (f a) (g b)) :
    Predicts T (o >>= fun a => .ok (f a)) (x >>= fun b => .ok (g b)) P :=
  (h.bind (T := T) (f := fun a => .ok (f a)) (g := fun b => .ok (g b)) (Q := fun _ => True)
    fun a b _ hR => ⟨trivial, g b, rfl, k a b hR⟩).congr
      ⟨fun hQ => hQ.1, fun hP => ⟨hP, fun _ _ => trivial⟩⟩

theorem map {S : α → β' → Prop} (h : Predicts R o x P) {g : β → β'}
    (k : ∀ a b, R a b → S a (g b)) : Predicts S o (x >>= fun b => .ok (g b)) P := by
  have hid : (o >>= fun a => .ok a) = o := by cases o <;> rfl
  rw [← hid]
  exact h.bind_ok k

/-- What the prediction is for. -/
theorem iff (h : Predicts R o x P) : P ↔ o ≠ .error .violated := by
  match o, h with
  | .ok a, ⟨hP, _⟩ => exact iff_of_true hP fun h => nomatch h
  | .error .stops, ⟨hP, _⟩ => exact iff_of_true hP fun h => nomatch h
  | .error .violated, hP => exact iff_of_false hP fun h => h rfl

end Predicts

end Predict
