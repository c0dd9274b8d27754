import Mathlib.Data.Option.Basic
import Mathlib.Order.Basic

/-!
# Interpreters and machines

A machine is a partial function on states. An interpreter is given an amount of
fuel; it returns a result, leaves the code it was asked to run (`exit`), goes
wrong, or runs out of fuel. `Sim` says what each outcome means for the machine
that runs the translated code: when the fuel `n` was not enough, the machine has
at least `n` steps to make. So a translation for which `Sim` holds with every
amount of fuel preserves results, faults and divergence (`Sim.adequate`).
-/

namespace Interp

inductive Stop (ε : Type) where
  | exit (e : ε)
  | wrong
  | timeout
deriving DecidableEq, Repr

abbrev Outcome (ε α : Type) := Except (Stop ε) α

variable {σ ε α β : Type}

/-! ## Machines -/

section

variable (step : σ → Option σ)

/-- The state `n` steps later. -/
def after : Nat → σ → Option σ
  | 0, s => some s
  | n + 1, s => (step s).bind (after n)

def Reaches (s s' : σ) : Prop := ∃ n, after step n s = some s'

/-- The machine makes `n` steps. -/
def Lives (n : Nat) (s : σ) : Prop := ∃ s', after step n s = some s'

def Halts (s s' : σ) : Prop := Reaches step s s' ∧ step s' = none

variable {step} {s s₁ s₂ s₃ : σ} {m n : Nat}

theorem after_add (m n : Nat) (s : σ) :
    after step (m + n) s = (after step m s).bind (after step n) := by
  induction m generalizing s with
  | zero => rw [Nat.zero_add, after, Option.bind_some]
  | succ m ih =>
    rw [Nat.add_right_comm, after, after, Option.bind_assoc]
    exact congrArg _ (funext ih)

theorem Reaches.refl (s : σ) : Reaches step s s := ⟨0, rfl⟩

theorem Reaches.single (h : step s = some s₁) : Reaches step s s₁ :=
  ⟨1, by rw [after, h, Option.bind_some, after]⟩

theorem Reaches.trans (h : Reaches step s s₁) (k : Reaches step s₁ s₂) : Reaches step s s₂ := by
  obtain ⟨m, h⟩ := h
  obtain ⟨n, k⟩ := k
  exact ⟨m + n, by rw [after_add, h, Option.bind_some, k]⟩

theorem Lives.mono (h : Lives step n s) (hm : m ≤ n) : Lives step m s := by
  obtain ⟨k, rfl⟩ := Nat.exists_eq_add_of_le hm
  obtain ⟨s', h⟩ := h
  rw [after_add] at h
  obtain ⟨s₁, h₁, -⟩ := Option.bind_eq_some_iff.1 h
  exact ⟨s₁, h₁⟩

theorem Lives.of_reaches (h : Reaches step s s₁) (k : Lives step n s₁) : Lives step n s := by
  obtain ⟨m, h⟩ := h
  obtain ⟨s', k⟩ := k
  refine Lives.mono (n := m + n) ⟨s', ?_⟩ (Nat.le_add_left n m)
  rw [after_add, h, Option.bind_some, k]

theorem Lives.succ (h : step s = some s₁) (k : Lives step n s₁) : Lives step (n + 1) s := by
  obtain ⟨s', k⟩ := k
  exact ⟨s', by rw [after, h, Option.bind_some, k]⟩

/-- No step leads on from where a machine halts. -/
theorem Halts.not_lives (h : Halts step s s₁) : ∃ n, ¬ Lives step n s := by
  obtain ⟨⟨m, hm⟩, hstop⟩ := h
  refine ⟨m + 1, ?_⟩
  rintro ⟨s', hs'⟩
  rw [after_add, hm, Option.bind_some, after, hstop] at hs'
  cases hs'

theorem Halts.unique (h : Halts step s s₁) (k : Halts step s s₂) : s₁ = s₂ := by
  -- the longer run passes where the shorter one ends
  have hle : ∀ {s₁ s₂ : σ} {m n : Nat}, after step m s = some s₁ → step s₁ = none →
      after step n s = some s₂ → m ≤ n → s₁ = s₂ := by
    intro s₁ s₂ m n hm hstop hn hmn
    obtain ⟨k, rfl⟩ := Nat.exists_eq_add_of_le hmn
    rw [after_add, hm, Option.bind_some] at hn
    cases k with
    | zero => exact Option.some.inj hn
    | succ k =>
      rw [after, hstop] at hn
      cases hn
  obtain ⟨⟨m, hm⟩, hstop⟩ := h
  obtain ⟨⟨n, hn⟩, hstop'⟩ := k
  rcases Nat.le_total m n with hmn | hnm
  · exact hle hm hstop hn hmn
  · exact (hle hn hstop' hm hnm).symm

end

/-! ## Simulation -/

section

variable (step : σ → Option σ) (Stuck : σ → Prop)

/-- What the outcome of an interpreter with fuel `n` says about the machine in
the state `s`: with a result it comes to a state that `Q` relates to the result,
after an exit to one that `E` relates to the exit. -/
def Sim (n : Nat) (s : σ) (o : Outcome ε α) (Q : α → σ → Prop) (E : ε → σ → Prop) : Prop :=
  match o with
  | .ok a => ∃ s', Reaches step s s' ∧ Q a s'
  | .error (.exit e) => ∃ s', Reaches step s s' ∧ E e s'
  | .error .wrong => ∃ s', Reaches step s s' ∧ Stuck s'
  | .error .timeout => Lives step n s

variable {step Stuck} {n : Nat} {s s₁ : σ} {o : Outcome ε α} {Q Q' : α → σ → Prop}
variable {E E' : ε → σ → Prop} {R : β → σ → Prop} {f : α → Outcome ε β}

namespace Sim

theorem ok {a : α} (h : Q a s) : Sim step Stuck n s (.ok a) Q E := ⟨s, .refl s, h⟩

/-- What the machine does before. -/
theorem of_reaches (h : Reaches step s s₁) (k : Sim step Stuck n s₁ o Q E) :
    Sim step Stuck n s o Q E := by
  match o, k with
  | .ok _, ⟨s', k, hq⟩ => exact ⟨s', h.trans k, hq⟩
  | .error (.exit _), ⟨s', k, he⟩ => exact ⟨s', h.trans k, he⟩
  | .error .wrong, ⟨s', k, hw⟩ => exact ⟨s', h.trans k, hw⟩
  | .error .timeout, k => exact Lives.of_reaches h k

/-- A step pays for a unit of fuel. -/
theorem tick (h : step s = some s₁) (k : Sim step Stuck n s₁ o Q E) :
    Sim step Stuck (n + 1) s o Q E := by
  match o, k with
  | .ok _, k => exact of_reaches (n := n) (.single h) k
  | .error (.exit _), k => exact of_reaches (n := n) (.single h) k
  | .error .wrong, k => exact of_reaches (n := n) (.single h) k
  | .error .timeout, k => exact Lives.succ h k

theorem fuel_mono {m : Nat} (h : Sim step Stuck n s o Q E) (hm : m ≤ n) :
    Sim step Stuck m s o Q E := by
  match o, h with
  | .ok _, h => exact h
  | .error (.exit _), h => exact h
  | .error .wrong, h => exact h
  | .error .timeout, h => exact Lives.mono h hm

theorem imp (h : Sim step Stuck n s o Q E) (hQ : ∀ a s', Q a s' → Q' a s')
    (hE : ∀ e s', E e s' → E' e s') : Sim step Stuck n s o Q' E' := by
  match o, h with
  | .ok a, ⟨s', h, hq⟩ => exact ⟨s', h, hQ a s' hq⟩
  | .error (.exit e), ⟨s', h, he⟩ => exact ⟨s', h, hE e s' he⟩
  | .error .wrong, h => exact h
  | .error .timeout, h => exact h

/-- What the machine does after a result. -/
theorem onward (h : Sim step Stuck n s o Q E)
    (k : ∀ a s', Q a s' → ∃ s'', Reaches step s' s'' ∧ Q' a s'') : Sim step Stuck n s o Q' E := by
  match o, h with
  | .ok a, ⟨s', h, hq⟩ =>
    obtain ⟨s'', h', hq'⟩ := k a s' hq
    exact ⟨s'', h.trans h', hq'⟩
  | .error (.exit _), h => exact h
  | .error .wrong, h => exact h
  | .error .timeout, h => exact h

/-- One part after the other. -/
theorem bind (h : Sim step Stuck n s o Q E)
    (k : ∀ a s', Q a s' → Sim step Stuck n s' (f a) R E) : Sim step Stuck n s (o >>= f) R E := by
  match o, h with
  | .ok a, ⟨s', h, hq⟩ => exact of_reaches h (k a s' hq)
  | .error (.exit _), h => exact h
  | .error .wrong, h => exact h
  | .error .timeout, h => exact h

end Sim

end

/-! ## Loops -/

/-- A loop with at most `n` turns. The body says whether there is another turn. -/
def iterate (test body : α → Outcome ε (α × Bool)) : Nat → α → Outcome ε α
  | 0, _ => .error .timeout
  | n + 1, a => do
    let (a, go) ← test a
    if go then
      let (a, again) ← body a
      if again then iterate test body n a else .ok a
    else .ok a

section

variable {step : σ → Option σ} {Stuck : σ → Prop} {E : ε → σ → Prop} {Q : α → σ → Prop}

/-- The rule for loops: `I` holds in front of the test, `J` in front of the
body, and a step leads from the test to the body. -/
theorem Sim.iterate {test body : α → Outcome ε (α × Bool)} {I J : α → σ → Prop} {k : Nat}
    (htest : ∀ a s, I a s → Sim step Stuck k s (test a)
      (fun r s' => if r.2 then ∃ s'', step s' = some s'' ∧ J r.1 s'' else Q r.1 s') E)
    (hbody : ∀ a s, J a s → Sim step Stuck k s (body a)
      (fun r s' => if r.2 then I r.1 s' else Q r.1 s') E)
    {n : Nat} (hn : n ≤ k) {a : α} {s : σ} (h : I a s) :
    Sim step Stuck n s (iterate test body n a) Q E := by
  induction n generalizing a s with
  | zero => exact ⟨s, rfl⟩
  | succ n ih =>
    refine ((htest a s h).fuel_mono hn).bind ?_
    rintro ⟨a₁, go⟩ s₁ h₁
    cases go with
    | false => exact .ok h₁
    | true =>
      obtain ⟨s₂, hstep, hj⟩ := h₁
      refine .tick hstep (((hbody a₁ s₂ hj).fuel_mono (Nat.le_of_succ_le hn)).bind ?_)
      rintro ⟨a₃, again⟩ s₃ h₃
      cases again with
      | false => exact .ok h₃
      | true => exact ih (Nat.le_of_succ_le hn) h₃

/-- With `Sim` for every amount of fuel, interpreter and machine agree on
results, faults and divergence. -/
theorem Sim.adequate {s : σ} {o : Nat → Outcome ε α}
    (h : ∀ n, Sim step Stuck n s (o n) Q fun _ _ => False)
    (hQ : ∀ a s', Q a s' → step s' = none) (hStuck : ∀ s', Stuck s' → step s' = none)
    (apart : ∀ a s', Q a s' → ¬ Stuck s') (inj : ∀ a b s', Q a s' → Q b s' → a = b) :
    (∀ a, (∃ n, o n = .ok a) ↔ ∃ s', Halts step s s' ∧ Q a s') ∧
      ((∃ n, o n = .error .wrong) ↔ ∃ s', Halts step s s' ∧ Stuck s') ∧
      ((∀ n, o n = .error .timeout) ↔ ∀ n, Lives step n s) := by
  have result : ∀ {n a}, o n = .ok a → ∃ s', Halts step s s' ∧ Q a s' := by
    intro n a ho
    have hn := h n
    rw [ho] at hn
    obtain ⟨s', hr, hq⟩ := hn
    exact ⟨s', ⟨hr, hQ a s' hq⟩, hq⟩
  have fault : ∀ {n}, o n = .error .wrong → ∃ s', Halts step s s' ∧ Stuck s' := by
    intro n ho
    have hn := h n
    rw [ho] at hn
    obtain ⟨s', hr, hw⟩ := hn
    exact ⟨s', ⟨hr, hStuck s' hw⟩, hw⟩
  have more : ∀ {n}, o n = .error .timeout → Lives step n s := by
    intro n ho
    have hn := h n
    rwa [ho] at hn
  have no_exit : ∀ {n e}, o n ≠ .error (.exit e) := by
    intro n e ho
    have hn := h n
    rw [ho] at hn
    obtain ⟨s', -, hf⟩ := hn
    exact hf
  -- with enough fuel the interpreter of a machine that halts has an answer
  have answer : ∀ {s'}, Halts step s s' →
      (∃ n a, o n = .ok a ∧ Q a s') ∨ ∃ n, o n = .error .wrong ∧ Stuck s' := by
    intro s' hs'
    obtain ⟨n, hn⟩ := hs'.not_lives
    rcases ho : o n with (e | - | -) | a
    · exact absurd ho no_exit
    · obtain ⟨s₁, h₁, hw⟩ := fault ho
      exact .inr ⟨n, ho, h₁.unique hs' ▸ hw⟩
    · exact absurd (more ho) hn
    · obtain ⟨s₁, h₁, hq⟩ := result ho
      exact .inl ⟨n, a, ho, h₁.unique hs' ▸ hq⟩
  refine ⟨fun a => ⟨?_, ?_⟩, ⟨?_, ?_⟩, ⟨fun ho n => more (ho n), fun hl n => ?_⟩⟩
  · rintro ⟨n, ho⟩
    exact result ho
  · rintro ⟨s', hs', hq⟩
    rcases answer hs' with ⟨n, b, ho, hb⟩ | ⟨n, -, hw⟩
    · exact ⟨n, inj a b s' hq hb ▸ ho⟩
    · exact absurd hw (apart a s' hq)
  · rintro ⟨n, ho⟩
    exact fault ho
  · rintro ⟨s', hs', hw⟩
    rcases answer hs' with ⟨n, b, ho, hb⟩ | ⟨n, ho, -⟩
    · exact absurd hw (apart b s' hb)
    · exact ⟨n, ho⟩
  · rcases ho : o n with (e | - | -) | a
    · exact absurd ho no_exit
    · obtain ⟨s', hs', -⟩ := fault ho
      obtain ⟨m, hm⟩ := hs'.not_lives
      exact absurd (hl m) hm
    · rfl
    · obtain ⟨s', hs', -⟩ := result ho
      obtain ⟨m, hm⟩ := hs'.not_lives
      exact absurd (hl m) hm

end

/-! ## Outcomes -/

/-- What holds of an outcome: `Q` of a result, `E` of an exit, `W` if the
interpreter went wrong, `T` if the fuel was not enough. -/
def Post (Q : α → Prop) (E : ε → Prop) (W T : Prop) : Outcome ε α → Prop
  | .ok a => Q a
  | .error (.exit e) => E e
  | .error .wrong => W
  | .error .timeout => T

section

variable {Q : α → Prop} {E E' : ε → Prop} {W T : Prop} {o : Outcome ε α}

namespace Post

theorem imp {R : α → Prop} (h : Post Q E W T o) (hQ : ∀ a, Q a → R a) (hE : ∀ e, E e → E' e) :
    Post R E' W T o := by
  match o, h with
  | .ok a, h => exact hQ a h
  | .error (.exit e), h => exact hE e h
  | .error .wrong, h => exact h
  | .error .timeout, h => exact h

theorem bind {R : β → Prop} {f : α → Outcome ε β} (h : Post Q E W T o)
    (k : ∀ a, Q a → Post R E W T (f a)) : Post R E W T (o >>= f) := by
  match o, h with
  | .ok a, h => exact k a h
  | .error (.exit _), h => exact h
  | .error .wrong, h => exact h
  | .error .timeout, h => exact h

/-- The rule for loops, with the invariants `I` in front of the test and `J` in
front of the body. -/
theorem iterate {test body : α → Outcome ε (α × Bool)} {I J : α → Prop}
    (htest : ∀ a, I a → Post (fun r => if r.2 then J r.1 else Q r.1) E W T (test a))
    (hbody : ∀ a, J a → Post (fun r => if r.2 then I r.1 else Q r.1) E W T (body a)) (hT : T)
    {n : Nat} {a : α} (h : I a) : Post Q E W T (Interp.iterate test body n a) := by
  induction n generalizing a with
  | zero => exact hT
  | succ n ih =>
    refine (htest a h).bind ?_
    rintro ⟨a₁, go⟩ h₁
    cases go with
    | false => exact h₁
    | true =>
      refine (hbody a₁ h₁).bind ?_
      rintro ⟨a₂, again⟩ h₂
      cases again with
      | false => exact h₂
      | true => exact ih h₂

end Post

end

end Interp
