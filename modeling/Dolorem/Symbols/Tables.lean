import Dolorem.Codegen.Eval
import Dolorem.Symbols.Insertion

/-!
# The compiler's tables of names

Types, type classes, globals and functions are each kept in a hash map. Most
registrations look a name up first and refuse one that is there; macros replace
what they find. `tables_are_maps` says that the tables are finite maps, whatever
the hash function, and `register_stands` that the list of functions in the
evaluator's state is one of these maps.
-/

namespace Dolorem.Symbols

open Codegen

/-- A registration or a lookup. The text is the message for a name that is there already. -/
inductive Access (α : Type) where
  | register (text name : String) (value : α)
  | replace (name : String) (value : α)
  | lookup (name : String)

/-- What comes back. -/
inductive Answer (α : Type) where
  | registered
  | rejected (text : String)
  | found (value : Option α)
deriving DecidableEq, Repr

/-! ## The functions that use the tables -/

section

variable {φ π τ : Type}

/-- `struct typeinf`, by its name and its printer. -/
structure TypeInf (π : Type) where
  name : String
  printer : π

/-- `struct type_name`. -/
structure TypeName (φ π : Type) where
  name : String
  fn : φ
  prop : π
deriving DecidableEq

/-- `struct global`. -/
structure Global (τ : Type) where
  name : String
  type : τ

/-- `register_type_class`. -/
def registerTypeClass (name : String) (printer : π) : Access (TypeInf π) :=
  .register "cannot \"register-type-class\" \"%s\" because it already exists" name ⟨name, printer⟩

/-- `register_type`. -/
def registerType (name : String) (fn : φ) (prop : π) : Access (TypeName φ π) :=
  .register "cannot \"register-type\" \"%s\" because it already exists" name ⟨name, fn, prop⟩

/-- `lower_defglobal`, up to the definition of the symbol. -/
def lowerDefglobal (name : String) (type : τ) : Access (Global τ) :=
  .register "global already defined: \"%s\"" name ⟨name, type⟩

/-- The registration in `funproto` and `defun`. -/
def registerFun (f : Fun) : Access Fun :=
  .register "function already exists: \"%s\"" f.name f

/-- `lower_macroproto`. -/
def lowerMacroproto (name : String) : Access Fun := .replace name (macroproto name)

/-- `lower_typemacroproto`. -/
def lowerTypemacroproto (name : String) : Access Fun := .replace name (typemacroproto name)

/-- `lower_typeconverterproto`. -/
def lowerTypeconverterproto (name : String) : Access Fun :=
  .replace name ⟨name, rtvType, [("v", rtvType), ("to", rttType),
    ("is_explicit", lowerIntegerType 32 false)], false⟩

/-- `lookup_fun`. -/
def lookupFun (name : String) : Access Fun := .lookup name

end

/-! ## Runs -/

section

variable {α : Type} (hash : String → Nat)

/-- Carry out an access; `none` is an insertion that does not return within `n` rehashes. -/
def Access.run (n : Nat) (m : HashMap α) : Access α → Option (Answer α × HashMap α)
  | .register text name value =>
    match m.get hash name with
    | some _ => some (.rejected text, m)
    | none => (m.put hash n name value).map fun m => (.registered, m)
  | .replace name value => (m.put hash n name value).map fun m => (.registered, m)
  | .lookup name => some (.found (m.get hash name), m)

/-- A sequence of accesses in which every insertion returns. -/
inductive Runs : HashMap α → List (Access α) → List (Answer α) → HashMap α → Prop
  | nil (m : HashMap α) : Runs m [] [] m
  | cons {m m₁ m' : HashMap α} {a : Access α} {as : List (Access α)} {b : Answer α}
      {bs : List (Answer α)} (n : Nat) :
      a.run hash n m = some (b, m₁) → Runs m₁ as bs m' → Runs m (a :: as) (b :: bs) m'

/-- The run whose insertions return within `n` rehashes. -/
def runWithin (n : Nat) : HashMap α → List (Access α) → Option (List (Answer α) × HashMap α)
  | m, [] => some ([], m)
  | m, a :: as => do
    let (b, m₁) ← a.run hash n m
    let (bs, m') ← runWithin n m₁ as
    return (b :: bs, m')

variable {hash}

theorem runs_of_runWithin {n : Nat} {as : List (Access α)} {bs : List (Answer α)}
    {m m' : HashMap α} (h : runWithin hash n m as = some (bs, m')) : Runs hash m as bs m' := by
  induction as generalizing m bs with
  | nil =>
    cases h
    exact .nil _
  | cons a as ih =>
    obtain ⟨⟨b, m₁⟩, hstep, h⟩ := Option.bind_eq_some_iff.1 h
    obtain ⟨⟨bs', m₂⟩, hrest, h⟩ := Option.bind_eq_some_iff.1 h
    cases h
    exact .cons n hstep (ih hrest)

end

/-! ## Finite maps -/

section

variable {α : Type}

/-- The access, in a finite map. -/
def Access.spec (f : String → Option α) : Access α → Answer α × (String → Option α)
  | .register text name value =>
    if (f name).isSome then (.rejected text, f)
    else (.registered, Function.update f name (some value))
  | .replace name value => (.registered, Function.update f name (some value))
  | .lookup name => (.found (f name), f)

def specRun : List (Access α) → (String → Option α) → List (Answer α) × (String → Option α)
  | [], f => ([], f)
  | a :: as, f => ((a.spec f).1 :: (specRun as (a.spec f).2).1, (specRun as (a.spec f).2).2)

variable {hash : String → Nat} {m m' : HashMap α}

/-- A step of the table is one of the finite map. -/
theorem step_spec (hm : m.Placed hash) {n : Nat} {a : Access α} {b : Answer α}
    (h : a.run hash n m = some (b, m')) :
    m'.Placed hash ∧ a.spec (m.get hash) = (b, m'.get hash) := by
  cases a with
  | register text name value =>
    dsimp only [Access.run, Access.spec] at h ⊢
    cases hget : m.get hash name with
    | some v =>
      rw [hget] at h
      cases h
      exact ⟨hm, rfl⟩
    | none =>
      rw [hget] at h
      obtain ⟨m₁, hput, h⟩ := Option.map_eq_some_iff.1 h
      cases h
      have hins := HashMap.put_inserted hm hput
      rw [hins.get hm]
      exact ⟨hins.placed, rfl⟩
  | replace name value =>
    obtain ⟨m₁, hput, h⟩ := Option.map_eq_some_iff.1 h
    cases h
    have hins := HashMap.put_inserted hm hput
    rw [hins.get hm]
    exact ⟨hins.placed, rfl⟩
  | lookup name =>
    cases h
    exact ⟨hm, rfl⟩

/-- A run of the table is one of the finite map. -/
theorem run_spec (hm : m.Placed hash) {as : List (Access α)} {bs : List (Answer α)}
    (h : Runs hash m as bs m') :
    m'.Placed hash ∧ specRun as (m.get hash) = (bs, m'.get hash) := by
  induction h with
  | nil => exact ⟨hm, rfl⟩
  | cons n hstep _ ih =>
    obtain ⟨hm₁, hspec⟩ := step_spec hm hstep
    obtain ⟨hm', hspecs⟩ := ih hm₁
    refine ⟨hm', ?_⟩
    unfold specRun
    rw [hspec, hspecs]

end

/-- Every run of a table from `hashmap_new` in which the insertions return answers like the finite
map from names to values, and the table holds that map afterwards; a rehash permutes its entries.
The table is one of those, the ones in which each key is in its place, for which this holds of
every rehash, the ones within an insertion or another rehash included. -/
theorem tables_are_maps {α : Type} (hash : String → Nat) (as : List (Access α))
    (bs : List (Answer α)) (m : HashMap α) (h : Runs hash .new as bs m) :
    specRun as (fun _ => none) = (bs, m.get hash) ∧ m.Placed hash ∧
      ∀ t : HashMap α, t.Placed hash →
        (∀ n name value t', t.put hash n name value = some t' → t'.Placed hash) ∧
        ∀ n t', HashMap.rehash (HashMap.put hash n) t = some t' →
          t'.Placed hash ∧ t'.entries.Perm t.entries := by
  have hnew : (HashMap.new : HashMap α).get hash = fun _ => none := by
    funext name
    refine Option.eq_none_iff_forall_ne_some.2 fun value hget => ?_
    obtain ⟨i, hi⟩ := (HashMap.get_eq_some HashMap.placed_new).1 hget
    cases hi
  obtain ⟨hm, hspec⟩ := run_spec HashMap.placed_new h
  rw [hnew] at hspec
  exact ⟨hspec, hm, fun t ht => ⟨fun n name value t' hput => (HashMap.put_inserted ht hput).placed,
    fun n t' => HashMap.rehash_perm ht⟩⟩

/-- Nine types whose names belong in one slot are registered, and looked up. -/
def sharedTypes : List (Access (TypeName Unit Nat)) :=
  (sharedSlot.map fun e => registerType e.1 () 8) ++
    [.lookup "variable", registerType "xi" () 9, .lookup "u32"]

def sharedAnswers : List (Answer (TypeName Unit Nat)) :=
  List.replicate 9 .registered ++ [.found (some ⟨"variable", (), 8⟩),
    .rejected "cannot \"register-type\" \"%s\" because it already exists", .found none]

/-- The ninth name makes the table twice as large. -/
theorem tables_are_maps_example : ∃ m : HashMap (TypeName Unit Nat),
    Runs hashOfString .new sharedTypes sharedAnswers m ∧ m.tableSize = 512 ∧
      m.get hashOfString "xi" = some ⟨"xi", (), 8⟩ := by
  have hrun : (runWithin hashOfString 1 .new sharedTypes).map (fun r => (r.1, r.2.tableSize)) =
      some (sharedAnswers, 512) := by decide +kernel
  obtain ⟨⟨bs, m⟩, hm, hr⟩ := Option.map_eq_some_iff.1 hrun
  obtain ⟨rfl, hsize⟩ := Prod.mk.inj hr
  have hspec := (tables_are_maps _ _ _ m (runs_of_runWithin hm)).1
  exact ⟨m, runs_of_runWithin hm, hsize, (congrFun (congrArg Prod.snd hspec) "xi").symm⟩

/-- The list of functions in the evaluator's state is the table of functions. -/
theorem register_stands {hash : String → Nat} {m m' : HashMap Fun} (hm : m.Placed hash) {s : St}
    (hs : ∀ name, m.get hash name = s.funs.lookup name) {f : Fun} {n : Nat}
    (h : m.put hash n f.name f = some m') (name : String) :
    m'.get hash name = (s.register f).funs.lookup name := by
  show _ = List.lookup name ((f.name, f) :: s.funs)
  rw [(HashMap.put_inserted hm h).get hm, List.lookup_cons]
  rcases eq_or_ne name f.name with rfl | hne
  · rw [Function.update_self, beq_self_eq_true]
  · rw [Function.update_of_ne hne, beq_eq_false_iff_ne.2 hne, hs]

end Dolorem.Symbols
