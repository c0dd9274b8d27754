import Dolorem.Codegen.Moves

/-!
# What the converters do to a type

`convert_type` takes the alias layers off both types, one round at a time, and
forgets its flags with the first one: `alias_transparent_iff`. On types without
aliases a converter either leaves the value as it is or casts it to the LLVM
type of the target. Values that are left as they are keep the LLVM type they
have: `convert_correct_iff`.
-/

namespace Dolorem.Codegen

/-! ## Types behind their aliases -/

def unaliasTarget : LTy → Ty → Rtt
  | _, .alias _ l t => unaliasTarget l t
  | l, t => ⟨l, t⟩

/-- The type behind the alias layers. -/
def Rtt.unalias (r : Rtt) : Rtt := unaliasTarget r.l r.t

/-- One alias layer is taken off, if there is one. -/
def Ty.peel : Ty → Ty
  | .alias _ _ t => t
  | t => t

def Rtt.peel (r : Rtt) : Rtt :=
  match r.t with
  | .alias _ l t => ⟨l, t⟩
  | _ => r

/-- What is done, up to the aliases of the type the result has. -/
def Conv.bare : Conv → Conv
  | same t => .same t.unalias
  | build op l t => .build op l t.unalias

variable {v u : Ty} {dest d : Rtt} {l : LTy} {n flags : Nat} {c : Conv} {t : Ty}

theorem unalias_of_bare (h : t.aliases = 0) : t.unalias = t := by
  cases t with
  | «alias» a l t => exact absurd h (Nat.succ_ne_zero _)
  | _ => rfl

theorem aliases_unalias (t : Ty) : t.unalias.aliases = 0 := by
  induction t with
  | «alias» a l t ih => exact ih
  | _ => rfl

theorem unaliasTarget_t (l : LTy) (t : Ty) : (unaliasTarget l t).t = t.unalias := by
  induction t generalizing l with
  | «alias» a l' t ih => exact ih l'
  | _ => rfl

theorem Rtt.unalias_t (r : Rtt) : r.unalias.t = r.t.unalias := unaliasTarget_t r.l r.t

theorem Rtt.unalias_of_bare {r : Rtt} (h : r.t.aliases = 0) : r.unalias = r := by
  obtain ⟨l, t⟩ := r
  cases t with
  | «alias» a l t => exact absurd h (Nat.succ_ne_zero _)
  | _ => rfl

theorem Ty.unalias_peel (t : Ty) : t.peel.unalias = t.unalias := by
  cases t <;> rfl

theorem Rtt.unalias_peel (r : Rtt) : r.peel.unalias = r.unalias := by
  obtain ⟨l, t⟩ := r
  cases t <;> rfl

theorem Ty.aliases_peel (t : Ty) : t.peel.aliases = t.aliases - 1 := by
  cases t <;> rfl

theorem Rtt.peel_t (r : Rtt) : r.peel.t = r.t.peel := by
  obtain ⟨l, t⟩ := r
  cases t <;> rfl

/-! ## The search through the converters -/

theorem convertEqualTypes_self (v : Ty) (l : LTy) (flags : Nat) :
    convertEqualTypes v ⟨l, v⟩ flags = some (.same v) := by
  cases v <;> simp [convertEqualTypes]

theorem convertWithin_self (n : Nat) (v : Ty) (l : LTy) (flags : Nat) :
    convertWithin n v ⟨l, v⟩ flags = some (.same v) := by
  cases n <;> simp [convertWithin, convertEqualTypes_self]

theorem convertAliasUnwrap_bare (rec : Ty → Rtt → Nat → Option Conv) (hv : v.aliases = 0)
    (hd : dest.t.aliases = 0) : convertAliasUnwrap rec v dest flags = none := by
  obtain ⟨l, t⟩ := dest
  cases v with
  | «alias» a l t => exact absurd hv (Nat.succ_ne_zero _)
  | _ =>
    cases t with
    | «alias» a l t => exact absurd hd (Nat.succ_ne_zero _)
    | _ => rfl

/-- Without aliases there is nothing to unwrap. -/
theorem convertWithin_zero (n : Nat) (hv : v.aliases = 0) (hd : dest.t.aliases = 0) (flags : Nat) :
    convertWithin n v dest flags = convertWithin 0 v dest flags := by
  cases n with
  | zero => rfl
  | succ n => simp only [convertWithin, convertAliasUnwrap_bare _ hv hd, Option.none_or]

/-- With aliases, a layer is taken off each side and the flags are forgotten. -/
theorem convertWithin_peel (n : Nat) (h : 0 < v.aliases + dest.t.aliases) (hne : v ≠ dest.t)
    (flags : Nat) : convertWithin (n + 1) v dest flags = convertWithin n v.peel dest.peel 0 := by
  obtain ⟨l, t⟩ := dest
  cases v with
  | «alias» a l' t' =>
    have he : convertEqualTypes (.alias a l' t') ⟨l, t⟩ flags = none := by
      simp only [convertEqualTypes, if_neg hne]
    cases t <;>
      simp [convertWithin, he, convertPointerTypes, convertAliasUnwrap, convertNumbers,
        Ty.isPointer, Ty.peel, Rtt.peel]
  | _ =>
    cases t with
    | «alias» a l' t' =>
      simp [convertWithin, convertEqualTypes, convertPointerTypes, convertAliasUnwrap,
        convertNumbers, Ty.isPointer, Ty.peel, Rtt.peel]
    | _ => cases h

/-- The converters see the types behind the aliases, and no flags if there are aliases. -/
theorem convertWithin_eq (n : Nat) (v : Ty) (dest : Rtt) (flags : Nat)
    (h : v.aliases + dest.t.aliases ≤ n) :
    (convertWithin n v dest flags).map Conv.bare =
      (convertWithin 0 v.unalias dest.unalias
        (if v.aliases + dest.t.aliases = 0 then flags else 0)).map Conv.bare := by
  induction n generalizing v dest flags with
  | zero =>
    obtain ⟨hv, hd⟩ := Nat.add_eq_zero_iff.1 (Nat.le_zero.1 h)
    rw [unalias_of_bare hv, Rtt.unalias_of_bare hd, if_pos (Nat.le_zero.1 h)]
  | succ n ih =>
    by_cases hb : v.aliases + dest.t.aliases = 0
    · obtain ⟨hv, hd⟩ := Nat.add_eq_zero_iff.1 hb
      rw [unalias_of_bare hv, Rtt.unalias_of_bare hd, if_pos hb, convertWithin_zero _ hv hd]
    · rw [if_neg hb]
      by_cases he : v = dest.t
      · obtain ⟨l, t⟩ := dest
        obtain rfl : v = t := he
        have hd : Rtt.unalias ⟨l, v⟩ = ⟨(Rtt.unalias ⟨l, v⟩).l, v.unalias⟩ := by
          rw [← Rtt.unalias_t ⟨l, v⟩]
        rw [convertWithin_self, hd, convertWithin_self]
        show some (Conv.same v.unalias) = some (Conv.same v.unalias.unalias)
        rw [unalias_of_bare (aliases_unalias v)]
      · have hle : v.peel.aliases + dest.peel.t.aliases ≤ n := by
          rw [Rtt.peel_t, Ty.aliases_peel, Ty.aliases_peel]
          omega
        rw [convertWithin_peel n (Nat.pos_of_ne_zero hb) he, ih _ _ _ hle, Ty.unalias_peel,
          Rtt.unalias_peel, ite_self]

theorem convertTypes_eq (v : Ty) (dest : Rtt) (flags : Nat) :
    (convertTypes v dest flags).map Conv.bare =
      (convertWithin 0 v.unalias dest.unalias
        (if v.aliases + dest.t.aliases = 0 then flags else 0)).map Conv.bare :=
  convertWithin_eq _ v dest flags le_rfl

theorem convertTypes_unaliased (v : Ty) (dest : Rtt) (flags : Nat) :
    convertTypes v.unalias dest.unalias flags = convertWithin 0 v.unalias dest.unalias flags := by
  have hd : dest.unalias.t.aliases = 0 := by
    rw [Rtt.unalias_t]
    exact aliases_unalias _
  exact convertWithin_zero _ (aliases_unalias v) hd flags

/-! ## Flags -/

/-- Conversions between types without aliases that have to be explicit. -/
def NeedsExplicit : Ty → Ty → Prop
  | .float _, .integer _ _ | .integer _ _, .funptr _ => True
  | .float m, .float n => m < n
  | _, _ => False

theorem convertPointerTypes_flags (h : ¬ NeedsExplicit v dest.t) (flags flags' : Nat) :
    convertPointerTypes v dest flags = convertPointerTypes v dest flags' := by
  unfold convertPointerTypes
  split
  · rfl
  · split
    · next hd _ =>
      rw [hd] at h
      exact absurd trivial h
    · rfl

theorem convertNumbers_flags (h : ¬ NeedsExplicit v dest.t) (flags flags' : Nat) :
    convertNumbers v dest flags = convertNumbers v dest flags' := by
  unfold convertNumbers
  split
  · rfl
  · next m n hd =>
    rw [hd] at h
    have hmn : ¬ m < n := h
    simp only [hmn, and_false]
  · rfl
  · next hd =>
    rw [hd] at h
    exact absurd trivial h
  · rfl

theorem convertWithin_flags (h : ¬ (flags &&& tcfExplicit ≠ 0 ∧ NeedsExplicit v dest.t)) :
    convertWithin 0 v dest 0 = convertWithin 0 v dest flags := by
  by_cases hn : NeedsExplicit v dest.t
  · have hf : flags &&& tcfExplicit = 0 := by
      by_contra hf
      exact h ⟨hf, hn⟩
    have hz : 0 &&& tcfExplicit = 0 := rfl
    simp only [convertWithin, convertEqualTypes, convertPointerTypes, convertNumbers, hf, hz]
  · simp only [convertWithin, convertEqualTypes, convertPointerTypes_flags hn 0 flags,
      convertNumbers_flags hn 0 flags]

/-- A conversion that has to be explicit is done with the flag, and only then. -/
theorem convertWithin_explicit (hf : flags &&& tcfExplicit ≠ 0) (h : NeedsExplicit v dest.t) :
    convertWithin 0 v dest 0 = none ∧ ∃ c, convertWithin 0 v dest flags = some c := by
  obtain ⟨l, t⟩ := dest
  unfold NeedsExplicit at h
  split at h
  · next hd =>
    obtain rfl := hd
    simp [convertWithin, convertEqualTypes, convertPointerTypes, convertNumbers, Ty.isPointer, hf]
  · next hd =>
    obtain rfl := hd
    simp [convertWithin, convertEqualTypes, convertPointerTypes, convertNumbers, Ty.isPointer, hf]
  · next m n hd =>
    obtain rfl := hd
    simp [convertWithin, convertEqualTypes, convertPointerTypes, convertNumbers, Ty.isPointer, hf,
      h, Nat.ne_of_lt h]
  · cases h

/-! ## Aliases -/

/-- Two conversions fail both, or have the same value and the same code, and types that are the
same behind their aliases. -/
def SameConversion : Except Halt (Option Rtv × St) → Except Halt (Option Rtv × St) → Prop
  | .ok (c, s), .ok (c', s') =>
    s = s' ∧ c.map (fun r => (r.v, r.t.unalias)) = c'.map fun r => (r.v, r.t.unalias)
  | .error h, .error h' => h = h'
  | _, _ => False

/-- Among types without aliases, an opaque one converts to itself only. -/
def OpaqueFixed : Prop := ∀ (a : Nat) (t : Ty) (l : LTy) (flags : Nat), t.aliases = 0 →
  ((convertTypes (.opaqueAlias a) ⟨l, t⟩ flags).isSome ↔ t = .opaqueAlias a)

theorem opaque_fixed : OpaqueFixed := by
  intro a t l flags ht
  cases t with
  | «alias» b l t => exact absurd ht (Nat.succ_ne_zero _)
  | opaqueAlias b =>
    rcases eq_or_ne a b with rfl | hne
    · simp [convertTypes, convertWithin_self]
    · simp [convertTypes, convertWithin, Ty.aliases, convertEqualTypes, convertPointerTypes,
        convertNumbers, Ty.isPointer, hne, hne.symm]
  | _ =>
    simp [convertTypes, convertWithin, Ty.aliases, convertEqualTypes, convertPointerTypes,
      convertNumbers, Ty.isPointer]

/-- A value that can be read. -/
def Rtv.Readable (a : Rtv) : Prop := a.lval = true → ∃ l, a.v.ty = .ptr l

/-- Reading does not look at the front-end type. -/
theorem prepareRead_type {a : Rtv} (h : a.Readable) (s : St) : ∃ v s',
    ∀ t, prepareRead { a with t := t } s = .ok (⟨v, t, false⟩, s') := by
  obtain ⟨v, t, lval⟩ := a
  cases lval with
  | false => exact ⟨v, s, fun _ => rfl⟩
  | true =>
    obtain ⟨l, hl⟩ := h rfl
    refine ⟨⟨.inst s.here, l⟩, s.emit (.load v), fun t => ?_⟩
    have hl' : v.ty = .ptr l := hl
    simp only [prepareRead, if_true, hl']
    rfl

/-- What becomes of a value that was read. -/
def converted (c : Option Conv) (v : Rtv) (s : St) : Option Rtv × St :=
  match c with
  | none => (none, s)
  | some c => (some (c.apply v s).1, (c.apply v s).2)

theorem convertType_of_read {a v : Rtv} {s s' : St} (h : prepareRead a s = .ok (v, s')) (dest : Rtt)
    (flags : Nat) :
    convertType a dest flags s = .ok (converted (convertTypes v.t dest flags) v s') := by
  simp only [convertType, h, ok_bind]
  cases convertTypes v.t dest flags <;> rfl

theorem apply_bare {c c' : Conv} (h : c.bare = c'.bare) (v : Value) (t t' : Ty) (s : St) :
    (c.apply ⟨v, t, false⟩ s).2 = (c'.apply ⟨v, t', false⟩ s).2 ∧
      (c.apply ⟨v, t, false⟩ s).1.v = (c'.apply ⟨v, t', false⟩ s).1.v ∧
      (c.apply ⟨v, t, false⟩ s).1.t.unalias = (c'.apply ⟨v, t', false⟩ s).1.t.unalias := by
  cases c with
  | same t₁ =>
    cases c' with
    | same t₂ => exact ⟨rfl, rfl, Conv.same.inj h⟩
    | build op l t₂ => cases h
  | build op l t₁ =>
    cases c' with
    | same t₂ => cases h
    | build op' l' t₂ =>
      obtain ⟨rfl, rfl, ht⟩ := Conv.build.inj h
      exact ⟨rfl, rfl, ht⟩

/-- Aliases make no difference to a conversion if and only if it has no aliases to unwrap, or does
not have to be explicit. -/
theorem alias_transparent_iff {a : Rtv} (dest : Rtt) (flags : Nat) (s : St) (hr : a.Readable) :
    (SameConversion (convertType a dest flags s)
        (convertType { a with t := a.t.unalias } dest.unalias flags s) ∧ OpaqueFixed) ↔
      ¬ (0 < a.t.aliases + dest.t.aliases ∧ flags &&& tcfExplicit ≠ 0 ∧
        NeedsExplicit a.t.unalias dest.t.unalias) := by
  obtain ⟨v, s', hread⟩ := prepareRead_type hr s
  have hread' : prepareRead a s = .ok (⟨v, a.t, false⟩, s') := hread a.t
  have heq := convertTypes_eq a.t dest flags
  rw [and_iff_left opaque_fixed, convertType_of_read hread', convertType_of_read (hread _),
    convertTypes_unaliased]
  constructor
  · rintro h ⟨haliases, hf, hn⟩
    rw [if_neg (Nat.pos_iff_ne_zero.1 haliases)] at heq
    rw [← Rtt.unalias_t] at hn
    obtain ⟨hnone, c, hc⟩ := convertWithin_explicit hf hn
    rw [hnone, Option.map_none, Option.map_eq_none_iff] at heq
    rw [heq, hc] at h
    cases h.2
  · intro h
    have hsame : (convertTypes a.t dest flags).map Conv.bare =
        (convertWithin 0 a.t.unalias dest.unalias flags).map Conv.bare := by
      rw [heq]
      split
      · rfl
      · next haliases =>
        rw [convertWithin_flags]
        rw [Rtt.unalias_t]
        exact fun hn => h ⟨Nat.pos_of_ne_zero haliases, hn⟩
    cases hc : convertTypes a.t dest flags with
    | none =>
      rw [hc, Option.map_none, eq_comm, Option.map_eq_none_iff] at hsame
      rw [hsame]
      exact ⟨rfl, rfl⟩
    | some c =>
      rw [hc, Option.map_some, eq_comm, Option.map_eq_some_iff] at hsame
      obtain ⟨c', hc', hbare⟩ := hsame
      rw [hc']
      obtain ⟨hst, hv, ht⟩ := apply_bare hbare.symm v a.t a.t.unalias s'
      refine ⟨hst, ?_⟩
      rw [Option.map_some, Option.map_some, hv, ht]

/-- A value of the type `seconds`, an alias of `double`. -/
def seconds : Rtv := ⟨⟨.ext 0, .double⟩, .alias 0 .double (.float 2), false⟩

/-- A variable of this type, converted explicitly. -/
def secondsVar : Rtv := ⟨⟨.ext 0, .ptr .double⟩, .alias 0 .double (.float 2), true⟩

theorem alias_transparent_iff_example :
    (SameConversion (convertType secondsVar (lowerIntegerType 32 true) tcfExplicit emptyBody)
        (convertType { secondsVar with t := secondsVar.t.unalias }
          (lowerIntegerType 32 true).unalias tcfExplicit emptyBody) ∧ OpaqueFixed) ↔
      ¬ (0 < secondsVar.t.aliases + (lowerIntegerType 32 true).t.aliases ∧
        tcfExplicit &&& tcfExplicit ≠ 0 ∧
        NeedsExplicit secondsVar.t.unalias (lowerIntegerType 32 true).t.unalias) :=
  alias_transparent_iff _ tcfExplicit _ fun _ => ⟨.double, rfl⟩

/-- `(convert i32 x)` fails on a value of this type, and not on a `double`. -/
theorem alias_not_transparent :
    convertType seconds (lowerIntegerType 32 true) tcfExplicit emptyBody = .ok (none, emptyBody) ∧
      (∃ r s', convertType { seconds with t := seconds.t.unalias } (lowerIntegerType 32 true).unalias
        tcfExplicit emptyBody = .ok (some r, s')) ∧
      ¬ (SameConversion (convertType seconds (lowerIntegerType 32 true) tcfExplicit emptyBody)
        (convertType { seconds with t := seconds.t.unalias } (lowerIntegerType 32 true).unalias
          tcfExplicit emptyBody) ∧ OpaqueFixed) := by
  have hleft : convertType seconds (lowerIntegerType 32 true) tcfExplicit emptyBody =
      .ok (none, emptyBody) := rfl
  obtain ⟨r, s', hright⟩ : ∃ r s', convertType { seconds with t := seconds.t.unalias }
      (lowerIntegerType 32 true).unalias tcfExplicit emptyBody = .ok (some r, s') := ⟨_, _, rfl⟩
  refine ⟨hleft, ⟨r, s', hright⟩, fun h => ?_⟩
  rw [hleft, hright] at h
  cases h.1.2

/-! ## The type of the result -/

/-- Target types, as the type macros and `defstruct` build them. LLVM counts the elements of an
array with 32 bits. -/
inductive Built : Rtt → Prop
  | void : Built ⟨.void, .void⟩
  | integer (size : Nat) (flag : Bool) : Built (lowerIntegerType size flag)
  | float : Built ⟨.float, .float 1⟩
  | double : Built ⟨.double, .float 2⟩
  | rawPtr : Built ⟨.ptr (.int 8), .rawPtr⟩
  | pointer {r : Rtt} : Built r → Built (lowerPointerType r)
  | opaqueAlias (a : Nat) (l : LTy) : Built ⟨l, .opaqueAlias a⟩
  | typealias {r : Rtt} (a : Nat) : Built r → Built ⟨r.l, .alias a r.l r.t⟩
  | array {r : Rtt} (a size n : Nat) : Built r → Built ⟨.array n r.l, .array a size r.t⟩
  | struct (a : Nat) (l : LTy) : Built ⟨l, .struct a⟩
  | funptr (a : Nat) (l : LTy) : Built ⟨l, .funptr a⟩

/-- An alias has the LLVM type of what it stands for. -/
theorem Built.unalias_l {r : Rtt} (h : Built r) : r.unalias.l = r.l := by
  induction h with
  | typealias a _ ih => exact ih
  | _ => rfl

def Ty.isNumber : Ty → Bool
  | .integer _ _ | .float _ => true
  | _ => false

/-- Conversions between types without aliases that are done by a cast. -/
def Casts (v t : Ty) : Prop :=
  v ≠ t ∧ (v.isNumber = true ∧ t.isNumber = true ∨ v.isInt = true ∧ ∃ a, t = .funptr a)

theorem pointer_not_casts (hv : v.isPointer = true) (t : Ty) : ¬ Casts v t := by
  rintro ⟨-, h⟩
  cases v with
  | rawPtr => rcases h with ⟨h, -⟩ | ⟨h, -⟩ <;> cases h
  | pointer t => rcases h with ⟨h, -⟩ | ⟨h, -⟩ <;> cases h
  | _ => cases hv

/-- What the converters do with types that have no aliases. -/
theorem convertWithin_spec (h : convertWithin 0 v dest flags = some c) :
    c = .same v ∧ v = dest.t ∨ (∃ a b, c = .same v ∧ v = .funptr a ∧ dest.t = .funptr b) ∨
      c = .same dest.t ∧ v.isPointer = true ∧ dest.t.isPointer = true ∨
      ∃ op, c = .build op dest.l dest.t ∧ Casts v dest.t := by
  by_cases he : v = dest.t
  · obtain ⟨l, t⟩ := dest
    obtain rfl : v = t := he
    rw [convertWithin_self] at h
    exact .inl ⟨(Option.some.inj h).symm, rfl⟩
  refine .inr ?_
  rw [convertWithin, Option.or_eq_some_iff] at h
  rcases h with h | ⟨-, h⟩
  · unfold convertEqualTypes at h
    split at h
    · next a b hd => exact .inl ⟨a, b, (Option.some.inj h).symm, rfl, hd⟩
    · rw [if_neg he] at h
      cases h
  rw [Option.or_eq_some_iff] at h
  refine .inr ?_
  rcases h with h | ⟨-, h⟩
  · unfold convertPointerTypes at h
    split at h
    · next hp => exact .inl ⟨(Option.some.inj h).symm, (Bool.and_eq_true_iff.1 hp)⟩
    · split at h
      · next size flag a hd _ =>
        split at h
        · refine .inr ⟨.intToPtr, ?_, he, .inr ⟨rfl, a, hd⟩⟩
          rw [hd]
          exact (Option.some.inj h).symm
        · cases h
      · cases h
  · refine .inr ?_
    unfold convertNumbers at h
    split at h
    · next hd =>
      rw [hd] at he ⊢
      exact ⟨_, (Option.some.inj h).symm, he, .inl ⟨rfl, rfl⟩⟩
    · next hd =>
      split at h
      · cases h
      · rw [hd] at he ⊢
        exact ⟨_, (Option.some.inj h).symm, he, .inl ⟨rfl, rfl⟩⟩
    · next hd =>
      rw [hd] at he ⊢
      exact ⟨_, (Option.some.inj h).symm, he, .inl ⟨rfl, rfl⟩⟩
    · next hd =>
      split at h
      · rw [hd] at he ⊢
        exact ⟨_, (Option.some.inj h).symm, he, .inl ⟨rfl, rfl⟩⟩
      · cases h
    · cases h

/-- The LLVM type of a value once it is read. -/
def Rtv.readTy (a : Rtv) : Option LTy :=
  if a.lval then
    match a.v.ty with
    | .ptr l => some l
    | _ => none
  else some a.v.ty

theorem prepareRead_readTy {a v : Rtv} {s s' : St} (h : prepareRead a s = .ok (v, s')) :
    v.lval = false ∧ v.t = a.t ∧ a.readTy = some v.v.ty := by
  unfold prepareRead at h
  unfold Rtv.readTy
  cases hl : a.lval with
  | false =>
    rw [hl, if_neg Bool.false_ne_true] at h
    cases h
    exact ⟨hl, rfl, rfl⟩
  | true =>
    rw [hl, if_pos rfl] at h
    cases hty : a.v.ty with
    | ptr l =>
      rw [hty] at h
      cases h
      exact ⟨rfl, rfl, rfl⟩
    | _ =>
      rw [hty] at h
      cases h

theorem buildCast_ty (op : CastOp) (v : Value) (l : LTy) (s : St) :
    (s.buildCast op v l).1.ty = l := by
  unfold St.buildCast
  split
  · next h => exact h
  · rfl

/-- The result of a conversion: kept under a type, or cast. -/
theorem apply_result {c c' : Conv} (h : c.bare = c'.bare) (v : Rtv) (s : St) :
    (∀ t, c' = .same t → (c.apply v s).1.v.ty = v.v.ty ∧ (c.apply v s).1.t.unalias = t.unalias) ∧
      ∀ op l t, c' = .build op l t → (c.apply v s).1.v.ty = l ∧ (c.apply v s).1.t.unalias = t.unalias := by
  cases c with
  | same t₁ =>
    refine ⟨?_, ?_⟩
    · rintro t rfl
      exact ⟨rfl, Conv.same.inj h⟩
    · rintro op l t rfl
      cases h
  | build op₁ l₁ t₁ =>
    refine ⟨?_, ?_⟩
    · rintro t rfl
      cases h
    · rintro op l t rfl
      obtain ⟨rfl, rfl, ht⟩ := Conv.build.inj h
      exact ⟨buildCast_ty _ _ _ _, ht⟩

/-- When the result of a conversion has the type that is asked for. -/
theorem converted_right_iff {a r : Rtv} {dest : Rtt} {flags : Nat} {s s' : St} (hd : Built dest)
    (h : convertType a dest flags s = .ok (some r, s')) :
    (r.v.ty = dest.l ∧ r.t.unalias = dest.t.unalias) ↔
      Casts a.t.unalias dest.t.unalias ∨ a.readTy = some dest.l ∧
        ∀ f g, a.t.unalias = .funptr f → dest.t.unalias = .funptr g → f = g := by
  obtain ⟨⟨v, s₁⟩, hread, -⟩ := bind_ok.1 h
  obtain ⟨-, ht, hty⟩ := prepareRead_readTy hread
  rw [convertType_of_read hread, ht] at h
  have heq := convertTypes_eq a.t dest flags
  cases hc : convertTypes a.t dest flags with
  | none =>
    rw [hc] at h
    cases h
  | some c =>
    rw [hc] at h
    cases h
    rw [hc, Option.map_some, eq_comm, Option.map_eq_some_iff] at heq
    obtain ⟨c', hc', hbare⟩ := heq
    obtain ⟨hsame, hbuild⟩ := apply_result hbare.symm v s₁
    have hdt : dest.t.unalias.unalias = dest.t.unalias := unalias_of_bare (aliases_unalias _)
    have hat : a.t.unalias.unalias = a.t.unalias := unalias_of_bare (aliases_unalias _)
    have hspec := convertWithin_spec hc'
    rw [Rtt.unalias_t, hd.unalias_l] at hspec
    rw [hty, Option.some_inj]
    rcases hspec with ⟨rfl, he⟩ | ⟨f, g, rfl, hf, hg⟩ | ⟨rfl, hv, -⟩ | ⟨op, rfl, hcast⟩
    · obtain ⟨hl, hu⟩ := hsame _ rfl
      rw [hl, hu, hat, he, or_iff_right fun h : Casts _ _ => h.1 rfl, and_iff_left rfl]
      refine (and_iff_left fun f g hf hg => ?_).symm
      exact Ty.funptr.inj (hf.symm.trans hg)
    · obtain ⟨hl, hu⟩ := hsame _ rfl
      rw [hl, hu, hat, hf, hg]
      have hno : ¬ Casts (.funptr f) (.funptr g) := by
        rintro ⟨-, ⟨h, -⟩ | ⟨h, -⟩⟩ <;> cases h
      rw [or_iff_right hno]
      refine and_congr_right fun _ => ⟨?_, fun h => by rw [h f g rfl rfl]⟩
      rintro ⟨⟩ f' g' ⟨⟩ ⟨⟩
      rfl
    · obtain ⟨hl, hu⟩ := hsame _ rfl
      rw [hl, hu, hdt]
      rw [or_iff_right (pointer_not_casts hv _), and_iff_left rfl]
      refine (and_iff_left fun f g hf _ => ?_).symm
      rw [hf] at hv
      cases hv
    · obtain ⟨hl, hu⟩ := hbuild _ _ _ rfl
      rw [hl, hu, hdt]
      exact iff_of_true ⟨rfl, rfl⟩ (.inl hcast)

/-- The result of a conversion has the type that is asked for if and only if it is a cast, or the
value has the LLVM type already and is not one function pointer for another. -/
theorem convert_correct_iff {a r : Rtv} {dest : Rtt} {flags : Nat} {s s' : St} (hd : Built dest)
    (h : convertType a dest flags s = .ok (some r, s')) :
    (r.v.ty = dest.l ∧ r.t.unalias = dest.t.unalias) ↔
      Casts a.t.unalias dest.t.unalias ∨ a.readTy = some dest.l ∧
        ∀ f g, a.t.unalias = .funptr f → dest.t.unalias = .funptr g → f = g :=
  converted_right_iff hd h

theorem convert_correct_iff_example : ∃ (r : Rtv) (s' : St),
    convertType seconds ⟨.float, .float 1⟩ 0 emptyBody = .ok (some r, s') ∧
      (r.v.ty = .float ∧ r.t.unalias = .float 1 ↔
        Casts seconds.t.unalias (.float 1) ∨ seconds.readTy = some .float ∧
          ∀ f g, seconds.t.unalias = .funptr f → Ty.float 1 = .funptr g → f = g) := by
  obtain ⟨r, s', hrun⟩ : ∃ r s', convertType seconds ⟨.float, .float 1⟩ 0 emptyBody =
      .ok (some r, s') := ⟨_, _, rfl⟩
  exact ⟨r, s', hrun, convert_correct_iff .float hrun⟩

/-- A pointer to bytes. -/
def bytes : Rtv := ⟨⟨.ext 0, .ptr (.int 8)⟩, .pointer (.integer 8 false), false⟩

/-- It becomes a pointer to words in its front-end type only. -/
theorem pointer_not_cast : ∃ r s',
    convertType bytes (lowerPointerType (lowerIntegerType 32 false)) 0 emptyBody =
        .ok (some r, s') ∧ Built (lowerPointerType (lowerIntegerType 32 false)) ∧
      r.v.ty = .ptr (.int 8) ∧
      ¬ (r.v.ty = (lowerPointerType (lowerIntegerType 32 false)).l ∧
        r.t.unalias = (lowerPointerType (lowerIntegerType 32 false)).t.unalias) := by
  refine ⟨⟨bytes.v, .pointer (.integer 32 false), false⟩, emptyBody, rfl, .pointer (.integer 32 false),
    rfl, ?_⟩
  decide

end Dolorem.Codegen
