import Mathlib.Data.List.TakeWhile

/-!
# The reader's values

`struct val` of `list.h` with the two fields error messages use, and the tree
surgery `actual_read` performs on it. The list that is being read is reached
through two pointers: `v`, the end of the list, and `groupb`, the first atom
since the last `;`. Both always point into the spine of the list, so a pointer
is the number of `cdr` steps that lead to it (`Val.modifyAt`).

Text is kept as a parameter `σ`: the reader stores addresses in its buffer
(`Ptr`, see `Buffer`), the finished tree stores what stands there.
-/

namespace Dolorem.Reader

/-- `CharIdx` and `FileIdx` of a `struct val`. A `fileIdx` of `none` is a field
the code never assigns. -/
structure Loc where
  charIdx : Nat
  fileIdx : Option Nat
deriving DecidableEq, Repr

/-- `struct val`. A `tyCons` value with a null `V.L` is `nil`. The value of a
float node is `strtod` of its token; the node keeps the token. -/
inductive Val (σ : Type) where
  | nil (loc : Loc)
  | cons (loc : Loc) (car cdr : Val σ)
  | int (loc : Loc) (i : Int)
  | float (loc : Loc) (tok : List Char)
  | string (loc : Loc) (s : σ)
  | ident (loc : Loc) (s : σ)
  | char (loc : Loc) (i : Int)
deriving DecidableEq, Repr

/-- A tree without source positions. -/
inductive Sexp where
  | nil
  | cons (car cdr : Sexp)
  | int (i : Int)
  | float (tok : List Char)
  | string (s : List Char)
  | ident (s : List Char)
  | char (i : Int)
deriving DecidableEq, Repr

namespace Sexp

/-- The list of the given items. -/
def ofList : List Sexp → Sexp
  | [] => nil
  | a :: l => cons a (ofList l)

/-- `T == tyCons`, empty lists included. -/
def isList : Sexp → Bool
  | nil | cons _ _ => true
  | _ => false

@[simp] theorem isList_ofList (l : List Sexp) : (ofList l).isList = true := by
  cases l <;> rfl

theorem ofList_injective : ∀ {l m : List Sexp}, ofList l = ofList m → l = m
  | [], [], _ => rfl
  | [], _ :: _, h => by cases h
  | _ :: _, [], h => by cases h
  | a :: l, b :: m, h => by
    simp only [ofList, cons.injEq] at h
    rw [h.1, ofList_injective h.2]

end Sexp

namespace Val

variable {σ τ : Type}

def loc : Val σ → Loc
  | nil l | cons l _ _ | int l _ | float l _ | string l _ | ident l _ | char l _ => l

/-- `T == tyCons`. -/
def isCons : Val σ → Bool
  | nil _ | cons _ _ _ => true
  | _ => false

/-- Assign `CharIdx`. -/
def setCharIdx (i : Nat) : Val σ → Val σ
  | nil l => nil { l with charIdx := i }
  | cons l a d => cons { l with charIdx := i } a d
  | int l n => int { l with charIdx := i } n
  | float l t => float { l with charIdx := i } t
  | string l s => string { l with charIdx := i } s
  | ident l s => ident { l with charIdx := i } s
  | char l n => char { l with charIdx := i } n

def map (f : σ → τ) : Val σ → Val τ
  | nil l => nil l
  | cons l a d => cons l (a.map f) (d.map f)
  | int l n => int l n
  | float l t => float l t
  | string l s => string l (f s)
  | ident l s => ident l (f s)
  | char l n => char l n

/-- The value `n` steps down the spine, changed by `f`. -/
def modifyAt (f : Val σ → Val σ) : Nat → Val σ → Val σ
  | 0, x => f x
  | n + 1, cons l a d => cons l a (modifyAt f n d)
  | _ + 1, x => x

/-- Forget the positions. -/
def erase : Val (List Char) → Sexp
  | nil _ => .nil
  | cons _ a d => .cons a.erase d.erase
  | int _ n => .int n
  | float _ t => .float t
  | string _ s => .string s
  | ident _ s => .ident s
  | char _ n => .char n

@[simp] theorem map_loc (f : σ → τ) (x : Val σ) : (x.map f).loc = x.loc := by
  cases x <;> rfl

@[simp] theorem map_isCons (f : σ → τ) (x : Val σ) : (x.map f).isCons = x.isCons := by
  cases x <;> rfl

@[simp] theorem map_setCharIdx (f : σ → τ) (i : Nat) (x : Val σ) :
    (x.setCharIdx i).map f = (x.map f).setCharIdx i := by
  cases x <;> rfl

@[simp] theorem erase_setCharIdx (i : Nat) (x : Val (List Char)) :
    (x.setCharIdx i).erase = x.erase := by
  cases x <;> rfl

@[simp] theorem erase_isList (x : Val (List Char)) : x.erase.isList = x.isCons := by
  cases x <;> rfl

theorem map_modifyAt {g : σ → τ} {f : Val σ → Val σ} {f' : Val τ → Val τ}
    (h : ∀ x, (f x).map g = f' (x.map g)) :
    ∀ (n : Nat) (x : Val σ), (x.modifyAt f n).map g = (x.map g).modifyAt f' n
  | 0, x => h x
  | n + 1, x => by
    cases x with
    | cons l a d => simp only [modifyAt, map, map_modifyAt h n d]
    | _ => rfl

end Val

/-- The list under construction in `actual_read`: the value it was called on,
the local variables `v` and `groupb` as distances down the spine, and the copy
`prototype` of the value taken on entry. -/
structure Build (σ : Type) where
  root : Val σ
  v : Nat
  groupb : Option Nat
  prototype : Val σ
deriving DecidableEq, Repr

namespace Build

variable {σ τ : Type}

/-- The first lines of `actual_read`. -/
def start (r : Val σ) : Build σ := ⟨r, 0, none, r⟩

/-- The code at `insert_part`: `r` becomes the last item, and opens a `;` group
when it is the first atom since the last `;`. -/
def insertPart (b : Build σ) (r : Val σ) : Build σ where
  root := b.root.modifyAt
    (fun e => .cons e.loc r (b.prototype.setCharIdx r.loc.charIdx)) b.v
  v := b.v + 1
  groupb := if !r.isCons && b.groupb.isNone then some b.v else b.groupb
  prototype := b.prototype

/-- The `is_curly` branch: `(scope . r)` becomes the last item. It never opens
a `;` group, and the new end of the list keeps the prototype's position. -/
def insertScope (b : Build σ) (fileidx : Nat) (scope : σ) (r : Val σ) : Build σ where
  root := b.root.modifyAt (fun e =>
    .cons e.loc
      (.cons ⟨r.loc.charIdx, some fileidx⟩ (.ident ⟨r.loc.charIdx, some fileidx⟩ scope) r)
      b.prototype) b.v
  v := b.v + 1
  groupb := b.groupb
  prototype := b.prototype

/-- The cell `groupb` points to becomes the last one of the list, and its `car`
the list of everything from there on. -/
def group (prototype : Val σ) : Val σ → Val σ
  | .cons l car cdr => .cons l (.cons car.loc car cdr) prototype
  | e => e

/-- `case ';'` at offset `s`. -/
def semi (b : Build σ) (s : Nat) : Option (Build σ) :=
  match b.groupb with
  | none => none
  | some g => some
    { b with
      root := (b.root.modifyAt (Val.setCharIdx s) b.v).modifyAt (group b.prototype) g
      v := g + 1
      groupb := none }

def map (f : σ → τ) (b : Build σ) : Build τ :=
  ⟨b.root.map f, b.v, b.groupb, b.prototype.map f⟩

theorem map_insertPart (f : σ → τ) (b : Build σ) (r : Val σ) :
    (b.insertPart r).map f = (b.map f).insertPart (r.map f) := by
  simp only [map, insertPart, Val.map_isCons, mk.injEq, and_true]
  exact Val.map_modifyAt (fun x => by simp [Val.map]) _ _

theorem map_insertScope (f : σ → τ) (b : Build σ) (fileidx : Nat) (scope : σ) (r : Val σ) :
    (b.insertScope fileidx scope r).map f =
      (b.map f).insertScope fileidx (f scope) (r.map f) := by
  simp only [map, insertScope, mk.injEq, and_true]
  exact Val.map_modifyAt (fun x => by simp [Val.map]) _ _

theorem map_semi (f : σ → τ) (b : Build σ) (s : Nat) :
    (b.map f).semi s = (b.semi s).map (map f) := by
  unfold semi
  cases hg : b.groupb with
  | none => simp [map, hg]
  | some g =>
    simp only [map, hg, Option.map_some, Option.some.injEq, mk.injEq, and_true]
    rw [← Val.map_modifyAt (f := Val.setCharIdx s) (by simp),
      ← Val.map_modifyAt (f := group b.prototype)]
    intro x
    cases x <;> simp [group, Val.map]

end Build

end Dolorem.Reader
