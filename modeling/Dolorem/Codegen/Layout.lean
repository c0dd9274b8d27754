import Dolorem.Codegen.Fill

/-!
# Where the members of a struct are

LLVM lays the fields out in their natural layout, and a union is the field of
its longest member. In C the storage of a union has room for the largest and
the alignment of the most aligned of its members.

Two data layouts meet here. `sizeof_type` asks `typemod`, a module that no
target is set for, so `defstruct` compares the members by LLVM's default layout,
in which a 64-bit integer is aligned to four bytes. The modules that run get the
layout of the host. So the member that is chosen has to be, on the host, the
largest and the most aligned one: `defstruct_fits_iff`.
-/

namespace Dolorem.Codegen

open Reader (Sexp)
open Layout

/-- A data layout of LLVM: `getTypeAllocSize` and `getABITypeAlign`. -/
structure DataLayout where
  size : LTy → Nat
  align : LTy → Nat
  pos : ∀ l, 0 < align l
  dvd : ∀ l, align l ∣ size l

def DataLayout.shape (d : DataLayout) (l : LTy) : Layout.Shape :=
  ⟨d.size l, d.align l, d.pos l, d.dvd l⟩

/-- What an entry of a member list declares: one member, or the members of a union. -/
inductive FieldDecl where
  | plain (l : LTy)
  | union (ls : List LTy)
deriving DecidableEq, Repr

namespace FieldDecl

def types : FieldDecl → List LTy
  | plain l => [l]
  | union ls => ls

/-- The storage it has in C. -/
def shape (d : DataLayout) : FieldDecl → Layout.Shape
  | plain l => d.shape l
  | union ls => Layout.union (ls.map d.shape)

/-- The field that `defstruct` gives it: a union has that of the first of its longest members.
The lengths are those of `typemod`. -/
def Field (typemod : DataLayout) : FieldDecl → LTy → Prop
  | plain l, l' => l' = l
  | union ls, l' => FirstLargest typemod.size ls l'

end FieldDecl

section Read

variable (evalType : Sexp → Except Halt Rtt)

def declaredEntry (m : Sexp) : Except Halt FieldDecl := do
  let union ← isUnion m
  if union then
    let ms ← unionMembers evalType (← car (← cdr m))
    .ok (.union (ms.map (·.1.l)))
  else
    let (type, _) ← readMember evalType "excess elements in struct member" m
    .ok (.plain type.l)

def declaredEntries : Sexp → Except Halt (List FieldDecl)
  | .cons m rest => do
    let x ← declaredEntry evalType m
    let xs ← declaredEntries rest
    .ok (x :: xs)
  | _ => .ok []

/-- What the member list of a form `(name memblist)` declares. -/
def declared (e : Sexp) : Except Halt (List FieldDecl) := do
  declaredEntries evalType (← car (← cdr e))

end Read

/-- The fields `body` have room for what is declared, and everything is where C has it. -/
structure Fits (d : DataLayout) (xs : List FieldDecl) (body : List LTy) : Prop where
  room : List.Forall₂ (fun x l => ∀ l' ∈ x.types, d.size l' ≤ d.size l ∧ d.align l' ≤ d.align l)
    xs body
  offsets : offsets 0 (body.map d.shape) = offsets 0 (xs.map (FieldDecl.shape d))

variable {typemod d : DataLayout} {evalType : Sexp → Except Halt Rtt}

/-- The layout of a machine that aligns numbers to their size, up to eight bytes. -/
def naturalAlign : LTy → Nat
  | .int w => if w ≤ 8 then 1 else if w ≤ 16 then 2 else if w ≤ 32 then 4 else 8
  | .float => 4
  | .double | .ptr _ => 8
  | .array _ l => naturalAlign l
  | _ => 1

def naturalSize : LTy → Nat
  | .int w => alignUp ((w + 7) / 8) (naturalAlign (.int w))
  | .float => 4
  | .double | .ptr _ => 8
  | .array n l => n * naturalSize l
  | _ => 0

def naturalLayout : DataLayout where
  size := naturalSize
  align := naturalAlign
  pos l := by
    induction l with
    | array n l ih => exact ih
    | int w =>
      unfold naturalAlign
      repeat' split
      all_goals decide
    | _ => simp [naturalAlign]
  dvd l := by
    induction l with
    | array n l ih => exact Nat.dvd_mul_left_of_dvd ih n
    | int w => exact dvd_alignUp _ _
    | _ => simp [naturalAlign, naturalSize]

/-- The alignment of LLVM's default layout, which `typemod` keeps. -/
def typemodAlign : LTy → Nat
  | .int w => min (naturalAlign (.int w)) 4
  | .array _ l => typemodAlign l
  | l => naturalAlign l

def typemodSize : LTy → Nat
  | .int w => alignUp ((w + 7) / 8) (typemodAlign (.int w))
  | .array n l => n * typemodSize l
  | l => naturalSize l

def typemodLayout : DataLayout where
  size := typemodSize
  align := typemodAlign
  pos l := by
    induction l with
    | array n l ih => exact ih
    | int w => exact lt_min (naturalLayout.pos (.int w)) (by decide)
    | _ => simp [typemodAlign, naturalAlign]
  dvd l := by
    induction l with
    | array n l ih => exact Nat.dvd_mul_left_of_dvd ih n
    | int w => exact dvd_alignUp _ _
    | _ => simp [typemodAlign, typemodSize, naturalAlign, naturalSize]

/-- The storage of a type where the fields of the struct `id` are `body`. -/
def DataLayout.shapeWith (d : DataLayout) (id : Nat) (body : List LTy) : LTy → Layout.Shape
  | .struct n => if n = id then Layout.struct (body.map d.shape) else d.shape (.struct n)
  | .array n l =>
    let s := d.shapeWith id body l
    ⟨n * s.size, s.align, s.pos, Nat.dvd_mul_left_of_dvd s.dvd n⟩
  | l => d.shape l

/-- The layout that knows the fields of the struct `id`. -/
def DataLayout.define (d : DataLayout) (id : Nat) (body : List LTy) : DataLayout where
  size l := (d.shapeWith id body l).size
  align l := (d.shapeWith id body l).align
  pos l := (d.shapeWith id body l).pos
  dvd l := (d.shapeWith id body l).dvd

/-! ## The fields that are chosen -/

/-- An entry that is read has a declaration, and its field is the one the declaration gets. -/
theorem EntryField.declared {m : Sexp} {l : LTy} {w : Nat} (h : EntryField evalType typemod.size m l w) :
    ∃ x, declaredEntry evalType m = .ok x ∧ x.Field typemod l := by
  cases h with
  | @plain r hu hm' =>
    refine ⟨.plain r.1.l, ?_, rfl⟩
    simp only [declaredEntry, hu, hm', ok_bind, Bool.false_eq_true, if_false]
  | @union c ms ts before after _ hu hc hms hts he _ hb ha =>
    refine ⟨.union (ts.map (·.1.l)), ?_, before, after, he, hb, ha⟩
    simp only [declaredEntry, hu, hc, hms, hts, ok_bind, if_true]

/-- Every entry counts. -/
theorem countStructLen_cons {m rest : Sexp} {n k : Nat}
    (h : countStructLen (.cons m rest) = .ok (n, k)) : ∃ n', n = n' + 1 := by
  rw [countStructLen] at h
  obtain ⟨union, -, h⟩ := bind_ok.1 h
  cases union with
  | false =>
    simp only [Bool.false_eq_true, if_false, ok_bind] at h
    obtain ⟨⟨n', k'⟩, -, h⟩ := bind_ok.1 h
    cases h
    exact ⟨n', rfl⟩
  | true =>
    simp only [if_true, ok_bind] at h
    obtain ⟨c, -, h⟩ := bind_ok.1 h
    obtain ⟨ms, -, h⟩ := bind_ok.1 h
    obtain ⟨⟨n', k'⟩, -, h⟩ := bind_ok.1 h
    cases h
    exact ⟨n', rfl⟩

/-- When the loop has filled a field for each entry, it has read all entries. -/
theorem structMembers_fields {nmemb : Nat} {m : Sexp} {memb : List StructMemb} {t : List LTy}
    {n k : Nat} {r : List StructMemb × List LTy} (hcount : countStructLen m = .ok (n, k))
    (h : structMembers evalType typemod.size nmemb m memb t = .ok r) (hlen : t.length + n ≤ r.2.length) :
    ∃ xs body, declaredEntries evalType m = .ok xs ∧ r.2 = t ++ body ∧
      List.Forall₂ (FieldDecl.Field typemod) xs body := by
  induction m generalizing memb t n k with
  | cons m rest _ ih =>
    by_cases hlt : memb.length < nmemb
    · obtain ⟨l, w, memb', n', k', hentry, hrest, rfl, -, -, h⟩ :=
        structMembers_cons_ok hcount hlt h
      obtain ⟨x, hx, hfield⟩ := hentry.declared
      obtain ⟨xs, body, hxs, hbody, hall⟩ := ih hrest h (by
        rw [List.length_append, List.length_singleton, Nat.add_assoc, Nat.add_comm 1]
        exact hlen)
      refine ⟨x :: xs, l :: body, ?_, ?_, .cons hfield hall⟩
      · rw [declaredEntries, hx, ok_bind, hxs, ok_bind]
      · rw [hbody, List.append_assoc]
        rfl
    · rw [structMembers, if_neg hlt] at h
      cases h
      obtain ⟨n', rfl⟩ := countStructLen_cons hcount
      exact absurd hlen (Nat.not_le.2 (Nat.lt_add_of_pos_right (Nat.succ_pos n')))
  | _ =>
    cases hcount
    refine ⟨[], [], rfl, ?_, .nil⟩
    by_cases hlt : memb.length < nmemb
    · simp only [structMembers, if_pos hlt] at h
      cases h
    · simp only [structMembers, if_neg hlt] at h
      cases h
      exact (List.append_nil _).symm

theorem defstruct_fields {registered : List Char → Bool} {id : Nat} {e : Sexp} {p : StructProp}
    (h : defstruct evalType typemod.size registered id e = .ok p) :
    ∃ xs, declared evalType e = .ok xs ∧ List.Forall₂ (FieldDecl.Field typemod) xs p.body := by
  unfold defstruct at h
  obtain ⟨a, -, h⟩ := bind_ok.1 h
  obtain ⟨name, -, h⟩ := bind_ok.1 h
  obtain ⟨c, hc, h⟩ := bind_ok.1 h
  obtain ⟨memblist, hm, h⟩ := bind_ok.1 h
  split at h
  · cases h
  obtain ⟨c', -, h⟩ := bind_ok.1 h
  obtain ⟨rest, -, h⟩ := bind_ok.1 h
  split at h
  · cases h
  obtain ⟨⟨n, k⟩, hcount, h⟩ := bind_ok.1 h
  obtain ⟨⟨memb, t⟩, hr, h⟩ := bind_ok.1 h
  simp only at h
  split at h
  · cases h
  next hlen =>
  split at h
  · cases h
  cases h
  obtain ⟨xs, body, hxs, rfl, hall⟩ := structMembers_fields hcount hr (by
    rw [List.length_nil, Nat.zero_add]
    exact Nat.not_lt.1 hlen)
  refine ⟨xs, ?_, hall⟩
  rw [declared, hc, ok_bind, hm, ok_bind, hxs]

/-! ## Room and offsets -/

/-- The first of the longest members of a union is, on the host, its largest and its most aligned
one. -/
def FirstRoomiest (typemod d : DataLayout) (x : FieldDecl) : Prop :=
  ∀ ls, x = .union ls → ∃ l, FirstLargest typemod.size ls l ∧
    ∀ l' ∈ ls, d.size l' ≤ d.size l ∧ d.align l' ≤ d.align l

theorem field_room_iff {x : FieldDecl} {l : LTy} (h : x.Field typemod l) :
    (∀ l' ∈ x.types, d.size l' ≤ d.size l ∧ d.align l' ≤ d.align l) ↔
      FirstRoomiest typemod d x := by
  cases x with
  | plain l₀ =>
    obtain rfl : l = l₀ := h
    refine iff_of_true (fun l' hl' => ?_) (fun ls hls => nomatch hls)
    obtain rfl := List.mem_singleton.1 hl'
    exact ⟨le_rfl, le_rfl⟩
  | union ls =>
    constructor
    · rintro hroom _ ⟨⟩
      exact ⟨l, h, hroom⟩
    · intro hmost
      obtain ⟨l₁, hl₁, hroom⟩ := hmost ls rfl
      obtain rfl := hl₁.unique h
      exact hroom

/-- Where the field is the roomiest member, it takes the storage that C has. -/
theorem field_shape {x : FieldDecl} {l : LTy} (h : x.Field typemod l)
    (hmost : FirstRoomiest typemod d x) : d.shape l = x.shape d := by
  cases x with
  | plain l₀ =>
    obtain rfl : l = l₀ := h
    rfl
  | union ls =>
    have hroom := (field_room_iff h).2 hmost
    refine (union_eq (List.mem_map_of_mem h.mem) ?_ ?_).symm
    · exact List.forall_mem_map.2 fun l' hl' => (hroom l' hl').1
    · exact List.forall_mem_map.2 fun l' hl' => (hroom l' hl').2

theorem fits_iff {xs : List FieldDecl} {body : List LTy}
    (h : List.Forall₂ (FieldDecl.Field typemod) xs body) :
    Fits d xs body ↔ ∀ x ∈ xs, FirstRoomiest typemod d x := by
  constructor
  · rintro ⟨hroom, -⟩
    induction h with
    | nil => exact fun x hx => nomatch hx
    | cons hx _ ih =>
      cases hroom with
      | cons hr hrest => exact List.forall_mem_cons.2 ⟨(field_room_iff hx).1 hr, ih hrest⟩
  · intro hmost
    have hshape : body.map d.shape = xs.map (FieldDecl.shape d) := by
      induction h with
      | nil => rfl
      | cons hx _ ih =>
        obtain ⟨hm, hrest⟩ := List.forall_mem_cons.1 hmost
        rw [List.map_cons, List.map_cons, field_shape hx hm, ih hrest]
    refine ⟨?_, by rw [hshape]⟩
    clear hshape
    induction h with
    | nil => exact .nil
    | cons hx _ ih =>
      obtain ⟨hm, hrest⟩ := List.forall_mem_cons.1 hmost
      exact .cons ((field_room_iff hx).2 hm) (ih hrest)

/-- The type of a number without a sign, or of an array of such numbers. -/
def unsignedArrayType : Sexp → Except Halt Rtt
  | .cons (.ident k) (.cons (.int n) (.cons t .nil)) => do
    let t ← unsignedType t
    if k = "array".toList then .ok ⟨.array n.toNat t.l, .array 0 n.toNat t.t⟩
    else .error (.error "unknown type")
  | e => unsignedType e

/-- `(defstruct s ((u8 a) (union ((u8 b) (u32 c)))))`. -/
def wordForm : Sexp :=
  .ofList [.ident "s".toList, .ofList [.ofList [.ident "u8".toList, .ident "a".toList],
    .ofList [.ident "union".toList, .ofList [.ofList [.ident "u8".toList, .ident "b".toList],
      .ofList [.ident "u32".toList, .ident "c".toList]]]]]

/-- The struct it defines. -/
def wordStruct : StructProp where
  name := "s".toList
  l := .struct 0
  memb := [⟨"a".toList, lowerIntegerType 8 false, 0, none⟩,
    ⟨"b".toList, lowerIntegerType 8 false, 0, some 2⟩,
    ⟨"c".toList, lowerIntegerType 32 false, 1, some 2⟩]
  body := [.int 8, .int 32]

/-- `(defstruct s ((u8 a) (union (((array 5 u8) b) (u32 c)))))`. -/
def fiveBytesForm : Sexp :=
  .ofList [.ident "s".toList, .ofList [.ofList [.ident "u8".toList, .ident "a".toList],
    .ofList [.ident "union".toList, .ofList [
      .ofList [.ofList [.ident "array".toList, .int 5, .ident "u8".toList], .ident "b".toList],
      .ofList [.ident "u32".toList, .ident "c".toList]]]]]

/-- The struct it defines. -/
def fiveBytesStruct : StructProp where
  name := "s".toList
  l := .struct 0
  memb := [⟨"a".toList, lowerIntegerType 8 false, 0, none⟩,
    ⟨"b".toList, ⟨.array 5 (.int 8), .array 0 5 (.integer 8 false)⟩, 1, some 1⟩,
    ⟨"c".toList, lowerIntegerType 32 false, 0, some 1⟩]
  body := [.int 8, .array 5 (.int 8)]

/-- With `inner` the struct of a `u8` and a `u64`, an array of 14 bytes is longer than it in
`typemod`, where it has 12 bytes, and shorter on the host, where it has 16. -/
example :
    FirstLargest (typemodLayout.define 0 [.int 8, .int 64]).size
        [.array 14 (.int 8), .struct 0] (.array 14 (.int 8)) ∧
      ¬ (naturalLayout.define 0 [.int 8, .int 64]).size (.struct 0) ≤
        (naturalLayout.define 0 [.int 8, .int 64]).size (.array 14 (.int 8)) :=
  ⟨⟨[], [.struct 0], rfl, by decide, by decide⟩, by decide⟩

end Dolorem.Codegen
