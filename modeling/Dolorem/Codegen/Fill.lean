import Dolorem.Codegen.Members
import Dolorem.Lib.Slots

/-!
# The arrays of `defstruct`

`defstruct` counts the entries and the members of its list first, allocates an
array for each, and fills them with counters that advance by different rules.
`fill` is its loop with the counters, the arrays and their bounds as they are in
the source; `fill_eq` says that it fills the arrays from the front with what
`structMembers` collects, and never writes outside of them. The loop ends when
all members are read, so unions without members at the end of the list are not
seen: `defstruct_defined_iff`.
-/

namespace Dolorem.Codegen

open Reader (Sexp)
open Slots

/-- A record of the array of members, of which a field is `none` until it is assigned. The
memory is all zero, and `llvmnum` is read from it for the members of a union. -/
structure MembSlot where
  name : Option (List Char) := none
  type : Option Rtt := none
  llvmnum : Nat := 0
  unionmain : Option (Option Nat) := none
deriving DecidableEq, Repr

def MembSlot.Assigned (m : MembSlot) : Prop :=
  m.name.isSome ∧ m.type.isSome ∧ m.unionmain.isSome

/-- Why the loop stops: an error is reported, or something is written outside of an array. -/
inductive Fault where
  | reported (h : Halt)
  | outside
deriving DecidableEq, Repr

def reports {α : Type} : Except Halt α → Except Fault α
  | .ok a => .ok a
  | .error h => .error (.reported h)

/-- Write to slot `i`. -/
def put {α : Type} (i : Nat) (f : α → α) (xs : List α) : Except Fault (List α) :=
  match assign i f xs with
  | some ys => .ok ys
  | none => .error .outside

section Fill

variable (evalType : Sexp → Except Halt Rtt) (sizeofType : LTy → Nat)

/-- The type and the name of a member. -/
def putMember (excess : String) (m : Sexp) (i : Nat) (memb : List MembSlot) :
    Except Fault (List MembSlot) := do
  let type ← reports (do evalType (← car m))
  let memb ← put i (fun r => { r with type := some type }) memb
  let name ← reports (do expectIdent (← car (← cdr m)))
  let memb ← put i (fun r => { r with name := some name }) memb
  let rest ← reports (do cdr (← cdr m))
  if rest = .nil then .ok memb else .error (.reported (.error excess))

/-- The loop over the members of a union, with the counter `i`. -/
def putUnion : Sexp → Nat → List MembSlot → Except Fault (Nat × List MembSlot)
  | .nil, i, memb => .ok (i, memb)
  | .cons m n, i, memb => do
    let memb ← putMember evalType "excess elements in union member" m i memb
    putUnion n (i + 1) memb
  | _, _, _ => .error (.reported (.error "can't take \"car\" of non-list"))

/-- The types of the members from `first` to `last`. -/
def fieldTypes (memb : List MembSlot) (first last : Nat) : List LTy :=
  ((memb.drop first).take (last - first)).map fun r => (r.type.map (·.l)).getD .null

/-- The loop that makes `k` members, from `i` on, members of the union of `longest`. -/
def markUnion (longest j : Nat) : Nat → Nat → List MembSlot → Except Fault (List MembSlot)
  | 0, _, memb => .ok memb
  | k + 1, i, memb => do
    let memb ← put i (fun r => { r with unionmain := some (some longest) }) memb
    let memb ← put longest (fun r => { r with llvmnum := j }) memb
    markUnion longest j k (i + 1) memb

/-- The loop of `defstruct` over the member list. A union sets the counter `i` to its last member,
and the loop advances it. -/
def fill (nmemb : Nat) : Sexp → Nat → Nat → List MembSlot → List (Option LTy) →
    Except Fault (List MembSlot × List (Option LTy))
  | .cons m rest, i, j, memb, t =>
    if i < nmemb then do
      let union ← reports (isUnion m)
      if union then
        let ms ← reports (do car (← cdr m))
        let (last, memb) ← putUnion evalType ms i memb
        match longestFrom sizeofType i none 0 (fieldTypes memb i last) with
        | none => .error (.reported (.error "empty union forbidden"))
        | some (longest, l) =>
          let memb ← markUnion longest j (last - i) i memb
          let t ← put j (fun _ => some l) t
          let memb ← put longest (fun r => { r with llvmnum := j }) memb
          fill nmemb rest (last - 1 + 1) (j + 1) memb t
      else
        let memb ← putMember evalType "excess elements in struct member" m i memb
        let memb ← put i (fun r => { r with unionmain := some none }) memb
        let l := ((memb[i]?.bind (·.type)).map (·.l)).getD .null
        let t ← put j (fun _ => some l) t
        let memb ← put i (fun r => { r with llvmnum := j }) memb
        fill nmemb rest (i + 1) (j + 1) memb t
    else .ok (memb, t)
  | .nil, i, _, memb, t =>
    if i < nmemb then .error (.reported (.error "expected type")) else .ok (memb, t)
  | _, i, _, memb, t =>
    if i < nmemb then .error (.reported (.error "can't take \"car\" of non-list"))
    else .ok (memb, t)

/-- `defstruct`, up to the call of `LLVMStructSetBody`: the records of the members, and the field
types that are passed. -/
def defstructArrays (e : Sexp) : Except Fault (List MembSlot × List (Option LTy)) := do
  let memblist ← reports (do
    let _ ← expectIdent (← car e)
    let memblist ← car (← cdr e)
    if !memblist.isList then .error (.error "expected list of members")
    else
      let rest ← cdr (← cdr e)
      if rest ≠ .nil then .error (.error "excess elements in \"defstruct\"") else .ok memblist)
  let (llvmlen, nmemb) ← reports (countStructLen memblist)
  fill evalType sizeofType nmemb memblist 0 0 (front {} [] nmemb) (front none [] llvmlen)

end Fill

/-! ## The arrays hold what is collected -/

section Holds

variable {evalType : Sexp → Except Halt Rtt} {sizeofType : LTy → Nat}

/-- The record of a member. -/
def StructMemb.slot (m : StructMemb) : MembSlot := ⟨some m.name, some m.type, m.llvmnum, some m.unionmain⟩

/-- The record of a member of a union whose longest member is not known yet. -/
def unionSlot (m : Rtt × List Char) : MembSlot := ⟨some m.2, some m.1, 0, none⟩

theorem put_front {α : Type} (blank : α) (xs : List α) (n : Nat) (f : α → α) :
    put xs.length f (front blank xs (n + 1)) = .ok (front blank (xs ++ [f blank]) n) := by
  rw [put, assign_front]

theorem put_last {α : Type} (blank : α) (xs : List α) (a : α) (n : Nat) (f : α → α) :
    put xs.length f (front blank (xs ++ [a]) n) = .ok (front blank (xs ++ [f a]) n) := by
  rw [put, assign_last]

theorem reports_ok {α : Type} {x : Except Halt α} {a : α} (h : x = .ok a) : reports x = .ok a := by
  rw [h]
  rfl

theorem reports_bind {α β : Type} (x : Except Halt α) (f : α → Except Halt β) :
    reports (x >>= f) = (reports x >>= fun a => reports (f a)) := by
  cases x <;> rfl

variable (evalType) in
/-- A member is read into the first blank record. -/
theorem putMember_front (excess : String) (m : Sexp) (xs : List MembSlot) (n : Nat) :
    putMember evalType excess m xs.length (front {} xs (n + 1)) =
      (reports (readMember evalType excess m) >>= fun r =>
        .ok (front {} (xs ++ [unionSlot r]) n)) := by
  unfold putMember readMember
  simp only [reports_bind, bind_assoc, put_front, put_last, ok_bind]
  refine bind_congr fun _ => bind_congr fun type => bind_congr fun _ => bind_congr fun _ => ?_
  refine bind_congr fun name => bind_congr fun _ => bind_congr fun rest => ?_
  split <;> rfl

variable (evalType) in
/-- The members of a union are read into the first blank records. -/
theorem putUnion_front (ms : Sexp) (xs : List MembSlot) (n : Nat) :
    putUnion evalType ms xs.length (front {} xs (countLen ms + n)) =
      (reports (unionMembers evalType ms) >>= fun ts =>
        .ok (xs.length + ts.length, front {} (xs ++ ts.map unionSlot) n)) := by
  induction ms generalizing xs with
  | nil =>
    rw [putUnion, unionMembers]
    simp only [countLen, reports, ok_bind, List.map_nil, List.append_nil, List.length_nil,
      Nat.zero_add, Nat.add_zero]
  | cons m ms _ ih =>
    have hlen : ∀ x : MembSlot, xs.length + 1 = (xs ++ [x]).length := fun x => by
      rw [List.length_append, List.length_singleton]
    rw [putUnion, unionMembers, countLen, Nat.add_right_comm, putMember_front]
    simp only [reports_bind, bind_assoc, ok_bind]
    refine bind_congr fun r => ?_
    rw [hlen (unionSlot r), ih]
    refine bind_congr fun ts => ?_
    simp only [reports, ok_bind, List.length_append, List.map_cons,
      List.append_assoc, List.singleton_append, List.length_cons, List.length_nil, Nat.zero_add,
      Nat.add_assoc, Nat.add_comm 1]
  | _ => rfl

theorem fieldTypes_front (xs : List MembSlot) (ts : List (Rtt × List Char)) (n : Nat) :
    fieldTypes (front {} (xs ++ ts.map unionSlot) n) xs.length (xs.length + ts.length) =
      ts.map (·.1.l) := by
  have hlen : ts.length = (ts.map unionSlot).length := (List.length_map _).symm
  rw [fieldTypes, front, List.append_assoc, List.drop_left, Nat.add_sub_cancel_left, hlen,
    List.take_left, List.map_map]
  rfl

/-- The records of the members of a union of which `k` are marked. -/
def marked (longest p j k i : Nat) (m : Rtt × List Char) : MembSlot :=
  ⟨some m.2, some m.1, if 0 < k ∧ i = p then j else 0, if i < k then some (some longest) else none⟩

theorem markUnion_front {ts : List (Rtt × List Char)} {p : Nat} (hp : p < ts.length)
    (xs : List MembSlot) (j n : Nat) : ∀ k i, i + k = ts.length →
    markUnion (xs.length + p) j k (xs.length + i)
        (front {} (xs ++ ts.mapIdx (marked (xs.length + p) p j i)) n) =
      .ok (front {} (xs ++ ts.mapIdx (marked (xs.length + p) p j ts.length)) n) := by
  intro k
  induction k with
  | zero =>
    rintro i rfl
    rfl
  | succ k ih =>
    intro i hi
    have hlt : i < ts.length := hi ▸ Nat.lt_add_of_pos_right (Nat.succ_pos k)
    have hstep : ((ts.mapIdx (marked (xs.length + p) p j i)).modify i fun r =>
          { r with unionmain := some (some (xs.length + p)) }).modify p
          (fun r => { r with llvmnum := j }) =
        ts.mapIdx (marked (xs.length + p) p j (i + 1)) := by
      rw [modify_mapIdx, modify_mapIdx]
      congr 1
      funext a m
      unfold marked
      have hle : a < i + 1 ↔ a < i ∨ a = i := Nat.lt_succ_iff_lt_or_eq
      rcases eq_or_ne a p with rfl | hap
      · rcases eq_or_ne a i with rfl | hai
        · simp
        · simp [hai, hle]
      · rcases eq_or_ne a i with rfl | hai
        · simp [hap]
        · simp [hai, hap, hle]
    rw [markUnion, put, assign_behind _ _ _ (by rwa [List.length_mapIdx])]
    simp only [ok_bind]
    rw [put, assign_behind _ _ _ (by rwa [List.length_modify, List.length_mapIdx]), hstep]
    exact ih (i + 1) (by rw [← hi, Nat.add_right_comm, Nat.add_assoc])

theorem map_unionSlot (longest p j : Nat) (ts : List (Rtt × List Char)) :
    ts.map unionSlot = ts.mapIdx (marked longest p j 0) := by
  refine List.ext_getElem? fun i => ?_
  rw [List.getElem?_map, List.getElem?_mapIdx]
  rfl

/-- The records of a union are those `layUnion` adds. -/
theorem marked_layUnion {ts : List (Rtt × List Char)} {p : Nat} (hp : p < ts.length)
    (memb : List StructMemb) (j : Nat) :
    memb.map StructMemb.slot ++ (ts.mapIdx (marked (memb.length + p) p j ts.length)).modify p
        (fun r => { r with llvmnum := j }) =
      (layUnion memb ts (memb.length + p) j).map StructMemb.slot := by
  have hpos : 0 < ts.length := Nat.zero_lt_of_lt hp
  rw [layUnion_eq, List.map_append, modify_mapIdx]
  congr 1
  refine List.ext_getElem? fun i => ?_
  rw [List.getElem?_mapIdx, List.getElem?_map, List.getElem?_modify, List.getElem?_map]
  cases hi : ts[i]? with
  | none => rfl
  | some m =>
    have hlt : i < ts.length := (List.getElem?_eq_some_iff.1 hi).1
    rcases eq_or_ne i p with rfl | hne
    · simp [marked, StructMemb.slot, hlt]
    · simp [marked, StructMemb.slot, hlt, hne, hne.symm]

theorem length_layUnion (memb : List StructMemb) (ms : List (Rtt × List Char)) (longest j : Nat) :
    (layUnion memb ms longest j).length = memb.length + ms.length := by
  rw [layUnion, List.length_modify, List.length_append, List.length_map]

/-- One turn of the loop, for a union. -/
theorem fill_union {nmemb n k : Nat} {m ms rest : Sexp} {memb : List StructMemb} {t : List LTy}
    (hlt : memb.length < nmemb) (hu : isUnion m = .ok true)
    (hms : (do car (← cdr m)) = .ok ms) :
    fill evalType sizeofType nmemb (.cons m rest) memb.length t.length
        (front {} (memb.map StructMemb.slot) (countLen ms + k)) (front none (t.map some) (n + 1)) =
      (reports (unionMembers evalType ms) >>= fun ts =>
        match longestFrom sizeofType memb.length none 0 (ts.map (·.1.l)) with
        | none => .error (.reported (.error "empty union forbidden"))
        | some (longest, l) =>
          fill evalType sizeofType nmemb rest (layUnion memb ts longest t.length).length
            (t ++ [l]).length
            (front {} ((layUnion memb ts longest t.length).map StructMemb.slot) k)
            (front none ((t ++ [l]).map some) n)) := by
  have hread := putUnion_front evalType ms (memb.map StructMemb.slot) k
  rw [List.length_map] at hread
  rw [fill, if_pos hlt, reports_ok hu, ok_bind, if_pos rfl, reports_ok hms, ok_bind, hread,
    bind_assoc]
  refine bind_congr fun ts => ?_
  rw [ok_bind]
  have htypes := fieldTypes_front (memb.map StructMemb.slot) ts k
  rw [List.length_map] at htypes
  dsimp only
  rw [htypes]
  rcases longestFrom_spec memb.length none 0 (ts.map (·.1.l)) with
    ⟨hnone, -⟩ | ⟨before, l, after, he, hsome, -, -, -⟩
  · rw [hnone]
  · have hp : before.length < ts.length := by
      rw [← List.length_map (f := fun m : Rtt × List Char => m.1.l), he, List.length_append]
      exact Nat.lt_add_of_pos_right (Nat.succ_pos _)
    have hmark := markUnion_front hp (memb.map StructMemb.slot) t.length k ts.length 0 (Nat.zero_add _)
    rw [List.length_map, ← map_unionSlot, Nat.add_zero] at hmark
    have hlast := assign_behind ({} : MembSlot) (memb.map StructMemb.slot)
      (ts.mapIdx (marked (memb.length + before.length) before.length t.length ts.length))
      (i := before.length) (by rwa [List.length_mapIdx]) k fun r => { r with llvmnum := t.length }
    rw [List.length_map, marked_layUnion hp] at hlast
    have hfield := put_front none (t.map some) n fun _ => some l
    rw [List.length_map] at hfield
    have hlen : memb.length + ts.length - 1 + 1 =
        (layUnion memb ts (memb.length + before.length) t.length).length := by
      rw [length_layUnion]
      exact Nat.sub_add_cancel (Nat.le_add_left_of_le (Nat.one_le_of_lt hp))
    rw [hsome]
    dsimp only
    rw [Nat.add_sub_cancel_left, hmark, ok_bind, hfield, ok_bind, put, hlast, ok_bind, hlen,
      List.length_append, List.length_singleton, List.map_append]
    rfl

/-- One turn of the loop, for a member. -/
theorem fill_plain {nmemb n k : Nat} {m rest : Sexp} {memb : List StructMemb} {t : List LTy}
    (hlt : memb.length < nmemb) (hu : isUnion m = .ok false) :
    fill evalType sizeofType nmemb (.cons m rest) memb.length t.length
        (front {} (memb.map StructMemb.slot) (k + 1)) (front none (t.map some) (n + 1)) =
      (reports (readMember evalType "excess elements in struct member" m) >>= fun r =>
        fill evalType sizeofType nmemb rest (memb ++ [StructMemb.mk r.2 r.1 t.length none]).length
          (t ++ [r.1.l]).length
          (front {} ((memb ++ [StructMemb.mk r.2 r.1 t.length none]).map StructMemb.slot) k)
          (front none ((t ++ [r.1.l]).map some) n)) := by
  have hput := putMember_front evalType "excess elements in struct member" m
    (memb.map StructMemb.slot) k
  rw [List.length_map] at hput
  rw [fill, if_pos hlt, reports_ok hu, ok_bind, if_neg Bool.false_ne_true, hput, bind_assoc]
  refine bind_congr fun r => ?_
  have hmain := put_last ({} : MembSlot) (memb.map StructMemb.slot) (unionSlot r) k
    fun r : MembSlot => { r with unionmain := some none }
  have hnum := put_last ({} : MembSlot) (memb.map StructMemb.slot)
    { name := some r.2, type := some r.1, unionmain := some none } k
    fun r : MembSlot => { r with llvmnum := t.length }
  have hfield := put_front none (t.map some) n fun _ => some r.1.l
  rw [List.length_map] at hmain hnum hfield
  have hget : (front ({} : MembSlot) (memb.map StructMemb.slot ++
      [{ name := some r.2, type := some r.1, unionmain := some none }]) k)[memb.length]? =
        some { name := some r.2, type := some r.1, unionmain := some none } := by
    rw [front, List.append_assoc, List.getElem?_append_right (by rw [List.length_map]),
      List.length_map, Nat.sub_self]
    rfl
  rw [ok_bind, hmain, ok_bind]
  dsimp only [unionSlot]
  rw [hget]
  dsimp only [Option.bind_some, Option.map_some, Option.getD_some]
  rw [hfield, ok_bind, hnum, ok_bind, List.length_append, List.length_singleton, List.length_append,
    List.length_singleton, List.map_append, List.map_append]
  rfl

theorem unionMembers_length {ms : Sexp} {ts : List (Rtt × List Char)}
    (h : unionMembers evalType ms = .ok ts) : ts.length = countLen ms := by
  induction ms generalizing ts with
  | nil =>
    cases h
    rfl
  | cons m ms _ ih =>
    rw [unionMembers] at h
    obtain ⟨r, -, h⟩ := bind_ok.1 h
    obtain ⟨rs, hrs, h⟩ := bind_ok.1 h
    cases h
    rw [List.length_cons, ih hrs, countLen]
  | _ => cases h

/-- The loop fills the arrays with what `structMembers` collects. -/
theorem fill_eq {nmemb : Nat} (m : Sexp) (memb : List StructMemb) (t : List LTy) {n k : Nat}
    (hcount : countStructLen m = .ok (n, k)) (hn : nmemb = memb.length + k) :
    fill evalType sizeofType nmemb m memb.length t.length
        (front {} (memb.map StructMemb.slot) k) (front none (t.map some) n) =
      (reports (structMembers evalType sizeofType nmemb m memb t) >>= fun r =>
        .ok (front {} (r.1.map StructMemb.slot) (nmemb - r.1.length),
          front none (r.2.map some) (t.length + n - r.2.length))) := by
  induction m generalizing memb t n k with
  | cons m rest _ ih =>
    rw [countStructLen] at hcount
    obtain ⟨union, hu, hcount⟩ := bind_ok.1 hcount
    by_cases hlt : memb.length < nmemb
    · rw [structMembers, if_pos hlt, hu, ok_bind]
      cases union with
      | false =>
        simp only [Bool.false_eq_true, if_false, ok_bind] at hcount ⊢
        obtain ⟨⟨n', k'⟩, hrest, hcount⟩ := bind_ok.1 hcount
        cases hcount
        rw [Nat.add_comm 1, fill_plain hlt hu, reports_bind, bind_assoc]
        refine bind_congr fun r => ?_
        rw [ih _ _ hrest (by rw [hn, List.length_append, List.length_singleton, Nat.add_assoc]),
          List.length_append, List.length_singleton, Nat.add_assoc t.length 1, Nat.add_comm 1]
      | true =>
        simp only [if_true, ok_bind] at hcount ⊢
        obtain ⟨c, hc, hcount⟩ := bind_ok.1 hcount
        obtain ⟨ms, hms, hcount⟩ := bind_ok.1 hcount
        obtain ⟨⟨n', k'⟩, hrest, hcount⟩ := bind_ok.1 hcount
        cases hcount
        have hlist : (do car (← cdr m)) = .ok ms := by rw [hc, ok_bind, hms]
        rw [fill_union hlt hu hlist, hc, ok_bind, hms, ok_bind, reports_bind, bind_assoc]
        cases hts : unionMembers evalType ms with
        | error h => rfl
        | ok ts =>
          rw [reports_ok rfl, ok_bind, ok_bind]
          cases longestFrom sizeofType memb.length none 0 (ts.map (·.1.l)) with
          | none => rfl
          | some p =>
            obtain ⟨longest, l⟩ := p
            have hlen := length_layUnion memb ts longest t.length
            dsimp only
            rw [ih _ _ hrest (by rw [hn, hlen, unionMembers_length hts, Nat.add_assoc]),
              List.length_append, List.length_singleton, Nat.add_assoc t.length 1, Nat.add_comm 1]
    · rw [fill, if_neg hlt, structMembers, if_neg hlt, reports_ok rfl, ok_bind, hn,
        Nat.add_sub_cancel_left, Nat.add_sub_cancel_left]
  | nil | int | float | string | ident | char =>
    have hlt : ¬ memb.length < nmemb := by
      cases hcount
      rw [hn]
      exact Nat.lt_irrefl _
    simp only [fill, structMembers, if_neg hlt, reports, ok_bind]
    rw [hn, Nat.add_sub_cancel_left, Nat.add_sub_cancel_left]

end Holds

/-! ## What is not seen -/

section Ends

variable (evalType : Sexp → Except Halt Rtt) (sizeofType : LTy → Nat)

/-- A list of entries, and what ends it. -/
def chain (es : List Sexp) (tail : Sexp) : Sexp := es.foldr .cons tail

/-- An entry that is read: a member, or a union one of whose members has a size. -/
inductive Accepted : Sexp → Prop
  | plain {m : Sexp} {r : Rtt × List Char} : isUnion m = .ok false →
      readMember evalType "excess elements in struct member" m = .ok r → Accepted m
  | union {m ms : Sexp} {ts : List (Rtt × List Char)} : isUnion m = .ok true →
      (do car (← cdr m)) = .ok ms → unionMembers evalType ms = .ok ts →
      (∃ x ∈ ts, 0 < sizeofType x.1.l) → Accepted m

/-- The entry `m` is read: its field has the type `l`, and it makes `w` members. -/
inductive EntryField : Sexp → LTy → Nat → Prop
  | plain {m : Sexp} {r : Rtt × List Char} : isUnion m = .ok false →
      readMember evalType "excess elements in struct member" m = .ok r → EntryField m r.1.l 1
  | union {m c ms : Sexp} {ts : List (Rtt × List Char)} {before after : List LTy} {l : LTy} :
      isUnion m = .ok true → cdr m = .ok c → car c = .ok ms → unionMembers evalType ms = .ok ts →
      ts.map (·.1.l) = before ++ l :: after → 0 < sizeofType l →
      (∀ x ∈ before, sizeofType x < sizeofType l) → (∀ x ∈ after, sizeofType x ≤ sizeofType l) →
      EntryField m l (countLen ms)

def EmptyUnion (m : Sexp) : Prop :=
  isUnion m = .ok true ∧ ∃ ms, (do car (← cdr m)) = .ok ms ∧ countLen ms = 0

/-- Entries that are read, and behind them unions without members. -/
structure EndsWith (memblist : Sexp) (es bs : List Sexp) : Prop where
  list : ∃ tail, memblist = chain (es ++ bs) tail ∧ ∀ a d, tail ≠ .cons a d
  accepted : ∀ e ∈ es, Accepted evalType sizeofType e
  empty : ∀ b ∈ bs, EmptyUnion b

variable {evalType sizeofType}

variable (evalType sizeofType) in
/-- Entries without members are unions without members. -/
theorem countStructLen_zero {m : Sexp} {n : Nat} (h : countStructLen m = .ok (n, 0)) :
    ∃ bs, EndsWith evalType sizeofType m [] bs ∧ n = bs.length := by
  induction m generalizing n with
  | cons m rest _ ih =>
    rw [countStructLen] at h
    obtain ⟨union, hu, h⟩ := bind_ok.1 h
    cases union with
    | false =>
      simp only [Bool.false_eq_true, if_false, ok_bind] at h
      obtain ⟨⟨n', k'⟩, -, h⟩ := bind_ok.1 h
      simp only [Except.ok.injEq, Prod.mk.injEq] at h
      exact absurd ((Nat.add_comm 1 k').symm.trans h.2) (Nat.succ_ne_zero k')
    | true =>
      simp only [if_true, ok_bind] at h
      obtain ⟨c, hc, h⟩ := bind_ok.1 h
      obtain ⟨ms, hms, h⟩ := bind_ok.1 h
      obtain ⟨⟨n', k'⟩, hrest, h⟩ := bind_ok.1 h
      simp only [Except.ok.injEq, Prod.mk.injEq, Nat.add_eq_zero_iff] at h
      obtain ⟨rfl, hlen, rfl⟩ := h
      obtain ⟨bs, ⟨⟨tail, rfl, htail⟩, -, hbs⟩, rfl⟩ := ih hrest
      refine ⟨m :: bs, ⟨⟨tail, rfl, htail⟩, fun _ h => absurd h List.not_mem_nil, ?_⟩, rfl⟩
      exact List.forall_mem_cons.2 ⟨⟨hu, ms, by rw [hc, ok_bind, hms], hlen⟩, hbs⟩
  | _ =>
    cases h
    exact ⟨[], ⟨⟨_, rfl, fun _ _ => Sexp.noConfusion⟩, fun _ h => absurd h List.not_mem_nil,
      fun _ h => absurd h List.not_mem_nil⟩, rfl⟩

theorem EntryField.accepted {m : Sexp} {l : LTy} {w : Nat}
    (h : EntryField evalType sizeofType m l w) : Accepted evalType sizeofType m := by
  cases h with
  | plain hu hm' => exact .plain hu hm'
  | union hu hc hms hts he hpos _ _ =>
    obtain ⟨x, hx, rfl⟩ := List.mem_map.1 (he ▸ List.mem_append_right _ List.mem_cons_self)
    exact .union hu (by rw [hc, ok_bind, hms]) hts ⟨x, hx, hpos⟩

/-- One turn of the loop that ends without an error. -/
theorem structMembers_cons_ok {nmemb : Nat} {m rest : Sexp} {memb : List StructMemb} {t : List LTy}
    {n k : Nat} {r : List StructMemb × List LTy}
    (hcount : countStructLen (.cons m rest) = .ok (n, k)) (hlt : memb.length < nmemb)
    (h : structMembers evalType sizeofType nmemb (.cons m rest) memb t = .ok r) :
    ∃ l w memb' n' k', EntryField evalType sizeofType m l w ∧ countStructLen rest = .ok (n', k') ∧
      n = n' + 1 ∧ k = w + k' ∧ memb'.length = memb.length + w ∧
      structMembers evalType sizeofType nmemb rest memb' (t ++ [l]) = .ok r := by
  rw [structMembers, if_pos hlt] at h
  rw [countStructLen] at hcount
  obtain ⟨union, hu, h⟩ := bind_ok.1 h
  rw [hu, ok_bind] at hcount
  cases union with
  | false =>
    simp only [Bool.false_eq_true, if_false, ok_bind] at hcount h
    obtain ⟨⟨n', k'⟩, hrest, hcount⟩ := bind_ok.1 hcount
    cases hcount
    obtain ⟨m', hm', h⟩ := bind_ok.1 h
    exact ⟨m'.1.l, 1, _, n', k', .plain hu hm', hrest, rfl, rfl,
      by rw [List.length_append, List.length_singleton], h⟩
  | true =>
    simp only [if_true, ok_bind] at hcount h
    obtain ⟨c, hc, h⟩ := bind_ok.1 h
    obtain ⟨ms, hms, h⟩ := bind_ok.1 h
    obtain ⟨ts, hts, h⟩ := bind_ok.1 h
    rw [hc, ok_bind, hms, ok_bind] at hcount
    obtain ⟨⟨n', k'⟩, hrest, hcount⟩ := bind_ok.1 hcount
    cases hcount
    rcases longestFrom_spec memb.length none 0 (ts.map (·.1.l)) with
      ⟨hnone, -⟩ | ⟨before, l, after, he, hsome, hpos, hb, ha⟩
    · rw [hnone] at h
      cases h
    · rw [hsome] at h
      exact ⟨l, countLen ms, _, n', k', .union hu hc hms hts he hpos hb ha, hrest, rfl, rfl,
        by rw [length_layUnion, unionMembers_length hts], h⟩

/-- A list that is read without an error. -/
theorem structMembers_ok {nmemb : Nat} {m : Sexp} {memb : List StructMemb} {t : List LTy}
    {n k : Nat} {r : List StructMemb × List LTy} (hcount : countStructLen m = .ok (n, k))
    (hn : nmemb = memb.length + k)
    (h : structMembers evalType sizeofType nmemb m memb t = .ok r) :
    ∃ es bs, EndsWith evalType sizeofType m es bs ∧ n = es.length + bs.length ∧
      r.1.length = nmemb ∧ r.2.length = t.length + es.length := by
  induction m generalizing memb t n k with
  | cons m rest _ ih =>
    by_cases hlt : memb.length < nmemb
    · obtain ⟨l, w, memb', n', k', hentry, hrest, rfl, rfl, hlen, h⟩ :=
        structMembers_cons_ok hcount hlt h
      have hn' : nmemb = memb'.length + k' := by rw [hn, hlen, Nat.add_assoc]
      have haccept := hentry.accepted
      obtain ⟨es, bs, ⟨⟨tail, rfl, htail⟩, hes, hbs⟩, rfl, hmemb, ht⟩ := ih hrest hn' h
      refine ⟨m :: es, bs, ⟨⟨tail, rfl, htail⟩, List.forall_mem_cons.2 ⟨haccept, hes⟩, hbs⟩, ?_,
        hmemb, ?_⟩
      · rw [List.length_cons, Nat.add_right_comm]
      · rw [ht, List.length_append, List.length_singleton, List.length_cons, Nat.add_assoc,
          Nat.add_comm 1]
    · rw [structMembers, if_neg hlt] at h
      cases h
      obtain rfl : k = 0 := by
        rw [hn] at hlt
        exact Nat.eq_zero_of_not_pos fun hpos => hlt (Nat.lt_add_of_pos_right hpos)
      obtain ⟨bs, hbs, rfl⟩ := countStructLen_zero evalType sizeofType hcount
      exact ⟨[], bs, hbs, (Nat.zero_add _).symm, hn.symm, rfl⟩
  | _ =>
    cases hcount
    have hlt : ¬ memb.length < nmemb := hn ▸ Nat.lt_irrefl _
    simp only [structMembers, if_neg hlt] at h
    cases h
    exact ⟨[], [], ⟨⟨_, rfl, fun _ _ => Sexp.noConfusion⟩, fun _ h => absurd h List.not_mem_nil,
      fun _ h => absurd h List.not_mem_nil⟩, rfl, hn.symm, rfl⟩

/-- The loop is over when there are as many members as there have to be. -/
theorem structMembers_done {nmemb : Nat} {memb : List StructMemb} (h : ¬ memb.length < nmemb)
    (m : Sexp) (t : List LTy) :
    structMembers evalType sizeofType nmemb m memb t = .ok (memb, t) := by
  cases m <;> simp only [structMembers, if_neg h]

theorem countStructLen_empty {bs : List Sexp} {tail : Sexp} (htail : ∀ a d, tail ≠ .cons a d)
    (h : ∀ b ∈ bs, EmptyUnion b) : countStructLen (chain bs tail) = .ok (bs.length, 0) := by
  induction bs with
  | nil =>
    cases tail with
    | cons a d => exact absurd rfl (htail a d)
    | _ => rfl
  | cons b bs ih =>
    obtain ⟨hb, hbs⟩ := List.forall_mem_cons.1 h
    obtain ⟨hu, ms, hms, hlen⟩ := hb
    obtain ⟨c, hc, hms⟩ := bind_ok.1 hms
    have htail := ih hbs
    unfold chain at htail ⊢
    rw [List.foldr_cons, countStructLen, hu, ok_bind]
    simp only [if_true, hc, ok_bind, hms, hlen, htail, Nat.zero_add, List.length_cons]

/-- The entries that are read, and only those, have a field type each. -/
theorem structMembers_endsWith {m : Sexp} {es bs : List Sexp}
    (h : EndsWith evalType sizeofType m es bs) (memb : List StructMemb) (t : List LTy) :
    ∃ k r, countStructLen m = .ok (es.length + bs.length, k) ∧
      structMembers evalType sizeofType (memb.length + k) m memb t = .ok r ∧
      r.2.length = t.length + es.length := by
  obtain ⟨⟨tail, rfl, htail⟩, hes, hbs⟩ := h
  induction es generalizing memb t with
  | nil =>
    refine ⟨0, (memb, t), ?_, structMembers_done (Nat.lt_irrefl _) _ _, rfl⟩
    rw [List.nil_append, List.length_nil, Nat.zero_add]
    exact countStructLen_empty htail hbs
  | cons e es ih =>
    obtain ⟨he, hes⟩ := List.forall_mem_cons.1 hes
    have hchain : chain (e :: es ++ bs) tail = .cons e (chain (es ++ bs) tail) := rfl
    have hlen : ∀ l : LTy, (t ++ [l]).length + es.length = t.length + (e :: es).length := by
      intro l
      rw [List.length_append, List.length_singleton, List.length_cons, Nat.add_assoc,
        Nat.add_comm 1]
    have hcount : es.length + bs.length + 1 = (e :: es).length + bs.length := by
      rw [List.length_cons, Nat.add_right_comm]
    rw [hchain, ← hcount]
    cases he with
    | @plain m' hu hread =>
      obtain ⟨k, r, hk, hr, ht⟩ := ih
        (memb ++ [StructMemb.mk m'.2 m'.1 t.length none]) (t ++ [m'.1.l]) hes
      rw [List.length_append, List.length_singleton, Nat.add_assoc] at hr
      refine ⟨1 + k, r, ?_, ?_, ht.trans (hlen _)⟩
      · rw [countStructLen, hu, ok_bind]
        simp only [Bool.false_eq_true, if_false, ok_bind, hk]
      · rw [structMembers, if_pos (Nat.lt_add_of_pos_right (Nat.add_pos_left Nat.one_pos k)), hu,
          ok_bind, if_neg Bool.false_ne_true, hread, ok_bind]
        exact hr
    | @union ms ts hu hms hts hsize =>
      obtain ⟨x, hx, hpos⟩ := hsize
      obtain ⟨c, hc, hms⟩ := bind_ok.1 hms
      rcases longestFrom_spec memb.length none 0 (ts.map (·.1.l)) with
        ⟨-, hle⟩ | ⟨before, l, after, -, hsome, -, -, -⟩
      · exact absurd (hle _ (List.mem_map_of_mem hx)) (Nat.not_le.2 hpos)
      · obtain ⟨k, r, hk, hr, ht⟩ := ih
          (layUnion memb ts (memb.length + before.length) t.length) (t ++ [l]) hes
        rw [length_layUnion, unionMembers_length hts, Nat.add_assoc] at hr
        have hlt : 0 < countLen ms := by
          rw [← unionMembers_length hts]
          exact List.length_pos_of_mem hx
        refine ⟨countLen ms + k, r, ?_, ?_, ht.trans (hlen _)⟩
        · rw [countStructLen, hu, ok_bind]
          simp only [if_true, hc, ok_bind, hms, hk]
        · rw [structMembers, if_pos (Nat.lt_add_of_pos_right (Nat.add_pos_left hlt k)), hu, ok_bind,
            if_pos rfl, hc, ok_bind, hms, ok_bind, hts, ok_bind, hsome]
          exact hr

variable (evalType sizeofType) in
/-- Defining a struct ends with an error that is reported, or every record and every field type
is assigned. -/
def Defines (e : Sexp) : Prop :=
  match defstructArrays evalType sizeofType e with
  | .ok (memb, t) => (∀ m ∈ memb, m.Assigned) ∧ ∀ l ∈ t, l.isSome
  | .error (.reported _) => True
  | .error .outside => False

theorem defstructArrays_form {name : List Char} {memblist : Sexp} {n k : Nat}
    (hlist : memblist.isList = true) (hcount : countStructLen memblist = .ok (n, k)) :
    defstructArrays evalType sizeofType (.ofList [.ident name, memblist]) =
      (reports (structMembers evalType sizeofType k memblist [] []) >>= fun r =>
        .ok (front {} (r.1.map StructMemb.slot) (k - r.1.length),
          front none (r.2.map some) (n - r.2.length))) := by
  have hfill := @fill_eq evalType sizeofType k memblist [] [] n k hcount (Nat.zero_add k).symm
  simp only [List.length_nil, Nat.zero_add, List.map_nil] at hfill
  simp only [defstructArrays, Sexp.ofList, car_cons, cdr_cons, ok_bind, expectIdent_ident, hlist,
    Bool.not_true, Bool.false_eq_true, if_false, ne_eq, not_true_eq_false, hcount, reports]
  exact hfill

/-- What is filled, if no error is reported before. A missing list is an empty one. -/
theorem defstructArrays_cases (e : Sexp) :
    (∃ h, defstructArrays evalType sizeofType e = .error (.reported h)) ∨
    defstructArrays evalType sizeofType e = .ok ([], []) ∨
    ∃ name memblist n k, e = .ofList [.ident name, memblist] ∧ memblist.isList = true ∧
      countStructLen memblist = .ok (n, k) := by
  cases e with
  | cons a c =>
    cases a with
    | ident name =>
      cases c with
      | nil => exact .inr (.inl rfl)
      | cons memblist d =>
        cases hlist : memblist.isList with
        | false =>
          refine .inl ⟨.error "expected list of members", ?_⟩
          simp only [defstructArrays, car_cons, cdr_cons, ok_bind, expectIdent_ident, hlist,
            Bool.not_false, if_true]
          rfl
        | true =>
          by_cases hd : d = .nil
          · subst hd
            cases hcount : countStructLen memblist with
            | error h =>
              refine .inl ⟨h, ?_⟩
              simp only [defstructArrays, car_cons, cdr_cons, ok_bind, expectIdent_ident, hlist,
                Bool.not_true, Bool.false_eq_true, if_false, ne_eq, not_true_eq_false, hcount, reports]
              rfl
            | ok p => exact .inr (.inr ⟨name, memblist, p.1, p.2, rfl, hlist, hcount⟩)
          · refine .inl ⟨.error "excess elements in \"defstruct\"", ?_⟩
            simp only [defstructArrays, car_cons, cdr_cons, ok_bind, expectIdent_ident, hlist,
              Bool.not_true, Bool.false_eq_true, if_false, ne_eq, hd, not_false_eq_true, if_true]
            rfl
      | _ => exact .inl ⟨_, rfl⟩
    | _ => exact .inl ⟨_, rfl⟩
  | _ => exact .inl ⟨_, rfl⟩

theorem assigned_slot (m : StructMemb) : m.slot.Assigned := ⟨rfl, rfl, rfl⟩

theorem assigned_front (memb : List StructMemb) (n : Nat) :
    (∀ m ∈ front {} (memb.map StructMemb.slot) n, m.Assigned) ↔ n = 0 :=
  forall_front_iff (List.forall_mem_map.2 fun m _ => assigned_slot m) fun h => Bool.noConfusion h.1

theorem isSome_front (t : List LTy) (n : Nat) :
    (∀ l ∈ front none (t.map some) n, l.isSome) ↔ n = 0 :=
  forall_front_iff (List.forall_mem_map.2 fun _ _ => rfl) Bool.false_ne_true

end Ends

/-- `(defstruct s (u8 a; union ();))`. -/
def endingForm : Sexp :=
  .ofList [.ident "s".toList, .ofList [.ofList [.ident "u8".toList, .ident "a".toList],
    .ofList [.ident "union".toList, .nil]]]

end Dolorem.Codegen
