import Dolorem.Codegen.Structs
import Dolorem.Lib.Layout
import Mathlib.Data.List.Forall2
import Mathlib.Data.List.Nodup

/-!
# Which member `memb` selects

A member list is written as entries: plain members and unions that are not
empty. `Stored` says what `defstruct` stores for one entry, and
`structMembers_entries` that it stores it for each. What `memb` returns for a
member of a union is the type of the union's longest member, in the field with
the number stored for the member itself, and that number is only stored for the
longest one: `memb_selects_iff`.
-/

namespace Dolorem.Codegen

open CodeGraph
open Reader (Sexp)

/-! ## Member lists -/

/-- A member as it is written. -/
structure Member where
  type : Sexp
  name : List Char
deriving DecidableEq, Repr

def Member.form (m : Member) : Sexp := .ofList [m.type, .ident m.name]

/-- An entry of a member list: a plain member, which is one only if its type is
not the word `union`, or a union. -/
inductive Entry where
  | plain (m : Member) (h : m.type ≠ .ident "union".toList)
  | union (m : Member) (ms : List Member)

namespace Entry

def members : Entry → List Member
  | plain m _ => [m]
  | union m ms => m :: ms

def form : Entry → Sexp
  | plain m _ => m.form
  | union m ms => .ofList [.ident "union".toList, .ofList ((m :: ms).map Member.form)]

end Entry

/-- The names of the members, in the order of their indices. -/
def names (es : List Entry) : List (List Char) := es.flatMap fun e => e.members.map (·.name)

/-- The arguments of `defstruct`. -/
def structForm (name : List Char) (es : List Entry) : Sexp :=
  .ofList [.ident name, .ofList (es.map Entry.form)]

section Laid

variable {evalType : Sexp → Except Halt Rtt} {sizeofType : LTy → Nat}

variable (evalType sizeofType) in
/-- The allocation size of a member; it counts as zero if there is no such type. -/
def Member.size (m : Member) : Nat :=
  match evalType m.type with
  | .ok t => sizeofType t.l
  | .error _ => 0

variable (evalType) in
/-- The declared front-end type of a member. -/
def Member.declared (m : Member) : Option Ty := (evalType m.type).toOption.map (·.t)

/-- `r` is the longest of the members `ms`, the first of them if there are
several. -/
def IsLongest (size : Member → Nat) (ms : List Member) (r : Member) : Prop :=
  ∃ before after, ms = before ++ r :: after ∧ (∀ m ∈ before, size m < size r) ∧
    ∀ m ∈ after, size m ≤ size r

theorem IsLongest.unique {size : Member → Nat} {ms : List Member} {r r' : Member}
    (h : IsLongest size ms r) (h' : IsLongest size ms r') : r = r' :=
  Layout.FirstLargest.unique h h'

/-! ## What is stored for one entry -/

theorem isUnion_plain {m : Member} (h : m.type ≠ .ident "union".toList) :
    isUnion (Entry.plain m h).form = .ok false := by
  simp only [isUnion, Entry.form, Member.form, Sexp.ofList, car_cons, ok_bind, h, decide_false]

theorem isUnion_union (m : Member) (ms : List Member) :
    isUnion (Entry.union m ms).form = .ok true := by
  simp only [isUnion, Entry.form, Sexp.ofList, car_cons, ok_bind, decide_true]

theorem readMember_form {excess : String} {m : Member} {r : Rtt × List Char}
    (h : readMember evalType excess m.form = .ok r) :
    evalType m.type = .ok r.1 ∧ r.2 = m.name := by
  simp only [readMember, Member.form, Sexp.ofList, car_cons, cdr_cons, ok_bind,
    expectIdent_ident, if_true] at h
  obtain ⟨t, ht, h⟩ := bind_ok.1 h
  cases h
  exact ⟨ht, rfl⟩

theorem unionMembers_forms {ms : List Member} {ts : List (Rtt × List Char)}
    (h : unionMembers evalType (.ofList (ms.map Member.form)) = .ok ts) :
    List.Forall₂ (fun m t => evalType m.type = .ok t.1 ∧ t.2 = m.name) ms ts := by
  induction ms generalizing ts with
  | nil =>
    cases h
    exact .nil
  | cons m ms ih =>
    rw [List.map_cons, Sexp.ofList, unionMembers] at h
    obtain ⟨t, ht, h⟩ := bind_ok.1 h
    obtain ⟨ts, hts, h⟩ := bind_ok.1 h
    cases h
    exact .cons (readMember_form ht) (ih hts)

/-- The search keeps what it has, or ends with a longer member. -/
theorem longestFrom_spec (i : Nat) (longest : Option (Nat × LTy)) (n : Nat) (ls : List LTy) :
    longestFrom sizeofType i longest n ls = longest ∧ (∀ l ∈ ls, sizeofType l ≤ n) ∨
    ∃ before l after, ls = before ++ l :: after ∧
      longestFrom sizeofType i longest n ls = some (i + before.length, l) ∧ n < sizeofType l ∧
      (∀ x ∈ before, sizeofType x < sizeofType l) ∧ ∀ x ∈ after, sizeofType x ≤ sizeofType l := by
  induction ls generalizing i longest n with
  | nil => exact .inl ⟨rfl, fun _ h => nomatch h⟩
  | cons l ls ih =>
    rw [longestFrom]
    split
    · next hl =>
      rcases ih (i + 1) (some (i, l)) (sizeofType l) with
        ⟨he, hle⟩ | ⟨before, x, after, rfl, he, hx, hb, ha⟩
      · exact .inr ⟨[], l, ls, rfl, he, hl, fun _ h => (nomatch h), hle⟩
      · refine .inr ⟨l :: before, x, after, rfl, ?_, hl.trans hx, ?_, ha⟩
        · rw [he, List.length_cons, Nat.add_right_comm, Nat.add_assoc]
        · exact List.forall_mem_cons.2 ⟨hx, hb⟩
    · next hl =>
      rcases ih (i + 1) longest n with ⟨he, hle⟩ | ⟨before, x, after, rfl, he, hx, hb, ha⟩
      · exact .inl ⟨he, List.forall_mem_cons.2 ⟨Nat.not_lt.1 hl, hle⟩⟩
      · refine .inr ⟨l :: before, x, after, rfl, ?_, hx, ?_, ha⟩
        · rw [he, List.length_cons, Nat.add_right_comm, Nat.add_assoc]
        · exact List.forall_mem_cons.2 ⟨(Nat.not_lt.1 hl).trans_lt hx, hb⟩

variable (evalType sizeofType) in
/-- What is stored for the member `m` of an entry that becomes field `j`, when
the members stored are `memb`. -/
def Stored (e : Entry) (j : Nat) (memb : List StructMemb) (m : Member) : Prop :=
  ∃ x ∈ memb, x.name = m.name ∧ evalType m.type = .ok x.type ∧
    match e with
    | .plain _ _ => x.unionmain = none ∧ x.llvmnum = j
    | .union first rest => ∃ u main r, x.unionmain = some u ∧ memb[u]? = some main ∧
        IsLongest (Member.size evalType sizeofType) (first :: rest) r ∧
        evalType r.type = .ok main.type ∧ x.llvmnum = if m = r then j else 0

theorem Stored.mono {e : Entry} {j : Nat} {memb memb' : List StructMemb} {m : Member}
    (h : Stored evalType sizeofType e j memb m) (hp : memb <+: memb') :
    Stored evalType sizeofType e j memb' m := by
  obtain ⟨x, hx, hn, ht, hs⟩ := h
  refine ⟨x, hp.subset hx, hn, ht, ?_⟩
  cases e with
  | plain _ _ => exact hs
  | union _ _ =>
    obtain ⟨u, main, r, hu, hmain, hr⟩ := hs
    have hlt := (List.getElem?_eq_some_iff.1 hmain).1
    obtain ⟨_, rfl⟩ := hp
    exact ⟨u, main, r, hu, (List.getElem?_append_left hlt).trans hmain, hr⟩

theorem layUnion_eq (memb : List StructMemb) (ms : List (Rtt × List Char)) (k j : Nat) :
    layUnion memb ms (memb.length + k) j =
      memb ++ (ms.map fun m => StructMemb.mk m.2 m.1 0 (some (memb.length + k))).modify k
        fun m => { m with llvmnum := j } := by
  have key : ∀ (l u : List StructMemb) f, (l ++ u).modify (l.length + k) f = l ++ u.modify k f := by
    intro l u f
    induction l with
    | nil => rw [List.nil_append, List.length_nil, Nat.zero_add, List.nil_append]
    | cons x l ih =>
      rw [List.cons_append, List.length_cons, Nat.add_right_comm, List.modify_succ_cons, ih,
        List.cons_append]
  exact key memb _ _

/-- What does not depend on the number of the field is laid out as it is. -/
theorem layUnion_map {β : Type} {f : StructMemb → β} (hf : ∀ m j, f { m with llvmnum := j } = f m)
    (memb : List StructMemb) (ms : List (Rtt × List Char)) (longest j : Nat) :
    (layUnion memb ms longest j).map f =
      memb.map f ++ ms.map fun m => f (StructMemb.mk m.2 m.1 0 (some longest)) := by
  have key : ∀ (l : List StructMemb) i,
      (l.modify i fun m => { m with llvmnum := j }).map f = l.map f := by
    intro l
    induction l with
    | nil => intro i; cases i <;> rfl
    | cons x l ih =>
      intro i
      cases i with
      | zero => exact congrArg (· :: l.map f) (hf x j)
      | succ i => rw [List.modify_succ_cons, List.map_cons, ih, List.map_cons]
  rw [layUnion, key, List.map_append, List.map_map]
  rfl

theorem layUnion_names (memb : List StructMemb) (ms : List (Rtt × List Char)) (longest j : Nat) :
    (layUnion memb ms longest j).map (·.name) = memb.map (·.name) ++ ms.map (·.2) :=
  layUnion_map (fun _ _ => rfl) memb ms longest j

theorem forall₂_getElem? {α β : Type} {R : α → β → Prop} {l : List α} {m : List β}
    (h : List.Forall₂ R l m) {i : Nat} {a : α} (ha : l[i]? = some a) :
    ∃ b, m[i]? = some b ∧ R a b := by
  obtain ⟨hi, rfl⟩ := List.getElem?_eq_some_iff.1 ha
  have hi' : i < m.length := h.length_eq ▸ hi
  exact ⟨m[i], List.getElem?_eq_getElem hi', h.get hi hi'⟩

theorem names_of_types {ms : List Member} {ts : List (Rtt × List Char)}
    (hts : List.Forall₂ (fun m t => evalType m.type = .ok t.1 ∧ t.2 = m.name) ms ts) :
    ts.map (·.2) = ms.map (·.name) := by
  induction hts with
  | nil => rfl
  | cons h _ ih => rw [List.map_cons, List.map_cons, h.2, ih]

/-- The longest of the types is that of the longest member. -/
theorem isLongest_of_types {ms : List Member} {ts : List (Rtt × List Char)}
    (hts : List.Forall₂ (fun m t => evalType m.type = .ok t.1 ∧ t.2 = m.name) ms ts)
    {before after : List LTy} {l : LTy} (he : ts.map (·.1.l) = before ++ l :: after)
    (hb : ∀ x ∈ before, sizeofType x < sizeofType l)
    (ha : ∀ x ∈ after, sizeofType x ≤ sizeofType l) :
    ∃ r t, ms[before.length]? = some r ∧ ts[before.length]? = some t ∧ t.1.l = l ∧
      IsLongest (Member.size evalType sizeofType) ms r := by
  have hsize : ms.map (Member.size evalType sizeofType) = (ts.map (·.1.l)).map sizeofType := by
    clear he
    induction hts with
    | nil => rfl
    | cons h _ ih =>
      rw [List.map_cons, ih, Member.size, h.1]
      rfl
  rw [he, List.map_append, List.map_cons] at hsize
  obtain ⟨b, c, rfl, hbs, hc⟩ := List.map_eq_append_iff.1 hsize
  obtain ⟨r, a, rfl, hr, has⟩ := List.map_eq_cons_iff.1 hc
  have hlen : b.length = before.length := by
    rw [← List.length_map (f := Member.size evalType sizeofType), hbs, List.length_map]
  have hget : (b ++ r :: a)[before.length]? = some r := by
    rw [← hlen, List.getElem?_append_right le_rfl, Nat.sub_self]
    rfl
  obtain ⟨t, ht, -⟩ := forall₂_getElem? hts hget
  have htl : (ts.map (·.1.l))[before.length]? = some t.1.l := by rw [List.getElem?_map, ht]; rfl
  rw [he, List.getElem?_append_right le_rfl, Nat.sub_self] at htl
  refine ⟨r, t, hget, ht, (Option.some.inj htl).symm, b, a, rfl, fun m hm => ?_, fun m hm => ?_⟩
  · obtain ⟨x, hx, he⟩ := List.mem_map.1 (hbs ▸ List.mem_map_of_mem hm :)
    exact hr ▸ he ▸ hb x hx
  · obtain ⟨x, hx, he⟩ := List.mem_map.1 (has ▸ List.mem_map_of_mem hm :)
    exact hr ▸ he ▸ ha x hx

theorem stored_union {first : Member} {rest : List Member} {ts : List (Rtt × List Char)}
    (hts : List.Forall₂ (fun m t => evalType m.type = .ok t.1 ∧ t.2 = m.name) (first :: rest) ts)
    (hd : ((first :: rest).map (·.name)).Nodup) {before after : List LTy} {l : LTy}
    (he : ts.map (·.1.l) = before ++ l :: after)
    (hb : ∀ x ∈ before, sizeofType x < sizeofType l)
    (ha : ∀ x ∈ after, sizeofType x ≤ sizeofType l)
    (memb : List StructMemb) (j : Nat) {m : Member} (hm : m ∈ first :: rest) :
    Stored evalType sizeofType (.union first rest) j
      (layUnion memb ts (memb.length + before.length) j) m := by
  obtain ⟨r, tr, hr, htr, -, hlongest⟩ := isLongest_of_types hts he hb ha
  obtain ⟨i, hi, rfl⟩ := List.mem_iff_getElem.1 hm
  obtain ⟨t, ht, htype, hname⟩ := forall₂_getElem? hts (List.getElem?_eq_getElem hi)
  obtain ⟨tr', htr', hrtype, -⟩ := forall₂_getElem? hts hr
  obtain rfl := Option.some.inj (htr.symm.trans htr')
  -- the member stored at index `i` of the union
  have hget : ∀ i t, ts[i]? = some t →
      (layUnion memb ts (memb.length + before.length) j)[memb.length + i]? =
        some ⟨t.2, t.1, if i = before.length then j else 0, some (memb.length + before.length)⟩ := by
    intro i t ht
    rw [layUnion_eq, List.getElem?_append_right (Nat.le_add_right _ _), Nat.add_sub_cancel_left,
      List.getElem?_modify, List.getElem?_map, ht]
    rcases eq_or_ne i before.length with rfl | hne
    · simp
    · simp [hne, hne.symm]
  have hsame : (first :: rest)[i] = r ↔ i = before.length := by
    have hk := (List.getElem?_eq_some_iff.1 hr).1
    rw [← (List.getElem?_eq_some_iff.1 hr).2]
    constructor
    · intro h
      have hnames := congrArg Member.name h
      rw [← List.getElem_map (f := Member.name) (h := by simpa using hi),
        ← List.getElem_map (f := Member.name) (h := by simpa using hk)] at hnames
      exact (hd.getElem_inj_iff).1 hnames
    · rintro rfl
      rfl
  refine ⟨_, List.mem_of_getElem? (hget i t ht), hname, htype, memb.length + before.length, _, r,
    rfl, hget _ tr htr, hlongest, hrtype, ?_⟩
  simp only [hsame]

/-- One turn of the loop over the member list. -/
theorem structMembers_cons {n : Nat} {e : Entry} {es : List Entry} {memb : List StructMemb}
    {t : List LTy} {r : List StructMemb × List LTy} (hn : memb.length < n)
    (hd : (e.members.map (·.name)).Nodup)
    (h : structMembers evalType sizeofType n (.ofList ((e :: es).map Entry.form)) memb t = .ok r) :
    ∃ memb' l, memb <+: memb' ∧
      memb'.map (·.name) = memb.map (·.name) ++ e.members.map (·.name) ∧
      (∀ m ∈ e.members, Stored evalType sizeofType e t.length memb' m) ∧
      structMembers evalType sizeofType n (.ofList (es.map Entry.form)) memb' (t ++ [l]) = .ok r := by
  rw [List.map_cons, Sexp.ofList, structMembers, if_pos hn] at h
  cases e with
  | plain m hm =>
    rw [isUnion_plain, ok_bind, if_neg Bool.false_ne_true] at h
    obtain ⟨⟨type, name⟩, hread, h⟩ := bind_ok.1 h
    obtain ⟨htype, rfl⟩ := readMember_form hread
    refine ⟨_, _, List.prefix_append _ _, by rw [List.map_append]; rfl, fun m' hm' => ?_, h⟩
    obtain rfl := List.mem_singleton.1 hm'
    exact ⟨_, List.mem_append_right _ List.mem_cons_self, rfl, htype, rfl, rfl⟩
  | union first rest =>
    rw [isUnion_union, ok_bind, if_pos rfl] at h
    simp only [Entry.form, Sexp.ofList, cdr_cons, car_cons, ok_bind] at h
    obtain ⟨ts, hts, h⟩ := bind_ok.1 h
    replace hts := unionMembers_forms hts
    rcases longestFrom_spec memb.length none 0 (ts.map (·.1.l)) with
      ⟨hnone, -⟩ | ⟨before, l, after, he, hsome, -, hb, ha⟩
    · rw [hnone] at h
      cases h
    · rw [hsome] at h
      refine ⟨_, l, ?_, ?_, fun m hm => stored_union hts hd he hb ha memb t.length hm, h⟩
      · rw [layUnion_eq]
        exact List.prefix_append _ _
      · rw [layUnion_names]
        rw [names_of_types hts]
        rfl

/-- The rest of the list leaves what is stored, and adds one field each. -/
theorem structMembers_entries {n : Nat} {es : List Entry} {memb : List StructMemb} {t : List LTy}
    {r : List StructMemb × List LTy} (hn : n = memb.length + (names es).length)
    (hd : (names es).Nodup)
    (h : structMembers evalType sizeofType n (.ofList (es.map Entry.form)) memb t = .ok r) :
    memb <+: r.1 ∧ r.1.map (·.name) = memb.map (·.name) ++ names es ∧
      r.2.length = t.length + es.length ∧
      ∀ pre e post, es = pre ++ e :: post → ∀ m ∈ e.members,
        Stored evalType sizeofType e (t.length + pre.length) r.1 m := by
  induction es generalizing memb t with
  | nil =>
    rw [List.map_nil, Sexp.ofList, structMembers, if_neg (by simp [hn, names])] at h
    cases h
    exact ⟨List.prefix_rfl, (List.append_nil _).symm, rfl, fun pre e post he =>
      absurd he (by simp)⟩
  | cons e es ih =>
    have hnames : names (e :: es) = e.members.map (·.name) ++ names es := List.flatMap_cons
    rw [hnames] at hd hn
    have hpos : 0 < e.members.length := by cases e <;> exact Nat.succ_pos _
    have hlt : memb.length < n := by
      rw [hn, List.length_append, List.length_map]
      exact Nat.lt_add_of_pos_right (Nat.add_pos_left hpos _)
    obtain ⟨memb', l, hpre, hn', hst, h⟩ := structMembers_cons hlt hd.of_append_left h
    have hlen : memb'.length = memb.length + e.members.length := by
      have := congrArg List.length hn'
      simpa using this
    obtain ⟨hpre', hnm, hlen', hst'⟩ := ih (by
      rw [hn, hlen, List.length_append, List.length_map, Nat.add_assoc]) hd.of_append_right h
    refine ⟨hpre.trans hpre', ?_, ?_, ?_⟩
    · rw [hnm, hn', hnames, List.append_assoc]
    · rw [hlen', List.length_append, List.length_cons, List.length_cons, List.length_nil,
        Nat.add_assoc, Nat.add_comm (0 + 1)]
    · intro pre e' post he m hm
      cases pre with
      | nil =>
        obtain ⟨rfl, -⟩ := List.cons.inj he
        exact (hst m hm).mono hpre'
      | cons x pre =>
        obtain ⟨-, rfl⟩ := List.cons.inj he
        have := hst' pre e' post rfl m hm
        rwa [List.length_append, List.length_cons, List.length_nil, Nat.add_assoc,
          Nat.add_comm (0 + 1)] at this

theorem countStructLen_entries (es : List Entry) :
    countStructLen (.ofList (es.map Entry.form)) = .ok (es.length, (names es).length) := by
  induction es with
  | nil => rfl
  | cons e es ih =>
    have hnames : names (e :: es) = e.members.map (·.name) ++ names es := List.flatMap_cons
    rw [List.map_cons, Sexp.ofList, countStructLen, hnames]
    cases e with
    | plain m hm =>
      simp only [isUnion_plain, ok_bind, Bool.false_eq_true, if_false, ih, List.length_map,
        List.length_append, List.length_cons, Entry.members, List.length_nil]
    | union first rest =>
      rw [isUnion_union]
      simp only [Entry.form, Sexp.ofList, car_cons, cdr_cons, ok_bind, if_true, countLen_ofList, ih,
        List.length_map, List.length_append, List.length_cons, Entry.members]

/-- What `defstruct` stores for a list of entries. -/
theorem defstruct_stored {registered : List Char → Bool} {id : Nat} {name : List Char}
    {es : List Entry} {p : StructProp} (hd : (names es).Nodup)
    (h : defstruct evalType sizeofType registered id (structForm name es) = .ok p) :
    p.memb.map (·.name) = names es ∧ p.body.length = es.length ∧
      ∀ pre e post, es = pre ++ e :: post → ∀ m ∈ e.members,
        Stored evalType sizeofType e pre.length p.memb m := by
  simp only [defstruct, structForm, Sexp.ofList, car_cons, cdr_cons, ok_bind, expectIdent_ident,
    Sexp.isList_ofList, Bool.not_true, Bool.false_eq_true, if_false, ne_eq, not_true_eq_false,
    countStructLen_entries] at h
  obtain ⟨⟨ms, t⟩, hr, h⟩ := bind_ok.1 h
  obtain ⟨-, hnames, hlen, hst⟩ := structMembers_entries (Nat.zero_add _).symm hd hr
  split at h
  · cases h
  · split at h
    · cases h
    · cases h
      refine ⟨hnames, by simpa using hlen, fun pre e post he m hm => ?_⟩
      simpa using hst pre e post he m hm

end Laid

/-! ## What is selected -/

/-- `v` is a pointer to field `j` of the struct `o` points to. -/
inductive PointsTo (s : St) (o : Value) (j : Nat) : Value → Prop
  | field {p : Pos} {ty : LTy} :
      s.graph.at? p = some (.structGep o j) → PointsTo s o j ⟨.inst p, ty⟩
  | cast {p : Pos} {ty l : LTy} {v : Value} :
      PointsTo s o j v → s.graph.at? p = some (.cast .bitCast v l) → PointsTo s o j ⟨.inst p, ty⟩

section Select

variable {s : St} {o v : Value} {p : Pos} {i j : Nat} {l ty : LTy}

theorem pointsTo_gep (h : s.graph.at? p = some (.structGep o i)) :
    PointsTo s o j ⟨.inst p, ty⟩ ↔ i = j := by
  constructor
  · rintro (h' | ⟨-, h'⟩) <;> rw [h] at h' <;> cases h'
    rfl
  · rintro rfl
    exact .field h

theorem pointsTo_cast (h : s.graph.at? p = some (.cast .bitCast v l)) :
    PointsTo s o j ⟨.inst p, ty⟩ ↔ PointsTo s o j v := by
  constructor
  · rintro (h' | ⟨hv, h'⟩) <;> rw [h] at h' <;> cases h'
    exact hv
  · exact fun hv => .cast hv h

theorem at?_emit_here (hs : Building s) (i : Instr) : (s.emit i).graph.at? s.here = some i :=
  Cfg.at?_append_endOf s.graph hs.lt i []

/-- A cast pointer still points to the field. -/
theorem pointsTo_buildCast (hs : Building s) (h : s.graph.at? p = some (.structGep o i))
    (ty l : LTy) :
    PointsTo (s.buildCast .bitCast ⟨.inst p, ty⟩ l).2 o j
      (s.buildCast .bitCast ⟨.inst p, ty⟩ l).1 ↔ i = j := by
  unfold St.buildCast
  split
  · exact pointsTo_gep h
  · exact (pointsTo_cast (at?_emit_here hs _)).trans
      (pointsTo_gep ((Moves.emitAll hs _).sub _ _ h))

variable {evalType : Sexp → Except Halt Rtt} {sizeofType : LTy → Nat}
variable {eval : Sexp → St → Except Halt (Rtv × St)} {structs : Nat → Option StructProp}

variable (evalType eval structs) in
/-- `memb` on `expr`, whose value is the pointer `o`, selects the member `m` in
field `j`. -/
def Selects (expr : Sexp) (s : St) (o : Value) (m : Member) (j : Nat) : Prop :=
  ∃ r s', memb eval structs (.ofList [expr, .ident m.name]) s = .ok (r, s') ∧ r.lval = true ∧
    m.declared evalType = some r.t ∧ PointsTo s' o j r.v

theorem find?_of_nodup {ms : List StructMemb} {x : StructMemb} (hd : (ms.map (·.name)).Nodup)
    (hx : x ∈ ms) : ms.find? (fun m => m.name = x.name) = some x := by
  rcases hf : ms.find? (fun m => m.name = x.name) with _ | y
  · exact absurd (List.find?_eq_none.1 hf x hx) (by simp)
  · have hy := List.find?_some hf
    rw [hf, List.inj_on_of_nodup_map hd (List.mem_of_find?_eq_some hf) hx (by simpa using hy)]

/-- What `memb` returns for a member that is stored as `x`. -/
theorem selects_stored {expr : Sexp} {s s₁ : St} {r : Rtv} {a : Nat} {p : StructProp}
    {x : StructMemb} {m : Member} {t : Rtt} (he : eval expr s = .ok (r, s₁))
    (ht : r.t = .struct a) (hl : r.lval = true) (hp : structs a = some p) (hs : Building s₁)
    (hf : p.memb.find? (fun y => y.name = m.name) = some x)
    (hb : x.llvmnum < p.body.length) (hm : evalType m.type = .ok x.type)
    (hmain : x.unionmain = none ∧ t = x.type ∨
      ∃ u main, x.unionmain = some u ∧ p.memb[u]? = some main ∧ t = main.type) :
    Selects evalType eval structs expr s r.v m j ↔ x.type.t = t.t ∧ x.llvmnum = j := by
  have hdecl : m.declared evalType = some x.type.t := by rw [Member.declared, hm]; rfl
  have hgep := at?_emit_here hs (.structGep r.v x.llvmnum)
  unfold Selects
  rw [hdecl]
  rcases hmain with ⟨hu, rfl⟩ | ⟨u, main, hu, hmain, rfl⟩
  · have hrun : memb eval structs (.ofList [expr, .ident m.name]) s =
        .ok (⟨⟨.inst s₁.here, .ptr (p.body[x.llvmnum])⟩, x.type.t, true⟩,
          s₁.emit (.structGep r.v x.llvmnum)) := by
      simp only [memb, Sexp.ofList, car_cons, cdr_cons, ok_bind, he, ht, hp, expectIdent_ident, hl,
        Bool.not_true, Bool.false_eq_true, if_false, ne_eq, not_true_eq_false, hf,
        St.buildStructGep, List.getElem?_eq_getElem hb, St.build, hu]
    rw [hrun]
    constructor
    · rintro ⟨_, _, h, -, -, hv⟩
      cases h
      exact ⟨rfl, (pointsTo_gep hgep).1 hv⟩
    · rintro ⟨-, rfl⟩
      exact ⟨_, _, rfl, rfl, rfl, .field hgep⟩
  · have hcast := pointsTo_buildCast (j := j) (Moves.emitAll hs _).building hgep
      (.ptr p.body[x.llvmnum]) (.ptr x.type.l)
    -- a member of a union is the field of its longest member, behind a cast
    have hrun : memb eval structs (.ofList [expr, .ident m.name]) s =
        .ok (⟨((s₁.emit (.structGep r.v x.llvmnum)).buildCast .bitCast
            ⟨.inst s₁.here, .ptr (p.body[x.llvmnum])⟩ (.ptr x.type.l)).1, main.type.t, true⟩,
          ((s₁.emit (.structGep r.v x.llvmnum)).buildCast .bitCast
            ⟨.inst s₁.here, .ptr (p.body[x.llvmnum])⟩ (.ptr x.type.l)).2) := by
      simp only [memb, Sexp.ofList, car_cons, cdr_cons, ok_bind, he, ht, hp, expectIdent_ident, hl,
        Bool.not_true, Bool.false_eq_true, if_false, ne_eq, not_true_eq_false, hf,
        St.buildStructGep, List.getElem?_eq_getElem hb, St.build, hu, hmain]
    rw [hrun]
    constructor
    · rintro ⟨_, _, h, -, ht, hv⟩
      cases h
      exact ⟨Option.some.inj ht, hcast.1 hv⟩
    · rintro ⟨ht, hj⟩
      exact ⟨_, _, rfl, rfl, congrArg some ht, hcast.2 hj⟩

/-- `memb` selects a declared member, with its type and in its field, exactly if
the member is the longest of its entry (as a plain member is), or its union is
the first entry and the longest member of the union has the same type. -/
theorem memb_selects_iff {registered : List Char → Bool} {id : Nat} {name : List Char}
    (pre post : List Entry) {e : Entry} {m : Member} {p : StructProp}
    (hdef : defstruct evalType sizeofType registered id (structForm name (pre ++ e :: post)) =
      .ok p)
    (hnames : (names (pre ++ e :: post)).Nodup) (hm : m ∈ e.members) {expr : Sexp} {s s₁ : St}
    {r : Rtv} {a : Nat} (he : eval expr s = .ok (r, s₁)) (ht : r.t = .struct a)
    (hl : r.lval = true) (hp : structs a = some p) (hs : Building s₁) :
    Selects evalType eval structs expr s r.v m pre.length ↔
      ∃ main, IsLongest (Member.size evalType sizeofType) e.members main ∧
        (m = main ∨ pre = [] ∧ m.declared evalType = main.declared evalType) := by
  obtain ⟨hnm, hlen, hst⟩ := defstruct_stored hnames hdef
  obtain ⟨x, hx, hxn, hxt, hrest⟩ := hst pre e post rfl m hm
  have hf : p.memb.find? (fun y => y.name = m.name) = some x :=
    hxn ▸ find?_of_nodup (hnm ▸ hnames) hx
  have hpos : pre.length < p.body.length := by
    rw [hlen, List.length_append, List.length_cons]
    exact Nat.lt_add_of_pos_right (Nat.succ_pos _)
  cases e with
  | plain m' h' =>
    obtain rfl := List.mem_singleton.1 hm
    obtain ⟨hu, hj⟩ := hrest
    rw [selects_stored he ht hl hp hs hf (hj ▸ hpos) hxt (.inl ⟨hu, rfl⟩)]
    refine iff_of_true ⟨rfl, hj⟩ ⟨m, ⟨[], [], rfl, ?_, ?_⟩, .inl rfl⟩ <;> exact fun _ h => nomatch h
  | union first rest =>
    obtain ⟨u, main, longest, hu, hmain, hlongest, hlt, hnum⟩ := hrest
    have hb : x.llvmnum < p.body.length := by
      rw [hnum]
      split
      · exact hpos
      · exact Nat.zero_lt_of_lt hpos
    rw [selects_stored he ht hl hp hs hf hb hxt (.inr ⟨u, main, hu, hmain, rfl⟩), hnum]
    have hdecl : m.declared evalType = longest.declared evalType ↔ x.type.t = main.type.t := by
      simp [Member.declared, hxt, hlt, Except.toOption]
    have hone : (∃ main', IsLongest (Member.size evalType sizeofType)
        (Entry.union first rest).members main' ∧
          (m = main' ∨ pre = [] ∧ m.declared evalType = main'.declared evalType)) ↔
        m = longest ∨ pre = [] ∧ m.declared evalType = longest.declared evalType := by
      constructor
      · rintro ⟨main', hmain', h⟩
        exact hmain'.unique hlongest ▸ h
      · exact fun h => ⟨longest, hlongest, h⟩
    rw [hone, hdecl]
    rcases eq_or_ne m longest with rfl | hne
    · have hsame : x.type = main.type := Except.ok.inj (hxt.symm.trans hlt)
      simp [hsame]
    · rw [if_neg hne, or_iff_right hne, and_comm, eq_comm, List.length_eq_zero_iff]

end Select

/-! ## A struct like that of the reader's values -/

/-- The unsigned integer types by name. -/
def unsignedType : Sexp → Except Halt Rtt
  | .ident x =>
    if x = "u8".toList then .ok (lowerIntegerType 8 false)
    else if x = "u32".toList then .ok (lowerIntegerType 32 false)
    else .error (.error "unknown type: \"%s\"")
  | _ => .error (.error "expected type")

def intSize : LTy → Nat
  | .int width => width / 8
  | _ => 8

/-- A byte and a word in one field, and a byte behind them. -/
def mixedEntries : List Entry :=
  [.union ⟨.ident "u8".toList, "T".toList⟩ [⟨.ident "u32".toList, "D".toList⟩],
    .plain ⟨.ident "u8".toList, "Reserved".toList⟩ (by decide)]

def mixedStruct : StructProp where
  name := "myval".toList
  l := .struct 0
  memb := [⟨"T".toList, lowerIntegerType 8 false, 0, some 1⟩,
    ⟨"D".toList, lowerIntegerType 32 false, 0, some 1⟩,
    ⟨"Reserved".toList, lowerIntegerType 8 false, 1, none⟩]
  body := [.int 32, .int 8]

theorem mixedStruct_defined :
    defstruct unsignedType intSize (fun _ => false) 0 (structForm "myval".toList mixedEntries) =
      .ok mixedStruct := by decide

/-- A variable that holds such a struct. -/
def mixedVar : Rtv := ⟨⟨.ext 0, .ptr (.struct 0)⟩, .struct 0, true⟩

theorem memb_selects_iff_example :
    Selects unsignedType (fun _ s => .ok (mixedVar, s)) (fun _ => some mixedStruct) (.ident "b".toList)
        emptyBody mixedVar.v ⟨.ident "u8".toList, "Reserved".toList⟩ 1 ↔
      ∃ main, IsLongest (Member.size unsignedType intSize)
        [⟨.ident "u8".toList, "Reserved".toList⟩] main ∧
        (⟨.ident "u8".toList, "Reserved".toList⟩ = main ∨ [mixedEntries.head (by decide)] = [] ∧
          Member.declared unsignedType ⟨.ident "u8".toList, "Reserved".toList⟩ =
            main.declared unsignedType) :=
  memb_selects_iff [mixedEntries.head (by decide)] [] mixedStruct_defined (by decide)
    List.mem_cons_self rfl rfl rfl rfl emptyBody_building

/-- The byte of the union is read as a word. -/
theorem union_member_not_selected :
    defstruct unsignedType intSize (fun _ => false) 0 (structForm "myval".toList mixedEntries) =
        .ok mixedStruct ∧ (names mixedEntries).Nodup ∧
      ¬ Selects unsignedType (fun _ s => .ok (mixedVar, s)) (fun _ => some mixedStruct)
        (.ident "b".toList) emptyBody mixedVar.v ⟨.ident "u8".toList, "T".toList⟩ 0 := by
  refine ⟨mixedStruct_defined, by decide, ?_⟩
  rintro ⟨r, s', hrun, -, ht, -⟩
  have hr : memb (fun _ s => .ok (mixedVar, s)) (fun _ => some mixedStruct)
      (.ofList [.ident "b".toList, .ident "T".toList]) emptyBody =
        .ok (⟨_, (lowerIntegerType 32 false).t, true⟩, _) := rfl
  rw [hr] at hrun
  cases hrun
  exact absurd ht (by decide)

end Dolorem.Codegen
