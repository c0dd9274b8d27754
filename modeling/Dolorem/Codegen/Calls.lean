import Dolorem.Codegen.Converters
import Dolorem.Lib.Slots

/-!
# The operands of a call

`lower_funcall` puts the operands where it finds the arguments: operand `i` goes
into slot `i` of the same array. `lowerFuncallArray` is the function with that
array, and it computes what `lowerFuncall` computes. It has no array when the
function has no parameters, whatever the number of arguments, and it can report
an error only where there is a list to blame: `calls_right_iff`.
-/

namespace Dolorem.Codegen

variable {a v c : Rtv} {p : String × Rtt} {f : Fun} {fn : Value} {parms : List (String × Rtt)}
  {args : List Rtv} {vs : List Value} {s s' : St}

/-! ## The array -/

/-- A slot of the array: an argument at first, then an operand. -/
inductive CallSlot where
  | arg (a : Rtv)
  | operand (v : Value)
deriving DecidableEq, Repr

/-- `args[i]`. -/
def argAt (mem : List CallSlot) (i : Nat) : Except Halt Rtv :=
  match mem[i]? with
  | some (.arg a) => .ok a
  | _ => .error .crash

/-- `v[i] = …`, where `room` says that `v` is not null. -/
def putOperand (room : Bool) (i : Nat) (v : Value) (mem : List CallSlot) :
    Except Halt (List CallSlot) :=
  if room then
    match Slots.assign i (fun _ => .operand v) mem with
    | some mem => .ok mem
    | none => .error .crash
  else .error .crash

/-- `compiler_error (list, …)`, which looks at `*list` first; `located` says that `list` is not
null. -/
def Halt.blame (located : Bool) : Halt → Halt
  | error msg => if located then .error msg else .crash
  | crash => .crash

/-- The loop of `lower_funcall`, with `n` rounds left. -/
def storeOperands (located room : Bool) (parms : List (String × Rtt)) :
    Nat → Nat → List CallSlot → St → Except Halt (List CallSlot × St)
  | 0, _, mem, s => .ok (mem, s)
  | n + 1, i, mem, s => do
    let a ← argAt mem i
    let (v, s) ← prepareRead a s
    match parms[i]? with
    | none =>
      let mem ← putOperand room i v.v mem
      storeOperands located room parms n (i + 1) mem s
    | some p =>
      let (c, s) ← convertType v p.2 0 s
      match c with
      | none => .error (.blame located (.error "couldn't convert type \"%s\" to \"%s\""))
      | some c =>
        let mem ← putOperand room i c.v mem
        storeOperands located room parms n (i + 1) mem s

/-- What `LLVMBuildCall2` finds in the array. -/
def operandsOf : List CallSlot → Except Halt (List Value)
  | [] => .ok []
  | .operand v :: mem => do
    let vs ← operandsOf mem
    .ok (v :: vs)
  | .arg _ :: _ => .error .crash

/-- `lower_funcall`. `funcall` and `funcall_custom_fun` give it the list of the arguments,
`funcall_custom_args` a null pointer. -/
def lowerFuncallArray (located : Bool) (fn : Value) (f : Fun) (args : List Rtv) (s : St) :
    Except Halt (Rtv × St) :=
  if args.length ≠ f.parms.length ∧ f.vaArgs = false then
    .error (.blame located (.error "expected %i arguments, found %i"))
  else if f.vaArgs = true ∧ args.length < f.parms.length then
    .error (.blame located (.error "expected at least %i arguments, found %i"))
  else do
    let (mem, s) ← storeOperands located (!f.parms.isEmpty) f.parms args.length 0 (args.map .arg) s
    let vs ← operandsOf mem
    if vs.any (·.ty = .null) then .error .crash
    else
      let (r, s) := s.build (.call fn vs) f.ret.l
      .ok (⟨r, f.ret.t, false⟩, s)

/-- The array when the operands `vs` are in it and the arguments `args` are left. -/
def halfway (vs : List Value) (args : List Rtv) : List CallSlot :=
  vs.map .operand ++ args.map .arg

theorem argAt_halfway (vs : List Value) (a : Rtv) (args : List Rtv) :
    argAt (halfway vs (a :: args)) vs.length = .ok a := by
  have hslot : (halfway vs (a :: args))[vs.length]? = some (.arg a) := by
    rw [halfway, List.getElem?_append_right (by rw [List.length_map]), List.length_map,
      Nat.sub_self]
    rfl
  rw [argAt, hslot]

theorem putOperand_halfway (vs : List Value) (a : Rtv) (args : List Rtv) (v : Value) :
    putOperand true vs.length v (halfway vs (a :: args)) = .ok (halfway (vs ++ [v]) args) := by
  have hlt : vs.length < (halfway vs (a :: args)).length := by
    rw [halfway, List.length_append, List.length_map, List.length_map]
    exact Nat.lt_add_of_pos_right (Nat.succ_pos _)
  have hmod := Slots.modify_append (vs.map CallSlot.operand) (.arg a) (args.map .arg)
    fun _ => .operand v
  rw [List.length_map] at hmod
  simp only [putOperand, if_true, Slots.assign_of_lt hlt]
  rw [halfway, List.map_cons, hmod, halfway, List.map_append, List.append_assoc]
  rfl

theorem operandsOf_halfway (vs : List Value) : operandsOf (halfway vs []) = .ok vs := by
  induction vs with
  | nil => rfl
  | cons v vs ih =>
    show (operandsOf (halfway vs [])).bind _ = _
    rw [ih]
    rfl

/-- A value that cannot be read is never blamed on the list. -/
theorem prepareRead_error {h : Halt} (hr : prepareRead a s = .error h) : h = .crash := by
  unfold prepareRead at hr
  split at hr
  · split at hr
    · cases hr
    · cases hr
      rfl
  · cases hr

theorem convertType_error {h : Halt} {dest : Rtt} {flags : Nat}
    (hc : convertType a dest flags s = .error h) : h = .crash := by
  cases hr : prepareRead a s with
  | error h' =>
    rw [convertType, hr] at hc
    cases hc
    exact prepareRead_error hr
  | ok r =>
    rw [convertType_of_read hr] at hc
    cases hc

/-- The array is filled with the operands `lowerArgs` computes: what is written in a round is behind
what is read later. -/
theorem storeOperands_eq (located room : Bool) (parms : List (String × Rtt))
    (hroom : room = !parms.isEmpty) (vs : List Value) (args : List Rtv) (s : St) :
    storeOperands located room parms args.length vs.length (halfway vs args) s =
      ((lowerArgs room (parms.drop vs.length) args s).map
        fun r => (halfway (vs ++ r.1) [], r.2)).mapError (Halt.blame located) := by
  induction args generalizing vs s with
  | nil =>
    have hargs : lowerArgs room (parms.drop vs.length) [] s = .ok ([], s) := by
      cases parms.drop vs.length <;> rfl
    rw [hargs]
    show Except.ok (halfway vs [], s) = .ok (halfway (vs ++ []) [], s)
    rw [List.append_nil]
  | cons a args ih =>
    rw [List.length_cons, storeOperands, argAt_halfway, ok_bind]
    -- the loop goes on with one operand more
    have hround : ∀ (v : Value) (s : St), room = true →
        (putOperand room vs.length v (halfway vs (a :: args)) >>= fun mem =>
          storeOperands located room parms args.length (vs.length + 1) mem s) =
        ((lowerArgs room (parms.drop (vs.length + 1)) args s).map
          fun r => (halfway (vs ++ v :: r.1) [], r.2)).mapError (Halt.blame located) := by
      rintro v s rfl
      have hrest := ih (vs ++ [v]) s
      rw [List.length_append, List.length_singleton] at hrest
      rw [putOperand_halfway, ok_bind, hrest]
      simp only [List.append_assoc, List.singleton_append]
    -- behind the last parameter the operands are not converted
    cases hp : parms[vs.length]? with
    | none =>
      have hle := List.getElem?_eq_none_iff.1 hp
      rw [List.drop_eq_nil_of_le hle, lowerArgs]
      cases hread : prepareRead a s with
      | error h =>
        obtain rfl := prepareRead_error hread
        rfl
      | ok r =>
        simp only [ok_bind]
        cases room with
        | false => rfl
        | true =>
          rw [hround _ _ rfl, List.drop_eq_nil_of_le (Nat.le_succ_of_le hle)]
          simp only [if_true]
          cases lowerArgs true [] args r.2 <;> rfl
    | some p =>
      obtain ⟨hlt, rfl⟩ := List.getElem?_eq_some_iff.1 hp
      have hroom' : room = true := by
        rw [hroom, List.isEmpty_eq_false_iff.2 (List.ne_nil_of_length_pos (Nat.zero_lt_of_lt hlt))]
        rfl
      rw [List.drop_eq_getElem_cons hlt, lowerArgs]
      cases hread : prepareRead a s with
      | error h =>
        obtain rfl := prepareRead_error hread
        rfl
      | ok r =>
        simp only [ok_bind]
        cases hconv : convertType r.1 parms[vs.length].2 0 r.2 with
        | error h =>
          obtain rfl := convertType_error hconv
          rfl
        | ok c =>
          obtain ⟨c, s₁⟩ := c
          cases c with
          | none => rfl
          | some c =>
            simp only [ok_bind]
            rw [hround _ _ hroom']
            cases lowerArgs room (parms.drop (vs.length + 1)) args s₁ <;> rfl

/-- With and without the array, a call is the same, but for errors without a list. -/
theorem lowerFuncallArray_eq (located : Bool) (fn : Value) (f : Fun) (args : List Rtv) (s : St) :
    lowerFuncallArray located fn f args s =
      (lowerFuncall fn f args s).mapError (Halt.blame located) := by
  have hstore := storeOperands_eq located (!f.parms.isEmpty) f.parms rfl [] args s
  rw [List.length_nil, List.drop_zero] at hstore
  unfold lowerFuncallArray lowerFuncall
  split
  · rfl
  split
  · rfl
  show (storeOperands located _ f.parms args.length 0 (halfway [] args) s).bind _ = _
  rw [hstore]
  cases lowerArgs (!f.parms.isEmpty) f.parms args s with
  | error h => rfl
  | ok r =>
    show (operandsOf (halfway r.1 [])).bind _ = Except.mapError _ (if _ then _ else _)
    rw [operandsOf_halfway]
    simp only [Except.bind]
    split <;> rfl

/-! ## What a call passes -/

/-- A value of an expression: an l-value is a pointer to it, and an r-value has an LLVM type or is
of the type `void`. -/
def Rtv.Proper (a : Rtv) : Prop :=
  if a.lval then ∃ l, a.v.ty = .ptr l ∧ l ≠ .null else a.v.ty = .null → a.t = .void

/-- There are too few arguments, or too many. -/
def Fun.WrongCount (f : Fun) (n : Nat) : Prop :=
  if f.vaArgs then n < f.parms.length else n ≠ f.parms.length

/-- Some argument does not convert to the type of its parameter. -/
def ConversionFails (parms : List (String × Rtt)) (args : List Rtv) : Prop :=
  ∃ ap ∈ args.zip parms, convertTypes ap.1.t ap.2.2 0 = none

/-- `vs` are the operands for the arguments `args`, and the code that computes them leads from the
first state to the second. -/
inductive Operands : List (String × Rtt) → List Rtv → St → List Value → St → Prop
  | nil (parms : List (String × Rtt)) (s : St) : Operands parms [] s [] s
  /-- behind the parameters an argument is loaded -/
  | extra {a v : Rtv} {args : List Rtv} {vs : List Value} {s s₁ s' : St} :
    prepareRead a s = .ok (v, s₁) → Operands [] args s₁ vs s' →
      Operands [] (a :: args) s (v.v :: vs) s'
  /-- an argument for a parameter is loaded and converted -/
  | parm {a v c : Rtv} {p : String × Rtt} {parms : List (String × Rtt)} {args : List Rtv}
    {vs : List Value} {s s₁ s₂ s' : St} :
    prepareRead a s = .ok (v, s₁) → convertType v p.2 0 s₁ = .ok (some c, s₂) →
      Operands parms args s₂ vs s' → Operands (p :: parms) (a :: args) s (c.v :: vs) s'

def Instr.isCall : Instr → Bool
  | .call _ _ => true
  | _ => false

/-- The call passes every argument, unless their number is wrong or one does not convert. -/
structure CallsRight (located : Bool) (fn : Value) (f : Fun) (args : List Rtv) (s : St) : Prop where
  reports : (∃ msg, lowerFuncallArray located fn f args s = .error (.error msg)) ↔
    f.WrongCount args.length ∨ ConversionFails f.parms args
  calls : ¬ (f.WrongCount args.length ∨ ConversionFails f.parms args) →
    ∃ vs is, Operands f.parms args s vs (s.emitAll is) ∧ vs.length = args.length ∧
      (∀ i ∈ is, i.isCall = false) ∧
      lowerFuncallArray located fn f args s =
        .ok (⟨⟨.inst (s.emitAll is).here, f.ret.l⟩, f.ret.t, false⟩,
          s.emitAll (is ++ [.call fn vs]))

theorem Operands.length_eq (h : Operands parms args s vs s') : vs.length = args.length := by
  induction h with
  | nil parms s => rfl
  | extra _ _ ih => rw [List.length_cons, List.length_cons, ih]
  | parm _ _ _ ih => rw [List.length_cons, List.length_cons, ih]

/-! ## One argument -/

/-- `s'` is `s` with instructions behind it that are no calls. -/
def Prepares (s s' : St) : Prop := ∃ is, s' = s.emitAll is ∧ ∀ i ∈ is, i.isCall = false

theorem Prepares.refl (s : St) : Prepares s s :=
  ⟨[], (St.emitAll_nil s).symm, fun _ h => absurd h List.not_mem_nil⟩

theorem Prepares.emit (s : St) {i : Instr} (h : i.isCall = false) : Prepares s (s.emit i) :=
  ⟨[i], rfl, fun j hj => by rwa [List.mem_singleton.1 hj]⟩

theorem Prepares.trans {s₁ s₂ s₃ : St} (h : Prepares s₁ s₂) (h' : Prepares s₂ s₃) :
    Prepares s₁ s₃ := by
  obtain ⟨is, rfl, his⟩ := h
  obtain ⟨js, rfl, hjs⟩ := h'
  refine ⟨is ++ js, St.emitAll_emitAll .., fun i hi => ?_⟩
  exact (List.mem_append.1 hi).elim (his i) (hjs i)

theorem prepareRead_prepares (h : prepareRead a s = .ok (v, s')) : Prepares s s' := by
  unfold prepareRead at h
  split at h
  · split at h
    · cases h
      exact .emit s rfl
    · cases h
  · cases h
    exact .refl s

theorem convertType_prepares {flags : Nat} {dest : Rtt} {r : Option Rtv}
    (h : convertType a dest flags s = .ok (r, s')) : Prepares s s' := by
  obtain ⟨⟨v, s₁⟩, hread, -⟩ := bind_ok.1 h
  rw [convertType_of_read hread] at h
  refine (prepareRead_prepares hread).trans ?_
  cases hc : convertTypes v.t dest flags with
  | none =>
    rw [hc] at h
    cases h
    exact .refl _
  | some c =>
    rw [hc] at h
    cases h
    cases c with
    | same t => exact .refl _
    | build op l t =>
      show Prepares s₁ (s₁.buildCast op v.v l).2
      unfold St.buildCast
      split
      · exact .refl _
      · exact .emit _ rfl

theorem Operands.prepares (h : Operands parms args s vs s') : Prepares s s' := by
  induction h with
  | nil parms s => exact .refl s
  | extra hv _ ih => exact (prepareRead_prepares hv).trans ih
  | parm hv hc _ ih => exact ((prepareRead_prepares hv).trans (convertType_prepares hc)).trans ih

/-- A proper value can be read, and it is null after that if it was null before. -/
theorem Rtv.Proper.read (h : a.Proper) (s : St) : ∃ v s', prepareRead a s = .ok (v, s') ∧
    v.lval = false ∧ v.t = a.t ∧ (v.v.ty = .null ↔ a.v.ty = .null) ∧
    (v.v.ty = .null → v.t = .void) := by
  obtain ⟨⟨r, l⟩, t, lval⟩ := a
  cases lval with
  | false => exact ⟨_, s, rfl, rfl, rfl, Iff.rfl, h⟩
  | true =>
    obtain ⟨l', rfl, hl'⟩ : ∃ l', l = .ptr l' ∧ l' ≠ .null := h
    exact ⟨_, _, rfl, rfl, rfl, iff_of_false hl' LTy.noConfusion, fun h => absurd h hl'⟩

theorem convertType_rvalue (hv : v.lval = false) (dest : Rtt) (s : St) :
    convertType v dest 0 s = .ok (converted (convertTypes v.t dest 0) v s) := by
  have hread : prepareRead v s = .ok (v, s) := by
    rw [prepareRead, hv]
    rfl
  exact convertType_of_read hread dest 0

/-- A conversion makes no null value, and keeps a null value as it is. -/
theorem apply_null_iff {dest : Rtt} {k : Conv} (hk : convertTypes v.t dest 0 = some k)
    (hl : dest.unalias.l ≠ .null) (hvoid : v.v.ty = .null → v.t = .void) (s : St) :
    (k.apply v s).1.v.ty = .null ↔ v.v.ty = .null := by
  have heq := convertTypes_eq v.t dest 0
  rw [hk, Option.map_some, eq_comm, Option.map_eq_some_iff] at heq
  obtain ⟨k', hk', hbare⟩ := heq
  cases k with
  | same t => exact Iff.rfl
  | build op l t =>
    have hspec := convertWithin_spec hk'
    rcases hspec with ⟨rfl, -⟩ | ⟨_, _, rfl, -⟩ | ⟨rfl, -⟩ | ⟨op', rfl, hcast⟩
    · cases hbare
    · cases hbare
    · cases hbare
    obtain ⟨rfl, rfl, -⟩ := Conv.build.inj hbare
    show (s.buildCast _ v.v dest.unalias.l).1.ty = .null ↔ _
    rw [buildCast_ty]
    refine iff_of_false hl fun hnull => ?_
    have ht : v.t.unalias = .void := by
      rw [hvoid hnull]
      rfl
    rw [ht] at hcast
    rcases hcast.2 with ⟨h, -⟩ | ⟨h, -⟩ <;> cases h

/-! ## All arguments -/

theorem lowerArgs_operands (hargs : ∀ a ∈ args, a.Proper) (hc : ¬ ConversionFails parms args)
    (hl : ∀ p ∈ parms, p.2.unalias.l ≠ .null) (s : St) :
    ∃ vs s', lowerArgs true parms args s = .ok (vs, s') ∧ Operands parms args s vs s' ∧
      ((∃ v ∈ vs, v.ty = .null) ↔ ∃ a ∈ args, a.v.ty = .null) := by
  induction args generalizing parms s with
  | nil =>
    refine ⟨[], s, ?_, .nil parms s, by simp⟩
    cases parms <;> rfl
  | cons a args ih =>
    obtain ⟨v, s₁, hv, hlval, ht, hnull, hvoid⟩ := (hargs a List.mem_cons_self).read s
    have hargs' : ∀ a ∈ args, a.Proper := fun a ha => hargs a (List.mem_cons_of_mem _ ha)
    cases parms with
    | nil =>
      have hc' : ¬ ConversionFails [] args := fun ⟨ap, hmem, _⟩ => by
        rw [List.zip_nil_right] at hmem
        cases hmem
      obtain ⟨vs, s', hvs, hops, hiff⟩ := ih hargs' hc' (fun _ h => absurd h List.not_mem_nil) s₁
      refine ⟨v.v :: vs, s', ?_, .extra hv hops, ?_⟩
      · simp only [lowerArgs, hv, ok_bind, if_true, hvs]
      · rw [List.exists_mem_cons_iff, List.exists_mem_cons_iff, hnull, hiff]
    | cons p parms =>
      have hfit : ∃ k, convertTypes v.t p.2 0 = some k := by
        refine Option.ne_none_iff_exists'.1 fun hk => hc ⟨(a, p), List.mem_cons_self, ?_⟩
        rw [← ht]
        exact hk
      obtain ⟨k, hk⟩ := hfit
      have hconv := convertType_rvalue hlval p.2 s₁
      rw [hk] at hconv
      obtain ⟨vs, s', hvs, hops, hiff⟩ := ih hargs'
        (fun ⟨ap, hmem, hap⟩ => hc ⟨ap, List.mem_cons_of_mem _ hmem, hap⟩)
        (fun p hp => hl p (List.mem_cons_of_mem _ hp)) (k.apply v s₁).2
      refine ⟨(k.apply v s₁).1.v :: vs, s', ?_, .parm hv hconv hops, ?_⟩
      · simp only [lowerArgs, hv, ok_bind, hconv, converted, hvs]
      · rw [List.exists_mem_cons_iff, List.exists_mem_cons_iff,
          apply_null_iff hk (hl p List.mem_cons_self) hvoid s₁, hnull, hiff]

theorem lowerArgs_fails (hargs : ∀ a ∈ args, a.Proper) (hc : ConversionFails parms args)
    (room : Bool) (s : St) : ∃ msg, lowerArgs room parms args s = .error (.error msg) := by
  induction args generalizing parms s with
  | nil =>
    obtain ⟨ap, hmem, -⟩ := hc
    cases hmem
  | cons a args ih =>
    obtain ⟨v, s₁, hv, hlval, ht, -, -⟩ := (hargs a List.mem_cons_self).read s
    have hargs' : ∀ a ∈ args, a.Proper := fun a ha => hargs a (List.mem_cons_of_mem _ ha)
    cases parms with
    | nil =>
      obtain ⟨ap, hmem, -⟩ := hc
      cases hmem
    | cons p parms =>
      have hconv := convertType_rvalue hlval p.2 s₁
      cases hk : convertTypes v.t p.2 0 with
      | none =>
        rw [hk] at hconv
        exact ⟨_, by simp only [lowerArgs, hv, ok_bind, hconv, converted]; rfl⟩
      | some k =>
        rw [hk] at hconv
        have hrest : ConversionFails parms args := by
          obtain ⟨ap, hmem, hap⟩ := hc
          rcases List.mem_cons.1 hmem with rfl | hmem
          · rw [← ht, hk] at hap
            cases hap
          · exact ⟨ap, hmem, hap⟩
        obtain ⟨msg, hmsg⟩ := ih hargs' hrest (k.apply v s₁).2
        refine ⟨msg, ?_⟩
        simp only [lowerArgs, hv, ok_bind, hconv, converted, hmsg, error_bind]

/-! ## The call -/

theorem wrongCount_reported (fn : Value) (h : f.WrongCount args.length) (s : St) :
    ∃ msg, lowerFuncall fn f args s = .error (.error msg) := by
  unfold Fun.WrongCount at h
  unfold lowerFuncall
  split at h
  · next hva =>
    rw [if_neg fun h => Bool.noConfusion (hva.symm.trans h.2), if_pos ⟨hva, h⟩]
    exact ⟨_, rfl⟩
  · next hva =>
    rw [if_pos ⟨h, Bool.eq_false_iff.2 hva⟩]
    exact ⟨_, rfl⟩

/-- With the right number of arguments, what happens depends on the operands. -/
theorem lowerFuncall_counted (fn : Value) (h : ¬ f.WrongCount args.length) (s : St) :
    lowerFuncall fn f args s =
      (lowerArgs (!f.parms.isEmpty) f.parms args s).bind fun r =>
        if r.1.any (·.ty = .null) then .error .crash
        else .ok (⟨⟨.inst r.2.here, f.ret.l⟩, f.ret.t, false⟩, r.2.emit (.call fn r.1)) := by
  have hcount : ¬ (args.length ≠ f.parms.length ∧ f.vaArgs = false) := by
    rintro ⟨hne, hva⟩
    refine h ?_
    rw [Fun.WrongCount, hva]
    exact hne
  have hleast : ¬ (f.vaArgs = true ∧ args.length < f.parms.length) := by
    rintro ⟨hva, hlt⟩
    refine h ?_
    rw [Fun.WrongCount, hva]
    exact hlt
  rw [lowerFuncall, if_neg hcount, if_neg hleast]
  rfl

/-- An error that is due is reported if there is a list to blame. -/
theorem calls_right_due {located : Bool} (hargs : ∀ a ∈ args, a.Proper)
    (hdue : f.WrongCount args.length ∨ ConversionFails f.parms args) (s : St) :
    CallsRight located fn f args s ↔ located = true := by
  obtain ⟨msg, hmsg⟩ : ∃ msg, lowerFuncall fn f args s = .error (.error msg) := by
    by_cases hcount : f.WrongCount args.length
    · exact wrongCount_reported fn hcount s
    · have hc := hdue.resolve_left hcount
      obtain ⟨msg, hmsg⟩ := lowerArgs_fails hargs hc (!f.parms.isEmpty) s
      refine ⟨msg, ?_⟩
      rw [lowerFuncall_counted fn hcount s, hmsg]
      rfl
  have hrun := lowerFuncallArray_eq located fn f args s
  rw [hmsg] at hrun
  constructor
  · intro h
    obtain ⟨msg', hmsg'⟩ := h.reports.2 hdue
    rw [hrun] at hmsg'
    cases located with
    | false => cases hmsg'
    | true => rfl
  · rintro rfl
    refine ⟨?_, fun h => absurd hdue h⟩
    rw [hrun]
    exact iff_of_true ⟨msg, rfl⟩ hdue

/-- Without parameters there is no array, and only a call without arguments completes. -/
theorem calls_right_bare {located : Bool} (hargs : ∀ a ∈ args, a.Proper)
    (hdue : ¬ (f.WrongCount args.length ∨ ConversionFails f.parms args)) (hparms : f.parms = [])
    (s : St) : CallsRight located fn f args s ↔ args = [] := by
  have hrun := lowerFuncall_counted fn (not_or.1 hdue).1 s
  have harray := lowerFuncallArray_eq located fn f args s
  cases args with
  | nil =>
    have hnil : lowerArgs (!f.parms.isEmpty) f.parms [] s = .ok ([], s) := by
      rw [hparms]
      rfl
    rw [hnil] at hrun
    rw [hrun] at harray
    refine iff_of_true ⟨?_, fun _ => ?_⟩ rfl
    · rw [harray]
      exact iff_of_false (fun ⟨_, h⟩ => nomatch h) hdue
    · refine ⟨[], [], ?_, rfl, fun _ h => absurd h List.not_mem_nil, ?_⟩
      · rw [St.emitAll_nil, hparms]
        exact .nil _ s
      · rw [St.emitAll_nil]
        exact harray
  | cons a args =>
    refine iff_of_false (fun h => ?_) (List.cons_ne_nil a args)
    obtain ⟨vs, is, -, -, -, hok⟩ := h.calls hdue
    obtain ⟨v, s₁, hv, -⟩ := (hargs a List.mem_cons_self).read s
    have hcrash : lowerArgs (!f.parms.isEmpty) f.parms (a :: args) s = .error .crash := by
      rw [hparms]
      simp only [List.isEmpty_nil, Bool.not_true, lowerArgs, hv, ok_bind, Bool.false_eq_true,
        if_false]
    rw [harray, hrun, hcrash] at hok
    cases hok

/-- With parameters there is room for all operands, and LLVM wants them to have a type. -/
theorem calls_right_room {located : Bool} (hargs : ∀ a ∈ args, a.Proper)
    (hl : ∀ p ∈ f.parms, p.2.unalias.l ≠ .null)
    (hdue : ¬ (f.WrongCount args.length ∨ ConversionFails f.parms args)) (hparms : f.parms ≠ [])
    (s : St) : CallsRight located fn f args s ↔ ∀ a ∈ args, a.v.ty ≠ .null := by
  obtain ⟨hcount, hc⟩ := not_or.1 hdue
  have hrun := lowerFuncall_counted fn hcount s
  have harray := lowerFuncallArray_eq located fn f args s
  have hroom : (!f.parms.isEmpty) = true := by
    rw [List.isEmpty_eq_false_iff.2 hparms]
    rfl
  obtain ⟨vs, s', hvs, hops, hnull⟩ := lowerArgs_operands hargs hc hl s
  rw [hroom, hvs] at hrun
  obtain ⟨is, rfl, his⟩ := hops.prepares
  by_cases hany : ∃ a ∈ args, a.v.ty = .null
  · refine iff_of_false (fun h => ?_) fun h => ?_
    · obtain ⟨vs', is', -, -, -, hok⟩ := h.calls hdue
      obtain ⟨v, hv, hty⟩ := hnull.2 hany
      have hbad : vs.any (·.ty = .null) = true :=
        List.any_eq_true.2 ⟨v, hv, decide_eq_true hty⟩
      rw [harray, hrun] at hok
      simp only [Except.bind, hbad, if_true] at hok
      cases hok
    · obtain ⟨a, ha, hty⟩ := hany
      exact h a ha hty
  · have hgood : vs.any (·.ty = .null) = false := by
      refine Bool.eq_false_iff.2 fun h => hany (hnull.1 ?_)
      obtain ⟨v, hv, hty⟩ := List.any_eq_true.1 h
      exact ⟨v, hv, of_decide_eq_true hty⟩
    simp only [Except.bind, hgood, Bool.false_eq_true, if_false] at hrun
    rw [hrun] at harray
    refine iff_of_true ⟨?_, fun _ => ?_⟩ fun a ha hty => hany ⟨a, ha, hty⟩
    · rw [harray]
      exact iff_of_false (fun ⟨_, h⟩ => nomatch h) hdue
    · refine ⟨vs, is, hops, hops.length_eq, his, ?_⟩
      rw [harray, ← St.emitAll_emitAll]
      rfl

/-- A call passes every argument, or reports why it does not, if and only if there is a list to
blame in case an error is due, and otherwise the function has parameters in case it has arguments,
and every argument has a value. -/
theorem calls_right_iff (located : Bool) (fn : Value) (s : St) (hargs : ∀ a ∈ args, a.Proper)
    (hl : ∀ p ∈ f.parms, p.2.unalias.l ≠ .null) :
    CallsRight located fn f args s ↔
      (f.WrongCount args.length ∨ ConversionFails f.parms args → located = true) ∧
        (¬ (f.WrongCount args.length ∨ ConversionFails f.parms args) →
          (f.parms = [] → args = []) ∧ ∀ a ∈ args, a.v.ty ≠ .null) := by
  by_cases hdue : f.WrongCount args.length ∨ ConversionFails f.parms args
  · rw [and_iff_left fun h => absurd hdue h, imp_iff_right hdue]
    exact calls_right_due hargs hdue s
  rw [and_iff_right fun h => absurd h hdue, imp_iff_right hdue]
  by_cases hparms : f.parms = []
  · rw [imp_iff_right hparms, calls_right_bare hargs hdue hparms s]
    refine (and_iff_left_of_imp ?_).symm
    rintro rfl
    exact fun a h => absurd h List.not_mem_nil
  · rw [and_iff_right fun h => absurd h hparms]
    exact calls_right_room hargs hl hdue hparms s

/-- `int printf(char *, ...)` -/
def printFun : Fun :=
  ⟨"printf", lowerIntegerType 32 false, [("format", lowerPointerType (lowerIntegerType 8 true))], true⟩

/-- A text, and a number in a variable. -/
def printArgs : List Rtv :=
  [⟨⟨.ext 0, .ptr (.int 8)⟩, .pointer (.integer 8 true), false⟩,
    ⟨⟨.ext 1, .ptr (.int 32)⟩, .integer 32 true, true⟩]

theorem printArgs_proper : ∀ a ∈ printArgs, a.Proper := by
  intro a ha
  simp only [printArgs, List.mem_cons, List.not_mem_nil, or_false] at ha
  rcases ha with rfl | rfl
  · exact fun h => LTy.noConfusion h
  · exact ⟨.int 32, rfl, LTy.noConfusion⟩

theorem calls_right_iff_example :
    CallsRight true (.mk (.fn 1) (.ptr printFun.funtype)) printFun printArgs emptyBody ↔
      (printFun.WrongCount printArgs.length ∨ ConversionFails printFun.parms printArgs →
          true = true) ∧
        (¬ (printFun.WrongCount printArgs.length ∨ ConversionFails printFun.parms printArgs) →
          (printFun.parms = [] → printArgs = []) ∧ ∀ a ∈ printArgs, a.v.ty ≠ .null) :=
  calls_right_iff _ _ _ printArgs_proper (by decide)

/-- `void f(...)` -/
def anyFun : Fun := ⟨"f", ⟨.void, .void⟩, [], true⟩

/-- `f` cannot be called with an argument: there is no array to put it in. -/
theorem no_room_for_operands :
    (∀ a ∈ [makeIntConst 1], a.Proper) ∧ ¬ anyFun.WrongCount [makeIntConst 1].length ∧
      ¬ ConversionFails anyFun.parms [makeIntConst 1] ∧
      lowerFuncallArray true (.mk (.fn 1) (.ptr anyFun.funtype)) anyFun [makeIntConst 1] emptyBody =
        .error .crash ∧
      ¬ CallsRight true (.mk (.fn 1) (.ptr anyFun.funtype)) anyFun [makeIntConst 1] emptyBody := by
  have hcount : ¬ anyFun.WrongCount [makeIntConst 1].length := Nat.not_lt_zero _
  have hc : ¬ ConversionFails anyFun.parms [makeIntConst 1] := fun ⟨_, hmem, _⟩ => nomatch hmem
  have hrun : lowerFuncallArray true (.mk (.fn 1) (.ptr anyFun.funtype)) anyFun [makeIntConst 1]
      emptyBody = .error .crash := by decide
  refine ⟨?_, hcount, hc, hrun, fun h => ?_⟩
  · intro a ha
    obtain rfl := List.mem_singleton.1 ha
    exact fun h => LTy.noConfusion h
  · obtain ⟨vs, is, -, -, -, hok⟩ := h.calls (not_or.2 ⟨hcount, hc⟩)
    rw [hrun] at hok
    cases hok

end Dolorem.Codegen
