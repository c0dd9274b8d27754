import Dolorem.Codegen.TypeForms
import Dolorem.Headers.Chdrconv
import Dolorem.Reader.Pieces
import Dolorem.Reader.Print

/-!
# What the reader makes of a converted header

Every declaration that is printed is read as one form, `Decl.form`. In the
member list of a struct the `;` behind a field makes a list of the items from
the first atom on: where the type is printed in brackets, that is the name of
the field alone.
-/

namespace Dolorem.Headers

open Codegen (ptrForm)
open Reader

/-! ## The forms -/

mutual

/-- The type expression that `writeType` prints. -/
def CXType.expr : CXType → Sexp
  | .scalar k => .ident k.word
  | .incompleteArray pointee =>
    if !pointee.isVoid then ptrForm pointee.expr else .ident "ptr".toList
  | .pointer pointee =>
    match pointee with
    | .unexposed canonical => canonical.expr
    | pointee =>
      if !pointee.isVoid && !pointee.isElaborated then ptrForm pointee.expr
      else .ident "ptr".toList
  | .functionProto args result =>
    .ofList [.ident "funptr".toList, .ofList (argForms args), result.expr]
  | _ => .nil

/-- The parameters of a `FunctionProto`. -/
def argForms : List CXType → List Sexp
  | [] => []
  | type :: types => .ofList [type.expr, .ident "_".toList] :: argForms types

end

def Arg.form (a : Arg) : Sexp := .ofList [a.type.expr, .ident a.word]

/-- The items of a member list that a field becomes. -/
def Field.items (f : Field) : List Sexp :=
  if f.type.expr.isList then [f.type.expr, .ofList [.ident f.name.chars]]
  else [.ofList [f.type.expr, .ident f.name.chars]]

def tagItems : Option Identifier → List Sexp
  | some name => [.ident name.chars]
  | none => []

/-- The arguments of `defstruct`. -/
def structArgs (name : Option Identifier) (members : List Sexp) : Sexp :=
  .ofList (tagItems name ++ [.ofList members])

/-- The members of a struct, or of a struct that consists of one union. -/
def Decl.args : Decl → Sexp
  | .function name args ret =>
    .ofList [.ident name.chars, .ofList (args.map Arg.form), ret.expr]
  | .var name type => .ofList [type.expr, .ident name.chars]
  | .struct name fields => structArgs name (fields.flatMap Field.items)
  | .union name fields => structArgs name
    [.ofList [.ident "union".toList, .ofList (fields.flatMap Field.items)]]

/-- The macro that is called. -/
def Decl.head : Decl → List Char
  | .function _ _ _ => "funproto".toList
  | .var _ _ => "external_global".toList
  | .struct _ _ => "defstruct".toList
  | .union _ _ => "defstruct".toList

/-- The form that is read. -/
def Decl.form (d : Decl) : Sexp := .cons (.ident d.head) d.args

/-! ## Words -/

/-- A word that is no number. -/
def IsWord (w : List Char) : Prop :=
  w ≠ [] ∧ (∀ c ∈ w, endsToken c = false ∧ isOpener c = false ∧ c ≠ ':' ∧ c ≠ '"' ∧ c ≠ '\'') ∧
    numeric w = false

instance (w : List Char) : Decidable (IsWord w) :=
  @instDecidableAnd _ _ inferInstance (@instDecidableAnd _ _ (List.decidableBAll _ w) inferInstance)

section

variable {w v : List Char} {done seg : List Sexp} {t : CXType}

theorem adds_word (hw : IsWord w) (hv : w.map dashToUnderscore = v) : Adds w [.ident v] := by
  subst hv
  exact .word ⟨w, hw.1, hw.2.1, hw.2.2⟩

theorem ne_of_isIdentChar {c d : Char} (hc : isIdentChar c) (hd : isIdentChar d = false := by rfl) :
    c ≠ d := by
  rintro rfl
  rw [hc] at hd
  cases hd

theorem Identifier.isWord (x : Identifier) : IsWord x.chars := by
  refine ⟨x.ne_nil, fun c hc => ?_, ?_⟩
  · have hne := fun {d : Char} (hd : isIdentChar d = false) => ne_of_isIdentChar (x.ident c hc) hd
    have hends : endsToken c = false := by
      simp only [endsToken, isWordBoundary, Bool.or_eq_false_iff, beq_eq_false_iff_ne]
      exact ⟨hne rfl, ⟨⟨⟨⟨⟨hne rfl, hne rfl⟩, hne rfl⟩, hne rfl⟩, hne rfl⟩, hne rfl⟩, hne rfl⟩
    have hopen : isOpener c = false := by
      simp only [isOpener, Bool.or_eq_false_iff, beq_eq_false_iff_ne]
      exact ⟨hne rfl, hne rfl⟩
    exact ⟨hends, hopen, hne rfl, hne rfl, hne rfl⟩
  · obtain ⟨c, r, hcr⟩ := List.exists_cons_of_ne_nil x.ne_nil
    have hc := x.ident c (hcr ▸ List.mem_cons_self)
    have hdigit := x.no_digit c (by rw [hcr]; rfl)
    have hdash : c ≠ '-' := ne_of_isIdentChar hc
    rw [hcr]
    unfold numeric
    split
    · next h => exact absurd (List.cons.inj h).1 hdash
    · next h =>
      rw [← (List.cons.inj h).1]
      exact hdigit
    · rfl

theorem Identifier.map_dash (x : Identifier) : x.chars.map dashToUnderscore = x.chars := by
  refine (List.map_congr_left fun c hc => ?_).trans (List.map_id _)
  have hne : c ≠ '-' := ne_of_isIdentChar (x.ident c hc)
  unfold dashToUnderscore
  rw [beq_eq_false_iff_ne.2 hne]
  rfl

theorem Identifier.adds (x : Identifier) : Adds x.chars [.ident x.chars] :=
  adds_word x.isWord x.map_dash

theorem Scalar.adds (k : Scalar) : Adds k.word [.ident k.word] := by
  refine adds_word ?_ ?_ <;> cases k <;> decide

theorem Arg.adds_word (a : Arg) : Adds a.word [.ident a.word] := by
  obtain ⟨name, type⟩ := a
  cases name with
  | none => exact Headers.adds_word (w := "_".toList) (v := "_".toList) (by decide) (by decide)
  | some name => exact name.adds

/-! ## Types -/

/-- The types that are built from scalars, pointers, incomplete arrays and function prototypes. A
pointee in parentheses is unexposed. -/
inductive CXType.Plain : CXType → Prop
  | scalar (k : Scalar) : Plain (.scalar k)
  | incompleteArray {t : CXType} : Plain t → Plain (.incompleteArray t)
  | pointer {t : CXType} : Plain t → Plain (.pointer t)
  | functionProto {args : List CXType} {result : CXType} : (∀ a ∈ args, Plain a) → Plain result →
    Plain (.functionProto args result)
  | unexposed {t : CXType} : Plain t → Plain (.unexposed t)

/-- Induction on a type, with a pointee in parentheses in one step with the pointer to it. -/
@[elab_as_elim]
theorem CXType.Plain.pointee {motive : ∀ t : CXType, t.Plain → Prop}
    (scalar : ∀ k, motive (.scalar k) (.scalar k))
    (incompleteArray : ∀ {t : CXType} (ht : t.Plain), motive t ht → motive _ (.incompleteArray ht))
    (pointer : ∀ {t : CXType} (ht : t.Plain), (∀ c, t ≠ .unexposed c) → t.isElaborated = false →
      motive t ht → motive _ (.pointer ht))
    (parens : ∀ {t : CXType} (ht : t.Plain), motive t ht → motive _ (.pointer (.unexposed ht)))
    (functionProto : ∀ {args : List CXType} {result : CXType} (ha : ∀ a ∈ args, a.Plain)
      (hr : result.Plain), (∀ a (hmem : a ∈ args), motive a (ha a hmem)) → motive result hr →
        motive _ (.functionProto ha hr))
    (unexposed : ∀ {t : CXType} (ht : t.Plain), motive _ (.unexposed ht)) {t : CXType}
    (ht : t.Plain) : motive t ht := by
  have hall : motive t ht ∧ ∀ c, t = .unexposed c → ∃ hc, motive c hc := by
    induction ht with
    | scalar k => exact ⟨scalar k, fun c h => by cases h⟩
    | incompleteArray ht ih => exact ⟨incompleteArray ht ih.1, fun c h => by cases h⟩
    | @pointer t ht ih =>
      refine ⟨?_, fun c h => by cases h⟩
      by_cases hu : ∃ c, t = .unexposed c
      · obtain ⟨c, rfl⟩ := hu
        obtain ⟨hc, h⟩ := ih.2 c rfl
        exact parens hc h
      · exact pointer ht (not_exists.1 hu) (by cases ht <;> rfl) ih.1
    | functionProto ha hr iha ihr =>
      exact ⟨functionProto ha hr (fun a hmem => (iha a hmem).1) ihr.1, fun c h => by cases h⟩
    | unexposed ht ih =>
      refine ⟨unexposed ht, fun c h => ?_⟩
      cases h
      exact ⟨ht, ih.1⟩
  exact hall.1

theorem writeType_pointer (ht : ∀ c, t ≠ .unexposed c) : writeType (.pointer t) =
    if !t.isVoid && !t.isElaborated then (writeType t).map ptrText else some "ptr".toList := by
  rw [writeType]
  exact ht

theorem expr_pointer (ht : ∀ c, t ≠ .unexposed c) : (CXType.pointer t).expr =
    if !t.isVoid && !t.isElaborated then ptrForm t.expr else .ident "ptr".toList := by
  rw [CXType.expr]
  exact ht

theorem adds_parmText {x y : Sexp} (hw : Adds w [x]) (hv : Adds v [y]) :
    Adds (parmText w v) [.ofList [x, y]] := by
  have htext : parmText w v = '(' :: ((w ++ ' ' :: v) ++ [')']) := by simp [parmText]
  rw [htext]
  exact (hw.spaced hv).group

theorem adds_ptrText {x : Sexp} (hw : Adds w [x]) : Adds (ptrText w) [ptrForm x] := by
  have htext : ptrText w = '(' :: (("ptr".toList ++ ' ' :: w) ++ [')']) := by simp [ptrText]
  rw [htext]
  exact ((adds_word (v := "ptr".toList) (by decide) (by decide)).spaced hw).group

theorem adds_spaced {ws : List (List Char)} {xs : List Sexp}
    (h : List.Forall₂ (fun w x => Adds w [x]) ws xs) : Adds (spaced ws) xs := by
  induction h with
  | nil => exact .nil
  | @cons w x ws xs hw hws ih =>
    cases ws with
    | nil =>
      cases hws
      exact hw
    | cons v ws =>
      have htext : spaced (w :: v :: ws) = w ++ ' ' :: spaced (v :: ws) := by simp [spaced]
      rw [htext]
      exact hw.spaced ih

theorem adds_args {args : List CXType} {ws : List (List Char)}
    (h : ∀ a ∈ args, ∀ w, writeType a = some w → Adds w [a.expr]) (hw : writeArgs args = some ws) :
    List.Forall₂ (fun w x => Adds w [x]) ws (argForms args) := by
  induction args generalizing ws with
  | nil =>
    cases hw
    exact .nil
  | cons a args ih =>
    rw [writeArgs] at hw
    obtain ⟨w, ha, hw⟩ := Option.bind_eq_some_iff.1 hw
    obtain ⟨ws', hargs, hw⟩ := Option.bind_eq_some_iff.1 hw
    cases hw
    refine .cons ?_ (ih (fun b hb => h b (List.mem_cons_of_mem _ hb)) hargs)
    exact adds_parmText (h a List.mem_cons_self w ha) (adds_word (by decide) (by decide))

/-- What `writeType` prints is read as the type expression. -/
theorem adds_type (ht : t.Plain) (hw : writeType t = some w) : Adds w [t.expr] := by
  have hword : Adds "ptr".toList [.ident "ptr".toList] := adds_word (by decide) (by decide)
  induction ht using CXType.Plain.pointee generalizing w with
  | scalar k =>
    cases hw
    exact k.adds
  | incompleteArray ht ih =>
    rw [writeType] at hw
    rw [CXType.expr]
    split_ifs at hw ⊢ with hvoid
    · obtain ⟨v, hv, rfl⟩ := Option.map_eq_some_iff.1 hw
      exact adds_ptrText (ih hv)
    · cases hw
      exact hword
  | pointer ht hu _ ih =>
    rw [writeType_pointer hu] at hw
    rw [expr_pointer hu]
    split_ifs at hw ⊢ with hptr
    · obtain ⟨v, hv, rfl⟩ := Option.map_eq_some_iff.1 hw
      exact adds_ptrText (ih hv)
    · cases hw
      exact hword
  | parens _ ih => exact ih hw
  | @functionProto args result _ _ iha ihr =>
    rw [writeType] at hw
    obtain ⟨ws, hws, hw⟩ := Option.bind_eq_some_iff.1 hw
    obtain ⟨v, hv, hw⟩ := Option.bind_eq_some_iff.1 hw
    cases hw
    have hall := adds_args (fun a ha w hw => iha a ha hw) hws
    have hfunptr : Adds "funptr".toList [.ident "funptr".toList] :=
      adds_word (by decide) (by decide)
    have htext : "(funptr (".toList ++ spaced ws ++ ") ".toList ++ v ++ ")".toList =
        '(' :: (("funptr".toList ++ ' ' :: (('(' :: (spaced ws ++ [')'])) ++ ' ' :: v)) ++ [')']) := by
      simp
    rw [htext, CXType.expr]
    exact (hfunptr.spaced ((adds_spaced hall).group.spaced (ihr hv))).group
  | unexposed => cases hw

/-! ## Declarations -/

/-- What stands behind the `#`. -/
def Location.comment (loc : Location) : List Char :=
  " Found in ".toList ++ (loc.file ++ (":".toList ++ (Nat.toDigits 10 loc.line ++ (":".toList ++
    Nat.toDigits 10 loc.column))))

theorem digits_line (n : Nat) : ∀ c ∈ Nat.toDigits 10 n, c ≠ '\x00' ∧ c ≠ '\n' := fun _ hc =>
  ⟨ne_of_isDigit (isDigit_of_mem_decimal hc), ne_of_isDigit (isDigit_of_mem_decimal hc)⟩

theorem Location.comment_line (loc : Location) : ∀ c ∈ loc.comment, c ≠ '\x00' ∧ c ≠ '\n' := by
  have hfound : ∀ c ∈ " Found in ".toList, c ≠ '\x00' ∧ c ≠ '\n' := forall_chars rfl
  have hcolon : ∀ c ∈ ":".toList, c ≠ '\x00' ∧ c ≠ '\n' := forall_chars rfl
  refine List.forall_mem_append.2 ⟨hfound, List.forall_mem_append.2 ⟨loc.file_line, ?_⟩⟩
  refine List.forall_mem_append.2 ⟨hcolon, List.forall_mem_append.2 ⟨digits_line loc.line, ?_⟩⟩
  exact List.forall_mem_append.2 ⟨hcolon, digits_line loc.column⟩

theorem writeLocation_eq (loc : Location) : writeLocation loc = '#' :: (loc.comment ++ ['\n']) := by
  unfold writeLocation Location.comment
  simp

theorem takes_location (loc : Location) (done seg : List Sexp) :
    Takes (writeLocation loc) done seg done seg := by
  rw [writeLocation_eq]
  exact .comment ⟨_, loc.comment_line⟩ done seg

/-- A line with its `;` and the location behind it. -/
theorem takes_line {xs l : List Sexp} (hw : Adds w xs) (hl : closeGroup xs = some l)
    (loc : Location) (done : List Sexp) :
    Takes (w ++ ("; ".toList ++ writeLocation loc)) done [] (done ++ l) [] := by
  have htext : w ++ ("; ".toList ++ writeLocation loc) =
      w ++ ([';'] ++ ' ' :: writeLocation loc) := by
    simp
  rw [htext]
  exact (hw done []).append ((Takes.semi hl done).append (takes_location loc _ _).space
    (endsWord_cons rfl)) (endsWord_cons rfl)

theorem closeGroup_ident (x : List Char) (xs : List Sexp) :
    closeGroup (.ident x :: xs) = some [.ofList (.ident x :: xs)] := rfl

theorem closeGroup_field (f : Field) :
    closeGroup [f.type.expr, .ident f.name.chars] = some f.items := by
  unfold closeGroup Field.items
  have hname : (Sexp.ident f.name.chars).isList = false := rfl
  cases h : f.type.expr.isList <;> simp [List.dropWhile, List.takeWhile, h, hname, Sexp.ofList]

/-- The lines of the fields start with spaces. -/
theorem endsWord_fields {fields : List Field} (hw : structVisitor fields = some w) : EndsWord w := by
  cases fields with
  | nil =>
    cases hw
    exact endsWord_nil
  | cons f fields =>
    rw [structVisitor] at hw
    obtain ⟨v, hv, hw⟩ := Option.bind_eq_some_iff.1 hw
    obtain ⟨rest, hrest, hw⟩ := Option.bind_eq_some_iff.1 hw
    cases hw
    simp only [List.append_assoc]
    exact endsWord_cons rfl

theorem takes_fields {fields : List Field} (hf : ∀ f ∈ fields, f.type.Plain)
    (hw : structVisitor fields = some w) (done : List Sexp) :
    Takes w done [] (done ++ fields.flatMap Field.items) [] := by
  induction fields generalizing w done with
  | nil =>
    cases hw
    rw [List.flatMap_nil, List.append_nil]
    exact Adds.nil done []
  | cons f fields ih =>
    rw [structVisitor] at hw
    obtain ⟨v, hv, hw⟩ := Option.bind_eq_some_iff.1 hw
    obtain ⟨rest, hrest, hw⟩ := Option.bind_eq_some_iff.1 hw
    cases hw
    obtain ⟨hplain, hf⟩ := List.forall_mem_cons.1 hf
    have hline :=
      takes_line ((adds_type hplain hv).spaced f.name.adds) (closeGroup_field f) f.loc done
    have htext : "  ".toList ++ v ++ " ".toList ++ f.name.chars ++ "; ".toList ++
        writeLocation f.loc ++ rest =
          ' ' :: ' ' :: ((v ++ ' ' :: f.name.chars) ++ ("; ".toList ++ writeLocation f.loc)) ++ rest := by
      simp
    rw [htext, List.flatMap_cons, ← List.append_assoc done]
    exact hline.space.space.append (ih hf hrest _) (endsWord_fields hrest)

theorem adds_funArgs {args : List Arg} {ws : List (List Char)} (ha : ∀ a ∈ args, a.type.Plain)
    (hw : writeFunArgs args = some ws) :
    List.Forall₂ (fun w x => Adds w [x]) ws (args.map Arg.form) := by
  induction args generalizing ws with
  | nil =>
    cases hw
    exact .nil
  | cons a args ih =>
    rw [writeFunArgs] at hw
    obtain ⟨w, hv, hw⟩ := Option.bind_eq_some_iff.1 hw
    obtain ⟨ws', hargs, hw⟩ := Option.bind_eq_some_iff.1 hw
    cases hw
    obtain ⟨hplain, ha⟩ := List.forall_mem_cons.1 ha
    exact .cons (adds_parmText (adds_type hplain hv) a.adds_word) (ih ha hargs)

theorem adds_tag (name : Option Identifier) : Adds (tagText name) (tagItems name) := by
  cases name with
  | none => exact .nil
  | some name => exact name.adds

/-- The types in a declaration are plain. -/
def Decl.Plain : Decl → Prop
  | .function _ args ret => (∀ a ∈ args, a.type.Plain) ∧ ret.Plain
  | .var _ type => type.Plain
  | .struct _ fields => ∀ f ∈ fields, f.type.Plain
  | .union _ fields => ∀ f ∈ fields, f.type.Plain

/-- The lines of a struct in brackets. -/
theorem adds_fields {fields : List Field} (hf : ∀ f ∈ fields, f.type.Plain)
    (hw : structVisitor fields = some w) {g : List Char} (hg : Blank g) (hend : EndsWord g) :
    Adds ('(' :: (('\n' :: (w ++ g)) ++ [')'])) [.ofList (fields.flatMap Field.items)] := by
  have htakes := (takes_fields hf hw []).append (.blank hg _ []) hend
  have hgroup := (htakes.lead (c := '\n') rfl).group
  rwa [List.nil_append, List.append_nil] at hgroup

/-- The lines of a union, as the one entry of a struct. -/
theorem adds_union {fields : List Field} (hf : ∀ f ∈ fields, f.type.Plain)
    (hw : structVisitor fields = some w) :
    Adds ('(' :: (('\n' :: ' ' :: (("union".toList ++ ' ' :: ('(' :: (('\n' :: (w ++ [' '])) ++
        [')']))) ++ ([';'] ++ ['\n']))) ++ [')']))
      [.ofList [.ofList [.ident "union".toList, .ofList (fields.flatMap Field.items)]]] := by
  have hspace : Blank [' '] := by simp [Blank, isBlank]
  have hline : Blank ['\n'] := by simp [Blank, isBlank]
  have hunion : Adds "union".toList [.ident "union".toList] := adds_word (by decide) (by decide)
  have hall := hunion.spaced (adds_fields hf hw hspace (endsWord_cons rfl))
  have hentry := (hall [] []).append ((Takes.semi (closeGroup_ident _ _) []).append
    (.blank hline _ _) (endsWord_cons rfl)) (endsWord_cons rfl)
  exact (hentry.space.lead (c := '\n') rfl).group

/-- A declaration that is printed is read as one form. -/
theorem takes_decl {d : Decl} (hd : d.Plain) (hw : writeDecl d = some w) (loc : Location)
    (done : List Sexp) : Takes (w ++ writeLocation loc) done [] (done ++ [d.form]) [] := by
  have hstruct : Adds "defstruct".toList [.ident "defstruct".toList] :=
    adds_word (by decide) (by decide)
  cases d with
  | function name args ret =>
    obtain ⟨ha, hr⟩ := hd
    rw [writeDecl, writeFun] at hw
    obtain ⟨ws, hws, hw⟩ := Option.bind_eq_some_iff.1 hw
    obtain ⟨v, hv, hw⟩ := Option.bind_eq_some_iff.1 hw
    cases hw
    have hproto : Adds "funproto".toList [.ident "funproto".toList] :=
      adds_word (by decide) (by decide)
    have hall := hproto.spaced (name.adds.spaced
      ((adds_spaced (adds_funArgs ha hws)).group.spaced (adds_type hr hv)))
    have htext : "funproto ".toList ++ name.chars ++ " (".toList ++ spaced ws ++ ") ".toList ++ v ++
        "; ".toList ++ writeLocation loc =
          ("funproto".toList ++ ' ' :: (name.chars ++ ' ' :: (('(' :: (spaced ws ++ [')'])) ++
            ' ' :: v))) ++ ("; ".toList ++ writeLocation loc) := by
      simp
    rw [htext]
    exact takes_line hall (closeGroup_ident _ _) loc done
  | var name type =>
    rw [writeDecl] at hw
    obtain ⟨v, hv, hw⟩ := Option.bind_eq_some_iff.1 hw
    cases hw
    have hglobal : Adds "external-global".toList [.ident "external_global".toList] :=
      adds_word (by decide) (by decide)
    have hall := hglobal.spaced ((adds_type hd hv).spaced name.adds)
    have htext : "external-global ".toList ++ v ++ " ".toList ++ name.chars ++ "; ".toList ++
        writeLocation loc =
          ("external-global".toList ++ ' ' :: (v ++ ' ' :: name.chars)) ++
            ("; ".toList ++ writeLocation loc) := by
      simp
    rw [htext]
    exact takes_line hall (closeGroup_ident _ _) loc done
  | struct name fields =>
    rw [writeDecl] at hw
    obtain ⟨v, hv, hw⟩ := Option.bind_eq_some_iff.1 hw
    cases hw
    have hnil : Blank [] := fun _ h => absurd h List.not_mem_nil
    have hall := hstruct.spaced ((adds_tag name).spaced (adds_fields hd hv hnil endsWord_nil))
    have htext : "defstruct ".toList ++ tagText name ++ " (\n".toList ++ v ++ "); ".toList ++
        writeLocation loc =
          ("defstruct".toList ++ ' ' :: (tagText name ++ ' ' :: ('(' :: (('\n' :: (v ++ [])) ++
            [')'])))) ++ ("; ".toList ++ writeLocation loc) := by
      simp
    rw [htext]
    exact takes_line hall (closeGroup_ident _ _) loc done
  | union name fields =>
    rw [writeDecl] at hw
    obtain ⟨v, hv, hw⟩ := Option.bind_eq_some_iff.1 hw
    cases hw
    have hall := hstruct.spaced ((adds_tag name).spaced (adds_union hd hv))
    have htext : "defstruct ".toList ++ tagText name ++ " (\n union (\n".toList ++ v ++
        " );\n); ".toList ++ writeLocation loc =
          ("defstruct".toList ++ ' ' :: (tagText name ++ ' ' :: ('(' :: (('\n' :: ' ' ::
            (("union".toList ++ ' ' :: ('(' :: (('\n' :: (v ++ [' '])) ++ [')']))) ++
              ([';'] ++ ['\n']))) ++ [')'])))) ++ ("; ".toList ++ writeLocation loc) := by
      simp
    rw [htext]
    exact takes_line hall (closeGroup_ident _ _) loc done

/-- What is printed for a declaration is read as one form. -/
theorem reads_decl {d : Decl} {loc : Location} (hd : d.Plain) (hw : visitor (.decl d loc) = some w)
    (fileidx : Nat) : ReadsTo w fileidx (.ofList [d.form]) := by
  obtain ⟨v, hv, rfl⟩ := Option.map_eq_some_iff.1 hw
  exact (takes_decl hd hv loc []).readsTo fileidx

end

end Dolorem.Headers
