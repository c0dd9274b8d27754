import Dolorem.Reader.Sugar
import Dolorem.Codegen.Dispatch
import Dolorem.Programs.Loading

/-!
# From the text to the run

`lower_include_list` reads a text and hands the tree to `progn`. Here the reader,
the evaluation of trees, the compiler and the JIT meet: `source_runs` says that a
text which spells a checked program defines functions that run like the
interpreter.
-/

namespace Dolorem.Reader

/-! ## Writing forms down -/

mutual

def Form.write : Form → List Char
  | .int n => n.text
  | .ident w => w.chars
  | .string s => '"' :: (s.chars ++ ['"'])
  | .comment s => '#' :: (s.chars ++ ['\n'])
  | .semi => [';']
  | .group curly body => opener curly :: (writeAll body ++ [closingFor curly])

/-- A blank before each form. -/
def writeAll : List Form → List Char
  | [] => []
  | f :: fs => ' ' :: (f.write ++ writeAll fs)

end

theorem blank_of_writeAll {fs : List Form} {c : Char} {r : List Char} (h : writeAll fs = c :: r) :
    isBlank c := by
  cases fs with
  | nil =>
    rw [writeAll] at h
    cases h
  | cons f fs =>
    rw [writeAll] at h
    cases h
    rfl

mutual

theorem Form.written : ∀ f : Form, Written f f.write
  | .int n => by
    rw [Form.write]
    exact .int n
  | .ident w => by
    rw [Form.write]
    exact .ident w
  | .string s => by
    rw [Form.write]
    exact .string s
  | .comment s => by
    rw [Form.write]
    exact .comment s
  | .semi => by
    rw [Form.write]
    exact .semi
  | .group curly body => by
    rw [Form.write]
    exact .group (renders_writeAll body)

theorem renders_writeAll : ∀ fs : List Form, Renders fs (writeAll fs)
  | [] => by
    rw [writeAll]
    exact .nil fun c hc => absurd hc List.not_mem_nil
  | f :: fs => by
    have hblank : Blank [' '] := fun c hc => by
      obtain rfl := List.mem_singleton.1 hc
      rfl
    rw [writeAll]
    exact .cons (g := [' ']) hblank f.written (renders_writeAll fs) (.inr fun c r => blank_of_writeAll)

end

end Dolorem.Reader

namespace Dolorem.Programs

open Interp Words Codegen
open Reader (Sexp)

/-- A text with items is read to the list of them. -/
theorem reads_items {fs : List Reader.Form} {text : List Char} {items : List Sexp}
    (h : Reader.Renders fs text) (hd : Reader.desugar [] [] fs = some items) (fileidx : Nat) :
    Reader.ReadsTo text fileidx (.ofList items) := by
  have hread := h.read .empty
  rw [hd] at hread
  obtain ⟨it, hit, rfl⟩ := hread
  rw [Reader.readsTo_iff_tree fileidx h.neutral.1, Reader.tree, hit]
  rfl

variable {macros : List Char → Option (Sexp → St → Except Halt (Rtv × St))} {Γ : Types}
variable {next : St → Nat} {globals : List (String × IntTy)} {program : List Func} {s : St}
variable {fs : List Reader.Form} {items : List Sexp} {text : List Char} {j : Jit.Tables}
variable {host : String → Option Nat} {ds : List (String × Nat)}

/-- A text that spells a program which passes its check is read, its functions
compile and are linked, and a call of any of them runs as the interpreter says. -/
theorem source_runs (htext : Reader.Renders fs text)
    (hitems : Reader.desugar [] [] fs = some items)
    (hspells : SpellsAll macros Γ (program.map Func.expr) (.ofList items))
    (hok : okFrom globals [] program = true) (h : Outside globals [] s)
    (hnew : ∀ g ∈ program, s.funs.lookup g.sig.name = none)
    (hlink : Linkable host ds s j program) (next : St → Nat) (fileidx : Nat) :
    ∃ v s' j', Reader.lowerRead text fileidx = .ok v ∧
      (∀ᶠ fuel in Filter.atTop,
        prognVal (evalVal macros Γ next fuel) v.erase s = .ok (nullRtv, s')) ∧
      build host (fun _ => true) program s j = .ok (s', j') ∧ Resolved s.graph.size s' j' ∧
      ∀ (g : Func) (xs : List Int) (m : Mem), g ∈ program →
        List.Forall₂ (fun p x => Fits p.2.width x) g.sig.parms xs →
        ∃ c, (loaded s' j').start g.sig.name xs m.cells m.next = some c ∧
          (∀ r, (∃ n, callIn (loaded s' j').addr program n g.sig.name xs m = .ok r) ↔
            ∃ c', Halts (loaded s' j').step c c' ∧ (loaded s' j').Over r c') ∧
          ((∃ n, callIn (loaded s' j').addr program n g.sig.name xs m = .error .wrong) ↔
            ∃ c', Halts (loaded s' j').step c c' ∧ (loaded s' j').Stuck c') ∧
          ((∀ n, callIn (loaded s' j').addr program n g.sig.name xs m = .error .timeout) ↔
            ∀ n, Lives (loaded s' j').step n c) := by
  obtain ⟨v, hv, herase⟩ := reads_items htext hitems fileidx
  obtain ⟨s', j', hbuild, hcomp, hresolved, hrun⟩ :=
    loaded_agrees (fun _ => true) hok h hnew hlink
  refine ⟨v, s', j', hv, ?_, hbuild, hresolved, fun g xs m hg hxs => ?_⟩
  · rw [herase]
    exact (prognVal_mirrors next (fun _ => true) hspells).mono fun fuel hf => by
      rw [hf.progn s, hcomp]
  · obtain ⟨c, hstart, hagrees⟩ := hrun g xs m hg hxs
    exact ⟨c, hstart, hagrees.result, hagrees.wrong, hagrees.timeout⟩

/-! ## A text -/

section

open Reader

/-- The check of a name. -/
def plainWord (w : List Char) : Bool :=
  !w.isEmpty && !numeric w &&
    w.all fun c => !endsToken c && !isOpener c && c != ':' && c != '"' && c != '\''

/-- An identifier. -/
def word (w : List Char) (h : plainWord w = true) : Reader.Form :=
  .ident
    { chars := w
      chars_ne_nil := by
        rintro rfl
        cases h
      chars_word := by
        simp only [plainWord, Bool.and_eq_true, List.all_eq_true, Bool.not_eq_true', bne_iff_ne,
          and_assoc] at h
        exact h.2.2
      not_numeric := by
        simp only [plainWord, Bool.and_eq_true, Bool.not_eq_true'] at h
        exact h.1.2 }

def digit (d : Char)
    (h : isDigit d = true ∧ -2 ^ 63 ≤ digitsVal [d] ∧ digitsVal [d] < 2 ^ 63) : Reader.Form :=
  .int
    { negative := false
      digits := [d]
      digits_ne_nil := List.cons_ne_nil _ _
      digits_isDigit := fun c hc => by
        rw [List.mem_singleton.1 hc]
        exact h.1
      range := h.2 }

/-- `factorials` as a text. -/
def factorialsText : List Reader.Form :=
  let list := Reader.Form.group false
  let i64 := word "i64".toList rfl
  let n := word "n".toList rfl
  let r := word "r".toList rfl
  let sum := word "sum".toList rfl
  let fac := word "fac".toList rfl
  let minus := word "-".toList rfl
  let zero := digit '0' (by decide)
  let one := digit '1' (by decide)
  [word "defun".toList rfl, fac, list [list [i64, n]], i64,
    list [word "progn".toList rfl, list [word "var".toList rfl, i64, r, one],
      list [word "while".toList rfl, list [word ">".toList rfl, n, one],
        list [word "progn".toList rfl,
          list [word "assign".toList rfl, r, list [word "*".toList rfl, r, n]],
          list [word "assign".toList rfl, n, list [minus, n, one]]]],
      r],
    .semi,
    word "defun".toList rfl, sum, list [list [i64, n]], i64,
    list [word "progn".toList rfl, list [word "var".toList rfl, i64, sum, zero],
      list [word "while".toList rfl, one, list [word "progn".toList rfl,
        list [word "cond".toList rfl, list [word "<=".toList rfl, n, zero],
          list [word "break".toList rfl]],
        list [word "assign".toList rfl, sum, list [word "+".toList rfl, sum, list [fac, n]]],
        list [word "assign".toList rfl, n, list [minus, n, one]]]],
      sum],
    .semi]

set_option maxRecDepth 4000 in
example : writeAll factorialsText =
    " defun fac ( ( i64 n)) i64 ( progn ( var i64 r 1)".toList ++
    " ( while ( > n 1) ( progn ( assign r ( * r n)) ( assign n ( - n 1)))) r) ;".toList ++
    " defun sum ( ( i64 n)) i64 ( progn ( var i64 sum 0)".toList ++
    " ( while 1 ( progn ( cond ( <= n 0) ( break)) ( assign sum ( + sum ( fac n)))".toList ++
    " ( assign n ( - n 1)))) sum) ;".toList := by decide

/-- What is read. -/
def factorialsItems : List Sexp :=
  let list := Sexp.ofList
  let i64 := Sexp.ident "i64".toList
  let n := Sexp.ident "n".toList
  let r := Sexp.ident "r".toList
  let sum := Sexp.ident "sum".toList
  let fac := Sexp.ident "fac".toList
  let minus := Sexp.ident "_".toList
  [list [.ident "defun".toList, fac, list [list [i64, n]], i64,
      list [.ident "progn".toList, list [.ident "var".toList, i64, r, .int 1],
        list [.ident "while".toList, list [.ident ">".toList, n, .int 1],
          list [.ident "progn".toList,
            list [.ident "assign".toList, r, list [.ident "*".toList, r, n]],
            list [.ident "assign".toList, n, list [minus, n, .int 1]]]],
        r]],
    list [.ident "defun".toList, sum, list [list [i64, n]], i64,
      list [.ident "progn".toList, list [.ident "var".toList, i64, sum, .int 0],
        list [.ident "while".toList, .int 1, list [.ident "progn".toList,
          list [.ident "cond".toList, list [.ident "<=".toList, n, .int 0],
            list [.ident "break".toList]],
          list [.ident "assign".toList, sum, list [.ident "+".toList, sum, list [fac, n]]],
          list [.ident "assign".toList, n, list [minus, n, .int 1]]]],
        sum]]]

theorem desugar_factorials : desugar [] [] factorialsText = some factorialsItems := by decide

def noMacros : List Char → Option (Sexp → St → Except Halt (Rtv × St)) := fun _ => none

/-- The head of a function from `i64` to `i64`. -/
theorem heads_long (f x : List Char) :
    Heads initTypes f (.ofList [.ofList [.ident "i64".toList, .ident x]]) (.ident "i64".toList)
      (Sig.fn ⟨String.ofList f, some ⟨64, true⟩, [(String.ofList x, ⟨64, true⟩)]⟩) :=
  fun _ => ⟨_, _, _, _, rfl, rfl, rfl⟩

theorem factorials_spelled :
    SpellsAll noMacros initTypes (factorials.map Func.expr) (.ofList factorialsItems) := by
  have n : Spells noMacros initTypes (.ident "n") (.ident "n".toList) := .ident _
  have r : Spells noMacros initTypes (.ident "r") (.ident "r".toList) := .ident _
  have sum : Spells noMacros initTypes (.ident "sum") (.ident "sum".toList) := .ident _
  refine .cons ?fac (.cons ?sum .nil)
  case fac =>
    refine .defun rfl rfl rfl rfl (by rintro ⟨⟩) (heads_long "fac".toList "n".toList) (.progn rfl ?_)
    refine .cons (.varInit rfl (fun k => ⟨k, rfl⟩) (.int 1)) (.cons ?_ (.cons r .nil))
    refine .while_ rfl (.cmp rfl n (.int 1)) (.progn rfl (.cons ?_ (.cons ?_ .nil)))
    · exact .assign rfl r (.arith rfl r n)
    · exact .assign rfl n (.arith rfl n (.int 1))
  case sum =>
    refine .defun rfl rfl rfl rfl (by rintro ⟨⟩) (heads_long "sum".toList "n".toList) (.progn rfl ?_)
    refine .cons (.varInit rfl (fun k => ⟨k, rfl⟩) (.int 0)) (.cons ?_ (.cons sum .nil))
    refine .while_ rfl (.int 1) (.progn rfl (.cons ?_ (.cons ?_ (.cons ?_ .nil))))
    · exact .cond rfl (.cmp rfl n (.int 0)) (.break_ rfl)
    · exact .assign rfl sum (.arith rfl sum (.call rfl rfl (.cons n .nil)))
    · exact .assign rfl n (.arith rfl n (.int 1))

end

theorem source_runs_factorials : ∃ v s' j',
    Reader.lowerRead (Reader.writeAll factorialsText) 1 = .ok v ∧
      (∀ᶠ fuel in Filter.atTop, prognVal (evalVal noMacros initTypes (fun _ => 0) fuel) v.erase
        topLevel = .ok (nullRtv, s')) ∧
      build (fun _ => none) (fun _ => true) factorials topLevel ⟨[], [], []⟩ = .ok (s', j') ∧
      ∃ c, (loaded s' j').start "sum" [3] (fun _ => none) 1 = some c ∧
        ∃ c', Halts (loaded s' j').step c c' ∧ (loaded s' j').result c' = some 9 := by
  obtain ⟨v, s', j', hread, hcomp, hbuild, -, hrun⟩ :=
    source_runs (Reader.renders_writeAll factorialsText) desugar_factorials factorials_spelled
      (show okFrom [] [] factorials = true by decide) topLevel_outside (fun _ _ => rfl)
      (topLevel_linkable factorials) (fun _ => 0) 1
  obtain ⟨c, hstart, hresult, -⟩ := hrun _ [3] ⟨fun _ => none, 1⟩
    (List.mem_cons_of_mem _ List.mem_cons_self) (.cons (by decide) .nil)
  obtain ⟨m, hcall⟩ := callIn_factorials (loaded s' j').addr
  obtain ⟨c', hhalts, hover⟩ := (hresult (9, m)).1 ⟨6, hcall⟩
  exact ⟨v, s', j', hread, hcomp, hbuild, c, hstart, c', hhalts, hover.1⟩

end Dolorem.Programs
