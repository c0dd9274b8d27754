import Dolorem.Reader.Sugar

/-!
# Reading a text piece by piece

What one piece of a text does to the list under construction, whatever stands
behind it. A word has to be followed by a character that ends it, which need not
be a blank: `Takes.append` puts two pieces next to each other.
-/

namespace Dolorem.Reader

/-- A property of the characters of a given text is decided one by one, also where it could be
decided for all characters. -/
theorem forall_chars {P : Char → Prop} [DecidablePred P] {w : List Char} (h : w.all (P ·) = true) :
    ∀ c ∈ w, P c :=
  fun c hc => of_decide_eq_true (List.all_eq_true.1 h c hc)

/-- A word that stands before the text ends there. -/
def EndsWord (Y : List Char) : Prop := ∀ c r, Y = c :: r → endsToken c

theorem endsWord_nil : EndsWord [] := by
  rintro _ _ ⟨⟩

theorem endsWord_cons {c : Char} {Y : List Char} (h : endsToken c) : EndsWord (c :: Y) := by
  rintro _ _ ⟨⟩
  exact h

theorem EndsWord.append {v Y : List Char} (hv : EndsWord v) (hY : EndsWord Y) :
    EndsWord (v ++ Y) := by
  cases v with
  | nil => exact hY
  | cons c v => exact endsWord_cons (hv c v rfl)

/-- Where `w` is read, the items `done` up to the last `;` and the items `seg` since become `done'`
and `seg'`. The pre-scan passes `w` without a change of its count. -/
structure Takes (w : List Char) (done seg done' seg' : List Sexp) : Prop where
  nul_free : '\x00' ∉ w
  neutral : Neutral w
  read : ∀ {it : Items} {Y : List Char}, it.At done seg → '\x00' ∉ Y → EndsWord Y →
    ∃ it' : Items, it'.At done' seg' ∧ readOn (w ++ Y) it = readOn Y it'

section

variable {w v text : List Char} {done seg done' seg' done₁ seg₁ l : List Sexp}

theorem not_mem_append {v w : List Char} (hv : '\x00' ∉ v) (hw : '\x00' ∉ w) : '\x00' ∉ v ++ w :=
  fun hm => (List.mem_append.1 hm).elim hv hw

namespace Takes

theorem append (hw : Takes w done seg done₁ seg₁) (hv : Takes v done₁ seg₁ done' seg')
    (hend : EndsWord v) : Takes (w ++ v) done seg done' seg' where
  nul_free := not_mem_append hw.nul_free hv.nul_free
  neutral := hw.neutral.append hv.neutral
  read hit hn hY := by
    obtain ⟨it₁, hit₁, hrun₁⟩ := hw.read hit (not_mem_append hv.nul_free hn) (hend.append hY)
    obtain ⟨it', hit', hrun'⟩ := hv.read hit₁ hn hY
    exact ⟨it', hit', by rw [List.append_assoc, hrun₁, hrun']⟩

theorem blank {g : List Char} (hg : Blank g) (done seg : List Sexp) :
    Takes g done seg done seg where
  nul_free := hg.not_mem
  neutral := hg.neutral
  read {it _} hit hn _ := ⟨it, hit, readOn_blank hg (not_mem_append hg.not_mem hn)⟩

/-- Something behind a blank. -/
theorem lead {c : Char} (hc : isBlank c) (h : Takes w done seg done' seg') :
    Takes (c :: w) done seg done' seg' := by
  have hblank : Blank [c] := by
    intro x hx
    rwa [List.mem_singleton.1 hx]
  refine ⟨not_mem_append hblank.not_mem h.nul_free, hblank.neutral.append h.neutral, ?_⟩
  intro it Y hit hn hY
  obtain ⟨it', hit', hrun⟩ := h.read hit hn hY
  refine ⟨it', hit', ?_⟩
  rw [← hrun]
  exact readOn_blank hblank (not_mem_append hblank.not_mem (not_mem_append h.nul_free hn))

theorem space (h : Takes w done seg done' seg') : Takes (' ' :: w) done seg done' seg' :=
  h.lead rfl

theorem comment (s : CommentText) (done seg : List Sexp) :
    Takes ('#' :: (s.chars ++ ['\n'])) done seg done seg where
  nul_free := (Written.comment s).neutral.1
  neutral := (Written.comment s).neutral.2
  read {it _} hit hn _ :=
    ⟨it, hit, read_comment s (not_mem_append (Written.comment s).neutral.1 hn)⟩

/-- A `;` makes one item of the items from the first atom on. -/
theorem semi (hl : closeGroup seg = some l) (done : List Sexp) :
    Takes [';'] done seg (done ++ l) [] where
  nul_free := by decide
  neutral := neutral_plain (forall_chars rfl)
  read {it Y} hit hn _ := by
    rcases hit.semi with ⟨hnone, -⟩ | ⟨l', it', hl', hs, hit'⟩
    · rw [hl] at hnone
      cases hnone
    · rw [hl] at hl'
      cases hl'
      refine ⟨it', hit', ?_⟩
      rw [read_semi (not_mem_append (by decide) hn), Items.addToken, hs]
      rfl

/-- The whole text is read. -/
theorem tree (h : Takes w [] [] done seg) : tree w = .ok (.ofList (done ++ seg)) := by
  obtain ⟨it, hit, hrun⟩ := h.read (Y := []) .empty List.not_mem_nil endsWord_nil
  rw [List.append_nil] at hrun
  rw [Reader.tree, hrun, readOn_nil, ← hit.items]
  rfl

theorem readsTo (h : Takes w [] [] done seg) (fileidx : Nat) :
    ReadsTo w fileidx (.ofList (done ++ seg)) := by
  rw [readsTo_iff_tree fileidx h.nul_free]
  exact h.tree

end Takes

/-- The items `xs` are read, wherever the text stands. -/
def Adds (w : List Char) (xs : List Sexp) : Prop :=
  ∀ done seg, Takes w done seg done (seg ++ xs)

/-- A text in brackets becomes one item. -/
theorem Takes.group (h : Takes text [] [] done seg) :
    Adds ('(' :: (text ++ [')'])) [.ofList (done ++ seg)] := fun done₀ seg₀ =>
  { nul_free := not_mem_append (v := ['(']) (by decide) (not_mem_append h.nul_free (by decide))
    neutral := h.neutral.group false
    read := by
      intro it Y hit hn _
      have hnul : '\x00' ∉ opener false :: (text ++ [closingFor false]) ++ Y :=
        not_mem_append (not_mem_append (v := ['(']) (by decide)
          (not_mem_append h.nul_free (by decide))) hn
      refine ⟨_, hit.insertPart _, (read_group h.neutral hnul).trans ?_⟩
      rw [Items.addToken, h.tree]
      rfl }

namespace Adds

variable {xs ys : List Sexp}

theorem nil : Adds [] [] := fun done seg => by
  rw [List.append_nil]
  exact .blank (fun _ h => absurd h List.not_mem_nil) done seg

theorem word (x : Name) : Adds x.chars [.ident (x.chars.map dashToUnderscore)] := fun _ _ =>
  { nul_free := (Written.ident x).neutral.1
    neutral := (Written.ident x).neutral.2
    read := fun hit hn hY =>
      ⟨_, hit.insertPart _, read_ident x (not_mem_append (Written.ident x).neutral.1 hn) hY⟩ }

/-- Two texts with a space in between. -/
theorem spaced (hw : Adds w xs) (hv : Adds v ys) : Adds (w ++ ' ' :: v) (xs ++ ys) :=
  fun done seg => by
    rw [← List.append_assoc]
    exact (hw done seg).append (hv done _).space (endsWord_cons rfl)

theorem group (h : Adds w xs) : Adds ('(' :: (w ++ [')'])) [.ofList xs] := (h [] []).group

end Adds

end

end Dolorem.Reader
