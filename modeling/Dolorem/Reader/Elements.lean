import Dolorem.Reader.Positions

/-!
# The elements of a tree

Where a token of a text ends up in the tree: the value `actual_read` makes of an
atom is an element of a list of the tree, and carries the offset and the file
index it was read with (`readText_elements`).
-/

namespace Dolorem.Reader

/-- `x` is the `car` of a cell of the tree. -/
inductive Val.Element {σ : Type} (x : Val σ) : Val σ → Prop
  | here {l : Loc} {d : Val σ} : Element x (.cons l x d)
  | car {l : Loc} {a d : Val σ} : Element x a → Element x (.cons l a d)
  | cdr {l : Loc} {a d : Val σ} : Element x d → Element x (.cons l a d)

/-- A token that is one value. -/
def Token.isAtom : Token → Bool
  | .skip | .semi | .group _ _ => false
  | _ => true

section

variable {σ : Type} {P : Loc → Prop} {x e : Val σ}

theorem Val.All.imp {Q : Loc → Prop} {v : Val σ} (h : v.All P) (hPQ : ∀ l, P l → Q l) : v.All Q := by
  induction v with
  | cons l a d iha ihd => exact ⟨hPQ l h.1, iha h.2.1, ihd h.2.2⟩
  | _ => exact hPQ _ h

theorem Val.Element.all {v : Val σ} (h : x.Element v) (hv : v.All P) : x.All P := by
  induction h with
  | here => exact hv.2.1
  | car _ ih => exact ih hv.2.1
  | cdr _ ih => exact ih hv.2.2

/-- The items of a list, and what is in them. -/
theorem element_spine : ∀ cs : List (Loc × Val σ),
    x.Element (Val.spine cs e) ↔ (∃ c ∈ cs, x = c.2 ∨ x.Element c.2) ∨ x.Element e
  | [] => (or_iff_right fun ⟨_, h, _⟩ => nomatch h).symm
  | (l, a) :: cs => by
    simp only [List.mem_cons, exists_eq_or_imp]
    rw [or_assoc, ← element_spine cs]
    constructor
    · intro h
      cases h with
      | here => exact .inl (.inl rfl)
      | car h => exact .inl (.inr h)
      | cdr h => exact .inr h
    · rintro ((rfl | h) | h)
      · exact .here
      · exact .car h
      · exact .cdr h

end

namespace Build.Marks

variable {text : List Char} {fileidx : Nat} {b b' : Build (List Char)} {it : Marked}
variable {cs : List (Loc × Val (List Char))} {x r : Val (List Char)} {s : Nat}

theorem element (h : b.Marks text fileidx it cs) :
    x.Element b.root ↔ ∃ c ∈ cs, x = c.2 ∨ x.Element c.2 := by
  obtain ⟨l, hroot, -⟩ := h.root
  rw [hroot, element_spine]
  exact or_iff_left fun h => nomatch h

/-- A new item of the list. -/
theorem element_insertPart (h : b.Marks text fileidx it cs) :
    (x.Element b.root ∨ x = r ∨ x.Element r) → x.Element (b.insertPart r).root := by
  obtain ⟨l, hroot, -⟩ := h.root
  have hroot' : (b.insertPart r).root = Val.spine cs
      (.cons l r (b.prototype.setCharIdx r.loc.charIdx)) := by
    show b.root.modifyAt _ b.v = _
    rw [hroot, h.v, modifyAt_end]
    rfl
  rw [h.element, hroot', element_spine]
  rintro (hx | rfl | hx)
  · exact .inl hx
  · exact .inr .here
  · exact .inr (.car hx)

theorem element_insertScope (h : b.Marks text fileidx it cs) {scope : List Char} :
    (x.Element b.root ∨ x.Element r) → x.Element (b.insertScope fileidx scope r).root := by
  obtain ⟨l, hroot, -⟩ := h.root
  have hroot' : (b.insertScope fileidx scope r).root = Val.spine cs
      (.cons l (.cons ⟨r.loc.charIdx, some fileidx⟩
        (.ident ⟨r.loc.charIdx, some fileidx⟩ scope) r) b.prototype) := by
    show b.root.modifyAt _ b.v = _
    rw [hroot, h.v, modifyAt_end]
    rfl
  rw [h.element, hroot', element_spine]
  rintro (hx | hx)
  · exact .inl hx
  · exact .inr (.car (.cdr hx))

/-- A `;` moves items into a list. -/
theorem element_semi (h : b.Marks text fileidx it cs) (hb : b.semi s = some b')
    (hs : s < text.length) (hx : x.Element b.root) : x.Element b'.root := by
  obtain ⟨it', front, l, a, rest, l', -, rfl, -, hm⟩ := h.semi hb hs
  rw [hm.element]
  obtain ⟨c, hc, hx⟩ := h.element.1 hx
  rcases List.mem_append.1 hc with hc | hc
  · exact ⟨c, List.mem_append_left _ hc, hx⟩
  · refine ⟨_, List.mem_append_right _ List.mem_cons_self, .inr ?_⟩
    rcases List.mem_cons.1 hc with rfl | hc
    · rcases hx with rfl | hx
      · exact .here
      · exact .car hx
    · exact .cdr ((element_spine rest).2 (.inl ⟨c, hc, hx⟩))

end Build.Marks

section

variable {text : List Char} {fileidx pos : Nat} {b b' : Build (List Char)} {it : Marked}
variable {cs : List (Loc × Val (List Char))} {x : Val (List Char)} {t : Token}
variable {nested : Nat → List Char → Build (List Char) → Read (Val (List Char))}

/-- A token keeps the elements there are. -/
theorem addToken_keeps (h : b.Marks text fileidx it cs) (hpos : pos < text.length)
    (hb : addToken nested fileidx pos b t = .ok b') (hx : x.Element b.root) :
    x.Element b'.root := by
  cases t with
  | skip =>
    cases hb
    exact hx
  | semi =>
    dsimp only [addToken] at hb
    cases hs : b.semi pos with
    | none =>
      rw [hs] at hb
      cases hb
    | some b₁ =>
      rw [hs] at hb
      cases hb
      exact h.element_semi hs hpos hx
  | group curly body =>
    dsimp only [addToken] at hb
    cases hn : nested (pos + 1) body (.start (.nil ⟨pos, some fileidx⟩)) with
    | error e =>
      rw [hn] at hb
      cases hb
    | ok v =>
      rw [hn] at hb
      cases curly <;> cases hb
      · exact h.element_insertPart (.inl hx)
      · exact h.element_insertScope (.inl hx)
  | _ =>
    cases hb
    exact h.element_insertPart (.inl hx)

/-- An atom becomes an element. -/
theorem addToken_atom (h : b.Marks text fileidx it cs) (ht : t.isAtom = true)
    (hb : addToken nested fileidx pos b t = .ok b') :
    (atomVal ⟨pos, some fileidx⟩ t).Element b'.root := by
  cases t with
  | skip => cases ht
  | semi => cases ht
  | group => cases ht
  | _ =>
    cases hb
    exact h.element_insertPart (.inr (.inl rfl))

/-- So do the elements of a list in brackets. -/
theorem addToken_nested {curly : Bool} {body : List Char} (h : b.Marks text fileidx it cs)
    (hb : addToken nested fileidx pos b (.group curly body) = .ok b')
    (hx : ∀ v, nested (pos + 1) body (.start (.nil ⟨pos, some fileidx⟩)) = .ok v → x.Element v) :
    x.Element b'.root := by
  dsimp only [addToken] at hb
  cases hn : nested (pos + 1) body (.start (.nil ⟨pos, some fileidx⟩)) with
  | error e =>
    rw [hn] at hb
    cases hb
  | ok v =>
    rw [hn] at hb
    cases curly <;> cases hb
    · exact h.element_insertPart (.inr (.inr (hx v hn)))
    · exact h.element_insertScope (.inr (hx v hn))

/-- Every atom of a text is an element of what is read, with its own offset. -/
theorem readText_elements (k : Nat) {R : List Char} {v : Val (List Char)}
    (h : b.Marks text fileidx it cs) (hn : '\x00' ∉ R) (hlen : pos + R.length ≤ text.length)
    (hrun : readText fileidx k pos R b = .ok v) :
    (∀ x, Val.Element x b.root → Val.Element x v) ∧
      ∀ q t, Occurs pos R q t → t.isAtom = true → (atomVal ⟨q, some fileidx⟩ t).Element v := by
  induction k generalizing pos R b it cs v with
  | zero => cases hrun
  | succ k ih =>
    cases R with
    | nil =>
      cases hrun
      exact ⟨fun _ hx => hx, fun _ _ ho => nomatch ho⟩
    | cons c R =>
      unfold readText turn at hrun
      cases hnt : nextToken pos (c :: R) with
      | error e =>
        rw [hnt] at hrun
        cases hrun
      | ok p =>
        obtain ⟨t, rest⟩ := p
        rw [hnt] at hrun
        simp only [Read.ok_bind] at hrun
        have hsuf := nextToken_suffix (ne_nul_of_not_mem hn) hnt
        have hle := hsuf.length_le
        rw [List.length_cons] at hlen
        have hpos : pos < text.length := by omega
        cases hb : addToken (readText fileidx k) fileidx pos b t with
        | error e =>
          rw [hb] at hrun
          cases hrun
        | ok b₁ =>
          rw [hb] at hrun
          obtain ⟨it₁, cs₁, -, hreads⟩ := reads_token
            (fun pos body => (Located.ofList ·.items) <$> locate k pos body .empty)
            (fun curly body v ht hv => by
              subst ht
              obtain ⟨hbody, hlt⟩ := nextToken_group_lt hn hnt
              obtain ⟨b₁, it₁, cs₁, hloc, hv, hreads⟩ :=
                reads_text k (.start (good_of_lt hpos)) hbody (by omega) hv
              exact ⟨b₁, it₁, cs₁, by rw [hloc]; rfl, hv, hreads⟩)
            h hpos hb
          obtain ⟨hkeep, hrest⟩ := ih hreads.marks (fun hm => not_mem_tail hn (hsuf.subset hm))
            (by dsimp only [List.length_cons]; omega) hrun
          refine ⟨fun x hx => hkeep x (addToken_keeps h hpos hb hx), fun q t' ho ht' => ?_⟩
          rcases (occurs_cons hnt).1 ho with (⟨rfl, rfl⟩ | ⟨curly, body, rfl, ho⟩) | ho
          · exact hkeep _ (addToken_atom h ht' hb)
          · refine hkeep _ (addToken_nested h hb fun v hv => ?_)
            obtain ⟨hbody, hlt⟩ := nextToken_group_lt hn hnt
            exact (ih (.start (good_of_lt hpos)) hbody (by omega) hv).2 q t' ho ht'
          · exact hrest q t' ho ht'

end

/-- Every atom of a source is an element of the tree, with its own offset. -/
theorem lowerRead_elements (src : Source) (fileidx : Nat) {v : Val (List Char)}
    (h : lowerRead src.text fileidx = .ok v) {q : Nat} {t : Token} (ho : Occurs 0 src.text q t)
    (ht : t.isAtom = true) : (atomVal ⟨q, some fileidx⟩ t).Element v := by
  rw [lowerRead_eq _ _ src.nul_free] at h
  have hstart : Good src.text fileidx ⟨0, some fileidx⟩ := ⟨rfl, .inl rfl⟩
  exact (readText_elements _ (.start hstart) src.nul_free (Nat.zero_add _).le h).2 q t ho ht

/-- A cell of a member path has no file index. -/
theorem atomVal_fileIdx {loc : Loc} {fileidx : Nat} {t : Token}
    (h : (atomVal loc t).All fun l => l.fileIdx = some fileidx) : t.isPath = false := by
  cases t with
  | ident w =>
    unfold Token.isPath
    cases w with
    | nil => rfl
    | cons c w =>
      replace h : (identVal loc (w.length + 1) (c :: w)).All _ := h
      unfold identVal at h
      dsimp only at h ⊢
      cases hs : splitColon (c :: w) with
      | none => rfl
      | some ab =>
        obtain ⟨a, b⟩ := ab
        rw [hs] at h
        dsimp only at h ⊢
        split_ifs at h with hab
        · rcases hab with rfl | rfl
          · rfl
          · exact Bool.and_false _
        · cases h.2.2.1
  | _ => rfl

/-- The values of a tree all have the index of the file if and only if no member path is expanded
in the text. -/
theorem all_fileIdx_iff (src : Source) (fileidx : Nat) {v : Val (List Char)}
    (h : lowerRead src.text fileidx = .ok v) :
    v.All (fun l => l.fileIdx = some fileidx) ↔ ∀ q t, Occurs 0 src.text q t → t.isPath = false := by
  constructor
  · intro hall q t ho
    cases ht : t.isAtom with
    | true => exact atomVal_fileIdx ((lowerRead_elements src fileidx h ho ht).all hall)
    | false => cases t <;> first | rfl | cases ht
  · exact fun hocc => ((all_good_iff src fileidx h).2 hocc).imp fun _ hl => hl.1

end Dolorem.Reader
