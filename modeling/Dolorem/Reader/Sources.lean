import Dolorem.Reader.Elements

/-!
# The table of source files

Every text that is read is entered at the end of a linked list, and the values
read from it get the number of the entry. The number is an `unsigned short`, and
zero stands for generated code.

An entry does not hold the name and the text. It holds the pointers the caller
gave, and only what is read from a file or from the standard input is in a block
of its own. A REPL refills one buffer for the line and one for its name, so the
entries of all its lines lead to the last one. `sources_known_iff` says which
values still lead to their source.
-/

namespace Dolorem.Reader

/-- A `const char *`: to a buffer of the caller, or to a text that nothing writes to, as a literal
and the blocks of `readFile` and `read_string_from_stdin` are. -/
inductive TextPtr where
  | buffer (p : Nat)
  | block (text : List Char)
deriving DecidableEq, Repr

/-- The text behind the pointer, where `texts` is the string at each address of a buffer. -/
def TextPtr.deref (texts : Nat → Source) : TextPtr → List Char
  | buffer p => (texts p).text
  | block text => text

/-- `struct SourceFile`. -/
structure SourceEntry where
  name : TextPtr
  content : TextPtr
deriving DecidableEq, Repr

/-- What a `struct SourceFile` shows of a source; a null `Content` is `none`. -/
structure SourceFile where
  name : String
  content : Option (List Char)
deriving DecidableEq, Repr

def SourceEntry.shows (texts : Nat → Source) (e : SourceEntry) : SourceFile :=
  ⟨String.ofList (e.name.deref texts), some (e.content.deref texts)⟩

/-- The buffers of the callers, the list from `firstsource` to `lastsource`, and `atfile`. -/
structure Sources where
  texts : Nat → Source
  files : List SourceEntry
  atfile : Nat

namespace Sources

def init (texts : Nat → Source) : Sources := ⟨texts, [], 0⟩

/-- The loop of `get_source_file` with its counter, an `unsigned short`: the list from the entry
on that it stops at. -/
def find (idx : Nat) : Nat → List SourceEntry → List SourceEntry
  | _, [] => []
  | i, s :: next => if i = idx then s :: next else find idx ((i + 1) % 2 ^ 16) next

/-- `get_source_file`, and the texts that its result points to. -/
def getSourceFile (st : Sources) (idx : Nat) : SourceFile :=
  if idx = 0 then ⟨"<gen>", none⟩
  else
    match find idx 1 st.files with
    | [] => ⟨"<err finding source file name>", none⟩
    | s :: _ => s.shows st.texts

/-- What `read_string`, `read_file` and `read_stdin` have in common: `content` is the pointer and
what is behind it, and `missing` the message about a source that is not there. -/
def readSource (name : TextPtr) (content : Option (TextPtr × Source)) (missing : String)
    (st : Sources) : Read (Val (List Char) × Sources) :=
  match content with
  | none => .error (.internal missing)
  | some (p, src) => do
    let atfile := (st.atfile + 1) % 2 ^ 16
    let v ← lowerRead src.text atfile
    return (v, ⟨st.texts, st.files ++ [⟨name, p⟩], atfile⟩)

/-- `read_string`. -/
def readString (s filename : Nat) (st : Sources) : Read (Val (List Char) × Sources) :=
  readSource (.buffer filename) (some (.buffer s, st.texts s))
    "read_string expected non-null string (in \"%s\")" st

/-- `read_file`, with what `readFile` finds. -/
def readFile (filename : Nat) (found : Option Source) :
    Sources → Read (Val (List Char) × Sources) :=
  readSource (.buffer filename) (found.map fun src => (.block src.text, src))
    "can not find file: %s"

/-- `read_stdin`, with what `read_string_from_stdin` returns. -/
def readStdin (s : Source) : Sources → Read (Val (List Char) × Sources) :=
  readSource (.block "<stdin>".toList) (some (.block s.text, s)) "can not find file: %s"

end Sources

/-- A call of one of the three. -/
inductive ReadCall where
  | string (s filename : Nat)
  | file (filename : Nat) (found : Option Source)
  | stdin (s : Source)

namespace ReadCall

def run : ReadCall → Sources → Read (Val (List Char) × Sources)
  | string s filename => Sources.readString s filename
  | file filename found => Sources.readFile filename found
  | stdin s => Sources.readStdin s

/-- The text that the call reads. -/
def source (texts : Nat → Source) : ReadCall → Option Source
  | string s _ => some (texts s)
  | file _ found => found
  | stdin s => some s

/-- The name it is given. -/
def name (texts : Nat → Source) : ReadCall → String
  | string _ filename | file filename _ => String.ofList (texts filename).text
  | stdin _ => "<stdin>"

/-- What the entry of the call should show. -/
def entry (texts : Nat → Source) (c : ReadCall) : SourceFile :=
  ⟨c.name texts, (c.source texts).map Source.text⟩

/-- The pointers that it enters, where `src` is what it reads. -/
def pointers (src : Source) : ReadCall → SourceEntry
  | string s filename => ⟨.buffer filename, .buffer s⟩
  | file filename _ => ⟨.buffer filename, .block src.text⟩
  | stdin _ => ⟨.block "<stdin>".toList, .block src.text⟩

/-- The buffers of the caller among them. -/
def buffers : ReadCall → List Nat
  | string s filename => [filename, s]
  | file filename _ => [filename]
  | stdin _ => []

end ReadCall

/-- A step of a session: a read, or the program writes to its buffers, and `texts` is what is in
them from then on. -/
inductive SessionStep where
  | read (c : ReadCall)
  | write (texts : Nat → Source)

/-- A read that has returned: the call, what the buffers held, and the value. -/
structure ReadDone where
  call : ReadCall
  texts : Nat → Source
  val : Val (List Char)

/-- A sequence of reads and writes. -/
def session : List SessionStep → Sources → Read (List ReadDone × Sources)
  | [], st => .ok ([], st)
  | .write texts :: steps, st => session steps { st with texts }
  | .read c :: steps, st => do
    let (v, st₁) ← c.run st
    let (ds, st₂) ← session steps st₁
    return (⟨c, st.texts, v⟩ :: ds, st₂)

/-- Every value of the tree leads to the entry number `k`, which shows `file`. -/
def Knows (st : Sources) (k : Nat) (file : SourceFile) (v : Val (List Char)) : Prop :=
  v.All fun l => ∃ idx, l.fileIdx = some idx ∧ idx ≠ 0 ∧
    Sources.find idx 1 st.files = st.files.drop k ∧ st.getSourceFile idx = file

/-! ## Single reads -/

section

variable {st st' : Sources} {c : ReadCall} {steps : List SessionStep} {v : Val (List Char)}
variable {ds : List ReadDone} {idx i k : Nat} {files : List SourceEntry} {texts : Nat → Source}

theorem Sources.readSource_ok {name : TextPtr} {missing : String}
    {content : Option (TextPtr × Source)} (h : readSource name content missing st = .ok (v, st')) :
    ∃ p src, content = some (p, src) ∧ lowerRead src.text ((st.atfile + 1) % 2 ^ 16) = .ok v ∧
      st' = ⟨st.texts, st.files ++ [⟨name, p⟩], (st.atfile + 1) % 2 ^ 16⟩ := by
  cases content with
  | none => cases h
  | some x =>
    obtain ⟨v', hv, h⟩ := Read.bind_eq_ok.1 h
    cases h
    exact ⟨x.1, x.2, rfl, hv, rfl⟩

/-- What a read that returns has done. -/
theorem ReadCall.run_ok (h : c.run st = .ok (v, st')) : ∃ src, c.source st.texts = some src ∧
    lowerRead src.text ((st.atfile + 1) % 2 ^ 16) = .ok v ∧
      st' = ⟨st.texts, st.files ++ [c.pointers src], (st.atfile + 1) % 2 ^ 16⟩ := by
  cases c with
  | string s filename =>
    unfold run Sources.readString at h
    obtain ⟨p, src, hp, hv, rfl⟩ := Sources.readSource_ok h
    cases hp
    exact ⟨_, rfl, hv, rfl⟩
  | file filename found =>
    unfold run Sources.readFile at h
    obtain ⟨p, src, hp, hv, rfl⟩ := Sources.readSource_ok h
    obtain ⟨src, rfl, hp⟩ := Option.map_eq_some_iff.1 hp
    cases hp
    exact ⟨_, rfl, hv, rfl⟩
  | stdin s =>
    unfold run Sources.readStdin at h
    obtain ⟨p, src, hp, hv, rfl⟩ := Sources.readSource_ok h
    cases hp
    exact ⟨_, rfl, hv, rfl⟩

/-- An entry shows the source as long as the buffers of the call hold what they held. -/
theorem ReadCall.shows_iff {src : Source} (hsrc : c.source texts = some src)
    (texts' : Nat → Source) : (c.pointers src).shows texts' = c.entry texts ↔
      ∀ p ∈ c.buffers, texts' p = texts p := by
  have hname : ∀ p, String.ofList (texts' p).text = String.ofList (texts p).text ↔
      texts' p = texts p := fun p => by rw [String.ofList_inj, Source.ext_iff]
  have htext : ∀ p, (texts' p).text = (texts p).text ↔ texts' p = texts p :=
    fun p => Source.ext_iff.symm
  cases c with
  | string s filename =>
    simp [pointers, SourceEntry.shows, entry, name, source, buffers, TextPtr.deref, hname, htext]
  | file filename found =>
    cases hsrc
    simp [pointers, SourceEntry.shows, entry, name, source, buffers, TextPtr.deref, hname]
  | stdin s =>
    cases hsrc
    simp [pointers, SourceEntry.shows, entry, name, source, buffers, TextPtr.deref]

/-- The index of an entry that is less than 2^16 away leads to it. -/
theorem Sources.find_eq (hi : i ≤ idx) (hidx : idx < 2 ^ 16) :
    Sources.find idx i files = files.drop (idx - i) := by
  induction files generalizing i with
  | nil => rw [List.drop_nil, find]
  | cons s next ih =>
    rw [find]
    split
    · next heq => rw [heq, Nat.sub_self, List.drop_zero]
    · next hne =>
      have hlt : i + 1 ≤ idx := by omega
      rw [Nat.mod_eq_of_lt (by omega), ih hlt, show idx - i = idx - (i + 1) + 1 by omega,
        List.drop_succ_cons]

/-- Indices that no `unsigned short` holds lead nowhere. -/
theorem Sources.find_large (hi : i < 2 ^ 16) (hidx : 2 ^ 16 ≤ idx) :
    Sources.find idx i files = [] := by
  induction files generalizing i with
  | nil => rfl
  | cons s next ih =>
    rw [find, if_neg (by omega)]
    exact ih (Nat.mod_lt _ (by decide))

/-- The only index that leads to an entry. -/
theorem Sources.find_iff (hk : k < files.length) (hidx : idx ≠ 0) :
    Sources.find idx 1 files = files.drop k ↔ idx = k + 1 ∧ k + 1 < 2 ^ 16 := by
  constructor
  · intro h
    have hlen := congrArg List.length h
    rw [List.length_drop] at hlen
    rcases Nat.lt_or_ge idx (2 ^ 16) with hlt | hge
    · rw [find_eq (by omega) hlt, List.length_drop] at hlen
      omega
    · rw [find_large (by decide) hge, List.length_nil] at hlen
      omega
  · rintro ⟨rfl, hlt⟩
    rw [find_eq (by omega) hlt, Nat.add_sub_cancel]

/-! ## Sessions -/

/-- The table, and what the calls read. -/
structure ReadInOrder (st : Sources) (ds : List ReadDone) (st' : Sources) : Prop where
  length : st'.files.length = st.files.length + ds.length
  earlier : st.files <+: st'.files
  reads : ∀ {k d}, ds[k]? = some d → ∃ src, d.call.source d.texts = some src ∧
    st'.files[st.files.length + k]? = some (d.call.pointers src) ∧
      lowerRead src.text ((st.atfile + (k + 1)) % 2 ^ 16) = .ok d.val

/-- By induction on the steps: a read adds its entry and counts on, a write does not touch the
list. -/
theorem session_inOrder (h : session steps st = .ok (ds, st')) : ReadInOrder st ds st' := by
  induction steps generalizing st ds with
  | nil =>
    cases h
    exact ⟨rfl, List.prefix_refl _, fun hd => nomatch hd⟩
  | cons step steps ih =>
    cases step with
    | write texts =>
      obtain ⟨hlength, hearlier, hreads⟩ := ih h
      exact ⟨hlength, hearlier, hreads⟩
    | read c =>
      obtain ⟨⟨v, st₁⟩, hc, h⟩ := Read.bind_eq_ok.1 h
      obtain ⟨⟨ds', st₂⟩, hsteps, h⟩ := Read.bind_eq_ok.1 h
      cases h
      obtain ⟨src, hsrc, hv, rfl⟩ := ReadCall.run_ok hc
      obtain ⟨hlength, hearlier, hreads⟩ := ih hsteps
      rw [List.length_append, List.length_singleton] at hlength
      refine ⟨?_, (List.prefix_append _ _).trans hearlier, ?_⟩
      · rw [hlength, List.length_cons, Nat.add_assoc, Nat.add_comm 1]
      · intro k d hd
        cases k with
        | zero =>
          cases hd
          obtain ⟨more, hmore⟩ := hearlier
          refine ⟨src, hsrc, ?_, hv⟩
          rw [← hmore, List.append_assoc, Nat.add_zero, List.getElem?_append_right le_rfl,
            Nat.sub_self]
          rfl
        | succ k =>
          obtain ⟨src', hsrc', hget, hw⟩ := hreads hd
          rw [List.length_append, List.length_singleton] at hget
          rw [Nat.mod_add_mod] at hw
          refine ⟨src', hsrc', ?_, ?_⟩
          · rwa [show st.files.length + (k + 1) = st.files.length + 1 + k by omega]
          · rwa [show st.atfile + (k + 1 + 1) = st.atfile + 1 + (k + 1) by omega]

end

/-- A value leads to the entry of its source if and only if the source is one of the first 65535,
no member path is expanded in it, and the buffers that its name and its text were in still hold
them. -/
theorem sources_known_iff {steps : List SessionStep} {texts : Nat → Source} {ds : List ReadDone}
    {st : Sources} (h : session steps (.init texts) = .ok (ds, st)) {k : Nat} {d : ReadDone}
    {src : Source} (hd : ds[k]? = some d) (hsrc : d.call.source d.texts = some src) :
    Knows st k (d.call.entry d.texts) d.val ↔
      k + 1 < 2 ^ 16 ∧ (∀ q t, Occurs 0 src.text q t → t.isPath = false) ∧
        ∀ p ∈ d.call.buffers, st.texts p = d.texts p := by
  obtain ⟨src', hsrc', hentry, hread⟩ := (session_inOrder h).reads hd
  cases hsrc.symm.trans hsrc'
  simp only [Sources.init, List.length_nil, Nat.zero_add] at hentry hread
  obtain ⟨hk, hentry⟩ := List.getElem?_eq_some_iff.1 hentry
  have hfound : ∀ {idx}, idx ≠ 0 → (Sources.find idx 1 st.files = st.files.drop k ∧
      st.getSourceFile idx = d.call.entry d.texts ↔
        (idx = k + 1 ∧ k + 1 < 2 ^ 16) ∧ ∀ p ∈ d.call.buffers, st.texts p = d.texts p) := by
    intro idx hidx
    rw [← Sources.find_iff hk hidx, ← ReadCall.shows_iff hsrc st.texts]
    refine and_congr_right fun hfind => ?_
    rw [Sources.getSourceFile, if_neg hidx, hfind, List.drop_eq_getElem_cons hk, hentry]
  constructor
  · intro hall
    have hidx : ∀ {l : Loc}, (∃ idx, l.fileIdx = some idx ∧ idx ≠ 0 ∧
        Sources.find idx 1 st.files = st.files.drop k ∧
          st.getSourceFile idx = d.call.entry d.texts) →
        (l.fileIdx = some (k + 1) ∧ k + 1 < 2 ^ 16) ∧
          ∀ p ∈ d.call.buffers, st.texts p = d.texts p := by
      rintro l ⟨idx, hl, hne, hfind⟩
      obtain ⟨⟨rfl, hlt⟩, hbuffers⟩ := (hfound hne).1 hfind
      exact ⟨⟨hl, hlt⟩, hbuffers⟩
    obtain ⟨⟨-, hlt⟩, hbuffers⟩ := hidx hall.loc
    rw [Nat.mod_eq_of_lt hlt] at hread
    exact ⟨hlt, (all_fileIdx_iff src _ hread).1 (hall.imp fun l hl => (hidx hl).1.1), hbuffers⟩
  · rintro ⟨hlt, hpaths, hbuffers⟩
    rw [Nat.mod_eq_of_lt hlt] at hread
    refine ((all_fileIdx_iff src _ hread).2 hpaths).imp fun l hl => ?_
    have hne := Nat.succ_ne_zero k
    exact ⟨k + 1, hl, hne, (hfound hne).2 ⟨⟨rfl, hlt⟩, hbuffers⟩⟩

/-- The buffers of `repl`: the line at 0 and its name at 1. -/
def replBuffers (line name : Source) : Nat → Source := fun p => if p = 0 then line else name

def firstLine : Nat → Source :=
  replBuffers ⟨['x', '\n'], by decide⟩ ⟨['<', 'r', 'e', 'p', 'l', '-', '0', '>'], by decide⟩

def secondLine : Nat → Source :=
  replBuffers ⟨['y', '\n'], by decide⟩ ⟨['<', 'r', 'e', 'p', 'l', '-', '1', '>'], by decide⟩

/-- A read from the standard input, and one line of a REPL. -/
theorem sources_known_iff_example : ∃ ds st d,
    session [.read (.stdin ⟨['(', 'x', ')'], by decide⟩), .read (.string 0 1)]
      (.init firstLine) = .ok (ds, st) ∧ ds[1]? = some d ∧
      (Knows st 1 (d.call.entry d.texts) d.val ↔
        1 + 1 < 2 ^ 16 ∧ (∀ q t, Occurs 0 (firstLine 0).text q t → t.isPath = false) ∧
          ∀ p ∈ d.call.buffers, st.texts p = d.texts p) := by
  obtain ⟨v, w, st, h⟩ : ∃ v w st, session [.read (.stdin ⟨['(', 'x', ')'], by decide⟩),
      .read (.string 0 1)] (.init firstLine) =
        .ok ([⟨.stdin ⟨['(', 'x', ')'], by decide⟩, firstLine, v⟩,
          ⟨.string 0 1, firstLine, w⟩], st) := ⟨_, _, _, rfl⟩
  have hd : [(⟨.stdin ⟨['(', 'x', ')'], by decide⟩, firstLine, v⟩ : ReadDone),
      ⟨.string 0 1, firstLine, w⟩][1]? = some ⟨.string 0 1, firstLine, w⟩ := rfl
  exact ⟨_, st, _, h, hd, sources_known_iff h hd rfl⟩

/-- After the second line of a REPL, the values of the first one lead to the name and the text of
the second. -/
theorem refilled_line_lost : ∃ ds st d,
    session [.read (.string 0 1), .write secondLine, .read (.string 0 1)] (.init firstLine) =
        .ok (ds, st) ∧ ds[0]? = some d ∧
      d.call.entry d.texts = ⟨"<repl-0>", some ['x', '\n']⟩ ∧ d.val.loc.fileIdx = some 1 ∧
      st.getSourceFile 1 = ⟨"<repl-1>", some ['y', '\n']⟩ ∧
      ¬ Knows st 0 (d.call.entry d.texts) d.val := by
  refine ⟨_, _, _, rfl, rfl, rfl, rfl, rfl, fun h => ?_⟩
  obtain ⟨idx, hidx, -, -, hfile⟩ := h.loc
  cases hidx
  have hcontent := congrArg SourceFile.content hfile
  cases hcontent

end Dolorem.Reader
