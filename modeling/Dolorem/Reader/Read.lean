import Mathlib.Algebra.Group.Int.Defs
import Mathlib.Algebra.Group.Nat.Defs
import Dolorem.Reader.Val

/-!
# The reader as `list.c` runs it

`lower_read` and everything below it, over the buffer the source text is copied
into: the text followed by its terminating NUL. Cursors are offsets into the
buffer. A read or a write past the terminator stops the run with
`Stop.overrun`; the reader's own errors stop it with `Stop.error`, which keeps
the `CharIdx` of the value the error is reported at.

The functions change the buffer the way the code does: `-` becomes `_` in
place, the closing bracket of a nested list is overwritten by the NUL its text
is cut off with, strings are decoded where they stand, and an identifier is
terminated only when the next one is met or its list ends.

Every loop takes its fuel from the length of the buffer. `Stop.fuel` is never
the result of `lowerRead`, see `lowerRead_ne_fuel`.
-/

namespace Dolorem.Reader

/-- Why a run of the reader ends without a tree. -/
inductive Stop where
  /-- `compiler_error` at a value with this `CharIdx`. -/
  | error (charIdx : Nat) (msg : String)
  /-- `compiler_error_internal`. -/
  | internal (msg : String)
  /-- An access behind the terminating NUL of the text. -/
  | overrun
  | fuel
deriving DecidableEq, Repr

abbrev Read := Except Stop

namespace Read

variable {α β : Type}

@[simp] theorem ok_bind (a : α) (f : α → Read β) : (Except.ok a : Read α) >>= f = f a := rfl

@[simp] theorem error_bind (e : Stop) (f : α → Read β) :
    (Except.error e : Read α) >>= f = .error e := rfl

@[simp] theorem ok_map (a : α) (f : α → β) : f <$> (Except.ok a : Read α) = .ok (f a) := rfl

@[simp] theorem error_map (e : Stop) (f : α → β) :
    f <$> (Except.error e : Read α) = .error e := rfl

@[simp] theorem pure_eq (a : α) : (pure a : Read α) = .ok a := rfl

theorem bind_eq_ok {x : Read α} {f : α → Read β} {b : β} :
    x >>= f = .ok b ↔ ∃ a, x = .ok a ∧ f a = .ok b := by
  cases x <;> simp

theorem map_eq_ok {x : Read α} {f : α → β} {b : β} :
    f <$> x = .ok b ↔ ∃ a, x = .ok a ∧ f a = b := by
  cases x <;> simp

end Read

/-! ## Memory -/

abbrev Buf := List Char

/-- A source text up to its terminating NUL. -/
@[ext] structure Source where
  text : List Char
  nul_free : '\x00' ∉ text

def peek (b : Buf) (i : Nat) : Read Char :=
  match b[i]? with
  | some c => .ok c
  | none => .error .overrun

def poke (b : Buf) (i : Nat) (c : Char) : Read Buf :=
  if i < b.length then .ok (b.set i c) else .error .overrun

/-- What `V.S` points to: a place in the buffer, or one of the literals
`"scope"` and `"memb"`. -/
inductive Ptr where
  | mem (off : Nat)
  | lit (s : List Char)
deriving DecidableEq, Repr

/-- The C string at a pointer. -/
def cstr (b : Buf) : Ptr → List Char
  | .mem off => (b.drop off).takeWhile (· != '\x00')
  | .lit s => s

/-! ## Characters -/

def isWordBoundary (a : Char) : Bool :=
  a == ' ' || a == '\n' || a == '\t' || a == ';' || a == '#' || a == '}' || a == ')'

/-- The characters that end a number or an identifier. `actual_read` and
`transform_identifier` spell this list out in each of their loops. -/
def endsToken (a : Char) : Bool :=
  a == '\x00' || isWordBoundary a

def isDigit (a : Char) : Bool :=
  '0' ≤ a && a ≤ '9'

/-- `a` is assigned to a `long` as a signed `char`. -/
def signedChar (a : Char) : Int :=
  if a.toNat < 128 then a.toNat else (a.toNat : Int) - 256

def isSpace (a : Char) : Bool :=
  a == ' ' || (9 ≤ a.toNat && a.toNat ≤ 13)

def digitsVal (ds : List Char) : Int :=
  ds.foldl (fun n d => 10 * n + ((d.toNat : Int) - 48)) 0

/-- `strtol(s, NULL, 10)`: blanks, a sign, digits; the value saturates. -/
def strtol (s : List Char) : Int :=
  let s := s.dropWhile isSpace
  let n := match s with
    | '-' :: t => -digitsVal (t.takeWhile isDigit)
    | '+' :: t => digitsVal (t.takeWhile isDigit)
    | t => digitsVal (t.takeWhile isDigit)
  max (-2 ^ 63) (min (2 ^ 63 - 1) n)

/-- The test that sends a token to the number branch. -/
def startsNumber (b : Buf) (s : Nat) : Read Bool := do
  let c ← peek b s
  if c == '-' then
    let d ← peek b (s + 1)
    return !endsToken d
  else
    return isDigit c

/-! ## The scanning loops -/

/-- `for (; !stop(*s); ++s) fail(*s);`, the form of most loops below. -/
def scan (stop : Char → Bool) (fail : Char → Option Stop) (b : Buf) : Nat → Nat → Read Nat
  | 0, _ => .error .fuel
  | k + 1, s => do
    let c ← peek b s
    if stop c then return s
    else
      match fail c with
      | some e => .error e
      | none => scan stop fail b k (s + 1)

/-- `for (; *s != '\n' && *s; ++s);` -/
def skipComment (b : Buf) (s : Nat) : Read Nat :=
  scan (fun c => c == '\n' || c == '\x00') (fun _ => none) b (b.length + 1) s

/-- `for (; *s != q; ++s) if (!*s) error;` -/
def findChar (err : Stop) (q : Char) (b : Buf) (s : Nat) : Read Nat :=
  scan (· == q) (fun c => if c == '\x00' then some err else none) b (b.length + 1) s

/-- The loop over a number: it stops at the end of the token. -/
def tokenEnd (b : Buf) (s : Nat) : Read Nat :=
  scan endsToken (fun _ => none) b (b.length + 1) s

/-- The error of the loop between two parts of a string literal. -/
def gapError (pos : Nat) (c : Char) : Option Stop :=
  if c == '\x00' then
    some (.error pos "expected next part of string literal, found EOF")
  else if c != '\t' && c != ' ' && c != '\n' && c != '\\' then
    some (.error pos ("expected next part of string literal or " ++
      "whitespace, found something else"))
  else none

/-- The loop between two parts of a string literal. -/
def findPart (pos : Nat) (b : Buf) (s : Nat) : Read Nat :=
  scan (· == '"') (gapError pos) b (b.length + 1) s

/-- `for (++r; *r && *r != type; ++r);` from the position behind the quote. -/
def skipPart (type : Char) (b : Buf) (r : Nat) : Read Nat :=
  scan (fun c => c == '\x00' || c == type) (fun _ => none) b (b.length + 1) r

/-- `for (; *s != '"' || s[-1] == '\\'; ++s) if (!*s) error;` -/
def findQuote (err : Stop) (b : Buf) : Nat → Nat → Read Nat
  | 0, _ => .error .fuel
  | k + 1, s => do
    let c ← peek b s
    if c != '"' then
      if c == '\x00' then .error err else findQuote err b k (s + 1)
    else
      let p ← peek b (s - 1)
      if p == '\\' then findQuote err b k (s + 1) else return s

/-- `while (*s == '\\')`: the further parts of a string literal. The result is
the position behind the last closing quote. -/
def stringParts (pos : Nat) (b : Buf) : Nat → Nat → Read Nat
  | 0, _ => .error .fuel
  | k + 1, s => do
    let c ← peek b s
    if c == '\\' then
      let q ← findPart pos b s
      let e ← findQuote (.error pos "missing closing '\"'") b (b.length + 1) (q + 1)
      stringParts pos b k (e + 1)
    else return s

/-- The pre-scan for the bracket that closes the list opened at `s`. The loop
over a string literal starts at the quote it stops at, as in the source. -/
def closingBracket (pos : Nat) (b : Buf) : Nat → Nat → Int → Read Nat
  | 0, _, _ => .error .fuel
  | k + 1, s, parentheses => do
    let c ← peek b s
    if c == '\x00' then
      .error (.error pos "missing closing parentheses")
    else if c == '"' then
      let q ← findChar (.error pos "missing closing '\"'") '"' b s
      closingBracket pos b k (q + 1) parentheses
    else if c == '#' then
      let n ← skipComment b s
      closingBracket pos b k (n + 1) parentheses
    else if c == '(' || c == '{' then
      closingBracket pos b k (s + 1) (parentheses + 1)
    else if c == ')' || c == '}' then
      if parentheses - 1 == 0 then return s
      else closingBracket pos b k (s + 1) (parentheses - 1)
    else closingBracket pos b k (s + 1) parentheses

/-- The loop over an identifier, which also turns `-` into `_`. -/
def identEnd : Nat → Buf → Nat → Read (Buf × Nat)
  | 0, _, _ => .error .fuel
  | k + 1, b, s => do
    let c ← peek b s
    if endsToken c then return (b, s)
    else
      let b ← if c == '-' then poke b s '_' else pure b
      identEnd k b (s + 1)

/-! ## `prepare_string` -/

def invalidControlSequence (pos : Nat) (c : Char) : Stop :=
  .error pos ("invalid control sequence \"" ++ c.toString ++ "\"")

/-- The character a control sequence stands for. -/
def controlSequence (pos : Nat) (c : Char) : Read Char :=
  if c == '\\' then .ok '\\'
  else if c == '"' then .ok '"'
  else if c == '\'' then .ok '\''
  else if c == 'n' then .ok '\n'
  else if c == 't' then .ok '\t'
  else .error (invalidControlSequence pos c)

/-- `prepare_string`: decode the string at `r` to `w`, in place. -/
def prepareString (pos : Nat) (type : Char) : Nat → Buf → Nat → Nat → Read Buf
  | 0, _, _, _ => .error .fuel
  | k + 1, b, r, w => do
    let c ← peek b r
    if c == '\x00' then poke b w '\x00'
    else if c == type then
      let q ← skipPart type b (r + 1)
      let d ← peek b q
      if d == '\x00' then .error (.internal "prepare_string found invalid multi-part string")
      else prepareString pos type k b (q + 1) w
    else if c == '\\' then
      let d ← peek b (r + 1)
      let x ← controlSequence pos d
      let b ← poke b w x
      prepareString pos type k b (r + 2) (w + 1)
    else
      let b ← poke b w c
      prepareString pos type k b (r + 1) (w + 1)

/-! ## `transform_identifier` -/

/-- The last `x` in the word at `a`. -/
def strlastchrWordBoundary (b : Buf) (x : Char) : Nat → Nat → Option Nat → Read (Option Nat)
  | 0, _, _ => .error .fuel
  | k + 1, a, res => do
    let c ← peek b a
    if c != '\x00' && !isWordBoundary c then
      strlastchrWordBoundary b x k (a + 1) (if c == x then some a else res)
    else return res

/-- The node for the segment behind a colon. -/
def membVal (b : Buf) (loc : Loc) (s : Nat) : Read (Val Ptr) := do
  if ← startsNumber b s then
    let a ← tokenEnd b s
    let tok := (b.drop s).take (a - s)
    if tok.contains '.' then return .float loc tok
    else return .int loc (strtol (b.drop s))
  else return .ident loc (.mem s)

/-- `transform_identifier` on the identifier at `s`. The two inner cons cells
get the file index as their `CharIdx` and no `FileIdx`. -/
def transformIdentifier : Nat → Buf → Loc → Nat → Read (Buf × Val Ptr)
  | 0, _, _, _ => .error .fuel
  | k + 1, b, loc, s => do
    match ← strlastchrWordBoundary b ':' (b.length + 1) s none with
    | none => return (b, .ident loc (.mem s))
    | some colon =>
      let next ← peek b (colon + 1)
      if colon == s || next == '\x00' || isWordBoundary next then
        return (b, .ident loc (.mem s))
      else
        let b ← poke b colon '\x00'
        let memb ← membVal b loc (colon + 1)
        let (b, cl) ← transformIdentifier k b loc s
        let inner : Loc := ⟨loc.fileIdx.getD 0, none⟩
        return (b, .cons loc (.ident loc (.lit "memb".toList))
          (.cons inner cl (.cons inner memb (.nil ⟨0, some 0⟩))))

/-! ## `actual_read` -/

/-- The variables of `actual_read` at the head of its loop. -/
structure State where
  buf : Buf
  s : Nat
  build : Build Ptr
  lastidentend : Option Nat
deriving DecidableEq, Repr

def isBlank (a : Char) : Bool :=
  a == ' ' || a == '\t' || a == '\n'

def isOpener (a : Char) : Bool :=
  a == '(' || a == '{'

def isCloser (a : Char) : Bool :=
  a == ')' || a == '}'

/-- `case '"'`. -/
def readString (st : State) (fileidx : Nat) : Read State := do
  let b := st.buf
  let err := Stop.error st.s "missing closing '\"'"
  let e ← findQuote err b (b.length + 1) (st.s + 1)
  let s ← stringParts st.s b (b.length + 1) (e + 1)
  let b ← poke b (s - 1) '\x00'
  let b ← prepareString st.s '"' (b.length + 1) b (st.s + 1) (st.s + 1)
  return { st with
    buf := b, s := s
    build := st.build.insertPart (.string ⟨st.s, some fileidx⟩ (.mem (st.s + 1))) }

/-- `case '\''`. -/
def readChar (st : State) (fileidx : Nat) : Read State := do
  let b := st.buf
  let e ← findChar (.error st.s "missing closing '''") '\'' b (st.s + 1)
  let b ← poke b e '\x00'
  let b ← prepareString st.s '\'' (b.length + 1) b (st.s + 1) (st.s + 1)
  let second ← peek b (st.s + 2)
  if second != '\x00' then .error (.error st.s "character literal too long")
  else
    let first ← peek b (st.s + 1)
    return { st with
      buf := b, s := e + 1
      build := st.build.insertPart (.char ⟨st.s, some fileidx⟩ (signedChar first)) }

/-- The number branch of the `default` case. -/
def readNumber (st : State) (fileidx : Nat) : Read State := do
  let b := st.buf
  let a ← tokenEnd b st.s
  let tok := (b.drop st.s).take (a - st.s)
  let r : Val Ptr :=
    if tok.contains '.' then .float ⟨st.s, some fileidx⟩ tok
    else .int ⟨st.s, some fileidx⟩ (strtol (b.drop st.s))
  return { st with s := a, build := st.build.insertPart r }

/-- The identifier branch of the `default` case. -/
def readIdent (st : State) (fileidx : Nat) : Read State := do
  let (b, e) ← identEnd (st.buf.length + 1) st.buf st.s
  let b ← match st.lastidentend with
    | some l => poke b l '\x00'
    | none => pure b
  let (b, r) ← transformIdentifier (b.length + 1) b ⟨st.s, some fileidx⟩ st.s
  return { buf := b, s := e, build := st.build.insertPart r, lastidentend := some e }

/-- One turn of the loop, at a character other than NUL. `nested` is
`actual_read` itself, called for the text between two brackets. -/
def iter (nested : Buf → Nat → Val Ptr → Read (Buf × Val Ptr)) (fileidx : Nat)
    (st : State) : Read State := do
  let c ← peek st.buf st.s
  if isBlank c || isCloser c then return { st with s := st.s + 1 }
  else if isOpener c then
    let e ← closingBracket st.s st.buf (st.buf.length + 1) st.s 0
    let b ← poke st.buf e '\x00'
    let (b, r) ← nested b (st.s + 1) (.nil ⟨st.s, some fileidx⟩)
    if c == '{' then
      return { st with
        buf := b, s := e + 1, build := st.build.insertScope fileidx (.lit "scope".toList) r }
    else
      return { st with buf := b, s := e + 1, build := st.build.insertPart r }
  else if c == '"' then readString st fileidx
  else if c == '\'' then readChar st fileidx
  else if c == '#' then
    let s ← skipComment st.buf st.s
    return { st with s := s }
  else if c == ';' then
    match st.build.semi st.s with
    | none => .error (.error st.s "unexpected \";\"")
    | some b => return { st with s := st.s + 1, build := b }
  else if ← startsNumber st.buf st.s then readNumber st fileidx
  else readIdent st fileidx

/-- The local variables on entry to `actual_read(r, s, ..)`. -/
def State.start (b : Buf) (s : Nat) (r : Val Ptr) : State :=
  ⟨b, s, .start r, none⟩

/-- `actual_read`, from the head of its loop. -/
def actualRead (fileidx : Nat) : Nat → State → Read (Buf × Val Ptr)
  | 0, _ => .error .fuel
  | k + 1, st => do
    let c ← peek st.buf st.s
    if c == '\x00' then
      let b ← match st.lastidentend with
        | some l => poke st.buf l '\x00'
        | none => pure st.buf
      return (b, st.build.root)
    else
      let st ← iter (fun b a r => actualRead fileidx k (.start b a r)) fileidx st
      actualRead fileidx k st

/-- `lower_read` on a buffer that holds `text` and its terminator, with every
pointer of the result replaced by the string that stands there in the end. -/
def lowerRead (text : List Char) (fileidx : Nat) : Read (Val (List Char)) := do
  let b := text ++ ['\x00']
  let (b, r) ← actualRead fileidx (b.length + 1) (.start b 0 (.nil ⟨0, some fileidx⟩))
  return r.map (cstr b)

end Dolorem.Reader
