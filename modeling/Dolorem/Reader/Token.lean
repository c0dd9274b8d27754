import Dolorem.Reader.Read

/-!
# The reader without its buffer

The same reader as a function on the text that is left to read. Nothing is
overwritten here: a nested list is the piece of text between its brackets, an
identifier is its characters, a string literal is decoded into a new list.
`Refine` proves that `lowerRead` computes exactly this (`lowerRead_eq`).

`nextToken` takes one turn of the loop apart into what is read and what is left.
-/

namespace Dolorem.Reader

/-! ## The bracket pre-scan -/

/-- Outcome of the pre-scan on the text behind an opening bracket. -/
inductive Closing where
  | found (body rest : List Char)
  | missing
  | overrun
deriving DecidableEq, Repr

namespace Closing

/-- The pre-scan passed `c` first. -/
def push (c : Char) : Closing → Closing
  | found body rest => found (c :: body) rest
  | missing => missing
  | overrun => overrun

@[simp] theorem push_found_iff {c : Char} {x : Closing} {body rest : List Char} :
    x.push c = found body rest ↔ ∃ body', body = c :: body' ∧ x = found body' rest := by
  cases x with
  | found b r =>
    simp only [push, found.injEq]
    constructor
    · rintro ⟨rfl, rfl⟩
      exact ⟨b, rfl, rfl, rfl⟩
    · rintro ⟨_, rfl, rfl, rfl⟩
      exact ⟨rfl, rfl⟩
  | missing => simp [push]
  | overrun => simp [push]

@[simp] theorem push_missing_iff {c : Char} {x : Closing} : x.push c = missing ↔ x = missing := by
  cases x <;> simp [push]

@[simp] theorem push_overrun_iff {c : Char} {x : Closing} : x.push c = overrun ↔ x = overrun := by
  cases x <;> simp [push]

end Closing

/-- The pre-scan with `n` brackets open; the flag tells that it is in a comment.
String and character literals are scanned like any other text. A comment that
runs to the end of the text takes the cursor over the terminator. -/
def closer : Bool → Nat → List Char → Closing
  | false, _, [] => .missing
  | true, _, [] => .overrun
  | true, n, c :: R => (closer (c != '\n') n R).push c
  | false, n, c :: R =>
    if c == '#' then (closer true n R).push c
    else if isOpener c then (closer false (n + 1) R).push c
    else if isCloser c then
      if n == 1 then .found [] R else (closer false (n - 1) R).push c
    else (closer false n R).push c

/-! ## Literals -/

/-- The rest of a string literal: `some p` inside a part, `p` being the
character before, and `none` between two parts. The result is the text up to
the last closing quote, and what follows it. -/
def literal (pos : Nat) : Option Char → List Char → Read (List Char × List Char)
  | some _, [] => .error (.error pos "missing closing '\"'")
  | none, [] => .error (.error pos "expected next part of string literal, found EOF")
  | some p, c :: R =>
    if c == '"' && p != '\\' then
      if R.head? == some '\\' then (fun x => (c :: x.1, x.2)) <$> literal pos none R
      else .ok ([], R)
    else (fun x => (c :: x.1, x.2)) <$> literal pos (some c) R
  | none, c :: R =>
    if c == '"' then (fun x => (c :: x.1, x.2)) <$> literal pos (some '"') R
    else if isBlank c || c == '\\' then (fun x => (c :: x.1, x.2)) <$> literal pos none R
    else .error (.error pos ("expected next part of string literal or " ++
      "whitespace, found something else"))

/-- `prepare_string` on the text of a literal; the flag tells that the gap
between two parts is being skipped. -/
def decode (pos : Nat) (type : Char) : Bool → List Char → Read (List Char)
  | true, [] => .error (.internal "prepare_string found invalid multi-part string")
  | false, [] => .ok []
  | true, c :: R => decode pos type (c != type) R
  | false, c :: R =>
    if c == type then decode pos type true R
    else if c == '\\' then
      match R with
      | [] => .error (invalidControlSequence pos '\x00')
      | d :: R => do
        let x ← controlSequence pos d
        (x :: ·) <$> decode pos type false R
    else (c :: ·) <$> decode pos type false R

theorem decode_quote (pos : Nat) (type : Char) (R : List Char) :
    decode pos type false (type :: R) = decode pos type true R := by
  cases R <;> simp [decode]

theorem decode_escape (pos : Nat) {type : Char} (h : '\\' ≠ type) (d : Char) (R : List Char) :
    decode pos type false ('\\' :: d :: R) =
      controlSequence pos d >>= fun x => (x :: ·) <$> decode pos type false R := by
  simp [decode, h]

theorem decode_escape_nil (pos : Nat) {type : Char} (h : '\\' ≠ type) :
    decode pos type false ['\\'] = .error (invalidControlSequence pos '\x00') := by
  simp [decode, h]

theorem decode_plain (pos : Nat) {type c : Char} (h : c ≠ type) (hb : c ≠ '\\') (R : List Char) :
    decode pos type false (c :: R) = (c :: ·) <$> decode pos type false R := by
  cases R <;> simp [decode, h, hb]

/-- A character literal behind its opening quote. -/
def charLiteral (pos : Nat) (R : List Char) : Read (Int × List Char) :=
  match R.dropWhile (· != '\'') with
  | [] => .error (.error pos "missing closing '''")
  | _ :: rest => do
    match ← decode pos '\'' false (R.takeWhile (· != '\'')) with
    | [] => if rest = [] then .ok (0, rest) else .error (.error pos "character literal too long")
    | [x] => .ok (signedChar x, rest)
    | _ => .error (.error pos "character literal too long")

/-! ## Tokens -/

/-- What one turn of the loop of `actual_read` reads. -/
inductive Token where
  | skip
  | semi
  | group (curly : Bool) (body : List Char)
  | int (i : Int)
  | float (tok : List Char)
  | string (s : List Char)
  | char (i : Int)
  | ident (tok : List Char)
deriving DecidableEq, Repr

/-- `for C compatibility`. -/
def dashToUnderscore (c : Char) : Char :=
  if c == '-' then '_' else c

/-- The token at the head of a text. -/
def word (R : List Char) : List Char :=
  R.takeWhile (!endsToken ·)

/-- The text behind the token at its head. -/
def afterWord (R : List Char) : List Char :=
  R.dropWhile (!endsToken ·)

/-- `startsNumber` on a text. -/
def numeric : List Char → Bool
  | '-' :: d :: _ => !endsToken d
  | c :: _ => isDigit c
  | [] => false

/-- A number token. -/
def numberToken (tok : List Char) : Token :=
  if tok.contains '.' then .float tok else .int (strtol tok)

/-- One turn of the loop, at offset `pos`. -/
def nextToken (pos : Nat) : List Char → Read (Token × List Char)
  | [] => .error .fuel
  | c :: R =>
    if isBlank c || isCloser c then .ok (.skip, R)
    else if isOpener c then
      match closer false 1 R with
      | .found body rest => .ok (.group (c == '{') body, rest)
      | .missing => .error (.error pos "missing closing parentheses")
      | .overrun => .error .overrun
    else if c == '"' then do
      let (raw, rest) ← literal pos (some '"') R
      let s ← decode pos '"' false raw
      return (.string s, rest)
    else if c == '\'' then do
      let (i, rest) ← charLiteral pos R
      return (.char i, rest)
    else if c == '#' then .ok (.skip, R.dropWhile (· != '\n'))
    else if c == ';' then .ok (.semi, R)
    else if numeric (c :: R) then .ok (numberToken (word (c :: R)), afterWord (c :: R))
    else .ok (.ident ((word (c :: R)).map dashToUnderscore), afterWord (c :: R))

/-! ## Trees -/

/-- The pieces of a word before and behind its last colon. -/
def splitColon : List Char → Option (List Char × List Char)
  | [] => none
  | c :: w =>
    match splitColon w with
    | some (a, b) => some (c :: a, b)
    | none => if c == ':' then some ([], w) else none

/-- The node for the segment behind a colon. -/
def segmentVal (loc : Loc) (w : List Char) : Val (List Char) :=
  if numeric w then
    if w.contains '.' then .float loc w else .int loc (strtol w)
  else .ident loc w

/-- The tree of an identifier token; the number bounds the colons in it. -/
def identVal (loc : Loc) : Nat → List Char → Val (List Char)
  | 0, w => .ident loc w
  | k + 1, w =>
    match splitColon w with
    | none => .ident loc w
    | some (a, b) =>
      if a = [] ∨ b = [] then .ident loc w
      else
        let inner : Loc := ⟨loc.fileIdx.getD 0, none⟩
        .cons loc (.ident loc "memb".toList)
          (.cons inner (identVal loc k a) (.cons inner (segmentVal loc b) (.nil ⟨0, some 0⟩)))

/-- The node of an atom at `loc`. -/
def atomVal (loc : Loc) : Token → Val (List Char)
  | .int i => .int loc i
  | .float t => .float loc t
  | .string s => .string loc s
  | .char i => .char loc i
  | .ident w => identVal loc w.length w
  | _ => .nil loc

/-- What the token at `pos` does to the list under construction. `nested` reads
the text between two brackets. -/
def addToken (nested : Nat → List Char → Build (List Char) → Read (Val (List Char)))
    (fileidx pos : Nat) (b : Build (List Char)) : Token → Read (Build (List Char))
  | .skip => .ok b
  | .semi =>
    match b.semi pos with
    | none => .error (.error pos "unexpected \";\"")
    | some b => .ok b
  | .group curly body => do
    let r ← nested (pos + 1) body (.start (.nil ⟨pos, some fileidx⟩))
    if curly then return b.insertScope fileidx "scope".toList r else return b.insertPart r
  | t => .ok (b.insertPart (atomVal ⟨pos, some fileidx⟩ t))

/-- One turn of the loop: the text that is left, and the list so far. -/
def turn (nested : Nat → List Char → Build (List Char) → Read (Val (List Char)))
    (fileidx pos : Nat) (text : List Char) (b : Build (List Char)) :
    Read (List Char × Build (List Char)) := do
  let (t, rest) ← nextToken pos text
  let b ← addToken nested fileidx pos b t
  return (rest, b)

/-- The tree that `text` at offset `pos` is read to, appended to `b`. -/
def readText (fileidx : Nat) :
    Nat → Nat → List Char → Build (List Char) → Read (Val (List Char))
  | 0, _, _, _ => .error .fuel
  | _ + 1, _, [], b => .ok b.root
  | k + 1, pos, c :: R, b => do
    let (rest, b) ← turn (readText fileidx k) fileidx pos (c :: R) b
    readText fileidx k (pos + ((c :: R).length - rest.length)) rest b

end Dolorem.Reader
