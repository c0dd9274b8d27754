import Dolorem.Reader.Read

/-!
# Reading standard input

`read_string_from_stdin` reads until `feof` is set, which `fread` only does when
it is asked for more than there is. The index minus one that is compared with
the size of the buffer wraps at the start, so the first pass doubles the buffer
and no later one does.
-/

namespace Dolorem.Reader

/-- What is left of standard input, and its end-of-file flag. -/
structure Stdin where
  rest : List Char
  eof : Bool
deriving DecidableEq, Repr

namespace Stdin

/-- `fread(…, 1, n, stdin)`: the bytes it delivers. -/
def fread (n : Nat) (stdin : Stdin) : List Char × Stdin :=
  (stdin.rest.take n, ⟨stdin.rest.drop n, stdin.eof || decide (stdin.rest.length < n)⟩)

/-- A subtraction in `size_t`. -/
def sizeSub (a b : Nat) : Nat := (a + 2 ^ 64 - b) % 2 ^ 64

/-- The buffer `s`, `none` where nothing has been written yet, with `i` and `size`. -/
structure Input where
  s : List (Option Char)
  i : Nat
  size : Nat
deriving DecidableEq, Repr

/-- `malloc(size = 4092)`. -/
def Input.init : Input := ⟨List.replicate 4092 none, 0, 4092⟩

/-- `realloc(s, size <<= 1)`. -/
def Input.double (b : Input) : Input :=
  let size := b.size * 2 % 2 ^ 64
  ⟨(b.s ++ List.replicate size none).take size, b.i, size⟩

/-- Bytes written from `s + i` on. -/
def Input.store (b : Input) (bytes : List Char) : Read Input :=
  if b.i + bytes.length ≤ b.s.length then
    .ok { b with s := b.s.take b.i ++ bytes.map some ++ b.s.drop (b.i + bytes.length) }
  else .error .overrun

/-- The loop of `read_string_from_stdin`. -/
def readLoop : Nat → Stdin → Input → Read Input
  | 0, _, _ => .error .fuel
  | n + 1, stdin, b =>
    if stdin.eof then .ok b
    else do
      let b := if b.size ≤ sizeSub b.i 1 then b.double else b
      let (bytes, stdin) := stdin.fread (sizeSub (sizeSub b.size b.i) 1)
      let b ← b.store bytes
      readLoop n stdin { b with i := b.i + bytes.length }

/-- `read_string_from_stdin`: the buffer, and `*len`. -/
def readStringFromStdin (fuel : Nat) (stdin : Stdin) : Read (List (Option Char) × Nat) := do
  let b ← readLoop fuel stdin Input.init
  let b ← b.store ['\x00']
  return (b.s, b.i)

/-- The run ends, and returns the input followed by a NUL. -/
def ReadWhole (input : List Char) : Prop :=
  ∃ fuel s, readStringFromStdin fuel ⟨input, false⟩ = .ok (s, input.length) ∧
    s.take (input.length + 1) = (input ++ ['\x00']).map some

/-! ## The first pass and the ones after it -/

section

variable {b : Input} {bytes input : List Char} {fuel : Nat} {stdin : Stdin}

theorem Input.store_eq (h : b.i + bytes.length ≤ b.s.length) : b.store bytes =
    .ok { b with s := b.s.take b.i ++ bytes.map some ++ b.s.drop (b.i + bytes.length) } :=
  if_pos h

/-- The size after the first pass; the last byte is kept for the NUL. -/
def firstSize : Nat := 2 * 4092

theorem Input.double_init : Input.init.double =
    ⟨(Input.init.s ++ List.replicate firstSize none).take firstSize, 0, firstSize⟩ := rfl

theorem Input.double_init_length : Input.init.double.s.length = firstSize := by
  rw [double_init, List.length_take, List.length_append, List.length_replicate]
  exact Nat.min_eq_left (Nat.le_add_left _ _)

/-- The first pass asks for all of the doubled buffer but one byte. -/
theorem readLoop_first : readLoop (fuel + 1) ⟨input, false⟩ Input.init =
    readLoop fuel ⟨input.drop (firstSize - 1), decide (input.length < firstSize - 1)⟩
      ⟨(input.take (firstSize - 1)).map some ++
        Input.init.double.s.drop (input.take (firstSize - 1)).length,
        (input.take (firstSize - 1)).length, firstSize⟩ := by
  have hdouble : Input.init.size ≤ sizeSub Input.init.i 1 := by decide
  have hasked : sizeSub (sizeSub Input.init.double.size Input.init.double.i) 1 = firstSize - 1 := by
    decide
  have hfits : Input.init.double.i + (input.take (firstSize - 1)).length ≤
      Input.init.double.s.length := by
    rw [Input.double_init_length, List.length_take]
    exact (Nat.zero_add _).trans_le ((Nat.min_le_left _ _).trans (Nat.sub_le _ _))
  rw [readLoop, if_neg Bool.false_ne_true, if_pos hdouble]
  simp only [fread, hasked, Input.store_eq hfits, Read.ok_bind, Bool.false_or]
  rw [show Input.init.double.i = 0 from rfl, List.take_zero, List.nil_append, Nat.zero_add]
  rfl

/-- By induction on the fuel: with all but one byte of the buffer filled, `fread` is asked for
nothing, and the flag stays as it is. -/
theorem readLoop_stuck (heof : stdin.eof = false) (hi : b.i = firstSize - 1)
    (hsize : b.size = firstSize) (hs : b.s.length = firstSize) :
    readLoop fuel stdin b = .error .fuel := by
  induction fuel generalizing stdin b with
  | zero => rfl
  | succ n ih =>
    have hkeep : ¬ b.size ≤ sizeSub b.i 1 := by
      rw [hi, hsize]
      decide
    have hasked : sizeSub (sizeSub b.size b.i) 1 = 0 := by
      rw [hi, hsize]
      decide
    have hfits : b.i + (stdin.rest.take 0).length ≤ b.s.length := by
      rw [List.take_zero, List.length_nil, hi, hs]
      exact Nat.sub_le _ _
    rw [readLoop, if_neg (by rw [heof]; exact Bool.false_ne_true), if_neg hkeep]
    simp only [fread, hasked, Input.store_eq hfits, Read.ok_bind]
    apply ih
    · simp [heof]
    · simpa using hi
    · exact hsize
    · simpa using hs

/-- A longer input keeps the loop running. -/
theorem ReadWhole.short (h : ReadWhole input) : input.length + 1 < firstSize := by
  obtain ⟨fuel, s, h, -⟩ := h
  refine Nat.lt_of_not_le fun hle => ?_
  have hlen : (input.take (firstSize - 1)).length = firstSize - 1 := by
    rw [List.length_take]
    exact Nat.min_eq_left (Nat.sub_le_of_le_add hle)
  have hstuck : readLoop fuel ⟨input, false⟩ Input.init = .error .fuel := by
    cases fuel with
    | zero => rfl
    | succ n =>
      rw [readLoop_first]
      refine readLoop_stuck (decide_eq_false (by omega)) hlen rfl ?_
      rw [List.length_append, List.length_map, List.length_drop, Input.double_init_length, hlen]
      rfl
  rw [readStringFromStdin, hstuck] at h
  cases h

/-- A shorter one is delivered in the first pass. -/
theorem readWhole_of_short (h : input.length + 1 < firstSize) : ReadWhole input := by
  have htake : input.take (firstSize - 1) = input := List.take_of_length_le (by omega)
  have heof : decide (input.length < firstSize - 1) = true := decide_eq_true (by omega)
  have hlen : (input.map some ++ Input.init.double.s.drop input.length).length = firstSize := by
    rw [List.length_append, List.length_map, List.length_drop, Input.double_init_length]
    omega
  have hfits : input.length + ['\x00'].length ≤
      (input.map some ++ Input.init.double.s.drop input.length).length := by
    rw [hlen]
    exact Nat.le_of_lt h
  have hrun : readLoop 2 ⟨input, false⟩ Input.init =
      .ok ⟨input.map some ++ Input.init.double.s.drop input.length, input.length, firstSize⟩ := by
    rw [readLoop_first, htake, heof, readLoop, if_pos rfl]
  refine ⟨2, input.map some ++ ['\x00'].map some ++
    (input.map some ++ Input.init.double.s.drop input.length).drop (input.length + 1), ?_, ?_⟩
  · rw [readStringFromStdin, hrun, Read.ok_bind, Input.store_eq hfits]
    dsimp only
    rw [List.take_left' (List.length_map _)]
    rfl
  · rw [← List.map_append]
    exact List.take_left' (by simp)

end

/-- Standard input is read whole if and only if it leaves room for the NUL and one more byte in
the doubled buffer; otherwise the loop does not end. -/
theorem read_whole_iff (input : List Char) : ReadWhole input ↔ input.length + 1 < firstSize :=
  ⟨ReadWhole.short, readWhole_of_short⟩

/-- The shortest input that is too long. -/
theorem long_input_hangs : ¬ ReadWhole (List.replicate (firstSize - 1) 'a') := by
  intro h
  have hlen := h.short
  rw [List.length_replicate] at hlen
  exact absurd hlen (by decide)

end Stdin

end Dolorem.Reader
