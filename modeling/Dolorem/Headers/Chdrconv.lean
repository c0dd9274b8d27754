/-!
# The header converter

`chdrconv.c` prints the declarations of a C header as forms of the language.
Types and cursors are those of libclang, each with the answers to what the code
asks it. The text is `none` where the converter calls `exit(1)`.
-/

namespace Dolorem.Headers

/-! ## What libclang reports -/

/-- The kinds of `CXType` that have a `TYPE` line in `writeType`. -/
inductive Scalar where
  | void
  | bool
  | charU
  | uchar
  | ushort
  | uint
  | ulong
  | ulongLong
  | charS
  | schar
  | short
  | int
  | long
  | longLong
  | float
  | double
  | longDouble
deriving DecidableEq, Repr

/-- `CXType`. The spelling stands for `Enum`, `ConstantArray` and `Typedef`, and `other` for the
kinds that `writeType` has no case for. -/
inductive CXType where
  | scalar (k : Scalar)
  | incompleteArray (element : CXType)
  | pointer (pointee : CXType)
  | spelled (spelling : List Char)
  | elaborated (named : CXType)
  | functionProto (args : List CXType) (result : CXType)
  | record (name : List Char)
  | unexposed (canonical : CXType)
  | other

/-- The characters of C identifiers. -/
def isIdentChar (c : Char) : Bool :=
  c.isAlphanum || c == '_' || c == '$' || decide (128 ≤ c.toNat)

/-- A C identifier; `union` is a keyword. -/
structure Identifier where
  chars : List Char
  ne_nil : chars ≠ []
  ident : ∀ c ∈ chars, isIdentChar c
  no_digit : ∀ c, chars.head? = some c → c.isDigit = false
  ne_union : chars ≠ "union".toList

structure Location where
  file : List Char
  line : Nat
  column : Nat
  file_line : ∀ c ∈ file, c ≠ '\x00' ∧ c ≠ '\n'

/-- `struct Arg`. -/
structure Arg where
  name : Option Identifier
  type : CXType

/-- A `FieldDecl`. -/
structure Field where
  name : Identifier
  type : CXType
  loc : Location

/-- A `FunctionDecl`, a `VarDecl` of storage class `extern`, a `StructDecl` or a `UnionDecl`. A
struct or union need not have a tag. -/
inductive Decl where
  | function (name : Identifier) (args : List Arg) (ret : CXType)
  | var (name : Identifier) (type : CXType)
  | struct (name : Option Identifier) (fields : List Field)
  | union (name : Option Identifier) (fields : List Field)

/-- `alias` is an `EnumDecl` with a name and its integer type, or a `TypedefDecl` and its
underlying type. Any `other` cursor is skipped. -/
inductive Cursor where
  | decl (d : Decl) (loc : Location)
  | alias (name : Identifier) (type : CXType) (loc : Location)
  | other

/-! ## What is printed -/

/-- The word that a `TYPE` line prints. -/
def Scalar.word : Scalar → List Char
  | void => "void".toList
  | bool => "i8".toList
  | charU => "char".toList
  | uchar => "u8".toList
  | ushort => "u16".toList
  | uint => "u32".toList
  | ulong => "u32".toList
  | ulongLong => "u64".toList
  | charS => "char".toList
  | schar => "i8".toList
  | short => "i16".toList
  | int => "i32".toList
  | long => "i32".toList
  | longLong => "i64".toList
  | float => "sfloat".toList
  | double => "float".toList
  | longDouble => "lfloat".toList

namespace CXType

/-- `kind == CXType_Void`. -/
def isVoid : CXType → Bool
  | scalar .void => true
  | _ => false

/-- `kind == CXType_Elaborated`. -/
def isElaborated : CXType → Bool
  | elaborated _ => true
  | _ => false

end CXType

/-- `(T name)`, as in `writeFun` and for a `FunctionProto`. -/
def parmText (type name : List Char) : List Char :=
  "(".toList ++ type ++ " ".toList ++ name ++ ")".toList

/-- The loops over the parameters print a space before all but the first one. -/
def spaced : List (List Char) → List Char
  | [] => []
  | [w] => w
  | w :: v :: ws => w ++ " ".toList ++ spaced (v :: ws)

def ptrText (type : List Char) : List Char :=
  "(ptr ".toList ++ type ++ ")".toList

mutual

/-- `writeType`. -/
def writeType : CXType → Option (List Char)
  | .scalar k => some k.word
  | .incompleteArray pointee =>
    if !pointee.isVoid then (writeType pointee).map ptrText else some "ptr".toList
  | .pointer pointee =>
    match pointee with
    | .unexposed canonical => writeType canonical
    | pointee =>
      if !pointee.isVoid && !pointee.isElaborated then (writeType pointee).map ptrText
      else some "ptr".toList
  | .spelled spelling => some spelling
  | .elaborated named => writeType named
  | .functionProto args result => do
    let args ← writeArgs args
    let result ← writeType result
    some ("(funptr (".toList ++ spaced args ++ ") ".toList ++ result ++ ")".toList)
  | .record name => some name
  | .unexposed _ => none
  | .other => none

/-- The parameters of a `FunctionProto`. -/
def writeArgs : List CXType → Option (List (List Char))
  | [] => some []
  | type :: types => do
    let type ← writeType type
    let types ← writeArgs types
    some (parmText type "_".toList :: types)

end

/-- The name of a parameter. -/
def Arg.word (a : Arg) : List Char :=
  match a.name with
  | some name => name.chars
  | none => "_".toList

/-- The parameters of a function. -/
def writeFunArgs : List Arg → Option (List (List Char))
  | [] => some []
  | a :: as => do
    let type ← writeType a.type
    let rest ← writeFunArgs as
    some (parmText type a.word :: rest)

/-- `writeFun`. -/
def writeFun (rettype : CXType) (name : Identifier) (args : List Arg) : Option (List Char) := do
  let args ← writeFunArgs args
  let rettype ← writeType rettype
  some ("funproto ".toList ++ name.chars ++ " (".toList ++ spaced args ++ ") ".toList ++ rettype ++
    "; ".toList)

/-- `writeLocation`. -/
def writeLocation (loc : Location) : List Char :=
  "# Found in ".toList ++ loc.file ++ ":".toList ++ Nat.toDigits 10 loc.line ++ ":".toList ++
    Nat.toDigits 10 loc.column ++ "\n".toList

/-- `structVisitor`, for all fields. -/
def structVisitor : List Field → Option (List Char)
  | [] => some []
  | f :: fs => do
    let type ← writeType f.type
    let rest ← structVisitor fs
    some ("  ".toList ++ type ++ " ".toList ++ f.name.chars ++ "; ".toList ++ writeLocation f.loc ++
      rest)

/-- The spelling of the cursor of a struct or union. -/
def tagText : Option Identifier → List Char
  | some name => name.chars
  | none => []

/-- What `visitor` prints before the location. -/
def writeDecl : Decl → Option (List Char)
  | .function name args ret => writeFun ret name args
  | .var name type => do
    let type ← writeType type
    some ("external-global ".toList ++ type ++ " ".toList ++ name.chars ++ "; ".toList)
  | .struct name fields => do
    let fields ← structVisitor fields
    some ("defstruct ".toList ++ tagText name ++ " (\n".toList ++ fields ++ "); ".toList)
  | .union name fields => do
    let fields ← structVisitor fields
    some ("defstruct ".toList ++ tagText name ++ " (\n union (\n".toList ++ fields ++
      " );\n); ".toList)

/-- `visitor`. -/
def visitor : Cursor → Option (List Char)
  | .decl d loc => (writeDecl d).map (· ++ writeLocation loc)
  | .alias name type loc => (writeType type).map fun type =>
    "create-alias ".toList ++ name.chars ++ " ".toList ++ type ++ "; ".toList ++ writeLocation loc
  | .other => some []

end Dolorem.Headers
