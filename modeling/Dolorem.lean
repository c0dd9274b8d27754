import Dolorem.Reader.Escape
import Dolorem.Reader.Positions
import Dolorem.Reader.Print
import Dolorem.Reader.Numerals
import Dolorem.Reader.Nesting
import Dolorem.Reader.Paths
import Dolorem.Reader.Location
import Dolorem.Reader.Stdin
import Dolorem.Codegen.Capture
import Dolorem.Codegen.Members
import Dolorem.Codegen.Numbers
import Dolorem.Codegen.Conditions
import Dolorem.Codegen.Lambdas
import Dolorem.Codegen.Scoping
import Dolorem.Codegen.Layout
import Dolorem.Codegen.Arithmetic
import Dolorem.Codegen.Calls
import Dolorem.Codegen.TypeForms
import Dolorem.Codegen.ParmLists
import Dolorem.Codegen.Quotes
import Dolorem.Symbols.Tables
import Dolorem.Symbols.Bookkeeping
import Dolorem.Memory.Contents
import Dolorem.Jit.Linking
import Dolorem.Codegen.Declarations
import Dolorem.Headers.Agreement
import Dolorem.Programs.Safety
import Dolorem.Programs.Loading
import Dolorem.Programs.Source
