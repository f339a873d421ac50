import Mathlib.Data.String.Defs

/-!
# The Environment

What sessions and kernels read from the environment of their process, and how
they turn it into numbers and switches.

## Main definitions

* `Env`: What `getenv` gives for each name.
* `atoi`: The number a string begins with.
* `envFlag`: A switch with a default.
-/

namespace MKernel

namespace Internode

/-- What `getenv` gives for each name. -/
abbrev Env := String → Option String

/-- `isspace`. -/
def isSpace (c : Char) : Bool :=
  c = ' ' || c = '\t' || c = '\n' || c = '\x0b' || c = '\x0c' || c = '\r'

/-- The number that leading digits spell. -/
def leadingNumber (cs : List Char) : Int :=
  (cs.takeWhile Char.isDigit).foldl (fun n c => 10 * n + (c.toNat - 48 : Nat)) 0

/-- `atoi`: blanks, a sign, digits, and then anything. -/
def atoi (s : String) : Int :=
  match s.toList.dropWhile isSpace with
  | '-' :: cs => -leadingNumber cs
  | '+' :: cs => leadingNumber cs
  | cs => leadingNumber cs

/-- `e[0] == '1'`, for a variable that is set. -/
def isOne (e : String) : Bool := e.toList.head? = some '1'

/-- `env_flag`. -/
def envFlag (env : Env) (name : String) (defaultValue : Bool) : Bool :=
  match env name with
  | none => defaultValue
  | some e => isOne e

end Internode

end MKernel
