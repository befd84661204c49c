/-!
# Built-in functions

The functions of one argument that a formula can call.  Angles are in degrees.
-/

namespace FormulaNet

inductive Builtin
  | sqrt
  | sin
  | cos
  | tan
  deriving DecidableEq, Repr

/-- The function with the given name; upper and lower case are different. -/
def Builtin.ofName? : String → Option Builtin
  | "sqrt" => some sqrt
  | "sin" => some sin
  | "cos" => some cos
  | "tan" => some tan
  | _ => none

/-- An angle in radians.  The factor is the double nearest to a 180th of π. -/
def radians (degrees : Float) : Float :=
  degrees * .ofBits 0x3f91df46a2529d39

def Builtin.apply : Builtin → Float → Float
  | sqrt, x => x.sqrt
  | sin, x => (radians x).sin
  | cos, x => (radians x).cos
  | tan, x => (radians x).tan

end FormulaNet
