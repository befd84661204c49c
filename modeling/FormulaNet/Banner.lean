import FormulaNet.Fault
import FormulaNet.Settings.Basic

/-!
# The message banner

The message of the last failure stays visible for a number of ticks and fades.  A new message takes
the place of the old one and starts the count again.
-/

namespace FormulaNet

structure Banner where
  text : String
  remaining : UInt32
  /-- How many ticks a message stays visible. -/
  total : UInt32
  deriving DecidableEq, Repr

namespace Banner

/-- A banner without a message. -/
def empty (total : UInt32) : Banner where
  text := ""
  remaining := 0
  total := total

def ofSettings (settings : Settings) : Banner :=
  empty settings.messageTicks

/-- Shows a message. -/
def announce (b : Banner) (text : String) : Banner :=
  { b with text := text, remaining := b.total }

/-- Shows the message of a fault. -/
def report (b : Banner) (fault : Fault) : Banner :=
  b.announce fault.message

/-- Lets a number of ticks pass. -/
def tick (b : Banner) (ticks : Nat) : Banner :=
  { b with remaining := .ofNat (b.remaining.toNat - ticks) }

/-- The message, while it is visible. -/
def message? (b : Banner) : Option String :=
  if 0 < b.remaining then some b.text else none

/-- The part of its time that a message has left, in single precision. -/
def opacity (b : Banner) : Float32 :=
  if b.total = 0 then 0 else b.remaining.toFloat32 / b.total.toFloat32

end Banner

end FormulaNet
