import FormulaNet.Formula.Mention

/-!
# Faults

What can go wrong in a formula or in an operation on the net, by cause, and the message that a
user reads.
-/

namespace FormulaNet

/-- Why a text is not a formula. -/
inductive SyntaxFault
  | nestedTooDeeply
  /-- A parenthesis that groups has no partner. -/
  | unclosed
  /-- The parenthesis after a function name has no partner. -/
  | unclosedArgument (function : String)
  | malformedNumber (literal : String)
  /-- The character cannot begin an operand. -/
  | unexpected (c : Char)
  /-- The text ends where an operand has to begin. -/
  | unfinished
  /-- The character follows a complete formula. -/
  | trailing (c : Char)
  deriving DecidableEq, Repr

/-- Why a mention has no target. -/
inductive ReferenceFault
  /-- Neither a letter nor a digit follows the `@`. -/
  | malformed
  | missing (token : String)
  /-- The only candidate is the node that holds the formula. -/
  | itself (token : String)
  deriving DecidableEq, Repr

/-- Why a node cannot have a name. -/
inductive NameFault
  | notLetters
  | taken (name : String)
  deriving DecidableEq, Repr

/-- Everything that an operation reports as failed. -/
inductive Fault
  | syntactic (cause : SyntaxFault)
  | reference (cause : ReferenceFault)
  | unknownFunction (name : String)
  | notANumber (text : String)
  | invalidName (cause : NameFault)
  /-- A walk over dependents went deeper than the limit. -/
  | cycle (limit : Nat)
  | unknownNode (id : NodeId)
  deriving DecidableEq, Repr

def SyntaxFault.message : SyntaxFault → String
  | nestedTooDeeply => "Formula is nested too deeply"
  | unclosed => "Missing ')'"
  | unclosedArgument function => "Missing ')' after argument of " ++ function
  | malformedNumber literal => "Malformed number: " ++ literal
  | unexpected c => "Unexpected character: " ++ c.toString
  | unfinished => "Unexpected end of formula"
  | trailing c => "Unexpected: " ++ c.toString

def ReferenceFault.message : ReferenceFault → String
  | malformed => "Invalid reference to node"
  | missing token => "Node " ++ token ++ " does not exist"
  | itself token => "Node " ++ token ++ " cannot reference itself"

def NameFault.message : NameFault → String
  | notLetters => "Node name cannot contain numbers or symbols"
  | taken name => "Node name " ++ name ++ " is already in use"

/-- The message for the user. -/
def Fault.message : Fault → String
  | syntactic cause => cause.message
  | reference cause => cause.message
  | unknownFunction name => "Unknown function: " ++ name
  | notANumber text => text ++ " cannot be parsed as a number"
  | invalidName cause => cause.message
  | cycle limit => "Cyclical referencing error (depth limit " ++ toString limit ++ " exceeded)"
  | unknownNode id => "Node #" ++ toString id ++ " does not exist"

end FormulaNet
