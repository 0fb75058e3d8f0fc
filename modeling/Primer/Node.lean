import Primer.Instruction

/-!
Programs of the language as trees. Whether names, types and positions make sense is for the
compiler to say.
-/

set_option autoImplicit false
set_option relaxedAutoImplicit false

namespace Primer

/-- The logical operators, which look at their right side only when the left leaves it open. -/
inductive Logic where
  | and
  | or
deriving DecidableEq

/-- The operators between two expressions. -/
inductive BinaryOp where
  | arith (op : Arith)
  | order (op : Order)
  | logic (op : Logic)
  | equal
  | notEqual
deriving DecidableEq

def BinaryOp.symbol : BinaryOp → String
  | arith .add => "+"
  | arith .sub => "-"
  | arith .mul => "*"
  | arith .div => "/"
  | logic .and => "and"
  | logic .or => "or"
  | equal => "="
  | notEqual => "!="
  | order .less => "<"
  | order .greater => ">"
  | order .lessEq => "<="
  | order .greaterEq => ">="

/-- The operators in front of one expression. -/
inductive UnaryOp where
  | negate
  | invert
deriving DecidableEq

/-- A parameter of a procedure. A type that is left out is found from how the body uses it. -/
structure Param where
  name : String
  type : Option Ty
deriving DecidableEq

/-- A statement or expression. -/
inductive Node where
  | literal (value : Value)
  | unary (op : UnaryOp) (operand : Node)
  | binary (op : BinaryOp) (left right : Node)
  /-- What the statement before gave back, in the same block. -/
  | result
  | var (name : String)
  | declare (name : String) (type : Option Ty) (value : Option Node)
  | assign (name : String) (value : Node)
  | branch (condition : Node) (body : List Node) (otherwise : Option (List Node))
  | loop (condition : Node) (body : List Node)
  | times (count : Node) (body : List Node)
  | call (name : String) (arguments : List Node)
  | define (name : String) (params : List Param) (returns : Option Ty) (body : List Node)
  | convert (operand : Node) (target : Ty)
  | giveBack (value : Option Node)
  | list (items : List Node)
  /-- Items count from one. -/
  | item (index list : Node)
  | setItem (index list value : Node)

/-- A unit of statements. -/
abbrev Program := List Node

namespace Node

/-- The short name of a kind of node, for messages. -/
def kind : Node → String
  | literal (.number _) => "number literal"
  | literal (.string _) => "string literal"
  | literal (.boolean _) => "boolean literal"
  | literal (.list _) => "list literal"
  | literal .void => "void literal"
  | unary .negate _ => "negation"
  | unary .invert _ => "not"
  | binary .. => "operator"
  | result => "the result"
  | var _ => "variable"
  | declare .. => "variable declaration"
  | assign .. => "assignment"
  | branch .. => "if"
  | loop .. => "while"
  | times .. => "repeat"
  | call .. => "procedure call"
  | define .. => "procedure definition"
  | convert .. => "conversion"
  | giveBack _ => "return"
  | list _ => "list"
  | item .. => "list item"
  | setItem .. => "list item assignment"

mutual

/-- Every path through the statement ends by giving back control. -/
def alwaysReturns : Node → Bool
  | giveBack _ => true
  | branch _ body (some otherwise) => blockReturns body && blockReturns otherwise
  | _ => false

/-- The last statement of the block always returns. -/
def blockReturns : List Node → Bool
  | [] => false
  | [last] => alwaysReturns last
  | _ :: rest => blockReturns rest

end

/-- The values of nodes that are all literals. -/
def literals? : List Node → Option (List Value)
  | [] => some []
  | literal value :: rest => (literals? rest).map (value :: ·)
  | _ => none

end Node

end Primer
