/-!
# Scalars

A column of a relation holds numbers or symbols.  Of the six comparisons of two scalars, equality is
asked of any two of one type, order of numbers only.
-/

namespace RelQuery

inductive ColumnType where
  | number
  | symbol
  deriving DecidableEq, Repr

namespace ColumnType

def render : ColumnType → String
  | number => "number"
  | symbol => "symbol"

def ofName? (name : String) : Option ColumnType :=
  [number, symbol].find? (·.render == name)

end ColumnType

inductive Comparison where
  | eq
  | ne
  | lt
  | gt
  | le
  | ge
  deriving DecidableEq, Repr

namespace Comparison

def symbol : Comparison → String
  | eq => "="
  | ne => "!="
  | lt => "<"
  | gt => ">"
  | le => "<="
  | ge => ">="

/-- Whether a comparison asks for more than equality, and so for numbers. -/
def isOrdering : Comparison → Bool
  | eq | ne => false
  | lt | gt | le | ge => true

def all : List Comparison :=
  [eq, ne, lt, gt, le, ge]

def ofSymbol? (symbol : String) : Option Comparison :=
  all.find? (·.symbol == symbol)

end Comparison

end RelQuery
