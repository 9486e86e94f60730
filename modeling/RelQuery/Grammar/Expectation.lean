/-!
# What a reader of the source would have expected

Every rule of the grammar is known by what it stands for.  While a source is read, each rule that
is tried leaves a visit, with the visits of the rules it tried itself.  Out of all visits of a
failed reading come the furthest offset at which rules failed and what they stand for.
-/

namespace RelQuery.Grammar

inductive Expectation where
  | aggregate
  | arrow
  | bar
  | bracket
  | closureOperator
  | colon
  | comparisonOperator
  | domainRestriction
  | dot
  | endOfInput
  | expression
  | formula
  | identifier
  | keyword
  | number
  | property
  | quantifier
  | rangeRestriction
  | setOperator
  | string
  deriving DecidableEq, Repr

def Expectation.describe : Expectation → String
  | .aggregate => "aggregate"
  | .arrow => "\"->\""
  | .bar => "\"|\""
  | .bracket => "\"[\""
  | .closureOperator => "closure operator"
  | .colon => "\":\""
  | .comparisonOperator => "comparison operator"
  | .domainRestriction => "\"<:\""
  | .dot => "\".\""
  | .endOfInput => "end of input"
  | .expression => "expression"
  | .formula => "formula"
  | .identifier => "identifier"
  | .keyword => "keyword"
  | .number => "number"
  | .property => "property"
  | .quantifier => "quantifier"
  | .rangeRestriction => "\":>\""
  | .setOperator => "set operator"
  | .string => "string"

/-- A rule tried at an offset, whether it matched, and the rules it tried. -/
inductive Visit where
  | node (expectation : Expectation) (offset : Nat) (matched : Bool) (inner : List Visit)

/-- The rules that failed at the furthest offset so far. -/
structure Attempts where
  offset : Nat
  failed : List Expectation
  deriving DecidableEq, Repr

namespace Attempts

def none : Attempts := ⟨0, []⟩

def countAt (attempts : Attempts) (offset : Nat) : Nat :=
  if offset = attempts.offset then attempts.failed.length else 0

/-- Notes the failure of a rule at an offset, in place of the failures noted there since the
first `kept` ones.  Failures before the furthest offset are forgotten. -/
def note (attempts : Attempts) (expectation : Expectation) (offset kept : Nat) : Attempts :=
  if attempts.offset < offset then ⟨offset, [expectation]⟩
  else if offset = attempts.offset then
    ⟨offset, attempts.failed.take kept ++ [expectation]⟩
  else attempts

mutual

/-- Adds a visit.  A rule that failed stands in place of the rules it tried at the same offset,
unless exactly one of them failed there: that one says more. -/
def record (attempts : Attempts) : Visit → Attempts
  | .node expectation offset matched inner =>
    let after := attempts.recordAll inner
    if matched || after.countAt offset = attempts.countAt offset + 1 then after
    else after.note expectation offset (attempts.countAt offset)

/-- Adds visits in the order in which they were made. -/
def recordAll (attempts : Attempts) : List Visit → Attempts
  | [] => attempts
  | visit :: visits => (attempts.record visit).recordAll visits

end

end Attempts

end RelQuery.Grammar
