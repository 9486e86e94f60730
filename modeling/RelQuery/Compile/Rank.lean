import RelQuery.Compile.Definition

/-!
# Ranks and concatenation

The tuples of a relation are numbered from zero, in an order that the engine picks.  Two choice
domains see to it that every tuple has one rank and every rank one tuple, for every value of the
parameters.  A concatenation adds up the symbols of the last column by rank and keeps the text at
the highest rank.
-/

namespace RelQuery.Compile

open Datalog (Term Literal Rule ScalarExpr)

/-- What stands between two symbols of a concatenation. -/
def separator : String := ","

def successor (name : String) : ScalarExpr :=
  .binary .add (.term (.var name)) (.term (.number 1))

/-- The relation that numbers the tuples of `a`, with the rank as its first column. -/
def rank (a : Predicate) : Emit Definition := do
  ensureColumn "Operand of index" a
  let name ← freshRelation
  let ranked : Predicate := ⟨name, .named .number "idx" :: a.columns, a.params⟩
  let attributes := ranked.attributeNames
  let vars ← freshVars a.columns
  let previous ← freshVar "idx"
  let next ← freshVar "idx"
  return {
    predicate := ranked
    label := "index"
    choiceDomains := [attributes.tail, attributes.take 1 ++ a.params.map paramVar]
    rules := [
      ⟨ranked.atom (.number 0 :: vars.map .var), [.positive (a.atomOf vars)]⟩,
      ⟨ranked.atomOf (next :: vars),
        [.positive (ranked.atom (.var previous :: a.wildcards)), .positive (a.atomOf vars),
          .assign next (successor previous)]⟩] }

/-- The tuples of `a` behind their ranks. -/
def emitIndex (a : Predicate) : Emit Emission := do
  let ranked ← rank a
  return ⟨[], ranked⟩

/-- The texts added up to every rank. -/
def accumulator (a ranked : Predicate) : Emit Definition := do
  let name ← freshRelation
  let sums : Predicate := ⟨name, [.named .number "idx", .named .symbol "acc"], a.params⟩
  let item := fun (rank : Term) (text : String) =>
    ranked.atom (rank :: a.wildcards.dropLast ++ [.var text])
  let first ← freshVar "str"
  let previousRank ← freshVar "idx"
  let previousSum ← freshVar "acc"
  let rank ← freshVar "idx"
  let text ← freshVar "str"
  let sum ← freshVar "acc"
  return {
    predicate := sums
    label := "concat accumulator"
    choiceDomains := []
    rules := [
      ⟨sums.atom [.number 0, .var first], [.positive (item (.number 0) first)]⟩,
      ⟨sums.atomOf [rank, sum],
        [.positive (sums.atomOf [previousRank, previousSum]), .positive (item (.var rank) text),
          .assign rank (successor previousRank),
          .assign sum (.cat [.term (.var previousSum), .term (.symbol separator),
            .term (.var text)])]⟩] }

def highestRank (a ranked : Predicate) : Emit Definition := do
  let name ← freshRelation
  let top : Predicate := ⟨name, [.named .number "top"], a.params⟩
  let highest ← freshVar "top"
  let each ← freshVar "idx"
  return {
    predicate := top
    label := "concat top index"
    choiceDomains := []
    rules := [
      ⟨top.atomOf [highest],
        [.positive ranked.wildcardAtom,
          .aggregate ⟨highest, .max, some each, ranked.atom (.var each :: a.wildcards)⟩]⟩] }

/-- The text at the highest rank. -/
def concatenated (sums top : Predicate) : Emit Definition := do
  let name ← freshRelation
  let result : Predicate := ⟨name, [.named .symbol "concat"], sums.params⟩
  let highest ← freshVar "top"
  let text ← freshVar "str"
  return {
    predicate := result
    label := "concat"
    choiceDomains := []
    rules := [
      ⟨result.atomOf [text],
        [.positive (top.atomOf [highest]), .positive (sums.atomOf [highest, text])]⟩] }

/-- The symbols in the last column of `a`, joined by commas. -/
def emitConcat (a : Predicate) : Emit Emission := do
  match a.lastType? with
  | none => throw (.arityMismatch "Operand of concat" .positive 0)
  | some last => ensureType "Last column of concat operand" .symbol last
  let ranked ← rank a
  let sums ← accumulator a ranked.predicate
  let top ← highestRank a ranked.predicate
  let result ← concatenated sums.predicate top.predicate
  return ⟨[ranked, sums, top], result⟩

end RelQuery.Compile
