import SolutionFlow.Expression.Eval

/-!
Grouping: rows with the same key go into one group, groups come in the order of their first rows,
and each yields one row with its key and its aggregates.
-/

namespace SolutionFlow

/-- The key of a row: what it binds the grouping names to, each of which may be unbound. -/
abbrev GroupKey := List (Option Term)

/-- What to group by, and what to compute for each group. -/
structure Grouping where
  names : List String
  elements : List (String × Aggregate)

/-- The least of some terms, the first one if several are equal. -/
def Term.least? : List Term → Option Term
  | [] => none
  | term :: rest => some (rest.foldl (fun a b => if b.cmp a = .lt then b else a) term)

/-- The greatest of some terms. -/
def Term.greatest? : List Term → Option Term
  | [] => none
  | term :: rest => some (rest.foldl (fun a b => if b.cmp a = .lt then a else b) term)

/-- The sum of some terms, added up from the left; there is none if an addition fails. -/
def Term.sum? (terms : List Term) : Option Term :=
  terms.foldl
    (fun total term =>
      match total with
      | none => none
      | some t => (Arithmetic.add.apply t term).toOption)
    (some (.integer 0))

/-- The mean of some terms; that of none is the integer zero. -/
def Term.mean? (terms : List Term) : Option Term :=
  if terms.isEmpty then some (.integer 0)
  else do
    let total ← Term.sum? terms
    let value ← total.toDouble?
    return .double (value / Double.ofInt terms.length)

/-- How many there are, as a term. -/
def Term.ofCount (n : Nat) : Term := .integer (Int64.ofNat n)

namespace AggregateFunction

/-- The value of an aggregate over its inputs, if it has one. -/
def apply : AggregateFunction → List Term → Option Term
  | .count, inputs => some (.ofCount inputs.length)
  | .sum, inputs => Term.sum? inputs
  | .avg, inputs => Term.mean? inputs
  | .min, inputs => Term.least? inputs
  | .max, inputs => Term.greatest? inputs
  | .sample, inputs => inputs.head?

end AggregateFunction

namespace Aggregate

/-- The values of an argument on the rows of a group. A row on which it has none because of its
type is left out; a failed query fails the whole. -/
def inputs (around : Surroundings) (arg : Expr) :
    List Solution → ExceptT QueryError Timed (List Term)
  | [] => return []
  | row :: rest => do
    let value ← arg.value? around row
    let terms ← inputs around arg rest
    return value.toList ++ terms

/-- The value of an aggregate over the rows of a group, if it has one. -/
def eval (around : Surroundings) (call : Aggregate) (rows : List Solution) :
    ExceptT QueryError Timed (Option Term) :=
  match call.arg with
  | none => return some (.ofCount (if call.distinct then rows.eraseDups else rows).length)
  | some arg => do
    let terms ← inputs around arg rows
    return call.function.apply (if call.distinct then terms.eraseDups else terms)

end Aggregate

namespace Grouping

def key (g : Grouping) (row : Solution) : GroupKey := g.names.map row.get?

/-- Adds a row to the group of its key, or starts that group behind the others. -/
def addRow (key : GroupKey) (row : Solution) :
    List (GroupKey × List Solution) → List (GroupKey × List Solution)
  | [] => [(key, [row])]
  | (k, rows) :: rest =>
    if k = key then (k, rows ++ [row]) :: rest else (k, rows) :: addRow key row rest

/-- Puts the rows of an input into groups one after another, behind those that are there. The input is closed
at its end, and at its first failure, with which the grouping ends. -/
def collect (g : Grouping) (groups : List (GroupKey × List Solution)) :
    List Item → Except QueryError (List (GroupKey × List Solution)) × Iteration
  | [] => (.ok groups, (Iteration.items []).close)
  | .error e :: rest => (.error e, (Iteration.items rest).close)
  | .ok row :: rest => g.collect (addRow (g.key row) row groups) rest

/-- The groups of some rows. Without grouping names there is always a group, even of no rows. -/
def groups (g : Grouping) (rows : List Solution) : List (GroupKey × List Solution) :=
  let found := rows.foldl (fun groups row => addRow (g.key row) row groups) []
  if found.isEmpty && g.names.isEmpty then [([], [])] else found

/-- The bindings of a key, over those of the seed. -/
def bindKey (g : Grouping) (seed : Solution) (key : GroupKey) : Solution :=
  (g.names.zip key).foldl
    (fun row entry =>
      match entry.2 with
      | some term => row.insert entry.1 term
      | none => row)
    seed

/-- Binds the aggregates of a group one after another; those without a value stay unbound. -/
def bindAggregates (around : Surroundings) (rows : List Solution) :
    Solution → List (String × Aggregate) → ExceptT QueryError Timed Solution
  | result, [] => return result
  | result, (name, call) :: rest => do
    match ← call.eval around rows with
    | some term => bindAggregates around rows (result.insert name term) rest
    | none => bindAggregates around rows result rest

/-- The row of one group. -/
def row (g : Grouping) (around : Surroundings) (seed : Solution)
    (group : GroupKey × List Solution) : ExceptT QueryError Timed Solution :=
  bindAggregates around group.2 (g.bindKey seed group.1) g.elements

/-- One row for each group of the input. The first failure in the input is the outcome. -/
def eval (g : Grouping) (around : Surroundings) (seed : Solution) (input : List Item) :
    ExceptT QueryError Timed (List Solution) := do
  let rows ← (input.mapM id : Except QueryError (List Solution))
  (g.groups rows).mapM (g.row around seed)

/-- The evaluation step by step: the input is read first, and what is left of it is told with the outcome. -/
def evalOn (g : Grouping) (around : Surroundings) (seed : Solution) (input : List Item) :
    Timed (Except QueryError (List Solution) × Iteration) :=
  match g.collect [] input with
  | (.error e, rest) => return (.error e, rest)
  | (.ok found, rest) => do
    let groups := if found.isEmpty && g.names.isEmpty then [([], [])] else found
    return (← (groups.mapM (g.row around seed)).run, rest)

end Grouping

end SolutionFlow
