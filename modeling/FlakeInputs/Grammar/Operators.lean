import FlakeInputs.Grammar.Reader

/-!
# Operators

The infix operators in levels, from the loosest to the tightest, and how a chain
of operands on one level becomes a tree.
-/

namespace FlakeInputs
namespace Grammar

/-- How operators of one level group.  Those that do not group take two operands
and no more. -/
inductive Grouping
  | leftward
  | rightward
  | single
deriving DecidableEq, Repr

/-- Operators that bind equally tightly. -/
structure Level where
  operators : List Operator
  grouping : Grouping
deriving DecidableEq, Repr

/-- The levels looser than `!`, the loosest first. -/
def looseLevels : List Level :=
  [⟨[.pipeRight], .leftward⟩,
   ⟨[.pipeLeft], .rightward⟩,
   ⟨[.implies], .rightward⟩,
   ⟨[.disj], .leftward⟩,
   ⟨[.conj], .leftward⟩,
   ⟨[.equal, .notEqual], .single⟩,
   ⟨[.less, .greater, .lessEq, .greaterEq], .single⟩,
   ⟨[.update], .rightward⟩]

/-- The levels tighter than `!`, the loosest first. -/
def tightLevels : List Level :=
  [⟨[.plus, .minus], .leftward⟩,
   ⟨[.times, .divide], .leftward⟩,
   ⟨[.concat], .rightward⟩]

/-- An operator between two operands. -/
def binary (left : Expr) (op : Operator) (right : Expr) : Expr :=
  ⟨left.span.join right.span, .binary op left right⟩

/-- The tree of a chain that groups to the left. -/
def leftTree (first : Expr) (rest : List (Operator × Expr)) : Expr :=
  rest.foldl (fun left (op, right) => binary left op right) first

/-- The tree of a chain that groups to the right. -/
def rightTree (first : Expr) : List (Operator × Expr) → Expr
  | [] => first
  | (op, next) :: rest => binary first op (rightTree next rest)

namespace Level

/-- The tree of a chain of operands of one level. -/
def tree (level : Level) : Expr → List (Operator × Expr) → Expr :=
  match level.grouping with
  | .rightward => rightTree
  | _ => leftTree

/-- Whether the next token is an operator of this level. -/
def operator? (level : Level) : Option TokenKind → Option Operator
  | some (.operator op) => if op ∈ level.operators then some op else none
  | _ => none

/-- One more operator of this level with its right operand. -/
def link (level : Level) (operand : Reader Expr) : Reader (Round (Operator × Expr)) := do
  match level.operator? (← peek) with
  | none => return .stop
  | some op =>
    let _ ← expect (.operator op)
    let right ← operand
    return if level.grouping = .single then .last (op, right) else .more (op, right)

/-- A chain of operands of one level. -/
def chain (level : Level) (operand : Reader Expr) : Reader Expr := do
  let first ← operand
  let rest ← loop (level.link operand)
  return level.tree first rest

end Level

/-- Operators of several levels around operands, the loosest level first. -/
def levels (table : List Level) (operand : Reader Expr) : Reader Expr :=
  table.foldr Level.chain operand

/-- An operand behind any number of tokens of the given kind, each of which makes
a node around what follows it. -/
def signed (kind : TokenKind) (node : Expr → Node) (operand : Reader Expr) :
    Reader Expr := do
  let signs ← run kind
  let inner ← operand
  return signs.foldr (fun sign e => ⟨sign.span.join e.span, node e⟩) inner

end Grammar
end FlakeInputs
