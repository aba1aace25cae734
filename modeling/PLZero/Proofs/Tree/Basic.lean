import PLZero.Instruction
import PLZero.Word

namespace PLZero

/-- An expression or a condition as the grammar reads it. Operators of a class are grouped from the left, a minus sign
stands over the first term, and parentheses keep a node of their own. -/
inductive Expression where
  | number (value : Nat)
  | name (name : String)
  | call (name : String) (arguments : List Expression)
  | group (inner : Expression)
  | unary (op : UnaryOp) (operand : Expression)
  | odd (operand : Expression)
  | binary (op : BinaryOp) (left right : Expression)
deriving Repr

@[elab_as_elim, induction_eliminator]
theorem Expression.induction {P : Expression → Prop} (number : ∀ value, P (.number value))
    (name : ∀ name, P (.name name)) (call : ∀ name arguments, (∀ a ∈ arguments, P a) → P (.call name arguments))
    (group : ∀ inner, P inner → P (.group inner)) (unary : ∀ op operand, P operand → P (.unary op operand))
    (odd : ∀ operand, P operand → P (.odd operand))
    (binary : ∀ op left right, P left → P right → P (.binary op left right)) (e : Expression) : P e :=
  e.rec number name call group unary odd binary (by simp) (by simp_all)

/-- A statement. Within a compound statement the statements follow one another as a sequence. -/
inductive Statement where
  | empty
  | assignment (target : String) (value : Expression)
  | call (name : String) (arguments : List Expression)
  | sequence (first rest : Statement)
  | compound (body : Statement)
  | ifThen (condition : Expression) (consequent : Statement)
  | ifElse (condition : Expression) (consequent alternative : Statement)
  | whileDo (condition : Expression) (body : Statement)
  | repeatUntil (body : Statement) (condition : Expression)
deriving Repr

/-- The two sorts of subroutines. -/
inductive Routine where
  | procedure | function
deriving DecidableEq, Repr

/-- What stands in front of the block of a subroutine. -/
structure Heading where
  kind : Routine
  name : String
  parameters : List String
deriving DecidableEq, Repr

/-- A block: declarations, subroutines each with a block of its own, and a statement. -/
inductive Block where
  | mk (constants : List (String × Nat)) (vars : List String) (subroutines : List (Heading × Block))
      (body : Statement)
deriving Repr

@[elab_as_elim, induction_eliminator]
theorem Block.induction {P : Block → Prop}
    (mk : ∀ constants vars subroutines body, (∀ s ∈ subroutines, P s.2) →
      P (.mk constants vars subroutines body)) (block : Block) : P block :=
  @Block.rec P (fun subroutines => ∀ s ∈ subroutines, P s.2) (fun s => P s.2) mk (by simp) (by simp_all) (by simp)
    block

namespace Block

def vars : Block → List String
  | .mk _ vars _ _ => vars

def constants : Block → List (String × Nat)
  | .mk constants _ _ _ => constants

def subroutines : Block → List (Heading × Block)
  | .mk _ _ subroutines _ => subroutines

def body : Block → Statement
  | .mk _ _ _ body => body

end Block

mutual

/-- How deep prefixed operators, parentheses and arguments of calls nest, at least one. -/
def Expression.nesting : Expression → Nat
  | .number _ | .name _ => 1
  | .call _ arguments => Expression.greatestNesting arguments + 1
  | .group inner => inner.nesting + 1
  | .unary .neg operand | .odd operand => operand.nesting
  | .unary _ operand => operand.nesting + 1
  | .binary _ left right => max left.nesting right.nesting

def Expression.greatestNesting : List Expression → Nat
  | [] => 0
  | first :: rest => max first.nesting (Expression.greatestNesting rest)

end

theorem Expression.greatestNesting_le {expressions : List Expression} {depth : Nat} :
    Expression.greatestNesting expressions ≤ depth ↔ ∀ e ∈ expressions, e.nesting ≤ depth := by
  induction expressions with
  | nil => simp [Expression.greatestNesting]
  | cons first rest ih => rw [Expression.greatestNesting, Nat.max_le, ih, List.forall_mem_cons]

namespace Statement

/-- How deep statements nest, with the expressions in them. The members of a sequence stand side by side. -/
def nesting : Statement → Nat
  | .empty => 1
  | .assignment _ value => value.nesting + 1
  | .call _ arguments => Expression.greatestNesting arguments + 1
  | .sequence first rest => max first.nesting rest.nesting
  | .compound body => body.nesting + 1
  | .ifThen condition consequent => max condition.nesting consequent.nesting + 1
  | .ifElse condition consequent alternative =>
    max condition.nesting (max consequent.nesting alternative.nesting) + 1
  | .whileDo condition body | .repeatUntil body condition => max condition.nesting body.nesting + 1

theorem nesting_pos (s : Statement) : 1 ≤ s.nesting := by
  induction s with
  | sequence first rest ihFirst ihRest => exact Nat.le_trans ihFirst (Nat.le_max_left _ _)
  | _ => simp [nesting]

/-- Whether an `else` behind the statement finds an `if` in it that has none. -/
def isOpen : Statement → Bool
  | .ifThen _ _ => true
  | .ifElse _ _ last | .whileDo _ last => last.isOpen
  | _ => false

/-- Every `else` belongs to the nearest `if` before it that has none. -/
def NearestElse : Statement → Prop
  | .sequence first rest => first.NearestElse ∧ rest.NearestElse
  | .compound body | .ifThen _ body | .whileDo _ body | .repeatUntil body _ => body.NearestElse
  | .ifElse _ consequent alternative =>
    consequent.isOpen = false ∧ consequent.NearestElse ∧ alternative.NearestElse
  | _ => True

end Statement

mutual

/-- How deep blocks nest, with the statements in them. -/
def Block.nesting : Block → Nat
  | .mk _ _ subroutines body => max (Block.greatestNesting subroutines) body.nesting + 1

def Block.greatestNesting : List (Heading × Block) → Nat
  | [] => 0
  | (_, block) :: rest => max block.nesting (Block.greatestNesting rest)

end

theorem Block.greatestNesting_le {subroutines : List (Heading × Block)} {depth : Nat} :
    Block.greatestNesting subroutines ≤ depth ↔ ∀ s ∈ subroutines, s.2.nesting ≤ depth := by
  induction subroutines with
  | nil => simp [Block.greatestNesting]
  | cons first rest ih => rw [Block.greatestNesting, Nat.max_le, ih, List.forall_mem_cons]

/-- Every `else` in the block belongs to the nearest `if`. -/
inductive Block.NearestElse : Block → Prop
  | mk {constants vars subroutines body} : (∀ s ∈ subroutines, NearestElse s.2) → body.NearestElse →
      NearestElse (.mk constants vars subroutines body)

end PLZero
