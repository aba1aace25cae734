import PLZero.Proofs.Generation.Code
import PLZero.Proofs.Generation.Meanings
import PLZero.Proofs.Generation.Placement

namespace PLZero

/-- The parts of an expression, itself among them, each with the address at which its code begins. -/
inductive Expression.Part (context : CodeContext) : (start : Nat) → Expression → Nat → Expression → Prop
  | self {start e} : Part context start e start e
  | argument {start callee before a after address e} :
      Part context (start + (Expression.codeAll context before).length) a address e →
      Part context start (.call callee (before ++ a :: after)) address e
  | group {start inner address e} : Part context start inner address e → Part context start (.group inner) address e
  | unary {start op operand address e} : Part context start operand address e →
      Part context start (.unary op operand) address e
  | odd {start operand address e} : Part context start operand address e →
      Part context start (.odd operand) address e
  | left {start op left right address e} : Part context start left address e →
      Part context start (.binary op left right) address e
  | right {start op left right address e} : Part context (start + (left.code context).length) right address e →
      Part context start (.binary op left right) address e

/-- The conditions and expressions of a statement, with their parts, each with the address at which its code begins.
Those of statements within the statement are not among them. -/
inductive Statement.Operand (context : CodeContext) : (start : Nat) → Statement → Nat → Expression → Prop
  | value {start target value address e} : Expression.Part context start value address e →
      Operand context start (.assignment target value) address e
  | argument {start name before a after address e} :
      Expression.Part context (start + (Expression.codeAll context before).length) a address e →
      Operand context start (.call name (before ++ a :: after)) address e
  | ifThen {start condition consequent address e} : Expression.Part context start condition address e →
      Operand context start (.ifThen condition consequent) address e
  | ifElse {start condition consequent alternative address e} : Expression.Part context start condition address e →
      Operand context start (.ifElse condition consequent alternative) address e
  | whileDo {start condition body address e} : Expression.Part context start condition address e →
      Operand context start (.whileDo condition body) address e
  | repeatUntil {start body condition address e} :
      Expression.Part context (start + (body.code context start).length) condition address e →
      Operand context start (.repeatUntil body condition) address e

variable {context : CodeContext} {code : List Instruction} {start address : Nat} {e part : Expression} {s : Statement}

theorem Expression.codeAll_append (context : CodeContext) (first rest : List Expression) :
    codeAll context (first ++ rest) = codeAll context first ++ codeAll context rest := by
  induction first with
  | nil => rfl
  | cons a first ih => simp only [List.cons_append, codeAll, ih, List.append_assoc]

/-- An argument stands behind those in front. -/
theorem CodeAt.argument {before after : List Expression} {a : Expression}
    (placed : CodeAt code start (Expression.codeAll context (before ++ a :: after))) :
    CodeAt code (start + (Expression.codeAll context before).length) (a.code context) := by
  rw [Expression.codeAll_append] at placed
  exact placed.right.left

namespace Expression.Part

theorem codeAt (within : Part context start e address part) (placed : CodeAt code start (e.code context)) :
    CodeAt code address (part.code context) := by
  induction within with
  | self => exact placed
  | argument _ ih => exact ih placed.left.argument
  | group _ ih => exact ih placed
  | unary _ ih | odd _ ih => exact ih placed.left
  | left _ ih => exact ih placed.left.left
  | right _ ih => exact ih placed.left.right

theorem wellFormed {rules : StaticContext} (within : Part context start e address part)
    (formed : e.WellFormed rules) : part.WellFormed rules := by
  induction within with
  | self => exact formed
  | argument _ ih =>
    cases formed with
    | call _ each => exact ih (each _ (by simp))
  | group _ ih | unary _ ih | odd _ ih =>
    cases formed with
    | _ inner => exact ih inner
  | left _ ih =>
    cases formed with
    | binary first _ => exact ih first
  | right _ ih =>
    cases formed with
    | binary _ second => exact ih second

end Expression.Part

namespace Statement.Operand

theorem codeAt (within : Operand context start s address part) (placed : CodeAt code start (s.code context start)) :
    CodeAt code address (part.code context) := by
  cases within with
  | value inner => exact inner.codeAt placed.left.left
  | argument inner => exact inner.codeAt placed.left.argument
  | ifThen inner => exact inner.codeAt placed.left
  | ifElse inner | whileDo inner =>
    rw [Statement.code, List.append_assoc] at placed
    exact inner.codeAt placed.left
  | repeatUntil inner => exact inner.codeAt placed.left.right

theorem wellFormed {rules : StaticContext} (within : Operand context start s address part)
    (formed : s.WellFormed rules) : part.WellFormed rules := by
  cases within with
  | value inner =>
    cases formed with
    | assignment _ value | result _ _ value => exact inner.wellFormed value
  | argument inner =>
    cases formed with
    | call _ each => exact inner.wellFormed (each _ (by simp))
  | ifThen inner =>
    cases formed with
    | ifThen test _ => exact inner.wellFormed test
  | ifElse inner =>
    cases formed with
    | ifElse test _ _ => exact inner.wellFormed test
  | whileDo inner =>
    cases formed with
    | whileDo test _ => exact inner.wellFormed test
  | repeatUntil inner =>
    cases formed with
    | repeatUntil _ test => exact inner.wellFormed test

end Statement.Operand

end PLZero
