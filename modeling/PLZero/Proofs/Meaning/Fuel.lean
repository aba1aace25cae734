import PLZero.Proofs.Meaning.Evaluation

namespace PLZero

namespace Evaluation

variable {α β : Type}

/-- An action does what another one does, unless it is cut short for want of fuel. -/
def Approximates (action other : Evaluation α) : Prop :=
  ∀ store, action.run store = .error .outOfFuel ∨ action.run store = other.run store

namespace Approximates

theorem refl (action : Evaluation α) : action.Approximates action :=
  fun _ => .inr rfl

theorem outOfFuel (other : Evaluation α) : Approximates (throw .outOfFuel) other :=
  fun _ => .inl rfl

theorem bind {first other : Evaluation α} {next further : α → Evaluation β} (starts : first.Approximates other)
    (goesOn : ∀ result, (next result).Approximates (further result)) :
    (first >>= next).Approximates (other >>= further) := by
  intro store
  rw [StateT.run_bind, StateT.run_bind]
  rcases starts store with short | same
  · rw [short]
    exact .inl rfl
  · rw [← same]
    cases first.run store with
    | error stop => exact .inr rfl
    | ok result => exact goesOn result.1 result.2

theorem discard {first other : Evaluation α} (same : first.Approximates other) :
    Approximates (Functor.discard first) (Functor.discard other) :=
  same.bind fun _ => refl (pure ())

/-- A branch on a value. -/
theorem ite {c : Prop} [Decidable c] {first other second further : Evaluation α} (yes : first.Approximates other)
    (no : second.Approximates further) :
    Approximates (if c then first else second) (if c then other else further) := by
  split
  · exact yes
  · exact no

variable {condition condition' : Evaluation Int} {body body' : Evaluation Unit} {rounds more : Nat}

theorem whileTrue (tests : condition.Approximates condition') (does : body.Approximates body') (le : rounds ≤ more) :
    Approximates (Evaluation.whileTrue condition body rounds) (Evaluation.whileTrue condition' body' more) := by
  induction rounds generalizing more with
  | zero => exact outOfFuel _
  | succ rounds ih =>
    cases more with
    | zero => exact absurd le (Nat.not_succ_le_zero rounds)
    | succ more => exact tests.bind fun _ => (refl _).ite (does.bind fun _ => ih (Nat.le_of_succ_le_succ le))

theorem untilTrue (does : body.Approximates body') (tests : condition.Approximates condition') (le : rounds ≤ more) :
    Approximates (Evaluation.untilTrue body condition rounds) (Evaluation.untilTrue body' condition' more) := by
  induction rounds generalizing more with
  | zero => exact outOfFuel _
  | succ rounds ih =>
    cases more with
    | zero => exact absurd le (Nat.not_succ_le_zero rounds)
    | succ more => exact does.bind fun _ => tests.bind fun _ => (ih (Nat.le_of_succ_le_succ le)).ite (refl _)

end Approximates

end Evaluation

open Evaluation

/-- What one caller does, another one does, unless the first is cut short for want of fuel. -/
def Caller.Approximates (call other : Caller) : Prop :=
  ∀ visible heading block arguments,
    Evaluation.Approximates (call visible heading block arguments) (other visible heading block arguments)

theorem Expression.evaluateAll_approximates {call other : Caller} {environment : Environment}
    {arguments : List Expression}
    (each : ∀ a ∈ arguments, Evaluation.Approximates (a.evaluate call environment) (a.evaluate other environment)) :
    Evaluation.Approximates (Expression.evaluateAll call environment arguments)
      (Expression.evaluateAll other environment arguments) := by
  induction arguments with
  | nil => exact .refl _
  | cons first rest ih =>
    simp only [Expression.evaluateAll]
    have further := ih fun a mem => each a (List.mem_cons_of_mem _ mem)
    exact (each first List.mem_cons_self).bind fun _ => further.bind fun _ => .refl _

section

variable {call other : Caller} (calls : call.Approximates other) (environment : Environment)
include calls

theorem Environment.invoke_approximates (name : String) (arguments : List Int) :
    Evaluation.Approximates (environment.invoke call name arguments) (environment.invoke other name arguments) := by
  rw [invoke, invoke]
  split
  · exact calls _ _ _ _
  · exact .refl _

theorem Expression.evaluate_approximates (e : Expression) :
    Evaluation.Approximates (e.evaluate call environment) (e.evaluate other environment) := by
  induction e with
  | number value => exact .refl _
  | name identifier => exact .refl _
  | call callee arguments ih =>
    simp only [Expression.evaluate]
    exact (evaluateAll_approximates ih).bind fun values =>
      environment.invoke_approximates calls callee values
  | group inner ih =>
    simp only [Expression.evaluate]
    exact ih
  | unary op operand ih | odd operand ih =>
    simp only [Expression.evaluate]
    exact ih.bind fun _ => .refl _
  | binary op left right ihLeft ihRight =>
    simp only [Expression.evaluate]
    exact ihLeft.bind fun _ => ihRight.bind fun _ => .refl _

theorem Statement.execute_approximates {rounds more : Nat} (le : rounds ≤ more) (s : Statement) :
    Evaluation.Approximates (s.execute call rounds environment) (s.execute other more environment) := by
  have evaluates := Expression.evaluate_approximates calls environment
  induction s with
  | empty => exact .refl _
  | assignment target value =>
    simp only [Statement.execute]
    exact (evaluates value).bind fun _ => .refl _
  | call name arguments =>
    simp only [Statement.execute]
    have all := Expression.evaluateAll_approximates fun a (_ : a ∈ arguments) => evaluates a
    exact all.bind fun values => (environment.invoke_approximates calls name values).discard
  | sequence first rest ihFirst ihRest =>
    simp only [Statement.execute]
    exact ihFirst.bind fun _ => ihRest
  | compound body ih =>
    simp only [Statement.execute]
    exact ih
  | ifThen condition consequent ih =>
    simp only [Statement.execute]
    exact (evaluates condition).bind fun _ => (Approximates.refl _).ite ih
  | ifElse condition consequent alternative ihThen ihElse =>
    simp only [Statement.execute]
    exact (evaluates condition).bind fun _ => ihElse.ite ihThen
  | whileDo condition body ih =>
    simp only [Statement.execute]
    exact (evaluates condition).whileTrue ih le
  | repeatUntil body condition ih =>
    simp only [Statement.execute]
    exact ih.untilTrue (evaluates condition) le

end

namespace Block

variable {choices : Nat → Nat → Int}

theorem run_approximates {fuel more : Nat} (le : fuel ≤ more) : (run choices fuel).Approximates (run choices more) := by
  induction fuel generalizing more with
  | zero => exact fun _ _ _ _ => .outOfFuel _
  | succ fuel ih =>
    cases more with
    | zero => exact absurd le (Nat.not_succ_le_zero fuel)
    | succ more =>
      have enough := Nat.le_of_succ_le_succ le
      intro visible heading block arguments
      exact (Approximates.refl _).bind fun _ => (Approximates.refl _).bind fun _ =>
        (block.body.execute_approximates (ih enough) _ enough).bind fun _ => .refl _

theorem meaning_eq_of_le {tree : Block} {fuel more : Nat} (le : fuel ≤ more)
    (ended : tree.meaning choices fuel ≠ .error .outOfFuel) :
    tree.meaning choices more = tree.meaning choices fuel := by
  have approximates : (tree.runProgram choices fuel).Approximates (tree.runProgram choices more) :=
    (Approximates.refl _).bind fun _ => tree.body.execute_approximates (run_approximates le) _ le
  rcases approximates ⟨0, fun _ => 0⟩ with short | same
  · exact absurd (by rw [meaning, short]; rfl) ended
  · rw [meaning, meaning, same]

variable {tree : Block}

/-- With given choices, the program comes to its end and leaves a store behind. -/
def EndsWith (tree : Block) (choices : Nat → Nat → Int) (store : Store) : Prop :=
  ∃ fuel, tree.meaning choices fuel = .ok store

def DividesByZero (tree : Block) (choices : Nat → Nat → Int) : Prop :=
  ∃ fuel, tree.meaning choices fuel = .error .divisionByZero

/-- No fuel is enough. -/
def Diverges (tree : Block) (choices : Nat → Nat → Int) : Prop :=
  ∀ fuel, tree.meaning choices fuel = .error .outOfFuel

/-- Given the choices, a program has one meaning only. -/
theorem meaning_unique {fuel other : Nat} (ended : tree.meaning choices fuel ≠ .error .outOfFuel)
    (alsoEnded : tree.meaning choices other ≠ .error .outOfFuel) :
    tree.meaning choices fuel = tree.meaning choices other := by
  rcases Nat.le_total fuel other with le | le
  · exact (meaning_eq_of_le le ended).symm
  · exact meaning_eq_of_le le alsoEnded

theorem EndsWith.unique {store other : Store} (ends : tree.EndsWith choices store)
    (also : tree.EndsWith choices other) : store = other := by
  obtain ⟨fuel, ended⟩ := ends
  obtain ⟨further, alsoEnded⟩ := also
  have done : tree.meaning choices fuel ≠ .error .outOfFuel := by rw [ended]; exact nofun
  have alsoDone : tree.meaning choices further ≠ .error .outOfFuel := by rw [alsoEnded]; exact nofun
  have same := meaning_unique done alsoDone
  rw [ended, alsoEnded] at same
  exact Except.ok.inj same

end Block

end PLZero
