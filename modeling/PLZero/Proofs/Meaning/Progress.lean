import PLZero.Proofs.Meaning.Agreement
import PLZero.Proofs.Meaning.Fuel

namespace PLZero

namespace Evaluation

variable {α β : Type}

/-- An action never comes upon a name that does not stand for what it is used as. -/
def Sound (action : Evaluation α) : Prop :=
  ∀ store, action.run store ≠ .error .illFormed

namespace Sound

theorem pure (result : α) : Sound (pure result) :=
  nofun

theorem of_run {action : Evaluation α} {run : Store → α × Store} (ran : ∀ store, action.run store = .ok (run store)) :
    action.Sound :=
  fun store ended => nomatch (ran store).symm.trans ended

theorem bind {first : Evaluation α} {next : α → Evaluation β} (starts : first.Sound)
    (goesOn : ∀ result, (next result).Sound) : (first >>= next).Sound := by
  intro store
  rw [StateT.run_bind]
  have sound := starts store
  cases ran : first.run store with
  | error stop =>
    intro ended
    cases ended
    exact sound ran
  | ok result => exact goesOn result.1 result.2

theorem discard {action : Evaluation α} (sound : action.Sound) : Sound (Functor.discard action) :=
  sound.bind fun _ => pure ()

theorem ite {c : Prop} [Decidable c] {first second : Evaluation α} (yes : first.Sound) (no : second.Sound) :
    Sound (if c then first else second) := by
  split
  · exact yes
  · exact no

variable {condition : Evaluation Int} {body : Evaluation Unit}

theorem whileTrue (tests : condition.Sound) (does : body.Sound) (rounds : Nat) :
    Sound (Evaluation.whileTrue condition body rounds) := by
  induction rounds with
  | zero => exact nofun
  | succ rounds ih => exact tests.bind fun _ => (pure ()).ite (does.bind fun _ => ih)

theorem untilTrue (does : body.Sound) (tests : condition.Sound) (rounds : Nat) :
    Sound (Evaluation.untilTrue body condition rounds) := by
  induction rounds with
  | zero => exact nofun
  | succ rounds ih => exact does.bind fun _ => tests.bind fun _ => ih.ite (pure ())

end Sound

end Evaluation

open Evaluation

theorem BinaryOp.evaluate_sound (op : BinaryOp) (a b : Int) : Evaluation.Sound (op.evaluate a b) := by
  rw [BinaryOp.evaluate]
  cases op.apply? a b with
  | none => exact nofun
  | some value => exact .pure value

/-- A caller that is sound for the subroutines of a program, from where they are declared. -/
def Caller.Sound (tree : Block) (call : Caller) : Prop :=
  ∀ ⦃inner outer visible heading⦄, Sees tree (inner :: outer) visible → inner.owner = some heading →
    ∀ arguments, Evaluation.Sound (call visible heading inner.block arguments)

theorem Expression.evaluateAll_sound {call : Caller} {environment : Environment} {arguments : List Expression}
    (each : ∀ a ∈ arguments, Evaluation.Sound (a.evaluate call environment)) :
    Evaluation.Sound (Expression.evaluateAll call environment arguments) := by
  induction arguments with
  | nil => exact .pure []
  | cons first rest ih =>
    simp only [Expression.evaluateAll]
    have further := ih fun a mem => each a (List.mem_cons_of_mem _ mem)
    exact (each first List.mem_cons_self).bind fun _ => further.bind fun _ => .pure _

section

variable {tree : Block} {site : Site} {outer : List Site} {around : Environment} {call : Caller}
  (sees : Sees tree (site :: outer) around) (activation : Nat)
include sees

theorem Sees.value_sound {name : String} {found : Found (Option String) Binding}
    (atName : site.context.find? name = some found)
    (plain : found.entry.meaning = .constant ∨ found.entry.meaning = .variable) :
    Evaluation.Sound ((site.block.environment around site.owner activation).value name) := by
  obtain ⟨declaration, visible, seen, marks, means⟩ := sees.means activation atName
  obtain ⟨distance, binding, inner⟩ := found
  cases means with
  | constant => exact .of_run fun _ => Environment.value_constant seen
  | «variable» atOther slot =>
    obtain ⟨mark, atMark⟩ := sees.exists_mark activation atOther
    have front : visible.marks.head? = some mark := by rw [marks, List.head?_drop, atMark]
    exact .of_run fun _ => Environment.value_variable seen front
  | routine => simp [Binding.meaning] at plain

theorem Sees.assign_sound {name : String} {found : Found (Option String) Binding}
    (atName : site.context.find? name = some found)
    (assignable : found.entry.meaning = .variable ∨
      ∃ distance kind arity, found.distance = distance + 1 ∧ found.entry.meaning = .routine kind arity) (value : Int) :
    Evaluation.Sound ((site.block.environment around site.owner activation).assign name value) := by
  obtain ⟨declaration, visible, seen, marks, means⟩ := sees.means activation atName
  obtain ⟨other, atOther, -⟩ := sees.path.gives_of_find? atName
  obtain ⟨mark, atMark⟩ := sees.exists_mark activation atOther
  obtain ⟨distance, binding, inner⟩ := found
  cases means with
  | constant => simp [Binding.meaning] at assignable
  | «variable» =>
    have front : visible.marks.head? = some mark := by rw [marks, List.head?_drop, atMark]
    exact .of_run fun _ => Environment.assign_target (Environment.target?_variable seen front)
  | routine =>
    cases distance with
    | zero => simp [Binding.meaning] at assignable
    | succ distance =>
      have inside := Nat.lt_of_succ_lt (List.getElem?_eq_some_iff.mp atOther).1
      obtain ⟨mark, atMark⟩ := sees.exists_mark activation (List.getElem?_eq_getElem inside)
      have own : (site.block.environment around site.owner activation).marks[distance]? = some mark := by
        rw [site.marks_environment, atMark]
      exact .of_run fun _ => Environment.assign_target (Environment.target?_result seen own)

variable (sound : call.Sound tree)
include sound

theorem Sees.invoke_sound {name : String} {kind : Routine} {arity distance : Nat} {visible : StaticContext}
    (atName : site.context.meanings.find? name = some ⟨distance, .routine kind arity, visible⟩) (arguments : List Int) :
    Evaluation.Sound ((site.block.environment around site.owner activation).invoke call name arguments) := by
  obtain ⟨entry, inner, found, meaning⟩ := CodeContext.exists_of_find?_meanings atName
  obtain ⟨declaration, visible, seen, -, means⟩ := sees.means activation found
  cases means with
  | constant => simp [Binding.meaning] at meaning
  | «variable» => simp [Binding.meaning] at meaning
  | routine inner owned =>
    rw [Environment.invoke_routine seen]
    exact sound inner owned arguments

theorem Expression.WellFormed.evaluate_sound {e : Expression} (rules : e.WellFormed site.context.meanings) :
    Evaluation.Sound (e.evaluate call (site.block.environment around site.owner activation)) := by
  induction e with
  | number value => exact .pure _
  | name name =>
    obtain ⟨found, atName, plain⟩ := rules.exists_value
    exact sees.value_sound activation atName plain
  | call name arguments ih =>
    cases rules with
    | call atName each =>
      simp only [Expression.evaluate]
      exact (Expression.evaluateAll_sound fun a mem => ih a mem (each a mem)).bind
        (sees.invoke_sound activation sound atName)
  | group inner ih =>
    cases rules with
    | group rules => simpa only [Expression.evaluate] using ih rules
  | unary op operand ih =>
    cases rules with
    | unary rules =>
      simp only [Expression.evaluate]
      exact (ih rules).bind fun _ => .pure _
  | odd operand ih =>
    cases rules with
    | odd rules =>
      simp only [Expression.evaluate]
      exact (ih rules).bind fun _ => .pure _
  | binary op left right ihLeft ihRight =>
    cases rules with
    | binary rulesLeft rulesRight =>
      simp only [Expression.evaluate]
      exact (ihLeft rulesLeft).bind fun a => (ihRight rulesRight).bind fun b => op.evaluate_sound a b

theorem Statement.WellFormed.execute_sound {s : Statement} (rules : s.WellFormed site.context.meanings) (rounds : Nat) :
    Evaluation.Sound (s.execute call rounds (site.block.environment around site.owner activation)) := by
  induction s with
  | empty => exact .pure ()
  | assignment target value =>
    obtain ⟨rules, found, atName, assignable⟩ := rules.exists_target
    simp only [Statement.execute]
    exact (rules.evaluate_sound sees activation sound).bind (sees.assign_sound activation atName assignable)
  | call name arguments =>
    cases rules with
    | call atName each =>
      simp only [Statement.execute]
      have all := Expression.evaluateAll_sound fun a mem => (each a mem).evaluate_sound sees activation sound
      exact all.bind fun values => (sees.invoke_sound activation sound atName values).discard
  | sequence first rest ihFirst ihRest =>
    cases rules with
    | sequence rulesFirst rulesRest =>
      simp only [Statement.execute]
      exact (ihFirst rulesFirst).bind fun _ => ihRest rulesRest
  | compound body ih =>
    cases rules with
    | compound rules => simpa only [Statement.execute] using ih rules
  | ifThen condition consequent ih =>
    cases rules with
    | ifThen test rules =>
      simp only [Statement.execute]
      exact (test.evaluate_sound sees activation sound).bind fun _ => (Sound.pure ()).ite (ih rules)
  | ifElse condition consequent alternative ihThen ihElse =>
    cases rules with
    | ifElse test rulesThen rulesElse =>
      simp only [Statement.execute]
      exact (test.evaluate_sound sees activation sound).bind fun _ => (ihElse rulesElse).ite (ihThen rulesThen)
  | whileDo condition body ih =>
    cases rules with
    | whileDo test rules =>
      simp only [Statement.execute]
      exact (test.evaluate_sound sees activation sound).whileTrue (ih rules) rounds
  | repeatUntil body condition ih =>
    cases rules with
    | repeatUntil rules test =>
      simp only [Statement.execute]
      exact (ih rules).untilTrue (test.evaluate_sound sees activation sound) rounds

end

namespace Block

variable {tree : Block}

theorem run_sound (formed : tree.IsProgram) (choices : Nat → Nat → Int) (fuel : Nat) :
    (run choices fuel).Sound tree := by
  induction fuel with
  | zero => exact fun _ _ _ _ _ _ _ => nofun
  | succ fuel ih =>
    intro inner outer visible heading sees owned arguments
    have got : Evaluation.Sound (get : Evaluation Store) := .of_run fun _ => rfl
    have changed : ∀ change : Store → Store, Evaluation.Sound (modify change : Evaluation Unit) :=
      fun _ => .of_run fun _ => rfl
    refine got.bind fun store => (changed _).bind fun _ => ?_
    rw [← owned]
    have does := (sees.path.body_wellFormed formed).execute_sound sees store.started ih fuel
    exact does.bind fun _ => got.bind fun _ => .pure _

/-- A program that keeps the static rules never comes upon a name that does not stand for what it is used as. -/
theorem meaning_ne_illFormed (formed : tree.IsProgram) (choices : Nat → Nat → Int) (fuel : Nat) :
    tree.meaning choices fuel ≠ .error .illFormed := by
  have rules := (Path.main : tree.Path [.main tree]).body_wellFormed formed
  have does := rules.execute_sound .main 0 (run_sound formed choices fuel) fuel
  have changed : ∀ change : Store → Store, Evaluation.Sound (modify change : Evaluation Unit) :=
    fun _ => .of_run fun _ => rfl
  have sound : (tree.runProgram choices fuel).Sound := (changed _).bind fun _ => does
  intro ended
  rw [meaning] at ended
  cases ran : (tree.runProgram choices fuel).run ⟨0, fun _ => 0⟩ with
  | ok result =>
    rw [ran] at ended
    cases ended
  | error stop =>
    rw [ran] at ended
    cases ended
    exact sound _ ran

/-- A program comes to its end, or divides by zero, or goes on for ever. -/
theorem meaning_cases (formed : tree.IsProgram) (choices : Nat → Nat → Int) :
    (∃ store, tree.EndsWith choices store) ∨ tree.DividesByZero choices ∨ tree.Diverges choices := by
  by_cases diverges : tree.Diverges choices
  · exact .inr (.inr diverges)
  · obtain ⟨fuel, ended⟩ := not_forall.mp diverges
    have sound := meaning_ne_illFormed formed choices fuel
    cases meant : tree.meaning choices fuel with
    | ok store => exact .inl ⟨store, fuel, meant⟩
    | error stop =>
      cases stop with
      | divisionByZero => exact .inr (.inl ⟨fuel, meant⟩)
      | outOfFuel => exact absurd meant ended
      | illFormed => exact absurd meant sound

end Block

end PLZero
