import PLZero.Proofs.Execution.Entering

namespace PLZero

namespace Machine

/-- A run, seen from a step on, goes as a part of the program ends: when that comes to its end, the run does so later
on; when that divides by zero, the run ends with this; when that is cut short for want of fuel, the run goes on for at
least as many steps. -/
def Mirrors {α : Type} (start : Machine) (fuel n : Nat) (post : α → Store → Nat → Prop) :
    Except Stop (α × Store) → Prop
  | .ok (result, after) => ∃ m, n ≤ m ∧ post result after m
  | .error .divisionByZero => start.Divides
  | .error .outOfFuel => ∃ m machine, n + fuel ≤ m ∧ start.resume m = .running machine
  | .error .illFormed => False

variable {α β : Type} {start : Machine} {fuel n : Nat} {post goal : α → Store → Nat → Prop} {store : Store}

namespace Mirrors

theorem pure {result : α} {m : Nat} (le : n ≤ m) (reached : post result store m) :
    start.Mirrors fuel n post ((pure result : Evaluation α).run store) :=
  ⟨m, le, reached⟩

/-- What is seen from a later step on, with less fuel left, is seen from an earlier one. -/
theorem shift {outcome : Except Stop (α × Store)} {m left : Nat} (mirrors : start.Mirrors left m post outcome)
    (le : n ≤ m) (enough : n + fuel ≤ m + left) : start.Mirrors fuel n post outcome := by
  cases outcome with
  | ok result =>
    obtain ⟨last, behind, reached⟩ := mirrors
    exact ⟨last, Nat.le_trans le behind, reached⟩
  | error stop =>
    cases stop with
    | divisionByZero => exact mirrors
    | outOfFuel =>
      obtain ⟨last, machine, behind, ran⟩ := mirrors
      exact ⟨last, machine, Nat.le_trans enough behind, ran⟩
    | illFormed => exact mirrors

/-- At the end of the part of the program a run may go on for some steps. -/
theorem further {outcome : Except Stop (α × Store)} (mirrors : start.Mirrors fuel n post outcome)
    (leads : ∀ result after m, n ≤ m → post result after m → ∃ last, m ≤ last ∧ goal result after last) :
    start.Mirrors fuel n goal outcome := by
  cases outcome with
  | ok result =>
    obtain ⟨m, le, reached⟩ := mirrors
    obtain ⟨last, behind, goal⟩ := leads _ _ m le reached
    exact ⟨last, Nat.le_trans le behind, goal⟩
  | error stop => cases stop <;> exact mirrors

theorem imp {outcome : Except Stop (α × Store)} (mirrors : start.Mirrors fuel n post outcome)
    (weaker : ∀ result after m, post result after m → goal result after m) : start.Mirrors fuel n goal outcome :=
  mirrors.further fun result after m _ reached => ⟨m, Nat.le_refl m, weaker result after m reached⟩

/-- One part of the program and then another one. -/
theorem bind {action : Evaluation α} {next : α → Evaluation β} {last : β → Store → Nat → Prop}
    (first : start.Mirrors fuel n post (action.run store))
    (rest : ∀ result after m, n ≤ m → post result after m → start.Mirrors fuel m last ((next result).run after)) :
    start.Mirrors fuel n last ((action >>= next).run store) := by
  rw [StateT.run_bind]
  cases outcome : action.run store with
  | ok result =>
    rw [outcome] at first
    obtain ⟨m, le, reached⟩ := first
    exact (rest _ _ m le reached).shift le (Nat.add_le_add_right le fuel)
  | error stop =>
    rw [outcome] at first
    cases stop <;> exact first

/-- A part of the program whose result does not count. -/
theorem discard {action : Evaluation α} {last : Unit → Store → Nat → Prop}
    (mirrors : start.Mirrors fuel n post (action.run store))
    (weaker : ∀ result after m, post result after m → last () after m) :
    start.Mirrors fuel n last ((Functor.discard action).run store) := by
  have same : Functor.discard action = action >>= fun _ => Pure.pure () := rfl
  rw [same]
  exact mirrors.bind fun result after m _ reached => .pure (Nat.le_refl m) (weaker result after m reached)

end Mirrors

end Machine

open Machine

/-- What a caller does with a subroutine, a run does from when it is about to enter the block until it has returned. -/
def Caller.Mirrored (call : Caller) (tree : Block) (start : Machine) (fuel : Nat) : Prop :=
  ∀ ⦃scene : Scene⦄ ⦃inner : Site⦄ ⦃outer : List Site⦄ ⦃heading : Heading⦄ ⦃visible : Environment⦄
    ⦃arguments : List Int⦄ ⦃n back : Nat⦄ ⦃store : Store⦄, inner.owner = some heading → back ≠ 0 →
    scene.Enters tree start n store inner outer visible arguments back →
    start.Mirrors fuel n (fun result after m => scene.At start m after back ([result].take inner.results))
      ((call visible heading inner.block arguments).run store)

/-- What a part of a statement does, its code does: it leaves results on the stack, and goes on behind. -/
def Scene.Computes {α : Type} (scene : Scene) (start : Machine) (fuel : Nat) (action : Evaluation α)
    (leaves : α → List Int) (pc : Nat) (code : List Instruction) : Prop :=
  ∀ ⦃n : Nat⦄ ⦃store : Store⦄ ⦃operands : List Int⦄, scene.At start n store pc operands →
    start.Mirrors fuel n
      (fun result after m => scene.At start m after (pc + code.length) (operands ++ leaves result)) (action.run store)

section

variable {tree : Block} {start : Machine} {fuel pc n : Nat} {call : Caller} {scene : Scene} {site : Site}
  {outer : List Site} {around environment : Environment} {activation : Nat} {store : Store} {operands : List Int}

/-- Expressions are evaluated one after another. -/
theorem Expression.mirrored_evaluateAll {arguments : List Expression}
    (each : ∀ a ∈ arguments, ∀ pc, CodeAt scene.code pc (a.code site.context) →
      scene.Computes start fuel (a.evaluate call environment) (fun value => [value]) pc (a.code site.context))
    (placed : CodeAt scene.code pc (Expression.codeAll site.context arguments))
    (at_ : scene.At start n store pc operands) :
    start.Mirrors fuel n
      (fun values after m => values.length = arguments.length ∧
        scene.At start m after (pc + (Expression.codeAll site.context arguments).length) (operands ++ values))
      ((Expression.evaluateAll call environment arguments).run store) := by
  induction arguments generalizing pc n store operands with
  | nil =>
    simp only [Expression.evaluateAll, Expression.codeAll]
    exact .pure (Nat.le_refl n) ⟨rfl, by simpa using at_⟩
  | cons first rest ih =>
    simp only [Expression.evaluateAll, Expression.codeAll] at placed ⊢
    have further := fun a mem => each a (List.mem_cons_of_mem _ mem)
    refine (each first List.mem_cons_self pc placed.left at_).bind fun value after m _ at_ => ?_
    refine (ih further placed.right at_).bind fun values after m _ both => ?_
    obtain ⟨length, at_⟩ := both
    refine .pure (Nat.le_refl m) ⟨congrArg (· + 1) length, ?_⟩
    simpa [Nat.add_assoc] using at_

variable (hosts : scene.Hosts tree site outer around activation) (formed : tree.IsProgram) (lasting : ¬ start.Starves)
include hosts formed lasting

/-- A call of a subroutine with its arguments on the stack. -/
theorem Caller.Mirrored.invoke (mirrored : call.Mirrored tree start fuel) {name : String} {kind : Routine}
    {arguments : List Int} {distance : Nat} {visible : StaticContext}
    (atName : site.context.meanings.find? name = some ⟨distance, .routine kind arguments.length, visible⟩)
    (placed : CodeAt scene.code pc (site.context.callCode name))
    (at_ : scene.At start n store pc (operands ++ arguments)) :
    start.Mirrors fuel n
      (fun result after m => scene.At start m after (pc + (site.context.callCode name).length)
        (operands ++ [result].take kind.results))
      (((site.block.environment around site.owner activation).invoke call name arguments).run store) := by
  obtain ⟨entry, inner, found, meaning⟩ := CodeContext.exists_of_find?_meanings atName
  obtain ⟨inner, further, heading, visible, owned, same, invokes, length, enters⟩ :=
    at_.called hosts formed lasting found meaning placed
  have results : inner.results = kind.results := by rw [Site.results, owned, Option.map_some, same]; rfl
  rw [invokes, length]
  refine ((mirrored owned (Nat.succ_ne_zero pc) enters).shift (Nat.le_succ n) (by omega)).imp ?_
  intro result after m at_
  rw [results] at at_
  exact at_.of_keep

/-- An expression leaves its value on the stack. -/
theorem Expression.computes (mirrored : call.Mirrored tree start fuel) {e : Expression}
    (rules : e.WellFormed site.context.meanings) (placed : CodeAt scene.code pc (e.code site.context)) :
    scene.Computes start fuel (e.evaluate call (site.block.environment around site.owner activation))
      (fun value => [value]) pc (e.code site.context) := by
  induction e generalizing pc with
  | number value =>
    intro n store operands at_
    simp only [Expression.code, Expression.evaluate] at placed ⊢
    exact .pure (Nat.le_succ n) (at_.pushConst lasting placed.head)
  | name name =>
    intro n store operands at_
    simp only [Expression.code, Expression.evaluate] at placed ⊢
    obtain ⟨found, atName, plain⟩ := rules.exists_value
    obtain ⟨value, m, le, evaluated, at_⟩ := at_.named hosts formed lasting atName plain placed
    rw [evaluated]
    exact ⟨m, le, at_⟩
  | call name arguments ih =>
    intro n store operands at_
    cases rules with
    | call atName each =>
      simp only [Expression.code, Expression.evaluate] at placed ⊢
      have all := mirrored_evaluateAll (fun a mem _ => ih a mem (each a mem)) placed.left at_
      refine all.bind fun values after m _ both => ?_
      obtain ⟨length, at_⟩ := both
      rw [← length] at atName
      rw [List.length_append, ← Nat.add_assoc]
      exact mirrored.invoke hosts formed lasting atName placed.right at_
  | group inner ih =>
    intro n store operands at_
    cases rules with
    | group rules =>
      simp only [Expression.code, Expression.evaluate] at placed ⊢
      exact ih rules placed at_
  | unary op operand ih =>
    intro n store operands at_
    cases rules with
    | unary rules =>
      simp only [Expression.code, Expression.evaluate] at placed ⊢
      refine (ih rules placed.left at_).bind fun a after m _ at_ => ?_
      refine .pure (Nat.le_succ m) ?_
      rw [List.length_append]
      exact at_.unary lasting placed.middle
  | odd operand ih =>
    intro n store operands at_
    cases rules with
    | odd rules =>
      simp only [Expression.code, Expression.evaluate] at placed ⊢
      refine (ih rules placed.left at_).bind fun a after m _ at_ => ?_
      have one := at_.pushConst lasting placed.middle
      refine .pure (Nat.le_add_right m 2) ?_
      rw [List.length_append]
      exact one.binary lasting placed.right.tail.head rfl
  | binary op left right ihLeft ihRight =>
    intro n store operands at_
    cases rules with
    | binary rulesLeft rulesRight =>
      simp only [Expression.code, Expression.evaluate] at placed ⊢
      refine (ihLeft rulesLeft placed.left.left at_).bind fun a after m _ at_ => ?_
      refine (ihRight rulesRight placed.left.right at_).bind fun b after m _ at_ => ?_
      have fetched := placed.middle
      rw [List.length_append, ← Nat.add_assoc] at fetched
      rw [BinaryOp.evaluate]
      cases applied : op.apply? a b with
      | none => exact at_.divides lasting fetched applied
      | some value =>
        refine .pure (Nat.le_succ m) ?_
        rw [List.length_append, List.length_append, ← Nat.add_assoc, ← Nat.add_assoc]
        exact at_.binary lasting fetched applied

end

section

variable {start : Machine} {fuel rounds pc n : Nat} {scene : Scene} {condition : Evaluation Int} {body : Evaluation Unit}
  {test round : List Instruction} {store : Store} {operands : List Int}

theorem Scene.At.mirrors_outOfFuel {α : Type} {post : α → Store → Nat → Prop}
    (at_ : scene.At start n store pc operands) :
    start.Mirrors 0 n post ((throw .outOfFuel : Evaluation α).run store) := by
  obtain ⟨-, machine, ran, -⟩ := at_
  exact ⟨n, machine, Nat.le_refl n, ran⟩

variable (lasting : ¬ start.Starves) (more : pc ≠ 0)
include lasting more

/-- A loop that tests before each round. A round takes at least one step, so that a run goes on for as many steps as
rounds are left. -/
theorem Scene.mirrored_whileTrue (tests : scene.Computes start fuel condition (fun value => [value]) pc test)
    (does : scene.Computes start fuel body (fun _ => []) (pc + test.length + 1) round)
    (placed : CodeAt scene.code pc
      (test ++ .of .jneq 0 ↑(pc + test.length + 1 + round.length + 1) :: round ++ [.of .jump 0 pc]))
    (few : rounds ≤ fuel) (at_ : scene.At start n store pc operands) :
    start.Mirrors rounds n
      (fun _ after m => scene.At start m after (pc + test.length + 1 + round.length + 1) operands)
      ((Evaluation.whileTrue condition body rounds).run store) := by
  induction rounds generalizing n store with
  | zero => exact at_.mirrors_outOfFuel
  | succ rounds ih =>
    have branches := placed.left.right.head
    have returns := placed.right.head
    rw [List.length_append, List.length_cons] at returns
    rw [Evaluation.whileTrue]
    refine ((tests at_).shift (Nat.le_refl n) (by omega)).bind fun value after m _ at_ => ?_
    have tested := at_.jneq lasting branches (Nat.succ_ne_zero _)
    by_cases zero : value = 0
    · rw [if_pos zero] at tested ⊢
      exact .pure (Nat.le_succ m) tested
    · rw [if_neg zero] at tested ⊢
      refine ((does tested).shift (Nat.le_succ m) (by omega)).bind fun _ after last _ at_ => ?_
      rw [List.append_nil] at at_
      have again := at_.jump lasting (by rw [← returns]; congr 1; omega) more
      exact (ih (Nat.le_of_succ_le few) again).shift (Nat.le_succ last) (by omega)

/-- A loop that tests behind each round. -/
theorem Scene.mirrored_untilTrue (does : scene.Computes start fuel body (fun _ => []) pc round)
    (tests : scene.Computes start fuel condition (fun value => [value]) (pc + round.length) test)
    (placed : CodeAt scene.code pc (round ++ test ++ [.of .jneq 0 pc]))
    (few : rounds ≤ fuel) (at_ : scene.At start n store pc operands) :
    start.Mirrors rounds n
      (fun _ after m => scene.At start m after (pc + round.length + test.length + 1) operands)
      ((Evaluation.untilTrue body condition rounds).run store) := by
  induction rounds generalizing n store with
  | zero => exact at_.mirrors_outOfFuel
  | succ rounds ih =>
    have branches := placed.right.head
    rw [List.length_append, ← Nat.add_assoc] at branches
    rw [Evaluation.untilTrue]
    refine ((does at_).shift (Nat.le_refl n) (by omega)).bind fun _ after m _ at_ => ?_
    rw [List.append_nil] at at_
    refine ((tests at_).shift (Nat.le_refl m) (by omega)).bind fun value after last _ at_ => ?_
    have tested := at_.jneq lasting branches more
    by_cases zero : value = 0
    · rw [if_pos zero] at tested ⊢
      exact (ih (Nat.le_of_succ_le few) tested).shift (Nat.le_succ last) (by omega)
    · rw [if_neg zero] at tested ⊢
      exact .pure (Nat.le_succ last) tested

end

/-- A statement leaves nothing on the stack. -/
theorem Statement.computes {tree : Block} {start : Machine} {fuel pc : Nat} {call : Caller} {scene : Scene} {site : Site}
    {outer : List Site} {around : Environment} {activation : Nat}
    (hosts : scene.Hosts tree site outer around activation) (formed : tree.IsProgram) (lasting : ¬ start.Starves)
    (mirrored : call.Mirrored tree start fuel) {s : Statement} (rules : s.WellFormed site.context.meanings)
    (more : pc ≠ 0) (placed : CodeAt scene.code pc (s.code site.context pc)) :
    scene.Computes start fuel (s.execute call fuel (site.block.environment around site.owner activation)) (fun _ => [])
      pc (s.code site.context pc) := by
  have expression {e : Expression} {pc : Nat} (rules : e.WellFormed site.context.meanings)
      (placed : CodeAt scene.code pc (e.code site.context)) :=
    e.computes hosts formed lasting mirrored rules placed
  induction s generalizing pc with
  | empty =>
    intro n store operands at_
    simp only [Statement.code, Statement.execute]
    exact .pure (Nat.le_refl n) (by simpa using at_)
  | assignment target value =>
    intro n store operands at_
    simp only [Statement.code, Statement.execute] at placed ⊢
    obtain ⟨rules, found, atName, assignable⟩ := rules.exists_target
    rw [List.append_assoc] at placed ⊢
    refine (expression rules placed.left at_).bind fun v after m _ at_ => ?_
    obtain ⟨place, last, le, target, at_⟩ := at_.targeted hosts formed lasting atName assignable placed.right
    rw [Environment.assign_target target]
    refine ⟨last, le, ?_⟩
    rw [List.length_append, List.length_append, List.append_nil, ← Nat.add_assoc, ← Nat.add_assoc]
    exact at_
  | call name arguments =>
    intro n store operands at_
    cases rules with
    | call atName each =>
      simp only [Statement.code, Statement.execute] at placed ⊢
      have all := Expression.mirrored_evaluateAll (fun a mem _ => expression (each a mem)) placed.left at_
      refine all.bind fun values after m _ both => ?_
      obtain ⟨length, at_⟩ := both
      rw [← length] at atName
      refine (mirrored.invoke hosts formed lasting atName placed.right at_).discard fun result after m at_ => ?_
      rw [List.length_append, ← Nat.add_assoc]
      exact at_
  | sequence first rest ihFirst ihRest =>
    intro n store operands at_
    cases rules with
    | sequence rulesFirst rulesRest =>
      simp only [Statement.code, Statement.execute] at placed ⊢
      refine (ihFirst rulesFirst more placed.left at_).bind fun _ after m _ at_ => ?_
      rw [List.append_nil] at at_
      rw [List.length_append, ← Nat.add_assoc]
      exact ihRest rulesRest (by omega) placed.right at_
  | compound body ih =>
    intro n store operands at_
    cases rules with
    | compound rules =>
      simp only [Statement.code, Statement.execute] at placed ⊢
      exact ih rules more placed at_
  | ifThen condition consequent ih =>
    intro n store operands at_
    cases rules with
    | ifThen test rules =>
      simp only [Statement.code, Statement.execute] at placed ⊢
      refine (expression test placed.left at_).bind fun value after m _ at_ => ?_
      have tested := at_.jneq lasting placed.middle (by omega)
      by_cases zero : value = 0
      · rw [if_pos zero] at tested ⊢
        refine .pure (Nat.le_succ m) ?_
        simpa [Nat.add_assoc, Nat.add_comm 1] using tested
      · rw [if_neg zero] at tested ⊢
        refine ((ih rules (Nat.succ_ne_zero _) placed.right.tail tested).shift (Nat.le_succ m) (by omega)).imp ?_
        intro _ after last at_
        simpa [Nat.add_assoc, Nat.add_comm 1] using at_
  | ifElse condition consequent alternative ihThen ihElse =>
    intro n store operands at_
    cases rules with
    | ifElse test rulesThen rulesElse =>
      simp only [Statement.code, Statement.execute] at placed ⊢
      refine (expression test placed.left.left at_).bind fun value after m _ at_ => ?_
      have tested := at_.jneq lasting placed.left.middle (Nat.succ_ne_zero _)
      by_cases zero : value = 0
      · rw [if_pos zero] at tested ⊢
        have atElse := placed.right.tail
        rw [List.length_append, List.length_cons, ← Nat.add_assoc, Nat.add_right_comm _ _ 1, ← Nat.add_assoc] at atElse
        have does := ihElse rulesElse (Nat.succ_ne_zero _) atElse tested
        refine (does.shift (Nat.le_succ m) (by omega)).imp fun _ after last at_ => ?_
        simpa [Nat.add_assoc, Nat.add_comm 1, Nat.add_comm 2] using at_
      · rw [if_neg zero] at tested ⊢
        have does := ihThen rulesThen (Nat.succ_ne_zero _) placed.left.right.tail tested
        refine (does.shift (Nat.le_succ m) (by omega)).further fun _ after last _ at_ => ?_
        have skips := placed.middle
        rw [List.length_append, List.length_cons, Nat.add_comm _ 1, ← Nat.add_assoc, ← Nat.add_assoc] at skips
        rw [List.append_nil] at at_ ⊢
        have skipped := at_.jump lasting skips (by omega)
        refine ⟨last + 1, Nat.le_succ last, ?_⟩
        simpa [Nat.add_assoc, Nat.add_comm 1, Nat.add_comm 2] using skipped
  | whileDo condition body ih =>
    intro n store operands at_
    cases rules with
    | whileDo test rules =>
      simp only [Statement.code, Statement.execute] at placed ⊢
      have tests := expression test placed.left.left
      have does := ih rules (Nat.succ_ne_zero _) placed.left.right.tail
      refine (Scene.mirrored_whileTrue lasting more tests does placed (Nat.le_refl fuel) at_).imp ?_
      intro _ after last at_
      simpa [Nat.add_assoc, Nat.add_comm 1] using at_
  | repeatUntil body condition ih =>
    intro n store operands at_
    cases rules with
    | repeatUntil rules test =>
      simp only [Statement.code, Statement.execute] at placed ⊢
      have does := ih rules more placed.left.left
      have tests := expression test placed.left.right
      refine (Scene.mirrored_untilTrue lasting more does tests placed (Nat.le_refl fuel) at_).imp ?_
      intro _ after last at_
      simpa [Nat.add_assoc] using at_

end PLZero
