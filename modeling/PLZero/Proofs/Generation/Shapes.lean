import PLZero.Proofs.Generation.Scopes

namespace PLZero

/-- What code of a block has on the stack above the variables: so many values, and above them maybe the address of a
word in a frame, given by how many blocks out the frame is and by its offset there. -/
structure Shape where
  values : Nat
  address : Option (Nat × Int) := none
deriving DecidableEq, Repr

def Shape.height (shape : Shape) : Nat :=
  shape.values + if shape.address.isSome then 1 else 0

@[simp] theorem Shape.height_none (values : Nat) : (⟨values, none⟩ : Shape).height = values := rfl

@[simp] theorem Shape.height_some (values : Nat) (address : Nat × Int) :
    (⟨values, some address⟩ : Shape).height = values + 1 := rfl

/-- How many words a call leaves in place of the arguments. -/
def Routine.results : Routine → Nat
  | .procedure => 0
  | .function => 1

/-- How many words a return from the block leaves in place of the arguments. -/
def Site.results (site : Site) : Nat :=
  (site.owner.map (·.kind.results)).getD 0

/-- A block returns with or without a result. -/
theorem Site.return_cases (site : Site) :
    site.results = 0 ∧ Block.returnInstruction site.owner = .of .ret 0 site.arity ∨
      site.results = 1 ∧ Block.returnInstruction site.owner = .of .retf 0 site.arity := by
  obtain ⟨owner, block, start, outer⟩ := site
  cases owner with
  | none => exact .inl ⟨rfl, rfl⟩
  | some heading =>
    cases kind : heading.kind with
    | procedure => exact .inl ⟨congrArg Routine.results kind, by simp only [Block.returnInstruction, kind]; rfl⟩
    | function => exact .inr ⟨congrArg Routine.results kind, by simp only [Block.returnInstruction, kind]; rfl⟩

/-- What an instruction in the statement of a block does to the shape of the stack, when control goes on behind it. The
path leads to that block. Jumps need a stack that is bare. -/
inductive Effect (path : List Site) : Instruction → Shape → Shape → Prop
  | pushConst {count value} : Effect path ⟨.named .pushConst, 0, value⟩ ⟨count, none⟩ ⟨count + 1, none⟩
  | unary {count op} : Effect path ⟨.named (.unary op), 0, 0⟩ ⟨count + 1, none⟩ ⟨count + 1, none⟩
  | binary {count op} : Effect path ⟨.named (.binary op), 0, 0⟩ ⟨count + 2, none⟩ ⟨count + 1, none⟩
  | pushVar {count around offset} {level : Fin (maxLevel + 1)} : path[level.val]? = some around →
      around.Writable offset →
      Effect path ⟨.named .pushVar, level, offset⟩ ⟨count, none⟩ ⟨count, some (level.val, offset)⟩
  | eval {count address} : Effect path ⟨.named .eval, 0, 0⟩ ⟨count, some address⟩ ⟨count + 1, none⟩
  | assign {count address} : Effect path ⟨.named .assign, 0, 0⟩ ⟨count + 1, some address⟩ ⟨count, none⟩
  | call {count around inner heading} {address : Nat} {level : Fin (maxLevel + 1)} :
      path[level.val]? = some around → around.Encloses inner → inner.owner = some heading →
      (address = inner.start ∨ address = inner.entry) →
      Effect path ⟨.named .call, level, address⟩ ⟨count + heading.parameters.length, none⟩
        ⟨count + heading.kind.results, none⟩
  | jneq {target} : Effect path ⟨.named .jneq, 0, target⟩ ⟨1, none⟩ ⟨0, none⟩
  | jump {target} : Effect path ⟨.named .jump, 0, target⟩ ⟨0, none⟩ ⟨0, none⟩

/-- The effects of instructions one behind the other. -/
inductive Straight (path : List Site) : Shape → List Instruction → Shape → Prop
  | nil {shape} : Straight path shape [] shape
  | cons {instruction rest before between after} : Effect path instruction before between →
      Straight path between rest after → Straight path before (instruction :: rest) after

variable {path : List Site} {instruction : Instruction} {first rest : List Instruction} {before between after : Shape}

theorem Effect.unique (effect : Effect path instruction before after) (other : Effect path instruction before between) :
    after = between := by
  cases effect with
  | @call count around inner heading address level atAround encloses owned called =>
    generalize spelled : (⟨count + heading.parameters.length, none⟩ : Shape) = start at other
    generalize target : (address : Int) = value at other
    cases other with
    | call alsoAround alsoEncloses alsoOwned alsoCalled =>
      cases atAround.symm.trans alsoAround
      obtain rfl := Int.ofNat.inj target
      obtain rfl := encloses.unique alsoEncloses (Site.owns_of_called called).covers
        (Site.owns_of_called alsoCalled).covers
      cases owned.symm.trans alsoOwned
      rw [Shape.mk.injEq] at spelled
      rw [Nat.add_right_cancel spelled.1]
  | _ => cases other; rfl

/-- Statements do not return. -/
theorem Effect.opcode?_not_return (effect : Effect path instruction before after) :
    instruction.operation.opcode? ≠ some .ret ∧ instruction.operation.opcode? ≠ some .retf := by
  cases effect <;> simp [Operation.opcode?]

theorem Straight.single (effect : Effect path instruction before after) : Straight path before [instruction] after :=
  .cons effect .nil

theorem Straight.append (front : Straight path before first between) (back : Straight path between rest after) :
    Straight path before (first ++ rest) after := by
  induction front with
  | nil => exact back
  | cons effect _ ih => exact .cons effect (ih back)

theorem Straight.split (whole : Straight path before (first ++ rest) after) :
    ∃ between, Straight path before first between ∧ Straight path between rest after := by
  induction first generalizing before with
  | nil => exact ⟨before, .nil, whole⟩
  | cons instruction first ih =>
    cases whole with
    | cons effect behind =>
      obtain ⟨between, front, back⟩ := ih behind
      exact ⟨between, .cons effect front, back⟩

theorem Straight.unique (one : Straight path before first after) (other : Straight path before first between) :
    after = between := by
  induction one generalizing between with
  | nil =>
    cases other
    rfl
  | cons effect _ ih =>
    cases other with
    | cons alsoEffect behind =>
      cases effect.unique alsoEffect
      exact ih behind

/-- The address that an instruction may lead to instead of the next one. -/
def Instruction.target? (instruction : Instruction) : Option Int :=
  match instruction.operation with
  | .named .jump | .named .jneq => some instruction.value
  | _ => none

namespace Block.Path

variable {tree : Block} {site : Site} {outer : List Site}

/-- The level of an instruction tells how many blocks out a block is. -/
theorem level_of (reached : tree.Path (site :: outer)) (formed : tree.IsProgram) {distance : Nat} {around : Site}
    (atAround : (site :: outer)[distance]? = some around) :
    ((Fin.ofNat (maxLevel + 1) distance : Fin _) : Nat) = distance := by
  have inside := (List.getElem?_eq_some_iff.mp atAround).1
  have few := reached.length_le formed
  rw [List.length_cons] at inside
  exact Nat.mod_eq_of_lt (by omega)

theorem pushVar_effect (reached : tree.Path (site :: outer)) (formed : tree.IsProgram) {distance count : Nat}
    {around : Site} {offset : Int} (atAround : (site :: outer)[distance]? = some around)
    (writable : around.Writable offset) :
    Effect (site :: outer) (.of .pushVar distance offset) ⟨count, none⟩ ⟨count, some (distance, offset)⟩ := by
  have level := reached.level_of formed atAround
  have effect : Effect (site :: outer) (.of .pushVar distance offset) ⟨count, none⟩
      ⟨count, some ((Fin.ofNat (maxLevel + 1) distance : Fin _).val, offset)⟩ :=
    .pushVar (by rwa [level]) writable
  rwa [level] at effect

theorem valueCode_straight (reached : tree.Path (site :: outer)) (formed : tree.IsProgram) {name : String}
    {distance count : Nat} {entry : Binding} {visible : CodeContext}
    (found : site.context.find? name = some ⟨distance, entry, visible⟩)
    (value : entry.meaning = .constant ∨ entry.meaning = .variable) :
    Straight (site :: outer) ⟨count, none⟩ (site.context.valueCode name) ⟨count + 1, none⟩ := by
  obtain ⟨around, atAround, gives⟩ := reached.gives_of_find? found
  rw [CodeContext.valueCode, found]
  cases entry with
  | constant value => exact .single .pushConst
  | «variable» offset => exact .cons (reached.pushVar_effect formed atAround (.slot gives)) (.single .eval)
  | routine kind arity address => simp [Binding.meaning] at value

theorem callCode_straight (reached : tree.Path (site :: outer)) (formed : tree.IsProgram) {name : String}
    {distance count arity : Nat} {kind : Routine} {visible : StaticContext}
    (found : site.context.meanings.find? name = some ⟨distance, .routine kind arity, visible⟩) :
    Straight (site :: outer) ⟨count + arity, none⟩ (site.context.callCode name) ⟨count + kind.results, none⟩ := by
  obtain ⟨entry, inner, found, meaning⟩ := CodeContext.exists_of_find?_meanings found
  obtain ⟨around, atAround, gives⟩ := reached.gives_of_find? found
  rw [CodeContext.callCode, found]
  cases entry with
  | routine kind arity address =>
    cases meaning
    obtain ⟨callee, heading, encloses, owned, -, rfl, rfl, called⟩ := gives
    have level := reached.level_of formed atAround
    exact .single (.call (by rwa [level]) encloses owned called)
  | _ => cases meaning

theorem codeAll_straight {path : List Site} {context : CodeContext} {arguments : List Expression}
    (all : ∀ a ∈ arguments, ∀ count, Straight path ⟨count, none⟩ (a.code context) ⟨count + 1, none⟩) (count : Nat) :
    Straight path ⟨count, none⟩ (Expression.codeAll context arguments) ⟨count + arguments.length, none⟩ := by
  induction arguments generalizing count with
  | nil => exact .nil
  | cons first rest ih =>
    have behind := ih (fun a mem => all a (List.mem_cons_of_mem _ mem)) (count + 1)
    rw [Nat.add_right_comm] at behind
    exact (all first List.mem_cons_self count).append behind

/-- The code of an expression leaves one more value. -/
theorem expression_straight (reached : tree.Path (site :: outer)) (formed : tree.IsProgram) {e : Expression}
    (wellFormed : e.WellFormed site.context.meanings) (count : Nat) :
    Straight (site :: outer) ⟨count, none⟩ (e.code site.context) ⟨count + 1, none⟩ := by
  induction wellFormed generalizing count with
  | number _ => exact .single .pushConst
  | constantName found =>
    obtain ⟨entry, inner, found, meaning⟩ := CodeContext.exists_of_find?_meanings found
    exact reached.valueCode_straight formed found (.inl meaning)
  | variableName found =>
    obtain ⟨entry, inner, found, meaning⟩ := CodeContext.exists_of_find?_meanings found
    exact reached.valueCode_straight formed found (.inr meaning)
  | call found _ ih => exact (codeAll_straight ih count).append (reached.callCode_straight formed found)
  | group _ ih => exact ih count
  | unary _ ih => exact (ih count).append (.single .unary)
  | odd _ ih => exact (ih count).append (.cons .pushConst (.single .binary))
  | binary _ _ ihLeft ihRight => exact ((ihLeft count).append (ihRight (count + 1))).append (.single .binary)

theorem targetCode_effect (reached : tree.Path (site :: outer)) (formed : tree.IsProgram) {target : String}
    {value : Expression} (wellFormed : (Statement.assignment target value).WellFormed site.context.meanings)
    (count : Nat) :
    ∃ distance offset, site.context.targetCode target = [.of .pushVar distance offset] ∧
      Effect (site :: outer) (.of .pushVar distance offset) ⟨count, none⟩ ⟨count, some (distance, offset)⟩ := by
  cases wellFormed with
  | @assignment _ _ distance visible found _ =>
    obtain ⟨entry, inner, found, meaning⟩ := CodeContext.exists_of_find?_meanings found
    obtain ⟨around, atAround, gives⟩ := reached.gives_of_find? found
    rw [CodeContext.targetCode, found]
    cases entry with
    | «variable» offset => exact ⟨distance, offset, rfl, reached.pushVar_effect formed atAround (.slot gives)⟩
    | _ => cases meaning
  | @result _ _ distance arity visible found marked _ =>
    obtain ⟨entry, inner, found, meaning⟩ := CodeContext.exists_of_find?_meanings found
    cases entry with
    | routine kind arity address =>
      cases meaning
      rw [CodeContext.mark_meanings] at marked
      obtain ⟨around, heading, atAround, owned, -, isFunction⟩ := reached.function_of_find? formed found marked
      rw [CodeContext.targetCode, found]
      exact ⟨distance, resultSlot, rfl, reached.pushVar_effect formed atAround (.result owned isFunction)⟩
    | _ => cases meaning

end Block.Path

/-- Code without jumps. -/
def Plain (code : List Instruction) : Prop :=
  ∀ instruction ∈ code, instruction.target? = none

theorem plain_append {first rest : List Instruction} : Plain (first ++ rest) ↔ Plain first ∧ Plain rest :=
  List.forall_mem_append

theorem CodeContext.valueCode_plain (context : CodeContext) (name : String) : Plain (context.valueCode name) := by
  unfold valueCode
  split <;> simp [Plain, Instruction.of, Instruction.target?]

theorem CodeContext.callCode_plain (context : CodeContext) (name : String) : Plain (context.callCode name) := by
  unfold callCode
  split <;> simp [Plain, Instruction.of, Instruction.target?]

theorem Expression.codeAll_plain {context : CodeContext} {arguments : List Expression}
    (all : ∀ a ∈ arguments, Plain (a.code context)) : Plain (codeAll context arguments) := by
  induction arguments with
  | nil => simp [codeAll, Plain]
  | cons first rest ih =>
    rw [codeAll, plain_append]
    exact ⟨all first List.mem_cons_self, ih fun a mem => all a (List.mem_cons_of_mem _ mem)⟩

theorem Expression.code_plain (context : CodeContext) (e : Expression) : Plain (e.code context) := by
  induction e with
  | number value => simp [code, Plain, Instruction.of, Instruction.target?]
  | name name => exact context.valueCode_plain name
  | call name arguments ih => exact plain_append.mpr ⟨codeAll_plain ih, context.callCode_plain name⟩
  | group inner ih => exact ih
  | unary op operand ih | odd operand ih =>
    rw [code, plain_append]
    exact ⟨ih, by simp [Plain, Instruction.of, Instruction.target?]⟩
  | binary op left right ihLeft ihRight =>
    rw [code, plain_append, plain_append]
    exact ⟨⟨ihLeft, ihRight⟩, by simp [Plain, Instruction.of, Instruction.target?]⟩

/-- An address in code, or just behind it, at which nothing is on the stack above the variables. -/
def Rests (path : List Site) (start : Nat) (code : List Instruction) (target : Int) : Prop :=
  ∃ front back, code = front ++ back ∧ target = ↑(start + front.length) ∧ Straight path ⟨0, none⟩ front ⟨0, none⟩

/-- Code that leaves the stack above the variables bare, and in which all jumps lead to places where it is. -/
structure Settled (path : List Site) (start : Nat) (code : List Instruction) : Prop where
  straight : Straight path ⟨0, none⟩ code ⟨0, none⟩
  rests : ∀ instruction ∈ code, ∀ target, instruction.target? = some target → Rests path start code target

namespace Rests

variable {path : List Site} {start : Nat} {first rest : List Instruction} {target : Int}

theorem at_start : Rests path start rest start :=
  ⟨[], rest, rfl, rfl, .nil⟩

theorem at_end (straight : Straight path ⟨0, none⟩ rest ⟨0, none⟩) : Rests path start rest ↑(start + rest.length) :=
  ⟨rest, [], (List.append_nil rest).symm, rfl, straight⟩

theorem append (rests : Rests path start first target) : Rests path start (first ++ rest) target := by
  obtain ⟨front, back, rfl, led, straight⟩ := rests
  exact ⟨front, back ++ rest, List.append_assoc _ _ _, led, straight⟩

theorem prepend (straight : Straight path ⟨0, none⟩ first ⟨0, none⟩)
    (rests : Rests path (start + first.length) rest target) : Rests path start (first ++ rest) target := by
  obtain ⟨front, back, rfl, led, further⟩ := rests
  refine ⟨first ++ front, back, (List.append_assoc _ _ _).symm, ?_, straight.append further⟩
  rw [led, List.length_append, Nat.add_assoc]

end Rests

namespace Settled

variable {path : List Site} {start : Nat} {first rest : List Instruction}

theorem of_plain (straight : Straight path ⟨0, none⟩ first ⟨0, none⟩) (plain : Plain first) :
    Settled path start first where
  straight := straight
  rests := fun instruction mem target leads => by simp [plain instruction mem] at leads

theorem append (front : Settled path start first) (back : Settled path (start + first.length) rest) :
    Settled path start (first ++ rest) where
  straight := front.straight.append back.straight
  rests := by
    intro instruction mem target leads
    rcases List.mem_append.mp mem with mem | mem
    · exact (front.rests instruction mem target leads).append
    · exact (back.rests instruction mem target leads).prepend front.straight

/-- A condition with a jump behind it, which leads to a place where the stack is bare. -/
theorem guarded {test : List Instruction} {target : Int}
    (straight : Straight path ⟨0, none⟩ test ⟨1, none⟩) (plain : Plain test)
    (led : Rests path start (test ++ .of .jneq 0 target :: rest) target)
    (behind : Straight path ⟨0, none⟩ rest ⟨0, none⟩)
    (rests : ∀ instruction ∈ rest, ∀ goal, instruction.target? = some goal →
      Rests path start (test ++ .of .jneq 0 target :: rest) goal) :
    Settled path start (test ++ .of .jneq 0 target :: rest) where
  straight := straight.append (.cons .jneq behind)
  rests := by
    intro instruction mem goal leads
    rcases List.mem_append.mp mem with mem | mem
    · simp [plain instruction mem] at leads
    · rcases List.mem_cons.mp mem with rfl | mem
      · cases leads
        exact led
      · exact rests instruction mem goal leads

end Settled

/-- What is left bare behind a condition and its jump is so in the whole. -/
theorem Rests.behind_guard {path : List Site} {start : Nat} {test rest : List Instruction} {target goal : Int}
    (straight : Straight path ⟨0, none⟩ test ⟨1, none⟩) (rests : Rests path (start + test.length + 1) rest goal) :
    Rests path start (test ++ .of .jneq 0 target :: rest) goal := by
  have guard : Straight path ⟨0, none⟩ (test ++ [.of .jneq 0 target]) ⟨0, none⟩ := straight.append (.single .jneq)
  rw [List.append_cons]
  refine .prepend guard ?_
  simpa [Nat.add_assoc] using rests

theorem Rests.behind_jump {path : List Site} {start : Nat} {branch rest : List Instruction} {target goal : Int}
    (straight : Straight path ⟨0, none⟩ branch ⟨0, none⟩) (rests : Rests path (start + branch.length + 1) rest goal) :
    Rests path start (branch ++ .of .jump 0 target :: rest) goal := by
  have passed : Straight path ⟨0, none⟩ (branch ++ [.of .jump 0 target]) ⟨0, none⟩ := straight.append (.single .jump)
  rw [List.append_cons]
  refine .prepend passed ?_
  simpa [Nat.add_assoc] using rests

namespace Settled

variable {path : List Site} {start : Nat} {test branch other : List Instruction}

/-- Two branches with a jump between them that passes over the second one. -/
theorem alternatives (first : Settled path start branch) (second : Settled path (start + branch.length + 1) other) :
    Settled path start (branch ++ .of .jump 0 ↑(start + branch.length + 1 + other.length) :: other) where
  straight := first.straight.append (.cons .jump second.straight)
  rests := by
    intro instruction mem goal leads
    rcases List.mem_append.mp mem with mem | mem
    · exact (first.rests instruction mem goal leads).append
    · rcases List.mem_cons.mp mem with rfl | mem
      · cases leads
        exact .behind_jump first.straight (.at_end second.straight)
      · exact .behind_jump first.straight (second.rests instruction mem goal leads)

/-- A condition, a body, and the jump back to the condition. -/
theorem loop (straight : Straight path ⟨0, none⟩ test ⟨1, none⟩) (plain : Plain test)
    (round : Settled path (start + test.length + 1) branch) :
    Settled path start (test ++ .of .jneq 0 ↑(start + test.length + 1 + branch.length + 1) ::
      (branch ++ [.of .jump 0 start])) := by
  have back : Straight path ⟨0, none⟩ (branch ++ [.of .jump 0 start]) ⟨0, none⟩ :=
    round.straight.append (.single .jump)
  have led : Rests path (start + test.length + 1) (branch ++ [.of .jump 0 start]) _ := .at_end back
  rw [List.length_append, List.length_singleton, ← Nat.add_assoc] at led
  refine .guarded straight plain (.behind_guard straight led) back ?_
  intro instruction mem goal leads
  rcases List.mem_append.mp mem with mem | mem
  · exact .behind_guard straight (round.rests instruction mem goal leads).append
  · cases List.mem_singleton.mp mem
    cases leads
    exact .at_start

/-- A body, a condition, and the jump back to the body. -/
theorem repetition (straight : Straight path ⟨0, none⟩ test ⟨1, none⟩) (plain : Plain test)
    (round : Settled path start branch) : Settled path start (branch ++ test ++ [.of .jneq 0 start]) where
  straight := (round.straight.append straight).append (.single .jneq)
  rests := by
    intro instruction mem goal leads
    simp only [List.mem_append, List.mem_singleton] at mem
    rcases mem with (mem | mem) | rfl
    · exact (round.rests instruction mem goal leads).append.append
    · simp [plain instruction mem] at leads
    · cases leads
      exact .at_start

end Settled

namespace Block.Path

variable {tree : Block} {site : Site} {outer : List Site}

theorem assignment_settled (reached : tree.Path (site :: outer)) (formed : tree.IsProgram) {target : String}
    {value : Expression} (wellFormed : (Statement.assignment target value).WellFormed site.context.meanings)
    (valueFormed : value.WellFormed site.context.meanings) (start : Nat) :
    Settled (site :: outer) start ((Statement.assignment target value).code site.context start) := by
  obtain ⟨distance, offset, code, effect⟩ := reached.targetCode_effect formed wellFormed 1
  have given := reached.expression_straight formed valueFormed 0
  rw [Statement.code, code, List.append_assoc]
  refine .of_plain (given.append (.cons effect (.single .assign))) (plain_append.mpr ⟨value.code_plain _, ?_⟩)
  simp [Plain, Instruction.of, Instruction.target?]

/-- Statements leave the stack above the variables as they find it. -/
theorem statement_settled (reached : tree.Path (site :: outer)) (formed : tree.IsProgram) {s : Statement}
    (wellFormed : s.WellFormed site.context.meanings) (start : Nat) :
    Settled (site :: outer) start (s.code site.context start) := by
  have test : ∀ {condition : Expression}, condition.WellFormed site.context.meanings →
      Straight (site :: outer) ⟨0, none⟩ (condition.code site.context) ⟨1, none⟩ :=
    fun conditionFormed => reached.expression_straight formed conditionFormed 0
  induction wellFormed generalizing start with
  | empty => exact .of_plain .nil (by simp [Plain, Statement.code])
  | assignment found valueFormed =>
    exact reached.assignment_settled formed (.assignment found valueFormed) valueFormed start
  | result found marked valueFormed =>
    exact reached.assignment_settled formed (.result found marked valueFormed) valueFormed start
  | @call name distance visible arguments found argumentsFormed =>
    have given := codeAll_straight (fun a mem => reached.expression_straight formed (argumentsFormed a mem)) 0
    refine .of_plain (given.append (reached.callCode_straight formed found)) (plain_append.mpr ⟨?_, ?_⟩)
    · exact Expression.codeAll_plain fun a _ => a.code_plain _
    · exact CodeContext.callCode_plain _ _
  | sequence _ _ ihFirst ihRest => exact (ihFirst start).append (ihRest _)
  | compound _ ih => exact ih start
  | @ifThen condition consequent conditionFormed _ ih =>
    have branch := ih (start + (condition.code site.context).length + 1)
    refine .guarded (test conditionFormed) (condition.code_plain _) ?_ branch.straight ?_
    · exact .behind_guard (test conditionFormed) (.at_end branch.straight)
    · exact fun instruction mem goal leads =>
        .behind_guard (test conditionFormed) (branch.rests instruction mem goal leads)
  | @ifElse condition consequent alternative conditionFormed _ _ ihConsequent ihAlternative =>
    have branch := ihConsequent (start + (condition.code site.context).length + 1)
    have both := branch.alternatives (ihAlternative _)
    simp only [Statement.code]
    rw [List.append_assoc, List.cons_append]
    refine .guarded (test conditionFormed) (condition.code_plain _) ?_ both.straight ?_
    · exact .behind_guard (test conditionFormed) (.behind_jump branch.straight .at_start)
    · exact fun instruction mem goal leads =>
        .behind_guard (test conditionFormed) (both.rests instruction mem goal leads)
  | @whileDo condition body conditionFormed _ ih =>
    have round := ih (start + (condition.code site.context).length + 1)
    simp only [Statement.code]
    rw [List.append_assoc, List.cons_append]
    exact .loop (test conditionFormed) (condition.code_plain _) round
  | @repeatUntil body condition _ conditionFormed ih =>
    exact .repetition (test conditionFormed) (condition.code_plain _) (ih start)

/-- The statement of a block. -/
theorem body_settled (reached : tree.Path (site :: outer)) (formed : tree.IsProgram) :
    Settled (site :: outer) (site.entry + 1) site.bodyCode :=
  reached.statement_settled formed (reached.body_wellFormed formed) _

end Block.Path

end PLZero
