import PLZero.Proofs.Generation.Shapes

namespace PLZero

mutual

/-- The names that an expression uses. -/
def Expression.names : Expression → List String
  | .number _ => []
  | .name identifier => [identifier]
  | .call callee arguments => callee :: Expression.allNames arguments
  | .group inner | .unary _ inner | .odd inner => inner.names
  | .binary _ left right => left.names ++ right.names

def Expression.allNames : List Expression → List String
  | [] => []
  | first :: rest => first.names ++ Expression.allNames rest

end

/-- The names that a statement uses. -/
def Statement.names : Statement → List String
  | .empty => []
  | .assignment target value => target :: value.names
  | .call name arguments => name :: Expression.allNames arguments
  | .sequence first rest => first.names ++ rest.names
  | .compound body => body.names
  | .ifThen condition consequent => condition.names ++ consequent.names
  | .ifElse condition consequent alternative => condition.names ++ consequent.names ++ alternative.names
  | .whileDo condition body | .repeatUntil body condition => condition.names ++ body.names

/-- An instruction of a block. One that accesses a word of a frame or calls a subroutine does so for a name that the
statement of the block uses, and its level tells how many blocks out the block is to which the word or the subroutine
belongs. All others have level zero. -/
inductive Site.Refers (site : Site) (outer : List Site) : Instruction → Prop
  | variable {name : String} {distance : Nat} {offset : Int} {visible : CodeContext} {around : Site}
      {level : Fin (maxLevel + 1)} : name ∈ site.block.body.names →
      site.context.find? name = some ⟨distance, .variable offset, visible⟩ →
      (site :: outer)[distance]? = some around → around.Slot name offset → level.val = distance →
      Refers site outer ⟨.named .pushVar, level, offset⟩
  | result {name : String} {distance arity address : Nat} {visible : CodeContext} {around : Site} {heading : Heading}
      {level : Fin (maxLevel + 1)} : name ∈ site.block.body.names →
      site.context.find? name = some ⟨distance + 1, .routine .function arity address, visible⟩ →
      (site :: outer)[distance]? = some around → around.owner = some heading → heading.name = name →
      heading.kind = .function → level.val = distance → Refers site outer ⟨.named .pushVar, level, resultSlot⟩
  | routine {name : String} {distance arity address : Nat} {kind : Routine} {visible : CodeContext}
      {around inner : Site} {heading : Heading} {level : Fin (maxLevel + 1)} : name ∈ site.block.body.names →
      site.context.find? name = some ⟨distance, .routine kind arity address, visible⟩ →
      (site :: outer)[distance]? = some around → around.Encloses inner → inner.owner = some heading →
      heading.name = name → address = inner.start ∨ address = inner.entry → level.val = distance →
      Refers site outer ⟨.named .call, level, address⟩
  | other {op : Opcode} {value : Int} : op ≠ .pushVar → op ≠ .call → Refers site outer ⟨.named op, 0, value⟩

theorem Site.Refers.exists_opcode {site : Site} {outer : List Site} {instruction : Instruction}
    (refers : site.Refers outer instruction) : ∃ op level value, instruction = ⟨.named op, level, value⟩ := by
  cases refers <;> exact ⟨_, _, _, rfl⟩

theorem Expression.forall_mem_codeAll {P : Instruction → Prop} {context : CodeContext} {arguments : List Expression}
    (all : ∀ a ∈ arguments, (∀ name ∈ a.names, ∀ i ∈ context.valueCode name ++ context.callCode name, P i) →
      ∀ i ∈ a.code context, P i)
    (named : ∀ name ∈ allNames arguments, ∀ i ∈ context.valueCode name ++ context.callCode name, P i) :
    ∀ i ∈ codeAll context arguments, P i := by
  induction arguments with
  | nil => simp [codeAll]
  | cons first rest ih =>
    rw [codeAll, List.forall_mem_append]
    rw [allNames, List.forall_mem_append] at named
    exact ⟨all first List.mem_cons_self named.1, ih (fun a mem => all a (List.mem_cons_of_mem _ mem)) named.2⟩

section

variable {P : Instruction → Prop} {context : CodeContext}
  (constant : ∀ value : Nat, (value : Int) ≤ greatestWord → P (.of .pushConst 0 value))
  (plain : ∀ op value, op ≠ .pushConst → op ≠ .pushVar → op ≠ .call → P (.of op 0 value))
include constant plain

/-- The instructions of an expression are ones for its names, constants, and operators. -/
theorem Expression.WellFormed.forall_mem_code {e : Expression} (formed : e.WellFormed context.meanings)
    (named : ∀ name ∈ e.names, ∀ i ∈ context.valueCode name ++ context.callCode name, P i) :
    ∀ i ∈ e.code context, P i := by
  induction formed with
  | number small => simpa [code] using constant _ small
  | constantName | variableName =>
    rw [names, List.forall_mem_singleton, List.forall_mem_append] at named
    exact named.1
  | call _ _ ih =>
    rw [names, List.forall_mem_cons, List.forall_mem_append] at named
    rw [code, List.forall_mem_append]
    exact ⟨forall_mem_codeAll ih named.2, named.1.2⟩
  | group _ ih => exact ih named
  | unary _ ih =>
    rw [code, List.forall_mem_append, List.forall_mem_singleton]
    exact ⟨ih named, plain _ _ (by simp) (by simp) (by simp)⟩
  | odd _ ih =>
    rw [code, List.forall_mem_append, List.forall_mem_cons, List.forall_mem_singleton]
    exact ⟨ih named, constant 1 (by decide), plain _ _ (by simp) (by simp) (by simp)⟩
  | binary _ _ ihLeft ihRight =>
    rw [names, List.forall_mem_append] at named
    rw [code, List.forall_mem_append, List.forall_mem_append, List.forall_mem_singleton]
    exact ⟨⟨ihLeft named.1, ihRight named.2⟩, plain _ _ (by simp) (by simp) (by simp)⟩

/-- Those of a statement are ones of its expressions, for calls and for what is assigned to, and jumps. -/
theorem Statement.WellFormed.forall_mem_code {s : Statement} (formed : s.WellFormed context.meanings)
    (named : ∀ name ∈ s.names, ∀ i ∈ context.valueCode name ++ context.callCode name, P i)
    (targets : ∀ name ∈ s.names, ∀ value, (Statement.assignment name value).WellFormed context.meanings →
      ∀ i ∈ context.targetCode name, P i) (start : Nat) : ∀ i ∈ s.code context start, P i := by
  have expression : ∀ {e : Expression}, e.WellFormed context.meanings → _ :=
    fun formed => formed.forall_mem_code constant plain
  induction formed generalizing start with
  | empty => simp [code]
  | assignment found valueFormed =>
    rw [names, List.forall_mem_cons] at named
    rw [code, List.forall_mem_append, List.forall_mem_append, List.forall_mem_singleton]
    exact ⟨⟨expression valueFormed named.2, targets _ List.mem_cons_self _ (.assignment found valueFormed)⟩,
      plain _ _ (by simp) (by simp) (by simp)⟩
  | result found marked valueFormed =>
    rw [names, List.forall_mem_cons] at named
    rw [code, List.forall_mem_append, List.forall_mem_append, List.forall_mem_singleton]
    exact ⟨⟨expression valueFormed named.2, targets _ List.mem_cons_self _ (.result found marked valueFormed)⟩,
      plain _ _ (by simp) (by simp) (by simp)⟩
  | call _ argumentsFormed =>
    rw [names, List.forall_mem_cons, List.forall_mem_append] at named
    rw [code, List.forall_mem_append]
    exact ⟨Expression.forall_mem_codeAll (fun a mem => expression (argumentsFormed a mem)) named.2, named.1.2⟩
  | sequence _ _ ihFirst ihRest =>
    rw [names, List.forall_mem_append] at named targets
    rw [code, List.forall_mem_append]
    exact ⟨ihFirst named.1 targets.1 _, ihRest named.2 targets.2 _⟩
  | compound _ ih => exact ih named targets start
  | ifThen conditionFormed _ ih =>
    rw [names, List.forall_mem_append] at named targets
    rw [code, List.forall_mem_append, List.forall_mem_cons]
    exact ⟨expression conditionFormed named.1, plain _ _ (by simp) (by simp) (by simp), ih named.2 targets.2 _⟩
  | ifElse conditionFormed _ _ ihConsequent ihAlternative =>
    rw [names, List.forall_mem_append, List.forall_mem_append] at named targets
    rw [code, List.append_assoc, List.forall_mem_append, List.cons_append, List.forall_mem_cons,
      List.forall_mem_append, List.forall_mem_cons]
    exact ⟨expression conditionFormed named.1.1, plain _ _ (by simp) (by simp) (by simp),
      ihConsequent named.1.2 targets.1.2 _, plain _ _ (by simp) (by simp) (by simp),
      ihAlternative named.2 targets.2 _⟩
  | whileDo conditionFormed _ ih =>
    rw [names, List.forall_mem_append] at named targets
    rw [code, List.append_assoc, List.forall_mem_append, List.cons_append, List.forall_mem_cons,
      List.forall_mem_append, List.forall_mem_singleton]
    exact ⟨expression conditionFormed named.1, plain _ _ (by simp) (by simp) (by simp), ih named.2 targets.2 _,
      plain _ _ (by simp) (by simp) (by simp)⟩
  | repeatUntil _ conditionFormed ih =>
    rw [names, List.forall_mem_append] at named targets
    rw [code, List.forall_mem_append, List.forall_mem_append, List.forall_mem_singleton]
    exact ⟨⟨ih named.2 targets.2 _, expression conditionFormed named.1⟩, plain _ _ (by simp) (by simp) (by simp)⟩

end

namespace Block.Path

variable {tree : Block} {site : Site} {outer : List Site}

theorem refers_value (reached : tree.Path (site :: outer)) (formed : tree.IsProgram) {name : String}
    (mem : name ∈ site.block.body.names) :
    ∀ i ∈ site.context.valueCode name ++ site.context.callCode name, site.Refers outer i := by
  rw [List.forall_mem_append, CodeContext.valueCode, CodeContext.callCode]
  cases found : site.context.find? name with
  | none => simp
  | some place =>
    obtain ⟨distance, entry, visible⟩ := place
    obtain ⟨around, atAround, gives⟩ := reached.gives_of_find? found
    have level := reached.level_of formed atAround
    cases entry with
    | constant value =>
      refine ⟨?_, by simp⟩
      rw [List.forall_mem_singleton]
      exact .other (by simp) (by simp)
    | «variable» offset =>
      refine ⟨?_, by simp⟩
      rw [List.forall_mem_cons, List.forall_mem_singleton]
      exact ⟨.variable mem found atAround gives level, .other (by simp) (by simp)⟩
    | routine kind arity address =>
      refine ⟨by simp, ?_⟩
      obtain ⟨inner, heading, encloses, owned, named, -, -, called⟩ := gives
      rw [List.forall_mem_singleton]
      exact .routine mem found atAround encloses owned named called level

theorem refers_target (reached : tree.Path (site :: outer)) (formed : tree.IsProgram) {target : String}
    {value : Expression} (mem : target ∈ site.block.body.names)
    (wellFormed : (Statement.assignment target value).WellFormed site.context.meanings) :
    ∀ i ∈ site.context.targetCode target, site.Refers outer i := by
  cases wellFormed with
  | assignment found _ =>
    obtain ⟨entry, inner, found, meaning⟩ := CodeContext.exists_of_find?_meanings found
    obtain ⟨around, atAround, gives⟩ := reached.gives_of_find? found
    rw [CodeContext.targetCode, found]
    cases entry with
    | «variable» offset =>
      rw [List.forall_mem_singleton]
      exact .variable mem found atAround gives (reached.level_of formed atAround)
    | _ => cases meaning
  | result found marked _ =>
    obtain ⟨entry, inner, found, meaning⟩ := CodeContext.exists_of_find?_meanings found
    cases entry with
    | routine kind arity address =>
      cases meaning
      rw [CodeContext.mark_meanings] at marked
      obtain ⟨around, heading, atAround, owned, named, isFunction⟩ := reached.function_of_find? formed found marked
      rw [CodeContext.targetCode, found, List.forall_mem_singleton]
      exact .result mem found atAround owned named isFunction (reached.level_of formed atAround)
    | _ => cases meaning

/-- Each instruction that belongs to a block has the level that its name asks for. -/
theorem refers (reached : tree.Path (site :: outer)) (formed : tree.IsProgram) {address : Nat}
    {instruction : Instruction} (owned : site.Owns address) (fetched : tree.program[address]? = some instruction) :
    site.Refers outer instruction := by
  have plain : ∀ {op value}, op ≠ .pushVar → op ≠ .call → site.Refers outer (.of op 0 value) :=
    fun noVar noCall => .other noVar noCall
  refine reached.forall_owned (P := fun _ i => site.Refers outer i) (plain (by simp) (by simp)) (plain (by simp) (by simp)) ?_ ?_ owned
    fetched
  · intro index i atIndex
    refine (reached.body_wellFormed formed).forall_mem_code (fun _ _ => plain (by simp) (by simp))
      (fun _ _ _ => plain) ?_ ?_ _ i (List.mem_of_getElem? atIndex)
    · exact fun name mem => reached.refers_value formed mem
    · exact fun name mem value assigned => reached.refers_target formed mem assigned
  · rcases site.return_cases with ⟨-, leaves⟩ | ⟨-, leaves⟩ <;> rw [leaves] <;> exact plain (by simp) (by simp)

end Block.Path

namespace Site

/-- An address in the code of some subroutines lies in one of them. -/
theorem exists_covers {site : Site} {address : Nat} {before after : List (Heading × Block)}
    (split : site.block.subroutines = before ++ after) (lower : site.start < address)
    (upper : address < site.start + 1 + (site.nested before).2.length) :
    ∃ inner, site.Encloses inner ∧ inner.Covers address := by
  induction before using List.reverseRecOn generalizing after with
  | nil =>
    rw [nested, Block.generateAll, List.length_nil] at upper
    omega
  | append_singleton before subroutine ih =>
    obtain ⟨heading, block⟩ := subroutine
    rw [List.append_assoc] at split
    by_cases earlier : address < site.start + 1 + (site.nested before).2.length
    · exact ih split earlier
    · refine ⟨site.child before heading block, .child split, ?_, ?_⟩
      · rw [child_start]
        omega
      · have length := (site.child before heading block).length_code
        have whole : (site.nested (before ++ [(heading, block)])).2 =
            (site.nested before).2 ++ (site.child before heading block).code := by
          rw [nested, Block.generateAll_append]
          simp only [Block.generateAll, generate_eq, List.append_nil]
          rfl
        rw [whole, List.length_append] at upper
        rw [child_start] at length
        omega

end Site

namespace Block.Path

/-- Each address in the code of a block belongs to the block or to one of those within it. -/
theorem exists_owns_of_covers {tree : Block} {address : Nat} {site : Site} {outer : List Site}
    (reached : tree.Path (site :: outer)) (covered : site.Covers address) :
    ∃ inner around, tree.Path (inner :: around) ∧ inner.Owns address := by
  generalize same : site.block = block
  induction block using Block.induction generalizing site outer with
  | mk constants vars subroutines body ih =>
    by_cases owned : site.Owns address
    · exact ⟨site, outer, reached, owned⟩
    · obtain ⟨lower, upper⟩ := covered
      have later : site.start < address := Nat.lt_of_le_of_ne lower fun atStart => owned (.inl atStart.symm)
      have earlier : address < site.entry := Nat.lt_of_not_le fun behind => owned (.inr ⟨behind, upper⟩)
      obtain ⟨inner, encloses, covered⟩ := Site.exists_covers (List.append_nil _).symm later earlier
      obtain ⟨heading, isOwner⟩ := encloses.exists_owner
      have mem := encloses.mem isOwner
      rw [same] at mem
      exact ih (heading, inner.block) mem (reached.inner encloses) covered rfl

/-- Each address of a program belongs to a block. -/
theorem exists_owns {tree : Block} {address : Nat} (inside : address < tree.program.length) :
    ∃ site outer, tree.Path (site :: outer) ∧ site.Owns address := by
  have length := (Site.main tree).length_code
  have start : (Site.main tree).start = 0 := rfl
  rw [← Site.main_code] at inside
  exact exists_owns_of_covers .main ⟨by omega, by omega⟩

end Block.Path

end PLZero
