import PLZero.Proofs.Execution.Frames

namespace PLZero

namespace MachineM

/-- What an action leads to, unless the stack overflows or a division by zero comes up. -/
def Proceeds {α : Type} (action : MachineM α) (machine : Machine) (post : Machine → Prop) : Prop :=
  match action machine with
  | .ok _ after => post after
  | .error fault _ => fault.cause = .overflow ∨ fault.cause = .divisionByZero

theorem Achieves.proceeds {α : Type} {action : MachineM α} {machine : Machine} {goal : α → Machine → Prop}
    {post : Machine → Prop} (achieved : action.Achieves machine goal)
    (enough : ∀ result after, goal result after → post after) : action.Proceeds machine post := by
  simp only [Achieves, Proceeds] at achieved ⊢
  cases ran : action machine with
  | ok result after =>
    rw [ran] at achieved
    exact enough result after achieved
  | error fault after =>
    rw [ran] at achieved
    exact .inl achieved

theorem Proceeds.imp {α : Type} {action : MachineM α} {machine : Machine} {post weaker : Machine → Prop}
    (proceeds : action.Proceeds machine post) (enough : ∀ after, post after → weaker after) :
    action.Proceeds machine weaker := by
  simp only [Proceeds] at proceeds ⊢
  cases ran : action machine with
  | ok result after =>
    rw [ran] at proceeds
    exact enough after proceeds
  | error fault after =>
    rw [ran] at proceeds
    exact proceeds

theorem proceeds_of_ok {action : MachineM Unit} {machine : Machine} {post : Snapshot → Prop}
    (ran : ∃ after s', action machine = .ok () after ∧ after.Shows s' ∧ post s') :
    action.Proceeds machine fun after => ∃ s', after.Shows s' ∧ post s' := by
  obtain ⟨after, s', ran, shows, reached⟩ := ran
  simp only [Proceeds, ran]
  exact ⟨s', shows, reached⟩

theorem proceeds_of_divisionByZero {α : Type} {action : MachineM α} {machine after : Machine} {fault : Fault}
    {post : Machine → Prop} (failed : action machine = .error fault after) (cause : fault.cause = .divisionByZero) :
    action.Proceeds machine post := by
  simp only [Proceeds, failed]
  exact .inr cause

end MachineM

namespace Stacked

variable {tree : Block} {words more : List Int} {current : Activation} {callers : List Waiting}

theorem append (stacked : Stacked tree words current callers) : Stacked tree (words ++ more) current callers := by
  have inside : current.base + 2 < words.length := by
    cases stacked with
    | main _ _ atReturn => exact (List.getElem?_eq_some_iff.mp atReturn).1
    | call _ _ _ _ _ atReturn => exact (List.getElem?_eq_some_iff.mp atReturn).1
  exact stacked.congr_of_lt fun address below => List.getElem?_append_left (by omega)

theorem left (stacked : Stacked tree (words ++ more) current callers) (inside : current.base + 3 ≤ words.length) :
    Stacked tree words current callers :=
  stacked.congr_of_lt fun address below => (List.getElem?_append_left (by omega)).symm

/-- An activation that another one waits for is one of a subroutine. -/
theorem exists_owner {caller : Waiting} (stacked : Stacked tree words current (caller :: callers)) :
    ∃ heading, current.site.owner = some heading := by
  obtain ⟨site, outer, base, link⟩ := current
  cases stacked with
  | call _ reached around =>
    obtain ⟨parent, -, path, -⟩ := around
    change tree.Path (site :: outer) at reached
    change parent.path = outer at path
    subst path
    cases reached with
    | inner _ encloses => exact encloses.exists_owner

end Stacked

/-- The stack within the statement of a block: above the room for the variables lies what the shape tells. An address on
top is that of a word which code may change, in the frame of an activation of a block around. -/
structure Loaded (tree : Block) (words : List Int) (current : Activation) (callers : List Waiting) (shape : Shape) :
    Prop where
  stacked : Stacked tree words current callers
  length_eq : words.length = current.base + frameSize + current.site.room + shape.height
  pending : ∀ distance offset, shape.address = some (distance, offset) → ∃ around ∈ frames current callers,
    around.path = current.path.drop distance ∧ around.site.Writable offset ∧
      words.getLast? = some (around.base + offset)

namespace Loaded

variable {tree : Block} {words : List Int} {current : Activation} {callers : List Waiting} {count : Nat}

theorem bare (stacked : Stacked tree words current callers)
    (length : words.length = current.base + frameSize + current.site.room + count) :
    Loaded tree words current callers ⟨count, none⟩ :=
  ⟨stacked, length, fun _ _ none => by cases none⟩

theorem push (loaded : Loaded tree words current callers ⟨count, none⟩) (value : Int) :
    Loaded tree (words ++ [value]) current callers ⟨count + 1, none⟩ := by
  refine bare loaded.stacked.append ?_
  have length := loaded.length_eq
  rw [Shape.height_none] at length
  rw [List.length_append, List.length_singleton, length, Nat.add_assoc]

theorem pushAddress (loaded : Loaded tree words current callers ⟨count, none⟩) {around : Activation}
    {distance : Nat} {offset : Int} (mem : around ∈ frames current callers)
    (path : around.path = current.path.drop distance) (writable : around.site.Writable offset) :
    Loaded tree (words ++ [(around.base : Int) + offset]) current callers ⟨count, some (distance, offset)⟩ where
  stacked := loaded.stacked.append
  length_eq := by
    have length := loaded.length_eq
    rw [Shape.height_none] at length
    rw [List.length_append, List.length_singleton, length, Shape.height_some, Nat.add_assoc]
  pending := by
    intro _ _ pushed
    cases pushed
    exact ⟨around, mem, path, writable, List.getLast?_concat⟩

/-- The word on top, when the shape tells of one. -/
theorem exists_top {shape : Shape} (loaded : Loaded tree words current callers shape)
    (some : shape.height = count + 1) :
    ∃ below top, words = below ++ [top] ∧ Loaded tree below current callers ⟨count, none⟩ := by
  have length := loaded.length_eq
  rw [some] at length
  rcases List.eq_nil_or_concat words with rfl | ⟨below, top, rfl⟩
  · simp at length
  · rw [List.concat_eq_append] at length loaded ⊢
    rw [List.length_append, List.length_singleton, ← Nat.add_assoc] at length
    have fewer := Nat.add_right_cancel length
    refine ⟨below, top, rfl, bare (loaded.stacked.left ?_) fewer⟩
    rw [fewer, frameSize]
    omega

theorem pop (loaded : Loaded tree words current callers ⟨count + 1, none⟩) :
    ∃ below top, words = below ++ [top] ∧ Loaded tree below current callers ⟨count, none⟩ :=
  loaded.exists_top rfl

/-- An address on top is one of a word below the operands. -/
theorem popAddress {address : Nat × Int} (loaded : Loaded tree words current callers ⟨count, some address⟩) :
    ∃ below around, ∃ target : Nat, words = below ++ [(target : Int)] ∧
      Loaded tree below current callers ⟨count, none⟩ ∧ around ∈ frames current callers ∧
      around.path = current.path.drop address.1 ∧ around.site.Writable address.2 ∧
      (around.base : Int) + address.2 = target ∧ target < current.base + current.site.room := by
  obtain ⟨around, mem, path, writable, onTop⟩ := loaded.pending address.1 address.2 rfl
  obtain ⟨target, isAddress, inside⟩ := loaded.stacked.slot_lt mem writable
  obtain ⟨below, top, rfl, kept⟩ := loaded.exists_top rfl
  have topIs : top = target := by simpa [isAddress] using onTop
  exact ⟨below, around, target, by rw [topIs], kept, mem, path, writable, isAddress, inside⟩

/-- Words of frames that code may change do not matter. -/
theorem set (loaded : Loaded tree words current callers ⟨count, none⟩) {around : Activation} {offset : Int}
    {target : Nat} (mem : around ∈ frames current callers) (writable : around.site.Writable offset)
    (isAddress : (around.base : Int) + offset = target) (value : Int) :
    Loaded tree (words.set target value) current callers ⟨count, none⟩ := by
  refine bare (loaded.stacked.congr fun lower also index isLink => List.getElem?_set_ne ?_) ?_
  · have apart := loaded.stacked.slot_not_link mem writable also isLink
    omega
  · rw [List.length_set, loaded.length_eq, Shape.height_none]

end Loaded

/-- How far the current activation has come: it has not yet made room for its variables, or it is within its
statement. -/
inductive Point (tree : Block) (current : Activation) (callers : List Waiting) (words : List Int) (pc : Nat) : Prop
  | called : Stacked tree words current callers → pc = current.site.start ∨ pc = current.site.entry →
      words.length = current.base + frameSize → Point tree current callers words pc
  | within {shape : Shape} : ShapeAt current.site current.outer pc shape → Loaded tree words current callers shape →
      Point tree current callers words pc

/-- What holds of the machine whenever code of a program runs: all of the stack is accounted for by activations. -/
structure Standing (tree : Block) (s : Snapshot) (current : Activation) (callers : List Waiting) : Prop where
  code_eq : s.code = tree.program
  bp_eq : s.bp = current.base
  point : Point tree current callers s.words s.pc

namespace ShapeAt

variable {tree : Block} {site : Site} {outer : List Site} {address : Nat} {shape other after : Shape}

theorem of_rests {target : Int} (rests : Rests (site :: outer) (site.entry + 1) site.bodyCode target) :
    ∃ address : Nat, target = address ∧ ShapeAt site outer address ⟨0, none⟩ := by
  obtain ⟨front, back, spelled, led, straight⟩ := rests
  exact ⟨_, led, front, back, spelled, rfl, straight⟩

theorem pos (shaped : ShapeAt site outer address shape) : address ≠ 0 := by
  obtain ⟨front, back, -, rfl, -⟩ := shaped
  omega

/-- What stands within a statement belongs to its block. -/
theorem owns (shaped : ShapeAt site outer address shape) : site.Owns address := by
  obtain ⟨front, back, spelled, rfl, -⟩ := shaped
  have length := congrArg List.length spelled
  rw [List.length_append] at length
  refine .inr ⟨by omega, ?_⟩
  rw [Site.last]
  omega

/-- Each place in a statement has one shape of the stack. -/
theorem unique (shaped : ShapeAt site outer address shape) (also : ShapeAt site outer address other) :
    shape = other := by
  obtain ⟨front, back, spelled, rfl, straight⟩ := shaped
  obtain ⟨alsoFront, alsoBack, alsoSpelled, sameAddress, alsoStraight⟩ := also
  have sameLength : front.length = alsoFront.length := by omega
  obtain ⟨rfl, -⟩ := List.append_inj (spelled.symm.trans alsoSpelled) sameLength
  exact straight.unique alsoStraight

theorem not_called (shaped : ShapeAt site outer address shape) : address ≠ site.start ∧ address ≠ site.entry := by
  obtain ⟨front, back, -, rfl, -⟩ := shaped
  have behind := site.start_lt_entry
  omega

/-- Within the statement of a block stands the next instruction, which fits the shape; behind it the return. -/
theorem next (shaped : ShapeAt site outer address shape) (reached : tree.Path (site :: outer))
    (formed : tree.IsProgram) :
    address = site.last ∧ shape = ⟨0, none⟩ ∨
      ∃ instruction after, tree.program[address]? = some instruction ∧ Effect (site :: outer) instruction shape after ∧
        ShapeAt site outer (address + 1) after ∧
        ∀ target, instruction.target? = some target →
          ∃ goal : Nat, target = goal ∧ ShapeAt site outer goal ⟨0, none⟩ := by
  obtain ⟨front, back, spelled, rfl, straight⟩ := shaped
  have body := reached.body_settled formed
  obtain ⟨between, upTo, behind⟩ := (spelled ▸ body.straight).split
  obtain rfl := upTo.unique straight
  cases behind with
  | nil =>
    rw [List.append_nil] at spelled
    exact .inl ⟨by rw [Site.last, spelled], rfl⟩
  | @cons instruction rest _ after _ effect _ =>
    have placed := reached.code_body
    rw [spelled] at placed
    refine .inr ⟨instruction, after, placed.middle, effect, ⟨front ++ [instruction], rest, ?_, ?_, ?_⟩, ?_⟩
    · rw [spelled, List.append_cons]
    · rw [List.length_append, List.length_singleton, Nat.add_assoc _ front.length]
    · exact straight.append (.single effect)
    · intro target leads
      refine of_rests (body.rests instruction ?_ target leads)
      rw [spelled]
      exact List.mem_append_right _ List.mem_cons_self

end ShapeAt

theorem Instruction.eq_of_level (op : Opcode) (level : Fin (maxLevel + 1)) (value : Int) :
    (⟨.named op, level, value⟩ : Instruction) = .of op level value := by
  rw [of, Fin.ofNat_val_eq_self]

namespace Standing

open MachineM

variable {tree : Block} {s : Snapshot} {current : Activation} {callers : List Waiting} {decoded : Machine}
  {shape after : Shape} {instruction : Instruction}

theorem stacked (standing : Standing tree s current callers) : Stacked tree s.words current callers := by
  cases standing.point with
  | called stacked => exact stacked
  | within _ loaded => exact loaded.stacked

theorem path (standing : Standing tree s current callers) : tree.Path (current.site :: current.outer) :=
  standing.stacked.path

/-- The statement goes on at an address, with other words above the frame. -/
theorem within (standing : Standing tree s current callers) {address : Nat} {words : List Int}
    (shaped : ShapeAt current.site current.outer address shape) (loaded : Loaded tree words current callers shape) :
    Standing tree { s with pc := address, words } current callers where
  code_eq := standing.code_eq
  bp_eq := standing.bp_eq
  point := .within shaped loaded

/-- An instruction that neither calls nor returns leads to another point of the same statement. -/
theorem goesOn (standing : Standing tree s current callers) (loaded : Loaded tree s.words current callers shape)
    (effect : Effect current.path instruction shape after)
    (behind : ShapeAt current.site current.outer (s.pc + 1) after)
    (led : ∀ target, instruction.target? = some target →
      ∃ goal : Nat, target = goal ∧ ShapeAt current.site current.outer goal ⟨0, none⟩)
    (plain : instruction.operation ≠ .named .call) (shown : decoded.Shows { s with pc := s.pc + 1 }) :
    (execute instruction).Proceeds decoded fun reached =>
      ∃ s', reached.Shows s' ∧ s'.size = s.size ∧ s'.pc ≠ 0 ∧ Standing tree s' current callers := by
  have next : s.pc + 1 ≠ 0 := Nat.succ_ne_zero _
  cases effect with
  | pushConst =>
    exact (execute_pushConst shown).proceeds fun _ reached shows =>
      ⟨_, shows, rfl, next, standing.within behind (loaded.push _)⟩
  | unary =>
    obtain ⟨below, a, words, kept⟩ := loaded.pop
    exact (execute_unary shown words).proceeds fun _ reached shows =>
      ⟨_, shows, rfl, next, standing.within behind (kept.push _)⟩
  | @binary count op =>
    obtain ⟨most, b, words, fewer⟩ := loaded.pop
    obtain ⟨below, a, rfl, kept⟩ := fewer.pop
    cases applied : op.apply? a b with
    | none =>
      obtain ⟨fault, after, failed, cause⟩ := execute_divisionByZero shown words applied
      exact proceeds_of_divisionByZero failed cause
    | some result =>
      exact (execute_binary shown words applied).proceeds fun _ reached shows =>
        ⟨_, shows, rfl, next, standing.within behind (kept.push _)⟩
  | @pushVar count around offset level atAround writable =>
    obtain ⟨inside, atLevel⟩ := List.getElem?_eq_some_iff.mp atAround
    obtain ⟨target, mem, path, chain⟩ := loaded.stacked.chain inside
    rw [← standing.bp_eq] at chain
    have same : target.site = around := by
      rw [List.drop_eq_getElem_cons inside] at path
      exact (List.cons.inj path).1.trans atLevel
    rw [Instruction.eq_of_level]
    exact (execute_pushVar shown (Nat.le_of_lt_succ level.isLt) chain).proceeds fun _ reached shows =>
      ⟨_, shows, rfl, next, standing.within behind (loaded.pushAddress mem path (same ▸ writable))⟩
  | eval =>
    obtain ⟨below, around, target, words, kept, -, -, -, -, inside⟩ := loaded.popAddress
    have length := kept.length_eq
    have held : target < below.length := by omega
    exact (execute_eval shown words (List.getElem?_eq_getElem held)).proceeds fun _ reached shows =>
      ⟨_, shows, rfl, next, standing.within behind (kept.push _)⟩
  | assign =>
    obtain ⟨most, around, target, words, more, mem, -, writable, isAddress, inside⟩ := loaded.popAddress
    obtain ⟨below, value, rfl, kept⟩ := more.pop
    have length := kept.length_eq
    exact (execute_assign shown words (by omega)).proceeds fun _ reached ⟨shows, _⟩ =>
      ⟨_, shows, rfl, next, standing.within behind (kept.set mem writable isAddress value)⟩
  | call => exact absurd rfl plain
  | @jneq target =>
    obtain ⟨below, test, words, kept⟩ := loaded.pop
    obtain ⟨goal, rfl, atGoal⟩ := led target rfl
    refine (execute_jneq shown words).proceeds fun _ reached shows => ⟨_, shows, rfl, ?_⟩
    by_cases zero : test = 0
    · simp only [if_pos zero]
      exact ⟨atGoal.pos, standing.within atGoal kept⟩
    · simp only [if_neg zero]
      exact ⟨next, standing.within behind kept⟩
  | @jump target =>
    obtain ⟨goal, rfl, atGoal⟩ := led target rfl
    exact Achieves.proceeds (execute_jump shown) fun _ reached shows =>
      ⟨_, shows, rfl, atGoal.pos, standing.within atGoal loaded⟩

/-- The jump in front of a block leads to its entry. -/
theorem jumps (standing : Standing tree s current callers) (length : s.words.length = current.base + frameSize)
    (shown : decoded.Shows { s with pc := s.pc + 1 }) :
    (execute (.of .jump 0 current.site.entry)).Proceeds decoded fun reached =>
      ∃ s', reached.Shows s' ∧ s'.size = s.size ∧ s'.pc ≠ 0 ∧ Standing tree s' current callers := by
  refine Achieves.proceeds (execute_jump shown) fun _ reached shows => ⟨_, shows, rfl, ?_, ?_⟩
  · have behind := current.site.start_lt_entry
    change current.site.entry ≠ 0
    omega
  · exact ⟨standing.code_eq, standing.bp_eq, .called standing.stacked (.inr rfl) length⟩

/-- Behind the entry of a block its statement begins. -/
theorem enters (standing : Standing tree s current callers) (length : s.words.length = current.base + frameSize)
    (atEntry : s.pc = current.site.entry) (shown : decoded.Shows { s with pc := s.pc + 1 }) :
    (execute (.of .enter 0 current.site.room)).Proceeds decoded fun reached =>
      ∃ s', reached.Shows s' ∧ s'.size = s.size ∧ s'.pc ≠ 0 ∧ Standing tree s' current callers := by
  refine (execute_enter shown).proceeds fun _ reached entered => ?_
  obtain ⟨fresh, many, -, shows⟩ := entered
  have shaped : ShapeAt current.site current.outer (s.pc + 1) ⟨0, none⟩ :=
    ⟨[], _, rfl, by rw [atEntry, List.length_nil, Nat.add_zero], .nil⟩
  refine ⟨_, shows, rfl, Nat.succ_ne_zero _, standing.within shaped (.bare standing.stacked.append ?_)⟩
  rw [List.length_append, many, length, Nat.add_zero]

/-- A call begins an activation of the subroutine, with a link to an activation of the block that declares it. -/
theorem calls (standing : Standing tree s current callers) (step : Nat) {count address : Nat} {around inner : Site}
    {heading : Heading} {level : Fin (maxLevel + 1)}
    (loaded : Loaded tree s.words current callers ⟨count + heading.parameters.length, none⟩)
    (atAround : current.path[level.val]? = some around) (encloses : around.Encloses inner)
    (owned : inner.owner = some heading) (called : address = inner.start ∨ address = inner.entry)
    (behind : ShapeAt current.site current.outer (s.pc + 1) ⟨count + heading.kind.results, none⟩)
    (shown : decoded.Shows { s with pc := s.pc + 1 }) :
    (execute ⟨.named .call, level, address⟩).Proceeds decoded fun reached =>
      ∃ s' link, reached.Shows s' ∧ s'.size = s.size ∧ s'.pc = address ∧ s'.words.length = s.words.length + frameSize ∧
        Standing tree s' ⟨inner, current.path.drop level, s.words.length, link⟩
          (⟨current, s.pc + 1, count, step⟩ :: callers) := by
  obtain ⟨inside, atLevel⟩ := List.getElem?_eq_some_iff.mp atAround
  obtain ⟨target, mem, path, chain⟩ := loaded.stacked.chain inside
  rw [← standing.bp_eq] at chain
  rw [Instruction.eq_of_level]
  refine (execute_call shown (Nat.le_of_lt_succ level.isLt) chain).proceeds fun _ reached shows =>
    ⟨_, target.base, shows, rfl, rfl, by simp [frameSize], standing.code_eq, rfl, .called ?_ called ?_⟩
  · have parent : tree.Path (current.path.drop level) := loaded.stacked.path.drop inside
    have arity : inner.arity = heading.parameters.length := by rw [Site.arity, owned, Block.parametersOf]
    have results : inner.results = heading.kind.results := by rw [Site.results, owned]; rfl
    have length := loaded.length_eq
    rw [Shape.height_none] at length
    rw [List.drop_eq_getElem_cons inside, atLevel] at parent
    have reached := parent.inner encloses
    rw [← atLevel, ← List.drop_eq_getElem_cons inside] at reached
    simp only [List.append_assoc, List.singleton_append]
    refine .call loaded.stacked.append reached ⟨target, mem, path, rfl⟩ ?_ ?_ ?_ ?_ ?_
    · simp
    · simp [standing.bp_eq]
    · simp
    · simp only [length, arity]
      omega
    · simpa only [results] using behind
  · simp [frameSize]

end Standing

/-- What a step of the program does to the activations on the stack, if it does not fault: it stays within the current
activation, begins another one, or ends it. -/
inductive Follows (tree : Block) (step : Nat) (s : Snapshot) (current : Activation) (callers : List Waiting)
    (instruction : Instruction) (s' : Snapshot) : Prop
  | stays : instruction.operation ≠ .named .call → instruction.operation ≠ .named .ret →
      instruction.operation ≠ .named .retf → s'.pc ≠ 0 → Standing tree s' current callers →
      Follows tree step s current callers instruction s'
  | calls {callee : Activation} {count : Nat} : instruction.operation = .named .call → s'.pc ≠ 0 →
      instruction.value = s'.pc → s'.pc = callee.site.start ∨ s'.pc = callee.site.entry →
      callee.base = s.words.length → s'.words.length = callee.base + frameSize →
      Standing tree s' callee (⟨current, s.pc + 1, count, step⟩ :: callers) →
      Follows tree step s current callers instruction s'
  | returns {caller : Waiting} {rest : List Waiting} {result : Int} : callers = caller :: rest →
      instruction = Block.returnInstruction current.site.owner → s'.pc ≠ 0 → s'.pc = caller.back →
      s.words[current.base + 3]? = some result →
      s'.words = s.words.take (current.base - current.site.arity) ++ [result].take current.site.results →
      Standing tree s' caller.toActivation rest → Follows tree step s current callers instruction s'
  | halts : callers = [] → instruction = .of .ret → current = ⟨.main tree, [], 0, 0⟩ → s.pc = current.site.last →
      Loaded tree s.words current callers ⟨0, none⟩ → s'.pc = 0 → s'.bp = 0 → s'.words = [] →
      Follows tree step s current callers instruction s'

/-- The return of a block drops the frame and the arguments, and the result of a function takes their place. -/
theorem Site.execute_return {site : Site} {machine : Machine} {s : Snapshot} {back caller : Nat} {result : Int}
    (shown : machine.Shows s) (few : site.arity ≤ s.bp) (atResult : s.words[s.bp + 3]? = some result)
    (atReturn : s.words[s.bp + 2]? = some (back : Int)) (atSaved : s.words[s.bp + 1]? = some (caller : Int)) :
    ∃ after, MachineM.execute (Block.returnInstruction site.owner) machine = .ok () after ∧
      after.Shows
        { s with
          pc := back
          bp := caller
          words := s.words.take (s.bp - site.arity) ++ [result].take site.results } ∧
        (site.results = 0 → after.memory = machine.memory) := by
  rcases site.return_cases with ⟨none, leaves⟩ | ⟨one, leaves⟩
  · simpa [leaves, none] using MachineM.execute_ret shown few atResult atReturn atSaved
  · simpa [leaves, one] using MachineM.execute_retf shown few atResult atReturn atSaved

namespace Standing

open MachineM

variable {tree : Block} {s : Snapshot} {current : Activation} {callers : List Waiting} {decoded : Machine}
  {step : Nat}

/-- The main program returns to address zero and leaves nothing on the stack. -/
theorem halts (standing : Standing tree s current []) (loaded : Loaded tree s.words current [] ⟨0, none⟩)
    (atLast : s.pc = current.site.last) (shown : decoded.Shows { s with pc := s.pc + 1 }) :
    ∃ reached s', execute (Block.returnInstruction current.site.owner) decoded = .ok () reached ∧ reached.Shows s' ∧
      s'.size = s.size ∧ Follows tree step s current [] (Block.returnInstruction current.site.owner) s' := by
  have length := loaded.length_eq
  have atBase := standing.bp_eq
  cases loaded.stacked with
  | main _ atSaved atReturn =>
    have base : s.bp = 0 := atBase
    have inside : s.bp + 3 < s.words.length := by
      rw [length, base, frameSize]
      omega
    have toZero : s.words[s.bp + 2]? = some ((0 : Nat) : Int) := by simpa [base] using atReturn
    have savedZero : s.words[s.bp + 1]? = some ((0 : Nat) : Int) := by simpa [base] using atSaved
    have held := List.getElem?_eq_getElem inside
    have few : (Site.main tree).arity ≤ s.bp := Nat.zero_le _
    obtain ⟨reached, ran, shows, -⟩ := Site.execute_return shown few held toZero savedZero
    refine ⟨reached, _, ran, shows, rfl, .halts rfl rfl rfl atLast loaded rfl rfl ?_⟩
    simp [base, Site.results, Site.main]

/-- A subroutine returns to where its call is waited for, and leaves its result in place of the arguments. -/
theorem returns {caller : Waiting} (standing : Standing tree s current (caller :: callers))
    (loaded : Loaded tree s.words current (caller :: callers) ⟨0, none⟩)
    (shown : decoded.Shows { s with pc := s.pc + 1 }) :
    ∃ reached s', execute (Block.returnInstruction current.site.owner) decoded = .ok () reached ∧ reached.Shows s' ∧
      s'.size = s.size ∧ Follows tree step s current (caller :: callers) (Block.returnInstruction current.site.owner) s' := by
  have length := loaded.length_eq
  have atBase := standing.bp_eq
  have few := loaded.stacked.arity_le
  cases loaded.stacked with
  | call stacked reached around atLink atSaved atReturn base goesOn =>
    have inside : current.base + 3 < s.words.length := by
      rw [length, frameSize]
      omega
    have held := List.getElem?_eq_getElem inside
    generalize s.words[current.base + 3] = result at held
    have rest : (s.words.take (current.base - current.site.arity)).length =
        caller.base + frameSize + caller.site.room + caller.kept := by
      rw [List.length_take]
      omega
    have kept : Stacked tree (s.words.take (current.base - current.site.arity)) caller.toActivation callers := by
      rw [← List.take_append_drop (current.base - current.site.arity) s.words] at stacked
      refine stacked.left ?_
      rw [rest, frameSize]
      omega
    have single : current.site.results ≤ [result].length := by
      rcases current.site.return_cases with ⟨none, -⟩ | ⟨one, -⟩
      · exact none ▸ Nat.zero_le _
      · exact one ▸ Nat.le_refl _
    have left : Loaded tree (s.words.take (current.base - current.site.arity) ++ [result].take current.site.results)
        caller.toActivation callers ⟨caller.kept + current.site.results, none⟩ := by
      refine .bare kept.append ?_
      rw [List.length_append, rest, List.length_take_of_le single, Nat.add_assoc]
    rw [← atBase] at held few atReturn atSaved left
    obtain ⟨after, ran, shows, -⟩ := Site.execute_return shown few held atReturn atSaved
    refine ⟨after, _, ran, shows, rfl, .returns rfl rfl goesOn.pos rfl (atBase ▸ held) (by rw [atBase]) ?_⟩
    exact ⟨standing.code_eq, rfl, .within goesOn left⟩

/-- A block returns without a fault. -/
theorem leaves (standing : Standing tree s current callers) (step : Nat)
    (loaded : Loaded tree s.words current callers ⟨0, none⟩)
    (atLast : s.pc = current.site.last) (shown : decoded.Shows { s with pc := s.pc + 1 }) :
    ∃ reached s', execute (Block.returnInstruction current.site.owner) decoded = .ok () reached ∧ reached.Shows s' ∧
      s'.size = s.size ∧ Follows tree step s current callers (Block.returnInstruction current.site.owner) s' := by
  cases callers with
  | nil => exact standing.halts loaded atLast shown
  | cons caller callers => exact standing.returns loaded shown

/-- An instruction that is to return a result does not fault. -/
theorem retf_run (standing : Standing tree s current callers) (formed : tree.IsProgram) {instruction : Instruction}
    (fetched : tree.program[s.pc]? = some instruction) (isRetf : instruction.operation.opcode? = some .retf)
    (shown : decoded.Shows { s with pc := s.pc + 1 }) : ∃ reached, execute instruction decoded = .ok () reached := by
  have path := standing.path
  have differs : ∀ {other : Instruction}, tree.program[s.pc]? = some other → other.operation.opcode? ≠ some .retf →
      False := by
    intro other alsoFetched noRetf
    cases fetched.symm.trans alsoFetched
    exact noRetf isRetf
  cases standing.point with
  | called stacked atFront length =>
    rcases atFront with atStart | atEntry
    · exact (differs (atStart ▸ path.code_start) (by simp [Instruction.of, Operation.opcode?])).elim
    · exact (differs (atEntry ▸ path.code_entry) (by simp [Instruction.of, Operation.opcode?])).elim
  | within shaped loaded =>
    rcases shaped.next path formed with ⟨atLast, rfl⟩ | ⟨other, after, alsoFetched, effect, -, -⟩
    · cases fetched.symm.trans (atLast ▸ path.code_last)
      obtain ⟨reached, s', ran, -⟩ := standing.leaves 0 loaded atLast shown
      exact ⟨reached, ran⟩
    · exact (differs alsoFetched effect.opcode?_not_return.2).elim

/-- Wherever the program stands there is an instruction to execute, and it follows what the activations expect. -/
theorem next (standing : Standing tree s current callers) (formed : tree.IsProgram) (step : Nat) :
    ∃ instruction, tree.program[s.pc]? = some instruction ∧ ∀ decoded : Machine,
      decoded.Shows { s with pc := s.pc + 1 } → (execute instruction).Proceeds decoded fun reached =>
        ∃ s', reached.Shows s' ∧ s'.size = s.size ∧ Follows tree step s current callers instruction s' := by
  have path := standing.path
  have stays : ∀ {instruction : Instruction} {decoded : Machine}, instruction.operation ≠ .named .call →
      instruction.operation ≠ .named .ret → instruction.operation ≠ .named .retf →
      ((execute instruction).Proceeds decoded fun reached =>
        ∃ s', reached.Shows s' ∧ s'.size = s.size ∧ s'.pc ≠ 0 ∧ Standing tree s' current callers) →
      (execute instruction).Proceeds decoded fun reached =>
        ∃ s', reached.Shows s' ∧ s'.size = s.size ∧ Follows tree step s current callers instruction s' :=
    fun noCall noRet noRetf proceeds => proceeds.imp fun reached ⟨s', shows, size, more, stands⟩ =>
      ⟨s', shows, size, .stays noCall noRet noRetf more stands⟩
  cases standing.point with
  | called stacked atFront length =>
    rcases atFront with atStart | atEntry
    · refine ⟨_, atStart ▸ path.code_start, fun decoded shown => ?_⟩
      exact stays nofun nofun nofun (standing.jumps length shown)
    · refine ⟨_, atEntry ▸ path.code_entry, fun decoded shown => ?_⟩
      exact stays nofun nofun nofun (standing.enters length atEntry shown)
  | within shaped loaded =>
    rcases shaped.next path formed with ⟨atLast, rfl⟩ | ⟨instruction, after, fetched, effect, behind, led⟩
    · refine ⟨_, atLast ▸ path.code_last, fun decoded shown => ?_⟩
      exact proceeds_of_ok (standing.leaves step loaded atLast shown)
    · refine ⟨instruction, fetched, fun decoded shown => ?_⟩
      by_cases isCall : instruction.operation = .named .call
      · cases effect with
        | @call _ _ inner _ _ _ atAround encloses owned called =>
          refine (standing.calls step loaded atAround encloses owned called behind shown).imp ?_
          rintro reached ⟨s', link, shows, size, atAddress, length, stands⟩
          refine ⟨s', shows, size, .calls rfl ?_ (congrArg _ atAddress.symm) (atAddress ▸ called) rfl length stands⟩
          have behindStart := encloses.start_lt
          rcases called with rfl | rfl
          · omega
          · have behindEntry := inner.start_lt_entry
            omega
        | _ => cases isCall
      · obtain ⟨noRet, noRetf⟩ := effect.opcode?_not_return
        have named : ∀ {op : Opcode}, instruction.operation = .named op → instruction.operation.opcode? = some op :=
          fun same => by rw [same]; rfl
        exact stays isCall (fun same => noRet (named same)) (fun same => noRetf (named same)) (standing.goesOn loaded effect behind led isCall shown)

end Standing

end PLZero
