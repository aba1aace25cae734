import PLZero.Proofs.Arithmetic.Operators
import PLZero.Proofs.Execution.Heights
import PLZero.Proofs.Execution.Operands
import PLZero.Proofs.Generation.Parts

namespace PLZero

namespace Expression

/-- An expression in which no function is called. -/
def CallFree : Expression → Prop
  | number _ | name _ => True
  | call _ _ => False
  | group inner => inner.CallFree
  | unary _ operand | odd operand => operand.CallFree
  | binary _ left right => left.CallFree ∧ right.CallFree

/-- How many operands the evaluation of an expression without calls holds at once. -/
def height : Expression → Nat
  | number _ | name _ => 1
  | call _ _ => 0
  | group inner => inner.height
  | unary _ operand => operand.height
  | odd operand => max operand.height 2
  | binary _ left right => max left.height (right.height + 1)

/-- What an expression without calls comes to, operands evaluated from left to right, when names have the given values:
a value, or the address of the instruction at which a number is first divided by zero. -/
def result (context : CodeContext) (value : String → Int) : (start : Nat) → Expression → Except Nat Int
  | _, number n => .ok n
  | _, name identifier => .ok (value identifier)
  | start, call _ _ => .error start
  | start, group inner => inner.result context value start
  | start, unary op operand => do return op.value (← operand.result context value start)
  | start, odd operand => do return (← operand.result context value start) % 2
  | start, binary op left right => do
    let behind := start + (left.code context).length
    let a ← left.result context value start
    let b ← right.result context value behind
    match op.value? a b with
    | some c => return c
    | none => throw (behind + (right.code context).length)

end Expression

namespace Machine

/-- What the code of an expression leads to: its value on the stack, a division by zero, or an overflow for want of
room. -/
inductive Computes (start : Machine) (n : Nat) (s : Snapshot) (height length : Nat) : Except Nat Int → Prop
  | value {v} : start.Arrives (n + length) { s with pc := s.pc + length, words := s.words ++ [v] } →
      Computes start n s height length (.ok v)
  | division {k} : k < length → start.Breaks s.words .divisionByZero (n + k) (s.pc + k) →
      Computes start n s height length (.error (s.pc + k))
  | overflow {result k} : s.size < s.words.length + height → k < length →
      start.Breaks s.words .overflow (n + k) (s.pc + k) → Computes start n s height length result

/-- An operand is computed before the whole. -/
theorem Computes.of_operand {start : Machine} {n m : Nat} {s first : Snapshot} {height length high long : Nat}
    {result whole : Except Nat Int} (operand : start.Computes m first high long result) (skipped : Nat)
    (steps : m = n + skipped) (pc : first.pc = s.pc + skipped) (size : first.size = s.size) (words : s.words <+: first.words)
    (lower : first.words.length + high ≤ s.words.length + height) (shorter : skipped + long ≤ length)
    (fails : ∀ address, result = .error address → whole = .error address)
    (goesOn : ∀ v, result = .ok v →
      start.Arrives (m + long) { first with pc := first.pc + long, words := first.words ++ [v] } →
        start.Computes n s height length whole) : start.Computes n s height length whole := by
  subst steps
  cases operand with
  | value arrives => exact goesOn _ rfl arrives
  | @division k inside breaks =>
    rw [pc, Nat.add_assoc] at breaks fails
    rw [Nat.add_assoc] at breaks
    rw [fails _ rfl]
    exact .division (by omega) (breaks.shorten words)
  | @overflow _ k full inside breaks =>
    rw [pc, Nat.add_assoc, Nat.add_assoc] at breaks
    exact .overflow (by omega) (by omega) (breaks.shorten words)

end Machine

theorem MachineM.Chain.append {words : List Int} {distance frame base : Nat} (chain : Chain words distance frame base)
    (more : List Int) : Chain (words ++ more) distance frame base := by
  induction distance generalizing frame with
  | zero => exact chain
  | succ distance ih =>
    obtain ⟨link, held, further⟩ := chain
    exact ⟨link, (List.getElem?_append_left (List.getElem?_eq_some_iff.mp held).1).trans held, ih further⟩

/-- The words in use tell the values of names: those of constants are known, and the links from a base lead to the
frames of variables. -/
structure Tells (words : List Int) (base : Nat) (context : CodeContext) (value : String → Int) : Prop where
  constant : ∀ {name distance number visible}, context.find? name = some ⟨distance, .constant number, visible⟩ →
    value name = number
  «variable» : ∀ {name distance offset visible}, context.find? name = some ⟨distance, .variable offset, visible⟩ →
    distance ≤ maxLevel ∧ ∃ frame address : Nat, MachineM.Chain words distance base frame ∧
      (frame : Int) + offset = address ∧ words[address]? = some (value name)

theorem Tells.append {words : List Int} {base : Nat} {context : CodeContext} {value : String → Int}
    (tells : Tells words base context value) (more : List Int) : Tells (words ++ more) base context value where
  constant := tells.constant
  «variable» found := by
    obtain ⟨small, frame, address, chain, same, held⟩ := tells.variable found
    exact ⟨small, frame, address, chain.append more, same,
      (List.getElem?_append_left (List.getElem?_eq_some_iff.mp held).1).trans held⟩

section

variable {start : Machine} {n : Nat} {s : Snapshot} {context : CodeContext} {value : String → Int}

/-- The code of a constant or a variable. -/
theorem Machine.Arrives.named {name : String} (arrives : start.Arrives n s) (tells : Tells s.words s.bp context value)
    (formed : (Expression.name name).WellFormed context.meanings)
    (placed : CodeAt s.code s.pc (context.valueCode name)) :
    start.Computes n s 1 (context.valueCode name).length (.ok (value name)) := by
  obtain ⟨⟨distance, binding, visible⟩, found, plain⟩ := formed.exists_value
  rw [CodeContext.valueCode, found] at placed ⊢
  cases binding with
  | constant number =>
    rw [tells.constant found]
    by_cases room : s.words.length < s.size
    · exact .value (arrives.pushConst placed.head room)
    · exact .overflow (by omega) (Nat.zero_lt_one) (arrives.pushConst_full placed.head (Nat.not_lt.mp room))
  | «variable» offset =>
    obtain ⟨small, frame, address, chain, same, held⟩ := tells.variable found
    by_cases room : s.words.length < s.size
    · have pushed := arrives.pushVar placed.head small chain room
      rw [same] at pushed
      exact .value (pushed.eval placed.tail.head rfl held)
    · exact .overflow (by omega) (Nat.zero_lt_two)
        (arrives.pushVar_full placed.head small chain (Nat.not_lt.mp room))
  | routine => simp [Binding.meaning] at plain

/-- The code of an expression without calls leaves its value, or stops at the first division by zero, unless there is no
room for the operands. -/
theorem Expression.computes_result {e : Expression} (free : e.CallFree) (formed : e.WellFormed context.meanings)
    (arrives : start.Arrives n s) (tells : Tells s.words s.bp context value)
    (placed : CodeAt s.code s.pc (e.code context)) :
    start.Computes n s e.height (e.code context).length (e.result context value s.pc) := by
  induction e generalizing n s with
  | number number =>
    simp only [code] at placed
    by_cases room : s.words.length < s.size
    · exact .value (arrives.pushConst placed.head room)
    · exact .overflow (by simp [height]; omega) (Nat.zero_lt_one)
        (arrives.pushConst_full placed.head (Nat.not_lt.mp room))
  | name name => exact arrives.named tells formed placed
  | call => exact free.elim
  | group inner ih =>
    cases formed with
    | group formed => exact ih free formed arrives tells placed
  | unary op operand ih =>
    cases formed with
    | unary formed =>
      simp only [code] at placed ⊢
      refine (ih free formed arrives tells placed.left).of_operand 0 rfl rfl rfl List.prefix_rfl (Nat.le_refl _)
        (by simp) (fun address same => ?_) fun a same arrived => ?_
      · simp only [result, same]
        rfl
      · simp only [result, same]
        have applied := arrived.unary placed.middle rfl
        rw [UnaryOp.apply_eq_value] at applied
        refine .value ?_
        simpa [Nat.add_assoc] using applied
  | odd operand ih =>
    cases formed with
    | odd formed =>
      simp only [code] at placed ⊢
      refine (ih free formed arrives tells placed.left).of_operand 0 rfl rfl rfl List.prefix_rfl
        (Nat.add_le_add_left (Nat.le_max_left _ _) _) (by simp) (fun address same => ?_) fun a same arrived => ?_
      · simp only [result, same]
        rfl
      · simp only [result, same]
        by_cases room : s.words.length + 1 < s.size
        · have pushed := arrived.pushConst placed.right.head (by simpa using room)
          have applied := pushed.binary placed.right.tail.head rfl rfl
          rw [bitAnd_one] at applied
          refine .value ?_
          simpa [Nat.add_assoc] using applied
        · have full := arrived.pushConst_full placed.right.head (by simpa using room)
          refine .overflow ?_ ?_ (full.shorten (List.prefix_append _ _))
          · have two : 2 ≤ (odd operand).height := Nat.le_max_right _ _
            omega
          · simp
  | binary op left right ihLeft ihRight =>
    cases formed with
    | binary formedLeft formedRight =>
      obtain ⟨freeLeft, freeRight⟩ := free
      simp only [code] at placed ⊢
      refine (ihLeft freeLeft formedLeft arrives tells placed.left.left).of_operand 0 rfl rfl rfl List.prefix_rfl
        (Nat.add_le_add_left (Nat.le_max_left _ _) _) (by simp) (fun address same => ?_) fun a same arrived => ?_
      · simp only [result, same]
        rfl
      · refine (ihRight freeRight formedRight arrived (tells.append [a]) placed.left.right).of_operand
          (left.code context).length rfl rfl rfl (List.prefix_append _ _) ?_ (by simp) (fun address failed => ?_)
          fun b alsoSame arrived => ?_
        · have right : right.height + 1 ≤ (binary op left right).height := Nat.le_max_right _ _
          rw [List.length_append, List.length_singleton]
          omega
        · simp only [result, same, failed]
          rfl
        · have fetched := placed.middle
          rw [List.length_append, ← Nat.add_assoc] at fetched
          have spelled : (binary op left right).result context value s.pc = match op.value? a b with
              | some c => .ok c
              | none => .error (s.pc + (left.code context).length + (right.code context).length) := by
            simp only [result, same, alsoSame]
            rfl
          rw [spelled]
          cases applied : op.value? a b with
          | some c =>
            rw [← BinaryOp.apply?_eq_value?] at applied
            have reached := arrived.binary fetched rfl applied
            refine .value ?_
            simpa [Nat.add_assoc] using reached
          | none =>
            rw [← BinaryOp.apply?_eq_value?] at applied
            have broken := arrived.divides fetched rfl applied
            rw [List.append_assoc] at broken
            simp only [Nat.add_assoc] at broken ⊢
            exact .division (by simp) (broken.shorten (List.prefix_append _ _))

end

namespace Machine

/-- The frame of a block lies on the stack, with the arguments below it. -/
structure Holds (machine : Machine) (site : Site) (base : Nat) : Prop where
  arguments : site.arity ≤ base
  frame : (base + site.room : Nat) ≤ machine.sp + 1

/-- The static links lead from one frame to another, those of a block and of the blocks around it. -/
inductive Linked (machine : Machine) : List Site → List Nat → Prop
  | main {site base} : machine.Holds site base → Linked machine [site] [base]
  | inner {site outer base bases} {link : Nat} : machine.Holds site base → machine.word? base = some (link : Int) →
      Linked machine outer (link :: bases) → Linked machine (site :: outer) (base :: link :: bases)

/-- The word that a name stands for when the frames of the blocks around have the given bases. -/
def valueOf (machine : Machine) (context : CodeContext) (bases : List Nat) (name : String) : Int :=
  match context.find? name with
  | some ⟨_, .constant value, _⟩ => value
  | some ⟨distance, .variable offset, _⟩ =>
    machine.memory.getD ((bases.getD distance 0 : Int) + offset).toNat 0
  | _ => 0

/-- A run comes to an address with one word more on the stack, and no other change below its top. -/
def Leaves (machine : Machine) (address : Nat) (value : Int) : Prop :=
  ∃ count after, machine.resume count = .running after ∧ after.pc = address ∧ after.bp = machine.bp ∧
    after.sp = machine.sp + 1 ∧ after.word? (machine.sp + 1).toNat = some value ∧
      ∀ index : Nat, index ≤ machine.sp → after.word? index = machine.word? index

/-- A run ends with a fault of the instruction at an address, and nothing on the stack has changed. -/
def Stops (machine : Machine) (cause : FaultCause) (address : Nat) : Prop :=
  ∃ count before fault after, machine.resume count = .running before ∧ before.pc = address ∧
    machine.resume (count + 1) = .faulted fault after ∧ fault.cause = cause ∧
      ∀ index : Nat, index ≤ machine.sp → after.word? index = machine.word? index

/-- A run comes to the address behind an expression with its value, or it ends at the first division by zero. -/
def Yields (machine : Machine) (behind : Nat) : Except Nat Int → Prop
  | .ok value => machine.Leaves behind value
  | .error address => machine.Stops .divisionByZero address

/-- What a machine shows in front of an instruction. -/
def snapshot (machine : Machine) (pc bp : Nat) : Snapshot :=
  ⟨machine.code.toList, machine.stackSize, pc, bp, machine.memory.toList.take (machine.sp + 1).toNat⟩

variable {machine after : Machine} {site around : Site} {path outer : List Site} {base distance frame : Nat}
  {bases : List Nat} {offset : Int}

theorem Holds.filled (holds : machine.Holds site base) : -1 ≤ machine.sp ∧ (base : Int) < machine.sp + 1 := by
  have frame := holds.frame
  rw [Site.room, frameSize] at frame
  omega

/-- The variables and parameters of a block are words of the stack. -/
theorem Holds.slot (holds : machine.Holds site base) {name : String} (slot : site.Slot name offset) :
    ∃ address : Nat, (base : Int) + offset = address ∧ address ≤ machine.sp := by
  have arguments := holds.arguments
  have filled := holds.frame
  rw [Site.room] at filled
  cases slot with
  | @parameter index atIndex =>
    have below : index < site.arity := (List.getElem?_eq_some_iff.mp atIndex).1
    exact ⟨base - site.arity + index, by omega, by rw [frameSize] at filled; omega⟩
  | @«variable» index atIndex =>
    have below := (List.getElem?_eq_some_iff.mp atIndex).1
    exact ⟨base + (frameSize + index), by omega, by omega⟩

theorem snapshot_getElem? (pc bp : Nat) {index : Nat} (inside : index ≤ machine.sp) :
    (machine.snapshot pc bp).words[index]? = machine.word? index := by
  rw [snapshot, List.getElem?_take_of_lt (by omega), Array.getElem?_toList]
  rfl

/-- The frame so many blocks out. -/
theorem Linked.chain (linked : machine.Linked path bases) (pc bp : Nat) (atAround : path[distance]? = some around)
    (first : bases.head? = some base) :
    ∃ frame, bases[distance]? = some frame ∧ machine.Holds around frame ∧
      MachineM.Chain (machine.snapshot pc bp).words distance base frame := by
  induction linked generalizing distance base with
  | main holds =>
    obtain rfl := Option.some.inj first
    cases distance with
    | zero =>
      cases atAround
      exact ⟨_, rfl, holds, rfl⟩
    | succ distance => simp at atAround
  | @inner site outer base' bases link holds atLink further ih =>
    obtain rfl := Option.some.inj first
    cases distance with
    | zero =>
      cases atAround
      exact ⟨_, rfl, holds, rfl⟩
    | succ distance =>
      obtain ⟨frame, atFrame, held, chain⟩ := ih atAround rfl
      have inside : (base' : Int) ≤ machine.sp := Int.le_of_lt_add_one holds.filled.2
      exact ⟨frame, atFrame, held, link, (snapshot_getElem? pc bp inside).trans atLink, chain⟩

theorem Linked.tells {tree : Block} (linked : machine.Linked (site :: outer) (base :: bases))
    (path : tree.Path (site :: outer)) (formed : tree.IsProgram) (size : machine.memory.size = machine.stackSize)
    (top : machine.sp < machine.stackSize) (pc : Nat) :
    Tells (machine.snapshot pc base).words base site.context (machine.valueOf site.context (base :: bases)) where
  constant found := by rw [valueOf, found]
  «variable» found := by
    obtain ⟨around, atAround, gives⟩ := path.gives_of_find? found
    obtain ⟨frame, atFrame, holds, chain⟩ := linked.chain pc base atAround rfl
    obtain ⟨address, same, inside⟩ := holds.slot gives
    have few := path.length_le formed
    have small := (List.getElem?_eq_some_iff.mp atAround).1
    rw [List.length_cons] at small
    refine ⟨by omega, frame, address, chain, same, (snapshot_getElem? pc base inside).trans ?_⟩
    have within : address < machine.memory.size := by omega
    rw [valueOf, found]
    simp only [List.getD_eq_getElem?_getD, atFrame, Option.getD_some, same, Int.toNat_natCast]
    rw [word?, Array.getD_eq_getD_getElem?, Array.getElem?_eq_getElem within]
    rfl

theorem snapshot_length (pc bp : Nat) (lower : -1 ≤ machine.sp) (upper : machine.sp < machine.memory.size) :
    ((machine.snapshot pc bp).words.length : Int) = machine.sp + 1 := by
  rw [snapshot, List.length_take, Array.length_toList]
  omega

theorem shows_snapshot {pc bp : Nat} (size : machine.memory.size = machine.stackSize) (lower : -1 ≤ machine.sp)
    (upper : machine.sp < machine.stackSize) (atPc : machine.pc = pc) (atBp : machine.bp = bp) :
    machine.Shows (machine.snapshot pc bp) where
  code_eq := rfl
  stackSize_eq := rfl
  size_memory := size
  pc_eq := atPc
  bp_eq := atBp
  sp_eq := by
    rw [snapshot_length pc bp lower (size ▸ upper)]
    omega
  words_prefix := List.take_prefix _ _

/-- The words of the stack are still there. -/
theorem word?_of_prefix {pc bp : Nat} (kept : (machine.snapshot pc bp).words <+: after.memory.toList) {index : Nat}
    (lower : -1 ≤ machine.sp) (upper : machine.sp < machine.memory.size) (inside : index ≤ machine.sp) :
    after.word? index = machine.word? index := by
  have length := snapshot_length pc bp lower upper
  obtain ⟨more, whole⟩ := kept
  rw [← snapshot_getElem? pc bp inside, word?, ← Array.getElem?_toList, ← whole,
    List.getElem?_append_left (by omega)]

/-- What the code of an expression leads to, seen from the machine in front of it. -/
theorem Computes.leads {pc bp height length : Nat} {result : Except Nat Int}
    (computes : machine.Computes 0 (machine.snapshot pc bp) height length result)
    (lower : -1 ≤ machine.sp) (upper : machine.sp < machine.memory.size) (atBp : machine.bp = bp) :
    machine.Yields (pc + length) result ∨ machine.stackSize ≤ machine.sp + height ∧
      ∃ address, pc ≤ address ∧ address < pc + length ∧ machine.Stops .overflow address := by
  have depth := snapshot_length pc bp lower upper
  have unchanged : ∀ {cause k}, machine.Breaks (machine.snapshot pc bp).words cause k (pc + k) →
      machine.Stops cause (pc + k) := by
    rintro cause k ⟨before, fault, after, ran, atAddress, faulted, same, kept⟩
    exact ⟨k, before, fault, after, ran, atAddress, faulted, same, fun index =>
      word?_of_prefix kept lower upper⟩
  cases computes with
  | value arrives =>
    obtain ⟨after, ran, shown, -⟩ := arrives
    refine .inl ⟨_, after, ran, shown.pc_eq, shown.bp_eq.trans atBp.symm, ?_, ?_, fun index =>
      word?_of_prefix ((List.prefix_append _ _).trans shown.words_prefix) lower upper⟩
    · rw [shown.sp_eq, List.length_append, List.length_singleton]
      omega
    · rw [← depth, Int.toNat_natCast]
      exact shown.memory_eq List.getElem?_concat_length
  | division inside breaks =>
    rw [Nat.zero_add] at breaks
    exact .inl (unchanged breaks)
  | @overflow _ k full inside breaks =>
    rw [Nat.zero_add] at breaks
    refine .inr ⟨?_, pc + k, Nat.le_add_right _ _, Nat.add_lt_add_left inside _, unchanged breaks⟩
    have more : machine.stackSize < (machine.snapshot pc bp).words.length + height := full
    omega

end Machine

namespace Statement.Part

variable {context : CodeContext} {code : List Instruction} {start address : Nat} {body s : Statement}

theorem codeAt (part : Part context start body address s) (placed : CodeAt code start (body.code context start)) :
    CodeAt code address (s.code context address) := by
  induction part with
  | whole => exact placed
  | first _ ih => exact ih placed.left
  | rest _ ih => exact ih placed.right
  | compound _ ih => exact ih placed
  | ifThen _ ih => exact ih placed.right.tail
  | consequent _ ih | whileDo _ ih =>
    rw [Statement.code, List.append_assoc] at placed
    exact ih placed.right.tail.left
  | alternative entry _ ih =>
    subst entry
    rw [Statement.code, List.append_assoc] at placed
    exact ih placed.right.tail.right.tail
  | repeatUntil _ ih => exact ih placed.left.left

theorem wellFormed {rules : StaticContext} (part : Part context start body address s)
    (formed : body.WellFormed rules) : s.WellFormed rules := by
  induction part with
  | whole => exact formed
  | first _ ih =>
    cases formed with
    | sequence first _ => exact ih first
  | rest _ ih =>
    cases formed with
    | sequence _ rest => exact ih rest
  | compound _ ih =>
    cases formed with
    | compound body => exact ih body
  | ifThen _ ih =>
    cases formed with
    | ifThen _ consequent => exact ih consequent
  | consequent _ ih =>
    cases formed with
    | ifElse _ consequent _ => exact ih consequent
  | alternative _ _ ih =>
    cases formed with
    | ifElse _ _ alternative => exact ih alternative
  | whileDo _ ih =>
    cases formed with
    | whileDo _ body => exact ih body
  | repeatUntil _ ih =>
    cases formed with
    | repeatUntil body _ => exact ih body

end Statement.Part

/-- Conditions and expressions without calls are evaluated to their values, and do nothing else. Where a program that
compiles without complaints has such an expression, and whatever the stack holds in the frames that the static links
lead to, a run goes on behind its code with the value on top of the stack, or it ends at the first division by zero;
only for want of room for the operands may it end with an overflow. -/
theorem expression_evaluated {depth : Nat} {source : String} {code : Array Instruction}
    (compiled : compileProgram depth source = .ok (.ok code)) :
    ∃ tree : Block, parse (sourceTokens source) = some tree ∧ tree.DerivesProgram (sourceTokens source) ∧
      ∀ site outer start s address e, tree.Path (site :: outer) →
        Statement.Part site.context (site.entry + 1) site.block.body start s →
        s.Operand site.context start address e → e.CallFree →
        CodeAt code.toList address (e.code site.context) ∧
        ∀ (machine : Machine) (base : Nat) bases, machine.code = code → machine.cycleLimit = none →
          machine.memory.size = machine.stackSize → machine.sp < machine.stackSize → machine.pc = address →
          machine.bp = base → machine.Linked (site :: outer) (base :: bases) →
          machine.Yields (address + (e.code site.context).length)
            (e.result site.context (machine.valueOf site.context (base :: bases)) address) ∨
          machine.stackSize ≤ machine.sp + e.height ∧ ∃ full, address ≤ full ∧
            full < address + (e.code site.context).length ∧ machine.Stops .overflow full := by
  obtain ⟨tree, atProgram, formed, program, -⟩ := exists_program_of_compileProgram compiled
  obtain ⟨derived, -⟩ := derives_of_parse atProgram
  refine ⟨tree, atProgram, derived, fun site outer start s address e path part operand free => ?_⟩
  have placed : CodeAt code.toList address (e.code site.context) :=
    operand.codeAt (part.codeAt (program ▸ path.code_body))
  refine ⟨placed, ?_⟩
  rintro machine base bases rfl unlimited size top atPc atBp linked
  have lower : -1 ≤ machine.sp := by
    cases linked with
    | main holds | inner holds => exact holds.filled.1
  have arrives : machine.Arrives 0 (machine.snapshot address base) :=
    ⟨machine, rfl, Machine.shows_snapshot size lower top atPc atBp, unlimited⟩
  have rules := operand.wellFormed (part.wellFormed (path.body_wellFormed formed))
  have tells := linked.tells path formed size top address
  exact (Expression.computes_result free rules arrives tells placed).leads lower (size ▸ top) atBp

/-- A program that divides by a variable, which is zero when nothing has been assigned to it. -/
def quotientSource : String :=
  "var x; begin x := 6 / x + 1 end."

def quotientCode : Array Instruction :=
  #[.of .jump 0 1, .of .enter 0 5, .of .pushConst 0 6, .of .pushVar 0 4, .of .eval, .of (.binary .div),
    .of .pushConst 0 1, .of (.binary .add), .of .pushVar 0 4, .of .assign, .of .ret]

/-- The machine in front of the expression of the program, with a value of the variable. -/
def beforeDivision (x : Int) : Machine :=
  { stackSize := 8, cycleLimit := none, code := quotientCode, memory := #[0, 0, 0, 0, x, 0, 0, 0], pc := 2, bp := 0,
    sp := 4, ir := none, lastWrite := none, cycles := 2 }

theorem quotientSource_expression_evaluated :
    (beforeDivision 0).Stops .divisionByZero 5 ∧ (beforeDivision 2).Leaves 8 4 := by
  have compiled : compileProgram maxNesting quotientSource = .ok (.ok quotientCode) :=
    compileProgram_eq_ok_iff.mpr (by decide +kernel)
  have tokens : sourceTokens quotientSource = [.fixed .varKw, .identifier "x", .fixed .semicolon, .fixed .beginKw,
      .identifier "x", .fixed .assign, .integer 6, .fixed .slash, .identifier "x", .fixed .plus, .integer 1,
      .fixed .endKw, .fixed .period] := by
    decide
  obtain ⟨tree, atProgram, -, evaluated⟩ := expression_evaluated compiled
  obtain rfl : Block.mk [] ["x"] [] (.compound (.assignment "x" (.binary .add (.binary .div (.number 6) (.name "x"))
      (.number 1)))) = tree :=
    Option.some.inj (atProgram ▸ tokens ▸ rfl)
  have runs := fun x => (evaluated _ [] _ _ _ _ .main (.compound .whole) (.value .self) ⟨⟨trivial, trivial⟩, trivial⟩).2
    (beforeDivision x) 0 [] rfl rfl rfl (show (4 : Int) < 8 by decide) rfl rfl
    (.main ⟨Nat.zero_le _, show (5 : Int) ≤ 5 by decide⟩)
  have room : ∀ {P : Prop}, ¬ ((8 : Int) ≤ 4 + 2 ∧ P) := fun full => absurd full.1 (by decide)
  exact ⟨(runs 0).resolve_right room, (runs 2).resolve_right room⟩

end PLZero
