import PLZero.Proofs.Execution.Layout
import PLZero.Proofs.Generation.Placement

namespace PLZero

open MachineM

/-- What does not change while the statement of a block runs: the code, the size of the stack, what the words of the
stack are for as far as the frame of the block, and the base of this frame. -/
structure Scene where
  code : List Instruction
  size : Nat
  stack : List Cell
  base : Nat

namespace Scene

variable (scene : Scene)

/-- The machine in front of an instruction of the block, with operands above the frame. -/
def snapshot (store : Store) (pc : Nat) (operands : List Int) : Snapshot :=
  ⟨scene.code, scene.size, pc, scene.base, wordsOf store scene.stack ++ operands⟩

/-- After so many steps, the places on the stack have the values of the store. -/
def At (start : Machine) (n : Nat) (store : Store) (pc : Nat) (operands : List Int) : Prop :=
  Tidy scene.stack store.started ∧ start.Moment n store.started (scene.snapshot store pc operands)

/-- The current frame is that of an activation of a block, which sees its surroundings by the links. -/
structure Hosts (tree : Block) (site : Site) (outer : List Site) (around : Environment) (activation : Nat) : Prop where
  code_eq : scene.code = tree.program
  sees : Sees tree (site :: outer) around
  framed : Framed scene.stack scene.base (site :: outer) (activation :: around.marks)

/-- The scene with operands that stay on the stack. -/
def keep (operands : List Int) : Scene :=
  { scene with stack := scene.stack ++ operands.map .word }

theorem snapshot_keep (operands more : List Int) (store : Store) (pc : Nat) :
    (scene.keep operands).snapshot store pc more = scene.snapshot store pc (operands ++ more) := by
  simp [snapshot, keep]

variable {scene} {start : Machine} {n pc next : Nat} {store after : Store} {operands results words : List Int}
  {tree : Block} {site : Site} {outer : List Site} {around : Environment} {activation distance : Nat} {value : Int}
  {instruction : Instruction}

theorem At.of_keep {more : List Int} (at_ : (scene.keep operands).At start n store pc more) :
    scene.At start n store pc (operands ++ more) := by
  obtain ⟨tidy, moment⟩ := at_
  rw [snapshot_keep] at moment
  exact ⟨tidy.of_append, moment⟩

theorem Hosts.distance_le (hosts : scene.Hosts tree site outer around activation) (formed : tree.IsProgram)
    {other : Site} (atOther : (site :: outer)[distance]? = some other) : distance ≤ maxLevel := by
  have inside := (List.getElem?_eq_some_iff.mp atOther).1
  have few := hosts.sees.path.length_le formed
  rw [List.length_cons] at inside
  omega

section

variable (lasting : ¬ start.Starves)
include lasting

theorem At.step (at_ : scene.At start n store pc operands) (fetched : scene.code[pc]? = some instruction)
    (plain : instruction.operation ≠ .named .enter) (more : next ≠ 0) (begun : after.started = store.started)
    (does : ∀ decoded : Machine, decoded.Shows (scene.snapshot store (pc + 1) operands) →
      (execute instruction).Achieves decoded fun _ reached => reached.Shows (scene.snapshot after next results)) :
    scene.At start (n + 1) after next results := by
  obtain ⟨tidy, moment⟩ := at_
  have reached := (moment.next fetched plain more does).resolve_left lasting
  rw [← begun] at tidy reached
  exact ⟨tidy, reached⟩

theorem At.pushConst (at_ : scene.At start n store pc operands)
    (fetched : scene.code[pc]? = some (.of .pushConst distance value)) :
    scene.At start (n + 1) store (pc + 1) (operands ++ [value]) := by
  refine at_.step lasting fetched nofun (Nat.succ_ne_zero _) rfl fun decoded shown => ?_
  simpa [snapshot] using execute_pushConst shown

theorem At.unary {op : UnaryOp} {a : Int} (at_ : scene.At start n store pc (operands ++ [a]))
    (fetched : scene.code[pc]? = some (.of (.unary op))) :
    scene.At start (n + 1) store (pc + 1) (operands ++ [op.apply a]) := by
  refine at_.step lasting fetched nofun (Nat.succ_ne_zero _) rfl fun decoded shown => ?_
  simpa [snapshot] using execute_unary shown (List.append_assoc _ _ _).symm

theorem At.binary {op : BinaryOp} {a b : Int} (at_ : scene.At start n store pc (operands ++ [a] ++ [b]))
    (fetched : scene.code[pc]? = some (.of (.binary op))) (applied : op.apply? a b = some value) :
    scene.At start (n + 1) store (pc + 1) (operands ++ [value]) := by
  refine at_.step lasting fetched nofun (Nat.succ_ne_zero _) rfl fun decoded shown => ?_
  have words : wordsOf store scene.stack ++ (operands ++ [a] ++ [b]) =
      wordsOf store scene.stack ++ operands ++ [a] ++ [b] := by simp
  simpa [snapshot] using execute_binary shown words applied

theorem At.divides {op : BinaryOp} {a b : Int} (at_ : scene.At start n store pc (operands ++ [a] ++ [b]))
    (fetched : scene.code[pc]? = some (.of (.binary op))) (applied : op.apply? a b = none) : start.Divides := by
  have words : wordsOf store scene.stack ++ (operands ++ [a] ++ [b]) =
      wordsOf store scene.stack ++ operands ++ [a] ++ [b] := by simp
  exact (at_.2.divides fetched words applied).resolve_left lasting

theorem At.jump {target : Nat} (at_ : scene.At start n store pc operands)
    (fetched : scene.code[pc]? = some (.of .jump distance target)) (more : target ≠ 0) :
    scene.At start (n + 1) store target operands :=
  at_.step lasting fetched nofun more rfl fun _ shown => execute_jump shown

theorem At.jneq {target : Nat} {test : Int} (at_ : scene.At start n store pc (operands ++ [test]))
    (fetched : scene.code[pc]? = some (.of .jneq distance target)) (more : target ≠ 0) :
    scene.At start (n + 1) store (if test = 0 then target else pc + 1) operands := by
  have goesOn : (if test = 0 then target else pc + 1) ≠ 0 := by
    split
    · exact more
    · exact Nat.succ_ne_zero _
  refine at_.step lasting fetched nofun goesOn rfl fun decoded shown => ?_
  simpa [snapshot] using execute_jneq shown (List.append_assoc _ _ _).symm

/-- The address of a word in the frame of a block around. -/
theorem At.pushVar (at_ : scene.At start n store pc operands) {frame address : Nat} {offset : Int}
    (fetched : scene.code[pc]? = some (.of .pushVar distance offset)) (small : distance ≤ maxLevel)
    (chain : Chain (wordsOf store scene.stack ++ operands) distance scene.base frame)
    (same : (frame : Int) + offset = address) :
    scene.At start (n + 1) store (pc + 1) (operands ++ [(address : Int)]) := by
  refine at_.step lasting fetched nofun (Nat.succ_ne_zero _) rfl fun decoded shown => ?_
  have achieved : (execute (.of .pushVar distance offset)).Achieves decoded _ := execute_pushVar shown small chain
  simpa [snapshot, same] using achieved

theorem At.eval {address : Nat} {place : Place} (at_ : scene.At start n store pc (operands ++ [(address : Int)]))
    (fetched : scene.code[pc]? = some (.of .eval)) (held : scene.stack[address]? = some (.place place)) :
    scene.At start (n + 1) store (pc + 1) (operands ++ [store.values place]) := by
  have found := wordsOf_getElem? store held
  have inside := (List.getElem?_eq_some_iff.mp found).1
  have atAddress : (wordsOf store scene.stack ++ operands)[address]? = some (store.values place) :=
    (List.getElem?_append_left inside).trans found
  refine at_.step lasting fetched nofun (Nat.succ_ne_zero _) rfl fun decoded shown => ?_
  simpa [snapshot] using execute_eval shown (List.append_assoc _ _ _).symm atAddress

theorem At.assign {address : Nat} {place : Place}
    (at_ : scene.At start n store pc (operands ++ [value] ++ [(address : Int)]))
    (fetched : scene.code[pc]? = some (.of .assign)) (held : scene.stack[address]? = some (.place place)) :
    scene.At start (n + 1) (store.write place value) (pc + 1) operands := by
  have inside := (List.getElem?_eq_some_iff.mp held).1
  have words : wordsOf store scene.stack ++ (operands ++ [value] ++ [(address : Int)]) =
      wordsOf store scene.stack ++ operands ++ [value] ++ [(address : Int)] := by simp
  have written : (wordsOf store scene.stack ++ operands).set address value =
      wordsOf (store.write place value) scene.stack ++ operands := by
    rw [List.set_append_left _ _ (by simpa using inside), set_wordsOf at_.1.distinct held]
  refine at_.step lasting fetched nofun (Nat.succ_ne_zero _) rfl fun decoded shown => ?_
  have achieved : (execute (.of .assign)).Achieves decoded _ := execute_assign shown words (by simp; omega)
  refine achieved.imp fun _ reached both => ?_
  rw [written] at both
  exact both.1

end

/-- The word of a variable of a block around. -/
theorem Hosts.slot (hosts : scene.Hosts tree site outer around activation) {other : Site} {name : String} {offset : Int}
    (atOther : (site :: outer)[distance]? = some other) (slot : other.Slot name offset) (store : Store)
    (operands : List Int) :
    ∃ frame address mark : Nat, Chain (wordsOf store scene.stack ++ operands) distance scene.base frame ∧
      (frame : Int) + offset = address ∧ (activation :: around.marks)[distance]? = some mark ∧
        scene.stack[address]? = some (.place (.variable mark name)) := by
  obtain ⟨frame, mark, chain, atMark, houses⟩ := hosts.framed.houses atOther store operands
  obtain ⟨address, same, held⟩ := houses.slot slot
  exact ⟨frame, address, mark, chain, same, atMark, held⟩

section

variable (hosts : scene.Hosts tree site outer around activation) (formed : tree.IsProgram) (lasting : ¬ start.Starves)
include hosts formed lasting

/-- The code of a name that is used as a value leaves its value. -/
theorem At.named {name : String} {found : Found (Option String) Binding} (at_ : scene.At start n store pc operands)
    (atName : site.context.find? name = some found) (plain : found.entry.meaning = .constant ∨ found.entry.meaning = .variable)
    (placed : CodeAt scene.code pc (site.context.valueCode name)) :
    ∃ value m, n ≤ m ∧
      ((site.block.environment around site.owner activation).value name).run store = .ok (value, store) ∧
      scene.At start m store (pc + (site.context.valueCode name).length) (operands ++ [value]) := by
  obtain ⟨declaration, visible, seen, marks, means⟩ := hosts.sees.means activation atName
  obtain ⟨distance, binding, inner⟩ := found
  rw [CodeContext.valueCode, atName] at placed ⊢
  cases means with
  | @constant value =>
    exact ⟨value, n + 1, Nat.le_succ n, Environment.value_constant seen, at_.pushConst lasting placed.head⟩
  | «variable» atOther slot =>
    obtain ⟨frame, address, mark, chain, same, atMark, held⟩ := hosts.slot atOther slot store operands
    have front : visible.marks.head? = some mark := by rw [marks, List.head?_drop, atMark]
    have pushed := at_.pushVar lasting placed.head (hosts.distance_le formed atOther) chain same
    exact ⟨_, n + 2, Nat.le_add_right n 2, Environment.value_variable seen front,
      pushed.eval lasting placed.tail.head held⟩
  | routine => simp [Binding.meaning] at plain

/-- The code of a target and of an assignment writes to the place that the target stands for. -/
theorem At.targeted {name : String} {found : Found (Option String) Binding}
    (at_ : scene.At start n store pc (operands ++ [value])) (atName : site.context.find? name = some found)
    (assignable : found.entry.meaning = .variable ∨
      ∃ distance kind arity, found.distance = distance + 1 ∧ found.entry.meaning = .routine kind arity)
    (placed : CodeAt scene.code pc (site.context.targetCode name ++ [.of .assign])) :
    ∃ place m, n ≤ m ∧
      (site.block.environment around site.owner activation).target? name = some place ∧
      scene.At start m (store.write place value) (pc + (site.context.targetCode name).length + 1) operands := by
  obtain ⟨declaration, visible, seen, marks, means⟩ := hosts.sees.means activation atName
  obtain ⟨other, atOther, -⟩ := hosts.sees.path.gives_of_find? atName
  obtain ⟨distance, binding, inner⟩ := found
  rw [CodeContext.targetCode, atName] at placed ⊢
  cases means with
  | constant => simp [Binding.meaning] at assignable
  | «variable» atOther slot =>
    obtain ⟨frame, address, mark, chain, same, atMark, held⟩ := hosts.slot atOther slot store (operands ++ [value])
    have front : visible.marks.head? = some mark := by rw [marks, List.head?_drop, atMark]
    have pushed := at_.pushVar lasting placed.head (hosts.distance_le formed atOther) chain same
    exact ⟨_, n + 2, Nat.le_add_right n 2, Environment.target?_variable seen front,
      pushed.assign lasting placed.tail.head held⟩
  | routine =>
    cases distance with
    | zero => simp [Binding.meaning] at assignable
    | succ distance =>
      have inside := Nat.lt_of_succ_lt (List.getElem?_eq_some_iff.mp atOther).1
      have atInner := List.getElem?_eq_getElem inside
      obtain ⟨frame, mark, chain, atMark, houses⟩ := hosts.framed.houses atInner store (operands ++ [value])
      have pushed := at_.pushVar lasting placed.head (hosts.distance_le formed atInner) chain
        (show (frame : Int) + resultSlot = (frame + 3 : Nat) from rfl)
      have own : (site.block.environment around site.owner activation).marks[distance]? = some mark := by
        rw [site.marks_environment, atMark]
      exact ⟨_, n + 2, Nat.le_add_right n 2, Environment.target?_result seen own,
        pushed.assign lasting placed.tail.head houses.result⟩

end

end Scene

end PLZero
