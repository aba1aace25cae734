import PLZero.Proofs.Execution.Faults
import PLZero.Proofs.Generation.Code
import PLZero.Proofs.Machine.Accesses

namespace PLZero

/-- What holds of a machine for a stack of the given size, whatever its code, its other registers and its memory are. -/
structure Machine.Sound (size : Nat) (limit : Option Int) (machine : Machine) : Prop where
  stackSize_eq : machine.stackSize = size
  cycleLimit_eq : machine.cycleLimit = limit
  size_memory : machine.memory.size = size
  top : -1 ≤ machine.sp ∧ machine.sp < size
  lastWrite : ∀ address, machine.lastWrite = some address → 0 ≤ address ∧ address < size
  cycles : ∀ bound, limit = some bound → 0 ≤ bound → machine.cycles ≤ bound

/-- The machine stops when its cycles are used up. -/
theorem Machine.cycles_lt_of_fetch {machine : Machine} {instruction : Instruction} {bound : Int}
    (fetched : machine.fetch = .ok instruction) (limited : machine.cycleLimit = some bound) :
    machine.cycles < bound := by
  by_cases left : machine.cycles < bound
  · exact left
  · have exhausted : machine.exhausted? = some bound := by
      rw [exhausted?, limited, Option.filter_some, if_pos (decide_eq_true (Int.not_lt.mp left))]
    rw [fetch, exhausted] at fetched
    cases fetched

namespace Traced

variable (size : Nat) (limit : Option Int)

/-- All accesses without a check have been at addresses of the stack. -/
structure Sound (t : Traced) : Prop where
  machine : t.machine.Sound size limit
  accesses : ∀ index ∈ t.accesses, 0 ≤ index ∧ index < size

structure SoundAt (top : Int) (t : Traced) : Prop extends t.Sound size limit where
  top_eq : t.machine.sp = top

end Traced

namespace TracedM

variable {α β : Type} {size : Nat} {limit : Option Int} {before between after : Traced → Prop} {top : Int}

/-- What an action leads to. A fault leaves the machine sound. -/
def Leads (size : Nat) (limit : Option Int) (action : TracedM α) (before after : Traced → Prop) : Prop :=
  ∀ t, before t → match action t with
    | .ok _ left => after left
    | .error _ left => left.Sound size limit

/-- An action keeps a machine sound. -/
def Maintains (size : Nat) (limit : Option Int) (action : TracedM α) : Prop :=
  Leads size limit action (Traced.Sound size limit) (Traced.Sound size limit)

namespace Leads

theorem bind {action : TracedM α} {next : α → TracedM β} (first : Leads size limit action before between)
    (rest : ∀ a, Leads size limit (next a) between after) : Leads size limit (action >>= next) before after := by
  intro t holds
  have reached := first t holds
  simp only [Bind.bind, EStateM.bind]
  cases ran : action t with
  | ok result left =>
    rw [ran] at reached
    exact rest result left reached
  | error fault left =>
    rw [ran] at reached
    exact reached

theorem imp {action : TracedM α} (leads : Leads size limit action before between)
    (enough : ∀ t, between t → after t) : Leads size limit action before after := by
  intro t holds
  have left := leads t holds
  cases ran : action t with
  | ok result reached =>
    rw [ran] at left
    exact enough reached left
  | error fault reached =>
    rw [ran] at left
    exact left

theorem forget {action : TracedM α} {next : Int}
    (leads : Leads size limit action before (Traced.SoundAt size limit next)) :
    Leads size limit action before (Traced.Sound size limit) :=
  leads.imp fun _ => Traced.SoundAt.toSound

/-- To keep a machine sound, an action may be looked at for each top of the stack alone. -/
theorem maintains {action : TracedM α}
    (leads : ∀ top, Leads size limit action (Traced.SoundAt size limit top) (Traced.Sound size limit)) :
    Maintains size limit action :=
  fun t sound => leads t.machine.sp t ⟨sound, rfl⟩

theorem get_bind {next : Machine → TracedM α}
    (rest : ∀ machine, Leads size limit (next machine) (fun t => before t ∧ t.machine = machine) after) :
    Leads size limit (lift get >>= next) before after :=
  fun t holds => rest t.machine t ⟨holds, rfl⟩

theorem of_get {next : Machine → TracedM α}
    (rest : ∀ machine, machine.Sound size limit → machine.sp = top →
      Leads size limit (next machine) (Traced.SoundAt size limit top) after) :
    Leads size limit (lift get >>= next) (Traced.SoundAt size limit top) after :=
  fun t holds => rest t.machine holds.machine holds.top_eq t holds

theorem of_pure {a : α} : Leads size limit (pure a : TracedM α) before before :=
  fun _ holds => holds

theorem of_fault (cause : FaultCause) :
    Leads size limit (lift (MachineM.fault cause) : TracedM α) (Traced.SoundAt size limit top) after :=
  fun _ holds => holds.toSound

theorem of_modify {change : Machine → Machine} {next : Int}
    (keeps : ∀ machine : Machine, machine.Sound size limit → machine.sp = top →
      (change machine).Sound size limit ∧ (change machine).sp = next) :
    Leads size limit (lift (modify change)) (Traced.SoundAt size limit top) (Traced.SoundAt size limit next) :=
  fun t holds =>
    have changed := keeps t.machine holds.machine holds.top_eq
    ⟨⟨changed.1, holds.accesses⟩, changed.2⟩

/-- An action that leaves the machine as it is. -/
theorem of_keeps {action : MachineM α} (keeps : MachineM.Keeps id action) :
    Leads size limit (lift action) (Traced.SoundAt size limit top) (Traced.SoundAt size limit top) := by
  intro t holds
  have same := keeps t.machine
  rw [lift]
  cases ran : action t.machine with
  | ok result machine =>
    rw [ran] at same
    obtain rfl : machine = t.machine := same
    exact holds
  | error fault machine =>
    rw [ran] at same
    obtain rfl : machine = t.machine := same
    exact holds.toSound

theorem of_lift_bind {action : MachineM α} {next : α → MachineM β}
    (leads : Leads size limit (lift action >>= fun a => lift (next a)) before after) :
    Leads size limit (lift (action >>= next)) before after := by
  intro t holds
  have reached := leads t holds
  simp only [lift, Bind.bind, EStateM.bind] at reached ⊢
  cases ran : action t.machine <;> simpa only [ran] using reached

theorem note {index : Int} (inside : 0 ≤ index ∧ index < size) :
    Leads size limit (note index) (Traced.SoundAt size limit top) (Traced.SoundAt size limit top) :=
  fun _ holds => ⟨⟨holds.machine, List.forall_mem_append.mpr
    ⟨holds.accesses, List.forall_mem_singleton.mpr inside⟩⟩, holds.top_eq⟩

theorem cell {index : Int} (inside : 0 ≤ index ∧ index < size) :
    Leads size limit (cell index) (Traced.SoundAt size limit top) (Traced.SoundAt size limit top) :=
  (note inside).bind fun _ => of_keeps (.of_cell index)

theorem lift_setCell (index value : Int) : Leads size limit (lift (MachineM.setCell index value))
    (Traced.SoundAt size limit top) (Traced.SoundAt size limit top) := by
  refine of_lift_bind (of_get fun machine _ _ => ?_)
  split
  · refine of_modify fun machine sound top_eq => ⟨{ sound with size_memory := ?_ }, top_eq⟩
    rw [Array.size_setIfInBounds, sound.size_memory]
  · exact of_fault _

theorem setCell {index : Int} (inside : 0 ≤ index ∧ index < size) (value : Int) :
    Leads size limit (setCell index value) (Traced.SoundAt size limit top) (Traced.SoundAt size limit top) :=
  (note inside).bind fun _ => lift_setCell index value

/-- The top of the stack is moved to a place where it may be. -/
theorem of_top {next : Int} (inside : -1 ≤ next ∧ next < size) {change : Machine → Machine}
    (moves : ∀ machine, machine.sp = top → change machine = { machine with sp := next }) :
    Leads size limit (lift (modify change)) (Traced.SoundAt size limit top) (Traced.SoundAt size limit next) :=
  of_modify fun machine sound top_eq => by
    rw [moves machine top_eq]
    exact ⟨{ sound with top := inside }, rfl⟩

theorem push (value : Int) :
    Leads size limit (push value) (Traced.SoundAt size limit top) (Traced.SoundAt size limit (top + 1)) := by
  refine of_get fun machine sound top_eq => ?_
  obtain ⟨lower, upper⟩ := sound.top
  split
  · exact of_fault _
  · next room =>
    rw [sound.stackSize_eq, top_eq] at room
    have inside : 0 ≤ top + 1 ∧ top + 1 < size := by omega
    rw [top_eq]
    exact (of_top ⟨by omega, inside.2⟩ fun m at_top => by rw [at_top]).bind fun _ => setCell inside value

theorem pop : Leads size limit pop (Traced.SoundAt size limit top) (Traced.SoundAt size limit (top - 1)) := by
  refine of_get fun machine sound top_eq => ?_
  obtain ⟨lower, upper⟩ := sound.top
  dsimp only
  split
  · exact of_fault _
  · next some =>
    rw [top_eq] at some upper ⊢
    have inside : 0 ≤ top ∧ top < size := by omega
    refine (cell inside).bind fun value => ?_
    exact (of_top ⟨by omega, by omega⟩ fun m at_top => by rw [at_top]).bind fun _ => of_pure

theorem setTop (next : Int) :
    Leads size limit (lift (MachineM.setTop next)) (Traced.SoundAt size limit top) (Traced.SoundAt size limit next) := by
  refine of_lift_bind (of_get fun machine sound _ => ?_)
  rw [sound.stackSize_eq]
  split
  · exact of_fault _
  · split
    · exact of_fault _
    · exact of_top ⟨by omega, by omega⟩ fun _ _ => rfl

/-- All four words of the new frame are on the stack. -/
theorem call (distance : Nat) (entry : Int) :
    Leads size limit (call distance entry) (Traced.SoundAt size limit top)
      (Traced.SoundAt size limit (top + frameSize)) := by
  refine of_get fun machine sound top_eq => ?_
  obtain ⟨lower, upper⟩ := sound.top
  dsimp only
  split
  · exact of_fault _
  · next room =>
    rw [sound.stackSize_eq] at room
    rw [top_eq] at room lower upper ⊢
    have inside : ∀ offset : Int, 0 ≤ offset → offset < frameSize →
        0 ≤ top + 1 + offset ∧ top + 1 + offset < size := by
      intro offset lower upper
      omega
    refine (of_keeps (.of_base distance)).bind fun link => ?_
    refine (setCell (inside staticLink (by decide) (by decide)) _).bind fun _ => ?_
    refine (setCell (inside savedBase (by decide) (by decide)) _).bind fun _ => ?_
    refine (setCell (inside returnAddress (by decide) (by decide)) _).bind fun _ => ?_
    refine (setCell (inside resultSlot (by decide) (by decide)) _).bind fun _ => ?_
    refine of_modify fun machine sound top_eq => ⟨{ sound with top := ?_ }, by rw [← top_eq]⟩
    show -1 ≤ machine.sp + frameSize ∧ machine.sp + frameSize < size
    omega

theorem registers (address caller : Int) :
    Leads size limit (lift (modify fun machine => { machine with pc := address, bp := caller }))
      (Traced.SoundAt size limit top) (Traced.SoundAt size limit top) :=
  of_modify fun _ sound top_eq => ⟨{ sound with }, top_eq⟩

/-- The links of a frame may be anything. -/
theorem leave (arguments : Int) : Leads size limit (lift (MachineM.leave arguments)) (Traced.SoundAt size limit top)
    (Traced.Sound size limit) := by
  refine of_lift_bind (of_get fun machine _ _ => ?_)
  refine of_lift_bind ((of_keeps (.of_read _)).bind fun result => ?_)
  refine of_lift_bind ((of_keeps (.of_read _)).bind fun address => ?_)
  refine of_lift_bind ((of_keeps (.of_read _)).bind fun caller => ?_)
  refine of_lift_bind ((setTop _).bind fun _ => ?_)
  exact of_lift_bind ((registers address caller).forget.bind fun _ => of_pure)

/-- What has been written to lies on the stack. -/
theorem store (address value : Int) : Leads size limit (lift (MachineM.store address value))
    (Traced.SoundAt size limit top) (Traced.SoundAt size limit top) := by
  have write : Leads size limit (lift (MachineM.write address value)) (Traced.SoundAt size limit top) fun t =>
      Traced.SoundAt size limit top t ∧ 0 ≤ address ∧ address < size := by
    refine of_lift_bind (of_get fun machine sound _ => ?_)
    rw [sound.stackSize_eq]
    split
    · next inside => exact (lift_setCell address value).imp fun _ holds => ⟨holds, inside⟩
    · exact of_fault _
  refine of_lift_bind (write.bind fun _ t ⟨holds, inside⟩ => ⟨⟨?_, holds.accesses⟩, holds.top_eq⟩)
  exact { holds.machine with lastWrite := fun _ same => Option.some.inj same ▸ inside }

end Leads

namespace Maintains

theorem bind {action : TracedM α} {next : α → TracedM β} (first : Maintains size limit action)
    (rest : ∀ a, Maintains size limit (next a)) : Maintains size limit (action >>= next) :=
  Leads.bind first rest

theorem of_keeps {action : MachineM α} (keeps : MachineM.Keeps id action) : Maintains size limit (lift action) :=
  .maintains fun _ => (Leads.of_keeps keeps).forget

theorem push (value : Int) : Maintains size limit (push value) :=
  .maintains fun _ => (Leads.push value).forget

theorem pop : Maintains size limit pop :=
  .maintains fun _ => Leads.pop.forget

theorem jumpTo (address : Int) : Maintains size limit (lift (MachineM.jumpTo address)) :=
  fun _ sound => ⟨{ sound.machine with }, sound.accesses⟩

/-- Whatever its operands are, an instruction keeps a machine sound. -/
theorem execute (instruction : Instruction) : Maintains size limit (execute instruction) := by
  unfold TracedM.execute
  cases instruction.operation.opcode? with
  | none => exact .of_keeps (.of_fault _)
  | some op =>
    cases op with
    | unary op => exact pop.bind fun _ => push _
    | binary op =>
      refine pop.bind fun b => pop.bind fun a => ?_
      cases op.apply? a b with
      | some value => exact push value
      | none => exact .of_keeps (.of_fault _)
    | pushConst => exact push _
    | pushVar => exact (of_keeps (.of_base _)).bind fun _ => push _
    | eval => exact pop.bind fun _ => (of_keeps (.of_read _)).bind fun _ => push _
    | assign => exact pop.bind fun _ => pop.bind fun _ => .maintains fun _ => (Leads.store _ _).forget
    | call => exact .maintains fun _ => (Leads.call _ _).forget
    | enter => exact (of_keeps .of_get).bind fun _ => .maintains fun _ => (Leads.setTop _).forget
    | ret => exact bind (.maintains fun _ => .leave _) fun _ => Leads.of_pure
    | retf => exact bind (.maintains fun _ => .leave _) fun _ => push _
    | jump => exact jumpTo _
    | jneq =>
      refine pop.bind fun test => ?_
      split
      · exact jumpTo _
      · exact Leads.of_pure

/-- An instruction is counted only if there are cycles left for it. -/
theorem step : Maintains size limit step := by
  refine Leads.get_bind fun machine => ?_
  cases fetched : machine.fetch with
  | error cause =>
    rintro t ⟨sound, -⟩
    exact sound
  | ok instruction =>
    refine Leads.bind ?_ fun _ => execute instruction
    rintro t ⟨sound, rfl⟩
    refine ⟨{ sound.machine with cycles := fun bound isLimit _ => ?_ }, sound.accesses⟩
    exact t.machine.cycles_lt_of_fetch fetched (sound.machine.cycleLimit_eq.trans isLimit)

end Maintains

end TracedM

namespace Machine

/-- What can be asked of a machine. A run need not end, and is followed for so many instructions. -/
inductive Command where
  | load (code : Array Instruction)
  | reset
  | step
  | run (code : Option (Array Instruction)) (count : Nat)
deriving DecidableEq, Repr

/-- The machine as a command leaves it, by a fault or without one. -/
def obey (machine : Machine) : Command → Machine
  | .load code => machine.load code
  | .reset => machine.reset
  | .step =>
    match MachineM.step machine with
    | .ok _ after | .error _ after => after
  | .run none count => (machine.run count).machine
  | .run (some code) count => ((machine.load code).resume count).machine

end Machine

namespace Traced

open Machine (Command)

def step (t : Traced) : Traced :=
  match TracedM.step t with
  | .ok _ after | .error _ after => after

def resume : (count : Nat) → Traced → Traced
  | 0, t => t
  | count + 1, t =>
    match TracedM.step t with
    | .error _ after => after
    | .ok () after => if after.machine.pc = 0 then after else after.resume count

def obey (t : Traced) : Command → Traced
  | .load code => { t with machine := t.machine.load code }
  | .reset => { t with machine := t.machine.reset }
  | .step => t.step
  | .run none count => resume count { t with machine := t.machine.reset }
  | .run (some code) count => resume count { t with machine := t.machine.load code }

theorem resume_machine (count : Nat) (t : Traced) : (resume count t).machine = (t.machine.resume count).machine := by
  induction count generalizing t with
  | zero => rfl
  | succ count ih =>
    have same := TracedM.Traces.step t
    rw [resume, Machine.resume]
    cases ran : TracedM.step t with
    | error fault after =>
      rw [ran] at same
      rw [same]
      rfl
    | ok result after =>
      rw [ran] at same
      rw [same]
      dsimp only
      split
      · rfl
      · exact ih after

/-- With the accesses noted, a machine obeys as it does without. -/
theorem obey_machine (t : Traced) (command : Command) : (t.obey command).machine = t.machine.obey command := by
  cases command with
  | load code => rfl
  | reset => rfl
  | step =>
    have same := TracedM.Traces.step t
    rw [obey, step, Machine.obey]
    cases ran : TracedM.step t with
    | ok result after | error fault after =>
      rw [ran] at same
      rw [same]
  | run code count => cases code <;> exact resume_machine count _

theorem foldl_obey_machine (commands : List Command) (t : Traced) :
    (commands.foldl obey t).machine = commands.foldl Machine.obey t.machine := by
  induction commands generalizing t with
  | nil => rfl
  | cons command commands ih => rw [List.foldl_cons, List.foldl_cons, ih, obey_machine]

end Traced

namespace Machine

variable {size : Nat} {limit : Option Int} {machine : Machine}

theorem sound_reset (large : frameSize ≤ size) (stackSize : machine.stackSize = size)
    (limited : machine.cycleLimit = limit) (memory : machine.memory.size = size) :
    machine.reset.Sound size limit where
  stackSize_eq := stackSize
  cycleLimit_eq := limited
  size_memory := by simpa [reset, frameSize, List.range_succ] using memory
  top := by
    show -1 ≤ (frameSize - 1 : Int) ∧ (frameSize - 1 : Int) < size
    omega
  lastWrite := nofun
  cycles _ _ positive := positive

theorem sound_load (large : frameSize ≤ size) (stackSize : machine.stackSize = size)
    (limited : machine.cycleLimit = limit) (code : Array Instruction) : (machine.load code).Sound size limit :=
  sound_reset large stackSize limited (by rw [Array.size_replicate, stackSize])

section

variable {words : Int}

theorem ofStackSize_of_small (small : words < frameSize) (limit : Option Int) :
    ofStackSize words limit = .error (.tooSmall ⟨words⟩) :=
  if_pos small

theorem ofStackSize_of_large (large : addressLimit ≤ words) (limit : Option Int) :
    ofStackSize words limit = .error (.tooLarge (if indexLimit ≤ words then .noIndex else .noAddresses)) := by
  have enough : frameSize ≤ addressLimit := by decide
  have notSmall : ¬ words < frameSize := by omega
  rw [ofStackSize, if_neg notSmall]
  split <;> rfl

theorem ofStackSize_of_fits (enough : frameSize ≤ words) (fits : words < addressLimit) (limit : Option Int) :
    ofStackSize words limit = .ok ((unloaded words.toNat limit).load #[]) := by
  have lower : addressLimit ≤ indexLimit := by decide
  rw [ofStackSize, if_neg (by omega), if_neg (by omega), if_neg (by omega)]

/-- What it takes for a machine to be made, and how it is made then. -/
theorem ofStackSize_eq_ok_iff :
    ofStackSize words limit = .ok machine ↔
      (frameSize ≤ words ∧ words < addressLimit) ∧ machine = (unloaded words.toNat limit).load #[] := by
  by_cases small : words < frameSize
  · simp [ofStackSize_of_small small, Int.not_le.mpr small]
  by_cases large : addressLimit ≤ words
  · simp [ofStackSize_of_large large, Int.not_lt.mpr large]
  rw [ofStackSize_of_fits (by omega) (by omega), Except.ok.injEq]
  exact ⟨fun made => ⟨⟨by omega, by omega⟩, made.symm⟩, fun made => made.2.symm⟩

end

theorem sound_ofStackSize (made : ofStackSize size limit = .ok machine) : machine.Sound size limit := by
  obtain ⟨⟨large, -⟩, rfl⟩ := ofStackSize_eq_ok_iff.mp made
  apply sound_load (by omega)
  · exact Int.toNat_natCast size
  · rfl

end Machine

namespace Traced

variable {size : Nat} {limit : Option Int} {t : Traced}

theorem Sound.step (sound : t.Sound size limit) : t.step.Sound size limit := by
  have left := TracedM.Maintains.step t sound
  rw [Traced.step]
  cases ran : TracedM.step t <;> rwa [ran] at left

theorem Sound.resume (sound : t.Sound size limit) (count : Nat) : (t.resume count).Sound size limit := by
  induction count generalizing t with
  | zero => exact sound
  | succ count ih =>
    have left := TracedM.Maintains.step t sound
    rw [Traced.resume]
    cases ran : TracedM.step t with
    | error fault after => rwa [ran] at left
    | ok result after =>
      rw [ran] at left
      dsimp only
      split
      · exact left
      · exact ih left

theorem Sound.obey (large : frameSize ≤ size) (sound : t.Sound size limit) (command : Machine.Command) :
    (t.obey command).Sound size limit := by
  obtain ⟨machine, accesses⟩ := sound
  have loaded := Machine.sound_load large machine.stackSize_eq machine.cycleLimit_eq
  have reset := Machine.sound_reset large machine.stackSize_eq machine.cycleLimit_eq machine.size_memory
  cases command with
  | load code => exact ⟨loaded code, accesses⟩
  | reset => exact ⟨reset, accesses⟩
  | step => exact Sound.step ⟨machine, accesses⟩
  | run code count =>
    cases code with
    | none =>
      have sound : Sound size limit { t with machine := t.machine.reset } := ⟨reset, accesses⟩
      exact sound.resume count
    | some code =>
      have sound : Sound size limit { t with machine := t.machine.load code } := ⟨loaded code, accesses⟩
      exact sound.resume count

theorem Sound.foldl_obey (large : frameSize ≤ size) (commands : List Machine.Command) (sound : t.Sound size limit) :
    (commands.foldl Traced.obey t).Sound size limit := by
  induction commands generalizing t with
  | nil => exact sound
  | cons command commands ih => exact ih (sound.obey large command)

end Traced

/-- There is a machine for each size of the stack that addresses can be given to. Whatever it is asked to do, with any
code and also after faults, its memory keeps its size, and the top of the stack and the address written to last lie
within. All accesses without a check are at addresses of the stack, and
go on to be so if the program counter, the base and the words of the memory are replaced by any others. -/
theorem representation_kept {size : Nat} (large : frameSize ≤ size) (limit : Option Int) :
    ((∃ machine, Machine.ofStackSize size limit = .ok machine) ↔ size < Machine.addressLimit) ∧
      ∀ machine, Machine.ofStackSize size limit = .ok machine → ∀ commands : List Machine.Command,
        let traced := commands.foldl Traced.obey ⟨machine, []⟩
        traced.machine = commands.foldl Machine.obey machine ∧ traced.machine.Sound size limit ∧
          (∀ index ∈ traced.accesses, 0 ≤ index ∧ index < size) ∧
          ∀ (pc bp : Int) (memory : Array Int), memory.size = size → ∀ command,
            ∀ index ∈ (Traced.obey ⟨{ traced.machine with pc, bp, memory }, []⟩ command).accesses,
              0 ≤ index ∧ index < size := by
  refine ⟨?_, fun machine made commands => ?_⟩
  · simp only [Machine.ofStackSize_eq_ok_iff, exists_and_left, exists_eq, and_true]
    omega
  have new := Machine.sound_ofStackSize made
  have sound : Traced.Sound size limit (commands.foldl Traced.obey ⟨machine, []⟩) :=
    Traced.Sound.foldl_obey large commands ⟨new, by simp⟩
  refine ⟨Traced.foldl_obey_machine commands _, sound.machine, sound.accesses, fun pc bp memory whole command => ?_⟩
  have other : Traced.Sound size limit
      ⟨{ (commands.foldl Traced.obey ⟨machine, []⟩).machine with pc, bp, memory }, []⟩ :=
    ⟨{ sound.machine with size_memory := whole }, by simp⟩
  exact (other.obey large command).accesses

/-- An address below the stack is pushed, the top of the stack is moved below the frame, and then come an opcode that
there is none of, and the end of the code. -/
def strayCode : Array Instruction :=
  #[.of .pushVar 1 (-7), .of .enter 0 (-3), { Instruction.of .jump with operation := .number 99 }]

theorem strayCode_representation :
    ∃ machine, Machine.ofStackSize 5 (some 8) = .ok machine ∧
      let traced := [Machine.Command.run (some strayCode) 9, .step, .step].foldl Traced.obey ⟨machine, []⟩
      traced.machine.sp = 1 ∧ traced.machine.cycles = 3 ∧ traced.machine.Sound 5 (some 8) ∧ 4 ∈ traced.accesses := by
  obtain ⟨exists_iff, obeys⟩ := representation_kept (by decide : frameSize ≤ 5) (some 8)
  obtain ⟨machine, made⟩ := exists_iff.mpr (by decide)
  obtain ⟨-, sound, -⟩ := obeys machine made [.run (some strayCode) 9, .step, .step]
  cases made
  exact ⟨_, rfl, by decide, by decide, sound, by decide⟩

end PLZero
