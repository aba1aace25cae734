import PLZero.Proofs.Generation.Meanings
import PLZero.Proofs.Generation.Placement

namespace PLZero

namespace Block

theorem generateAll_append (outer : CodeContext) (layer : Layer (Option String) Binding) (start : Nat)
    (first rest : List (Heading × Block)) :
    generateAll outer layer start (first ++ rest) =
      let front := generateAll outer layer start first
      let back := generateAll outer front.1 (start + front.2.length) rest
      (back.1, front.2 ++ back.2) := by
  induction first generalizing layer start with
  | nil => rfl
  | cons subroutine first ih =>
    obtain ⟨heading, block⟩ := subroutine
    simp only [List.cons_append, generateAll, ih, List.length_append, List.append_assoc, Nat.add_assoc]

end Block

/-- A block where its code stands: what it is the body of, the address at which its code begins, and the declarations
around it, which tell the address at which the block itself is called. -/
structure Site where
  owner : Option Heading
  block : Block
  start : Nat
  outer : Nat → CodeContext

namespace Site

variable (site : Site)

/-- What some of the subroutines of the block declare, and their code. -/
def nested (subroutines : List (Heading × Block)) : Layer (Option String) Binding × List Instruction :=
  Block.generateAll (site.outer site.start)
    (Block.openingFrame site.owner site.block.constants site.block.vars) (site.start + 1) subroutines

/-- The address behind the subroutines, where the block makes room for its variables. -/
def entry : Nat :=
  site.start + 1 + (site.nested site.block.subroutines).2.length

/-- The declarations that the statement of the block sees. -/
def context : CodeContext :=
  (site.nested site.block.subroutines).1 :: site.outer site.entry

def bodyCode : List Instruction :=
  site.block.body.code site.context (site.entry + 1)

/-- The address of the return. -/
def last : Nat :=
  site.entry + 1 + site.bodyCode.length

def code : List Instruction :=
  .of .jump 0 site.entry :: (site.nested site.block.subroutines).2 ++
    .of .enter 0 ↑(frameSize + site.block.vars.length) :: site.bodyCode ++ [Block.returnInstruction site.owner]

/-- How many arguments lie below a frame of the block. -/
def arity : Nat :=
  (Block.parametersOf site.owner).length

/-- How many words an activation of the block enters behind the links and the result. -/
def room : Nat :=
  frameSize + site.block.vars.length

/-- The addresses of the instructions that belong to the block and to none of its subroutines. -/
def Owns (address : Nat) : Prop :=
  address = site.start ∨ site.entry ≤ address ∧ address ≤ site.last

/-- The addresses of the code of the block with its subroutines. -/
def Covers (address : Nat) : Prop :=
  site.start ≤ address ∧ address ≤ site.last

/-- A subroutine of the block that stands behind others. -/
def child (before : List (Heading × Block)) (heading : Heading) (block : Block) : Site where
  owner := some heading
  block := block
  start := site.start + 1 + (site.nested before).2.length
  outer address := (site.nested before).1.declare heading.name (heading.binding address) :: site.outer site.start

/-- A subroutine is declared in the block. -/
inductive Encloses : Site → Prop
  | child {before heading block after} : site.block.subroutines = before ++ (heading, block) :: after →
      Encloses (site.child before heading block)

def main (tree : Block) : Site :=
  ⟨none, tree, 0, fun _ => []⟩

theorem generate_eq (owner : Option Heading) (block : Block) (start : Nat) (outer : Nat → CodeContext) :
    block.generate outer owner start = ((⟨owner, block, start, outer⟩ : Site).entry, code ⟨owner, block, start, outer⟩) := by
  cases block
  rfl

theorem main_code (tree : Block) : (main tree).code = tree.program := by
  rw [Block.program, generate_eq]
  rfl

theorem length_code : site.start + site.code.length = site.last + 1 := by
  simp only [code, last, entry, List.length_append, List.length_cons, List.length_nil]
  omega

theorem start_lt_entry : site.start < site.entry := by
  rw [entry]
  omega

theorem entry_lt_last : site.entry < site.last := by
  rw [last]
  omega

variable {site} {inner other : Site} {address : Nat}

theorem Owns.covers (owned : site.Owns address) : site.Covers address := by
  have lower := site.start_lt_entry
  have upper := site.entry_lt_last
  rcases owned with rfl | owned
  · exact ⟨Nat.le_refl _, by omega⟩
  · exact ⟨by omega, owned.2⟩

theorem owns_start : site.Owns site.start :=
  .inl rfl

theorem owns_entry : site.Owns site.entry :=
  .inr ⟨Nat.le_refl _, Nat.le_of_lt site.entry_lt_last⟩

/-- An address at which a subroutine is called is one of its own. -/
theorem owns_of_called (called : address = site.start ∨ address = site.entry) : site.Owns address := by
  rcases called with rfl | rfl
  · exact owns_start
  · exact owns_entry

section

variable (site) (before after : List (Heading × Block)) (heading : Heading) (block : Block)

theorem child_start : (site.child before heading block).start = site.start + 1 + (site.nested before).2.length := rfl

/-- The code of some subroutines, of one, and of those behind it. -/
theorem nested_split : ∃ behind, (site.nested (before ++ (heading, block) :: after)).2 =
    (site.nested before).2 ++ (site.child before heading block).code ++ behind := by
  rw [nested, Block.generateAll_append]
  simp only [Block.generateAll, generate_eq, ← List.append_assoc]
  exact ⟨_, rfl⟩

/-- A subroutine ends before those behind it. -/
theorem last_child_lt :
    (site.child before heading block).last <
      site.start + 1 + (site.nested (before ++ (heading, block) :: after)).2.length := by
  obtain ⟨behind, code⟩ := nested_split site before after heading block
  have length := (site.child before heading block).length_code
  rw [child_start] at length
  rw [code, List.length_append, List.length_append]
  omega

end

/-- What a block encloses is the body of a subroutine. -/
theorem Encloses.exists_owner (encloses : site.Encloses inner) : ∃ heading, inner.owner = some heading := by
  cases encloses
  exact ⟨_, rfl⟩

theorem Encloses.start_lt (encloses : site.Encloses inner) : site.start < inner.start := by
  cases encloses
  rw [child_start]
  omega

theorem Encloses.last_lt (encloses : site.Encloses inner) : inner.last < site.entry := by
  cases encloses with
  | child split =>
    rw [entry, split]
    exact last_child_lt ..

theorem Encloses.covers (encloses : site.Encloses inner) (covered : inner.Covers address) : site.Covers address := by
  have lower := encloses.start_lt
  have upper := encloses.last_lt
  have behind := site.entry_lt_last
  obtain ⟨first, last⟩ := covered
  exact ⟨by omega, by omega⟩

/-- A block owns no address of a subroutine. -/
theorem Encloses.not_owns (encloses : site.Encloses inner) (covered : inner.Covers address) : ¬ site.Owns address := by
  have lower := encloses.start_lt
  have upper := encloses.last_lt
  obtain ⟨first, last⟩ := covered
  rintro (rfl | ⟨behind, -⟩) <;> omega

/-- An address lies in one subroutine only. -/
theorem Encloses.unique (encloses : site.Encloses inner) (also : site.Encloses other) (covered : inner.Covers address)
    (alsoCovered : other.Covers address) : inner = other := by
  obtain ⟨lower, upper⟩ := covered
  obtain ⟨lowerOther, upperOther⟩ := alsoCovered
  cases encloses with
  | @child before heading block after split =>
    cases also with
    | @child beforeOther headingOther blockOther afterOther splitOther =>
      rcases List.append_eq_append_iff.mp (split.symm.trans splitOther) with
        ⟨between, rfl, spelled⟩ | ⟨between, rfl, spelled⟩
      · cases between with
        | nil =>
          cases spelled
          rw [List.append_nil]
        | cons subroutine between =>
          obtain ⟨rfl, -⟩ := List.cons.inj spelled
          have apart := last_child_lt site before between heading block
          rw [child_start] at lowerOther
          omega
      · cases between with
        | nil =>
          cases spelled
          rw [List.append_nil]
        | cons subroutine between =>
          obtain ⟨rfl, -⟩ := List.cons.inj spelled
          have apart := last_child_lt site beforeOther between headingOther blockOther
          rw [child_start] at lower
          omega

end Site

/-- A block of a program with the blocks around it, innermost first. -/
inductive Block.Path (tree : Block) : List Site → Prop
  | main : Path tree [.main tree]
  | inner {site outer child} : Path tree (site :: outer) → site.Encloses child → Path tree (child :: site :: outer)

namespace Block.Path

variable {tree : Block} {site other : Site} {outer path : List Site} {address : Nat}

/-- The blocks around a block are such a path as well. -/
theorem drop (reached : tree.Path path) {distance : Nat} (inside : distance < path.length) :
    tree.Path (path.drop distance) := by
  induction reached generalizing distance with
  | main =>
    obtain rfl : distance = 0 := by simpa using inside
    exact .main
  | inner around encloses ih =>
    cases distance with
    | zero => exact .inner around encloses
    | succ distance => exact ih (by simpa using inside)

/-- The outermost block is the main program. -/
theorem getLast_eq (reached : tree.Path path) : path.getLast? = some (.main tree) := by
  induction reached with
  | main => rfl
  | inner _ _ ih => rw [List.getLast?_cons_cons, ih]

/-- No subroutine begins at address zero. -/
theorem start_pos (reached : tree.Path (site :: outer)) {heading : Heading} (owned : site.owner = some heading) :
    0 < site.start := by
  cases reached with
  | main => cases owned
  | inner _ encloses => exact Nat.zero_lt_of_lt encloses.start_lt

theorem codeAt (reached : tree.Path (site :: outer)) : CodeAt tree.program site.start site.code := by
  generalize spelled : site :: outer = path at reached
  induction reached generalizing site outer with
  | main =>
    cases spelled
    rw [program, Site.generate_eq]
    exact .whole
  | inner around encloses ih =>
    cases spelled
    have whole := ih rfl
    cases encloses with
    | child split =>
      obtain ⟨behind, code⟩ := Site.nested_split ..
      rw [Site.code, split, code, List.cons_append, List.cons_append, List.append_assoc, List.append_assoc,
        List.append_assoc] at whole
      exact whole.tail.right.left

theorem code_start (reached : tree.Path (site :: outer)) :
    tree.program[site.start]? = some (.of .jump 0 site.entry) := by
  have whole := reached.codeAt
  rw [Site.code, List.cons_append, List.cons_append, List.append_assoc] at whole
  exact whole.head

theorem code_entry (reached : tree.Path (site :: outer)) :
    tree.program[site.entry]? = some (.of .enter 0 site.room) := by
  have whole := reached.codeAt
  rw [Site.code, List.cons_append, List.cons_append, List.append_assoc, List.cons_append] at whole
  exact whole.tail.right.head

theorem code_body (reached : tree.Path (site :: outer)) : CodeAt tree.program (site.entry + 1) site.bodyCode := by
  have whole := reached.codeAt
  rw [Site.code, List.cons_append, List.cons_append, List.append_assoc, List.cons_append] at whole
  exact whole.tail.right.tail.left

theorem code_last (reached : tree.Path (site :: outer)) :
    tree.program[site.last]? = some (Block.returnInstruction site.owner) := by
  have whole := reached.codeAt
  rw [Site.code, List.cons_append, List.cons_append, List.append_assoc, List.cons_append] at whole
  exact whole.tail.right.tail.right.head

/-- What stands at the addresses of a block: the jump in front, the entry, the statement, and the return. -/
theorem forall_owned {P : Nat → Instruction → Prop} (reached : tree.Path (site :: outer))
    (atStart : P site.start (.of .jump 0 site.entry)) (atEntry : P site.entry (.of .enter 0 site.room))
    (within : ∀ index instruction, site.bodyCode[index]? = some instruction →
      P (site.entry + 1 + index) instruction)
    (atLast : P site.last (Block.returnInstruction site.owner)) {instruction : Instruction}
    (owned : site.Owns address) (fetched : tree.program[address]? = some instruction) : P address instruction := by
  have found : ∀ {other}, tree.program[address]? = some other → P address other → P address instruction := by
    intro other alsoFetched holds
    cases fetched.symm.trans alsoFetched
    exact holds
  rcases owned with rfl | ⟨lower, upper⟩
  · exact found reached.code_start atStart
  · rcases Nat.eq_or_lt_of_le lower with rfl | lower
    · exact found reached.code_entry atEntry
    · rcases Nat.eq_or_lt_of_le upper with rfl | upper
      · exact found reached.code_last atLast
      · obtain ⟨index, rfl⟩ := Nat.exists_eq_add_of_le lower
        have inside : index < site.bodyCode.length := by
          rw [Site.last] at upper
          omega
        exact found (reached.code_body.getElem?_eq inside) (within index _ (List.getElem?_eq_getElem inside))

theorem covers_of_mem (reached : tree.Path (site :: outer)) (covered : site.Covers address) :
    ∀ around ∈ outer, around.Covers address := by
  generalize spelled : site :: outer = path at reached
  induction reached generalizing site outer with
  | main =>
    cases spelled
    simp
  | inner around encloses ih =>
    cases spelled
    have parent := encloses.covers covered
    simpa [parent] using ih parent rfl

/-- The shorter one of two paths to blocks that cover an address is the end of the longer one. -/
theorem suffix_of_covers (reached : tree.Path (site :: outer)) (also : tree.Path path)
    (covered : site.Covers address) (alsoCovered : ∀ around ∈ path, around.Covers address)
    (shorter : (site :: outer).length ≤ path.length) : site :: outer <:+ path := by
  generalize spelled : site :: outer = first at reached shorter ⊢
  induction reached generalizing site outer with
  | main =>
    obtain ⟨front, rfl⟩ := List.getLast?_eq_some_iff.mp also.getLast_eq
    exact List.suffix_append _ _
  | @inner parent around child reached encloses ih =>
    cases spelled
    rw [List.length_cons] at shorter
    obtain ⟨front, rfl⟩ := ih (encloses.covers covered) rfl (Nat.le_of_succ_le shorter)
    rcases List.eq_nil_or_concat front with rfl | ⟨front, next, rfl⟩
    · exact absurd shorter (Nat.not_succ_le_self _)
    · rw [List.concat_eq_append, List.append_assoc] at also alsoCovered ⊢
      have inside : front.length < (front ++ ([next] ++ parent :: around)).length := by simp
      have further := also.drop inside
      rw [List.drop_left] at further
      cases further with
      | inner _ alsoEncloses =>
        obtain rfl := encloses.unique alsoEncloses covered (alsoCovered _ (by simp))
        exact List.suffix_append _ _

/-- An address belongs to one block only. -/
theorem unique {around : List Site} (reached : tree.Path (site :: outer)) (also : tree.Path (other :: around))
    (owned : site.Owns address) (alsoOwned : other.Owns address) : site :: outer = other :: around := by
  have all : ∀ {site outer}, tree.Path (site :: outer) → site.Owns address →
      ∀ s ∈ site :: outer, s.Covers address := by
    intro site outer reached owned
    rw [List.forall_mem_cons]
    exact ⟨owned.covers, reached.covers_of_mem owned.covers⟩
  have shortest : ∀ {site other outer around}, tree.Path (site :: outer) → tree.Path (other :: around) →
      site.Owns address → other.Owns address → (site :: outer).length ≤ (other :: around).length →
      site :: outer = other :: around := by
    intro site other outer around reached also owned alsoOwned shorter
    obtain ⟨front, spelled⟩ := reached.suffix_of_covers also owned.covers (all also alsoOwned) shorter
    rcases List.eq_nil_or_concat front with rfl | ⟨front, next, rfl⟩
    · exact spelled
    · rw [List.concat_eq_append, List.append_assoc] at spelled
      have inside : front.length < (other :: around).length := by simp [← spelled]
      have further := also.drop inside
      have covered := all also alsoOwned next (by simp [← spelled])
      rw [← spelled, List.drop_left] at further
      cases further with
      | inner _ encloses => exact absurd owned (encloses.not_owns covered)
  rcases Nat.le_total (site :: outer).length (other :: around).length with shorter | shorter
  · exact shortest reached also owned alsoOwned shorter
  · exact (shortest also reached alsoOwned owned shorter).symm

/-- A call leads to one block only. -/
theorem called_unique {around : List Site} {value : Int} (reached : tree.Path (site :: outer))
    (also : tree.Path (other :: around)) (called : value = site.start ∨ value = site.entry)
    (alsoCalled : value = other.start ∨ value = other.entry) : site :: outer = other :: around := by
  obtain ⟨address, rfl⟩ : ∃ address : Nat, value = address := by
    rcases called with same | same <;> exact ⟨_, same⟩
  exact reached.unique also (Site.owns_of_called (called.imp Int.ofNat.inj Int.ofNat.inj))
    (Site.owns_of_called (alsoCalled.imp Int.ofNat.inj Int.ofNat.inj))

end Block.Path

end PLZero
