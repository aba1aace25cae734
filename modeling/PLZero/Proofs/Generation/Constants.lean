import PLZero.Proofs.Arithmetic.Words
import PLZero.Proofs.Generation.Levels

namespace PLZero

/-- What an instruction pushes as it stands fits in a word. -/
def Instruction.PushesWord (instruction : Instruction) : Prop :=
  instruction.operation = .named .pushConst → IsWord instruction.value

theorem Instruction.PushesWord.of_ne {op : Opcode} {distance : Nat} {value : Int} (other : op ≠ .pushConst) :
    (Instruction.of op distance value).PushesWord :=
  fun same => absurd (Operation.named.inj same) other

theorem Instruction.PushesWord.constant {value : Nat} (small : (value : Int) ≤ greatestWord) :
    (Instruction.of .pushConst 0 value).PushesWord :=
  fun _ => ⟨Int.le_trans (by decide) (Int.natCast_nonneg value), small⟩

theorem CodeContext.targetCode_pushesWord (context : CodeContext) (name : String) :
    ∀ i ∈ context.targetCode name, i.PushesWord := by
  unfold targetCode
  split <;> simp [Instruction.PushesWord.of_ne]

namespace Block.Path

variable {tree : Block} {site : Site} {outer : List Site}

theorem constant_le (reached : tree.Path (site :: outer)) (formed : tree.IsProgram) :
    ∀ c ∈ site.block.constants, (c.2 : Int) ≤ greatestWord := by
  have wellFormed := reached.wellFormed formed site.entry
  obtain ⟨owner, ⟨constants, vars, subroutines, body⟩, start, outer⟩ := site
  exact wellFormed.2.2.1

/-- A name stands for a constant that a block around declares. -/
theorem named_pushesWord (reached : tree.Path (site :: outer)) (formed : tree.IsProgram) (name : String) :
    ∀ i ∈ site.context.valueCode name ++ site.context.callCode name, i.PushesWord := by
  rw [List.forall_mem_append, CodeContext.valueCode, CodeContext.callCode]
  cases found : site.context.find? name with
  | none => simp
  | some place =>
    obtain ⟨distance, entry, visible⟩ := place
    obtain ⟨around, atAround, gives⟩ := reached.gives_of_find? found
    cases entry with
    | constant value =>
      have small := (reached.at_distance atAround).constant_le formed (name, value) gives
      simp [Instruction.PushesWord.constant small]
    | «variable» offset => simp [Instruction.PushesWord.of_ne]
    | routine kind arity address => simp [Instruction.PushesWord.of_ne]

/-- The constants in the code of a program fit in words. -/
theorem pushesWord (reached : tree.Path (site :: outer)) (formed : tree.IsProgram) {address : Nat}
    {instruction : Instruction} (owned : site.Owns address) (fetched : tree.program[address]? = some instruction) :
    instruction.PushesWord := by
  refine reached.forall_owned (P := fun _ i => i.PushesWord) (.of_ne (by simp)) (.of_ne (by simp)) ?_ ?_ owned fetched
  · intro index i atIndex
    refine (reached.body_wellFormed formed).forall_mem_code (fun _ => .constant) (fun _ _ other _ _ => .of_ne other)
      ?_ ?_ _ i (List.mem_of_getElem? atIndex)
    · exact fun name _ => reached.named_pushesWord formed name
    · exact fun name _ _ _ => CodeContext.targetCode_pushesWord _ name
  · rcases site.return_cases with ⟨-, leaves⟩ | ⟨-, leaves⟩ <;> rw [leaves] <;> exact .of_ne (by simp)

end Block.Path

end PLZero
