import Mathlib.Data.List.Basic
import PLZero.Machine.Fault

/-!
What can be written: a line, a listing and a report come out exactly if no integer in them has too many digits. The
fields that a line leaves out do not count.
-/

namespace PLZero

namespace Text

variable {α : Type} {integers : List Int} {told text : α}

/-- A number has no more digits than a greater one. -/
theorem isWritable_of_le {less more : Nat} (le : less ≤ more) (writable : isWritable more) : isWritable less := by
  have positive : 0 < integerDigitLimit := by decide
  rw [isWritable, decide_eq_true_eq, Int.natAbs_natCast] at writable ⊢
  exact (Nat.length_repr_le_iff positive).mpr (Nat.lt_of_le_of_lt le ((Nat.length_repr_le_iff positive).mp writable))

theorem telling_eq_ok_iff : telling integers told = .ok text ↔ (∀ n ∈ integers, isWritable n) ∧ told = text := by
  rw [telling]
  split
  · next found =>
    have unwritable := List.find?_some found
    have mem := List.mem_of_find?_eq_some found
    refine iff_of_false nofun fun ⟨all, _⟩ => ?_
    rw [all _ mem] at unwritable
    cases unwritable
  · next absent =>
    rw [List.find?_eq_none] at absent
    have all : ∀ n ∈ integers, isWritable n := fun n mem => by simpa using absent n mem
    rw [Except.ok.injEq, and_iff_right all]

end Text

variable {address : Nat} {code : List Instruction} {lines : List String} {text : String}

/-- All integers in the lines of a code segment can be written, if its first line is that of the address. -/
def WritableFrom (address : Nat) (code : List Instruction) : Prop :=
  ∀ placed ∈ code.zipIdx address, ∀ n ∈ placed.1.lineIntegers placed.2, Text.isWritable n

theorem Instruction.disassemble_eq_ok_iff {instruction : Instruction} {address : Int} :
    instruction.disassemble address = .ok text ↔
      (∀ n ∈ instruction.lineIntegers address, Text.isWritable n) ∧ instruction.listing address = text :=
  Text.telling_eq_ok_iff

theorem disassembleFrom_eq_ok_iff :
    disassembleFrom address code = .ok lines ↔
      WritableFrom address code ∧ (code.zipIdx address).map (fun placed => placed.1.listing placed.2) = lines := by
  induction code generalizing address lines with
  | nil => simp [disassembleFrom, WritableFrom]
  | cons instruction code ih =>
    have cons : disassembleFrom address (instruction :: code) = .ok lines ↔ ∃ line rest,
        instruction.disassemble address = .ok line ∧ disassembleFrom (address + 1) code = .ok rest ∧
          line :: rest = lines := by
      rw [disassembleFrom]
      cases instruction.disassemble address <;> cases disassembleFrom (address + 1) code <;>
        simp [bind, Except.bind, pure, Except.pure]
    simp only [cons, Instruction.disassemble_eq_ok_iff, ih, WritableFrom, List.zipIdx_cons, List.forall_mem_cons,
      List.map_cons]
    constructor
    · rintro ⟨_, _, ⟨first, rfl⟩, ⟨rest, rfl⟩, rfl⟩
      exact ⟨⟨first, rest⟩, rfl⟩
    · rintro ⟨⟨first, rest⟩, rfl⟩
      exact ⟨_, _, ⟨first, rfl⟩, ⟨rest, rfl⟩, rfl⟩

/-- A code segment is listed exactly if all integers in its lines can be written. -/
theorem disassemble_eq_ok_iff : disassemble code = .ok text ↔ WritableFrom 0 code ∧ listing code = text := by
  have same : listing code = "\n".intercalate ((code.zipIdx 0).map fun placed => placed.1.listing placed.2) := by
    rw [listing, List.mapIdx_eq_zipIdx_map]
  rw [disassemble, same]
  cases written : disassembleFrom 0 code with
  | error unwritable =>
    refine iff_of_false nofun fun ⟨writable, _⟩ => ?_
    cases written.symm.trans (disassembleFrom_eq_ok_iff.mpr ⟨writable, rfl⟩)
  | ok lines =>
    obtain ⟨writable, rfl⟩ := disassembleFrom_eq_ok_iff.mp written
    exact ⟨fun told => ⟨writable, Except.ok.inj told⟩, fun told => congrArg Except.ok told.2⟩

/-- A code segment is listed if its length and its operands can be written. -/
theorem disassemble_of_writable (length : Text.isWritable code.length)
    (values : ∀ instruction ∈ code, Text.isWritable instruction.value)
    (operations : ∀ instruction ∈ code, ∀ n ∈ instruction.operation.integers, Text.isWritable n) :
    disassemble code = .ok (listing code) := by
  refine disassemble_eq_ok_iff.mpr ⟨fun placed mem n written => ?_, rfl⟩
  obtain ⟨instruction, address⟩ := placed
  have among : instruction ∈ code := List.fst_mem_of_mem_zipIdx mem
  have below : address < code.length := by simpa using List.snd_lt_add_of_mem_zipIdx mem
  simp only [Instruction.lineIntegers, List.mem_append, List.mem_cons] at written
  rcases written with (rfl | name) | operand
  · exact Text.isWritable_of_le (Nat.le_of_lt below) length
  · exact operations instruction among n name
  · have isValue : n = instruction.value := by
      split at operand
      · exact List.mem_singleton.mp operand
      · exact List.mem_singleton.mp operand
      · cases operand
    exact isValue ▸ values instruction among

/-- The report of a fault comes out exactly if the address or the limit that it tells and the registers can be
written. -/
theorem Fault.told_eq_ok_iff {fault : Fault} {report : ErrorReport} :
    fault.told = .ok report ↔
      (∀ n ∈ fault.cause.integers, Text.isWritable n) ∧ (∀ n ∈ fault.registers.integers, Text.isWritable n) ∧
        fault.report = report := by
  rw [told, Text.telling_eq_ok_iff, List.forall_mem_append, and_assoc]

end PLZero
