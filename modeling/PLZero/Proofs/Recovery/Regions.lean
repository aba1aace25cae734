import PLZero.Proofs.Recovery.Emissions

namespace PLZero

namespace Instruction

variable {calls : Int → Prop} {instruction : Instruction} {first last : Nat} {target : Int}

/-- A jump or a call goes on elsewhere than at the next instruction. -/
def LeadsTo (instruction : Instruction) (target : Int) : Prop :=
  instruction.target? = some target ∨ instruction.operation = .named .call ∧ instruction.value = target

theorem Sits.leadsTo (sits : instruction.Sits calls first last) (leads : instruction.LeadsTo target) :
    calls target ∨ (first : Int) ≤ target ∧ target ≤ last := by
  rcases leads with jumps | ⟨isCall, rfl⟩
  · exact .inr (sits.jumps target jumps)
  · exact .inl (sits.calling isCall)

theorem not_leadsTo {op : Opcode} (named : instruction.operation = .named op)
    (plain : op ∉ [Opcode.jump, .jneq, .call]) : ¬ instruction.LeadsTo target := by
  rintro (jumps | ⟨isCall, -⟩)
  · rw [target?, named] at jumps
    split at jumps <;> simp_all
  · cases named.symm.trans isCall
    simp at plain

end Instruction

/-- The code of a block: a jump over the blocks that are declared in it, their code, the entry with room for variables,
the statement, and the return. -/
structure Region where
  start : Nat
  inner : List Instruction
  room : Int
  body : List Instruction
  leave : Instruction

namespace Region

variable (region : Region)

def entry : Nat :=
  region.start + 1 + region.inner.length

def last : Nat :=
  region.entry + 1 + region.body.length

def span : Span :=
  ⟨region.start, region.entry, region.last⟩

def code : List Instruction :=
  .of .jump 0 region.entry :: (region.inner ++ .of .enter 0 region.room :: (region.body ++ [region.leave]))

theorem length_code : region.start + region.code.length = region.last + 1 := by
  simp only [code, last, entry, List.length_cons, List.length_append, List.length_nil]
  omega

/-- A region ends with a return. Its statement has no other one and no entry, and its jumps stay behind the entry. -/
structure Framed (calls : Int → Prop) : Prop where
  leaves : region.leave.operation = .named .ret ∨ region.leave.operation = .named .retf
  sits : ∀ i ∈ region.body, i.Sits calls (region.entry + 1) region.last

end Region

theorem Region.Framed.leadsTo {calls : Int → Prop} {region : Region} (framed : region.Framed calls)
    (inner : ∀ i ∈ region.inner, ∀ target, i.LeadsTo target →
      calls target ∨ (region.start : Int) < target ∧ target < region.entry)
    {i : Instruction} (mem : i ∈ region.code) {target : Int} (leads : i.LeadsTo target) :
    calls target ∨ (region.start : Int) < target ∧ target ≤ region.last := by
  have behind : region.start < region.entry ∧ region.entry < region.last := by
    simp only [Region.last, Region.entry]
    omega
  simp only [Region.code, List.mem_cons, List.mem_append, List.not_mem_nil, or_false] at mem
  rcases mem with rfl | mem | rfl | mem | rfl
  · rcases leads with jumps | ⟨isCall, -⟩
    · obtain rfl : (region.entry : Int) = target := Option.some.inj jumps
      omega
    · cases isCall
  · exact (inner i mem target leads).imp_right fun bounds => by omega
  · exact absurd leads (Instruction.not_leadsTo rfl (by decide))
  · exact ((framed.sits i mem).leadsTo leads).imp_right fun bounds => by omega
  · refine absurd leads ?_
    rcases framed.leaves with isRet | isRetf
    · exact Instruction.not_leadsTo isRet (by decide)
    · exact Instruction.not_leadsTo isRetf (by decide)

/-- Code that is made up of regions, one behind another from an address on, with the regions within each of them. The
spans are listed in the order in which the regions end. -/
inductive Regions (calls : Int → Prop) : Nat → List Instruction → List Span → Prop
  | nil (start : Nat) : Regions calls start [] []
  | cons {region : Region} {within behind : List Span} {code : List Instruction} (framed : region.Framed calls)
      (nested : Regions calls (region.start + 1) region.inner within)
      (others : Regions calls (region.last + 1) code behind) :
      Regions calls region.start (region.code ++ code) (within ++ region.span :: behind)

/-- The addresses at which the block of one of the spans can be called. -/
def Callable (spans : List Span) (address : Int) : Prop :=
  ∃ span ∈ spans, address = span.start ∨ address = span.entry

theorem Callable.mono {spans more : List Span} (subset : spans ⊆ more) {address : Int}
    (callable : Callable spans address) : Callable more address := by
  obtain ⟨span, mem, atSpan⟩ := callable
  exact ⟨span, subset mem, atSpan⟩

namespace Regions

variable {calls : Int → Prop} {start : Nat} {code more : List Instruction} {spans further : List Span}

theorem append (regions : Regions calls start code spans) (others : Regions calls (start + code.length) more further) :
    Regions calls start (code ++ more) (spans ++ further) := by
  induction regions with
  | nil start => exact others
  | @cons region within behind code framed nested rest _ ih =>
    rw [List.length_append, ← Nat.add_assoc, region.length_code] at others
    rw [List.append_assoc, List.append_assoc, List.cons_append]
    exact .cons framed nested (ih others)

theorem concat {region : Region} {within : List Span} (regions : Regions calls start code spans)
    (behind : region.start = start + code.length) (framed : region.Framed calls)
    (nested : Regions calls (region.start + 1) region.inner within) :
    Regions calls start (code ++ region.code) (spans ++ (within ++ [region.span])) := by
  have alone : Regions calls region.start (region.code ++ []) (within ++ [region.span]) :=
    .cons framed nested (.nil _)
  rw [List.append_nil, behind] at alone
  exact regions.append alone

/-- The spans lie in the code. -/
theorem within (regions : Regions calls start code spans) :
    ∀ span ∈ spans, start ≤ span.start ∧ span.start < span.entry ∧ span.entry < span.last ∧
      span.last < start + code.length := by
  induction regions with
  | nil start => simp
  | @cons region within behind code framed nested others inside outside =>
    have length := region.length_code
    simp only [Region.last, Region.entry] at length
    intro span mem
    rw [List.length_append]
    rcases List.mem_append.mp mem with mem | mem
    · have bounds := inside span mem
      omega
    · rcases List.mem_cons.mp mem with rfl | mem
      · simp only [Region.span, Region.last, Region.entry]
        omega
      · have bounds := outside span mem
        simp only [Region.last, Region.entry] at bounds
        omega

/-- An instruction leads to one behind the first, unless it calls. -/
theorem leadsTo (regions : Regions calls start code spans) : ∀ i ∈ code, ∀ target, i.LeadsTo target →
    calls target ∨ (start : Int) < target ∧ target < (start + code.length : Nat) := by
  induction regions with
  | nil start => simp
  | @cons region within behind code framed nested others inside outside =>
    have length := region.length_code
    intro i mem target leads
    rw [List.length_append]
    rcases List.mem_append.mp mem with mem | mem
    · refine (framed.leadsTo (fun j inInner goal goes => ?_) mem leads).imp_right fun bounds => by omega
      exact (inside j inInner goal goes).imp_right fun bounds => by
        rw [Region.entry]
        omega
    · have before : region.start ≤ region.last := by
        simp only [Region.last, Region.entry]
        omega
      exact (outside i mem target leads).imp_right fun bounds => by omega

end Regions

end PLZero
