import PLZero.Proofs.Generation.Shapes
import PLZero.Proofs.Tree.Derivation

namespace PLZero

/-- A statement with neither `while` nor `repeat` in it. -/
def Statement.LoopFree : Statement → Prop
  | .sequence first rest | .ifElse _ first rest => first.LoopFree ∧ rest.LoopFree
  | .compound body | .ifThen _ body => body.LoopFree
  | .whileDo _ _ | .repeatUntil _ _ => False
  | _ => True

/-- A block with loops neither in its statement nor in its subroutines. -/
inductive Block.LoopFree : Block → Prop
  | mk {constants vars subroutines body} : (∀ s ∈ subroutines, LoopFree s.2) → body.LoopFree →
      LoopFree (.mk constants vars subroutines body)

/-- Loops are told by their keywords. -/
def Token.BeginsLoop (t : Token) : Prop :=
  t = .fixed .whileKw ∨ t = .fixed .repeatKw

namespace Block.LoopFree

variable {block : Block}

theorem body (free : block.LoopFree) : block.body.LoopFree := by
  cases free with
  | mk _ body => exact body

theorem of_mem (free : block.LoopFree) {s : Heading × Block} (mem : s ∈ block.subroutines) : s.2.LoopFree := by
  cases free with
  | mk nested _ => exact nested s mem

end Block.LoopFree

theorem Statement.Derives.loopFree {form : StatementForm} {ts : List Token} {s : Statement} (h : Derives form ts s)
    (none : ∀ t ∈ ts, ¬ t.BeginsLoop) : s.LoopFree := by
  induction h with
  | compound _ ih => exact ih fun t mem => none t (by simp [mem])
  | ifThen _ _ ih => exact ih fun t mem => none t (by simp [mem])
  | ifElse _ _ _ ihConsequent ihAlternative =>
    exact ⟨ihConsequent fun t mem => none t (by simp [mem]), ihAlternative fun t mem => none t (by simp [mem])⟩
  | whileDo => exact none _ (by simp) (.inl rfl)
  | repeatUntil => exact none _ (by simp) (.inr rfl)
  | last _ ih => exact ih none
  | sequence _ _ ihFirst ihRest =>
    exact ⟨ihFirst fun t mem => none t (by simp [mem]), ihRest fun t mem => none t (by simp [mem])⟩
  | _ => trivial

theorem Block.Derives.loopFree {ts : List Token} {block : Block} (h : Derives ts block)
    (none : ∀ t ∈ ts, ¬ t.BeginsLoop) : block.LoopFree := by
  induction h with
  | mk _ _ derivedBody ih =>
    refine .mk (List.forall_mem_map.mpr fun s mem => ih s mem fun t inside => none t ?_)
      (derivedBody.loopFree fun t mem => none t (List.mem_append_right _ mem))
    have among : t ∈ subroutinePart _ := List.mem_flatMap.mpr ⟨s, mem, by simp [inside]⟩
    simp [among]

theorem Block.DerivesProgram.loopFree {tokens : List Token} {block : Block} (h : block.DerivesProgram tokens)
    (none : ∀ t ∈ tokens, ¬ t.BeginsLoop) : block.LoopFree := by
  obtain ⟨ts, derived, rfl⟩ := h
  exact derived.loopFree fun t mem => none t (List.mem_append_left _ mem)

theorem CodeContext.targetCode_plain (context : CodeContext) (name : String) : Plain (context.targetCode name) := by
  unfold targetCode
  split <;> simp [Plain, Instruction.of, Instruction.target?]

/-- Code that begins at an address, with all jumps leading to what comes behind them. -/
def Forward (start : Nat) (code : List Instruction) : Prop :=
  ∀ (index : Nat) instruction, code[index]? = some instruction →
    ∀ target, instruction.target? = some target → ↑(start + index) < target

namespace Forward

variable {start : Nat} {first rest test : List Instruction}

theorem of_plain (plain : Plain first) : Forward start first := by
  intro index instruction atIndex target leads
  rw [plain instruction (List.mem_of_getElem? atIndex)] at leads
  cases leads

theorem append (front : Forward start first) (back : Forward (start + first.length) rest) :
    Forward start (first ++ rest) := by
  intro index instruction atIndex target leads
  rw [List.getElem?_append] at atIndex
  split at atIndex
  · exact front index instruction atIndex target leads
  · have later := back _ instruction atIndex target leads
    omega

theorem cons {instruction : Instruction} (leads : ∀ target, instruction.target? = some target → (start : Int) < target)
    (back : Forward (start + 1) rest) : Forward start (instruction :: rest) := by
  intro index other atIndex target leadsOn
  cases index with
  | zero =>
    cases atIndex
    exact leads target leadsOn
  | succ index =>
    have later := back index other atIndex target leadsOn
    omega

/-- A condition, and a jump over what comes behind it, or further. -/
theorem guarded {target : Int} (plain : Plain test) (beyond : ↑(start + test.length) < target)
    (back : Forward (start + test.length + 1) rest) : Forward start (test ++ .of .jneq 0 target :: rest) := by
  refine (of_plain plain).append (.cons (fun goal leads => ?_) back)
  cases leads
  exact beyond

end Forward

/-- Without loops there are only jumps forward. -/
theorem Statement.LoopFree.forward {context : CodeContext} {s : Statement} (free : s.LoopFree) (start : Nat) :
    Forward start (s.code context start) := by
  induction s generalizing start with
  | empty => exact .of_plain nofun
  | assignment target value =>
    refine .of_plain (plain_append.mpr ⟨plain_append.mpr ⟨value.code_plain _, CodeContext.targetCode_plain _ _⟩, ?_⟩)
    simp [Plain, Instruction.of, Instruction.target?]
  | call name arguments =>
    exact .of_plain (plain_append.mpr
      ⟨Expression.codeAll_plain fun a _ => a.code_plain _, CodeContext.callCode_plain _ _⟩)
  | sequence first rest ihFirst ihRest => exact (ihFirst free.1 start).append (ihRest free.2 _)
  | compound body ih => exact ih free start
  | ifThen condition consequent ih => exact .guarded (condition.code_plain _) (by omega) (ih free _)
  | ifElse condition consequent alternative ihConsequent ihAlternative =>
    simp only [code]
    rw [List.append_assoc, List.cons_append]
    refine .guarded (condition.code_plain _) (by omega) ?_
    refine (ihConsequent free.1 _).append (.cons ?_ (ihAlternative free.2 _))
    intro goal leads
    obtain rfl := Option.some.inj leads
    exact Int.ofNat_lt.mpr (by omega)
  | whileDo | repeatUntil => exact free.elim

namespace Block.Path

variable {tree : Block} {site : Site} {outer : List Site}

theorem loopFree (reached : tree.Path (site :: outer)) (free : tree.LoopFree) : site.block.LoopFree := by
  generalize spelled : site :: outer = path at reached
  induction reached generalizing site outer with
  | main =>
    cases spelled
    exact free
  | inner _ encloses ih =>
    cases spelled
    obtain ⟨heading, owned⟩ := encloses.exists_owner
    exact (ih rfl).of_mem (encloses.mem owned)

/-- The jumps of a program without loops lead forward. -/
theorem forward (reached : tree.Path (site :: outer)) (free : tree.LoopFree) {address : Nat}
    {instruction : Instruction} (owned : site.Owns address) (fetched : tree.program[address]? = some instruction) :
    ∀ target, instruction.target? = some target → (address : Int) < target := by
  refine reached.forall_owned (P := fun address i => ∀ target, i.target? = some target → (address : Int) < target)
    ?_ nofun ?_ ?_ owned fetched
  · intro target leads
    obtain rfl := Option.some.inj leads
    exact Int.ofNat_lt.mpr site.start_lt_entry
  · exact (reached.loopFree free).body.forward (site.entry + 1)
  · rcases site.return_cases with ⟨-, leaves⟩ | ⟨-, leaves⟩ <;> rw [leaves] <;> exact nofun

end Block.Path

end PLZero
