import PLZero.Proofs.Generation.Shapes
import PLZero.Proofs.Recovery.Requests

namespace PLZero

namespace Instruction

variable {calls more : Int → Prop} {first last : Nat} {instruction : Instruction}

/-- An instruction within the statement of a block: it neither enters a block nor leaves one, a jump leads to one of the
given addresses, and so does a call to one of those at which subroutines are called. -/
structure Sits (calls : Int → Prop) (first last : Nat) (instruction : Instruction) : Prop where
  inner : ∀ op ∈ [Opcode.enter, .ret, .retf], instruction.operation ≠ .named op
  jumps : ∀ target, instruction.target? = some target → (first : Int) ≤ target ∧ target ≤ last
  calling : instruction.operation = .named .call → calls instruction.value

def IsJump (instruction : Instruction) : Prop :=
  instruction.operation = .named .jump ∨ instruction.operation = .named .jneq

theorem Sits.mono (sits : instruction.Sits calls first last) {lower upper : Nat} (below : lower ≤ first)
    (above : last ≤ upper) : instruction.Sits calls lower upper where
  inner := sits.inner
  jumps target leads := by
    have bounds := sits.jumps target leads
    omega
  calling := sits.calling

theorem Sits.imp (sits : instruction.Sits calls first last) (enough : ∀ address, calls address → more address) :
    instruction.Sits more first last :=
  ⟨sits.inner, sits.jumps, fun isCall => enough _ (sits.calling isCall)⟩

/-- A jump that leads to one of the addresses. -/
theorem IsJump.sits (isJump : instruction.IsJump) {target : Nat} (leads : instruction.value = target)
    (lower : first ≤ target) (upper : target ≤ last) : instruction.Sits calls first last := by
  obtain ⟨operation, level, value⟩ := instruction
  refine ⟨fun op mem same => ?_, fun goal found => ?_, fun same => ?_⟩
  · rcases isJump with jump | jump <;> cases jump.symm.trans same <;> simp at mem
  · have here : goal = target := by
      rcases isJump with rfl | rfl <;> exact (Option.some.inj found).symm.trans leads
    omega
  · rcases isJump with jump | jump <;> cases jump.symm.trans same

end Instruction

/-- The addresses at which subroutines are called as far as a table tells. -/
def SymbolTable.Calls (symbols : SymbolTable) (address : Int) : Prop :=
  ∃ name symbol, symbols.resolve name = some symbol ∧ symbol.IsRoutine ∧ symbol.value = address

/-- Instructions of a statement have come behind the code. Those at the pending addresses are jumps of which it is not
known yet where they lead. -/
structure Draft.Extends (calls : Int → Prop) (pending : List Nat) (draft after : Draft) : Prop where
  size_le : draft.code.size ≤ after.code.size
  kept : ∀ address < draft.code.size, after.code[address]? = draft.code[address]?
  jumps : ∀ address ∈ pending, ∃ instruction, after.code[address]? = some instruction ∧ instruction.IsJump
  sits : ∀ address instruction, draft.code.size ≤ address → address ∉ pending →
    after.code[address]? = some instruction → instruction.Sits calls draft.code.size after.code.size

namespace Draft.Extends

variable {calls : Int → Prop} {pending before rest : List Nat} {draft between after : Draft} {position target : Nat}

theorem of_code (same : after.code = draft.code) : draft.Extends calls [] after where
  size_le := Nat.le_of_eq (by rw [same])
  kept _ _ := by rw [same]
  jumps := nofun
  sits address instruction lower _ fetched := by
    have upper := (Array.getElem?_eq_some_iff.mp fetched).1
    rw [same] at upper
    omega

theorem trans (reached : draft.Extends calls pending between) (further : between.Extends calls [] after) :
    draft.Extends calls pending after where
  size_le := Nat.le_trans reached.size_le further.size_le
  kept address below := (further.kept address (Nat.lt_of_lt_of_le below reached.size_le)).trans
    (reached.kept address below)
  jumps address mem := by
    obtain ⟨instruction, fetched, isJump⟩ := reached.jumps address mem
    exact ⟨instruction, (further.kept address (Array.getElem?_eq_some_iff.mp fetched).1).trans fetched, isJump⟩
  sits address instruction lower settled fetched := by
    by_cases early : address < between.code.size
    · rw [further.kept address early] at fetched
      exact (reached.sits address instruction lower settled fetched).mono (Nat.le_refl _) further.size_le
    · exact (further.sits address instruction (Nat.le_of_not_lt early) (by simp) fetched).mono reached.size_le
        (Nat.le_refl _)

/-- One more instruction, perhaps a jump which is to be filled in. -/
theorem push {instruction : Instruction} (reached : draft.Extends calls before between)
    (code : after.code = between.code.push instruction)
    (settled : pending = before ∧ instruction.Sits calls draft.code.size after.code.size ∨
      pending = between.code.size :: before ∧ instruction.IsJump) : draft.Extends calls pending after := by
  have size : after.code.size = between.code.size + 1 := by rw [code, Array.size_push]
  have earlier : ∀ address < between.code.size, after.code[address]? = between.code[address]? := by
    intro address below
    rw [code, Array.getElem?_push_lt below, Array.getElem?_eq_getElem below]
  have lower := reached.size_le
  refine ⟨by omega, fun address below => ?_, fun address mem => ?_, fun address i above settledAddress fetched => ?_⟩
  · rw [earlier address (by omega), reached.kept address below]
  · have old : ∀ address ∈ before, ∃ i, after.code[address]? = some i ∧ i.IsJump := by
      intro address mem
      obtain ⟨i, fetched, isJump⟩ := reached.jumps address mem
      exact ⟨i, (earlier address (Array.getElem?_eq_some_iff.mp fetched).1).trans fetched, isJump⟩
    rcases settled with ⟨rfl, -⟩ | ⟨rfl, isJump⟩
    · exact old address mem
    · rcases List.mem_cons.mp mem with rfl | mem
      · exact ⟨instruction, by rw [code, Array.getElem?_push_size], isJump⟩
      · exact old address mem
  · by_cases early : address < between.code.size
    · rw [earlier address early] at fetched
      have absent : address ∉ before := by
        rcases settled with ⟨rfl, -⟩ | ⟨rfl, -⟩
        · exact settledAddress
        · exact fun mem => settledAddress (List.mem_cons_of_mem _ mem)
      exact (reached.sits address i above absent fetched).mono (Nat.le_refl _) (by omega)
    · have inside := (Array.getElem?_eq_some_iff.mp fetched).1
      obtain rfl : address = between.code.size := by omega
      rw [code, Array.getElem?_push_size] at fetched
      cases fetched
      rcases settled with ⟨-, sits⟩ | ⟨rfl, -⟩
      · exact sits
      · exact absurd List.mem_cons_self settledAddress

/-- A jump is filled in. -/
theorem patch (reached : draft.Extends calls (before ++ position :: rest) between)
    (code : after.code = between.code.modify position fun i => { i with value := target })
    (above : draft.code.size ≤ position) (lower : draft.code.size ≤ target) (upper : target ≤ between.code.size) :
    draft.Extends calls (before ++ rest) after := by
  have size : after.code.size = between.code.size := by rw [code, Array.size_modify]
  have others : ∀ address, address ≠ position → after.code[address]? = between.code[address]? := by
    intro address other
    rw [code, Array.getElem?_modify, if_neg other.symm]
  refine ⟨size ▸ reached.size_le, fun address below => ?_, fun address mem => ?_,
    fun address i aboveAddress settled fetched => ?_⟩
  · rw [others address (by omega), reached.kept address below]
  · obtain ⟨i, fetched, isJump⟩ := reached.jumps address (by
      rcases List.mem_append.mp mem with mem | mem <;> simp [mem])
    by_cases here : address = position
    · refine ⟨{ i with value := target }, ?_, isJump⟩
      rw [code, Array.getElem?_modify, if_pos here.symm, fetched]
      rfl
    · exact ⟨i, (others address here).trans fetched, isJump⟩
  · rw [size]
    by_cases here : address = position
    · obtain ⟨jump, atPosition, isJump⟩ := reached.jumps position (by simp)
      rw [code, Array.getElem?_modify, if_pos here.symm, here, atPosition] at fetched
      obtain rfl := Option.some.inj fetched
      exact Instruction.IsJump.sits isJump rfl lower upper
    · rw [others address here] at fetched
      refine reached.sits address i aboveAddress (fun mem => settled ?_) fetched
      simpa [here] using mem

/-- The code that has come behind the draft, once no jump is left to be filled in. -/
theorem split (reached : draft.Extends calls [] after) : ∃ body, after.code.toList = draft.code.toList ++ body ∧
    ∀ i ∈ body, i.Sits calls draft.code.size after.code.size := by
  refine ⟨after.code.toList.drop draft.code.size, ?_, fun i mem => ?_⟩
  · refine List.ext_getElem? fun address => ?_
    by_cases early : address < draft.code.toList.length
    · rw [List.getElem?_append_left early, Array.getElem?_toList, Array.getElem?_toList]
      exact reached.kept address early
    · rw [List.getElem?_append_right (Nat.le_of_not_lt early), List.getElem?_drop]
      congr 1
      rw [Array.length_toList] at early ⊢
      omega
  · obtain ⟨offset, fetched⟩ := List.mem_iff_getElem?.mp mem
    rw [List.getElem?_drop, Array.getElem?_toList] at fetched
    exact reached.sits _ i (Nat.le_add_right _ _) (by simp) fetched

end Draft.Extends

/-- How far the compilation of a statement has come from a draft: only its instructions have come behind the code. -/
structure Draft.Written (draft : Draft) (watch : Watch) (symbols : SymbolTable) (pending : List Nat) (w : Watch)
    (d : Draft) : Prop where
  watch_eq : w = watch
  symbols_eq : d.symbols = symbols
  reached : draft.Extends symbols.Calls pending d

/-- A rule of a statement: it changes no declarations, and what it emits are instructions of a statement. -/
def Production.Writes {α : Type} (rule : Production α) (watch : Watch) (symbols : SymbolTable) (yields : α → Prop) :
    Prop :=
  ∀ draft, draft.symbols = symbols → rule.Heeds watch draft fun a w d => draft.Written watch symbols [] w d ∧ yields a

/-- The statement of a block is being compiled. All declarations in force are ones of the block and of those around, and
the owners are around the block. -/
structure Watch.Hosts (watch : Watch) (scope : Grammar.Scope) (symbols : SymbolTable) : Prop where
  inForce : watch.Scoped symbols
  inStatement : ∃ entry, watch.stage = .statement entry
  within : watch.blocks ≠ []
  level_eq : watch.level = scope.level
  levels : ∀ name symbol, symbols.resolve name = some symbol → symbol.level ≤ scope.level
  owners : ∀ owner ∈ scope.owners, owner.2 < scope.level ∧
    ∃ block ∈ watch.blocks, block.header.own.map (·.key) = some (owner.1, (owner.2 : Int))

namespace Watch.Hosts

variable {watch : Watch} {scope : Grammar.Scope} {symbols : SymbolTable} {name : String} {symbol : Symbol}

theorem elsewhere (hosts : watch.Hosts scope symbols) : watch.stage ≠ .declarations := by
  obtain ⟨entry, atStatement⟩ := hosts.inStatement
  rw [atStatement]
  exact nofun

theorem name_eq (hosts : watch.Hosts scope symbols) (found : symbols.resolve name = some symbol) :
    symbol.name = name := by
  obtain ⟨entries, holds⟩ := hosts.inForce
  exact (SymbolTable.resolve_ofList (holds.table_eq ▸ found)).2

theorem distance_nonneg (hosts : watch.Hosts scope symbols) (found : symbols.resolve name = some symbol) :
    0 ≤ scope.distance symbol.level := by
  have below := hosts.levels name symbol found
  rw [Grammar.Scope.distance]
  omega

theorem variable_fits (hosts : watch.Hosts scope symbols) (found : symbols.resolve name = some symbol)
    (kind : symbol.kind = .var) : watch.Fits symbols (.emit .pushVar (scope.distance symbol.level) symbol.value) := by
  refine ⟨hosts.distance_nonneg found, ?_⟩
  rw [Grammar.Scope.distance, ← hosts.level_eq]
  exact .variable found kind

theorem routine_fits (hosts : watch.Hosts scope symbols) (found : symbols.resolve name = some symbol)
    (routine : symbol.IsRoutine) :
    watch.Fits symbols (.emit .call (scope.distance symbol.level) symbol.value) := by
  refine ⟨hosts.distance_nonneg found, ?_⟩
  rw [Grammar.Scope.distance, ← hosts.level_eq]
  exact .routine found routine

/-- A function whose result is stored is an owner, and so lies at a level above that of the block. -/
theorem result_fits (hosts : watch.Hosts scope symbols) (found : symbols.resolve name = some symbol)
    (kind : symbol.kind = .function) {owner : String × Nat} (mem : owner ∈ scope.owners)
    (same : symbol.key = (owner.1, (owner.2 : Int))) :
    watch.Fits symbols (.emit .pushVar (scope.distance (symbol.level + 1)) resultSlot) := by
  obtain ⟨around, block, within, owned⟩ := hosts.owners owner mem
  have level : symbol.level = owner.2 := congrArg Prod.snd same
  rw [Grammar.Scope.distance, ← hosts.level_eq]
  refine ⟨?_, .result found kind within (same ▸ owned)⟩
  rw [hosts.level_eq, level]
  omega

end Watch.Hosts

namespace Production

variable {α β : Type} {watch : Watch} {symbols : SymbolTable} {yields : α → Prop} {result : β → Prop}

theorem Silent.writes {rule : Production α} (silent : rule.Silent watch symbols yields) :
    rule.Writes watch symbols yields :=
  fun draft same => (silent draft same).imp fun _ _ _ ⟨w, code, d, yielded⟩ => ⟨⟨w, d, .of_code code⟩, yielded⟩

namespace Writes

theorem of_pure {a : α} (yielded : yields a) : (pure a : Production α).Writes watch symbols yields :=
  (Silent.of_pure yielded).writes

/-- From wherever a statement has come to, a rule of it goes on. -/
theorem heeds {rule : Production α} (writes : rule.Writes watch symbols yields) {draft d : Draft} {pending : List Nat}
    {w : Watch} (written : draft.Written watch symbols pending w d) :
    rule.Heeds w d fun a w d => draft.Written watch symbols pending w d ∧ yields a := by
  obtain ⟨rfl, same, reached⟩ := written
  exact (writes d same).imp fun _ _ _ ⟨⟨w, d, further⟩, yielded⟩ => ⟨⟨w, d, reached.trans further⟩, yielded⟩

theorem bind {rule : Production α} {next : α → Production β} (first : rule.Writes watch symbols yields)
    (rest : ∀ a, yields a → (next a).Writes watch symbols result) : (rule >>= next).Writes watch symbols result :=
  fun draft same => (first draft same).bind fun a _ _ ⟨written, yielded⟩ => (rest a yielded).heeds written

theorem discard {rule : Production α} (writes : rule.Writes watch symbols yields) :
    (Functor.discard rule).Writes watch symbols fun _ => True :=
  fun draft same => (writes draft same).discard fun _ _ _ ⟨written, _⟩ => ⟨written, trivial⟩

end Writes

section Requests

variable {draft : Draft} {op : Opcode} {level value : Int}

theorem emit_heeds (inForce : watch.Scoped symbols) (same : draft.symbols = symbols)
    (fits : watch.Fits symbols (.emit op level value)) :
    (emit op level value).Heeds watch draft fun address w d =>
      w = watch.next draft (.emit op level value) ∧ address = draft.code.size ∧ d.symbols = symbols ∧
        ∃ instruction : Instruction,
          Instruction.ofLevel (.named op) (min level maxLevel) value = .ok instruction ∧
            d.code = draft.code.push instruction := by
  refine .of_request ⟨same ▸ inForce, same ▸ fits⟩ fun address after ran => ?_
  obtain ⟨isAddress, symbols_eq, made⟩ := Draft.emit_output ran
  exact ⟨rfl, isAddress, symbols_eq.trans same, made⟩

theorem here_heeds (inForce : watch.Scoped symbols) (same : draft.symbols = symbols) :
    here.Heeds watch draft fun address w d => w = watch ∧ d = draft ∧ address = draft.code.size := by
  refine .of_request ⟨same ▸ inForce, trivial⟩ fun answer after ran => ?_
  cases ran
  exact ⟨rfl, rfl, rfl⟩

theorem patch_heeds (inForce : watch.Scoped symbols) (same : draft.symbols = symbols) (position target : Nat) :
    (patch position target).Heeds watch draft fun _ w d => w = watch ∧ d.symbols = symbols ∧
      d.code = draft.code.modify position fun i => { i with value := target } := by
  refine .of_request ⟨same ▸ inForce, trivial⟩ fun answer after ran => ?_
  cases ran
  exact ⟨rfl, same, rfl⟩

/-- What is emitted within a statement. -/
theorem emit_heeds_statement {scope : Grammar.Scope} (hosts : watch.Hosts scope symbols)
    (same : draft.symbols = symbols) (fits : watch.Fits symbols (.emit op level value)) :
    (emit op level value).Heeds watch draft fun address w d => w = watch ∧ address = draft.code.size ∧
      d.symbols = symbols ∧ ∃ instruction : Instruction, instruction.operation = .named op ∧
        instruction.value = value ∧ d.code = draft.code.push instruction := by
  obtain ⟨entry, atStatement⟩ := hosts.inStatement
  refine (emit_heeds hosts.inForce same fits).imp ?_
  rintro address w d ⟨w_eq, isAddress, d_eq, instruction, made, code⟩
  obtain ⟨operation, atValue⟩ := Instruction.ofLevel_eq_ok made
  exact ⟨w_eq.trans (Watch.next_statement atStatement nofun), isAddress, d_eq, instruction, operation, atValue, code⟩

/-- An instruction that does not jump. -/
theorem emit_writes {scope : Grammar.Scope} (hosts : watch.Hosts scope symbols)
    (fits : watch.Fits symbols (.emit op level value))
    (plain : op ∉ [Opcode.enter, .ret, .retf, .jump, .jneq]) (calling : op = .call → symbols.Calls value) :
    (emit op level value).Writes watch symbols fun _ => True := by
  intro draft same
  refine (emit_heeds_statement hosts same fits).imp ?_
  rintro address w d ⟨w_eq, -, d_eq, instruction, operation, atValue, code⟩
  simp only [List.mem_cons, List.not_mem_nil, or_false, not_or] at plain
  obtain ⟨noEnter, noRet, noRetf, noJump, noJneq⟩ := plain
  refine ⟨⟨w_eq, d_eq, Draft.Extends.push (.of_code rfl) code (.inl ⟨rfl, ?_, ?_, ?_⟩)⟩, trivial⟩
  · simp [operation, noEnter, noRet, noRetf]
  · intro target leads
    have none : instruction.target? = none := by
      rw [Instruction.target?, operation]
      split <;> simp_all
    rw [none] at leads
    cases leads
  · intro isCall
    rw [atValue]
    exact calling (Operation.named.inj (operation.symm.trans isCall))

/-- An instruction that leads nowhere else. -/
theorem emit_plain {scope : Grammar.Scope} (hosts : watch.Hosts scope symbols)
    (fits : watch.Fits symbols (.emit op level value))
    (plain : op ∉ [Opcode.enter, .ret, .retf, .jump, .jneq, .call]) :
    (emit op level value).Writes watch symbols fun _ => True := by
  simp only [List.mem_cons, List.not_mem_nil, or_false, not_or] at plain
  exact emit_writes hosts fits (by simp [plain]) fun isCall => absurd isCall (by simp [plain])

/-- An instruction that concerns neither the code nor the frame of a block. -/
theorem emit_inPlace {scope : Grammar.Scope} (hosts : watch.Hosts scope symbols) (op : Opcode)
    (plain : op ∉ [Opcode.enter, .ret, .retf, .jump, .jneq, .call, .pushVar])
    (needless : op.operands = .none → value = 0) : (emit op 0 value).Writes watch symbols fun _ => True := by
  simp only [List.mem_cons, List.not_mem_nil, or_false, not_or] at plain
  exact emit_plain hosts (Watch.fits_inPlace (by simp [plain]) needless) (by simp [plain])

section Jumps

variable {scope : Grammar.Scope} (hosts : watch.Hosts scope symbols) {pending rest : List Nat} {w : Watch}
  {d : Draft} {position target : Nat}
include hosts

/-- A jump of which it is not known yet where it leads. -/
theorem emit_pending (written : draft.Written watch symbols pending w d) (jump : op = .jump ∨ op = .jneq) :
    (emit op).Heeds w d fun address w' d' =>
      draft.Written watch symbols (address :: pending) w' d' ∧ draft.code.size ≤ address := by
  obtain ⟨rfl, same, reached⟩ := written
  refine (emit_heeds_statement hosts same (Watch.fits_jump jump)).imp ?_
  rintro _ w' d' ⟨w_eq, rfl, d_eq, instruction, operation, -, code⟩
  have isJump : instruction.IsJump := by
    rw [Instruction.IsJump, operation]
    exact jump.imp (congrArg _) (congrArg _)
  exact ⟨⟨w_eq, d_eq, reached.push code (.inr ⟨rfl, isJump⟩)⟩, reached.size_le⟩

/-- A jump back to where something of the statement begins. -/
theorem emit_back (written : draft.Written watch symbols pending w d) (jump : op = .jump ∨ op = .jneq)
    (lower : draft.code.size ≤ target) (upper : target ≤ d.code.size) :
    (Functor.discard (emit op 0 target)).Heeds w d fun _ w' d' => draft.Written watch symbols pending w' d' := by
  obtain ⟨rfl, same, reached⟩ := written
  refine (emit_heeds_statement hosts same (Watch.fits_jump jump)).discard ?_
  rintro address w' d' ⟨w_eq, -, d_eq, instruction, operation, atValue, code⟩
  have isJump : instruction.IsJump := by
    rw [Instruction.IsJump, operation]
    exact jump.imp (congrArg _) (congrArg _)
  have size : d'.code.size = d.code.size + 1 := by rw [code, Array.size_push]
  exact ⟨w_eq, d_eq, reached.push code (.inl ⟨rfl, isJump.sits atValue lower (by omega)⟩)⟩

/-- A jump is made to lead to what comes next. -/
theorem patch_here (before : List Nat) (written : draft.Written watch symbols (before ++ position :: rest) w d)
    (above : draft.code.size ≤ position) :
    (here >>= patch position).Heeds w d fun _ w' d' => draft.Written watch symbols (before ++ rest) w' d' := by
  obtain ⟨rfl, same, reached⟩ := written
  refine (here_heeds hosts.inForce same).bind ?_
  rintro target _ _ ⟨rfl, rfl, rfl⟩
  refine (patch_heeds hosts.inForce same position _).imp ?_
  rintro _ w' d' ⟨w_eq, d_eq, code⟩
  exact ⟨w_eq, d_eq, reached.patch code above reached.size_le (Nat.le_refl _)⟩

end Jumps

end Requests

end Production

end PLZero
