import PLZero.Proofs.Recovery.Watch

namespace PLZero

namespace Symbol

variable (symbol : Symbol)

@[simp] theorem asDeclared_name : symbol.asDeclared.name = symbol.name := by
  unfold asDeclared
  split <;> rfl

@[simp] theorem asDeclared_level : symbol.asDeclared.level = symbol.level := by
  unfold asDeclared
  split <;> rfl

/-- What no two declarations in force share. -/
def key : String × Int :=
  (symbol.name, symbol.level)

@[simp] theorem asDeclared_key : symbol.asDeclared.key = symbol.key := by
  simp [key]

def IsRoutine : Prop :=
  symbol.kind = .procedure ∨ symbol.kind = .function

/-- What is filled in later does not tell declarations of subroutines apart. -/
theorem asDeclared_fill (routine : symbol.IsRoutine) (value arity : Int) :
    ({ symbol with value, arity } : Symbol).asDeclared = symbol.asDeclared := by
  rcases routine with routine | routine <;> simp [asDeclared, routine]

end Symbol

namespace OpenBlock

/-- The declarations of open blocks, those of outer blocks first. -/
def allDeclared : List OpenBlock → List Symbol
  | [] => []
  | block :: outer => allDeclared outer ++ block.declared

/-- The declarations of a block have the level of the block: the number of blocks around it. -/
def Leveled : List OpenBlock → Prop
  | [] => True
  | block :: outer => (∀ s ∈ block.declared, s.level = outer.length) ∧ Leveled outer

/-- The declaration of a name in the innermost block that declares it. -/
def lookup (name : String) : List OpenBlock → Option Symbol
  | [] => none
  | block :: outer => (block.declared.find? fun s => s.name = name).or (lookup name outer)

variable {blocks : List OpenBlock}

theorem Leveled.lt (leveled : Leveled blocks) : ∀ s ∈ allDeclared blocks, s.level < blocks.length := by
  induction blocks with
  | nil => exact nofun
  | cons block outer ih =>
    obtain ⟨own, others⟩ := leveled
    rw [allDeclared, List.forall_mem_append, List.length_cons]
    refine ⟨fun s mem => ?_, fun s mem => ?_⟩
    · have below := ih others s mem
      omega
    · have atLevel := own s mem
      omega

theorem Leveled.innermost (leveled : Leveled blocks) (name : String) :
    SymbolTable.innermost ((allDeclared blocks).filter fun s => s.name = name) = lookup name blocks := by
  induction blocks with
  | nil => rfl
  | cons block outer ih =>
    have below := leveled.2.lt
    rw [allDeclared, List.filter_append,
      SymbolTable.innermost_append (fun s mem => below s (List.mem_of_mem_filter mem))
        fun s mem => leveled.1 s (List.mem_of_mem_filter mem),
      List.head?_filter, ih leveled.2, lookup]

end OpenBlock

theorem SymbolTable.innermost_map {change : Symbol → Symbol} (same : ∀ s, (change s).level = s.level)
    (entries : List Symbol) : innermost (entries.map change) = (innermost entries).map change := by
  induction entries with
  | nil => rfl
  | cons first rest ih =>
    simp only [List.map_cons, innermost, ih]
    cases innermost rest with
    | none => rfl
    | some deeper =>
      simp only [Option.map_some, same]
      split <;> rfl

namespace Watch

/-- The parameters of a block that is not open yet. -/
def pending (watch : Watch) : List Symbol :=
  match watch.stage with
  | .heading header => header.parameters
  | _ => []

/-- All declarations in force, in the order in which they were made. -/
def declarations (watch : Watch) : List Symbol :=
  OpenBlock.allDeclared watch.blocks ++ watch.pending

/-- A table is made up of the declarations in force, as they are now. -/
structure Holds (watch : Watch) (symbols : SymbolTable) (entries : List Symbol) : Prop where
  table_eq : symbols = .ofList entries
  entries_eq : entries.map (·.asDeclared) = watch.declarations.map (·.asDeclared)
  distinct : (entries.map (·.key)).Nodup
  leveled : OpenBlock.Leveled watch.blocks
  pending : ∀ s ∈ watch.pending, s.level = watch.blocks.length

def Scoped (watch : Watch) (symbols : SymbolTable) : Prop :=
  ∃ entries, watch.Holds symbols entries

namespace Holds

variable {watch : Watch} {symbols : SymbolTable} {entries : List Symbol}

theorem keys_eq (holds : watch.Holds symbols entries) : entries.map (·.key) = watch.declarations.map (·.key) := by
  have same := congrArg (List.map (·.key)) holds.entries_eq
  simpa [Function.comp_def] using same

theorem perm (holds : watch.Holds symbols entries) :
    (symbols.toList.map (·.asDeclared)).Perm (watch.declarations.map (·.asDeclared)) := by
  rw [← holds.entries_eq, holds.table_eq]
  exact (SymbolTable.toList_ofList entries).map _

theorem nodup (holds : watch.Holds symbols entries) : (symbols.toList.map (·.key)).Nodup := by
  rw [holds.table_eq]
  exact (((SymbolTable.toList_ofList entries).map _).nodup_iff).mpr holds.distinct

/-- Only parameters of a block that is not open yet are at the level behind that of the innermost open one. -/
theorem level_cases (holds : watch.Holds symbols entries) {e : Symbol} (mem : e ∈ entries) :
    e.level < watch.blocks.length ∨ e.level = watch.blocks.length ∧ ∃ s ∈ watch.pending, s.key = e.key := by
  have keyed : e.key ∈ watch.declarations.map (·.key) := holds.keys_eq ▸ List.mem_map_of_mem mem
  obtain ⟨s, inForce, same⟩ := List.mem_map.mp keyed
  have level_eq : s.level = e.level := congrArg Prod.snd same
  rcases List.mem_append.mp inForce with declared | parameter
  · exact .inl (level_eq ▸ holds.leveled.lt s declared)
  · exact .inr ⟨level_eq ▸ holds.pending s parameter, s, parameter, same⟩

theorem resolve (holds : watch.Holds symbols entries) (none : watch.pending = []) (name : String) :
    (symbols.resolve name).map (·.asDeclared) =
      (OpenBlock.lookup name watch.blocks).map (·.asDeclared) := by
  have named : ∀ l : List Symbol, (l.filter fun s => s.name = name).map (·.asDeclared) =
      (l.map (·.asDeclared)).filter fun s => s.name = name := by
    intro l
    simp [List.filter_map, Function.comp_def]
  rw [SymbolTable.resolve, holds.table_eq, SymbolTable.entries_ofList,
    ← SymbolTable.innermost_map Symbol.asDeclared_level, named, holds.entries_eq, ← named,
    SymbolTable.innermost_map Symbol.asDeclared_level, declarations, none, List.append_nil, holds.leveled.innermost]

end Holds

end Watch

/-- The table behind the declaration of a subroutine: the one in front of it, and the declaration of its name with the
entry and the number of parameters filled in. -/
def Header.restored (header : Header) (entry : Nat) : SymbolTable :=
  match header.own with
  | none => header.before
  | some symbol => header.before.declare { symbol with value := entry, arity := header.parameters.length }

namespace Watch

variable (watch : Watch) (symbols : SymbolTable)

/-- At the end of a block its declarations leave the table, which is as it was in front of the heading but for the
subroutine itself. -/
structure Closes (level : Int) (entry : Nat) (block : OpenBlock) (outer : List OpenBlock) : Prop where
  stage_eq : watch.stage = .statement entry
  blocks_eq : watch.blocks = block :: outer
  level_eq : level = outer.length
  restores : (symbols.purge level).2 = block.header.restored entry

/-- What is declared belongs to the innermost block, or it is a parameter, and belongs to the block that follows the
heading. -/
def Places (symbol : Symbol) : Prop :=
  match watch.stage with
  | .declarations => symbol.level + 1 = watch.blocks.length
  | .heading _ => symbol.level = if symbol.kind = .var then (watch.blocks.length : Int) else watch.blocks.length - 1
  | .statement _ => False

/-- How far up the blocks an instruction reaches, and for what. Only variables, calls and the results of functions lie
in other blocks, and a result is stored only within the function. -/
inductive Reaches : Opcode → Int → Int → Prop where
  | inPlace {op : Opcode} {value : Int} (plain : op ≠ .pushVar ∧ op ≠ .call)
      (needless : op.operands = .none → value = 0) : Reaches op 0 value
  | variable {name : String} {symbol : Symbol} (found : symbols.resolve name = some symbol)
      (kind : symbol.kind = .var) : Reaches .pushVar (watch.level - symbol.level) symbol.value
  | routine {name : String} {symbol : Symbol} (found : symbols.resolve name = some symbol)
      (kind : symbol.IsRoutine) : Reaches .call (watch.level - symbol.level) symbol.value
  | result {name : String} {symbol : Symbol} {block : OpenBlock} (found : symbols.resolve name = some symbol)
      (kind : symbol.kind = .function) (within : block ∈ watch.blocks)
      (owner : block.header.own.map (·.key) = some symbol.key) :
      Reaches .pushVar (watch.level - (symbol.level + 1)) resultSlot

/-- When a request can be made. -/
def Fits : Request → Prop
  | .emit op level value => 0 ≤ level ∧ watch.Reaches symbols op level value
  | .resolve _ => (∃ entry, watch.stage = .statement entry) ∧ watch.blocks ≠ []
  | .declare symbol => watch.Places symbol
  | .purge level => ∃ entry block outer, watch.Closes symbols level entry block outer
  | _ => True

variable {watch symbols} in
theorem fits_inPlace {op : Opcode} {value : Int} (plain : op ≠ .pushVar ∧ op ≠ .call)
    (needless : op.operands = .none → value = 0) : watch.Fits symbols (.emit op 0 value) :=
  ⟨Int.le_refl 0, .inPlace plain needless⟩

variable {watch symbols} in
theorem fits_jump {op : Opcode} {value : Int} (jump : op = .jump ∨ op = .jneq) :
    watch.Fits symbols (.emit op 0 value) := by
  rcases jump with rfl | rfl <;> exact fits_inPlace (by simp) nofun

variable {watch symbols} in
theorem fits_enter {value : Int} : watch.Fits symbols (.emit .enter 0 value) :=
  fits_inPlace ⟨nofun, nofun⟩ nofun

/-- The declarations in force make up the table whenever a request is made. -/
structure Allows (request : Request) : Prop where
  inForce : watch.Scoped symbols
  fits : watch.Fits symbols request

end Watch

end PLZero
