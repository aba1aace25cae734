import PLZero.Proofs.Recovery.Declarations

namespace PLZero

open Production

/-- The entry of a subroutine, with its number of parameters and the address at which it is called. -/
def Header.filled (header : Header) (address : Nat) : List Symbol :=
  header.own.toList.map fun symbol => { symbol with value := address, arity := header.parameters.length }

theorem Header.restored_eq {header : Header} {front : List Symbol} (before : header.before = .ofList front)
    (entry : Nat) : header.restored entry = .ofList (front ++ header.filled entry) := by
  rw [restored, filled]
  cases header.own with
  | none => simp [before]
  | some symbol => simp [before, SymbolTable.ofList_concat]

/-- What a block is compiled in: the entries of the table in front of its heading, the heading, the blocks around it,
the spans of those that have been finished, and the code in front. -/
structure Setting where
  front : List Symbol
  header : Header
  outer : List OpenBlock
  finished : List Span
  code : List Instruction

namespace Setting

section Entries

variable (setting : Setting)

def start : Nat :=
  setting.code.length

/-- The entries that are not declared in the block, its owner among them. -/
def around (address : Nat) : List Symbol :=
  setting.front ++ setting.header.filled address

theorem length_around (address other : Nat) : (setting.around address).length = (setting.around other).length := by
  simp [around, Header.filled]

/-- Subroutines around the block are called at given addresses. -/
def Covers (calls : Int → Prop) (address : Nat) : Prop :=
  ∀ e ∈ setting.around address, e.IsRoutine → calls e.value

/-- A subroutine of which a block is being compiled: this one, or one around it. -/
def Encloses (key : String × Nat) : Prop :=
  key.2 < setting.outer.length ∧ ∃ header ∈ setting.header :: setting.outer.map (·.header),
    header.own.map (·.key) = some (key.1, (key.2 : Int))

/-- Scope and owner of the block tell what its setting is. -/
structure Suits (scope : Grammar.Scope) (owner : Grammar.Owner) : Prop where
  before_eq : setting.header.before = .ofList setting.front
  own_eq : setting.header.own = owner.symbol?
  routine : owner.kind = .procedure ∨ owner.kind = .function
  level_eq : setting.outer.length = scope.level
  owners : ∀ o ∈ scope.owners, setting.Encloses o

/-- The heading is being compiled. So far it has led to entries. -/
structure Heading (entries : List Symbol) (w : Watch) (d : Draft) : Prop where
  watch_eq : w = ⟨.heading setting.header, setting.outer, setting.finished⟩
  holds : w.Holds d.symbols (setting.front ++ entries ++ setting.header.parameters)
  parameters : ∀ s ∈ setting.header.parameters, s.kind = .var
  code_eq : d.code.toList = setting.code

/-- The block is open. It has entries of its own, and code of the blocks within it stands behind its jump. -/
structure Declaring (own : List Symbol) (inner : List Instruction) (spans : List Span) (w : Watch) (d : Draft) :
    Prop where
  watch_eq : ∃ declared,
    w = ⟨.declarations, ⟨setting.header, setting.start, declared⟩ :: setting.outer, setting.finished ++ spans⟩
  holds : w.Holds d.symbols (setting.around setting.start ++ own)
  length_eq : (setting.around setting.start).length = (OpenBlock.allDeclared setting.outer).length
  code_eq : d.code.toList = setting.code ++ .of .jump :: inner
  entered : ∀ e ∈ own, e.IsRoutine → ∃ span ∈ spans, e.value = span.entry
  -- for any choice of addresses: which ones can be called is known only when the whole program has been compiled
  regions : ∀ calls, setting.Covers calls setting.start → (∀ address, Callable spans address → calls address) →
    Regions calls (setting.start + 1) inner spans

def Declares (w : Watch) (d : Draft) : Prop :=
  ∃ own inner spans, setting.Declaring own inner spans w d

/-- The entry of the block stands behind the code of the blocks within, and the statement of the block comes next. -/
structure Entered (own : List Symbol) (inner : List Instruction) (spans : List Span) (room : Int) (w : Watch)
    (d : Draft) : Prop where
  watch_eq : ∃ declared, w = ⟨.statement (setting.start + 1 + inner.length),
    ⟨setting.header, setting.start, declared⟩ :: setting.outer, setting.finished ++ spans⟩
  holds : w.Holds d.symbols (setting.around (setting.start + 1 + inner.length) ++ own)
  code_eq : d.code.toList = setting.code ++
    (.of .jump 0 (setting.start + 1 + inner.length : Nat) :: (inner ++ [.of .enter 0 room]))

/-- The block has been compiled. Only its code has come behind, and nothing of its declarations is left. -/
structure Closed (region : Region) (within : List Span) (w : Watch) (d : Draft) : Prop where
  watch_eq : w = ⟨.declarations, setting.outer, setting.finished ++ (within ++ [region.span])⟩
  holds : w.Holds d.symbols (setting.around region.entry)
  start_eq : region.start = setting.start
  code_eq : d.code.toList = setting.code ++ region.code
  regions : ∀ calls, setting.Covers calls setting.start → setting.Covers calls region.entry →
    (∀ address, Callable within address → calls address) →
      region.Framed calls ∧ Regions calls (setting.start + 1) region.inner within

end Entries

variable {setting : Setting} {own : List Symbol} {inner : List Instruction} {spans : List Span} {w w' : Watch}
  {d d' : Draft}

theorem Declaring.congr (declaring : setting.Declaring own inner spans w d) (same : w' = w) (code : d'.code = d.code)
    (symbols : d'.symbols = d.symbols) : setting.Declaring own inner spans w' d' := by
  obtain ⟨watch_eq, holds, length_eq, code_eq, entered, regions⟩ := declaring
  rw [← symbols] at holds
  rw [← code] at code_eq
  exact same ▸ ⟨watch_eq, holds, length_eq, code_eq, entered, regions⟩

theorem Entered.size_eq {room : Int} (entered : setting.Entered own inner spans room w d) :
    d.code.size = setting.start + 1 + inner.length + 1 := by
  rw [← Array.length_toList, entered.code_eq, start]
  simp only [List.length_append, List.length_cons, List.length_nil]
  omega

/-- A declaration that is not of a subroutine. -/
theorem Declaring.declare (declaring : setting.Declaring own inner spans w d) {symbol : Symbol}
    (level : symbol.level = setting.outer.length) (plain : ¬ symbol.IsRoutine)
    (fresh : d.symbols.isDeclared symbol.name symbol.level = false) (same : w' = w.declare symbol)
    (code : d'.code = d.code) (symbols : d'.symbols = d.symbols.declare symbol) :
    setting.Declaring (own ++ [symbol]) inner spans w' d' := by
  obtain ⟨⟨declared, rfl⟩, holds, length_eq, code_eq, entered, regions⟩ := declaring
  refine ⟨⟨_, same⟩, ?_, length_eq, code.symm ▸ code_eq, ?_, regions⟩
  · rw [symbols, same, ← List.append_assoc]
    exact holds.declare_inner level fresh
  · refine List.forall_mem_append.mpr ⟨entered, List.forall_mem_singleton.mpr fun routine => ?_⟩
    exact absurd routine plain

namespace Declares

theorem inForce (declares : setting.Declares w d) : w.Scoped d.symbols := by
  obtain ⟨own, inner, spans, declaring⟩ := declares
  exact ⟨_, declaring.holds⟩

theorem heeds {α : Type} {rule : Production α} {yields : α → Prop} (declares : setting.Declares w d)
    (silent : rule.Silent w d.symbols yields) : rule.Heeds w d fun a w d => setting.Declares w d ∧ yields a := by
  obtain ⟨own, inner, spans, declaring⟩ := declares
  refine (silent d rfl).imp ?_
  rintro a w' d' ⟨same, code, symbols, yielded⟩
  exact ⟨⟨own, inner, spans, declaring.congr same code symbols⟩, yielded⟩

theorem declareNew (declares : setting.Declares w d) {symbol : Symbol} (level : symbol.level = setting.outer.length)
    (plain : ¬ symbol.IsRoutine) : (Grammar.declareNew symbol).Heeds w d fun _ => setting.Declares := by
  obtain ⟨own, inner, spans, declaring⟩ := declares
  have places : w.Places symbol := by
    obtain ⟨declared, rfl⟩ := declaring.watch_eq
    simp [Watch.Places, level]
  refine (Grammar.declareNew_heeds ⟨_, declaring.holds⟩ places).imp ?_
  rintro b w' d' ⟨code, isNew, changes⟩
  cases b with
  | false => exact ⟨own, inner, spans, declaring.congr changes.1 code changes.2⟩
  | true =>
    have fresh : d.symbols.isDeclared symbol.name symbol.level = false := by simpa using isNew.symm
    exact ⟨_, inner, spans, declaring.declare level plain fresh changes.1 code changes.2⟩

end Declares

end Setting

namespace Grammar

variable {setting : Setting} {scope : Scope} {w : Watch} {d : Draft} (level : setting.outer.length = scope.level)

theorem comma_declares (declares : setting.Declares w d) : (accept .comma).Heeds w d fun _ => setting.Declares :=
  (declares.heeds (accept_silent declares.inForce (by decide))).imp fun _ _ _ ⟨declares, _⟩ => declares

theorem require_declares {kind : FixedKind} (other : kind ≠ .procedureKw ∧ kind ≠ .functionKw)
    (declares : setting.Declares w d) : (require kind).Heeds w d fun _ => setting.Declares :=
  (declares.heeds (require_silent declares.inForce other)).imp fun _ _ _ ⟨declares, _⟩ => declares

include level

theorem constantDeclaration_declares (declares : setting.Declares w d) :
    (constantDeclaration scope).Heeds w d fun _ => setting.Declares := by
  refine (declares.heeds (expectIdentifier_silent declares.inForce)).bind fun found w d ⟨declares, _⟩ => ?_
  cases found with
  | none => exact .of_pure declares
  | some name =>
    refine (require_declares (by decide) declares).bind fun _ w d declares => ?_
    refine (declares.heeds (expectInteger_silent declares.inForce)).bind fun found w d ⟨declares, _⟩ => ?_
    cases found with
    | none => exact .of_pure declares
    | some value =>
      refine (declares.heeds (literal_silent declares.inForce value)).bind fun value w d ⟨declares, _⟩ => ?_
      exact (declares.declareNew (by simp [level]) (by simp [Symbol.IsRoutine])).forget

theorem variableDeclaration_declares (declares : setting.Declares w d) (offset : Nat) :
    (variableDeclaration scope offset).Heeds w d fun _ => setting.Declares := by
  refine (declares.heeds (expectIdentifier_silent declares.inForce)).bind fun found w d ⟨declares, _⟩ => ?_
  cases found with
  | none => exact .of_pure declares
  | some name =>
    refine (declares.declareNew (by simp [level]) (by simp [Symbol.IsRoutine])).bind fun isNew w d declares => ?_
    cases isNew with
    | false => exact .of_pure declares
    | true =>
      rw [if_pos rfl]
      split
      · refine (declares.heeds (addGlobal_silent declares.inForce name offset)).bind fun _ w d ⟨declares, _⟩ => ?_
        exact .of_pure declares
      · exact .of_pure declares

end Grammar

end PLZero
