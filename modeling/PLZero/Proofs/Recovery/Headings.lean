import PLZero.Proofs.Recovery.Settings
import PLZero.Proofs.Translation.Blocks

namespace PLZero

open Production

namespace Watch.Holds

variable {watch : Watch} {symbols : SymbolTable} {entries : List Symbol}

/-- What is declared at the level of a block that is not open yet are its parameters. -/
theorem isDeclared_pending (holds : watch.Holds symbols entries) {name : String} {level : Int}
    (atLevel : level = watch.blocks.length) (other : ∀ s ∈ watch.pending, s.name ≠ name) :
    symbols.isDeclared name level = false := by
  rw [Bool.eq_false_iff, holds.table_eq]
  intro taken
  obtain ⟨e, mem, named, sameLevel⟩ := SymbolTable.isDeclared_ofList.mp taken
  rcases holds.level_cases mem with below | ⟨-, s, isPending, same⟩
  · omega
  · exact other s isPending ((congrArg Prod.fst same).trans named)

end Watch.Holds

namespace Setting

/-- The setting of a subroutine that is declared in a block. -/
def nested (setting : Setting) (own : List Symbol) (inner : List Instruction) (spans : List Span)
    (declared : List Symbol) (symbol : Option Symbol) (parameters : List Symbol) : Setting where
  front := setting.around setting.start ++ own
  header := ⟨.ofList (setting.around setting.start ++ own), symbol, parameters⟩
  outer := ⟨setting.header, setting.start, declared⟩ :: setting.outer
  finished := setting.finished ++ spans
  code := setting.code ++ .of .jump :: inner

variable {setting : Setting} {own entries parameters declared : List Symbol} {inner : List Instruction}
  {spans : List Span} {w : Watch} {d : Draft}

/-- What encloses a block encloses the subroutines in it. -/
theorem Encloses.nested {key : String × Nat} (encloses : setting.Encloses key) {symbol : Option Symbol} :
    (setting.nested own inner spans declared symbol parameters).Encloses key := by
  obtain ⟨below, header, mem, owned⟩ := encloses
  exact ⟨Nat.lt_succ_of_lt below, header, List.mem_cons_of_mem _ mem, owned⟩

/-- A subroutine encloses its own block. -/
theorem encloses_own {key : String × Nat} {kind : SymbolKind} {count : Nat} {symbol : Option Symbol}
    (symbol_eq : symbol = Grammar.Owner.symbol? ⟨kind, some key, count⟩) (level : setting.outer.length = key.2) :
    (setting.nested own inner spans declared symbol parameters).Encloses key := by
  refine ⟨Nat.lt_succ_of_le (Nat.le_of_eq level.symm), _, List.mem_cons_self, ?_⟩
  rw [nested, symbol_eq]
  rfl

namespace Heading

theorem inForce (heading : setting.Heading entries w d) : w.Scoped d.symbols :=
  ⟨_, heading.holds⟩

theorem heeds {α : Type} {rule : Production α} {yields : α → Prop} (heading : setting.Heading entries w d)
    (silent : rule.Silent w d.symbols yields) :
    rule.Heeds w d fun a w d => setting.Heading entries w d ∧ yields a := by
  obtain ⟨watch_eq, holds, plain, code_eq⟩ := heading
  refine (silent d rfl).imp ?_
  rintro a w' d' ⟨rfl, code, symbols, yielded⟩
  exact ⟨⟨watch_eq, symbols.symm ▸ holds, plain, code.symm ▸ code_eq⟩, yielded⟩

theorem places_iff (heading : setting.Heading entries w d) {symbol : Symbol} : w.Places symbol ↔
    symbol.level = if symbol.kind = .var then (setting.outer.length : Int) else setting.outer.length - 1 := by
  rw [heading.watch_eq]
  rfl

end Heading

/-- The keyword begins a heading. -/
theorem Declaring.advance (declaring : setting.Declaring own inner spans w d)
    (begins : Watch.beginsSubroutine d.current.token) :
    advance.Heeds w d fun _ w d => ∃ declared, (setting.nested own inner spans declared none []).Heading [] w d := by
  obtain ⟨⟨declared, rfl⟩, holds, length_eq, code_eq, entered, regions⟩ := declaring
  refine .of_request ⟨⟨_, holds⟩, trivial⟩ fun answer after ran => ⟨declared, ?_⟩
  obtain ⟨code, symbols⟩ := Draft.advanceTo_output ran
  refine ⟨?_, ?_, by simp [nested], code.symm ▸ code_eq⟩
  · simp only [Watch.next, if_pos begins, nested, holds.table_eq]
  · rw [symbols]
    simp only [Watch.next, if_pos begins, nested, List.append_nil]
    exact holds.restage rfl rfl

end Setting

namespace Grammar

variable {setting : Setting} {own parameters : List Symbol} {inner : List Instruction} {spans : List Span}
  {declared : List Symbol} {scope : Scope} {kind : SymbolKind} {w : Watch} {d : Draft}

theorem declarations_declares {α : Type} {keyword : FixedKind} {item : α → Production α}
    (other : keyword ≠ .procedureKw ∧ keyword ≠ .functionKw)
    (items : ∀ a w d, setting.Declares w d → (item a).Heeds w d fun _ => setting.Declares) (a : α)
    (declares : setting.Declares w d) : (declarations keyword item a).Heeds w d fun _ => setting.Declares := by
  refine (declares.heeds (accept_silent declares.inForce other)).bind fun found w d ⟨declares, _⟩ => ?_
  cases found with
  | false => exact .of_pure declares
  | true =>
    refine (declares.heeds (bound_silent declares.inForce)).bind fun rounds w d ⟨declares, _⟩ => ?_
    refine (commaSeparated_heeds items (fun _ _ _ => comma_declares) rounds a w d declares).bind
      fun a w d declares => ?_
    exact (require_declares (by decide) declares).bind fun _ w d declares => .of_pure declares

/-- The declaration of a subroutine by its name, if it has one that is not taken. -/
def declaredName (scope : Scope) (kind : SymbolKind) : Option String → Production Bool
  | some name => declareNew { name, kind, level := scope.level }
  | none => pure false

theorem declaredName_heeds (level : setting.outer.length = scope.level) (routine : kind = .procedure ∨ kind = .function)
    (heading : (setting.nested own inner spans declared none []).Heading [] w d) (name : Option String) :
    (declaredName scope kind name).Heeds w d fun isNew w d => ∃ declared symbol,
      (∀ count, symbol =
        Owner.symbol? ⟨kind, if isNew then name.map fun name => (name, scope.level) else none, count⟩) ∧
        (setting.nested own inner spans declared symbol []).Heading symbol.toList w d := by
  cases name with
  | none => exact .of_pure ⟨declared, none, fun _ => rfl, heading⟩
  | some name =>
    have notVar : kind ≠ .var := by
      rintro rfl
      simp at routine
    have places : w.Places { name, kind, level := scope.level } :=
      heading.places_iff.mpr (by simp [Setting.nested, notVar, level])
    obtain ⟨rfl, holds, -, code_eq⟩ := heading
    refine (declareNew_heeds ⟨_, holds⟩ places).imp ?_
    rintro isNew w' d' ⟨code, isNew_eq, changes⟩
    cases isNew with
    | false =>
      obtain ⟨rfl, symbols⟩ := changes
      exact ⟨declared, none, fun _ => rfl, rfl, symbols.symm ▸ holds, by simp [Setting.nested], code.symm ▸ code_eq⟩
    | true =>
      obtain ⟨rfl, symbols⟩ := changes
      have fresh : d.symbols.isDeclared name scope.level = false := by simpa using isNew_eq.symm
      refine ⟨declared ++ [{ name, kind, level := scope.level }], some { name, kind, level := scope.level },
        fun _ => rfl, ?_, ?_, by simp [Setting.nested], code.symm ▸ code_eq⟩
      · simp [Watch.declare, Setting.nested, notVar]
      · rw [symbols]
        simp only [Watch.declare, Setting.nested, List.append_nil] at holds ⊢
        rw [if_neg notVar]
        exact holds.declare_own (by simp [level]) fresh

section Parameters

variable {watch : Watch} {symbols : SymbolTable} (inForce : watch.Scoped symbols)
include inForce

theorem parameter_silent {names : List String} (distinct : names.Nodup) :
    (parameter names).Silent watch symbols List.Nodup := by
  refine (expectIdentifier_silent inForce).bind fun found _ => ?_
  cases found with
  | none => exact .of_pure distinct
  | some name =>
    dsimp only
    split
    · exact (report_silent inForce _).bind fun _ _ => .of_pure distinct
    · next isNew =>
      refine .of_pure (List.nodup_append.mpr ⟨distinct, List.nodup_singleton _, fun other mem last isLast same => ?_⟩)
      exact isNew (List.mem_singleton.mp isLast ▸ same ▸ mem)

/-- The names of parameters are different, also if the list of them is not in order. -/
theorem parameterNames_silent : parameterNames.Silent watch symbols List.Nodup := by
  refine (check_silent inForce _).bind fun seen _ => ?_
  split
  · exact (bound_silent inForce).bind fun rounds _ =>
      commaSeparated_silent inForce (fun _ distinct => parameter_silent inForce distinct) rounds [] .nil
  · exact .of_pure .nil

/-- Whether there may be blocks within the scope. -/
def checkLevel (scope : Scope) : Rule :=
  if maxLevel < scope.level + 1 then report .tooManyLevels else pure ()

theorem checkLevel_silent (scope : Scope) : (checkLevel scope).Silent watch symbols fun _ => True := by
  rw [checkLevel]
  split
  · exact report_silent inForce _
  · exact .of_pure trivial

end Parameters

theorem subroutine_eq (block : Scope → Owner → Rule) (scope : Scope) (kind : SymbolKind) :
    subroutine block scope kind = (do
      advance
      let name ← expectIdentifier
      let isNew ← declaredName scope kind name
      let key := if isNew then name.map fun name => (name, scope.level) else none
      checkLevel scope
      require .lparen
      let parameters ← parameterNames
      require .rparen
      declareParameters (scope.level + 1) parameters.length 0 parameters
      key.forM fun (name, level) => setArity name level parameters.length
      block ⟨scope.level + 1, key.toList ++ scope.owners⟩ ⟨kind, key, parameters.length⟩
      require .semicolon) := by
  rw [subroutine]
  refine bind_congr fun _ => bind_congr fun name => ?_
  cases name with
  | none =>
    simp only [declaredName, pure_bind, checkLevel, parameterNames_bind]
    split <;> rfl
  | some name =>
    refine bind_congr fun isNew => ?_
    simp only [pure_bind, checkLevel, parameterNames_bind]
    split <;> rfl

section Declared

variable {symbol : Option Symbol}

theorem declareNew_parameter (parameter : Symbol)
    (heading : (setting.nested own inner spans declared symbol parameters).Heading symbol.toList w d)
    (isVar : parameter.kind = .var) (level : parameter.level = setting.outer.length + 1)
    (others : ∀ s ∈ parameters, s.name ≠ parameter.name) :
    (declareNew parameter).Heeds w d fun _ w d =>
      (setting.nested own inner spans declared symbol (parameters ++ [parameter])).Heading symbol.toList w d := by
  have places : w.Places parameter := heading.places_iff.mpr (by simp [Setting.nested, isVar, level])
  obtain ⟨rfl, holds, plain, code_eq⟩ := heading
  have fresh : d.symbols.isDeclared parameter.name parameter.level = false :=
    holds.isDeclared_pending (by simp [Setting.nested, level]) others
  refine (declareNew_heeds ⟨_, holds⟩ places).imp ?_
  rintro isNew w' d' ⟨code, isNew_eq, changes⟩
  obtain rfl : isNew = true := by simpa [fresh] using isNew_eq
  obtain ⟨rfl, symbols⟩ := changes
  refine ⟨by simp [Watch.declare, Setting.nested, isVar], ?_, ?_, code.symm ▸ code_eq⟩
  · rw [symbols]
    simp only [Watch.declare, Setting.nested, isVar, if_true, ← List.append_assoc] at holds ⊢
    exact holds.declare_parameter (by simp [level]) fresh
  · exact List.forall_mem_append.mpr ⟨plain, List.forall_mem_singleton.mpr isVar⟩

/-- Different parameters are all declared. -/
theorem declareParameters_heeds (level : setting.outer.length = scope.level) (count index : Nat) {names : List String}
    (distinct : names.Nodup) (others : ∀ s ∈ parameters, s.name ∉ names)
    (heading : (setting.nested own inner spans declared symbol parameters).Heading symbol.toList w d) :
    (declareParameters (scope.level + 1) count index names).Heeds w d fun _ w d =>
      ∃ all, all.length = parameters.length + names.length ∧
        (setting.nested own inner spans declared symbol all).Heading symbol.toList w d := by
  induction names generalizing index parameters w d with
  | nil => exact .of_pure ⟨parameters, rfl, heading⟩
  | cons name names ih =>
    obtain ⟨isNew, distinct⟩ := List.nodup_cons.mp distinct
    have apart : ∀ s ∈ parameters, s.name ≠ name := fun s mem same => others s mem (same ▸ List.mem_cons_self)
    refine (declareNew_parameter _ heading rfl (by simp [level]) apart).forget.bind fun _ w d heading => ?_
    refine (ih (index + 1) distinct ?_ heading).imp ?_
    · refine List.forall_mem_append.mpr ⟨fun s mem inNames => ?_, List.forall_mem_singleton.mpr isNew⟩
      exact others s mem (List.mem_cons_of_mem _ inNames)
    · rintro _ w d ⟨all, length, heading⟩
      refine ⟨all, ?_, heading⟩
      rw [length, List.length_append, List.length_cons, List.length_nil, List.length_cons]
      omega

/-- The number of parameters is filled in. -/
theorem setArity_heeds {key : Option (String × Nat)} {count : Nat} (routine : kind = .procedure ∨ kind = .function)
    (symbol_eq : symbol = Owner.symbol? ⟨kind, key, count⟩) (length : parameters.length = count)
    (heading : (setting.nested own inner spans declared symbol parameters).Heading symbol.toList w d) :
    (key.forM fun (name, level) => setArity name level count).Heeds w d fun _ w d =>
      (setting.nested own inner spans declared symbol parameters).Heading
        ((setting.nested own inner spans declared symbol parameters).header.filled 0) w d := by
  subst symbol_eq
  cases key with
  | none => exact .of_pure heading
  | some key =>
    obtain ⟨name, level⟩ := key
    obtain ⟨watch_eq, holds, plain, code_eq⟩ := heading
    have arranged : w.Holds d.symbols
        ((setting.around setting.start ++ own) ++ { name, kind, level } :: parameters) := by
      simpa [Setting.nested, Owner.symbol?] using holds
    have changed : w.Holds (d.symbols.modify name level fun symbol => { symbol with arity := count })
        ((setting.around setting.start ++ own) ++ { name, kind, level, arity := count } :: parameters) :=
      arranged.modify routine 0 count rfl
    refine .of_request ⟨⟨_, holds⟩, trivial⟩ fun answer after ran => ?_
    cases ran
    refine ⟨watch_eq, ?_, plain, code_eq⟩
    show w.Holds _ _
    simpa [Setting.nested, Owner.symbol?, Header.filled, length] using changed

end Declared

/-- The address of the block is filled in for its owner. -/
theorem Owner.setEntry_heeds {owner : Owner} {back : List Symbol} {before : Nat} (suits : setting.Suits scope owner)
    (holds : w.Holds d.symbols (setting.around before ++ back)) (address : Nat) :
    (owner.setEntry address).Heeds w d fun _ w' d' =>
      w' = w ∧ d'.code = d.code ∧ w.Holds d'.symbols (setting.around address ++ back) := by
  obtain ⟨kind, key, count⟩ := owner
  have own_eq := suits.own_eq
  rw [Owner.symbol?] at own_eq
  cases key with
  | none =>
    have none : ∀ a, setting.around a = setting.front := by simp [Setting.around, Header.filled, own_eq]
    rw [none] at holds ⊢
    exact .of_pure ⟨rfl, rfl, holds⟩
  | some key =>
    obtain ⟨name, level⟩ := key
    have around : ∀ a, setting.around a ++ back = setting.front ++
        { name, kind, level, value := (a : Nat), arity := setting.header.parameters.length } :: back := by
      simp [Setting.around, Header.filled, own_eq]
    rw [around] at holds ⊢
    refine .of_request ⟨⟨_, holds⟩, trivial⟩ fun answer after ran => ?_
    cases ran
    exact ⟨rfl, rfl, holds.modify suits.routine address _ rfl⟩

end Grammar

end PLZero
