import PLZero.Grammar.Block
import PLZero.Proofs.Recovery.Regions

namespace PLZero

namespace Watch.Holds

variable {watch changed : Watch} {symbols : SymbolTable} {entries front back : List Symbol} {symbol own : Symbol}

/-- The entries and the declarations that they stem from are as many. -/
theorem length_eq (holds : watch.Holds symbols entries) : entries.length = watch.declarations.length := by
  have same := congrArg List.length holds.entries_eq
  simpa using same

/-- Levels of entries are levels of declarations. -/
theorem level_lt (holds : watch.Holds symbols entries) (none : watch.pending = []) :
    ∀ e ∈ entries, e.level < watch.blocks.length := by
  intro e mem
  rcases holds.level_cases mem with below | ⟨-, s, isPending, -⟩
  · exact below
  · rw [none] at isPending
    cases isPending

theorem resolve_mem (holds : watch.Holds symbols entries) {name : String} (found : symbols.resolve name = some symbol) :
    symbol ∈ entries :=
  (SymbolTable.resolve_ofList (holds.table_eq ▸ found)).1

/-- One more declaration of a name that is not taken. -/
theorem concat (holds : watch.Holds symbols entries) (fresh : symbols.isDeclared symbol.name symbol.level = false)
    (declares : changed.declarations = watch.declarations ++ [symbol]) (leveled : OpenBlock.Leveled changed.blocks)
    (pending : ∀ s ∈ changed.pending, s.level = changed.blocks.length) :
    changed.Holds (symbols.declare symbol) (entries ++ [symbol]) where
  table_eq := by rw [holds.table_eq, SymbolTable.ofList_concat]
  entries_eq := by rw [declares, List.map_append, List.map_append, holds.entries_eq]
  distinct := by
    rw [List.map_append, List.nodup_append]
    refine ⟨holds.distinct, List.nodup_singleton _, fun key mem other isSymbol same => ?_⟩
    obtain ⟨e, inEntries, rfl⟩ := List.mem_map.mp mem
    have equal : e.key = symbol.key := same.trans (List.mem_singleton.mp isSymbol)
    have taken : symbols.isDeclared symbol.name symbol.level := by
      rw [holds.table_eq]
      exact SymbolTable.isDeclared_ofList.mpr ⟨e, inEntries, Prod.mk.inj equal⟩
    rw [fresh] at taken
    cases taken
  leveled := leveled
  pending := pending

/-- What is filled in for a subroutine leaves the declarations as they are. -/
theorem modify (holds : watch.Holds symbols (front ++ own :: back)) (routine : own.IsRoutine) (value arity : Int)
    {change : Symbol → Symbol} (changes : change own = { own with value, arity }) :
    watch.Holds (symbols.modify own.name own.level change) (front ++ { own with value, arity } :: back) := by
  have others := holds.distinct
  rw [List.map_append, List.map_cons, List.nodup_middle, List.nodup_cons, ← List.map_append] at others
  have apart : ∀ e ∈ front ++ back, ¬ (e.name = own.name ∧ e.level = own.level) := fun e mem same =>
    others.1 (List.mem_map.mpr ⟨e, mem, Prod.ext same.1 same.2⟩)
  rw [List.forall_mem_append] at apart
  refine ⟨?_, ?_, ?_, holds.leveled, holds.pending⟩
  · rw [holds.table_eq, SymbolTable.modify_ofList apart.1 apart.2 (by rw [changes]), changes]
  · rw [← holds.entries_eq]
    simp [Symbol.asDeclared_fill own routine]
  · have distinct := holds.distinct
    rw [List.map_append, List.map_cons] at distinct ⊢
    exact distinct

/-- Another part of the block is being compiled. -/
theorem restage (holds : watch.Holds symbols entries) (blocks : changed.blocks = watch.blocks)
    (pending : changed.pending = watch.pending) : changed.Holds symbols entries := by
  have same : changed.declarations = watch.declarations := by rw [declarations, declarations, blocks, pending]
  obtain ⟨table_eq, entries_eq, distinct, leveled, levels⟩ := holds
  rw [← same] at entries_eq
  rw [← blocks] at leveled levels
  rw [← pending] at levels
  exact ⟨table_eq, entries_eq, distinct, leveled, levels⟩

section Blocks

variable {header : Header} {before : SymbolTable} {block : OpenBlock} {blocks outer : List OpenBlock}
  {finished : List Span}

/-- A declaration in a block. -/
theorem declare_inner (holds : (Watch.mk .declarations (block :: outer) finished).Holds symbols entries)
    (level : symbol.level = outer.length) (fresh : symbols.isDeclared symbol.name symbol.level = false) :
    (Watch.mk .declarations ({ block with declared := block.declared ++ [symbol] } :: outer) finished).Holds
      (symbols.declare symbol) (entries ++ [symbol]) := by
  obtain ⟨own, others⟩ := holds.leveled
  refine holds.concat fresh ?_ ⟨?_, others⟩ (by simp [Watch.pending])
  · simp [declarations, Watch.pending, OpenBlock.allDeclared]
  · exact List.forall_mem_append.mpr ⟨own, List.forall_mem_singleton.mpr level⟩

/-- The declaration of a subroutine by its heading. -/
theorem declare_own (holds : (Watch.mk (.heading ⟨before, none, []⟩) (block :: outer) finished).Holds symbols entries)
    (level : symbol.level = outer.length) (fresh : symbols.isDeclared symbol.name symbol.level = false) :
    (Watch.mk (.heading ⟨before, some symbol, []⟩) ({ block with declared := block.declared ++ [symbol] } :: outer)
      finished).Holds (symbols.declare symbol) (entries ++ [symbol]) := by
  obtain ⟨own, others⟩ := holds.leveled
  refine holds.concat fresh ?_ ⟨?_, others⟩ (by simp [Watch.pending])
  · simp [declarations, Watch.pending, OpenBlock.allDeclared]
  · exact List.forall_mem_append.mpr ⟨own, List.forall_mem_singleton.mpr level⟩

theorem declare_parameter (holds : (Watch.mk (.heading header) blocks finished).Holds symbols entries)
    (level : symbol.level = blocks.length) (fresh : symbols.isDeclared symbol.name symbol.level = false) :
    (Watch.mk (.heading { header with parameters := header.parameters ++ [symbol] }) blocks finished).Holds
      (symbols.declare symbol) (entries ++ [symbol]) := by
  refine holds.concat fresh ?_ holds.leveled ?_
  · simp [declarations, Watch.pending]
  · exact List.forall_mem_append.mpr ⟨holds.pending, List.forall_mem_singleton.mpr level⟩

/-- A block begins with the parameters. -/
theorem openBlock (holds : (Watch.mk (.heading header) blocks finished).Holds symbols entries) (start : Nat) :
    (Watch.mk .declarations (⟨header, start, header.parameters⟩ :: blocks) finished).Holds symbols entries where
  table_eq := holds.table_eq
  entries_eq := by
    rw [holds.entries_eq]
    simp [declarations, Watch.pending, OpenBlock.allDeclared]
  distinct := holds.distinct
  leveled := ⟨holds.pending, holds.leveled⟩
  pending := by simp [Watch.pending]

/-- At the end of a block its declarations go, and no others. -/
theorem purge (holds : watch.Holds symbols (front ++ back)) (blocks : watch.blocks = block :: outer)
    (none : watch.pending = []) (length : front.length = (OpenBlock.allDeclared outer).length) :
    (symbols.purge outer.length).2 = .ofList front ∧
      (Watch.mk .declarations outer finished).Holds (.ofList front) front := by
  obtain ⟨table_eq, entries_eq, distinct, leveled, -⟩ := holds
  rw [declarations, none, List.append_nil, blocks, OpenBlock.allDeclared, List.map_append,
    List.map_append] at entries_eq
  rw [blocks] at leveled
  obtain ⟨outside, inside⟩ := List.append_inj entries_eq (by simpa using length)
  have levels : ∀ {l declared : List Symbol}, l.map (·.asDeclared) = declared.map (·.asDeclared) →
      ∀ e ∈ l, ∃ s ∈ declared, e.level = s.level := by
    intro l declared same e mem
    obtain ⟨s, inDeclared, equal⟩ := List.mem_map.mp (same ▸ List.mem_map_of_mem (f := Symbol.asDeclared) mem)
    exact ⟨s, inDeclared, by rw [← e.asDeclared_level, ← equal, s.asDeclared_level]⟩
  refine ⟨?_, rfl, ?_, ?_, leveled.2, by simp [Watch.pending]⟩
  · rw [table_eq]
    refine SymbolTable.purge_ofList (fun e mem => ?_) fun e mem => ?_
    · obtain ⟨s, inDeclared, same⟩ := levels outside e mem
      have below := leveled.2.lt s inDeclared
      omega
    · obtain ⟨s, inDeclared, same⟩ := levels inside e mem
      rw [same, leveled.1 s inDeclared]
  · simpa [declarations, Watch.pending] using outside
  · rw [List.map_append, List.nodup_append] at distinct
    exact distinct.1

end Blocks

end Watch.Holds

namespace Grammar

open Production

/-- The declaration of the owner of a block, as far as it is known by its heading. -/
def Owner.symbol? (owner : Owner) : Option Symbol :=
  owner.key.map fun (name, level) => { name, kind := owner.kind, level }

/-- A symbol is declared unless the table has its name and its level. -/
theorem declareNew_heeds {w : Watch} {d : Draft} {symbol : Symbol} (inForce : w.Scoped d.symbols)
    (places : w.Places symbol) :
    (declareNew symbol).Heeds w d fun b w' d' => d'.code = d.code ∧ b = !d.symbols.isDeclared symbol.name symbol.level ∧
      if b then w' = w.declare symbol ∧ d'.symbols = d.symbols.declare symbol else w' = w ∧ d'.symbols = d.symbols := by
  refine (isDeclared_silent inForce _ _ d rfl).bind ?_
  rintro taken w d' ⟨rfl, code, same, rfl⟩
  split
  · next taken =>
    have reports : (do report (.alreadyDefined symbol.name); return false : Production Bool).Silent w d.symbols
        fun b => b = false :=
      (report_silent inForce _).bind fun _ _ => .of_pure rfl
    refine (reports d' same).imp ?_
    rintro _ _ _ ⟨w_eq, further, symbols_eq, rfl⟩
    exact ⟨further.trans code, by simp [taken], by simp [w_eq, symbols_eq]⟩
  · next fresh =>
    have declares : (declare symbol).Heeds w d' fun _ w' d'' =>
        w' = w.declare symbol ∧ d''.code = d'.code ∧ d''.symbols = d'.symbols.declare symbol := by
      refine .of_request ⟨same ▸ inForce, places⟩ fun answer after ran => ?_
      cases ran
      exact ⟨rfl, rfl, rfl⟩
    refine declares.bind ?_
    rintro _ w' d'' ⟨w_eq, further, symbols_eq⟩
    exact .of_pure ⟨further.trans code, by simp [fresh], by simp [w_eq, symbols_eq, same]⟩

end Grammar

end PLZero
