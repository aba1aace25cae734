import PLZero.Proofs.Generation.Code
import PLZero.SymbolTable

namespace PLZero

namespace SymbolTable

theorem entries_cons (group : String × List Symbol) (groups : List (String × List Symbol)) (name : String) :
    entries ⟨group :: groups⟩ name = if group.1 = name then group.2 else entries ⟨groups⟩ name := by
  simp only [entries, List.find?_cons]
  by_cases same : group.1 = name <;> simp [same]

theorem entries_eq_nil {groups : List (String × List Symbol)} {name : String} (h : name ∉ groups.map (·.1)) :
    entries ⟨groups⟩ name = [] := by
  induction groups with
  | nil => rfl
  | cons group groups ih =>
    simp only [List.map_cons, List.mem_cons, not_or] at h
    rw [entries_cons, if_neg (fun same => h.1 same.symm)]
    exact ih h.2

theorem entries_declare (table : SymbolTable) (symbol : Symbol) (name : String) :
    (table.declare symbol).entries name =
      if symbol.name = name then table.entries name ++ [symbol] else table.entries name := by
  obtain ⟨groups⟩ := table
  induction groups with
  | nil =>
    simp only [declare, insertInto, entries_cons]
    split <;> rfl
  | cons group groups ih =>
    simp only [declare, insertInto] at ih ⊢
    by_cases here : group.1 = symbol.name
    · simp only [if_pos here, entries_cons]
      by_cases same : symbol.name = name <;> simp [same, here]
    · simp only [if_neg here, entries_cons, ih]
      by_cases same : symbol.name = name
      · subst same
        simp [here]
      · simp [same]

theorem map_insertInto (symbol : Symbol) (groups : List (String × List Symbol)) :
    (insertInto symbol groups).map (·.1) =
      if symbol.name ∈ groups.map (·.1) then groups.map (·.1) else groups.map (·.1) ++ [symbol.name] := by
  induction groups with
  | nil => simp [insertInto]
  | cons group groups ih =>
    simp only [insertInto]
    by_cases here : group.1 = symbol.name
    · simp [here]
    · simp only [if_neg here, List.map_cons, ih, List.mem_cons, Ne.symm here, false_or]
      split <;> rfl

/-- Changes the entries of a name where they stand. -/
def changeGroup (table : SymbolTable) (name : String) (change : List Symbol → List Symbol) : SymbolTable :=
  ⟨table.groups.map fun group => if group.1 = name then (name, change group.2) else group⟩

theorem entries_changeGroup {change : List Symbol → List Symbol} (kept : change [] = []) (table : SymbolTable)
    (name other : String) : (table.changeGroup name change).entries other =
      if name = other then change (table.entries other) else table.entries other := by
  obtain ⟨groups⟩ := table
  induction groups with
  | nil => simp [changeGroup, entries, kept]
  | cons group groups ih =>
    simp only [changeGroup, List.map_cons, entries_cons] at ih ⊢
    by_cases here : group.1 = name
    · by_cases same : name = other
      · simp [here, same]
      · simp [here, same, ih]
    · by_cases same : name = other
      · subst same
        simp [here, ih]
      · simp [here, same, ih]

theorem entries_modify (table : SymbolTable) (name other : String) (level : Int) (change : Symbol → Symbol) :
    (table.modify name level change).entries other =
      if name = other then modifyFirst level change (table.entries other) else table.entries other :=
  entries_changeGroup rfl table name other

theorem purgeGroups_eq (level : Int) (groups : List (String × List Symbol)) :
    purgeGroups level groups =
      ((groups.flatMap (·.2)).filter fun entry => entry.level = level,
        (groups.map fun group => (group.1, group.2.filter fun entry => entry.level ≠ level)).filter fun group =>
          !group.2.isEmpty) := by
  induction groups with
  | nil => rfl
  | cons group groups ih =>
    simp only [purgeGroups, ih, List.flatMap_cons, List.filter_append, List.map_cons, List.filter_cons,
      List.isEmpty_iff, Bool.not_eq_true', Bool.eq_false_iff, ne_eq, ite_not]

/-- What is taken out group by group is what the whole table has of the level. -/
theorem fst_purge (table : SymbolTable) (level : Int) :
    (table.purge level).1 = table.toList.filter fun entry => entry.level = level :=
  congrArg Prod.fst (purgeGroups_eq level table.groups)

theorem snd_purge (table : SymbolTable) (level : Int) :
    (table.purge level).2 =
      ⟨(table.groups.map fun group => (group.1, group.2.filter fun entry => entry.level ≠ level)).filter fun group =>
        !group.2.isEmpty⟩ :=
  congrArg (fun purged => SymbolTable.mk purged.2) (purgeGroups_eq level table.groups)

theorem names_purge_sublist (table : SymbolTable) (level : Int) :
    ((table.purge level).2.groups.map (·.1)).Sublist (table.groups.map (·.1)) := by
  have names : table.groups.map (·.1) =
      (table.groups.map fun group => (group.1, group.2.filter fun entry => entry.level ≠ level)).map (·.1) := by
    simp
  rw [names, snd_purge]
  exact List.filter_sublist.map _

theorem entries_purge {table : SymbolTable} (distinct : (table.groups.map (·.1)).Nodup) (level : Int) (name : String) :
    (table.purge level).2.entries name = (table.entries name).filter fun entry => entry.level ≠ level := by
  rw [snd_purge]
  obtain ⟨groups⟩ := table
  dsimp only at distinct ⊢
  induction groups with
  | nil => rfl
  | cons group groups ih =>
    rw [List.map_cons, List.nodup_cons] at distinct
    have rest := ih distinct.2
    have absent : group.1 = name → entries ⟨groups⟩ name = [] := fun same => entries_eq_nil (same ▸ distinct.1)
    rw [List.map_cons, List.filter_cons, entries_cons]
    by_cases gone : (group.2.filter fun entry => entry.level ≠ level) = []
    · rw [if_neg (by simpa using gone), rest]
      by_cases same : group.1 = name
      · rw [if_pos same, absent same, gone, List.filter_nil]
      · rw [if_neg same]
    · rw [if_pos (by simpa using gone), entries_cons]
      by_cases same : group.1 = name
      · rw [if_pos same, if_pos same]
      · rw [if_neg same, if_neg same, rest]

/-- The last of the entries is the innermost one if all others have a smaller level. -/
theorem innermost_concat {entries : List Symbol} {last : Symbol} (outer : ∀ e ∈ entries, e.level < last.level) :
    innermost (entries ++ [last]) = some last := by
  induction entries with
  | nil => rfl
  | cons entry entries ih =>
    simp only [List.mem_cons, forall_eq_or_imp] at outer
    simp [innermost, ih outer.2, outer.1]

/-- The first entry of a level is changed, whatever stands before it at other levels. -/
theorem modifyFirst_append {before after : List Symbol} {entry : Symbol} {level : Int} {change : Symbol → Symbol}
    (others : ∀ e ∈ before, e.level ≠ level) (here : entry.level = level) :
    modifyFirst level change (before ++ entry :: after) = before ++ change entry :: after := by
  induction before with
  | nil => simp [modifyFirst, here]
  | cons first before ih =>
    simp only [List.mem_cons, forall_eq_or_imp] at others
    simp [modifyFirst, others.1, ih others.2]

end SymbolTable

def Routine.symbolKind : Routine → SymbolKind
  | procedure => .procedure
  | function => .function

/-- The entry of the symbol table for a name of a block of the given level. -/
def Binding.symbol (name : String) (level : Nat) : Binding → Symbol
  | .constant value => { name, kind := .constant, level, value }
  | .variable offset => { name, kind := .var, level, value := offset }
  | .routine kind arity address => { name, kind := kind.symbolKind, level, value := address, arity }

@[simp] theorem Binding.symbol_name (name : String) (level : Nat) (binding : Binding) :
    (binding.symbol name level).name = name := by
  cases binding <;> rfl

@[simp] theorem Binding.symbol_level (name : String) (level : Nat) (binding : Binding) :
    (binding.symbol name level).level = level := by
  cases binding <;> rfl

/-- The entries of the symbol table for a name, those of outer blocks first. The level of a block is the number of
blocks around it. -/
def CodeContext.symbols (name : String) : CodeContext → List Symbol
  | [] => []
  | layer :: outer => symbols name outer ++ ((layer.lookup name).map (·.symbol name outer.length)).toList

theorem CodeContext.level_of_mem_symbols {context : CodeContext} {name : String} {symbol : Symbol}
    (h : symbol ∈ context.symbols name) : symbol.level < context.length := by
  induction context with
  | nil => simp [symbols] at h
  | cons layer outer ih =>
    simp only [symbols, List.mem_append, Option.mem_toList, Option.map_eq_some_iff] at h
    rcases h with earlier | ⟨binding, _, rfl⟩
    · have := ih earlier
      simp only [List.length_cons]
      omega
    · simp only [Binding.symbol_level, List.length_cons]
      omega

theorem CodeContext.innermost_symbols {context : CodeContext} {name : String}
    {found : Found (Option String) Binding} (h : context.find? name = some found) :
    ∃ level : Nat, level + found.distance + 1 = context.length ∧
      SymbolTable.innermost (context.symbols name) = some (found.entry.symbol name level) := by
  induction context generalizing found with
  | nil => simp [Context.find?] at h
  | cons layer outer ih =>
    simp only [Context.find?, symbols, Layer.lookup] at h ⊢
    cases here : Layer.find? name layer.entries with
    | some first =>
      obtain rfl : _ = found := by simpa [here] using h
      refine ⟨outer.length, by simp, ?_⟩
      exact SymbolTable.innermost_concat fun e he => by simpa using level_of_mem_symbols he
    | none =>
      simp only [here, Option.map_eq_some_iff] at h
      obtain ⟨further, atOuter, rfl⟩ := h
      obtain ⟨level, deep, same⟩ := ih atOuter
      refine ⟨level, by simp only [List.length_cons]; omega, ?_⟩
      simpa using same

theorem CodeContext.symbols_eq_nil {context : CodeContext} {name : String} (h : context.find? name = none) :
    context.symbols name = [] := by
  induction context with
  | nil => rfl
  | cons layer outer ih =>
    simp only [Context.find?] at h
    cases here : Layer.find? name layer.entries with
    | some first => simp [here] at h
    | none =>
      simp only [here, Option.map_eq_none_iff] at h
      simp [symbols, Layer.lookup, here, ih h]

/-- The symbol table tells the declarations in force. -/
structure SymbolTable.Holds (table : SymbolTable) (context : CodeContext) : Prop where
  distinct : (table.groups.map (·.1)).Nodup
  entries_eq : ∀ name, table.entries name = context.symbols name

namespace SymbolTable.Holds

variable {table : SymbolTable} {context outer : CodeContext} {layer : Layer (Option String) Binding} {name : String}

theorem empty : SymbolTable.empty.Holds [] :=
  ⟨.nil, fun _ => rfl⟩

theorem resolve_of_find? (h : table.Holds context) {found : Found (Option String) Binding}
    (atName : context.find? name = some found) :
    ∃ level : Nat, level + found.distance + 1 = context.length ∧
      table.resolve name = some (found.entry.symbol name level) := by
  rw [resolve, h.entries_eq]
  exact CodeContext.innermost_symbols atName

theorem resolve_eq_none (h : table.Holds context) (atName : context.find? name = none) :
    table.resolve name = none := by
  rw [resolve, h.entries_eq, CodeContext.symbols_eq_nil atName]
  rfl

theorem isDeclared (h : table.Holds (layer :: outer)) :
    table.isDeclared name outer.length = (layer.lookup name).isSome := by
  have others : (CodeContext.symbols name outer).any (fun entry => entry.level = outer.length) = false := by
    rw [List.any_eq_false]
    intro e he
    have := CodeContext.level_of_mem_symbols he
    simp only [decide_eq_true_eq]
    omega
  rw [SymbolTable.isDeclared, h.entries_eq, CodeContext.symbols, List.any_append, others]
  cases layer.lookup name <;> simp

/-- A block without declarations. -/
theorem enter (h : table.Holds outer) (mark : Option String) : table.Holds (⟨mark, []⟩ :: outer) :=
  ⟨h.distinct, fun name => by simp [h.entries_eq, CodeContext.symbols, Layer.lookup, Layer.find?]⟩

theorem declare (h : table.Holds (layer :: outer)) (fresh : layer.lookup name = none) (binding : Binding) :
    (table.declare (binding.symbol name outer.length)).Holds (layer.declare name binding :: outer) := by
  refine ⟨?_, fun other => ?_⟩
  · rw [SymbolTable.declare, map_insertInto]
    split
    · exact h.distinct
    · rename_i absent
      rw [List.nodup_append]
      refine ⟨h.distinct, by simp, fun other mem last atLast same => absent ?_⟩
      rw [List.mem_singleton.mp atLast] at same
      exact same ▸ mem
  · rw [entries_declare, h.entries_eq, Binding.symbol_name]
    simp only [CodeContext.symbols, Layer.lookup_declare]
    by_cases same : name = other
    · subst same
      simp [fresh]
    · simp [same]

/-- The latest declaration of the block around is changed. -/
theorem modify {top : Layer (Option String) Binding} {old new : Binding} {change : Symbol → Symbol}
    (h : table.Holds (top :: layer.declare name old :: outer))
    (same : change (old.symbol name outer.length) = new.symbol name outer.length) :
    (table.modify name outer.length change).Holds (top :: layer.declare name new :: outer) := by
  refine ⟨?_, fun other => ?_⟩
  · have names : (table.modify name outer.length change).groups.map (·.1) = table.groups.map (·.1) := by
      simp only [SymbolTable.modify, List.map_map, List.map_inj_left, Function.comp_apply]
      intro group _
      split <;> simp_all
    exact names ▸ h.distinct
  · rw [entries_modify, h.entries_eq]
    simp only [CodeContext.symbols, Layer.lookup_declare, List.length_cons]
    by_cases here : name = other
    · subst here
      simp only [if_true, Option.map_some, Option.toList_some, List.append_assoc, List.cons_append, List.nil_append]
      rw [modifyFirst_append _ (Binding.symbol_level ..), same]
      intro e he
      have := CodeContext.level_of_mem_symbols he
      omega
    · simp [here]

theorem purge (h : table.Holds (layer :: outer)) : (table.purge outer.length).2.Holds outer := by
  refine ⟨?_, fun name => ?_⟩
  · exact h.distinct.sublist (names_purge_sublist table _)
  · rw [entries_purge h.distinct, h.entries_eq, CodeContext.symbols, List.filter_append]
    have kept : (CodeContext.symbols name outer).filter (fun entry => entry.level ≠ (outer.length : Int)) =
        CodeContext.symbols name outer := by
      rw [List.filter_eq_self]
      intro e he
      have := CodeContext.level_of_mem_symbols he
      simp only [decide_eq_true_eq]
      omega
    rw [kept]
    cases layer.lookup name <;> simp

end SymbolTable.Holds

end PLZero
