import PLZero.Proofs.Recovery.Tables

/-!
A table of declarations as a plain list: whatever is declared, purged and filled in, the table tells what a list of the
declarations in their order would tell.
-/

namespace PLZero

def Symbol.filled (value : Int) (entry : Symbol) : Symbol :=
  { entry with value }

/-- Changes one of the entries that satisfy a condition, told by how many of these stand in front of it. -/
def changeAmong (among : Symbol → Bool) (change : Symbol → Symbol) : Nat → List Symbol → List Symbol
  | _, [] => []
  | index, entry :: entries =>
    if among entry then
      match index with
      | 0 => change entry :: entries
      | index + 1 => entry :: changeAmong among change index entries
    else entry :: changeAmong among change index entries

/-- No entry of the name has a greater level. -/
def IsInnermost (entries : List Symbol) (name : String) (entry : Symbol) : Prop :=
  entry.name = name ∧ ∀ other ∈ entries, other.name = name → other.level ≤ entry.level

instance (entries : List Symbol) (name : String) (entry : Symbol) : Decidable (IsInnermost entries name entry) :=
  inferInstanceAs (Decidable (_ ∧ ∀ other ∈ entries, other.name = name → other.level ≤ entry.level))

/-- What is done to a table. A value is filled in where it stands: in the entry that a name refers to, in the first
entry of a name at a level, or in any entry of a name. -/
inductive TableEdit where
  | declare (symbol : Symbol)
  | purge (level : Int)
  | fill (name : String) (value : Int)
  | fillAt (name : String) (level value : Int)
  | fillEntry (name : String) (index : Nat) (value : Int)
deriving DecidableEq, Repr

namespace TableEdit

def onTable (table : SymbolTable) : TableEdit → SymbolTable
  | declare symbol => table.declare symbol
  | purge level => (table.purge level).2
  | fill name value => (table.fill name value).2
  | fillAt name level value => table.modify name level (·.filled value)
  | fillEntry name index value => table.changeGroup name (·.modify index (·.filled value))

/-- The same with a plain list, where all declarations stand one behind another. -/
def onList (entries : List Symbol) : TableEdit → List Symbol
  | declare symbol => entries ++ [symbol]
  | purge level => entries.filter fun entry => entry.level ≠ level
  | fill name value => changeAmong (IsInnermost entries name ·) (·.filled value) 0 entries
  | fillAt name level value =>
    changeAmong (fun entry => entry.name = name ∧ entry.level = level) (·.filled value) 0 entries
  | fillEntry name index value => changeAmong (fun entry => entry.name = name) (·.filled value) index entries

/-- The table after edits of an empty one. -/
def table (edits : List TableEdit) : SymbolTable :=
  edits.foldl onTable .empty

/-- The list after edits of an empty one. -/
def list (edits : List TableEdit) : List Symbol :=
  edits.foldl onList []

variable {edits : List TableEdit} {edit : TableEdit} {name : String} {time later : Nat}

@[simp] theorem table_concat : table (edits ++ [edit]) = edit.onTable (table edits) := by
  simp [table]

@[simp] theorem list_concat : list (edits ++ [edit]) = edit.onList (list edits) := by
  simp [list]

/-- A name has entries, has had them after each edit since some time, and had none before. -/
structure Since (edits : List TableEdit) (name : String) (time : Nat) : Prop where
  within : time < edits.length
  absent : ∀ entry ∈ list (edits.take time), entry.name ≠ name
  present : ∀ later, time < later → later ≤ edits.length → ∃ entry ∈ list (edits.take later), entry.name = name

/-- Of names with entries, one became present before another. -/
def Earlier (edits : List TableEdit) (first second : String) : Prop :=
  ∃ time later, Since edits first time ∧ Since edits second later ∧ time < later

theorem Since.unique (first : Since edits name time) (second : Since edits name later) : time = later := by
  have le {time later : Nat} (first : Since edits name time) (second : Since edits name later) : later ≤ time := by
    refine Nat.le_of_not_lt fun before => ?_
    obtain ⟨entry, mem, named⟩ := first.present later before (Nat.le_of_lt second.within)
    exact second.absent entry mem named
  exact Nat.le_antisymm (le second first) (le first second)

theorem Since.concat (since : Since edits name time) (still : ∃ entry ∈ edit.onList (list edits), entry.name = name) :
    Since (edits ++ [edit]) name time := by
  obtain ⟨within, absent, present⟩ := since
  refine ⟨?_, ?_, fun later after inside => ?_⟩
  · rw [List.length_append]
    omega
  · rwa [List.take_append_of_le_length (Nat.le_of_lt within)]
  · rw [List.length_append, List.length_singleton] at inside
    rcases Nat.lt_or_eq_of_le inside with before | rfl
    · rw [List.take_append_of_le_length (by omega)]
      exact present later after (by omega)
    · rw [← List.length_singleton, ← List.length_append, List.take_length, list_concat]
      exact still

theorem Since.new (absent : ∀ entry ∈ list edits, entry.name ≠ name)
    (present : ∃ entry ∈ edit.onList (list edits), entry.name = name) :
    Since (edits ++ [edit]) name edits.length := by
  refine ⟨by simp, ?_, fun later after inside => ?_⟩
  · rwa [List.take_left]
  · rw [List.length_append, List.length_singleton] at inside
    have last : later = (edits ++ [edit]).length := by
      rw [List.length_append, List.length_singleton]
      omega
    rw [last, List.take_length, list_concat]
    exact present

end TableEdit

section ChangeAmong

variable {among other : Symbol → Bool} {change : Symbol → Symbol} {entries : List Symbol} {name : String}
  {level value : Int} {index : Nat}

theorem changeAmong_congr (same : ∀ entry ∈ entries, among entry = other entry) :
    changeAmong among change index entries = changeAmong other change index entries := by
  induction entries generalizing index with
  | nil => rfl
  | cons entry entries ih =>
    rw [List.forall_mem_cons] at same
    simp only [changeAmong, same.1, ih same.2]

theorem changeAmong_none (none : ∀ entry ∈ entries, among entry = false) :
    changeAmong among change index entries = entries := by
  induction entries with
  | nil => rfl
  | cons entry entries ih =>
    rw [List.forall_mem_cons] at none
    simp only [changeAmong, none.1, ih none.2, Bool.false_eq_true, if_false]

theorem changeAmong_eq_nil_iff : changeAmong among change index entries = [] ↔ entries = [] := by
  cases entries with
  | nil => simp [changeAmong]
  | cons entry entries =>
    by_cases isAmong : among entry
    · cases index <;> simp [changeAmong, isAmong]
    · simp [changeAmong, isAmong]

/-- Where the entries of the name are taken out, the change is found again. -/
theorem filter_changeAmong_self (ofName : ∀ entry, among entry → entry.name = name) :
    (changeAmong among (·.filled value) index entries).filter (fun entry => entry.name = name) =
      changeAmong among (·.filled value) index (entries.filter fun entry => entry.name = name) := by
  induction entries generalizing index with
  | nil => rfl
  | cons entry entries ih =>
    have kept : (entry.filled value).name = entry.name := rfl
    by_cases isAmong : among entry
    · cases index <;> simp [changeAmong, isAmong, kept, ofName entry isAmong, ih]
    · by_cases own : entry.name = name <;> simp [changeAmong, isAmong, own, ih]

theorem filter_changeAmong_of_ne (ofName : ∀ entry, among entry → entry.name = name) {named : String}
    (apart : name ≠ named) :
    (changeAmong among (·.filled value) index entries).filter (fun entry => entry.name = named) =
      entries.filter fun entry => entry.name = named := by
  induction entries generalizing index with
  | nil => rfl
  | cons entry entries ih =>
    have kept : (entry.filled value).name = entry.name := rfl
    by_cases isAmong : among entry
    · cases index <;> simp [changeAmong, isAmong, kept, ofName entry isAmong, apart, ih]
    · simp [changeAmong, isAmong, List.filter_cons, ih]

theorem modifyFirst_eq_changeAmong :
    SymbolTable.modifyFirst level change entries = changeAmong (fun entry => entry.level = level) change 0 entries := by
  induction entries with
  | nil => rfl
  | cons entry entries ih => simp only [SymbolTable.modifyFirst, changeAmong, ih, decide_eq_true_eq]

theorem modify_eq_changeAmong (all : ∀ entry ∈ entries, among entry) :
    entries.modify index change = changeAmong among change index entries := by
  induction entries generalizing index with
  | nil => cases index <;> rfl
  | cons entry entries ih =>
    rw [List.forall_mem_cons] at all
    cases index with
    | zero => simp [changeAmong, all.1]
    | succ index => simp [changeAmong, all.1, ih all.2]

end ChangeAmong

namespace SymbolTable

variable {table : SymbolTable} {entries group : List Symbol} {symbol : Symbol} {name other : String} {level value : Int}
  {index : Nat} {among : Symbol → Bool} {change : List Symbol → List Symbol}

def names (table : SymbolTable) : List String :=
  table.groups.map (·.1)

@[simp] theorem names_changeGroup : (table.changeGroup name change).names = table.names := by
  simp only [names, changeGroup, List.map_map]
  refine List.map_congr_left fun group _ => ?_
  simp only [Function.comp_apply]
  split
  · next same => exact same.symm
  · rfl

/-- The table has the entries of the list, those of each name in their order. -/
structure Lists (table : SymbolTable) (entries : List Symbol) : Prop where
  distinct : table.names.Nodup
  filled : ∀ name ∈ table.names, table.entries name ≠ []
  entries_eq : ∀ name, table.entries name = entries.filter fun entry => entry.name = name

theorem Lists.empty : empty.Lists [] :=
  ⟨.nil, fun _ mem => (List.not_mem_nil mem).elim, fun _ => rfl⟩

theorem Lists.mem_entries_iff (lists : table.Lists entries) :
    symbol ∈ table.entries name ↔ symbol ∈ entries ∧ symbol.name = name := by
  rw [lists.entries_eq, List.mem_filter, decide_eq_true_eq]

theorem Lists.mem_names_iff (lists : table.Lists entries) :
    name ∈ table.names ↔ ∃ entry ∈ entries, entry.name = name := by
  have some_iff : table.entries name ≠ [] ↔ ∃ entry ∈ entries, entry.name = name := by
    rw [lists.entries_eq]
    simp
  rw [← some_iff]
  refine ⟨lists.filled name, fun some => ?_⟩
  by_contra absent
  exact some (entries_eq_nil absent)

theorem names_declare : (table.declare symbol).names =
    if symbol.name ∈ table.names then table.names else table.names ++ [symbol.name] :=
  map_insertInto symbol table.groups

theorem Lists.declare (lists : table.Lists entries) (symbol : Symbol) :
    (table.declare symbol).Lists (entries ++ [symbol]) := by
  have declared (name : String) : (table.declare symbol).entries name =
      (entries ++ [symbol]).filter fun entry => entry.name = name := by
    rw [entries_declare, lists.entries_eq, List.filter_append]
    by_cases own : symbol.name = name <;> simp [own]
  refine ⟨?_, fun name mem => ?_, declared⟩
  · rw [names_declare]
    split
    · exact lists.distinct
    · next new => exact List.nodup_append_comm.mp (List.nodup_cons.mpr ⟨new, lists.distinct⟩)
  · rw [entries_declare]
    split
    · simp
    · next other =>
      refine lists.filled name ?_
      rw [names_declare] at mem
      split at mem
      · exact mem
      · simpa [Ne.symm other] using mem

theorem entries_of_mem (distinct : table.names.Nodup) (mem : (name, group) ∈ table.groups) :
    table.entries name = group := by
  obtain ⟨groups⟩ := table
  induction groups with
  | nil => cases mem
  | cons first groups ih =>
    rw [names, List.map_cons, List.nodup_cons] at distinct
    rw [entries_cons]
    rcases List.mem_cons.mp mem with rfl | mem
    · exact if_pos rfl
    · rw [if_neg fun same : first.1 = name => distinct.1 (same ▸ List.mem_map_of_mem mem), ih distinct.2 mem]

theorem toList_eq (distinct : table.names.Nodup) : table.toList = table.names.flatMap table.entries := by
  rw [toList, names, List.flatMap_map]
  exact List.flatMap_congr fun group mem => (entries_of_mem distinct mem).symm

theorem Lists.toList_eq (lists : table.Lists entries) :
    table.toList = table.names.flatMap fun name => entries.filter fun entry => entry.name = name := by
  rw [SymbolTable.toList_eq lists.distinct]
  exact List.flatMap_congr fun name _ => lists.entries_eq name

/-- Entries sorted by their names are the same entries in another order. -/
theorem flatMap_filter_perm {names : List String} (distinct : names.Nodup)
    (all : ∀ entry ∈ entries, entry.name ∈ names) :
    (names.flatMap fun name => entries.filter fun entry => entry.name = name).Perm entries := by
  induction names generalizing entries with
  | nil =>
    rw [List.eq_nil_iff_forall_not_mem.mpr fun entry mem => List.not_mem_nil (all entry mem)]
    exact .nil
  | cons name names ih =>
    rw [List.nodup_cons] at distinct
    let others := entries.filter fun entry => !decide (entry.name = name)
    have rest : (names.flatMap fun other => others.filter fun entry => entry.name = other).Perm others := by
      refine ih distinct.2 fun entry mem => (List.mem_cons.mp (all entry (List.mem_of_mem_filter mem))).resolve_left ?_
      simpa using (List.mem_filter.mp mem).2
    have same : (names.flatMap fun other => others.filter fun entry => entry.name = other) =
        names.flatMap fun other => entries.filter fun entry => entry.name = other := by
      refine List.flatMap_congr fun other mem => ?_
      have apart : other ≠ name := fun same => distinct.1 (same ▸ mem)
      rw [List.filter_filter]
      refine List.filter_congr fun entry _ => ?_
      by_cases own : entry.name = other <;> simp [own, apart]
    rw [List.flatMap_cons, ← same]
    exact (rest.append_left _).trans (List.filter_append_perm _ _)

theorem Lists.perm (lists : table.Lists entries) : table.toList.Perm entries := by
  rw [lists.toList_eq]
  exact flatMap_filter_perm lists.distinct fun entry mem => lists.mem_names_iff.mpr ⟨entry, mem, rfl⟩

/-- What is left keeps its order. -/
theorem toList_purge (table : SymbolTable) (level : Int) :
    (table.purge level).2.toList = table.toList.filter fun entry => entry.level ≠ level := by
  obtain ⟨groups⟩ := table
  simp only [snd_purge, toList]
  induction groups with
  | nil => rfl
  | cons group groups ih =>
    rw [List.map_cons, List.flatMap_cons, List.filter_append, ← ih, List.filter_cons]
    split
    · rfl
    · next gone =>
      have empty : (group.2.filter fun entry => entry.level ≠ level) = [] := by simpa using gone
      rw [empty, List.nil_append]

theorem Lists.grouped (lists : table.Lists entries) : table.Grouped := by
  intro group mem
  have own : table.entries group.1 = group.2 := entries_of_mem lists.distinct mem
  refine ⟨own ▸ lists.filled group.1 (List.mem_map_of_mem mem), fun entry inGroup => ?_⟩
  rw [← own] at inGroup
  exact (lists.mem_entries_iff.mp inGroup).2

theorem Lists.purge (lists : table.Lists entries) (level : Int) :
    (table.purge level).2.Lists (entries.filter fun entry => entry.level ≠ level) := by
  have distinct : (table.purge level).2.names.Nodup := lists.distinct.sublist (names_purge_sublist table level)
  refine ⟨distinct, fun name mem => ?_, fun name => ?_⟩
  · obtain ⟨group, inGroups, rfl⟩ := List.mem_map.mp mem
    rw [entries_of_mem distinct inGroups]
    rw [snd_purge] at inGroups
    simpa using (List.mem_filter.mp inGroups).2
  · rw [entries_purge lists.distinct, lists.entries_eq, List.filter_comm]

theorem Lists.changeGroup (lists : table.Lists entries) (ofName : ∀ entry, among entry → entry.name = name)
    (same : change (table.entries name) = changeAmong among (·.filled value) index (table.entries name))
    (kept : change [] = []) :
    (table.changeGroup name change).Lists (changeAmong among (·.filled value) index entries) := by
  have changed (other : String) : (table.changeGroup name change).entries other =
      (changeAmong among (·.filled value) index entries).filter fun entry => entry.name = other := by
    rw [entries_changeGroup kept]
    split
    · next own => rw [← own, same, lists.entries_eq, filter_changeAmong_self ofName]
    · next apart => rw [lists.entries_eq, filter_changeAmong_of_ne ofName apart]
  refine ⟨?_, fun other mem => ?_, changed⟩
  · rw [names_changeGroup]
    exact lists.distinct
  · rw [names_changeGroup] at mem
    rw [entries_changeGroup kept]
    split
    · next own =>
      rw [← own, same, ne_eq, changeAmong_eq_nil_iff]
      exact lists.filled name (own ▸ mem)
    · exact lists.filled other mem

theorem Lists.modify (lists : table.Lists entries) (name : String) (level value : Int) :
    (table.modify name level (·.filled value)).Lists
      (changeAmong (fun entry => entry.name = name ∧ entry.level = level) (·.filled value) 0 entries) := by
  refine lists.changeGroup (fun entry isAmong => (of_decide_eq_true isAmong).1) ?_ rfl
  rw [modifyFirst_eq_changeAmong]
  refine changeAmong_congr fun entry mem => ?_
  simp [(lists.mem_entries_iff.mp mem).2]

theorem innermost_eq_none_iff : innermost entries = none ↔ entries = [] := by
  cases entries with
  | nil => simp [innermost]
  | cons first rest =>
    rw [innermost]
    split
    · split <;> simp
    · simp

/-- The innermost entry is the first one with the greatest level. -/
theorem innermost_eq_find? (entries : List Symbol) :
    innermost entries = entries.find? fun entry => ∀ other ∈ entries, other.level ≤ entry.level := by
  induction entries with
  | nil => rfl
  | cons first rest ih =>
    rw [innermost, List.find?_cons]
    cases found : innermost rest with
    | none => simp [innermost_eq_none_iff.mp found]
    | some deepest =>
      rw [found] at ih
      have greatest : ∀ other ∈ rest, other.level ≤ deepest.level := by simpa using List.find?_some ih.symm
      have mem : deepest ∈ rest := innermost_mem found
      by_cases deeper : first.level < deepest.level
      · have below : ¬∀ other ∈ first :: rest, other.level ≤ first.level := fun all =>
          Int.not_le.mpr deeper (all deepest (List.mem_cons_of_mem _ mem))
        rw [decide_eq_false below]
        simp only [if_pos deeper, ih]
        refine congrArg (rest.find? ·) (funext fun entry => decide_eq_decide.mpr ?_)
        rw [List.forall_mem_cons]
        exact ⟨fun all => ⟨Int.le_trans (Int.le_of_lt deeper) (all deepest mem), all⟩, And.right⟩
      · have above : ∀ other ∈ first :: rest, other.level ≤ first.level :=
          List.forall_mem_cons.mpr ⟨Int.le_refl _, fun other inRest =>
            Int.le_trans (greatest other inRest) (Int.not_lt.mp deeper)⟩
        rw [decide_eq_true above]
        exact if_neg deeper

theorem Lists.resolve (lists : table.Lists entries) (name : String) :
    table.resolve name = entries.find? (IsInnermost entries name ·) := by
  rw [SymbolTable.resolve, lists.entries_eq, innermost_eq_find?, List.find?_filter]
  congr
  funext entry
  by_cases own : entry.name = name <;> simp [IsInnermost, own]

theorem Lists.fill (lists : table.Lists entries) (name : String) (value : Int) :
    (table.fill name value).2.Lists (changeAmong (IsInnermost entries name ·) (·.filled value) 0 entries) := by
  have resolved := lists.resolve name
  rw [SymbolTable.fill]
  split
  · next entry found =>
    rw [found] at resolved
    have isFirst := List.find?_some resolved.symm
    obtain ⟨named, greatest⟩ : IsInnermost entries name entry := of_decide_eq_true isFirst
    have inList : entry ∈ entries := List.mem_of_find?_eq_some resolved.symm
    refine lists.changeGroup (fun other isInnermost => (of_decide_eq_true isInnermost).1) ?_ rfl
    rw [modifyFirst_eq_changeAmong]
    refine changeAmong_congr fun other mem => decide_eq_decide.mpr ?_
    obtain ⟨inEntries, own⟩ := lists.mem_entries_iff.mp mem
    refine ⟨fun sameLevel => ⟨own, sameLevel ▸ greatest⟩, fun isInnermost => ?_⟩
    exact Int.le_antisymm (greatest other inEntries own) (isInnermost.2 entry inList named)
  · next absent =>
    rw [absent] at resolved
    rw [changeAmong_none]
    · exact lists
    · intro entry mem
      simpa using List.find?_eq_none.mp resolved.symm entry mem

theorem Lists.edit (lists : table.Lists entries) (edit : TableEdit) :
    (edit.onTable table).Lists (edit.onList entries) := by
  cases edit with
  | declare symbol => exact lists.declare symbol
  | purge level => exact lists.purge level
  | fill name value => exact lists.fill name value
  | fillAt name level value => exact lists.modify name level value
  | fillEntry name index value =>
    refine lists.changeGroup (fun entry isAmong => of_decide_eq_true isAmong)
      (modify_eq_changeAmong fun entry mem => ?_) ?_
    · exact decide_eq_true (lists.mem_entries_iff.mp mem).2
    · cases index <;> rfl

theorem Lists.isDeclared_iff (lists : table.Lists entries) :
    table.isDeclared name level ↔ ∃ entry ∈ entries, entry.name = name ∧ entry.level = level := by
  simp [isDeclared, lists.entries_eq]

theorem Lists.contains_iff (lists : table.Lists entries) :
    table.contains name ↔ ∃ entry ∈ entries, entry.name = name := by
  rw [← lists.mem_names_iff, contains, names, List.any_eq_true, List.mem_map]
  simp

end SymbolTable

namespace TableEdit

variable {edits : List TableEdit} {edit : TableEdit} {names : List String}

theorem table_lists (edits : List TableEdit) : (table edits).Lists (list edits) := by
  induction edits using List.reverseRecOn with
  | nil => exact .empty
  | append_singleton edits edit ih =>
    rw [table_concat, list_concat]
    exact ih.edit edit

/-- The names have entries, and stand in the order in which they became present. -/
structure InOrder (edits : List TableEdit) (names : List String) : Prop where
  since : ∀ name ∈ names, ∃ time, Since edits name time
  earlier : names.Pairwise (Earlier edits)

theorem InOrder.concat (inOrder : InOrder edits names)
    (still : ∀ name ∈ names, ∃ entry ∈ edit.onList (list edits), entry.name = name) :
    InOrder (edits ++ [edit]) names := by
  refine ⟨fun name mem => ?_, inOrder.earlier.imp_of_mem fun {first second} memFirst memSecond earlier => ?_⟩
  · obtain ⟨time, since⟩ := inOrder.since name mem
    exact ⟨time, since.concat (still name mem)⟩
  · obtain ⟨time, later, since, sinceLater, before⟩ := earlier
    exact ⟨time, later, since.concat (still first memFirst), sinceLater.concat (still second memSecond), before⟩

/-- A name that becomes present is put behind all others. -/
theorem InOrder.new (inOrder : InOrder edits names) {name : String}
    (still : ∀ name ∈ names, ∃ entry ∈ edit.onList (list edits), entry.name = name)
    (absent : ∀ entry ∈ list edits, entry.name ≠ name)
    (present : ∃ entry ∈ edit.onList (list edits), entry.name = name) :
    InOrder (edits ++ [edit]) (names ++ [name]) := by
  have since : Since (edits ++ [edit]) name edits.length := .new absent present
  obtain ⟨sinceOthers, earlier⟩ := inOrder.concat still
  refine ⟨fun other mem => ?_,
    List.pairwise_append.mpr ⟨earlier, List.pairwise_singleton _ _, fun first mem last isLast => ?_⟩⟩
  · rcases List.mem_append.mp mem with mem | isLast
    · exact sinceOthers other mem
    · rw [List.mem_singleton.mp isLast]
      exact ⟨_, since⟩
  · rw [List.mem_singleton.mp isLast]
    obtain ⟨time, sinceFirst⟩ := inOrder.since first mem
    exact ⟨time, edits.length, sinceFirst.concat (still first mem), since, sinceFirst.within⟩

/-- An edit lets names vanish, or one become present, which then is the last. -/
theorem names_onTable (table : SymbolTable) (edit : TableEdit) :
    (edit.onTable table).names.Sublist table.names ∨
      ∃ name, name ∉ table.names ∧ (edit.onTable table).names = table.names ++ [name] := by
  have kept {name change} : (table.changeGroup name change).names.Sublist table.names := by
    rw [SymbolTable.names_changeGroup]
  cases edit with
  | declare symbol =>
    rw [onTable, SymbolTable.names_declare]
    split
    · exact .inl (.refl _)
    · next new => exact .inr ⟨symbol.name, new, rfl⟩
  | purge level => exact .inl (SymbolTable.names_purge_sublist table level)
  | fill name value =>
    rw [onTable, SymbolTable.fill]
    split
    · exact .inl kept
    · exact .inl (.refl _)
  | fillAt | fillEntry => exact .inl kept

theorem inOrder_names (edits : List TableEdit) : InOrder edits (table edits).names := by
  induction edits using List.reverseRecOn with
  | nil => exact ⟨fun _ mem => (List.not_mem_nil mem).elim, .nil⟩
  | append_singleton edits edit ih =>
    have lists := table_lists edits
    have still : ∀ name ∈ (edit.onTable (table edits)).names, ∃ entry ∈ edit.onList (list edits), entry.name = name :=
      fun name mem => (lists.edit edit).mem_names_iff.mp mem
    rw [table_concat]
    rcases names_onTable (table edits) edit with fewer | ⟨name, new, isLast⟩
    · exact InOrder.concat ⟨fun name mem => ih.since name (fewer.subset mem), ih.earlier.sublist fewer⟩ still
    · rw [isLast] at still ⊢
      refine ih.new (fun other mem => still other (List.mem_append_left _ mem)) (fun entry mem named => new ?_)
        (still name (List.mem_append_right _ (List.mem_singleton_self name)))
      exact lists.mem_names_iff.mpr ⟨entry, mem, named⟩

/-- A table tells what a plain list of the declarations tells: whether something is declared, how much there is, and
what a name refers to, the first entry with the greatest level. The names stand in the order in which they last became
present, and the entries of a name in the order of declaration. To purge a level takes its entries out in this order,
so that all declarations at a new level can be undone. -/
theorem table_refines_list (edits : List TableEdit) :
    (∀ name level, (table edits).isDeclared name level ↔ ∃ e ∈ list edits, e.name = name ∧ e.level = level) ∧
    (∀ name, (table edits).contains name ↔ ∃ e ∈ list edits, e.name = name) ∧
    (table edits).size = (list edits).length ∧ (table edits).toList.Perm (list edits) ∧
    (∀ name, (table edits).resolve name = (list edits).find? (IsInnermost (list edits) name ·)) ∧
    (∀ name, (table edits).resolve name = none ↔ ∀ e ∈ list edits, e.name ≠ name) ∧
    (∃ names : List String, names.Nodup ∧ (∀ name, name ∈ names ↔ ∃ e ∈ list edits, e.name = name) ∧
      (∀ name ∈ names, ∃ time, Since edits name time) ∧ names.Pairwise (Earlier edits) ∧
      (table edits).toList = names.flatMap fun name => (list edits).filter fun e => e.name = name) ∧
    (∀ level, ((table edits).purge level).1 = (table edits).toList.filter (fun e => e.level = level) ∧
      ((table edits).purge level).1.Perm ((list edits).filter fun e => e.level = level) ∧
      ((table edits).purge level).2.toList = (table edits).toList.filter fun e => e.level ≠ level) ∧
    ∀ (level : Int) (added : List Symbol), (∀ e ∈ list edits, e.level ≠ level) → (∀ e ∈ added, e.level = level) →
      ((added.foldl SymbolTable.declare (table edits)).purge level).1.Perm added ∧
        ((added.foldl SymbolTable.declare (table edits)).purge level).2 = table edits := by
  have lists := table_lists edits
  refine ⟨fun _ _ => lists.isDeclared_iff, fun _ => lists.contains_iff, lists.perm.length_eq, lists.perm, lists.resolve,
    fun name => ?_, ?_, fun level => ?_, fun level added free own => ?_⟩
  · rw [SymbolTable.resolve, SymbolTable.innermost_eq_none_iff, lists.entries_eq, List.filter_eq_nil_iff]
    simp
  · obtain ⟨since, earlier⟩ := inOrder_names edits
    exact ⟨_, lists.distinct, fun _ => lists.mem_names_iff, since, earlier, lists.toList_eq⟩
  · rw [SymbolTable.fst_purge]
    exact ⟨rfl, lists.perm.filter _, SymbolTable.toList_purge _ level⟩
  · have others : ∀ e ∈ (table edits).toList, e.level ≠ level := fun e mem => free e (lists.perm.mem_iff.mp mem)
    rw [SymbolTable.fst_purge]
    refine ⟨?_, SymbolTable.purge_foldl_declare lists.grouped others own⟩
    refine ((SymbolTable.toList_foldl_declare _ added).filter _).trans (.of_eq ?_)
    rw [List.filter_append, List.filter_eq_nil_iff.mpr (by simpa using others),
      List.filter_eq_self.mpr (by simpa using own), List.nil_append]

/-- A name that vanishes and comes back, two entries of one name and level, and a value filled in. -/
def sampleEdits : List TableEdit :=
  [.declare ⟨"x", .var, 1, 3, 0⟩, .declare ⟨"y", .var, 0, 3, 0⟩, .declare ⟨"y", .constant, 0, 5, 0⟩, .purge 1,
    .declare ⟨"x", .procedure, 0, 0, 0⟩, .fill "x" 7, .fillEntry "y" 1 6]

theorem sampleEdits_undone :
    (table sampleEdits).toList = [⟨"y", .var, 0, 3, 0⟩, ⟨"y", .constant, 0, 6, 0⟩, ⟨"x", .procedure, 0, 7, 0⟩] ∧
      (((table sampleEdits).declare ⟨"z", .var, 2, 3, 0⟩).purge 2).2 = table sampleEdits := by
  obtain ⟨-, -, -, -, -, -, -, -, undone⟩ := table_refines_list sampleEdits
  exact ⟨by decide, (undone 2 [⟨"z", .var, 2, 3, 0⟩] (by decide) (by decide)).2⟩

end TableEdit

end PLZero
