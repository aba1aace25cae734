import Mathlib.Data.List.Induction
import Mathlib.Data.List.Nodup
import PLZero.Proofs.Translation.Symbols

namespace PLZero

namespace SymbolTable

/-- The table that declarations lead to, made one after another. -/
def ofList (entries : List Symbol) : SymbolTable :=
  entries.foldl declare empty

variable {table : SymbolTable} {entries front back : List Symbol} {symbol own : Symbol} {name : String} {level : Int}
  {change : Symbol → Symbol}

@[simp] theorem ofList_nil : ofList [] = empty := rfl

theorem ofList_concat (entries : List Symbol) (symbol : Symbol) :
    ofList (entries ++ [symbol]) = (ofList entries).declare symbol := by
  simp [ofList]

theorem entries_ofList (entries : List Symbol) (name : String) :
    (ofList entries).entries name = entries.filter fun entry => entry.name = name := by
  induction entries using List.reverseRecOn with
  | nil => rfl
  | append_singleton front last ih =>
    rw [ofList_concat, entries_declare, ih, List.filter_append]
    by_cases same : last.name = name <;> simp [same]

theorem isDeclared_ofList :
    (ofList entries).isDeclared name level ↔ ∃ e ∈ entries, e.name = name ∧ e.level = level := by
  simp [isDeclared, entries_ofList]

theorem toList_declare (table : SymbolTable) (symbol : Symbol) :
    (table.declare symbol).toList.Perm (table.toList ++ [symbol]) := by
  obtain ⟨groups⟩ := table
  simp only [toList, declare]
  induction groups with
  | nil => simp [insertInto]
  | cons group groups ih =>
    simp only [insertInto]
    split
    · simp only [List.flatMap_cons, List.append_assoc]
      exact List.perm_append_comm.append_left group.2
    · simp only [List.flatMap_cons, List.append_assoc]
      exact ih.append_left group.2

/-- The table has the declarations that have been made, in another order. -/
theorem toList_foldl_declare (table : SymbolTable) (added : List Symbol) :
    (added.foldl declare table).toList.Perm (table.toList ++ added) := by
  induction added using List.reverseRecOn with
  | nil => simp
  | append_singleton front last ih =>
    rw [List.foldl_concat, ← List.append_assoc]
    exact (toList_declare _ last).trans (ih.append_right [last])

theorem toList_ofList (entries : List Symbol) : (ofList entries).toList.Perm entries :=
  toList_foldl_declare empty entries

/-- A group has entries, all with its name. -/
def Grouped (table : SymbolTable) : Prop :=
  ∀ group ∈ table.groups, group.2 ≠ [] ∧ ∀ e ∈ group.2, e.name = group.1

theorem Grouped.declare (grouped : table.Grouped) (symbol : Symbol) : (table.declare symbol).Grouped := by
  obtain ⟨groups⟩ := table
  simp only [Grouped, SymbolTable.declare] at grouped ⊢
  induction groups with
  | nil => simp [insertInto]
  | cons group groups ih =>
    rw [List.forall_mem_cons] at grouped
    simp only [insertInto]
    split
    · next same =>
      rw [List.forall_mem_cons]
      refine ⟨⟨by simp, fun e mem => ?_⟩, grouped.2⟩
      rcases List.mem_append.mp mem with mem | mem
      · exact grouped.1.2 e mem
      · rw [List.mem_singleton.mp mem, same]
    · rw [List.forall_mem_cons]
      exact ⟨grouped.1, ih grouped.2⟩

theorem grouped_ofList (entries : List Symbol) : (ofList entries).Grouped := by
  induction entries using List.reverseRecOn with
  | nil => simp [Grouped, empty]
  | append_singleton front last ih =>
    rw [ofList_concat]
    exact ih.declare last

/-- To purge a level undoes the declarations of the level. -/
theorem purge_declare (table : SymbolTable) (symbol : Symbol) :
    ((table.declare symbol).purge symbol.level).2 = (table.purge symbol.level).2 := by
  obtain ⟨groups⟩ := table
  simp only [snd_purge, declare, mk.injEq]
  induction groups with
  | nil => simp [insertInto]
  | cons group groups ih =>
    simp only [insertInto]
    split
    · simp
    · simp only [List.map_cons, List.filter_cons, ih]

theorem purge_absent (grouped : table.Grouped) (absent : ∀ e ∈ table.toList, e.level ≠ level) :
    (table.purge level).2 = table := by
  obtain ⟨groups⟩ := table
  have kept : ∀ group ∈ groups, group.2.filter (fun e => e.level ≠ level) = group.2 := by
    intro group mem
    rw [List.filter_eq_self]
    intro e inGroup
    simpa using absent e (List.mem_flatMap.mpr ⟨group, mem, inGroup⟩)
  have same : groups.map (fun group => (group.1, group.2.filter fun e => e.level ≠ level)) = groups := by
    conv_rhs => rw [← List.map_id groups]
    exact List.map_congr_left fun group mem => Prod.ext rfl (kept group mem)
  simp only [snd_purge, same, mk.injEq, List.filter_eq_self]
  intro group mem
  simpa using (grouped group mem).1

/-- What was declared at the level last goes, the rest stays with its order. -/
theorem purge_foldl_declare {added : List Symbol} (grouped : table.Grouped)
    (others : ∀ e ∈ table.toList, e.level ≠ level) (gone : ∀ e ∈ added, e.level = level) :
    ((added.foldl declare table).purge level).2 = table := by
  induction added using List.reverseRecOn with
  | nil => exact purge_absent grouped others
  | append_singleton added last ih =>
    rw [List.forall_mem_append, List.forall_mem_singleton] at gone
    rw [List.foldl_concat, ← gone.2, purge_declare, gone.2]
    exact ih gone.1

theorem purge_ofList (others : ∀ e ∈ front, e.level ≠ level) (gone : ∀ e ∈ back, e.level = level) :
    ((ofList (front ++ back)).purge level).2 = ofList front := by
  rw [ofList, List.foldl_append]
  exact purge_foldl_declare (grouped_ofList front) (fun e mem => others e ((toList_ofList front).mem_iff.mp mem)) gone

theorem modifyFirst_concat (other : own.level ≠ level) :
    modifyFirst level change (entries ++ [own]) = modifyFirst level change entries ++ [own] := by
  induction entries with
  | nil => simp [modifyFirst, other]
  | cons first rest ih =>
    simp only [List.cons_append, modifyFirst, ih]
    split <;> rfl

theorem modifyFirst_absent (absent : ∀ e ∈ entries, e.level ≠ level) : modifyFirst level change entries = entries := by
  induction entries with
  | nil => rfl
  | cons first rest ih =>
    rw [List.forall_mem_cons] at absent
    rw [modifyFirst, if_neg absent.1, ih absent.2]

/-- To change an entry and to make another declaration can be done in either order. -/
theorem modify_declare (other : ¬ (symbol.name = name ∧ symbol.level = level)) :
    (table.declare symbol).modify name level change = (table.modify name level change).declare symbol := by
  obtain ⟨groups⟩ := table
  simp only [modify, declare, mk.injEq]
  induction groups with
  | nil =>
    simp only [insertInto, List.map_cons, List.map_nil]
    split
    · next same =>
      rw [modifyFirst, if_neg fun atLevel => other ⟨same, atLevel⟩, modifyFirst, same]
    · rfl
  | cons group groups ih =>
    simp only [insertInto, List.map_cons]
    by_cases here : group.1 = symbol.name
    · by_cases same : group.1 = name
      · have elsewhere : symbol.level ≠ level := fun atLevel => other ⟨here.symm.trans same, atLevel⟩
        have named : name = symbol.name := same.symm.trans here
        simp [here, named, modifyFirst_concat elsewhere]
      · simp [here, show symbol.name ≠ name from here ▸ same]
    · by_cases same : group.1 = name
      · simp [same, show name ≠ symbol.name from same ▸ here, ih]
      · simp [here, same, ih]

/-- No entry of a name has a level. -/
def Lacks (table : SymbolTable) (name : String) (level : Int) : Prop :=
  ∀ group ∈ table.groups, group.1 = name → ∀ e ∈ group.2, e.level ≠ level

theorem lacks_ofList (absent : ∀ e ∈ entries, ¬ (e.name = name ∧ e.level = level)) :
    (ofList entries).Lacks name level := by
  intro group mem named e inGroup atLevel
  refine absent e ?_ ⟨((grouped_ofList entries group mem).2 e inGroup).trans named, atLevel⟩
  exact (toList_ofList entries).mem_iff.mp (List.mem_flatMap.mpr ⟨group, mem, inGroup⟩)

theorem modify_absent (lacks : table.Lacks name level) : table.modify name level change = table := by
  obtain ⟨groups⟩ := table
  rw [modify, mk.injEq]
  conv_rhs => rw [← List.map_id groups]
  refine List.map_congr_left fun group mem => ?_
  split
  · next same => exact Prod.ext same.symm (modifyFirst_absent (lacks group mem same))
  · rfl

/-- To change what was declared last is to declare it changed. -/
theorem modify_declare_self (lacks : table.Lacks own.name own.level) (named : (change own).name = own.name) :
    (table.declare own).modify own.name own.level change = table.declare (change own) := by
  obtain ⟨groups⟩ := table
  induction groups with
  | nil => simp [declare, modify, insertInto, modifyFirst, named]
  | cons group groups ih =>
    obtain ⟨first, others⟩ := List.forall_mem_cons.mp lacks
    by_cases here : group.1 = own.name
    · have rest : (modify ⟨groups⟩ own.name own.level change).groups = groups :=
        congrArg SymbolTable.groups (modify_absent others)
      have changed : modifyFirst own.level change (group.2 ++ [own]) = group.2 ++ [change own] :=
        modifyFirst_append (first here) rfl
      simp only [modify] at rest
      simp [declare, modify, insertInto, here, named, changed, rest]
    · have rest := congrArg SymbolTable.groups (ih others)
      simp only [declare, modify] at rest
      simp [declare, modify, insertInto, here, named, rest]

/-- An entry that is the only one of its name and level is changed where it stands. -/
theorem modify_ofList (before : ∀ e ∈ front, ¬ (e.name = own.name ∧ e.level = own.level))
    (after : ∀ e ∈ back, ¬ (e.name = own.name ∧ e.level = own.level)) (named : (change own).name = own.name) :
    (ofList (front ++ own :: back)).modify own.name own.level change = ofList (front ++ change own :: back) := by
  induction back using List.reverseRecOn with
  | nil =>
    rw [ofList_concat, ofList_concat]
    exact modify_declare_self (lacks_ofList before) named
  | append_singleton back last ih =>
    rw [List.forall_mem_append, List.forall_mem_singleton] at after
    rw [← List.cons_append, ← List.append_assoc, ofList_concat, modify_declare after.2, ih after.1, ← ofList_concat,
      List.append_assoc, List.cons_append]

theorem innermost_mem (found : innermost entries = some symbol) : symbol ∈ entries := by
  induction entries with
  | nil => cases found
  | cons first rest ih =>
    rw [innermost] at found
    cases deeper : innermost rest with
    | none =>
      rw [deeper] at found
      exact List.mem_cons.mpr (.inl (Option.some.inj found).symm)
    | some deep =>
      rw [deeper] at found
      dsimp only at found
      split at found
      · exact List.mem_cons_of_mem _ (ih (deeper.trans found))
      · exact List.mem_cons.mpr (.inl (Option.some.inj found).symm)

theorem resolve_ofList (found : (ofList entries).resolve name = some symbol) :
    symbol ∈ entries ∧ symbol.name = name := by
  rw [resolve, entries_ofList] at found
  simpa using innermost_mem found

/-- Among entries that end with those of a deeper level, the first of these is the innermost. -/
theorem innermost_append (outer : ∀ e ∈ front, e.level < level) (inner : ∀ e ∈ back, e.level = level) :
    innermost (front ++ back) = back.head?.or (innermost front) := by
  induction front with
  | nil =>
    rw [List.nil_append, innermost, Option.or_none]
    induction back with
    | nil => rfl
    | cons first rest ih =>
      rw [List.forall_mem_cons] at inner
      have others := ih inner.2
      rw [innermost, others]
      cases rest with
      | nil => rfl
      | cons second rest =>
        have equal := inner.2 second List.mem_cons_self
        simp [inner.1, equal]
  | cons first front ih =>
    rw [List.forall_mem_cons] at outer
    rw [List.cons_append, innermost, ih outer.2, innermost]
    cases back with
    | nil => rfl
    | cons deep back =>
      have deeper := inner deep List.mem_cons_self
      simp [deeper, outer.1]

end SymbolTable

end PLZero
