import Mathlib.Data.List.Nodup
import PLZero.Proofs.Execution.Steps
import PLZero.Proofs.Meaning.Evaluation

namespace PLZero

def Place.activation : Place → Nat
  | .variable activation _ | .result activation => activation

/-- What a word on the stack is for: it keeps the value of a place, or it is a word that no assignment changes. -/
inductive Cell where
  | word (value : Int)
  | place (place : Place)
deriving DecidableEq, Repr

namespace Cell

def value (store : Store) : Cell → Int
  | word w => w
  | place p => store.values p

def place? : Cell → Option Place
  | word _ => none
  | place p => some p

end Cell

/-- The words of a stack when the places have the values of the store. -/
def wordsOf (store : Store) (stack : List Cell) : List Int :=
  stack.map (·.value store)

def placesOf (stack : List Cell) : List Place :=
  stack.filterMap (·.place?)

section

variable {store : Store} {stack more : List Cell} {place : Place} {address : Nat}

@[simp] theorem wordsOf_append : wordsOf store (stack ++ more) = wordsOf store stack ++ wordsOf store more :=
  List.map_append

@[simp] theorem length_wordsOf : (wordsOf store stack).length = stack.length :=
  List.length_map _

@[simp] theorem wordsOf_words (values : List Int) : wordsOf store (values.map .word) = values := by
  simp [wordsOf, Function.comp_def, Cell.value]

@[simp] theorem placesOf_append : placesOf (stack ++ more) = placesOf stack ++ placesOf more :=
  List.filterMap_append

@[simp] theorem placesOf_words (values : List Int) : placesOf (values.map .word) = [] := by
  simp [placesOf, Cell.place?]

theorem wordsOf_getElem? (store : Store) {cell : Cell} (held : stack[address]? = some cell) :
    (wordsOf store stack)[address]? = some (cell.value store) := by
  rw [wordsOf, List.getElem?_map, held]
  rfl

theorem mem_placesOf (held : stack[address]? = some (.place place)) : place ∈ placesOf stack :=
  List.mem_filterMap.mpr ⟨_, List.mem_of_getElem? held, rfl⟩

/-- The words of a stack depend on the values of its places only. -/
theorem wordsOf_congr {other : Store} (same : ∀ p ∈ placesOf stack, other.values p = store.values p) :
    wordsOf other stack = wordsOf store stack := by
  refine List.map_congr_left fun cell mem => ?_
  cases cell with
  | word w => rfl
  | place p => exact same p (List.mem_filterMap.mpr ⟨_, mem, rfl⟩)

theorem wordsOf_write_of_not_mem {value : Int} (absent : place ∉ placesOf stack) :
    wordsOf (store.write place value) stack = wordsOf store stack :=
  wordsOf_congr fun p mem => if_neg fun (same : p = place) => absent (same ▸ mem)

theorem nodup_of_cons {cell : Cell} (distinct : (placesOf (cell :: stack)).Nodup) : (placesOf stack).Nodup :=
  distinct.sublist ((List.sublist_cons_self cell stack).filterMap _)

/-- To write to a place is to change its word. -/
theorem set_wordsOf (distinct : (placesOf stack).Nodup) (held : stack[address]? = some (.place place)) (value : Int) :
    (wordsOf store stack).set address value = wordsOf (store.write place value) stack := by
  induction stack generalizing address with
  | nil => simp at held
  | cons cell stack ih =>
    simp only [wordsOf, List.map_cons] at ih ⊢
    cases address with
    | zero =>
      obtain rfl : cell = .place place := by simpa using held
      have absent : place ∉ placesOf stack := by
        simpa [placesOf, Cell.place?] using (List.nodup_cons.mp distinct).1
      have unchanged : wordsOf (store.write place value) stack = wordsOf store stack :=
        wordsOf_write_of_not_mem absent
      have written : Cell.value (store.write place value) (.place place) = value := if_pos rfl
      rw [List.set_cons_zero, written]
      exact congrArg (value :: ·) unchanged.symm
    | succ address =>
      have held : stack[address]? = some (.place place) := by simpa using held
      have further := mem_placesOf held
      have unchanged : cell.value (store.write place value) = cell.value store := by
        cases cell with
        | word w => rfl
        | place p =>
          refine if_neg fun (same : p = place) => ?_
          exact (List.nodup_cons.mp distinct).1 (same ▸ further)
      rw [List.set_cons_succ, ih (nodup_of_cons distinct) held, unchanged]

end

/-- No place has two words, and all are in activations that have begun. -/
structure Tidy (stack : List Cell) (started : Nat) : Prop where
  distinct : (placesOf stack).Nodup
  begun : ∀ p ∈ placesOf stack, p.activation < started

namespace Tidy

variable {stack : List Cell} {store : Store} {started : Nat}

theorem words_append (h : Tidy stack started) (values : List Int) : Tidy (stack ++ values.map .word) started := by
  constructor
  · simpa using h.distinct
  · simpa using h.begun

theorem of_append {more : List Cell} (h : Tidy (stack ++ more) started) : Tidy stack started := by
  obtain ⟨distinct, begun⟩ := h
  rw [placesOf_append] at distinct begun
  exact ⟨(List.nodup_append.mp distinct).1, fun p mem => begun p (List.mem_append_left _ mem)⟩

theorem wordsOf_begin (h : Tidy stack store.started) (parameters : List String) (arguments : List Int)
    (vars : List String) (initial : Nat → Int) :
    wordsOf (store.begin parameters arguments vars initial) stack = wordsOf store stack := by
  refine wordsOf_congr fun p mem => ?_
  have earlier := h.begun p mem
  cases p <;> exact if_neg (Nat.ne_of_lt earlier)

end Tidy

/-- The cells of the frame of an activation: parameters, links, result, variables. -/
def frameCells (activation : Nat) (parameters : List String) (link saved back : Nat) (vars : List String) :
    List Cell :=
  parameters.map (fun name => .place (.variable activation name)) ++
    [.word link, .word saved, .word back, .place (.result activation)] ++
    vars.map fun name => .place (.variable activation name)

theorem map_lookup_zip {names : List String} {values : List Int} (distinct : names.Nodup)
    (length : values.length = names.length) : names.map (fun name => ((names.zip values).lookup name).getD 0) = values := by
  induction names generalizing values with
  | nil => simpa using length
  | cons name names ih =>
    cases values with
    | nil => simp at length
    | cons value values =>
      obtain ⟨absent, distinct⟩ := List.nodup_cons.mp distinct
      have others : names.map (fun other => ((((name, value) :: names.zip values)).lookup other).getD 0) = values := by
        refine Eq.trans (List.map_congr_left fun other mem => ?_) (ih distinct (by simpa using length))
        have different : (other == name) = false := beq_false_of_ne fun same => absent (same ▸ mem)
        rw [List.lookup_cons, different]
      simp only [List.zip_cons_cons, List.map_cons, List.lookup_cons_self, Option.getD_some, others]

section

variable {stack : List Cell} {store : Store} {activation link saved back : Nat} {parameters vars : List String}

@[simp] theorem length_frameCells :
    (frameCells activation parameters link saved back vars).length = parameters.length + 4 + vars.length := by
  simp only [frameCells, List.length_append, List.length_map, List.length_cons, List.length_nil]

theorem placesOf_frameCells : placesOf (frameCells activation parameters link saved back vars) =
    parameters.map (.variable activation) ++ .result activation :: vars.map (.variable activation) := by
  simp [placesOf, frameCells, Cell.place?]

theorem Tidy.frame {started : Nat} (h : Tidy stack started) (distinct : (parameters ++ vars).Nodup) :
    Tidy (stack ++ frameCells started parameters link saved back vars) (started + 1) := by
  have own : ∀ p ∈ placesOf (frameCells started parameters link saved back vars), p.activation = started := by
    rw [placesOf_frameCells]
    simp [or_imp, forall_and, Place.activation]
  have named : ((parameters ++ vars).map (Place.variable started)).Nodup :=
    distinct.map fun _ _ same => by cases same; rfl
  have places : (placesOf (frameCells started parameters link saved back vars)).Nodup := by
    rw [placesOf_frameCells, List.nodup_middle, List.nodup_cons, ← List.map_append]
    exact ⟨by simp, named⟩
  constructor
  · rw [placesOf_append, List.nodup_append]
    refine ⟨h.distinct, places, fun p old q new same => ?_⟩
    have earlier := h.begun p old
    rw [same, own q new] at earlier
    exact Nat.lt_irrefl _ earlier
  · intro p mem
    rw [placesOf_append, List.mem_append] at mem
    rcases mem with old | new
    · exact Nat.lt_succ_of_lt (h.begun p old)
    · rw [own p new]
      exact Nat.lt_succ_self _

/-- The words of a new frame: the arguments below it, the links, a zero, and what the variables start with. -/
theorem wordsOf_frameCells {arguments fresh : List Int} {initial : Nat → Int}
    (distinct : (parameters ++ vars).Nodup) (given : arguments.length = parameters.length)
    (length : fresh.length = vars.length) (spelled : ∀ index < vars.length, fresh[index]? = some (initial index)) :
    wordsOf (store.begin parameters arguments vars initial)
        (frameCells store.started parameters link saved back vars) =
      arguments ++ [(link : Int), saved, back, 0] ++ fresh := by
  have zipped : (vars.mapIdx fun index name => (name, initial index)) = vars.zip fresh := by
    refine List.ext_getElem (by simp [length]) fun index below _ => ?_
    have inside : index < fresh.length := by simpa [length] using below
    have held := spelled index (length ▸ inside)
    rw [List.getElem?_eq_getElem inside, Option.some.injEq] at held
    simp [held]
  have table : parameters.zip arguments ++ vars.mapIdx (fun index name => (name, initial index)) =
      (parameters ++ vars).zip (arguments ++ fresh) := by
    rw [zipped, List.zip_append given.symm]
  have all : (parameters ++ vars).map (fun name =>
      ((parameters.zip arguments ++ vars.mapIdx fun index name => (name, initial index)).lookup name).getD 0) =
        arguments ++ fresh := by
    rw [table]
    exact map_lookup_zip distinct (by simp [given, length])
  rw [List.map_append] at all
  obtain ⟨first, second⟩ := List.append_inj all (by simp [given])
  have begun : ∀ name, Cell.value (store.begin parameters arguments vars initial)
      (.place (.variable store.started name)) =
        ((parameters.zip arguments ++ vars.mapIdx fun index name => (name, initial index)).lookup name).getD 0 :=
    fun name => if_pos rfl
  have result : Cell.value (store.begin parameters arguments vars initial) (.place (.result store.started)) = 0 :=
    if_pos rfl
  simp only [wordsOf, frameCells, List.map_append, List.map_map, Function.comp_def, begun, first, second, List.map_cons,
    List.map_nil, result]
  rfl

end

end PLZero
