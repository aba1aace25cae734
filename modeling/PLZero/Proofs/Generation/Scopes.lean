import Mathlib.Data.List.Forall2
import Mathlib.Data.List.Induction
import Mathlib.Data.List.Nodup
import PLZero.Proofs.Generation.Sites

namespace PLZero

theorem Layer.mem_of_find? {Entry : Type} {name : String} {entries older : List (String × Entry)} {entry : Entry}
    (h : Layer.find? name entries = some (entry, older)) : (name, entry) ∈ entries := by
  induction entries with
  | nil => simp [find?] at h
  | cons first rest ih =>
    rw [find?] at h
    split at h
    · rename_i same
      cases h
      exact same ▸ List.mem_cons_self
    · exact List.mem_cons_of_mem _ (ih h)

/-- A name that is found is declared in the block so many blocks out. -/
theorem Context.mem_of_find? {Mark Entry : Type} {context visible : Context Mark Entry} {name : String}
    {distance : Nat} {entry : Entry} (h : context.find? name = some ⟨distance, entry, visible⟩) :
    ∃ layer, context[distance]? = some layer ∧ (name, entry) ∈ layer.entries := by
  induction context generalizing distance with
  | nil => simp [find?] at h
  | cons layer outer ih =>
    rw [find?] at h
    split at h
    · rename_i atLayer
      cases h
      exact ⟨layer, rfl, Layer.mem_of_find? atLayer⟩
    · obtain ⟨found, atOuter, same⟩ := Option.map_eq_some_iff.mp h
      cases same
      exact ih atOuter

theorem exists_of_forall₂_getElem? {α β : Type} {R : α → β → Prop} {first : List α} {second : List β} {index : Nat}
    {b : β} (all : List.Forall₂ R first second) (atIndex : second[index]? = some b) :
    ∃ a, first[index]? = some a ∧ R a b := by
  induction all generalizing index with
  | nil => simp at atIndex
  | cons related _ ih =>
    cases index with
    | zero =>
      cases atIndex
      exact ⟨_, rfl, related⟩
    | succ index => exact ih atIndex

namespace Site

/-- The words of a frame that a name of the block may stand for: a parameter lies below the frame, a variable behind
the links and the result. -/
inductive Slot (site : Site) : String → Int → Prop
  | parameter {name : String} {index : Nat} : (Block.parametersOf site.owner)[index]? = some name →
      Slot site name (index - site.arity)
  | variable {name : String} {index : Nat} : site.block.vars[index]? = some name → Slot site name ↑(frameSize + index)

/-- What a name that is declared in a block may stand for in code. A subroutine is called by the jump in front of its
code or by its entry. -/
def Gives (site : Site) (name : String) : Binding → Prop
  | .constant value => (name, value) ∈ site.block.constants
  | .variable offset => site.Slot name offset
  | .routine kind arity address => ∃ inner heading, site.Encloses inner ∧ inner.owner = some heading ∧
      heading.name = name ∧ heading.kind = kind ∧ heading.parameters.length = arity ∧
        (address = inner.start ∨ address = inner.entry)

/-- The declarations of a layer of a context are ones of the block. -/
structure Describes (site : Site) (layer : Layer (Option String) Binding) : Prop where
  mark_eq : layer.mark = site.owner.map (·.name)
  gives : ∀ entry ∈ layer.entries, site.Gives entry.1 entry.2

/-- The words of a frame that code may change: those that names stand for, and the result of a function. -/
inductive Writable (site : Site) : Int → Prop
  | slot {name : String} {offset : Int} : site.Slot name offset → Writable site offset
  | result {heading : Heading} : site.owner = some heading → heading.kind = .function → Writable site resultSlot

variable {site inner : Site} {outer : List Site} {layer : Layer (Option String) Binding}

theorem Describes.declare (described : site.Describes layer) {name : String} {binding : Binding}
    (gives : site.Gives name binding) : site.Describes (layer.declare name binding) where
  mark_eq := described.mark_eq
  gives := by
    simpa [Layer.declare, gives] using described.gives

theorem Encloses.mem (encloses : site.Encloses inner) {heading : Heading} (owned : inner.owner = some heading) :
    (heading, inner.block) ∈ site.block.subroutines := by
  cases encloses with
  | child split =>
    cases owned
    rw [split]
    exact List.mem_append_right _ List.mem_cons_self

/-- Subroutines of one name have one heading. -/
theorem Encloses.heading_eq {other : Site} (distinct : (site.block.subroutines.map (·.1.name)).Nodup)
    (encloses : site.Encloses inner) (also : site.Encloses other) {heading another : Heading}
    (owned : inner.owner = some heading) (alsoOwned : other.owner = some another)
    (same : heading.name = another.name) : heading = another :=
  congrArg Prod.fst (List.inj_on_of_nodup_map distinct (encloses.mem owned) (also.mem alsoOwned) same)

theorem describes_openingFrame :
    site.Describes (Block.openingFrame site.owner site.block.constants site.block.vars) := by
  constructor
  · simp [Block.openingFrame]
  · intro entry mem
    simp only [Block.openingFrame, Layer.declareAll_entries, List.append_nil, List.mem_reverse, Block.openingBindings,
      List.mem_append, List.mem_map, Prod.exists, List.mem_zipIdx_iff_getElem?] at mem
    rcases mem with (⟨name, index, atIndex, rfl⟩ | ⟨name, value, declared, rfl⟩) | ⟨name, index, atIndex, rfl⟩
    · exact .parameter atIndex
    · exact declared
    · obtain ⟨le, atIndex⟩ := List.mk_mem_zipIdx_iff_le_and_getElem?_sub.mp atIndex
      have found : site.Slot name _ := .variable atIndex
      rwa [Nat.add_sub_cancel' le] at found

theorem gives_routine (encloses : site.Encloses inner) {heading : Heading} (owned : inner.owner = some heading)
    {address : Nat} (called : address = inner.start ∨ address = inner.entry) :
    site.Gives heading.name (heading.binding address) :=
  ⟨inner, heading, encloses, owned, rfl, rfl, rfl, called⟩

theorem describes_nested {before after : List (Heading × Block)} (split : site.block.subroutines = before ++ after) :
    site.Describes (site.nested before).1 := by
  induction before using List.reverseRecOn generalizing after with
  | nil => exact describes_openingFrame
  | append_singleton before subroutine ih =>
    obtain ⟨heading, block⟩ := subroutine
    rw [List.append_assoc] at split
    have encloses := Encloses.child split
    rw [nested, Block.generateAll_append]
    simp only [Block.generateAll]
    rw [generate_eq]
    exact (ih split).declare (gives_routine encloses rfl (.inr rfl))

end Site

namespace Block

/-- The rules for one of several subroutines. -/
theorem AllWellFormed.split {outer : StaticContext} {layer : Layer (Option String) Meaning}
    {before after : List (Heading × Block)} {heading : Heading} {block : Block}
    (formed : AllWellFormed outer layer (before ++ (heading, block) :: after)) :
    block.WellFormed ((layer.declareAll (before.map fun s => (s.1.name, s.1.meaning))).declare heading.name
      heading.meaning :: outer) (some heading) := by
  induction before generalizing layer with
  | nil => exact formed.1
  | cons first before ih => exact ih formed.2

namespace Path

variable {tree : Block} {site : Site} {outer : List Site}

/-- The layers of what a block sees are those of the blocks around it. -/
theorem describes_outer (reached : tree.Path (site :: outer)) {address : Nat}
    (called : address = site.start ∨ address = site.entry) :
    List.Forall₂ Site.Describes outer (site.outer address) := by
  generalize spelled : site :: outer = path at reached
  induction reached generalizing site outer address with
  | main =>
    cases spelled
    exact .nil
  | inner reached encloses ih =>
    cases spelled
    cases encloses with
    | child split =>
      have gives := Site.gives_routine (.child split) rfl called
      exact .cons ((Site.describes_nested split).declare gives) (ih (.inl rfl) rfl)

theorem describes (reached : tree.Path (site :: outer)) :
    List.Forall₂ Site.Describes (site :: outer) site.context :=
  .cons (Site.describes_nested (List.append_nil _).symm) (reached.describes_outer (.inr rfl))

/-- A block keeps the static rules in the context of its code, at whichever address it is called. -/
theorem wellFormed (reached : tree.Path (site :: outer)) (formed : tree.IsProgram) (address : Nat) :
    site.block.WellFormed (CodeContext.meanings (site.outer address)) site.owner := by
  generalize spelled : site :: outer = path at reached
  induction reached generalizing site outer address with
  | main =>
    cases spelled
    exact formed
  | @inner parent around child reached encloses ih =>
    cases spelled
    have around := ih parent.start rfl
    cases encloses with
    | @child before heading block after split =>
      obtain ⟨owner, ⟨constants, vars, subroutines, body⟩, start, outer⟩ := parent
      obtain rfl : subroutines = before ++ (heading, block) :: after := split
      obtain ⟨-, -, -, allFormed, -⟩ := around
      have layer := generateAll_map (outer start) (openingFrame owner constants vars) (start + 1) before
      rw [openingFrame_map] at layer
      have one := allFormed.split
      rw [← layer] at one
      exact one

theorem body_wellFormed (reached : tree.Path (site :: outer)) (formed : tree.IsProgram) :
    site.block.body.WellFormed site.context.meanings := by
  have around := reached.wellFormed formed site.entry
  obtain ⟨owner, ⟨constants, vars, subroutines, body⟩, start, outer⟩ := site
  obtain ⟨-, -, -, -, body⟩ := around
  have layer := generateAll_map (outer start) (openingFrame owner constants vars) (start + 1) subroutines
  rw [openingFrame_map] at layer
  rw [← layer] at body
  exact body

/-- The subroutines of a block have names of their own. -/
theorem names_nodup (reached : tree.Path (site :: outer)) (formed : tree.IsProgram) :
    (site.block.subroutines.map (·.1.name)).Nodup := by
  have around := reached.wellFormed formed site.start
  obtain ⟨owner, ⟨constants, vars, subroutines, body⟩, start, context⟩ := site
  exact (List.nodup_append.mp around.2.1).2.1

theorem length_le (reached : tree.Path (site :: outer)) (formed : tree.IsProgram) : outer.length ≤ maxLevel := by
  have around := reached.wellFormed formed site.start
  have length := (reached.describes_outer (.inl rfl)).length_eq
  obtain ⟨owner, ⟨constants, vars, subroutines, body⟩, start, context⟩ := site
  have low := around.1
  rw [CodeContext.meanings, Context.map, List.length_map, ← length] at low
  exact low

/-- What a name stands for is given by the block in which it is found. -/
theorem gives_of_find? (reached : tree.Path (site :: outer)) {name : String} {distance : Nat} {entry : Binding}
    {visible : CodeContext} (h : site.context.find? name = some ⟨distance, entry, visible⟩) :
    ∃ around, (site :: outer)[distance]? = some around ∧ around.Gives name entry := by
  obtain ⟨layer, atLayer, mem⟩ := Context.mem_of_find? h
  obtain ⟨around, atAround, described⟩ := exists_of_forall₂_getElem? reached.describes atLayer
  exact ⟨around, atAround, described.gives _ mem⟩

theorem at_distance {path : List Site} {around : Site} (reached : tree.Path path) {distance : Nat}
    (atAround : path[distance]? = some around) : tree.Path (around :: path.drop (distance + 1)) := by
  obtain ⟨inside, rfl⟩ := List.getElem?_eq_some_iff.mp atAround
  have further := reached.drop inside
  rwa [List.drop_eq_getElem_cons inside] at further

theorem encloses_at_distance {path : List Site} {around parent : Site} (reached : tree.Path path) {distance : Nat}
    (atAround : path[distance]? = some around) (atParent : path[distance + 1]? = some parent) :
    parent.Encloses around := by
  have further := reached.at_distance atAround
  obtain ⟨inside, rfl⟩ := List.getElem?_eq_some_iff.mp atParent
  rw [List.drop_eq_getElem_cons inside] at further
  cases further with
  | inner _ encloses => exact encloses

/-- A block around that bears the name of a function found just outside of it is the body of that function. -/
theorem function_of_find? (reached : tree.Path (site :: outer)) (formed : tree.IsProgram) {name : String}
    {distance arity address : Nat} {visible : CodeContext}
    (h : site.context.find? name = some ⟨distance + 1, .routine .function arity address, visible⟩)
    (marked : (site.context[distance]?).bind (·.mark) = some name) :
    ∃ around heading, (site :: outer)[distance]? = some around ∧ around.owner = some heading ∧
      heading.name = name ∧ heading.kind = .function := by
  obtain ⟨layer, atLayer, mark⟩ := Option.bind_eq_some_iff.mp marked
  obtain ⟨around, atAround, described⟩ := exists_of_forall₂_getElem? reached.describes atLayer
  obtain ⟨parent, atParent, inner, heading, encloses, owned, named, isFunction, -, -⟩ := reached.gives_of_find? h
  have bears := described.mark_eq.symm.trans mark
  obtain ⟨own, owner, sameName⟩ := Option.map_eq_some_iff.mp bears
  have distinct := (reached.at_distance atParent).names_nodup formed
  obtain rfl := Site.Encloses.heading_eq distinct encloses (reached.encloses_at_distance atAround atParent) owned owner
    (named.trans sameName.symm)
  exact ⟨around, heading, atAround, owner, named, isFunction⟩

end Path

end Block

end PLZero
