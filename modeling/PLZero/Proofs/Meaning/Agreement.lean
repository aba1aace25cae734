import PLZero.Proofs.Generation.Scopes
import PLZero.Proofs.Meaning.Evaluation

namespace PLZero

theorem Layer.find?_rel {First Second : Type} {R : String → First → Second → Prop} {first : List (String × First)}
    {second : List (String × Second)} (all : List.Forall₂ (fun a b => a.1 = b.1 ∧ R a.1 a.2 b.2) first second)
    (name : String) : Option.Rel (fun a b => R name a.1 b.1) (find? name first) (find? name second) := by
  induction all with
  | nil => exact .none
  | @cons a b _ _ related _ ih =>
    obtain ⟨other, entry⟩ := a
    obtain ⟨_, declared⟩ := b
    obtain ⟨rfl, related⟩ := related
    by_cases same : other = name
    · subst same
      simpa only [find?, if_true] using .some related
    · simpa only [find?, if_neg same] using ih

namespace Context

variable {Mark Entry : Type}

def marks (context : Context Mark Entry) : List Mark :=
  List.map (·.mark) context

/-- A declaration sees the blocks from its own on. -/
theorem marks_visible {context : Context Mark Entry} {name : String} {found : Found Mark Entry}
    (h : context.find? name = some found) : found.visible.marks = context.marks.drop found.distance := by
  induction context generalizing found with
  | nil => simp [find?] at h
  | cons layer outer ih =>
    rw [find?] at h
    split at h
    · cases h
      rfl
    · obtain ⟨further, atOuter, rfl⟩ := Option.map_eq_some_iff.mp h
      exact ih atOuter

end Context

namespace Environment

variable {environment visible : Environment} {name : String} {distance mark : Nat} {store : Store}

theorem value_constant {value : Nat} (found : environment.find? name = some ⟨distance, .constant value, visible⟩) :
    (environment.value name).run store = .ok ((value : Int), store) := by
  rw [Environment.value, found]
  rfl

theorem value_variable (found : environment.find? name = some ⟨distance, .variable, visible⟩)
    (atFront : visible.marks.head? = some mark) :
    (environment.value name).run store = .ok (store.values (.variable mark name), store) := by
  cases visible with
  | nil => cases atFront
  | cons layer outer =>
    cases atFront
    rw [Environment.value, found]
    rfl

theorem target?_variable (found : environment.find? name = some ⟨distance, .variable, visible⟩)
    (atFront : visible.marks.head? = some mark) : environment.target? name = some (.variable mark name) := by
  cases visible with
  | nil => cases atFront
  | cons layer outer =>
    cases atFront
    rw [target?, found]

theorem target?_result {heading : Heading} {block : Block}
    (found : environment.find? name = some ⟨distance + 1, .routine heading block, visible⟩)
    (atMark : environment.marks[distance]? = some mark) : environment.target? name = some (.result mark) := by
  rw [Context.marks, List.getElem?_map] at atMark
  obtain ⟨layer, atLayer, rfl⟩ := Option.map_eq_some_iff.mp atMark
  rw [target?, found]
  exact congrArg (Option.map _) atLayer

theorem assign_target {place : Place} {value : Int} (target : environment.target? name = some place) :
    (environment.assign name value).run store = .ok ((), store.write place value) := by
  rw [assign, target]
  rfl

theorem invoke_routine {call : Caller} {heading : Heading} {block : Block} {arguments : List Int}
    (found : environment.find? name = some ⟨distance, .routine heading block, visible⟩) :
    environment.invoke call name arguments = call visible heading block arguments := by
  rw [invoke, found]

end Environment

namespace Site

variable (site : Site)

/-- What is declared in the block in front of its subroutines and by some of them, the latest first. -/
def declared (subroutines : List (Heading × Block)) : List (String × Declaration) :=
  (Block.declarations site.owner (.mk site.block.constants site.block.vars subroutines site.block.body)).reverse

/-- What a name of the block stands for in code and while the program runs. A subroutine is called together with what
is declared up to it. -/
inductive Denotes (name : String) : Binding → Declaration → List (String × Declaration) → Prop
  | constant {value older} : Denotes name (.constant value) (.constant value) older
  | variable {offset older} : site.Slot name offset → Denotes name (.variable offset) .variable older
  | routine {before heading block after address} : site.block.subroutines = before ++ (heading, block) :: after →
      heading.name = name →
      address = (site.child before heading block).start ∨ address = (site.child before heading block).entry →
      Denotes name (heading.binding address) (.routine heading block) (site.declared (before ++ [(heading, block)]))

theorem declared_append (before : List (Heading × Block)) (heading : Heading) (block : Block) :
    site.declared (before ++ [(heading, block)]) =
      (heading.name, .routine heading block) :: site.declared before := by
  simp [declared, Block.declarations, Block.subroutines, Block.constants, Block.vars]

theorem environment_eq (outer : Environment) (activation : Nat) :
    site.block.environment outer site.owner activation =
      ⟨activation, site.declared site.block.subroutines⟩ :: outer := by
  obtain ⟨owner, ⟨constants, vars, subroutines, body⟩, start, context⟩ := site
  have entries := Layer.declareAll_entries (⟨activation, []⟩ : Layer Nat Declaration)
    (Block.declarations owner (.mk constants vars subroutines body))
  have mark := Layer.declareAll_mark (⟨activation, []⟩ : Layer Nat Declaration)
    (Block.declarations owner (.mk constants vars subroutines body))
  rw [List.append_nil] at entries
  rw [Block.environment]
  cases opened : (⟨activation, []⟩ : Layer Nat Declaration).declareAll
    (Block.declarations owner (.mk constants vars subroutines body))
  rw [opened] at entries mark
  exact congrArg₂ (fun mark entries => ⟨mark, entries⟩ :: outer) mark entries

@[simp] theorem marks_environment (outer : Environment) (activation : Nat) :
    (site.block.environment outer site.owner activation).marks = activation :: outer.marks := by
  rw [environment_eq]
  rfl

variable {site}

/-- An entry of a layer stands for what a declaration says, whatever was declared before. -/
def Pairs (site : Site) (entry : String × Binding) (declared : String × Declaration) : Prop :=
  entry.1 = declared.1 ∧ ∀ older, site.Denotes entry.1 entry.2 declared.2 older

theorem pairs_opening :
    List.Forall₂ site.Pairs (Block.openingBindings site.owner site.block.constants site.block.vars)
      (Block.declarations site.owner (.mk site.block.constants site.block.vars [] site.block.body)) := by
  have parameters : List.Forall₂ site.Pairs
      ((Block.parametersOf site.owner).zipIdx.map fun p => (p.1, .variable ((p.2 : Int) - site.arity)))
      ((Block.parametersOf site.owner).map (·, .variable)) := by
    refine List.forall₂_iff_get.mpr ⟨by simp, fun index below _ => ?_⟩
    have inside : index < (Block.parametersOf site.owner).length := by simpa using below
    simpa [Pairs] using fun _ => Denotes.variable (.parameter (List.getElem?_eq_getElem inside))
  have constants : List.Forall₂ site.Pairs (site.block.constants.map fun c => (c.1, .constant c.2))
      (site.block.constants.map fun c => (c.1, .constant c.2)) := by
    refine List.forall₂_iff_get.mpr ⟨by simp, fun index _ _ => ?_⟩
    simpa [Pairs] using fun _ => Denotes.constant
  have vars : List.Forall₂ site.Pairs ((site.block.vars.zipIdx frameSize).map fun v => (v.1, .variable v.2))
      (site.block.vars.map (·, .variable)) := by
    refine List.forall₂_iff_get.mpr ⟨by simp, fun index below _ => ?_⟩
    have inside : index < site.block.vars.length := by simpa using below
    simpa [Pairs] using fun _ => Denotes.variable (.variable (List.getElem?_eq_getElem inside))
  have all := List.rel_append (List.rel_append parameters constants) vars
  rw [Block.declarations, Block.subroutines, List.map_nil, List.append_nil]
  exact all

/-- What a name stands for in the layer of a block, if anything, and what was declared up to it. -/
abbrev Tells (site : Site) (name : String) (bindings : List (String × Binding))
    (declarations : List (String × Declaration)) : Prop :=
  Option.Rel (fun found seen => site.Denotes name found.1 seen.1 seen.2) (Layer.find? name bindings)
    (Layer.find? name declarations)

theorem tells_opening (name : String) : site.Tells name (site.nested []).1.entries (site.declared []) := by
  have related := Layer.find?_rel (R := fun name binding declared => ∀ older, site.Denotes name binding declared older)
    (List.forall₂_reverse_iff.mpr pairs_opening) name
  have entries : (site.nested []).1.entries =
      (Block.openingBindings site.owner site.block.constants site.block.vars).reverse := by
    simp [nested, Block.generateAll, Block.openingFrame, Layer.declareAll_entries]
  rw [Tells, entries, declared]
  generalize Layer.find? name (Block.openingBindings ..).reverse = found at related ⊢
  generalize Layer.find? name (Block.declarations ..).reverse = seen at related ⊢
  cases related with
  | none => exact .none
  | some related => exact .some (related _)

/-- A subroutine that is declared next is found first, wherever it is called. -/
theorem Tells.declare {name : String} {before after : List (Heading × Block)} {heading : Heading} {block : Block}
    {address : Nat} (tells : site.Tells name (site.nested before).1.entries (site.declared before))
    (split : site.block.subroutines = before ++ (heading, block) :: after)
    (called : address = (site.child before heading block).start ∨ address = (site.child before heading block).entry) :
    site.Tells name ((site.nested before).1.declare heading.name (heading.binding address)).entries
      (site.declared (before ++ [(heading, block)])) := by
  have next := site.declared_append before heading block
  by_cases same : heading.name = name
  · have denotes := Denotes.routine split same called
    rw [next] at denotes
    simpa only [Tells, Layer.declare, next, Layer.find?, if_pos same] using .some denotes
  · simpa only [Tells, Layer.declare, next, Layer.find?, if_neg same] using tells

theorem tells_nested {before after : List (Heading × Block)} (split : site.block.subroutines = before ++ after)
    (name : String) : site.Tells name (site.nested before).1.entries (site.declared before) := by
  induction before using List.reverseRecOn generalizing after with
  | nil => exact tells_opening name
  | append_singleton before subroutine ih =>
    obtain ⟨heading, block⟩ := subroutine
    rw [List.append_assoc] at split
    have last : (site.nested (before ++ [(heading, block)])).1 =
        (site.nested before).1.declare heading.name (heading.binding (site.child before heading block).entry) := by
      simp only [nested, Block.generateAll_append, Block.generateAll, generate_eq]
      rfl
    rw [last]
    exact (ih split).declare split (.inr rfl)

end Site

/-- What a block sees around it while the program runs: the blocks around, each in one of its activations, with what is
declared there up to the block. -/
inductive Sees (tree : Block) : List Site → Environment → Prop
  | main : Sees tree [.main tree] []
  | inner {site outer environment activation before heading block after} : Sees tree (site :: outer) environment →
      site.block.subroutines = before ++ (heading, block) :: after →
      Sees tree (site.child before heading block :: site :: outer)
        (⟨activation, site.declared (before ++ [(heading, block)])⟩ :: environment)

/-- What a name stands for in the code of a block and while the program runs: the same constant, a variable of a block
around, or the same subroutine, which sees what was declared up to it. -/
inductive Means (tree : Block) (path : List Site) (name : String) (distance : Nat) :
    Binding → Declaration → Environment → Prop
  | constant {value visible} : Means tree path name distance (.constant value) (.constant value) visible
  | variable {around offset visible} : path[distance]? = some around → around.Slot name offset →
      Means tree path name distance (.variable offset) .variable visible
  | routine {inner heading address visible} : Sees tree (inner :: path.drop distance) visible →
      inner.owner = some heading → address = inner.start ∨ address = inner.entry →
      Means tree path name distance (heading.binding address) (.routine heading inner.block) visible

/-- A name is found at one distance, in code and while the program runs, and stands for the same. -/
abbrev Matches (tree : Block) (path : List Site) (name : String) (context : CodeContext) (environment : Environment) :
    Prop :=
  Option.Rel (fun found seen => found.distance = seen.distance ∧
    Means tree path name found.distance found.entry seen.entry seen.visible) (context.find? name)
    (environment.find? name)

namespace Sees

variable {tree : Block} {site : Site} {outer : List Site} {environment : Environment} {name : String}

theorem path {path : List Site} (sees : Sees tree path environment) : tree.Path path := by
  induction sees with
  | main => exact .main
  | inner _ split ih => exact .inner ih (.child split)

theorem length_eq (sees : Sees tree (site :: outer) environment) : environment.length = outer.length := by
  generalize spelled : site :: outer = path at sees
  induction sees generalizing site outer with
  | main =>
    cases spelled
    rfl
  | inner _ _ ih =>
    cases spelled
    exact congrArg (· + 1) (ih rfl)

/-- Each of the blocks around is seen in an activation. -/
theorem exists_mark (sees : Sees tree (site :: outer) environment) (activation : Nat) {distance : Nat} {other : Site}
    (atOther : (site :: outer)[distance]? = some other) :
    ∃ mark, (activation :: environment.marks)[distance]? = some mark := by
  have inside := (List.getElem?_eq_some_iff.mp atOther).1
  rw [List.length_cons, ← sees.length_eq] at inside
  exact ⟨_, List.getElem?_eq_getElem (by simpa [Context.marks] using inside)⟩

/-- The layer of a block in front of what matches around it. -/
theorem matches_cons (sees : Sees tree (site :: outer) environment) {layer : Layer (Option String) Binding}
    {context : CodeContext} {declarations : List (String × Declaration)} {activation : Nat}
    (tells : site.Tells name layer.entries declarations) (around : Matches tree outer name context environment) :
    Matches tree (site :: outer) name (layer :: context) (⟨activation, declarations⟩ :: environment) := by
  rw [Site.Tells] at tells
  rw [Matches] at around ⊢
  simp only [Context.find?]
  generalize Layer.find? name layer.entries = found at tells ⊢
  generalize Layer.find? name declarations = seen at tells ⊢
  cases tells with
  | @some found seen denotes =>
    obtain ⟨binding, _⟩ := found
    obtain ⟨declaration, older⟩ := seen
    refine .some ⟨rfl, ?_⟩
    cases denotes with
    | constant => exact .constant
    | «variable» slot => exact .variable rfl slot
    | routine split _ called => exact .routine (.inner sees split) rfl called
  | none =>
    generalize Context.find? name context = found at around ⊢
    generalize Context.find? name environment = seen at around ⊢
    cases around with
    | none => exact .none
    | @some found seen related =>
      obtain ⟨distance, binding, _⟩ := found
      obtain ⟨_, declaration, visible⟩ := seen
      obtain ⟨rfl, means⟩ := related
      refine .some ⟨rfl, ?_⟩
      cases means with
      | constant => exact .constant
      | «variable» atAround slot => exact .variable atAround slot
      | routine inner owned called => exact .routine inner owned called

theorem matches_outer (sees : Sees tree (site :: outer) environment) {address : Nat}
    (called : address = site.start ∨ address = site.entry) :
    Matches tree outer name (site.outer address) environment := by
  generalize spelled : site :: outer = path at sees
  induction sees generalizing site outer address with
  | main =>
    cases spelled
    exact .none
  | inner sees split ih =>
    cases spelled
    exact sees.matches_cons ((Site.tells_nested split name).declare split called) (ih (.inl rfl) rfl)

/-- What a name stands for in the statement of a block. -/
theorem means (sees : Sees tree (site :: outer) environment) (activation : Nat) {found : Found (Option String) Binding}
    (atName : site.context.find? name = some found) :
    ∃ declaration visible,
      (site.block.environment environment site.owner activation).find? name =
        some ⟨found.distance, declaration, visible⟩ ∧
      visible.marks = (activation :: environment.marks).drop found.distance ∧
      Means tree (site :: outer) name found.distance found.entry declaration visible := by
  have both : Matches tree (site :: outer) name site.context
      (site.block.environment environment site.owner activation) := by
    rw [site.environment_eq]
    exact sees.matches_cons (Site.tells_nested (List.append_nil _).symm name) (sees.matches_outer (.inr rfl))
  rw [Matches, atName] at both
  generalize spelled : Context.find? name (site.block.environment environment site.owner activation) = seen at both
  cases both with
  | @some _ seen related =>
    obtain ⟨distance, means⟩ := related
    have marks := Context.marks_visible spelled
    rw [site.marks_environment, ← distance] at marks
    refine ⟨seen.entry, seen.visible, ?_, marks, means⟩
    rw [distance]

end Sees

end PLZero
