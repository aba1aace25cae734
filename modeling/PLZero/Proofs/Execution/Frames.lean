import Mathlib.Data.List.Pairwise
import PLZero.Proofs.Execution.Steps
import PLZero.Proofs.Generation.Shapes

namespace PLZero

/-- A place in the statement of a block, or just behind it, with the shape of the stack there. -/
def ShapeAt (site : Site) (outer : List Site) (address : Nat) (shape : Shape) : Prop :=
  ∃ front back, site.bodyCode = front ++ back ∧ address = site.entry + 1 + front.length ∧
    Straight (site :: outer) ⟨0, none⟩ front shape

/-- An activation of a block: the blocks around it, the base of its frame, and the base of the frame of an activation of
the block just around it. -/
structure Activation where
  site : Site
  outer : List Site
  base : Nat
  link : Nat

namespace Activation

def path (activation : Activation) : List Site :=
  activation.site :: activation.outer

/-- An activation lies as a whole under the frame of another and the arguments below that. -/
def Under (lower upper : Activation) : Prop :=
  lower.base + frameSize + lower.site.room + upper.site.arity ≤ upper.base

end Activation

/-- An activation that waits for a subroutine to return: the address at which it goes on, how many operands it keeps
meanwhile, and the number of the step that made the call. -/
structure Waiting extends Activation where
  back : Nat
  kept : Nat
  step : Nat

/-- The frames of all activations on the stack, the current one in front. -/
def frames (current : Activation) (callers : List Waiting) : List Activation :=
  current :: callers.map (·.toActivation)

/-- The frames on a stack. That of the main program is at the bottom. Each other one has a link to a frame below, the
base of the frame of its caller, and the address at which the caller goes on. -/
inductive Stacked (tree : Block) (words : List Int) : Activation → List Waiting → Prop
  | main : words[0]? = some 0 → words[1]? = some 0 → words[2]? = some 0 →
      Stacked tree words ⟨.main tree, [], 0, 0⟩ []
  | call {callee : Activation} {caller : Waiting} {callers : List Waiting} :
      Stacked tree words caller.toActivation callers → tree.Path callee.path →
      (∃ around ∈ frames caller.toActivation callers, around.path = callee.outer ∧ around.base = callee.link) →
      words[callee.base]? = some (callee.link : Int) → words[callee.base + 1]? = some (caller.base : Int) →
      words[callee.base + 2]? = some (caller.back : Int) →
      callee.base = caller.base + frameSize + caller.site.room + caller.kept + callee.site.arity →
      ShapeAt caller.site caller.outer caller.back ⟨caller.kept + callee.site.results, none⟩ →
      Stacked tree words callee (caller :: callers)

theorem Site.Writable.bounds {site : Site} {offset : Int} (writable : site.Writable offset) :
    -site.arity ≤ offset ∧ offset < 0 ∨ 3 ≤ offset ∧ offset < site.room := by
  cases writable with
  | slot slot =>
    cases slot with
    | parameter atIndex =>
      have inside := (List.getElem?_eq_some_iff.mp atIndex).1
      rw [Site.arity]
      exact .inl ⟨by omega, by omega⟩
    | «variable» atIndex =>
      have inside := (List.getElem?_eq_some_iff.mp atIndex).1
      rw [Site.room, frameSize]
      exact .inr ⟨by omega, by omega⟩
  | result owned isFunction =>
    rw [Site.room, frameSize, resultSlot]
    exact .inr ⟨by omega, by omega⟩

namespace Stacked

variable {tree : Block} {words : List Int} {current : Activation} {callers : List Waiting}

theorem path (stacked : Stacked tree words current callers) : tree.Path current.path := by
  cases stacked with
  | main => exact .main
  | call _ reached => exact reached

/-- The activations below one are those of its callers. -/
theorem of_mem (stacked : Stacked tree words current callers) {around : Activation}
    (mem : around ∈ frames current callers) :
    ∃ below, Stacked tree words around below ∧ frames around below <:+ frames current callers := by
  induction stacked with
  | main atLink atSaved atReturn =>
    obtain rfl := List.mem_singleton.mp mem
    exact ⟨[], .main atLink atSaved atReturn, List.suffix_refl _⟩
  | @call callee caller callers stacked reached around atLink atSaved atReturn base goesOn ih =>
    rcases List.mem_cons.mp mem with rfl | mem
    · exact ⟨_, .call stacked reached around atLink atSaved atReturn base goesOn, List.suffix_refl _⟩
    · obtain ⟨below, stacked, behind⟩ := ih mem
      exact ⟨below, stacked, behind.trans (List.suffix_cons _ _)⟩

/-- Each activation lies under those above it. -/
theorem pairwise (stacked : Stacked tree words current callers) :
    (frames current callers).Pairwise fun upper lower => lower.Under upper := by
  induction stacked with
  | main => exact List.pairwise_singleton _ _
  | @call callee caller callers _ _ _ _ _ _ base _ ih =>
    refine List.pairwise_cons.mpr ⟨?_, ih⟩
    have own : caller.toActivation.Under callee := by
      rw [Activation.Under]
      omega
    intro lower mem
    rcases List.mem_cons.mp mem with rfl | mem
    · exact own
    · have under := (List.pairwise_cons.mp ih).1 lower mem
      rw [Activation.Under] at under own ⊢
      omega

theorem apart (stacked : Stacked tree words current callers) {first second : Activation}
    (mem : first ∈ frames current callers) (also : second ∈ frames current callers) :
    first = second ∨ first.Under second ∨ second.Under first := by
  have related := stacked.pairwise
  have either : ∀ upper lower : Activation, lower.Under upper →
      upper = lower ∨ upper.Under lower ∨ lower.Under upper := fun _ _ under => .inr (.inr under)
  have flipped : ∀ upper lower : Activation, lower.Under upper →
      lower = upper ∨ lower.Under upper ∨ upper.Under lower := fun _ _ under => .inr (.inl under)
  exact List.Pairwise.forall_of_forall_of_flip (fun _ _ => .inl rfl) (related.imp (either _ _))
    (related.imp (flipped _ _)) mem also

/-- The frames below the current one lie under it. -/
theorem under_of_mem (stacked : Stacked tree words current callers) {lower : Activation}
    (mem : lower ∈ callers.map (·.toActivation)) : lower.Under current :=
  (List.pairwise_cons.mp stacked.pairwise).1 lower mem

/-- A word of a frame that code may change has an address on the stack, which is none of a link. -/
theorem slot_not_link (stacked : Stacked tree words current callers) {around lower : Activation} {offset : Int}
    (mem : around ∈ frames current callers) (writable : around.site.Writable offset)
    (also : lower ∈ frames current callers) {index : Nat} (isLink : index < 3) :
    (around.base : Int) + offset ≠ ↑(lower.base + index) := by
  have bounds := writable.bounds
  rcases stacked.apart mem also with rfl | under | under
  · omega
  · rw [Activation.Under] at under
    omega
  · rw [Activation.Under, frameSize] at under
    omega

theorem arity_le (stacked : Stacked tree words current callers) : current.site.arity ≤ current.base := by
  cases stacked with
  | main => exact Nat.le_refl _
  | call _ _ _ _ _ _ base => omega

/-- Each activation on the stack takes the words of its links and its result. -/
theorem length_lt (stacked : Stacked tree words current callers) :
    callers.length ≤ current.base ∧ current.base < words.length := by
  induction stacked with
  | main atLink => exact ⟨Nat.le_refl _, (List.getElem?_eq_some_iff.mp atLink).1⟩
  | call _ _ _ atLink _ _ base _ ih =>
    refine ⟨?_, (List.getElem?_eq_some_iff.mp atLink).1⟩
    rw [List.length_cons, base, frameSize]
    omega

theorem slot_lt (stacked : Stacked tree words current callers) {around : Activation} {offset : Int}
    (mem : around ∈ frames current callers) (writable : around.site.Writable offset) :
    ∃ address : Nat, (around.base : Int) + offset = address ∧ address < current.base + current.site.room := by
  obtain ⟨below, further, -⟩ := stacked.of_mem mem
  have arguments := further.arity_le
  have bounds := writable.bounds
  refine ⟨((around.base : Int) + offset).toNat, by omega, ?_⟩
  rcases List.mem_cons.mp mem with rfl | mem
  · omega
  · have under := stacked.under_of_mem mem
    rw [Activation.Under] at under
    omega

/-- Only the links matter. -/
theorem congr (stacked : Stacked tree words current callers) {changed : List Int}
    (same : ∀ around ∈ frames current callers, ∀ index < 3,
      changed[around.base + index]? = words[around.base + index]?) : Stacked tree changed current callers := by
  induction stacked with
  | main atLink atSaved atReturn =>
    have atBottom := same _ List.mem_cons_self
    exact .main ((atBottom 0 (by omega)).trans atLink) ((atBottom 1 (by omega)).trans atSaved)
      ((atBottom 2 (by omega)).trans atReturn)
  | call _ reached around atLink atSaved atReturn base goesOn ih =>
    have atTop := same _ List.mem_cons_self
    exact .call (ih fun around mem => same around (List.mem_cons_of_mem _ mem)) reached around
      ((atTop 0 (by omega)).trans atLink) ((atTop 1 (by omega)).trans atSaved) ((atTop 2 (by omega)).trans atReturn)
      base goesOn

/-- What lies above the links of the current frame does not matter. -/
theorem congr_of_lt (stacked : Stacked tree words current callers) {changed : List Int}
    (same : ∀ address < current.base + 3, changed[address]? = words[address]?) :
    Stacked tree changed current callers := by
  refine stacked.congr fun around mem index isLink => same _ ?_
  rcases List.mem_cons.mp mem with rfl | mem
  · omega
  · have under := stacked.under_of_mem mem
    rw [Activation.Under] at under
    omega

/-- The links lead from the current frame to an activation of each of the blocks around. -/
theorem chain (stacked : Stacked tree words current callers) {distance : Nat}
    (inside : distance < current.path.length) :
    ∃ around ∈ frames current callers, around.path = current.path.drop distance ∧
      MachineM.Chain words distance current.base around.base := by
  induction distance generalizing current callers with
  | zero => exact ⟨current, List.mem_cons_self, rfl, rfl⟩
  | succ distance ih =>
    cases stacked with
    | main => simp [Activation.path] at inside
    | @call _ caller callers stacked reached linked atLink =>
      obtain ⟨next, mem, path, base⟩ := linked
      obtain ⟨below, further, behind⟩ := stacked.of_mem mem
      have fewer : distance < next.path.length := by
        rw [path]
        simpa [Activation.path] using inside
      obtain ⟨around, among, atPath, chain⟩ := ih further fewer
      refine ⟨around, List.mem_cons_of_mem _ (behind.subset among), ?_, next.base, base ▸ atLink, chain⟩
      rw [atPath, path]
      rfl

end Stacked

end PLZero
