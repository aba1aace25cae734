import PLZero.Proofs.Execution.Cells
import PLZero.Proofs.Execution.Moments
import PLZero.Proofs.Meaning.Agreement

namespace PLZero

open MachineM

/-- The words that the names of a block and its result stand for are those of an activation. -/
structure Houses (stack : List Cell) (site : Site) (base activation : Nat) : Prop where
  slot : ∀ {name offset}, site.Slot name offset →
    ∃ address : Nat, (base : Int) + offset = address ∧ stack[address]? = some (.place (.variable activation name))
  result : stack[base + 3]? = some (.place (.result activation))

/-- The frames that the links lead to from a base are those of some blocks, innermost first, in given activations. -/
inductive Framed (stack : List Cell) : (base : Nat) → List Site → List Nat → Prop
  | nil {base} : Framed stack base [] []
  | cons {base site outer activation activations} {link : Nat} : Houses stack site base activation →
      stack[base]? = some (.word (link : Int)) → Framed stack link outer activations →
      Framed stack base (site :: outer) (activation :: activations)

variable {stack : List Cell} {store : Store} {site around : Site} {path outer : List Site} {base link activation : Nat}
  {activations : List Nat}

theorem Houses.append (houses : Houses stack site base activation) (more : List Cell) :
    Houses (stack ++ more) site base activation where
  slot at_ := by
    obtain ⟨address, same, held⟩ := houses.slot at_
    exact ⟨address, same, (List.getElem?_append_left (List.getElem?_eq_some_iff.mp held).1).trans held⟩
  result := (List.getElem?_append_left (List.getElem?_eq_some_iff.mp houses.result).1).trans houses.result

namespace Framed

theorem append (framed : Framed stack base path activations) (more : List Cell) :
    Framed (stack ++ more) base path activations := by
  induction framed with
  | nil => exact .nil
  | cons houses atLink _ ih =>
    exact .cons (houses.append more)
      ((List.getElem?_append_left (List.getElem?_eq_some_iff.mp atLink).1).trans atLink) ih

theorem innermost (framed : Framed stack base (site :: outer) (activation :: activations)) :
    Houses stack site base activation := by
  cases framed with
  | cons houses => exact houses

/-- Links are followed outward, whatever lies above the frames. -/
theorem drop (framed : Framed stack base path activations) {distance : Nat} (inside : distance ≤ path.length)
    (store : Store) (operands : List Int) :
    ∃ frame, Chain (wordsOf store stack ++ operands) distance base frame ∧
      Framed stack frame (path.drop distance) (activations.drop distance) := by
  induction distance generalizing base path activations with
  | zero => exact ⟨base, rfl, framed⟩
  | succ distance ih =>
    cases framed with
    | nil => simp at inside
    | @cons _ _ _ _ _ link _ atLink further =>
      obtain ⟨frame, chain, reached⟩ := ih further (Nat.le_of_succ_le_succ inside)
      have held := wordsOf_getElem? store atLink
      have below := (List.getElem?_eq_some_iff.mp held).1
      exact ⟨frame, ⟨link, (List.getElem?_append_left below).trans held, chain⟩, reached⟩

/-- The frame of a block around. -/
theorem houses (framed : Framed stack base path activations) {distance : Nat}
    (atAround : path[distance]? = some around) (store : Store) (operands : List Int) :
    ∃ frame mark, Chain (wordsOf store stack ++ operands) distance base frame ∧ activations[distance]? = some mark ∧
      Houses stack around frame mark := by
  obtain ⟨inside, rfl⟩ := List.getElem?_eq_some_iff.mp atAround
  obtain ⟨frame, chain, reached⟩ := framed.drop (Nat.le_of_lt inside) store operands
  rw [List.drop_eq_getElem_cons inside] at reached
  generalize spelled : activations.drop distance = marks at reached
  cases reached with
  | @cons _ _ _ mark _ _ houses =>
    have first := congrArg (·[0]?) spelled
    exact ⟨frame, mark, chain, by simpa using first, houses⟩

end Framed

/-- What is entered for a block: the links and the result lie behind the arguments. -/
theorem getElem?_links (stack junk : List Cell) (site : Site) (activation link saved back : Nat) {index : Nat}
    (isLink : index < 4) :
    (stack ++ (frameCells activation (Block.parametersOf site.owner) link saved back site.block.vars ++
        junk))[stack.length + site.arity + index]? =
      ([.word link, .word saved, .word back, .place (.result activation)] : List Cell)[index]? := by
  have arity : site.arity = (Block.parametersOf site.owner).length := rfl
  rw [Nat.add_assoc, List.getElem?_append_right (by omega), Nat.add_sub_cancel_left,
    List.getElem?_append_left (by simp; omega), frameCells, List.append_assoc,
    List.getElem?_append_right (by simp [arity]), List.length_map, arity, Nat.add_sub_cancel_left,
    List.getElem?_append_left isLink]

/-- What a block enters behind the arguments houses the activation. -/
theorem houses_frameCells (stack junk : List Cell) (site : Site) (activation link saved back : Nat) :
    Houses (stack ++ (frameCells activation (Block.parametersOf site.owner) link saved back site.block.vars ++ junk))
      site (stack.length + site.arity) activation := by
  have arity : site.arity = (Block.parametersOf site.owner).length := rfl
  constructor
  · intro name offset slot
    cases slot with
    | @parameter index atIndex =>
      have below := (List.getElem?_eq_some_iff.mp atIndex).1
      refine ⟨stack.length + index, by omega, ?_⟩
      rw [List.getElem?_append_right (by omega), Nat.add_sub_cancel_left, List.getElem?_append_left (by simp; omega),
        frameCells, List.append_assoc, List.getElem?_append_left (by simpa using below), List.getElem?_map, atIndex]
      rfl
    | @«variable» index atIndex =>
      have below := (List.getElem?_eq_some_iff.mp atIndex).1
      refine ⟨stack.length + ((Block.parametersOf site.owner).length + 4 + index), by rw [frameSize]; omega, ?_⟩
      rw [List.getElem?_append_right (by omega), Nat.add_sub_cancel_left, List.getElem?_append_left (by simp; omega),
        frameCells, List.getElem?_append_right (by simp)]
      simp [atIndex]
  · exact getElem?_links stack junk site activation link saved back (by omega)

/-- The frames after a block has been entered. -/
theorem Framed.enter (framed : Framed stack link outer activations) (junk : List Cell) (site : Site)
    (activation saved back : Nat) :
    Framed (stack ++ (frameCells activation (Block.parametersOf site.owner) link saved back site.block.vars ++ junk))
      (stack.length + site.arity) (site :: outer) (activation :: activations) := by
  have atLink := getElem?_links stack junk site activation link saved back (Nat.zero_lt_succ 3)
  exact .cons (houses_frameCells ..) atLink (framed.append _)

end PLZero
