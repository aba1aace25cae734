import PLZero.Proofs.Scoping.WellFormed
import PLZero.Proofs.Tree.Derivation

namespace PLZero

namespace Statement

/-- A statement with an `else` behind it that goes to the last `if` without one. -/
def withElse : Statement → Statement → Statement
  | .ifThen condition consequent, alternative =>
    if consequent.isOpen then .ifThen condition (consequent.withElse alternative)
    else .ifElse condition consequent alternative
  | .ifElse condition consequent last, alternative => .ifElse condition consequent (last.withElse alternative)
  | .whileDo condition body, alternative => .whileDo condition (body.withElse alternative)
  | s, _ => s

/-- The same statement with every `else` given to the nearest `if` before it that has none. -/
def settled : Statement → Statement
  | .sequence first rest => .sequence first.settled rest.settled
  | .compound body => .compound body.settled
  | .ifThen condition consequent => .ifThen condition consequent.settled
  | .ifElse condition consequent alternative =>
    if consequent.settled.isOpen then .ifThen condition (consequent.settled.withElse alternative.settled)
    else .ifElse condition consequent.settled alternative.settled
  | .whileDo condition body => .whileDo condition body.settled
  | .repeatUntil body condition => .repeatUntil body.settled condition
  | s => s

theorem withElse_nearest {s alternative : Statement} (isOpen : s.isOpen) (nearest : s.NearestElse)
    (other : alternative.NearestElse) : (s.withElse alternative).NearestElse := by
  induction s with
  | ifThen condition consequent ih =>
    rw [withElse]
    by_cases inner : consequent.isOpen
    · simpa [inner, NearestElse] using ih inner nearest
    · simpa [inner, NearestElse] using ⟨nearest, other⟩
  | ifElse condition consequent last _ ih =>
    rw [NearestElse] at nearest
    exact ⟨nearest.1, nearest.2.1, ih isOpen nearest.2.2⟩
  | whileDo condition body ih => exact ih isOpen nearest
  | _ => simp [Statement.isOpen] at isOpen

theorem settled_nearest (s : Statement) : s.settled.NearestElse := by
  induction s with
  | sequence first rest ihFirst ihRest => exact ⟨ihFirst, ihRest⟩
  | compound body ih => exact ih
  | ifThen condition consequent ih => exact ih
  | ifElse condition consequent alternative ihConsequent ihAlternative =>
    rw [settled]
    by_cases inner : consequent.settled.isOpen
    · simpa [inner, NearestElse] using withElse_nearest inner ihConsequent ihAlternative
    · simpa [inner, NearestElse] using ⟨ihConsequent, ihAlternative⟩
  | whileDo condition body ih => exact ih
  | repeatUntil body condition ih => exact ih
  | _ => trivial

theorem WellFormed.withElse {context : StaticContext} {s alternative : Statement} (formed : s.WellFormed context)
    (other : alternative.WellFormed context) : (s.withElse alternative).WellFormed context := by
  induction formed with
  | ifThen test _ ih =>
    rw [Statement.withElse]
    split
    · exact .ifThen test ih
    · exact .ifElse test ‹_› other
  | ifElse test first _ _ ih => exact .ifElse test first ih
  | whileDo test _ ih => exact .whileDo test ih
  | empty => exact .empty
  | assignment atName value => exact .assignment atName value
  | result atName owned value => exact .result atName owned value
  | call atName arguments => exact .call atName arguments
  | sequence first rest => exact .sequence first rest
  | compound body => exact .compound body
  | repeatUntil body test => exact .repeatUntil body test

theorem WellFormed.settled {context : StaticContext} {s : Statement} (formed : s.WellFormed context) :
    s.settled.WellFormed context := by
  induction formed with
  | ifThen test _ ih => exact .ifThen test ih
  | ifElse test _ _ ihConsequent ihAlternative =>
    rw [Statement.settled]
    split
    · exact .ifThen test (ihConsequent.withElse ihAlternative)
    · exact .ifElse test ihConsequent ihAlternative
  | whileDo test _ ih => exact .whileDo test ih
  | empty => exact .empty
  | assignment atName value => exact .assignment atName value
  | result atName owned value => exact .result atName owned value
  | call atName arguments => exact .call atName arguments
  | sequence _ _ ihFirst ihRest => exact .sequence ihFirst ihRest
  | compound _ ih => exact .compound ih
  | repeatUntil _ test ih => exact .repeatUntil ih test

theorem Derives.withElse {s alternative : Statement} {form : StatementForm} {ts us : List Token}
    (derived : Derives form ts s) (single : form = .single) (isOpen : s.isOpen)
    (other : Derives .single us alternative) :
    Derives .single (ts ++ .fixed .elseKw :: us) (s.withElse alternative) := by
  induction derived with
  | ifThen test inside ih =>
    rw [Statement.withElse]
    split
    · rename_i inner
      simpa using Derives.ifThen test (ih rfl inner)
    · simpa using Derives.ifElse test inside other
  | ifElse test first _ _ ih => simpa [Statement.withElse] using Derives.ifElse test first (ih rfl isOpen)
  | whileDo test _ ih => simpa [Statement.withElse] using Derives.whileDo test (ih rfl isOpen)
  | last | sequence => cases single
  | _ => simp [Statement.isOpen] at isOpen

/-- The tokens do not tell to which `if` an `else` belongs. -/
theorem Derives.settled {s : Statement} {form : StatementForm} {ts : List Token} (derived : Derives form ts s) :
    Derives form ts s.settled := by
  induction derived with
  | ifThen test _ ih => exact .ifThen test ih
  | ifElse test _ _ ihConsequent ihAlternative =>
    rw [Statement.settled]
    split
    · rename_i inner
      simpa using Derives.ifThen test (ihConsequent.withElse rfl inner ihAlternative)
    · exact .ifElse test ihConsequent ihAlternative
  | whileDo test _ ih => exact .whileDo test ih
  | empty => exact .empty
  | assignment value => exact .assignment value
  | call arguments => exact .call arguments
  | compound _ ih => exact .compound ih
  | repeatUntil _ test ih => exact .repeatUntil ih test
  | last _ ih => exact .last ih
  | sequence _ _ ihFirst ihRest => exact .sequence ihFirst ihRest

end Statement

namespace Block

mutual

/-- The same block with every `else` given to the nearest `if`. -/
def settled : Block → Block
  | .mk constants vars subroutines body => .mk constants vars (allSettled subroutines) body.settled

def allSettled : List (Heading × Block) → List (Heading × Block)
  | [] => []
  | (heading, block) :: rest => (heading, settled block) :: allSettled rest

end

theorem allSettled_eq_map (subroutines : List (Heading × Block)) :
    allSettled subroutines = subroutines.map fun s => (s.1, s.2.settled) := by
  induction subroutines with
  | nil => rfl
  | cons first rest ih => rw [allSettled, ih, List.map_cons]

theorem settled_nearest (block : Block) : block.settled.NearestElse := by
  induction block with
  | mk constants vars subroutines body ih =>
    rw [settled, allSettled_eq_map]
    exact .mk (List.forall_mem_map.mpr ih) body.settled_nearest

theorem Derives.settled {ts : List Token} {block : Block} (derived : Derives ts block) : Derives ts block.settled := by
  induction derived with
  | @mk constants vars subroutines us body derivedConstants _ derivedBody ih =>
    let settledParts := subroutines.map fun s => (s.1, s.2.1, s.2.2.settled)
    have sameTokens : subroutinePart settledParts = subroutinePart subroutines := by
      simp [settledParts, subroutinePart, List.flatMap_map]
    have sameParts : settledParts.map (·.2) = allSettled (subroutines.map (·.2)) := by
      simp [settledParts, allSettled_eq_map]
    rw [Block.settled, ← sameParts, ← sameTokens]
    exact .mk derivedConstants (List.forall_mem_map.mpr ih) derivedBody.settled

theorem DerivesProgram.settled {tokens : List Token} {block : Block} (derived : block.DerivesProgram tokens) :
    block.settled.DerivesProgram tokens := by
  obtain ⟨ts, derived, rfl⟩ := derived
  exact ⟨ts, derived.settled, rfl⟩

theorem WellFormed.settled {outer : StaticContext} {owner : Option Heading} {block : Block}
    (formed : block.WellFormed outer owner) : block.settled.WellFormed outer owner := by
  induction block generalizing outer owner with
  | mk constants vars subroutines body ih =>
    have all : ∀ (subs : List (Heading × Block)) (layer : Layer (Option String) Meaning), (∀ s ∈ subs, s ∈ subroutines) →
        AllWellFormed outer layer subs → AllWellFormed outer layer (allSettled subs) := by
      intro subs
      induction subs with
      | nil => exact fun _ _ formed => formed
      | cons first rest ihRest =>
        intro layer among formed
        obtain ⟨heading, block⟩ := first
        rw [AllWellFormed] at formed
        rw [allSettled, AllWellFormed]
        exact ⟨ih (heading, block) (among _ List.mem_cons_self) formed.1,
          ihRest _ (fun s hs => among s (List.mem_cons_of_mem _ hs)) formed.2⟩
    rw [WellFormed] at formed
    obtain ⟨depth, distinct, small, subsFormed, bodyFormed⟩ := formed
    rw [Block.settled, WellFormed]
    refine ⟨depth, ?_, small, all subroutines _ (fun _ hs => hs) subsFormed, ?_⟩
    · simpa [allSettled_eq_map, Function.comp_def] using distinct
    · simpa [allSettled_eq_map, Function.comp_def] using bodyFormed.settled

end Block

end PLZero
