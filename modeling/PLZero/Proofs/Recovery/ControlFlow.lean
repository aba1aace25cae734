import PLZero.Proofs.Recovery.LexicalScoping

namespace PLZero

/-- What is called lies within the regions. -/
theorem Regions.callable_bounds {calls : Int → Prop} {start : Nat} {code : List Instruction} {spans : List Span}
    (regions : Regions calls start code spans) {address : Int} (callable : Callable spans address) :
    (start : Int) ≤ address ∧ address < (start + code.length : Nat) := by
  obtain ⟨span, mem, atSpan⟩ := callable
  have bounds := regions.within span mem
  rcases atSpan with rfl | rfl <;> omega

/-- In a region that calls none but the blocks within it, nothing leads back to its start or out of it. -/
theorem Region.Framed.target_bounds {region : Region} {within : List Span} (framed : region.Framed (Callable within))
    (nested : Regions (Callable within) (region.start + 1) region.inner within) {i : Instruction}
    (mem : i ∈ region.code) {target : Int} (leads : i.LeadsTo target) :
    (region.start : Int) < target ∧ target ≤ region.last := by
  have inner : ∀ j ∈ region.inner, ∀ goal, j.LeadsTo goal →
      Callable within goal ∨ (region.start : Int) < goal ∧ goal < region.entry := by
    intro j inInner goal goes
    refine (nested.leadsTo j inInner goal goes).imp_right fun bounds => ?_
    rw [Region.entry]
    omega
  rcases framed.leadsTo inner mem leads with callable | bounds
  · have bounds := nested.callable_bounds callable
    have behind : region.start + 1 + region.inner.length ≤ region.last := by
      simp only [Region.last, Region.entry]
      omega
    omega
  · exact bounds

/-- Where the code of a program can go on, with or without errors in the program. The code is one region, with a region
for each block of a subroutine within. Jumps stay in the statement of their block, calls lead to subroutines, and each
leads behind the first instruction and not behind the last one. -/
theorem control_flow_integrity {depth : Nat} {source : String} (isWhole : (compile depth source).IsWhole) :
    ∃ (main : Region) (within : List Span), (compile depth source).code.toList = main.code ∧ main.start = 0 ∧
      main.leave.operation = .named .ret ∧ main.Framed (Callable within) ∧
      Regions (Callable within) (main.start + 1) main.inner within ∧
      ((Grammar.program depth).watched .start (.ofSource source)).finished = within ++ [main.span] ∧
      ∀ i ∈ (compile depth source).code, ∀ target, i.LeadsTo target →
        1 ≤ target ∧ target ≤ (compile depth source).code.size - 1 := by
  obtain ⟨draft, ran, compiled⟩ := isWhole.exists_run
  obtain ⟨-, main, within, finished, atStart, code_eq, isReturn, framed, nested⟩ :=
    (Grammar.program_heeds depth rfl rfl).of_run ran
  have spelled : (compile depth source).code.toList = main.code := by
    rw [compiled]
    exact code_eq
  have nested : Regions (Callable within) (main.start + 1) main.inner within := by rwa [atStart]
  refine ⟨main, within, spelled, atStart, isReturn, framed, nested, finished, fun i mem target leads => ?_⟩
  have bounds := framed.target_bounds nested (spelled ▸ Array.mem_toList_iff.mpr mem) leads
  have length := main.length_code
  rw [← spelled, Array.length_toList] at length
  omega

/-- The second procedure has a region also though its name is taken. -/
theorem muddledSource_control_flow :
    ∃ (main : Region) (within : List Span), (compile maxNesting muddledSource).code.toList = main.code ∧
      main.Framed (Callable within) ∧ Regions (Callable within) (main.start + 1) main.inner within ∧
      within = [⟨1, 2, 5⟩, ⟨6, 7, 8⟩] ∧ main.span = ⟨0, 9, 19⟩ := by
  obtain ⟨main, within, spelled, -, -, framed, nested, finished, -⟩ := control_flow_integrity muddledSource_isWhole
  have spans : ((Grammar.program maxNesting).watched .start (.ofSource muddledSource)).finished =
      [⟨1, 2, 5⟩, ⟨6, 7, 8⟩] ++ [⟨0, 9, 19⟩] := by decide +kernel
  obtain ⟨inner, last⟩ := List.append_inj' (finished.symm.trans spans) rfl
  exact ⟨main, within, spelled, framed, nested, inner, List.singleton_inj.mp last⟩

end PLZero
