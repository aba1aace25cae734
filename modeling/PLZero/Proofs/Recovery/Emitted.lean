import PLZero.Proofs.Recovery.Endings

/-!
The instructions of a compilation, also of one with errors: each is for an opcode, and where the opcode does without a
level or a value, there is none. Such instructions are emitted, and what is filled in later is a value of a jump.
-/

namespace PLZero

/-- An instruction for an opcode, with zero in the fields that the opcode does without. -/
def Instruction.IsTidy (instruction : Instruction) : Prop :=
  ∃ op, instruction.operation = .named op ∧ (op.operands ≠ .levelAndValue → instruction.level.val = 0) ∧
    (op.operands = .none → instruction.value = 0)

theorem Instruction.IsTidy.of_emitted {op : Opcode} {level value : Int} {instruction : Instruction}
    (isOrderly : (Request.emit op level value).IsOrderly)
    (made : ofLevel (.named op) (min level maxLevel) value = .ok instruction) : instruction.IsTidy := by
  obtain ⟨operation, isValue⟩ := ofLevel_eq_ok made
  rw [Request.IsOrderly] at isOrderly
  refine ⟨op, operation, fun noLevel => ?_, fun noValue => ?_⟩
  · have atZero : level = 0 := by
      cases uses : op.operands with
      | none =>
        rw [uses] at isOrderly
        exact isOrderly.1
      | value =>
        rw [uses] at isOrderly
        exact isOrderly
      | levelAndValue => exact absurd uses noLevel
    subst atZero
    cases (ofLevel_zero op value).symm.trans made
    rfl
  · rw [noValue] at isOrderly
    exact isValue.trans isOrderly.2

theorem Instruction.IsTidy.fields {op : Opcode} {instruction : Instruction} (tidy : instruction.IsTidy)
    (isOp : instruction.operation = .named op) :
    (op.operands ≠ .levelAndValue → instruction.level.val = 0) ∧ (op.operands = .none → instruction.value = 0) := by
  obtain ⟨other, isOther, fields⟩ := tidy
  cases isOp.symm.trans isOther
  exact fields

/-- A jump has a value, which may be any. -/
theorem Instruction.IsTidy.fill {instruction : Instruction} (tidy : instruction.IsTidy) (isJump : instruction.IsJump)
    (value : Int) : { instruction with value }.IsTidy := by
  obtain ⟨op, operation, noLevel, -⟩ := tidy
  have takesValue : op.operands = .value := by
    rcases isJump with jump | jump <;> cases jump.symm.trans operation <;> rfl
  exact ⟨op, operation, noLevel, fun none => nomatch takesValue.symm.trans none⟩

namespace Draft

/-- The instructions of a draft are still there, but for their fields. -/
def GrowsTo (draft after : Draft) : Prop :=
  ∀ (address : Nat) (instruction : Instruction), draft.code[address]? = some instruction →
    ∃ filled : Instruction, after.code[address]? = some filled ∧ filled.operation = instruction.operation

def IsTidy (draft : Draft) : Prop :=
  ∀ instruction ∈ draft.code, instruction.IsTidy

def HasJump (draft : Draft) (address : Nat) : Prop :=
  ∃ instruction : Instruction, draft.code[address]? = some instruction ∧ instruction.IsJump

theorem GrowsTo.trans {draft between after : Draft} (first : draft.GrowsTo between) (second : between.GrowsTo after) :
    draft.GrowsTo after := by
  intro address instruction found
  obtain ⟨filled, foundBetween, sameFilled⟩ := first address instruction found
  obtain ⟨last, foundAfter, sameLast⟩ := second address filled foundBetween
  exact ⟨last, foundAfter, sameLast.trans sameFilled⟩

theorem GrowsTo.of_code {draft after : Draft} (same : after.code = draft.code) : draft.GrowsTo after :=
  fun _ instruction found => ⟨instruction, same ▸ found, rfl⟩

theorem IsTidy.of_code {draft after : Draft} (tidy : draft.IsTidy) (same : after.code = draft.code) : after.IsTidy :=
  fun instruction mem => tidy instruction (same ▸ mem)

end Draft

namespace Request

variable {request : Request} {draft : Draft}

/-- A request that does not concern the code. -/
def SparesCode : Request → Prop
  | emit .. | patch .. => False
  | _ => True

theorem left_code (spares : request.SparesCode) : (Draft.left (request.perform draft)).code = draft.code := by
  cases request with
  | emit op level value => exact spares.elim
  | patch position target => exact spares.elim
  | advance =>
    exact Draft.left_advanceTo (fun after => after.code = draft.code) rfl (fun _ _ _ _ same => same)
      (fun _ _ same => same) rfl
  | purge level =>
    obtain ⟨journal, purged⟩ := draft.purge_eq level
    exact congrArg (fun result => (Draft.left result).code) purged
  | _ => rfl

theorem left_emit (op : Opcode) (level value : Int) (draft : Draft) :
    (Draft.left ((emit op level value).perform draft)).code = draft.code ∨ ∃ instruction : Instruction,
      Instruction.ofLevel (.named op) (min level maxLevel) value = .ok instruction ∧
        (Draft.left ((emit op level value).perform draft)).code = draft.code.push instruction := by
  simp only [perform, Draft.emit]
  cases made : Instruction.ofLevel (.named op) (min level maxLevel) value with
  | ok instruction => exact .inr ⟨instruction, rfl, rfl⟩
  | error error => exact .inl rfl

theorem left_patch (position target : Nat) (draft : Draft) :
    (Draft.left ((patch position target).perform draft)).code =
      draft.code.modify position fun instruction => { instruction with value := target } :=
  rfl

theorem growsTo (request : Request) (draft : Draft) : draft.GrowsTo (Draft.left (request.perform draft)) := by
  cases request with
  | emit op level value =>
    rcases left_emit op level value draft with same | ⟨instruction, -, pushed⟩
    · exact .of_code same
    · intro address old found
      refine ⟨old, ?_, rfl⟩
      have below := (Array.getElem?_eq_some_iff.mp found).1
      rw [pushed, Array.getElem?_push, if_neg (Nat.ne_of_lt below), found]
  | patch position target =>
    intro address old found
    rw [left_patch, Array.getElem?_modify, found]
    split
    · exact ⟨_, rfl, rfl⟩
    · exact ⟨_, rfl, rfl⟩
  | _ => exact .of_code (left_code trivial)

/-- An orderly request leaves the instructions tidy, if it fills in a jump. -/
theorem left_isTidy (isOrderly : request.IsOrderly)
    (fills : ∀ position target, request = .patch position target →
      ∀ instruction : Instruction, draft.code[position]? = some instruction → instruction.IsJump)
    (tidy : draft.IsTidy) : (Draft.left (request.perform draft)).IsTidy := by
  cases request with
  | emit op level value =>
    rcases left_emit op level value draft with same | ⟨instruction, made, pushed⟩
    · exact tidy.of_code same
    · intro other mem
      rw [pushed, Array.mem_push] at mem
      rcases mem with mem | rfl
      · exact tidy other mem
      · exact .of_emitted isOrderly made
  | patch position target =>
    intro filled mem
    rw [left_patch] at mem
    obtain ⟨address, found⟩ := Array.mem_iff_getElem?.mp mem
    rw [Array.getElem?_modify] at found
    split at found
    · next here =>
      obtain ⟨jump, atPosition, rfl⟩ := Option.map_eq_some_iff.mp found
      have isJump := fills position target rfl jump (here ▸ atPosition)
      exact (tidy jump (Array.mem_of_getElem? atPosition)).fill isJump target
    · exact tidy filled (Array.mem_of_getElem? found)
  | _ => exact tidy.of_code (left_code trivial)

/-- The address that is told for a jump is that of a jump from then on. -/
theorem tells {answer : request.Answer} {between after : Draft} (ran : request.perform draft = .ok answer between)
    (grows : between.GrowsTo after) :
    request.Tells after.HasJump answer := by
  cases request with
  | emit op level value =>
    intro isJump
    obtain ⟨rfl, -, instruction, made, pushed⟩ := Draft.emit_output ran
    obtain ⟨last, found, same⟩ := grows draft.code.size instruction (by rw [pushed, Array.getElem?_push_size])
    refine ⟨last, found, ?_⟩
    rw [Instruction.IsJump, same, (Instruction.ofLevel_eq_ok made).1]
    exact isJump.imp (congrArg _) (congrArg _)
  | _ => exact trivial

end Request

namespace Production

variable {α : Type} {rule : Production α} {draft : Draft}

theorem growsTo (rule : Production α) (draft : Draft) : draft.GrowsTo (Draft.left (rule.run draft)) :=
  left_run draft.GrowsTo (fun request _ grows => grows.trans (request.growsTo _)) rule (.of_code rfl)

/-- A rule that fills in only jumps leaves the instructions tidy, also when it is given up. A jump is known by the code
that is left in the end, as instructions keep their opcodes. -/
theorem left_isTidy {yields : α → Prop} {after : Draft} (ends : Draft.left (rule.run draft) = after)
    (promises : rule.Promises after.HasJump yields) (tidy : draft.IsTidy) : after.IsTidy := by
  induction rule generalizing draft with
  | done result => exact ends ▸ tidy
  | ask request next ih =>
    obtain ⟨suits, others⟩ := promises
    have reaches : (Draft.left (request.perform draft)).GrowsTo after := by
      rcases left_run_ask request next draft with ⟨answer, between, ran, goesOn⟩ | stops
      · rw [ran, ← ends, goesOn]
        exact (next answer).growsTo between
      · exact .of_code (congrArg Draft.code (ends.symm.trans stops))
    have kept : (Draft.left (request.perform draft)).IsTidy := by
      refine Request.left_isTidy suits.1 (fun position target fills instruction found => ?_) tidy
      obtain ⟨jump, atLast, isJump⟩ := suits.2 position target fills
      obtain ⟨last, foundLast, same⟩ := ((request.growsTo draft).trans reaches) position instruction found
      obtain rfl := Option.some.inj (atLast.symm.trans foundLast)
      rwa [Instruction.IsJump, same] at isJump
    rcases left_run_ask request next draft with ⟨answer, between, ran, goesOn⟩ | stops
    · rw [ran] at kept reaches
      exact ih answer (goesOn.symm.trans ends) (others answer (Request.tells ran reaches)) kept
    · exact ends ▸ stops ▸ kept

end Production

/-- The instructions of a compilation are tidy, also if there are errors. -/
theorem compile_tidy (depth : Nat) (source : String) :
    ∀ instruction ∈ (compile depth source).code, instruction.IsTidy := by
  obtain ⟨failure, compiled⟩ := compile_eq_left depth source
  rw [compiled]
  exact Production.left_isTidy rfl (Grammar.program_suits _ _) fun _ mem => absurd mem (Array.not_mem_empty _)

end PLZero
