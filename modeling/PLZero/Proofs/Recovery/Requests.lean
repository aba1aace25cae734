import PLZero.Proofs.Recovery.Scoped

namespace PLZero

namespace Production

variable {α β : Type}

/-- A rule makes only requests that are allowed, and if it comes to its end, that is as told. -/
def Heeds : Production α → Watch → Draft → (α → Watch → Draft → Prop) → Prop
  | .done result, watch, draft, post => post result watch draft
  | .ask request next, watch, draft, post =>
    watch.Allows draft.symbols request ∧ ∀ answer after, request.perform draft = .ok answer after →
      (next answer).Heeds (watch.next draft request) after post

namespace Heeds

variable {watch : Watch} {draft : Draft} {rule : Production α} {post weaker : α → Watch → Draft → Prop}

theorem imp (heeds : rule.Heeds watch draft post) (enough : ∀ a w d, post a w d → weaker a w d) :
    rule.Heeds watch draft weaker := by
  induction rule generalizing watch draft with
  | done result => exact enough _ _ _ heeds
  | ask request next ih => exact ⟨heeds.1, fun answer after ran => ih answer (heeds.2 answer after ran)⟩

theorem bind {next : α → Production β} {result : β → Watch → Draft → Prop} (first : rule.Heeds watch draft post)
    (rest : ∀ a w d, post a w d → (next a).Heeds w d result) : (rule >>= next).Heeds watch draft result := by
  induction rule generalizing watch draft with
  | done a => exact rest _ _ _ first
  | ask request further ih => exact ⟨first.1, fun answer after ran => ih answer (first.2 answer after ran)⟩

theorem of_pure {a : α} (holds : post a watch draft) : (pure a : Production α).Heeds watch draft post :=
  holds

theorem discard {result : Unit → Watch → Draft → Prop} (heeds : rule.Heeds watch draft post)
    (enough : ∀ a w d, post a w d → result () w d) : (Functor.discard rule).Heeds watch draft result := by
  have spelled : Functor.discard rule = (fun _ => ()) <$> rule := rfl
  rw [spelled, map_eq_pure_bind]
  exact heeds.bind fun a w d h => of_pure (enough a w d h)

theorem forget {kept : Watch → Draft → Prop} (heeds : rule.Heeds watch draft fun _ => kept) :
    (Functor.discard rule).Heeds watch draft fun _ => kept :=
  heeds.discard fun _ _ _ holds => holds

/-- A single request. -/
theorem of_request {request : Request} {post : request.Answer → Watch → Draft → Prop}
    (allowed : watch.Allows draft.symbols request)
    (performs : ∀ answer after, request.perform draft = .ok answer after →
      post answer (watch.next draft request) after) : (Production.ask request .done).Heeds watch draft post :=
  ⟨allowed, performs⟩

/-- Each request of a run is allowed. -/
theorem forall_occasions (heeds : rule.Heeds watch draft post) :
    ∀ o ∈ rule.occasions watch draft, o.watch.Allows o.draft.symbols o.request := by
  induction rule generalizing watch draft with
  | done result => simp [occasions]
  | ask request next ih =>
    rw [occasions, List.forall_mem_cons]
    refine ⟨heeds.1, ?_⟩
    cases ran : request.perform draft with
    | ok answer after => exact ih answer (heeds.2 answer after ran)
    | error halt after => simp

theorem of_run (heeds : rule.Heeds watch draft post) {result : α} {after : Draft}
    (ran : rule.run draft = .ok result after) : post result (rule.watched watch draft) after := by
  induction rule generalizing watch draft with
  | done value =>
    cases ran
    exact heeds
  | ask request next ih =>
    simp only [run] at ran
    cases performed : request.perform draft with
    | ok answer between =>
      rw [performed] at ran
      simp only [watched, performed]
      exact ih answer (heeds.2 answer between performed) ran
    | error halt between => simp [performed] at ran

end Heeds

end Production

/-- A request that concerns neither code nor declarations. -/
def Request.IsSilent : Request → Prop
  | .emit .. | .patch .. | .declare _ | .setValue .. | .setArity .. | .purge _ => False
  | _ => True

theorem Draft.advanceTo_output {items : List Item} {draft after : Draft}
    (ran : Draft.advanceTo items draft = .ok () after) : after.code = draft.code ∧ after.symbols = draft.symbols := by
  induction items generalizing draft with
  | nil =>
    cases ran
    exact ⟨rfl, rfl⟩
  | cons item items ih =>
    cases item with
    | error overlong => cases ran
    | ok placed =>
      obtain ⟨t, position⟩ := placed
      cases t with
      | unknown c | badComment line =>
        obtain ⟨code, symbols⟩ := ih ran
        exact ⟨code, symbols⟩
      | _ =>
        cases ran
        exact ⟨rfl, rfl⟩

theorem Request.perform_output {request : Request} (silent : request.IsSilent) {draft after : Draft}
    {answer : request.Answer} (ran : request.perform draft = .ok answer after) :
    after.code = draft.code ∧ after.symbols = draft.symbols := by
  cases request with
  | advance => exact Draft.advanceTo_output ran
  | abandon => cases ran
  | emit | patch | declare | setValue | setArity | purge => exact silent.elim
  | _ =>
    cases ran
    exact ⟨rfl, rfl⟩

/-- An instruction for an opcode that is emitted for a level which a byte can hold, or for a greater one. -/
theorem Draft.emit_output {op : Opcode} {level value : Int} {draft after : Draft} {address : Nat}
    (ran : Draft.emit op level value draft = .ok address after) :
    address = draft.code.size ∧ after.symbols = draft.symbols ∧ ∃ instruction : Instruction,
      Instruction.ofLevel (.named op) (min level maxLevel) value = .ok instruction ∧
        after.code = draft.code.push instruction := by
  simp only [emit] at ran
  cases made : Instruction.ofLevel (.named op) (min level maxLevel) value with
  | ok instruction =>
    simp only [made] at ran
    cases ran
    exact ⟨rfl, rfl, instruction, rfl, rfl⟩
  | error error =>
    simp only [made] at ran
    cases ran

theorem Instruction.ofLevel_eq_ok {op : Opcode} {level value : Int} {instruction : Instruction}
    (made : ofLevel (.named op) level value = .ok instruction) :
    instruction.operation = .named op ∧ instruction.value = value := by
  rw [ofLevel] at made
  split at made
  · cases made
    exact ⟨rfl, rfl⟩
  · cases made

theorem Instruction.ofLevel_zero (op : Opcode) (value : Int) :
    ofLevel (.named op) (min 0 maxLevel) value = .ok (.of op 0 value) := rfl

/-- Items come to an integer that is too long, behind nothing that the grammar gets to see. -/
def ReachesOverlong (items : List Item) (error : OverlongInteger) : Prop :=
  ∃ passed rest, items = passed ++ .error error :: rest ∧ ∀ item ∈ passed, itemIsVisible item = false

theorem ReachesOverlong.cons {items : List Item} {error : OverlongInteger} (reaches : ReachesOverlong items error)
    {item : Item} (unseen : itemIsVisible item = false) : ReachesOverlong (item :: items) error := by
  obtain ⟨passed, rest, rfl, others⟩ := reaches
  exact ⟨item :: passed, rest, rfl, List.forall_mem_cons.mpr ⟨unseen, others⟩⟩

theorem ReachesOverlong.mem {items : List Item} {error : OverlongInteger} (reaches : ReachesOverlong items error) :
    .error error ∈ items := by
  obtain ⟨passed, rest, rfl, -⟩ := reaches
  exact List.mem_append_right _ List.mem_cons_self

theorem Draft.advanceTo_halt {items : List Item} {draft after : Draft} {halt : Halt}
    (ran : Draft.advanceTo items draft = .error halt after) :
    ∃ error, halt = .overlongInteger error ∧ ReachesOverlong items error := by
  induction items generalizing draft with
  | nil => cases ran
  | cons item items ih =>
    cases item with
    | error overlong =>
      cases ran
      exact ⟨overlong, rfl, [], items, rfl, nofun⟩
    | ok placed =>
      obtain ⟨t, position⟩ := placed
      cases t with
      | unknown c | badComment line =>
        obtain ⟨error, isHalt, reaches⟩ := ih ran
        exact ⟨error, isHalt, reaches.cons rfl⟩
      | _ => cases ran

/-- A compilation stops early for an integer that is too long, or for its nesting, and then it complains. -/
def Halt.Explained (halt : Halt) (draft : Draft) : Prop :=
  (∃ error, halt = .overlongInteger error) ∨
    halt = .tooDeep ∧ ∃ diagnostic ∈ draft.diagnostics, diagnostic.complaint = .tooDeep

theorem Request.perform_halt {request : Request} {watch : Watch} {draft after : Draft} {halt : Halt}
    (allowed : watch.Allows draft.symbols request) (ran : request.perform draft = .error halt after) :
    halt.Explained after := by
  cases request with
  | advance =>
    obtain ⟨error, isHalt, -⟩ := Draft.advanceTo_halt ran
    exact .inl ⟨error, isHalt⟩
  | emit op level value =>
    have fits : (0 : Int) ≤ level := allowed.fits.1
    have inByte : 0 ≤ min level (maxLevel : Int) ∧ min level (maxLevel : Int) ≤ maxLevel := by
      simp only [maxLevel]
      omega
    simp only [perform, Draft.emit, Instruction.ofLevel, dif_pos inByte] at ran
    cases ran
  | purge level =>
    obtain ⟨journal, purged⟩ := draft.purge_eq level
    cases purged.symm.trans ran
  | abandon =>
    cases ran
    exact .inr ⟨rfl, _, Array.mem_push_self, rfl⟩
  | _ => cases ran

theorem Production.Heeds.of_halt {α : Type} {rule : Production α} {watch : Watch} {draft after : Draft}
    {post : α → Watch → Draft → Prop} {halt : Halt} (heeds : rule.Heeds watch draft post)
    (ran : rule.run draft = .error halt after) : halt.Explained after := by
  induction rule generalizing watch draft with
  | done value => cases ran
  | ask request next ih =>
    simp only [run] at ran
    cases performed : request.perform draft with
    | ok answer between =>
      rw [performed] at ran
      exact ih answer (heeds.2 answer between performed) ran
    | error other between =>
      rw [performed] at ran
      cases ran
      exact request.perform_halt heeds.1 performed

namespace Watch

variable {watch : Watch} {draft : Draft} {request : Request}

/-- Within a statement there are no declarations. -/
theorem next_statement {entry : Nat} (atStatement : watch.stage = .statement entry)
    (inner : ∀ level, request ≠ .purge level) : watch.next draft request = watch := by
  cases request with
  | purge level => exact absurd rfl (inner level)
  | advance => simp [next, atStatement]
  | declare symbol => simp [next, declare, atStatement]
  | emit op => cases op <;> simp [next, atStatement]
  | _ => rfl

theorem not_beginsSubroutine {t : Token} {kind : FixedKind} (here : t.kind = .fixed kind)
    (other : kind ≠ .procedureKw ∧ kind ≠ .functionKw) : ¬ beginsSubroutine t := by
  rintro (rfl | rfl)
  · exact other.1 (TokenKind.fixed.inj here).symm
  · exact other.2 (TokenKind.fixed.inj here).symm

theorem next_advance (keeps : watch.stage = .declarations → ¬ beginsSubroutine draft.current.token) :
    watch.next draft .advance = watch := by
  simp only [next]
  split
  · next atDeclarations => rw [if_neg (keeps atDeclarations)]
  · rfl

end Watch

namespace Production

variable {α β : Type}

/-- A rule that changes neither code nor declarations, nor the part of the block that is being compiled. -/
def Silent (rule : Production α) (watch : Watch) (symbols : SymbolTable) (yields : α → Prop) : Prop :=
  ∀ draft, draft.symbols = symbols → rule.Heeds watch draft fun a w d =>
    w = watch ∧ d.code = draft.code ∧ d.symbols = symbols ∧ yields a

variable {watch : Watch} {symbols : SymbolTable} {yields : α → Prop} {result : β → Prop}

namespace Silent

theorem of_pure {a : α} (yielded : yields a) : (pure a : Production α).Silent watch symbols yields :=
  fun _ same => .of_pure ⟨rfl, rfl, same, yielded⟩

theorem bind {rule : Production α} {next : α → Production β} (first : rule.Silent watch symbols yields)
    (rest : ∀ a, yields a → (next a).Silent watch symbols result) : (rule >>= next).Silent watch symbols result := by
  intro draft same
  refine (first draft same).bind fun a w d ⟨w_eq, code, symbols_eq, yielded⟩ => ?_
  subst w_eq
  exact (rest a yielded d symbols_eq).imp fun b _ _ ⟨w, further, d, yielded⟩ => ⟨w, further.trans code, d, yielded⟩

theorem discard {rule : Production α} (silent : rule.Silent watch symbols yields) :
    (Functor.discard rule).Silent watch symbols fun _ => True :=
  fun draft same => (silent draft same).discard fun _ _ _ ⟨w, code, d, _⟩ => ⟨w, code, d, trivial⟩

end Silent

section Requests

variable (inForce : watch.Scoped symbols)
include inForce

theorem Silent.of_request {request : Request} {yields : request.Answer → Prop} (silent : request.IsSilent)
    (fits : watch.Fits symbols request) (keeps : ∀ draft, watch.next draft request = watch)
    (answers : ∀ draft answer after, draft.symbols = symbols → request.perform draft = .ok answer after →
      yields answer) : (Production.ask request .done).Silent watch symbols yields := by
  intro draft same
  refine .of_request ⟨same ▸ inForce, same ▸ fits⟩ fun answer after ran => ?_
  obtain ⟨code, symbols_eq⟩ := request.perform_output silent ran
  exact ⟨keeps draft, code, symbols_eq.trans same, answers draft answer after same ran⟩

theorem token_silent : token.Silent watch symbols fun _ => True :=
  .of_request inForce trivial trivial (fun _ => rfl) fun _ _ _ _ _ => trivial

theorem bound_silent : bound.Silent watch symbols fun _ => True :=
  .of_request inForce trivial trivial (fun _ => rfl) fun _ _ _ _ _ => trivial

theorem report_silent (complaint : Complaint) : (report complaint).Silent watch symbols fun _ => True :=
  .of_request inForce trivial trivial (fun _ => rfl) fun _ _ _ _ _ => trivial

theorem addGlobal_silent (name : String) (address : Nat) :
    (addGlobal name address).Silent watch symbols fun _ => True :=
  .of_request inForce trivial trivial (fun _ => rfl) fun _ _ _ _ _ => trivial

theorem isDeclared_silent (name : String) (level : Int) :
    (isDeclared name level).Silent watch symbols fun b => b = symbols.isDeclared name level := by
  refine .of_request inForce trivial trivial (fun _ => rfl) fun draft answer after same ran => ?_
  cases ran
  rw [← same]

theorem resolve_silent (name : String) (inStatement : ∃ entry, watch.stage = .statement entry)
    (within : watch.blocks ≠ []) :
    (resolve name).Silent watch symbols fun found => found = symbols.resolve name := by
  refine .of_request inForce trivial ⟨inStatement, within⟩ (fun _ => rfl) fun draft answer after same ran => ?_
  cases ran
  rw [← same]

theorem abandon_silent : (abandon : Production α).Silent watch symbols yields :=
  fun _ same => ⟨⟨same ▸ inForce, trivial⟩, nofun⟩

/-- Tokens are passed over without notice, unless a subroutine is declared. -/
theorem advance_heeds {draft : Draft} (same : draft.symbols = symbols)
    (keeps : watch.stage = .declarations → ¬ Watch.beginsSubroutine draft.current.token) :
    advance.Heeds watch draft fun _ w d => w = watch ∧ d.code = draft.code ∧ d.symbols = symbols := by
  refine .of_request ⟨same ▸ inForce, trivial⟩ fun answer after ran => ?_
  obtain ⟨code, symbols_eq⟩ := Draft.advanceTo_output ran
  exact ⟨Watch.next_advance keeps, code, symbols_eq.trans same⟩

theorem advance_silent (elsewhere : watch.stage ≠ .declarations) :
    advance.Silent watch symbols fun _ => True :=
  fun _ same => (advance_heeds inForce same fun here => absurd here elsewhere).imp
    fun _ _ _ ⟨w, code, d⟩ => ⟨w, code, d, trivial⟩

theorem token_heeds {draft : Draft} (same : draft.symbols = symbols) :
    token.Heeds watch draft fun t w d => w = watch ∧ d = draft ∧ t = draft.current.token := by
  refine .of_request ⟨same ▸ inForce, trivial⟩ fun answer after ran => ?_
  cases ran
  exact ⟨rfl, rfl, rfl⟩

end Requests

end Production

namespace Grammar

open Production

variable {watch : Watch} {symbols : SymbolTable} (inForce : watch.Scoped symbols)
include inForce

theorem check_silent (kind : TokenKind) : (check kind).Silent watch symbols fun _ => True :=
  (token_silent inForce).bind fun _ _ => .of_pure trivial

theorem check_heeds {draft : Draft} (same : draft.symbols = symbols) (kind : TokenKind) :
    (check kind).Heeds watch draft fun b w d =>
      w = watch ∧ d = draft ∧ b = decide (draft.current.token.kind = kind) := by
  refine (token_heeds inForce same).bind fun t w d ⟨w_eq, d_eq, t_eq⟩ => .of_pure ⟨w_eq, d_eq, ?_⟩
  rw [t_eq]

/-- A token that does not begin a subroutine is taken. -/
theorem taken_heeds {α : Type} {draft : Draft} (same : draft.symbols = symbols)
    (keeps : ¬ Watch.beginsSubroutine draft.current.token) (a : α) :
    (advance >>= fun _ => pure a).Heeds watch draft fun _ w d =>
      w = watch ∧ d.code = draft.code ∧ d.symbols = symbols ∧ True :=
  (advance_heeds inForce same fun _ => keeps).bind fun _ _ _ ⟨w, code, d⟩ => .of_pure ⟨w, code, d, trivial⟩

theorem accept_silent {kind : FixedKind} (other : kind ≠ .procedureKw ∧ kind ≠ .functionKw) :
    (accept kind).Silent watch symbols fun _ => True := by
  intro draft same
  refine (check_heeds inForce same _).bind fun found w d ⟨w_eq, d_eq, found_eq⟩ => ?_
  subst w_eq d_eq found_eq
  split
  · next here =>
    exact taken_heeds inForce same (Watch.not_beginsSubroutine (of_decide_eq_true here) other) true
  · exact .of_pure ⟨rfl, rfl, same, trivial⟩

theorem expect_silent {kind : FixedKind} (other : kind ≠ .procedureKw ∧ kind ≠ .functionKw) :
    (expect kind).Silent watch symbols fun _ => True := by
  refine (accept_silent inForce other).bind fun found _ => ?_
  split
  · exact .of_pure trivial
  · exact (token_silent inForce).bind fun _ _ => (report_silent inForce _).bind fun _ _ => .of_pure trivial

theorem require_silent {kind : FixedKind} (other : kind ≠ .procedureKw ∧ kind ≠ .functionKw) :
    (require kind).Silent watch symbols fun _ => True :=
  (expect_silent inForce other).discard

theorem expectIdentifier_silent : expectIdentifier.Silent watch symbols fun _ => True := by
  intro draft same
  refine (token_heeds inForce same).bind fun t w d ⟨w_eq, d_eq, t_eq⟩ => ?_
  subst w_eq d_eq t_eq
  split
  · next name here => exact taken_heeds inForce same (by simp [Watch.beginsSubroutine, here]) (some name)
  · exact (report_silent inForce _).bind (fun _ _ => .of_pure trivial) _ same

theorem expectInteger_silent : expectInteger.Silent watch symbols fun _ => True := by
  intro draft same
  refine (token_heeds inForce same).bind fun t w d ⟨w_eq, d_eq, t_eq⟩ => ?_
  subst w_eq d_eq t_eq
  split
  · next value here => exact taken_heeds inForce same (by simp [Watch.beginsSubroutine, here]) (some value)
  · exact (report_silent inForce _).bind (fun _ _ => .of_pure trivial) _ same

theorem literal_silent (value : Nat) : (literal value).Silent watch symbols fun _ => True := by
  rw [literal]
  split
  · exact (report_silent inForce _).bind fun _ _ => .of_pure trivial
  · exact .of_pure trivial

theorem acceptOperator_silent {Op : Type} (operator : FixedKind → Option Op)
    (elsewhere : watch.stage ≠ .declarations) :
    (acceptOperator operator).Silent watch symbols fun _ => True := by
  refine (token_silent inForce).bind fun t _ => ?_
  split
  · split
    · exact (advance_silent inForce elsewhere).bind fun _ _ => .of_pure trivial
    · exact .of_pure trivial
  · exact .of_pure trivial

omit inForce in
/-- What items of a list keep, and the commas between them, is kept by the list. -/
theorem commaSeparated_heeds {α : Type} {item : α → Production α} {kept : α → Watch → Draft → Prop}
    (items : ∀ a w d, kept a w d → (item a).Heeds w d kept)
    (commas : ∀ a w d, kept a w d → (accept .comma).Heeds w d fun _ => kept a) (rounds : Nat) (a : α) (w : Watch)
    (d : Draft) (holds : kept a w d) : (commaSeparated item rounds a).Heeds w d kept := by
  induction rounds generalizing a w d with
  | zero => exact .of_pure holds
  | succ rounds ih =>
    refine (items a w d holds).bind fun b w d holds => (commas b w d holds).bind fun more w d holds => ?_
    split
    · exact ih b w d holds
    · exact .of_pure holds

theorem commaSeparated_silent {α : Type} {item : α → Production α} {kept : α → Prop}
    (items : ∀ a, kept a → (item a).Silent watch symbols kept) (rounds : Nat) (a : α) (holds : kept a) :
    (commaSeparated item rounds a).Silent watch symbols kept := by
  intro draft same
  refine commaSeparated_heeds ?_ ?_ rounds a watch draft ⟨rfl, rfl, same, holds⟩
  · rintro a w d ⟨rfl, code, same, holds⟩
    exact (items a holds d same).imp fun _ _ _ ⟨w_eq, further, d_eq, yielded⟩ =>
      ⟨w_eq, further.trans code, d_eq, yielded⟩
  · rintro a w d ⟨rfl, code, same, holds⟩
    exact (accept_silent inForce (by decide) d same).imp fun _ _ _ ⟨w_eq, further, d_eq, _⟩ =>
      ⟨w_eq, further.trans code, d_eq, holds⟩

end Grammar

end PLZero
