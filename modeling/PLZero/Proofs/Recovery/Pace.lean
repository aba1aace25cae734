import PLZero.Proofs.Recovery.Course

/-!
What a rule spends. Each token to come is worth eight, and each instruction and each diagnostic costs one. A rule is run
twice, with different numbers of rounds for its loops and perhaps with different depths of nesting, and both runs go
alike as long as both numbers are greater than the number of tokens to come.
-/

namespace PLZero

/-- Tokens of which the last one is the end, and no other is. -/
def Terminated (items : List Item) : Prop :=
  ∃ (tokens : List PlacedToken) (last : Position), items = tokens.map .ok ++ [.ok ⟨.eof, last⟩] ∧
    ∀ placed ∈ tokens, placed.token ≠ .eof

namespace Draft

/-- The number of tokens to come that the grammar gets to see. -/
def ahead (draft : Draft) : Nat :=
  draft.upcoming.countP itemIsVisible

/-- What has come out, together with what the tokens to come are worth. -/
def weight (draft : Draft) : Nat :=
  draft.code.size + draft.diagnostics.size + 8 * draft.upcoming.length

/-- A draft stands at a token, and behind each token but the end there are others, up to the end. -/
inductive Stands (draft : Draft) : Prop where
  | atEnd (current : draft.current.token = .eof) (upcoming : draft.upcoming = [])
  | atToken (current : draft.current.token ≠ .eof) (upcoming : Terminated draft.upcoming)

/-- A draft stands where another one has taken a token. -/
structure Takes (after before : Draft) : Prop where
  stands : after.Stands
  ahead_lt : after.ahead < before.ahead
  weight_le : after.weight + 8 ≤ before.weight

section Advance

variable {placed : PlacedToken} (rest : List Item) (draft : Draft)

theorem advanceTo_visible (seen : placed.token.isVisible = true) :
    advanceTo (.ok placed :: rest) draft = .ok () { draft with current := placed, upcoming := rest } := by
  obtain ⟨t, position⟩ := placed
  cases t with
  | unknown c | badComment line => cases seen
  | _ => rfl

theorem advanceTo_invisible (unseen : placed.token.isVisible = false) :
    ∃ complaint, advanceTo (.ok placed :: rest) draft =
      advanceTo rest (reported { draft with current := placed, upcoming := rest } complaint) := by
  obtain ⟨t, position⟩ := placed
  cases t with
  | unknown c => exact ⟨.unknownCharacter c, rfl⟩
  | badComment line => exact ⟨.unterminatedComment line, rfl⟩
  | _ => cases unseen

end Advance

theorem weight_reported (draft : Draft) (complaint : Complaint) :
    (draft.reported complaint).weight = draft.weight + 1 := by
  simp only [weight, reported, noted, Array.size_push]
  omega

theorem advanceTo_takes {items : List Item} (terminated : Terminated items) (draft : Draft) :
    ∃ after, advanceTo items draft = .ok () after ∧ after.Stands ∧ after.ahead + 1 = items.countP itemIsVisible ∧
      after.weight + 8 ≤ draft.code.size + draft.diagnostics.size + 8 * items.length := by
  obtain ⟨tokens, last, rfl, others⟩ := terminated
  induction tokens generalizing draft with
  | nil => exact ⟨_, rfl, .atEnd rfl rfl, rfl, by simp [weight]⟩
  | cons placed tokens ih =>
    obtain ⟨notEnd, others⟩ := List.forall_mem_cons.mp others
    rw [List.map_cons, List.cons_append, List.length_cons]
    cases seen : placed.token.isVisible with
    | true =>
      refine ⟨_, advanceTo_visible _ draft seen, .atToken notEnd ⟨tokens, last, rfl, others⟩, ?_, ?_⟩
      · exact (List.countP_cons_of_pos (show itemIsVisible (.ok placed) = true from seen)).symm
      · simp only [weight]
        omega
    | false =>
      obtain ⟨complaint, passes⟩ := advanceTo_invisible (tokens.map .ok ++ [.ok ⟨.eof, last⟩]) draft seen
      obtain ⟨after, ran, stands, ahead, weight⟩ := ih (reported { draft with
        current := placed, upcoming := tokens.map .ok ++ [.ok ⟨.eof, last⟩] } complaint) others
      refine ⟨after, passes.trans ran, stands, ?_, ?_⟩
      · rw [ahead, List.countP_cons_of_neg (by simp [itemIsVisible, seen])]
      · simp only [reported, noted, Array.size_push] at weight
        omega

theorem Stands.congr {draft after : Draft} (stands : draft.Stands) (current : after.current = draft.current)
    (upcoming : after.upcoming = draft.upcoming) : after.Stands := by
  cases stands with
  | atEnd isEnd none => exact .atEnd (current ▸ isEnd) (upcoming ▸ none)
  | atToken more terminated => exact .atToken (current ▸ more) (upcoming ▸ terminated)

theorem Stands.takes {draft : Draft} (stands : draft.Stands) (more : draft.current.token ≠ .eof) :
    ∃ after, advanceTo draft.upcoming draft = .ok () after ∧ after.Takes draft := by
  cases stands with
  | atEnd current upcoming => exact absurd current more
  | atToken current upcoming =>
    obtain ⟨after, ran, stands, ahead, weight⟩ := advanceTo_takes upcoming draft
    exact ⟨after, ran, stands, Nat.lt_of_succ_le (Nat.le_of_eq ahead), weight⟩

end Draft

/-- A request that leaves the tokens where they are and costs nothing. -/
def Request.IsFree : Request → Prop
  | .advance | .bound | .report _ | .emit .. | .abandon => False
  | _ => True

theorem Request.IsFree.performs {request : Request} (free : request.IsFree) (draft : Draft) :
    ∃ answer after, request.perform draft = .ok answer after ∧ after.current = draft.current ∧
      after.upcoming = draft.upcoming ∧ after.weight = draft.weight := by
  cases request with
  | advance | bound | report | emit | abandon => exact free.elim
  | purge level =>
    obtain ⟨journal, purged⟩ := draft.purge_eq level
    exact ⟨_, _, purged, rfl, rfl, rfl⟩
  | patch position target =>
    refine ⟨_, _, rfl, rfl, rfl, ?_⟩
    simp [Draft.weight]
  | _ => exact ⟨_, _, rfl, rfl, rfl, rfl⟩

namespace Production

variable {α β : Type}

/-- What a result has to meet: there are no more tokens to come than before, and if the compilation has stopped, not
too much has come out, and that was not for an integer, and for the nesting only if that may be. -/
def Meets (limit : Nat) (short : Prop) (draft : Draft) (post : α → Draft → Prop) :
    EStateM.Result Halt Draft α → Prop
  | .ok answer after => after.Stands ∧ after.ahead ≤ draft.ahead ∧ post answer after
  | .error halt after =>
    (halt = .tooDeep → short) ∧ (∀ overlong, halt ≠ .overlongInteger overlong) ∧ after.weight ≤ limit

/-- Two rules take the same course, whatever numbers of rounds they are given, if only these are greater than the
number of tokens to come. -/
def Paced (limit : Nat) (short : Prop) (first second : Production α) (draft : Draft) (post : α → Draft → Prop) : Prop :=
  ∀ b c, draft.ahead < b → draft.ahead < c → first.course b draft = second.course c draft ∧
    Meets limit short draft post (first.course b draft).2

variable {limit : Nat} {short : Prop} {first second : Production α} {draft : Draft} {post weaker : α → Draft → Prop}

theorem Meets.imp {before : Draft} {result : EStateM.Result Halt Draft α} (meets : Meets limit short draft post result)
    (ahead : draft.ahead ≤ before.ahead) (enough : ∀ a after, post a after → weaker a after) :
    Meets limit short before weaker result := by
  cases result with
  | ok answer after => exact ⟨meets.1, meets.2.1.trans ahead, enough answer after meets.2.2⟩
  | error halt after => exact meets

namespace Paced

theorem imp (paced : Paced limit short first second draft post) (enough : ∀ a after, post a after → weaker a after) :
    Paced limit short first second draft weaker := by
  intro b c enoughFirst enoughSecond
  obtain ⟨same, meets⟩ := paced b c enoughFirst enoughSecond
  exact ⟨same, meets.imp (Nat.le_refl _) enough⟩

/-- There are never more tokens to come than before. -/
theorem keeps (paced : Paced limit short first second draft post) :
    Paced limit short first second draft fun a after => after.ahead ≤ draft.ahead ∧ post a after := by
  intro b c enoughFirst enoughSecond
  obtain ⟨same, meets⟩ := paced b c enoughFirst enoughSecond
  refine ⟨same, ?_⟩
  cases result : (first.course b draft).2 with
  | ok answer after =>
    rw [result] at meets
    exact ⟨meets.1, meets.2.1, meets.2⟩
  | error halt after =>
    rw [result] at meets
    exact meets

theorem bind {next other : α → Production β} {result : β → Draft → Prop}
    (paced : Paced limit short first second draft post)
    (rest : ∀ a after, after.Stands → after.ahead ≤ draft.ahead → post a after →
      Paced limit short (next a) (other a) after result) :
    Paced limit short (first >>= next) (second >>= other) draft result := by
  intro b c enoughFirst enoughSecond
  obtain ⟨same, meets⟩ := paced b c enoughFirst enoughSecond
  rw [course_bind, course_bind, ← same]
  cases taken : first.course b draft with | mk requests result => ?_
  rw [taken] at meets
  cases result with
  | ok answer after =>
    obtain ⟨stands, ahead, holds⟩ := meets
    obtain ⟨same, further⟩ := rest answer after stands ahead holds b c (Nat.lt_of_le_of_lt ahead enoughFirst)
      (Nat.lt_of_le_of_lt ahead enoughSecond)
    exact ⟨by simp only [same], further.imp ahead fun _ _ holds => holds⟩
  | error halt after => exact ⟨rfl, meets⟩

theorem of_pure {a : α} (stands : draft.Stands) (holds : post a draft) :
    Paced limit short (pure a) (pure a) draft post :=
  fun _ _ _ _ => ⟨rfl, stands, Nat.le_refl _, holds⟩

/-- A single request other than for the number of rounds. -/
theorem of_request {request : Request} {post : request.Answer → Draft → Prop} (other : request ≠ .bound)
    (meets : Meets limit short draft post (request.perform draft)) :
    Paced limit short (ask request .done) (ask request .done) draft post := by
  intro b c _ _
  rw [course, course, Request.performWithin_eq other, Request.performWithin_eq other]
  cases ran : request.perform draft <;> rw [ran] at meets <;> exact ⟨rfl, meets⟩

theorem of_bound {next other : Nat → Production α} (rest : ∀ b c, draft.ahead < b → draft.ahead < c →
    Paced limit short (next b) (other c) draft post) :
    Paced limit short (bound >>= next) (bound >>= other) draft post := by
  intro b c enoughFirst enoughSecond
  obtain ⟨same, meets⟩ := rest b c enoughFirst enoughSecond b c enoughFirst enoughSecond
  exact ⟨congrArg (fun taken => (Request.bound :: taken.1, taken.2)) same, meets⟩

theorem of_token {next other : Token → Production α}
    (rest : Paced limit short (next draft.current.token) (other draft.current.token) draft post) :
    Paced limit short (token >>= next) (token >>= other) draft post := by
  intro b c enoughFirst enoughSecond
  obtain ⟨same, meets⟩ := rest b c enoughFirst enoughSecond
  exact ⟨congrArg (fun taken => (Request.token :: taken.1, taken.2)) same, meets⟩

theorem advance (stands : draft.Stands) (more : draft.current.token ≠ .eof) :
    Paced limit short advance advance draft fun _ after => after.Takes draft := by
  obtain ⟨after, ran, takes⟩ := stands.takes more
  refine of_request nofun ?_
  show Meets _ _ _ _ (Draft.advanceTo draft.upcoming draft)
  rw [ran]
  exact ⟨takes.stands, Nat.le_of_lt takes.ahead_lt, takes⟩

theorem report (stands : draft.Stands) (complaint : Complaint) :
    Paced limit short (report complaint) (report complaint) draft fun _ after =>
      after.current = draft.current ∧ after.weight = draft.weight + 1 :=
  of_request nofun ⟨stands.congr rfl rfl, Nat.le_refl _, rfl, draft.weight_reported complaint⟩

/-- An instruction costs one, and where the level does not fit, none is emitted. -/
theorem emit (stands : draft.Stands) (room : draft.weight ≤ limit) (op : Opcode) (level value : Int) :
    Paced limit short (emit op level value) (emit op level value) draft fun _ after =>
      after.weight = draft.weight + 1 := by
  refine of_request nofun ?_
  simp only [Request.perform, Draft.emit]
  cases Instruction.ofLevel (.named op) (min level maxLevel) value with
  | ok instruction =>
    refine ⟨stands.congr rfl rfl, Nat.le_refl _, ?_⟩
    simp only [Draft.weight, Array.size_push]
    omega
  | error error => exact ⟨fun isDeep => Halt.noConfusion isDeep, fun _ isOverlong => Halt.noConfusion isOverlong, room⟩

theorem of_free {request : Request} (free : request.IsFree) (stands : draft.Stands) :
    Paced limit short (ask request .done) (ask request .done) draft fun _ after =>
      after.current = draft.current ∧ after.weight = draft.weight := by
  obtain ⟨answer, after, ran, current, upcoming, weight⟩ := free.performs draft
  refine of_request (fun isBound => ?_) ?_
  · subst isBound
    exact free
  · rw [ran]
    exact ⟨stands.congr current upcoming, by rw [Draft.ahead, Draft.ahead, upcoming], current, weight⟩

theorem abandon (isShort : short) (room : draft.weight + 1 ≤ limit) :
    Paced limit short abandon abandon draft post :=
  fun _ _ _ _ => ⟨rfl, fun _ => isShort, nofun, Nat.le_trans (Nat.le_of_eq (draft.weight_reported .tooDeep)) room⟩

end Paced

theorem discard_eq_bind (rule : Production α) : discard rule = rule >>= fun _ => pure () := by
  have spelled : discard rule = (fun _ => ()) <$> rule := rfl
  rw [spelled, map_eq_pure_bind]

/-- At a token with fewer tokens to come than a horizon, two rules take the same course. What has come out in the end,
together with the value of the result, weighs at most a price more than before. -/
def CostsAt (t : Token) (short : Prop) (horizon price : Nat) (first second : Production α)
    (value : α → Nat := fun _ => 0) : Prop :=
  ∀ limit draft, draft.Stands → draft.current.token = t → draft.ahead < horizon → draft.weight + price < limit →
    Paced limit short first second draft fun a after => after.weight + value a ≤ draft.weight + price

/-- Two rules take the same course at any token. -/
def Costs (short : Prop) (horizon price : Nat) (first second : Production α) (value : α → Nat := fun _ => 0) : Prop :=
  ∀ t, CostsAt t short horizon price first second value

section Costs

variable {t : Token} {horizon n m price : Nat} {value : α → Nat} {worth : β → Nat} {next other : α → Production β}

namespace CostsAt

theorem mono (costs : CostsAt t short horizon n first second value) {nearer : Nat} (near : nearer ≤ horizon)
    (cheap : n ≤ price) : CostsAt t short nearer price first second value := by
  intro limit draft stands here ahead room
  exact (costs limit draft stands here (by omega) (by omega)).imp fun _ _ weight => by omega

theorem of_pure {a : α} (enough : value a ≤ price) : CostsAt t short horizon price (pure a) (pure a) value :=
  fun _ _ stands _ _ _ => .of_pure stands (Nat.add_le_add_left enough _)

theorem bindValue {f : α → Nat} (costs : CostsAt t short horizon n first second value)
    (rest : ∀ a, Costs short horizon (f a) (next a) (other a) worth) (cheap : n ≤ price)
    (enough : ∀ a, n + f a ≤ price + value a) :
    CostsAt t short horizon price (first >>= next) (second >>= other) worth := by
  intro limit draft stands here ahead room
  refine (costs limit draft stands here ahead (by omega)).bind fun a after stands closer weight => ?_
  have paid := enough a
  exact (rest a _ limit after stands rfl (by omega) (by omega)).imp fun _ _ weight => by omega

theorem bind (costs : CostsAt t short horizon n first second)
    (rest : ∀ a, Costs short horizon m (next a) (other a) worth) :
    CostsAt t short horizon (n + m) (first >>= next) (second >>= other) worth :=
  costs.bindValue rest (Nat.le_add_right _ _) fun _ => Nat.le_refl _

theorem within (costs : CostsAt t short horizon n first second value) (cheap : n ≤ price) :
    CostsAt t short horizon price first second value :=
  costs.mono (Nat.le_refl _) cheap

theorem discard (costs : CostsAt t short horizon price first second) :
    CostsAt t short horizon price (Functor.discard first) (Functor.discard second) := by
  rw [discard_eq_bind, discard_eq_bind]
  exact costs.bind (m := 0) fun _ _ => of_pure (Nat.zero_le _)

theorem of_token {next other : Token → Production α} (costs : CostsAt t short horizon price (next t) (other t) value) :
    CostsAt t short horizon price (token >>= next) (token >>= other) value := by
  intro limit draft stands here ahead room
  subst here
  exact .of_token (costs limit draft stands rfl ahead room)

/-- A token that is taken pays eight. -/
theorem of_advance {next other : Unit → Production α} (more : t ≠ .eof)
    (rest : Costs short (horizon - 1) (price + 8) (next ()) (other ()) value) :
    CostsAt t short horizon price (advance >>= next) (advance >>= other) value := by
  intro limit draft stands here ahead room
  refine (Paced.advance stands (here ▸ more)).bind fun _ after stands _ ⟨_, closer, weight⟩ => ?_
  exact (rest _ limit after stands rfl (by omega) (by omega)).imp fun _ _ weight => by omega

theorem advance (more : t ≠ .eof) :
    CostsAt t short horizon price Production.advance Production.advance :=
  fun _ _ stands here _ _ => (Paced.advance stands (here ▸ more)).imp fun _ after ⟨_, _, weight⟩ =>
    show after.weight ≤ _ by omega

theorem of_report {next other : Unit → Production α} (complaint : Complaint)
    (rest : CostsAt t short horizon n (next ()) (other ()) value) :
    CostsAt t short horizon (n + 1) (Production.report complaint >>= next) (Production.report complaint >>= other)
      value := by
  intro limit draft stands here ahead room
  refine (Paced.report stands complaint).bind fun _ after stands closer ⟨current, weight⟩ => ?_
  exact (rest limit after stands (current ▸ here) (by omega) (by omega)).imp fun _ _ weight => by omega

/-- Loops get as many rounds as they need, which is one more than there are tokens to come. -/
theorem of_bound {next other : Nat → Production α} (rest : ∀ nearer b c, nearer ≤ horizon → nearer ≤ b → nearer ≤ c →
    CostsAt t short nearer price (next b) (other c) value) :
    CostsAt t short horizon price (bound >>= next) (bound >>= other) value := by
  intro limit draft stands here ahead room
  refine .of_bound fun b c enoughFirst enoughSecond => ?_
  exact rest (draft.ahead + 1) b c ahead enoughFirst enoughSecond limit draft stands here (Nat.lt_succ_self _) room

theorem of_free (request : Request) (free : request.IsFree) :
    CostsAt t short horizon price (ask request .done) (ask request .done) :=
  fun _ _ stands _ _ _ => (Paced.of_free free stands).imp fun _ _ ⟨_, weight⟩ =>
    Nat.le_trans (Nat.le_of_eq weight) (Nat.le_add_right _ _)

end CostsAt

namespace Costs

/-- No draft has fewer than no tokens to come. -/
theorem of_none (price : Nat) : Costs short 0 price first second value :=
  fun _ _ _ _ _ ahead _ => absurd ahead (Nat.not_lt_zero _)

theorem mono (costs : Costs short horizon n first second value) {nearer : Nat} (near : nearer ≤ horizon)
    (cheap : n ≤ price) : Costs short nearer price first second value :=
  fun t => (costs t).mono near cheap

theorem of_pure {a : α} (enough : value a ≤ price) : Costs short horizon price (pure a) (pure a) value :=
  fun _ => .of_pure enough

theorem done (a : α) : Costs short horizon price (pure a) (pure a) :=
  .of_pure (Nat.zero_le _)

theorem within (costs : Costs short horizon n first second value) (cheap : n ≤ price) :
    Costs short horizon price first second value :=
  costs.mono (Nat.le_refl _) cheap

theorem nearer (costs : Costs short horizon n first second value) :
    Costs short (horizon - 1) n first second value :=
  costs.mono (Nat.sub_le _ _) (Nat.le_refl _)

theorem bind (costs : Costs short horizon n first second)
    (rest : ∀ a, Costs short horizon m (next a) (other a) worth) :
    Costs short horizon (n + m) (first >>= next) (second >>= other) worth :=
  fun t => (costs t).bind rest

theorem bindValue {f : α → Nat} (costs : Costs short horizon n first second value)
    (rest : ∀ a, Costs short horizon (f a) (next a) (other a) worth) (cheap : n ≤ price)
    (enough : ∀ a, n + f a ≤ price + value a) :
    Costs short horizon price (first >>= next) (second >>= other) worth :=
  fun t => (costs t).bindValue rest cheap enough

theorem discard (costs : Costs short horizon price first second) :
    Costs short horizon price (Functor.discard first) (Functor.discard second) :=
  fun t => (costs t).discard

theorem of_free (request : Request) (free : request.IsFree) :
    Costs short horizon price (ask request .done) (ask request .done) :=
  fun _ => .of_free request free

theorem report (complaint : Complaint) :
    Costs short horizon 1 (report complaint) (report complaint) :=
  fun _ _ _ stands _ _ _ => (Paced.report stands complaint).imp fun _ _ ⟨_, weight⟩ => Nat.le_of_eq weight

theorem emit (op : Opcode) (level value : Int) :
    Costs short horizon 1 (emit op level value) (emit op level value) :=
  fun _ _ _ stands _ _ room => (Paced.emit stands (by omega) op level value).imp fun _ _ weight => Nat.le_of_eq weight

theorem of_bound {next other : Nat → Production α} (rest : ∀ nearer b c, nearer ≤ horizon → nearer ≤ b → nearer ≤ c →
    Costs short nearer price (next b) (other c) value) :
    Costs short horizon price (bound >>= next) (bound >>= other) value :=
  fun t => .of_bound fun nearer b c near enoughFirst enoughSecond => rest nearer b c near enoughFirst enoughSecond t

end Costs

end Costs

end Production

end PLZero
