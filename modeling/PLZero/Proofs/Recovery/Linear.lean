import PLZero.Proofs.Recovery.Budget

/-!
The compilation of a source is in proportion to its tokens. Each token but the first pays for what it
begins, so not more than eight instructions and diagnostics come out for each token. A loop needs no more rounds, and
the nesting no more depth, than there are tokens.
-/

namespace PLZero

/-- What comes of the result of a program. -/
def Compilation.ofResult : EStateM.Result Halt Draft Unit → Compilation
  | .ok () draft => .ofDraft draft none
  | .error halt draft => .ofDraft draft halt.failure?

theorem Compilation.ofResult_withRounds (rounds : Nat) (result : EStateM.Result Halt Draft Unit) :
    ofResult (Draft.resultWithRounds rounds result) = ofResult result := by
  cases result <;> rfl

/-- The requests that the compilation of a source makes, and how it ends, if it is given up at a depth of nesting and
its loops are broken off after a number of rounds. -/
def courseWithin (depth rounds : Nat) (source : String) : List Request × EStateM.Result Halt Draft Unit :=
  (Grammar.program depth).course rounds (.ofSource source)

theorem compile_eq_courseWithin (depth : Nat) (source : String) :
    compile depth source = .ofResult (courseWithin depth ((lex source).countP itemIsVisible) source).2 := by
  have ran := Production.run_withRounds ((lex source).countP itemIsVisible) (Grammar.program depth) (.ofSource source)
  have same : compile depth source = .ofResult ((Grammar.program depth).run (.ofSource source)) := by
    rw [compile]
    cases (Grammar.program depth).run (.ofSource source) <;> rfl
  have start : (Draft.ofSource source).withRounds ((lex source).countP itemIsVisible) = .ofSource source := rfl
  rw [start] at ran
  rw [same, ran, Compilation.ofResult_withRounds]
  rfl

/-- Items that can all be read are tokens. -/
theorem exists_tokens {items : List Item} (readable : ∀ overlong, .error overlong ∉ items) :
    ∃ tokens : List PlacedToken, items = tokens.map .ok := by
  induction items with
  | nil => exact ⟨[], rfl⟩
  | cons item items ih =>
    obtain ⟨tokens, rfl⟩ := ih fun overlong mem => readable overlong (List.mem_cons_of_mem _ mem)
    cases item with
    | error overlong => exact absurd List.mem_cons_self (readable overlong)
    | ok placed => exact ⟨placed :: tokens, rfl⟩

theorem terminated_lex {source : String} (readable : ∀ overlong, .error overlong ∉ lex source) :
    Terminated (lex source) := by
  obtain ⟨items, final, spelled, ⟨last, rfl⟩, others⟩ := lex_ends source
  obtain ⟨tokens, rfl⟩ := exists_tokens fun overlong mem =>
    readable overlong (spelled ▸ List.mem_append_left _ mem)
  refine ⟨tokens, last, spelled, fun placed mem isEnd => ?_⟩
  exact others (.ok placed) (List.mem_map_of_mem mem) (isEnd_of_kind (by rw [isEnd]; rfl))

section Courses

variable {source : String} {depth rounds : Nat}

/-- Where a course stops early, there is a reason. -/
theorem courseWithin_explained {halt : Halt} {after : Draft}
    (stops : (courseWithin depth rounds source).2 = .error halt after) : halt.Explained after := by
  have ran := Production.run_withRounds rounds (Grammar.program depth) (.ofSource source)
  rw [courseWithin] at stops
  rw [stops] at ran
  have explained : halt.Explained (after.withRounds rounds) :=
    (Grammar.program_heeds depth rfl rfl).of_halt ran
  exact explained

variable (readable : ∀ overlong, .error overlong ∉ lex source)
include readable

theorem courseWithin_meets {short : Prop} {p q b c : Nat} (alike : Grammar.Alike short ((lex source).length + 1) p q)
    (enoughFirst : (lex source).countP itemIsVisible ≤ b) (enoughSecond : (lex source).countP itemIsVisible ≤ c) :
    courseWithin p b source = courseWithin q c source ∧
      Production.Meets (8 * (lex source).length) short (.ofSource source)
        (fun _ after => after.weight ≤ 8 * (lex source).length) (courseWithin p b source).2 := by
  have near : Grammar.Alike short ((Draft.ofSource source).ahead + 1) p q :=
    alike.mono (Nat.succ_le_succ List.countP_le_length)
  have weight : (Draft.ofSource source).weight = 8 * (lex source).length := by simp [Draft.weight, Draft.ofSource]
  have terminated : Terminated (Draft.ofSource source).upcoming := terminated_lex readable
  have course := Grammar.program_course terminated near enoughFirst enoughSecond
  rw [weight] at course
  exact course

/-- Whatever the nesting is, not too much comes out, and what stops a compilation is the nesting. -/
theorem courseWithin_bounded (enough : (lex source).countP itemIsVisible ≤ rounds) :
    (Compilation.ofResult (courseWithin depth rounds source).2).failure = none ∧
      (Compilation.ofResult (courseWithin depth rounds source).2).code.size +
        (Compilation.ofResult (courseWithin depth rounds source).2).diagnostics.size ≤ 8 * (lex source).length := by
  have same : Grammar.Alike True ((lex source).length + 1) depth depth := .inl ⟨trivial, rfl⟩
  obtain ⟨-, meets⟩ := courseWithin_meets readable same enough enough
  cases result : (courseWithin depth rounds source).2 with
  | ok answer after =>
    rw [result] at meets
    exact ⟨rfl, Nat.le_trans (Nat.le_add_right _ _) meets.2.2⟩
  | error halt after =>
    rw [result] at meets
    obtain ⟨-, readable, weight⟩ := meets
    refine ⟨?_, Nat.le_trans (Nat.le_add_right _ _) weight⟩
    rcases courseWithin_explained result with ⟨overlong, isOverlong⟩ | ⟨rfl, -⟩
    · exact absurd isOverlong (readable overlong)
    · rfl

/-- With a depth greater than there are tokens, the compilation comes to its end. -/
theorem courseWithin_ends (deep : (lex source).length < depth) (enough : (lex source).countP itemIsVisible ≤ rounds) :
    ∃ after, (courseWithin depth rounds source).2 = .ok () after ∧
      after.code.size + after.diagnostics.size ≤ 8 * (lex source).length := by
  have both : Grammar.Alike False ((lex source).length + 1) depth depth := .inr ⟨deep, deep⟩
  obtain ⟨-, meets⟩ := courseWithin_meets readable both enough enough
  cases result : (courseWithin depth rounds source).2 with
  | ok answer after =>
    rw [result] at meets
    exact ⟨after, rfl, Nat.le_trans (Nat.le_add_right _ _) meets.2.2⟩
  | error halt after =>
    rw [result] at meets
    obtain ⟨short, readable, -⟩ := meets
    rcases courseWithin_explained result with ⟨overlong, isOverlong⟩ | ⟨isShort, -⟩
    · exact absurd isOverlong (readable overlong)
    · exact (short isShort).elim

end Courses

/-- Every source without an integer that is too long is compiled to its end, or up to the complaint about its nesting.
Not more than eight instructions and diagnostics come out for each token, the end among them. No loop goes round, and no
rule goes deeper into another one, without a token in between: with more rounds than there are tokens, or a greater
depth, not one request more is made, and if the nesting is not given up, the compilation comes to its end. -/
theorem compile_linear (source : String) (readable : ∀ overlong, .error overlong ∉ lex source) :
    ∃ (tokens : List PlacedToken) (last : Position), lex source = tokens.map .ok ++ [.ok ⟨.eof, last⟩] ∧
      (∀ placed ∈ tokens, placed.token ≠ .eof) ∧
      (∀ depth, (compile depth source).failure = none ∧
        (compile depth source).code.size + (compile depth source).diagnostics.size ≤ 8 * (tokens.length + 1) ∧
        ∀ rounds, tokens.length < rounds → compile depth source = .ofResult (courseWithin depth rounds source).2 ∧
          courseWithin depth rounds source = courseWithin depth (tokens.length + 1) source) ∧
      ∃ requests after, after.code.size + after.diagnostics.size ≤ 8 * (tokens.length + 1) ∧
        ∀ depth rounds, tokens.length + 1 < depth → tokens.length < rounds →
          courseWithin depth rounds source = (requests, .ok () after) := by
  obtain ⟨tokens, last, spelled, others⟩ := terminated_lex readable
  have length : (lex source).length = tokens.length + 1 := by simp [spelled]
  have visible : (lex source).countP itemIsVisible ≤ tokens.length + 1 := length ▸ List.countP_le_length
  have enough {rounds : Nat} (more : tokens.length < rounds) : (lex source).countP itemIsVisible ≤ rounds :=
    visible.trans more
  have rounds depth {b c : Nat} (enoughFirst : (lex source).countP itemIsVisible ≤ b)
      (enoughSecond : (lex source).countP itemIsVisible ≤ c) :
      courseWithin depth b source = courseWithin depth c source :=
    (courseWithin_meets readable (.inl ⟨trivial, rfl⟩) enoughFirst enoughSecond).1
  have depths {p q b : Nat} (deep : tokens.length + 1 < p) (further : tokens.length + 1 < q)
      (more : tokens.length < b) : courseWithin p b source = courseWithin q (tokens.length + 1) source := by
    have both : Grammar.Alike False ((lex source).length + 1) p q := .inr ⟨length ▸ deep, length ▸ further⟩
    exact (courseWithin_meets readable both (enough more) visible).1
  have deepest : (lex source).length < tokens.length + 2 := by omega
  obtain ⟨after, result, weight⟩ := courseWithin_ends readable deepest visible
  rw [length] at weight
  refine ⟨tokens, last, spelled, others, fun depth => ?_,
    (courseWithin (tokens.length + 2) (tokens.length + 1) source).1, after, weight, fun depth b deep more => ?_⟩
  · obtain ⟨ends, bounded⟩ := compile_eq_courseWithin depth source ▸ courseWithin_bounded readable (Nat.le_refl _)
    refine ⟨ends, length ▸ bounded, fun b more => ⟨?_, rounds depth (enough more) visible⟩⟩
    rw [compile_eq_courseWithin, rounds _ (Nat.le_refl _) (enough more)]
  · rw [depths deep (Nat.lt_succ_self _) more, ← result]

/-- A program in which a semicolon and the end are missing, with a character that begins no token. -/
def unfinishedSource : String :=
  "var x; begin x := 2 ? x := x"

theorem unfinishedSource_linear :
    (∀ overlong, .error overlong ∉ lex unfinishedSource) ∧ (lex unfinishedSource).length = 12 ∧
      ∀ depth, (compile depth unfinishedSource).failure = none ∧
        (compile depth unfinishedSource).code.size + (compile depth unfinishedSource).diagnostics.size ≤ 8 * 12 := by
  have checked : ((lex unfinishedSource).all Except.isOk && (lex unfinishedSource).length == 12) = true := by
    decide
  obtain ⟨readable, length⟩ : (lex unfinishedSource).all Except.isOk = true ∧ (lex unfinishedSource).length = 12 := by
    simpa only [Bool.and_eq_true, beq_iff_eq] using checked
  have noneOverlong : ∀ overlong, .error overlong ∉ lex unfinishedSource := by
    intro overlong mem
    exact absurd (List.all_eq_true.mp readable _ mem) Bool.false_ne_true
  obtain ⟨tokens, last, spelled, -, all, -⟩ := compile_linear unfinishedSource noneOverlong
  rw [spelled, List.length_append, List.length_map, List.length_singleton] at length
  refine ⟨noneOverlong, by rw [spelled]; simpa using length, fun depth => ?_⟩
  obtain ⟨ends, bounded, -⟩ := all depth
  exact ⟨ends, length ▸ bounded⟩

end PLZero
