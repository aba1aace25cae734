import Mathlib.Data.List.Chain
import PLZero.Proofs.Tree.Derivation

namespace PLZero

/-- Whether a token may follow another one, so that each `:=` has a name in front, and no equals sign behind it. -/
def Token.MayPrecede (first second : Token) : Prop :=
  (second = .fixed .assign → ∃ name, first = .identifier name) ∧
    (first = .fixed .assign → second.kind ≠ .fixed .eq)

/-- A row of tokens that may stand next to any other such row. -/
structure Neighbourly (tokens : List Token) : Prop where
  chain : tokens.IsChain Token.MayPrecede
  first : tokens.head? ≠ some (.fixed .assign)
  last : tokens.getLast? ≠ some (.fixed .assign)

namespace Neighbourly

variable {front behind tokens : List Token} {t : Token}

theorem append (before : Neighbourly front) (after : Neighbourly behind) : Neighbourly (front ++ behind) := by
  refine ⟨List.isChain_append.mpr ⟨before.chain, after.chain, fun t isLast u isFirst => ?_⟩, ?_, ?_⟩
  · refine ⟨fun isAssign => absurd ?_ after.first, fun isAssign => absurd ?_ before.last⟩
    · rw [← isAssign]
      exact isFirst
    · rw [← isAssign]
      exact isLast
  · rw [List.head?_append, ne_eq, Option.or_eq_some_iff]
    rintro (isFirst | ⟨-, isFirst⟩)
    · exact before.first isFirst
    · exact after.first isFirst
  · rw [List.getLast?_append, ne_eq, Option.or_eq_some_iff]
    rintro (isLast | ⟨-, isLast⟩)
    · exact after.last isLast
    · exact before.last isLast

theorem nil : Neighbourly [] :=
  ⟨.nil, by simp, by simp⟩

theorem singleton (other : t ≠ .fixed .assign) : Neighbourly [t] :=
  ⟨.singleton t, by simpa using other, by simpa using other⟩

theorem cons (other : t ≠ .fixed .assign) (after : Neighbourly tokens) : Neighbourly (t :: tokens) :=
  (singleton other).append after

theorem of_not_mem (absent : .fixed .assign ∉ tokens) : Neighbourly tokens := by
  induction tokens with
  | nil => exact nil
  | cons t tokens ih =>
    obtain ⟨other, absent⟩ := not_or.mp (List.mem_cons.not.mp absent)
    exact cons (Ne.symm other) (ih absent)

end Neighbourly

theorem mem_commaList {items : List (List Token)} {t : Token} (mem : t ∈ commaList items) :
    t = .fixed .comma ∨ ∃ item ∈ items, t ∈ item := by
  induction items with
  | nil => cases mem
  | cons item items ih =>
    cases items with
    | nil => exact .inr ⟨item, List.mem_cons_self, mem⟩
    | cons next others =>
      simp only [commaList, List.mem_append, List.mem_cons] at mem
      rcases mem with here | rfl | later
      · exact .inr ⟨item, List.mem_cons_self, here⟩
      · exact .inl rfl
      · rcases ih later with isComma | ⟨item, among, here⟩
        · exact .inl isComma
        · exact .inr ⟨item, List.mem_cons_of_mem _ among, here⟩

theorem assign_not_mem_commaList {items : List (List Token)} (absent : ∀ item ∈ items, .fixed .assign ∉ item) :
    .fixed .assign ∉ commaList items := by
  intro mem
  rcases mem_commaList mem with isComma | ⟨item, among, mem⟩
  · cases isComma
  · exact absent item among mem

theorem ne_assign_of_kind {t : Token} {kind : TokenKind} (isKind : t.kind = kind) (other : kind ≠ .fixed .assign) :
    t ≠ .fixed .assign := by
  rintro rfl
  exact other isKind.symm

theorem Expression.Derives.assign_not_mem {level : Level} {ts : List Token} {e : Expression}
    (derives : Derives level ts e) : .fixed .assign ∉ ts := by
  induction derives with
  | single _ _ ih => exact ih
  | joined joins isKind _ _ ihLeft ihRight =>
    have other := ne_assign_of_kind isKind (by cases joins <;> decide)
    simpa [ihLeft, ihRight] using other.symm
  | compared compares isKind _ _ ihLeft ihRight =>
    have other := ne_assign_of_kind isKind (by cases compares <;> decide)
    simpa [ihLeft, ihRight] using other.symm
  | call _ ih => simpa using assign_not_mem_commaList (List.forall_mem_map.mpr ih)
  | name | number => simp
  | _ => simpa

/-- No expression begins with an equals sign. -/
theorem Expression.Derives.exists_cons {level : Level} {ts : List Token} {e : Expression}
    (derives : Derives level ts e) : ∃ t rest, ts = t :: rest ∧ t.kind ≠ .fixed .eq := by
  induction derives with
  | single _ _ ih => exact ih
  | joined _ _ _ _ ih | compared _ _ _ _ ih =>
    obtain ⟨t, rest, rfl, other⟩ := ih
    exact ⟨t, _, rfl, other⟩
  | _ => exact ⟨_, _, rfl, by simp [Token.kind]⟩

theorem Statement.Derives.neighbourly {form : StatementForm} {ts : List Token} {s : Statement}
    (derives : Derives form ts s) : Neighbourly ts := by
  induction derives with
  | empty => exact .nil
  | @assignment target ts value derived =>
    have after := Neighbourly.of_not_mem derived.assign_not_mem
    obtain ⟨t, rest, rfl, other⟩ := derived.exists_cons
    refine ⟨?_, by simp, by simpa using after.last⟩
    refine .cons_cons ⟨fun _ => ⟨target, rfl⟩, fun isAssign => Token.noConfusion isAssign⟩
      (.cons_cons ⟨fun isAssign => ?_, fun _ => other⟩ after.chain)
    exact absurd (congrArg some isAssign) after.first
  | call derived =>
    refine .of_not_mem ?_
    simpa using assign_not_mem_commaList (List.forall_mem_map.mpr fun a mem => (derived a mem).assign_not_mem)
  | compound _ ih => exact (ih.append (.singleton (by decide))).cons (by decide)
  | ifThen test _ ih =>
    exact ((Neighbourly.of_not_mem test.assign_not_mem).append (ih.cons (by decide))).cons (by decide)
  | ifElse test _ _ ihConsequent ihAlternative =>
    have condition := Neighbourly.of_not_mem test.assign_not_mem
    exact ((condition.append (ihConsequent.cons (by decide))).append (ihAlternative.cons (by decide))).cons (by decide)
  | whileDo test _ ih =>
    exact ((Neighbourly.of_not_mem test.assign_not_mem).append (ih.cons (by decide))).cons (by decide)
  | repeatUntil _ test ih =>
    exact (ih.append ((Neighbourly.of_not_mem test.assign_not_mem).cons (by decide))).cons (by decide)
  | last _ ih => exact ih
  | sequence _ _ ihFirst ihRest => exact ihFirst.append (ihRest.cons (by decide))

theorem neighbourly_declarationPart {keyword : FixedKind} {items : List (List Token)} (other : keyword ≠ .assign)
    (absent : ∀ item ∈ items, .fixed .assign ∉ item) : Neighbourly (declarationPart keyword items) := by
  rw [declarationPart]
  split
  · exact .nil
  · refine .of_not_mem ?_
    simpa [other.symm] using assign_not_mem_commaList absent

theorem Heading.neighbourly (heading : Heading) : Neighbourly heading.tokens := by
  obtain ⟨kind, name, parameters⟩ := heading
  have names : .fixed .assign ∉ commaList (parameters.map fun name => [.identifier name]) :=
    assign_not_mem_commaList (List.forall_mem_map.mpr (by simp))
  refine .of_not_mem ?_
  cases kind <;> simpa [Heading.tokens, Routine.keyword] using names

theorem neighbourly_subroutinePart {subroutines : List (List Token × Heading × Block)}
    (blocks : ∀ s ∈ subroutines, Neighbourly s.1) : Neighbourly (subroutinePart subroutines) := by
  induction subroutines with
  | nil => exact .nil
  | cons first others ih =>
    obtain ⟨block, blocks⟩ := List.forall_mem_cons.mp blocks
    rw [subroutinePart_cons]
    exact ((first.2.1.neighbourly.append block).append (.singleton (by decide))).append (ih blocks)

theorem Block.Derives.neighbourly {ts : List Token} {block : Block} (derives : Derives ts block) :
    Neighbourly ts := by
  induction derives with
  | @mk constants vars subroutines us body derivedConstants _ derivedBody ih =>
    have constantTokens : ∀ ts ∈ constants.map (·.1), .fixed .assign ∉ ts := by
      refine List.forall_mem_map.mpr fun c mem => ?_
      obtain ⟨ts, constant⟩ := c
      cases derivedConstants _ mem with
      | mk isEq => simpa using (ne_assign_of_kind isEq (by decide)).symm
    have varTokens : ∀ ts ∈ vars.map (fun name => [Token.identifier name]), .fixed .assign ∉ ts :=
      List.forall_mem_map.mpr (by simp)
    have constantPart : Neighbourly (declarationPart .constKw _) :=
      neighbourly_declarationPart (by decide) constantTokens
    have varPart : Neighbourly (declarationPart .varKw _) := neighbourly_declarationPart (by decide) varTokens
    exact ((constantPart.append varPart).append (neighbourly_subroutinePart ih)).append derivedBody.neighbourly

/-- In a program each `:=` has its neighbours. -/
theorem Block.DerivesProgram.chain {tokens : List Token} {block : Block} (derives : block.DerivesProgram tokens) :
    (.eof :: (tokens ++ [.eof])).IsChain Token.MayPrecede := by
  obtain ⟨ts, derived, rfl⟩ := derives
  exact (((derived.neighbourly.append (.singleton (by decide))).append (.singleton (by decide))).cons (by decide)).chain

end PLZero
