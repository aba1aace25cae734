import PLZero.Proofs.Tree.Basic
import PLZero.Token

namespace PLZero

/-- The nonterminals of expressions, the loosest first. -/
inductive Level where
  | condition | conjunction | relation | expression | term | unary | factor
deriving DecidableEq, Repr

/-- The nonterminal of the operands of a level. -/
def Level.operand : Level → Level
  | condition => conjunction
  | conjunction => relation
  | relation => expression
  | expression => term
  | term => unary
  | unary | factor => factor

/-- The operators that may follow one another at a level, with an operand behind each. -/
inductive Joins : Level → FixedKind → BinaryOp → Prop
  | or : Joins .condition .or .lor
  | and : Joins .conjunction .and .land
  | plus : Joins .expression .plus .add
  | minus : Joins .expression .minus .sub
  | pipe : Joins .expression .pipe .bor
  | caret : Joins .expression .caret .bxor
  | star : Joins .term .star .mul
  | slash : Joins .term .slash .div
  | percent : Joins .term .percent .rem
  | ampersand : Joins .term .ampersand .band
  | lshift : Joins .term .lshift .lshift
  | rshift : Joins .term .rshift .rshift

/-- The operators that may stand once between the expressions of a relation. -/
inductive Compares : FixedKind → BinaryOp → Prop
  | eq : Compares .eq .equ
  | ne : Compares .ne .neq
  | lt : Compares .lt .lt
  | le : Compares .le .lte
  | gt : Compares .gt .gt
  | ge : Compares .ge .gte

/-- Phrases with a comma between each two. -/
def commaList : List (List Token) → List Token
  | [] => []
  | [item] => item
  | item :: rest => item ++ .fixed .comma :: commaList rest

/-- The tokens that the grammar allows for an expression, level by level. Repetition is left recursion here, so that
operators group from the left. -/
inductive Expression.Derives : Level → List Token → Expression → Prop
  | single {level ts e} : level ≠ .factor → Derives level.operand ts e → Derives level ts e
  | joined {level kind op ts t us a b} : Joins level kind op → t.kind = .fixed kind → Derives level ts a →
      Derives level.operand us b → Derives level (ts ++ t :: us) (.binary op a b)
  | compared {kind op ts t us a b} : Compares kind op → t.kind = .fixed kind → Derives .expression ts a →
      Derives .expression us b → Derives .relation (ts ++ t :: us) (.binary op a b)
  | odd {ts e} : Derives .expression ts e → Derives .relation (.fixed .oddKw :: ts) (.odd e)
  | plus {ts e} : Derives .term ts e → Derives .expression (.fixed .plus :: ts) e
  | minus {ts e} : Derives .term ts e → Derives .expression (.fixed .minus :: ts) (.unary .neg e)
  | not {ts e} : Derives .unary ts e → Derives .unary (.fixed .not :: ts) (.unary .not e)
  | complement {ts e} : Derives .unary ts e → Derives .unary (.fixed .tilde :: ts) (.unary .comp e)
  | name {name} : Derives .factor [.identifier name] (.name name)
  | call {name} {arguments : List (List Token × Expression)} :
      (∀ a ∈ arguments, Derives .expression a.1 a.2) →
      Derives .factor (.identifier name :: .fixed .lparen :: commaList (arguments.map (·.1)) ++ [.fixed .rparen])
        (.call name (arguments.map (·.2)))
  | number {value} : Derives .factor [.integer value] (.number value)
  | group {ts e} : Derives .condition ts e →
      Derives .factor (.fixed .lparen :: ts ++ [.fixed .rparen]) (.group e)

/-- A single statement, or several with semicolons between them. -/
inductive StatementForm where
  | single | series
deriving DecidableEq, Repr

/-- The tokens that the grammar allows for a statement. It leaves open to which `if` an `else` belongs. -/
inductive Statement.Derives : StatementForm → List Token → Statement → Prop
  | empty : Derives .single [] .empty
  | assignment {target ts value} : Expression.Derives .expression ts value →
      Derives .single (.identifier target :: .fixed .assign :: ts) (.assignment target value)
  | call {name} {arguments : List (List Token × Expression)} :
      (∀ a ∈ arguments, Expression.Derives .expression a.1 a.2) →
      Derives .single (.identifier name :: .fixed .lparen :: commaList (arguments.map (·.1)) ++ [.fixed .rparen])
        (.call name (arguments.map (·.2)))
  | compound {ts body} : Derives .series ts body →
      Derives .single (.fixed .beginKw :: ts ++ [.fixed .endKw]) (.compound body)
  | ifThen {cs condition ts consequent} : Expression.Derives .condition cs condition →
      Derives .single ts consequent →
      Derives .single (.fixed .ifKw :: cs ++ .fixed .thenKw :: ts) (.ifThen condition consequent)
  | ifElse {cs condition ts consequent us alternative} : Expression.Derives .condition cs condition →
      Derives .single ts consequent → Derives .single us alternative →
      Derives .single (.fixed .ifKw :: cs ++ .fixed .thenKw :: ts ++ .fixed .elseKw :: us)
        (.ifElse condition consequent alternative)
  | whileDo {cs condition ts body} : Expression.Derives .condition cs condition → Derives .single ts body →
      Derives .single (.fixed .whileKw :: cs ++ .fixed .doKw :: ts) (.whileDo condition body)
  | repeatUntil {ts body cs condition} : Derives .single ts body → Expression.Derives .condition cs condition →
      Derives .single (.fixed .repeatKw :: ts ++ .fixed .untilKw :: cs) (.repeatUntil body condition)
  | last {ts statement} : Derives .single ts statement → Derives .series ts statement
  | sequence {ts first us rest} : Derives .single ts first → Derives .series us rest →
      Derives .series (ts ++ .fixed .semicolon :: us) (.sequence first rest)

/-- The tokens of a constant with its value, the equals sign single or double. -/
inductive DerivesConstant : List Token → String × Nat → Prop
  | mk {name t value} : t.kind = .fixed .eq → DerivesConstant [.identifier name, t, .integer value] (name, value)

/-- A list of declarations behind their keyword, or nothing at all. -/
def declarationPart (keyword : FixedKind) (items : List (List Token)) : List Token :=
  if items = [] then [] else .fixed keyword :: commaList items ++ [.fixed .semicolon]

def Routine.keyword : Routine → FixedKind
  | procedure => .procedureKw
  | function => .functionKw

def Heading.tokens (heading : Heading) : List Token :=
  .fixed heading.kind.keyword :: .identifier heading.name :: .fixed .lparen ::
    commaList (heading.parameters.map fun name => [.identifier name]) ++ [.fixed .rparen]

/-- The subroutines of a block, the tokens of each block given. -/
def subroutinePart (subroutines : List (List Token × Heading × Block)) : List Token :=
  subroutines.flatMap fun s => s.2.1.tokens ++ s.1 ++ [.fixed .semicolon]

@[simp] theorem subroutinePart_nil : subroutinePart [] = [] := rfl

theorem subroutinePart_cons {first : List Token × Heading × Block} {others : List (List Token × Heading × Block)} :
    subroutinePart (first :: others) =
      first.2.1.tokens ++ first.1 ++ [.fixed .semicolon] ++ subroutinePart others := rfl

/-- The tokens that the grammar allows for a block. -/
inductive Block.Derives : List Token → Block → Prop
  | mk {constants : List (List Token × String × Nat)} {vars : List String}
      {subroutines : List (List Token × Heading × Block)} {ts body} :
      (∀ c ∈ constants, DerivesConstant c.1 c.2) → (∀ s ∈ subroutines, Derives s.1 s.2.2) →
      Statement.Derives .single ts body →
      Derives
        (declarationPart .constKw (constants.map (·.1)) ++
          declarationPart .varKw (vars.map fun name => [.identifier name]) ++
          subroutinePart subroutines ++ ts)
        (.mk (constants.map (·.2)) vars (subroutines.map (·.2)) body)

/-- The tokens that the grammar allows for a whole program. -/
def Block.DerivesProgram (tokens : List Token) (block : Block) : Prop :=
  ∃ ts, Block.Derives ts block ∧ tokens = ts ++ [.fixed .period]

/-- The tokens that the grammar speaks of. -/
def Token.IsTerminal (t : Token) : Prop :=
  t.kind = .identifier ∨ t.kind = .integer ∨ ∃ kind, t.kind = .fixed kind

@[simp] theorem isTerminal_identifier (name : String) : (Token.identifier name).IsTerminal := .inl rfl

@[simp] theorem isTerminal_integer (value : Nat) : (Token.integer value).IsTerminal := .inr (.inl rfl)

@[simp] theorem isTerminal_fixed (kind : FixedKind) : (Token.fixed kind).IsTerminal := .inr (.inr ⟨kind, rfl⟩)

theorem isTerminal_of_kind {t : Token} {kind : FixedKind} (h : t.kind = .fixed kind) : t.IsTerminal :=
  .inr (.inr ⟨kind, h⟩)

theorem isTerminal_commaList {items : List (List Token)} (h : ∀ ts ∈ items, ∀ t ∈ ts, t.IsTerminal) :
    ∀ t ∈ commaList items, t.IsTerminal := by
  induction items with
  | nil => simp [commaList]
  | cons item items ih =>
    simp only [List.mem_cons, forall_eq_or_imp] at h
    cases items with
    | nil => simpa [commaList] using h.1
    | cons next others =>
      simp only [commaList, List.mem_append, List.mem_cons]
      rintro t (mem | rfl | mem)
      · exact h.1 t mem
      · simp
      · exact ih h.2 t mem

theorem Expression.Derives.isTerminal {level : Level} {ts : List Token} {e : Expression} (h : Derives level ts e) :
    ∀ t ∈ ts, t.IsTerminal := by
  induction h with
  | call _ ih =>
    have listed := isTerminal_commaList (List.forall_mem_map.mpr ih)
    simpa [or_imp, forall_and] using listed
  | joined _ isKind _ _ ihLeft ihRight | compared _ isKind _ _ ihLeft ihRight =>
    simpa [or_imp, forall_and, isTerminal_of_kind isKind] using ⟨ihLeft, ihRight⟩
  | single _ _ ih => exact ih
  | _ => simp_all [or_imp]

theorem Statement.Derives.isTerminal {form : StatementForm} {ts : List Token} {s : Statement}
    (h : Derives form ts s) : ∀ t ∈ ts, t.IsTerminal := by
  induction h with
  | assignment value => simpa using value.isTerminal
  | call arguments =>
    have listed := isTerminal_commaList (List.forall_mem_map.mpr fun a ha => (arguments a ha).isTerminal)
    simpa [or_imp, forall_and] using listed
  | ifThen test _ ih => simpa [or_imp, forall_and] using ⟨test.isTerminal, ih⟩
  | ifElse test _ _ ihConsequent ihAlternative =>
    simpa [or_imp, forall_and] using ⟨test.isTerminal, ihConsequent, ihAlternative⟩
  | whileDo test _ ih => simpa [or_imp, forall_and] using ⟨test.isTerminal, ih⟩
  | repeatUntil _ test ih => simpa [or_imp, forall_and] using ⟨ih, test.isTerminal⟩
  | last _ ih => exact ih
  | _ => simp_all [or_imp]

theorem isTerminal_declarationPart {keyword : FixedKind} {items : List (List Token)}
    (h : ∀ ts ∈ items, ∀ t ∈ ts, t.IsTerminal) : ∀ t ∈ declarationPart keyword items, t.IsTerminal := by
  rw [declarationPart]
  split
  · simp
  · simpa [or_imp, forall_and] using isTerminal_commaList h

theorem Block.Derives.isTerminal {ts : List Token} {block : Block} (h : Derives ts block) :
    ∀ t ∈ ts, t.IsTerminal := by
  induction h with
  | @mk constants vars subroutines us body derivedConstants _ derivedBody ih =>
    have constantTokens : ∀ ts ∈ constants.map (·.1), ∀ t ∈ ts, t.IsTerminal := by
      refine List.forall_mem_map.mpr fun c hc => ?_
      obtain ⟨ts, constant⟩ := c
      cases derivedConstants _ hc with
      | mk isEq => simp [isTerminal_of_kind isEq]
    have names : ∀ (names : List String), ∀ ts ∈ names.map (fun name => [Token.identifier name]), ∀ t ∈ ts,
        t.IsTerminal := fun names => List.forall_mem_map.mpr (by simp)
    have headings : ∀ (heading : Heading), ∀ t ∈ heading.tokens, t.IsTerminal := by
      intro heading
      simpa [Heading.tokens, or_imp, forall_and] using isTerminal_commaList (names heading.parameters)
    intro t mem
    simp only [List.mem_append, subroutinePart, List.mem_flatMap, List.mem_singleton] at mem
    rcases mem with ((mem | mem) | ⟨s, hs, (mem | mem) | rfl⟩) | mem
    · exact isTerminal_declarationPart constantTokens t mem
    · exact isTerminal_declarationPart (names vars) t mem
    · exact headings _ t mem
    · exact ih s hs t mem
    · simp
    · exact derivedBody.isTerminal t mem

theorem Block.DerivesProgram.isTerminal {tokens : List Token} {block : Block} (h : block.DerivesProgram tokens) :
    ∀ t ∈ tokens, t.IsTerminal := by
  obtain ⟨ts, derived, rfl⟩ := h
  simpa [or_imp, forall_and] using derived.isTerminal

theorem length_le_commaList {items : List (List Token)} :
    ∀ ts ∈ items, ts.length ≤ (commaList items).length := by
  induction items with
  | nil => simp
  | cons item items ih =>
    cases items with
    | nil => simp [commaList]
    | cons next others =>
      rintro ts (- | ⟨-, mem⟩)
      · simp [commaList]
      · have := ih ts mem
        simp only [commaList, List.length_append, List.length_cons]
        omega

theorem length_le_subroutinePart {subroutines : List (List Token × Heading × Block)} :
    ∀ s ∈ subroutines, s.1.length + 1 ≤ (subroutinePart subroutines).length := by
  induction subroutines with
  | nil => simp
  | cons first others ih =>
    rintro s (- | ⟨-, mem⟩)
    · simp only [subroutinePart_cons, List.length_append, List.length_singleton]
      omega
    · have := ih s mem
      simp only [subroutinePart_cons, List.length_append, List.length_singleton]
      omega

theorem Expression.greatestNesting_le_commaList {arguments : List (List Token × Expression)}
    (h : ∀ a ∈ arguments, a.2.nesting ≤ a.1.length) :
    Expression.greatestNesting (arguments.map (·.2)) ≤ (commaList (arguments.map (·.1))).length :=
  Expression.greatestNesting_le.mpr <| List.forall_mem_map.mpr fun a mem =>
    Nat.le_trans (h a mem) (length_le_commaList _ (List.mem_map_of_mem mem))

/-- Every nested part takes a token of its own. -/
theorem Expression.Derives.nesting_le {level : Level} {ts : List Token} {e : Expression} (h : Derives level ts e) :
    e.nesting ≤ ts.length := by
  induction h with
  | call _ ih =>
    have listed := greatestNesting_le_commaList ih
    simp only [nesting, List.length_append, List.length_cons]
    omega
  | _ => simp_all [nesting]; try omega

theorem Statement.Derives.nesting_le {form : StatementForm} {ts : List Token} {s : Statement}
    (h : Derives form ts s) : s.nesting ≤ ts.length + 1 := by
  induction h with
  | call arguments =>
    have listed := Expression.greatestNesting_le_commaList fun a mem => (arguments a mem).nesting_le
    simp only [nesting, List.length_append, List.length_cons]
    omega
  | assignment value =>
    have := value.nesting_le
    simp only [nesting, List.length_cons]
    omega
  | ifThen test | ifElse test | whileDo test | repeatUntil _ test =>
    have := test.nesting_le
    simp only [nesting, List.length_append, List.length_cons]
    omega
  | _ => simp_all [nesting]; try omega

theorem Block.Derives.nesting_le {ts : List Token} {block : Block} (h : Derives ts block) :
    block.nesting ≤ ts.length + 2 := by
  induction h with
  | @mk constants vars subroutines us body _ _ derivedBody ih =>
    have nested : Block.greatestNesting (subroutines.map (·.2)) ≤ (subroutinePart subroutines).length + 1 := by
      refine Block.greatestNesting_le.mpr (List.forall_mem_map.mpr fun s mem => ?_)
      have := ih s mem
      have := length_le_subroutinePart s mem
      omega
    have := derivedBody.nesting_le
    simp only [nesting, List.length_append]
    omega

theorem Block.DerivesProgram.nesting_le {tokens : List Token} {block : Block} (h : block.DerivesProgram tokens) :
    block.nesting ≤ tokens.length + 1 := by
  obtain ⟨ts, derived, rfl⟩ := h
  simpa using derived.nesting_le

end PLZero
