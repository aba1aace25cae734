import PLZero.Proofs.Translation.Blocks
import PLZero.Proofs.Tree.Completeness

namespace PLZero

/-- The sketch of a program before its first token is read. -/
def Sketch.ofTokens (tokens : List Token) : Sketch :=
  ⟨.eof :: tokens, tokens.length + 1, [], .empty, []⟩

namespace Grammar

open Production

variable {depth : Nat} {tokens : List Token}

theorem ofTokens_fits : ((Sketch.ofTokens tokens).at tokens).Fits (tokens.length + 1) [Block.headingFrame none] :=
  ⟨SymbolTable.Holds.empty.enter none, rfl⟩

/-- What the compilation of a well-formed program comes to, if it does not nest too deep. -/
theorem program_produces {tree : Block} (atProgram : parse tokens = some tree) (shallow : tree.nesting ≤ depth)
    (formed : tree.IsProgram) :
    ∃ after, (program depth).clean (.ofTokens tokens) = some ((), after) ∧ after.tokens = [] ∧
      after.code = tree.program ∧ after.globals = tree.globals := by
  have spelled := Parser.program_eq_some_iff.mpr ⟨atProgram, shallow⟩
  simp only [Parser.program, Parser.bind_apply, Parser.pure_apply, Option.bind_eq_some_iff, Prod.exists,
    Option.some.injEq, Prod.mk.injEq] at spelled
  obtain ⟨_, ts, atBlock, _, _, atEnd, rfl, rfl⟩ := spelled
  obtain ⟨middle, ran, rfl, adds⟩ := (block_compiles depth).produces .main ofTokens_fits atBlock formed
  have advanced : advance.clean (Sketch.ofTokens tokens) = some ((), (Sketch.ofTokens tokens).at tokens) := rfl
  refine ⟨middle.at [], ?_, rfl, adds.code_eq, adds.globals_eq⟩
  simp [program, advanced, ran, clean_require, atEnd, Token.kind]

/-- A compilation without complaints is that of a well-formed program. -/
theorem program_admits {after : Sketch} (noEnd : .eof ∉ tokens)
    (ran : (program depth).clean (.ofTokens tokens) = some ((), after)) :
    after.tokens = [] ∧ ∃ tree, parse tokens = some tree ∧ tree.nesting ≤ depth ∧ tree.IsProgram := by
  have advanced : advance.clean (Sketch.ofTokens tokens) = some ((), (Sketch.ofTokens tokens).at tokens) := rfl
  simp only [program, clean_bind, advanced, Option.bind_some, Option.bind_eq_some_iff, Prod.exists, clean_require,
    Option.map_eq_some_iff, clean_token] at ran
  obtain ⟨_, middle, ranBlock, _, _, ⟨_, rest, atEnd, same⟩, ran⟩ := ran
  cases same
  obtain ⟨t, atFront, isPeriod⟩ := Parser.require_eq_some atEnd
  obtain ⟨tree, atBlock, formed⟩ := (block_compiles depth).admits .main List.nodup_nil ofTokens_fits ranBlock
    (not_atParen_of_kind atFront isPeriod (by decide))
  have atProgram : Parser.program (tokens.length + 1) depth tokens = some (tree, rest) := by
    rw [Sketch.at_tokens] at atBlock
    simp [Parser.program, atBlock, atEnd]
  obtain ⟨front, spelled, -⟩ := Parser.program_sound (Nat.lt_succ_self _) atProgram
  have atLast : (currentToken rest).kind = .eof := by
    by_contra more
    simp [more] at ran
  cases rest with
  | cons t rest =>
    have isEnd : t = .eof := by cases t <;> simp_all [Token.kind]
    exact absurd (by simp [spelled, isEnd]) noEnd
  | nil =>
    obtain rfl : middle.at [] = after := by simpa [Token.kind] using ran
    obtain ⟨whole, shallow⟩ := Parser.program_eq_some_iff.mp atProgram
    exact ⟨rfl, tree, whole, shallow, formed⟩

end Grammar

end PLZero
