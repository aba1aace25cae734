import PLZero.Proofs.Scoping.DanglingElse
import PLZero.Proofs.Translation.Compiler
import PLZero.Proofs.Tree.Completeness

namespace PLZero

/-- One pass with jumps that are filled in later makes the same code as the tree of the program: all sizes and addresses
are known before the code is written down. -/
theorem code_eq_program {depth : Nat} {source : String} {code : Array Instruction}
    (h : compileProgram depth source = .ok (.ok code)) :
    ∃ tree : Block, parse (sourceTokens source) = some tree ∧ tree.DerivesProgram (sourceTokens source) ∧
      tree.NearestElse ∧ tree.IsProgram ∧ code.toList = tree.program ∧
        (compile depth source).globals.toList = tree.globals := by
  obtain ⟨unfailing, clean, rfl⟩ := compileProgram_eq_ok_iff.mp h
  obtain ⟨legible, tree, atProgram, shallow, formed⟩ := program_of_compile unfailing clean
  obtain ⟨-, -, code, globals⟩ := compile_of_program legible atProgram shallow formed
  obtain ⟨derived, nearest⟩ := derives_of_parse atProgram
  exact ⟨tree, atProgram, derived, nearest, formed, code, globals⟩

/-- A program with a loop around a branch, and with a function within a procedure. -/
def countdownSource : String :=
  "var n; procedure p(a) function f(b) f := b - 1; " ++
    "while a > 0 do begin if odd a then n := n + f(a); a := a - 1 end; p(4)."

def countdownCode : Array Instruction :=
  #[.of .jump 0 38, .of .jump 0 11, .of .jump 0 3, .of .enter 0 4, .of .pushVar 0 (-1), .of .eval, .of .pushConst 0 1,
    .of (.binary .sub), .of .pushVar 0 3, .of .assign, .of .retf 0 1, .of .enter 0 4, .of .pushVar 0 (-1), .of .eval,
    .of .pushConst 0 0, .of (.binary .gt), .of .jneq 0 37, .of .pushVar 0 (-1), .of .eval, .of .pushConst 0 1,
    .of (.binary .band), .of .jneq 0 30, .of .pushVar 1 4, .of .eval, .of .pushVar 0 (-1), .of .eval, .of .call 0 3,
    .of (.binary .add), .of .pushVar 1 4, .of .assign, .of .pushVar 0 (-1), .of .eval, .of .pushConst 0 1,
    .of (.binary .sub), .of .pushVar 0 (-1), .of .assign, .of .jump 0 12, .of .ret 0 1, .of .enter 0 5,
    .of .pushConst 0 4, .of .call 0 11, .of .ret]

theorem compileProgram_countdownSource : compileProgram maxNesting countdownSource = .ok (.ok countdownCode) :=
  compileProgram_eq_ok_iff.mpr (by decide +kernel)

theorem countdownSource_code :
    ∃ tree : Block, parse (sourceTokens countdownSource) = some tree ∧
      tree.DerivesProgram (sourceTokens countdownSource) ∧ tree.NearestElse ∧ tree.IsProgram ∧
        countdownCode.toList = tree.program ∧ (compile maxNesting countdownSource).globals.toList = tree.globals :=
  code_eq_program compileProgram_countdownSource

/-- No token of a source stands for something that the grammar does not speak of. -/
def Grammatical (source : String) : Prop :=
  ∀ t ∈ sourceTokens source, t.kind ≠ .unknown ∧ t.kind ≠ .badComment ∧ t.kind ≠ .real

theorem legible_of_grammatical {source : String} (readable : ∀ overlong, .error overlong ∉ lex source)
    (grammatical : Grammatical source) : Legible source := by
  obtain ⟨items, final, spelled, ⟨position, rfl⟩, -⟩ := lex_ends source
  intro item mem
  cases item with
  | error overlong => exact absurd mem (readable overlong)
  | ok placed =>
    refine ⟨placed, rfl, ?_⟩
    rw [spelled, List.mem_append, List.mem_singleton] at mem
    rcases mem with mem | same
    · have among : placed.token ∈ sourceTokens source := by
        rw [sourceTokens, spelled, List.dropLast_concat, mem_tokensOf]
        exact ⟨placed, mem, rfl⟩
      obtain ⟨known, closed, -⟩ := grammatical _ among
      obtain ⟨t, position⟩ := placed
      cases t <;> first | rfl | exact absurd rfl known | exact absurd rfl closed
    · cases same
      rfl

/-- The compiler accepts exactly the language: a source without integers that cannot be read, and that does not nest too
deep, compiles if its tokens are ones of the grammar, the grammar derives them, and the static rules hold. -/
theorem compiles_iff {depth : Nat} {source : String} (readable : ∀ overlong, .error overlong ∉ lex source)
    (shallow : ∀ tree : Block, tree.DerivesProgram (sourceTokens source) → tree.NearestElse →
      tree.nesting ≤ depth) :
    (∃ code, compileProgram depth source = .ok (.ok code)) ↔
      Grammatical source ∧ ∃ tree : Block, tree.DerivesProgram (sourceTokens source) ∧ tree.IsProgram := by
  constructor
  · rintro ⟨code, compiled⟩
    obtain ⟨unfailing, clean, -⟩ := compileProgram_eq_ok_iff.mp compiled
    obtain ⟨-, tree, atProgram, -, formed⟩ := program_of_compile unfailing clean
    obtain ⟨derived, -⟩ := derives_of_parse atProgram
    refine ⟨fun t mem => ?_, tree, derived, formed⟩
    obtain isTerminal | isTerminal | ⟨kind, isTerminal⟩ := derived.isTerminal t mem <;> simp [isTerminal]
  · rintro ⟨grammatical, tree, derived, formed⟩
    have legible := legible_of_grammatical readable grammatical
    have nearest := tree.settled_nearest
    have atProgram := parse_eq_some_iff.mpr ⟨derived.settled, nearest⟩
    obtain ⟨unfailing, clean, -, -⟩ :=
      compile_of_program legible atProgram (shallow _ derived.settled nearest) formed.settled
    exact ⟨_, compileProgram_eq_ok_iff.mpr ⟨unfailing, clean, rfl⟩⟩

theorem countdownSource_accepted :
    (∀ overlong, .error overlong ∉ lex countdownSource) ∧ Grammatical countdownSource ∧
      ∃ tree : Block, tree.DerivesProgram (sourceTokens countdownSource) ∧ tree.IsProgram := by
  have readable := readable_of_compileProgram compileProgram_countdownSource
  have short : countdownSource.length < maxNesting := by decide +kernel
  have few := length_sourceTokens_le countdownSource
  have fewTokens : (sourceTokens countdownSource).length + 1 ≤ maxNesting := by omega
  exact ⟨readable, (compiles_iff readable fun _ derived _ => Nat.le_trans derived.nesting_le fewTokens).mp
    ⟨countdownCode, compileProgram_countdownSource⟩⟩

end PLZero
