import PLZero.Proofs.Recovery.Blocks
import PLZero.Proofs.Translation.Compiler

namespace PLZero

/-- What is in the table when a request is made: just the declarations in the open blocks, no two with one name and one
level, and none from a deeper level but the parameters in a heading. A name refers to its declaration in the innermost
block that has one. When a block is closed, the table becomes what it was in front of its heading, but for the entry of
the subroutine, which is complete then. -/
structure Occasion.Scoped (o : Occasion) : Prop where
  distinct : (o.draft.symbols.toList.map (·.key)).Nodup
  declared : (o.draft.symbols.toList.map (·.asDeclared)).Perm (o.watch.declarations.map (·.asDeclared))
  levels : ∀ e ∈ o.draft.symbols.toList,
    e.level ≤ o.watch.level ∨ e.level = o.watch.level + 1 ∧ ∃ parameter ∈ o.watch.pending, parameter.key = e.key
  places : ∀ symbol, o.request = .declare symbol → o.watch.Places symbol
  resolves : ∀ name, o.request = .resolve name → (o.draft.symbols.resolve name).map (·.asDeclared) =
    (OpenBlock.lookup name o.watch.blocks).map (·.asDeclared)
  closes : ∀ level, o.request = .purge level →
    ∃ entry block outer, o.watch.Closes o.draft.symbols level entry block outer

theorem Watch.Allows.scoped {o : Occasion} (allows : o.watch.Allows o.draft.symbols o.request) : o.Scoped := by
  obtain ⟨⟨entries, holds⟩, fits⟩ := allows
  refine ⟨holds.nodup, holds.perm, fun e mem => ?_, fun symbol request => ?_, fun name request => ?_,
    fun level request => ?_⟩
  · rw [holds.table_eq, (SymbolTable.toList_ofList entries).mem_iff] at mem
    rw [Watch.level]
    rcases holds.level_cases mem with below | ⟨atLevel, parameter⟩
    · omega
    · exact .inr ⟨by omega, parameter⟩
  · rw [request] at fits
    exact fits
  · rw [request] at fits
    obtain ⟨⟨entry, atStatement⟩, -⟩ := fits
    exact holds.resolve (by rw [Watch.pending, atStatement]) name
  · rw [request] at fits
    exact fits

/-- The compilation of a program has come to the end of it. It has not been given up for the nesting of the program, nor
for an integer that is too long. -/
def Compilation.IsWhole (compilation : Compilation) : Prop :=
  (∀ diagnostic ∈ compilation.diagnostics, diagnostic.complaint ≠ .tooDeep) ∧
    ∀ error, compilation.failure ≠ some (.overlongInteger error)

theorem Compilation.IsWhole.exists_run {depth : Nat} {source : String} (isWhole : (compile depth source).IsWhole) :
    ∃ draft, (Grammar.program depth).run (.ofSource source) = .ok () draft ∧
      compile depth source = .ofDraft draft none := by
  cases ran : (Grammar.program depth).run (.ofSource source) with
  | ok u draft => exact ⟨draft, rfl, compile_of_run ran⟩
  | error halt draft =>
    obtain ⟨shallow, readable⟩ := isWhole
    rw [compile_of_run_error ran] at shallow readable
    rcases (Grammar.program_heeds depth rfl rfl).of_halt ran with ⟨error, rfl⟩ | ⟨-, diagnostic, mem, tooDeep⟩
    · exact absurd rfl (readable error)
    · exact absurd tooDeep (shallow diagnostic mem)

/-- Lexical scoping, with or without errors in the program. The table is as the open blocks tell whenever something is
asked of the compilation, and at the end of the program it is empty. -/
theorem lexical_scoping (depth : Nat) (source : String) :
    (∀ o ∈ (Grammar.program depth).occasions .start (.ofSource source), o.Scoped) ∧
      ((compile depth source).IsWhole → (compile depth source).symbols = .empty) := by
  have heeds := @Grammar.program_heeds depth (.ofSource source) rfl rfl
  refine ⟨fun o mem => (heeds.forall_occasions o mem).scoped, fun isWhole => ?_⟩
  obtain ⟨draft, ran, compiled⟩ := isWhole.exists_run
  rw [compiled]
  exact (heeds.of_run ran).1

/-- A program with a name declared twice, one that is not declared, wrong calls, and brackets that are not closed. -/
def muddledSource : String :=
  "var x, x; procedure p(x) begin x := y(; p() end procedure x(; if x then x := 1 else p(2)."

theorem muddledSource_compiles :
    (compile maxNesting muddledSource).failure = none ∧ (compile maxNesting muddledSource).errorCount = 8 ∧
      ∀ diagnostic ∈ (compile maxNesting muddledSource).diagnostics, diagnostic.complaint ≠ .tooDeep := by
  decide +kernel

theorem muddledSource_isWhole : (compile maxNesting muddledSource).IsWhole := by
  obtain ⟨unfailing, -, shallow⟩ := muddledSource_compiles
  refine ⟨shallow, fun error failed => ?_⟩
  rw [unfailing] at failed
  cases failed

/-- Within the procedure the name of a variable of the program is that of its parameter. -/
theorem muddledSource_lexical_scoping :
    (compile maxNesting muddledSource).errorCount = 8 ∧ (compile maxNesting muddledSource).symbols = .empty ∧
      ∃ o ∈ (Grammar.program maxNesting).occasions .start (.ofSource muddledSource), o.request = .resolve "x" ∧
        (o.draft.symbols.resolve "x").map (·.asDeclared) =
          some { name := "x", kind := .var, level := 1, value := -1 } := by
  obtain ⟨moments, empties⟩ := lexical_scoping maxNesting muddledSource
  have asked : (((Grammar.program maxNesting).occasions .start (.ofSource muddledSource))[53]?).map
      (fun o => (o.request, OpenBlock.lookup "x" o.watch.blocks)) =
        some (.resolve "x", some { name := "x", kind := .var, level := 1, value := -1 }) := by
    decide +kernel
  obtain ⟨o, here, tells⟩ := Option.map_eq_some_iff.mp asked
  obtain ⟨request, found⟩ := Prod.mk.inj tells
  have mem := List.mem_of_getElem? here
  refine ⟨muddledSource_compiles.2.1, empties muddledSource_isWhole, o, mem, request, ?_⟩
  rw [(moments o mem).resolves "x" request, found]
  rfl

end PLZero
