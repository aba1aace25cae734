import PLZero.Grammar.Block
import PLZero.Proofs.Generation.Code
import PLZero.Proofs.Tree.Parser

namespace PLZero

/-- A compilation without complaints: the tokens that are left, the end not among them, and what has come out so far. -/
structure Sketch where
  tokens : List Token
  bound : Nat
  code : List Instruction
  symbols : SymbolTable
  globals : List (String × Nat)

/-- The sketch with other tokens left. -/
def Sketch.at (sketch : Sketch) (tokens : List Token) : Sketch :=
  { sketch with tokens }

/-- The sketch with more code, and other tokens left. -/
def Sketch.put (sketch : Sketch) (tokens : List Token) (code : List Instruction) : Sketch :=
  { sketch with tokens, code := sketch.code ++ code }

/-- The answer to a request if there is nothing to complain about. -/
def Request.answer? : (request : Request) → Sketch → Option (request.Answer × Sketch)
  | token, sketch => some (currentToken sketch.tokens, sketch)
  | advance, sketch => some ((), { sketch with tokens := sketch.tokens.tail })
  | bound, sketch => some (sketch.bound, sketch)
  | report _, _ => none
  | here, sketch => some (sketch.code.length, sketch)
  | emit op level value, sketch =>
    match Instruction.ofLevel (.named op) (min level maxLevel) value with
    | .ok instruction => some (sketch.code.length, { sketch with code := sketch.code ++ [instruction] })
    | .error _ => none
  | patch position target, sketch =>
    some ((), { sketch with code := sketch.code.modify position fun instruction => { instruction with value := target } })
  | isDeclared name level, sketch => some (sketch.symbols.isDeclared name level, sketch)
  | resolve name, sketch => some (sketch.symbols.resolve name, sketch)
  | declare symbol, sketch => some ((), { sketch with symbols := sketch.symbols.declare symbol })
  | setValue name level value, sketch =>
    some ((), { sketch with symbols := sketch.symbols.modify name level fun symbol => { symbol with value } })
  | setArity name level arity, sketch =>
    some ((), { sketch with symbols := sketch.symbols.modify name level fun symbol => { symbol with arity } })
  | purge level, sketch => some ((), { sketch with symbols := (sketch.symbols.purge level).2 })
  | addGlobal name address, sketch => some ((), { sketch with globals := sketch.globals ++ [(name, address)] })
  | abandon, _ => none

namespace Production

/-- Performs the requests of a rule as long as there is nothing to complain about. -/
def clean {α : Type} : Production α → Sketch → Option (α × Sketch)
  | .done result, sketch => some (result, sketch)
  | .ask request next, sketch => (request.answer? sketch).bind fun answer => (next answer.1).clean answer.2

@[simp] theorem clean_pure {α : Type} (result : α) (sketch : Sketch) :
    (Pure.pure result : Production α).clean sketch = some (result, sketch) := rfl

@[simp] theorem clean_bind {α β : Type} (first : Production α) (next : α → Production β) (sketch : Sketch) :
    (first >>= next).clean sketch = (first.clean sketch).bind fun result => (next result.1).clean result.2 := by
  induction first generalizing sketch with
  | done result => rfl
  | ask request rest ih =>
    simp only [Bind.bind, Production.bind, clean, Option.bind_assoc] at ih ⊢
    exact congrArg _ (funext fun answer => ih answer.1 answer.2)

@[simp] theorem clean_map {α β : Type} (f : α → β) (rule : Production α) (sketch : Sketch) :
    (f <$> rule).clean sketch = (rule.clean sketch).map fun result => (f result.1, result.2) := by
  rw [map_eq_pure_bind, clean_bind]
  cases rule.clean sketch <;> rfl

@[simp] theorem clean_ite {α : Type} (c : Prop) [Decidable c] (first second : Production α) (sketch : Sketch) :
    (if c then first else second).clean sketch = if c then first.clean sketch else second.clean sketch := by
  split <;> rfl

@[simp] theorem clean_discard {α : Type} (rule : Production α) (sketch : Sketch) :
    (discard rule).clean sketch = (rule.clean sketch).map fun result => ((), result.2) := by
  have spelled : discard rule = (fun _ => ()) <$> rule := rfl
  rw [spelled, clean_map]

section Requests

variable (sketch : Sketch)

@[simp] theorem clean_token : token.clean sketch = some (currentToken sketch.tokens, sketch) := rfl

@[simp] theorem clean_advance : advance.clean sketch = some ((), sketch.at sketch.tokens.tail) := rfl

@[simp] theorem clean_bound : bound.clean sketch = some (sketch.bound, sketch) := rfl

@[simp] theorem clean_report (complaint : Complaint) : (report complaint).clean sketch = none := rfl

@[simp] theorem clean_here : here.clean sketch = some (sketch.code.length, sketch) := rfl

@[simp] theorem clean_patch (position target : Nat) : (patch position target).clean sketch =
    some ((), { sketch with
      code := sketch.code.modify position fun instruction => { instruction with value := target } }) := rfl

@[simp] theorem clean_isDeclared (name : String) (level : Int) :
    (isDeclared name level).clean sketch = some (sketch.symbols.isDeclared name level, sketch) := rfl

@[simp] theorem clean_resolve (name : String) :
    (resolve name).clean sketch = some (sketch.symbols.resolve name, sketch) := rfl

@[simp] theorem clean_declare (symbol : Symbol) :
    (declare symbol).clean sketch = some ((), { sketch with symbols := sketch.symbols.declare symbol }) := rfl

@[simp] theorem clean_setValue (name : String) (level value : Int) : (setValue name level value).clean sketch =
    some ((), { sketch with symbols := sketch.symbols.modify name level fun symbol => { symbol with value } }) := rfl

@[simp] theorem clean_setArity (name : String) (level : Int) (arity : Nat) : (setArity name level arity).clean sketch =
    some ((), { sketch with symbols := sketch.symbols.modify name level fun symbol => { symbol with arity } }) := rfl

@[simp] theorem clean_purge (level : Int) :
    (purge level).clean sketch = some ((), { sketch with symbols := (sketch.symbols.purge level).2 }) := rfl

@[simp] theorem clean_addGlobal (name : String) (address : Nat) : (addGlobal name address).clean sketch =
    some ((), { sketch with globals := sketch.globals ++ [(name, address)] }) := rfl

@[simp] theorem clean_abandon {α : Type} : (abandon : Production α).clean sketch = none := rfl

end Requests

end Production

namespace Grammar

open Production

section Tokens

variable (sketch : Sketch)

@[simp] theorem clean_check (kind : TokenKind) :
    (check kind).clean sketch = some (decide ((currentToken sketch.tokens).kind = kind), sketch) := rfl

@[simp] theorem clean_accept (kind : FixedKind) : (accept kind).clean sketch =
    (Parser.accept kind sketch.tokens).map fun result => (result.1, sketch.at result.2) := by
  simp only [accept, clean_bind, clean_check, Parser.accept, Option.bind_some, clean_ite, decide_eq_true_eq]
  split <;> rfl

theorem clean_expect (kind : FixedKind) : (expect kind).clean sketch =
    (Parser.require kind sketch.tokens).map fun result => (true, sketch.at result.2) := by
  simp only [expect, clean_bind, clean_accept, Parser.accept, Parser.require]
  split <;> simp

theorem clean_require (kind : FixedKind) : (require kind).clean sketch =
    (Parser.require kind sketch.tokens).map fun result => (result.1, sketch.at result.2) := by
  rw [require, clean_discard, clean_expect]
  cases Parser.require kind sketch.tokens <;> rfl

theorem clean_acceptOperator {Op : Type} (operator : FixedKind → Option Op) : (acceptOperator operator).clean sketch =
    (Parser.acceptOperator operator sketch.tokens).map fun result => (result.1, sketch.at result.2) := by
  simp only [acceptOperator, clean_bind, clean_token, Option.bind_some, Parser.acceptOperator, operatorOf]
  cases (currentToken sketch.tokens).kind with
  | fixed kind => cases isOp : operator kind <;> simp [isOp, Sketch.at]
  | _ => rfl

theorem clean_expectIdentifier : expectIdentifier.clean sketch =
    (Parser.identifier sketch.tokens).map fun result => (some result.1, sketch.at result.2) := by
  obtain ⟨tokens, bound, code, symbols, globals⟩ := sketch
  cases tokens with
  | nil => rfl
  | cons t rest => cases t <;> rfl

theorem clean_expectInteger : expectInteger.clean sketch =
    (Parser.integer sketch.tokens).map fun result => (some result.1, sketch.at result.2) := by
  obtain ⟨tokens, bound, code, symbols, globals⟩ := sketch
  cases tokens with
  | nil => rfl
  | cons t rest => cases t <;> rfl

theorem clean_literal (value : Nat) : (literal value).clean sketch =
    if (value : Int) ≤ greatestWord then some ((value : Int), sketch) else none := by
  simp only [literal, clean_ite]
  split
  · rename_i large
    rw [if_neg (by omega)]
    rfl
  · rw [if_pos (by omega)]
    rfl

/-- An instruction for a level that a byte can hold is appended as it is. -/
theorem clean_emit {op : Opcode} {distance : Nat} {value : Int} (small : distance ≤ maxLevel) :
    (emit op distance value).clean sketch =
      some (sketch.code.length, sketch.put sketch.tokens [.of op distance value]) := by
  have level : min (distance : Int) maxLevel = distance := by omega
  have answer : (Request.emit op distance value).answer? sketch =
      some (sketch.code.length, sketch.put sketch.tokens [.of op distance value]) := by
    have inByte : (0 : Int) ≤ distance ∧ (distance : Int) ≤ maxLevel := by omega
    have same : (⟨distance, by omega⟩ : Fin (maxLevel + 1)) = Fin.ofNat _ distance :=
      Fin.ext (Nat.mod_eq_of_lt (Nat.lt_succ_of_le small)).symm
    simp only [Request.answer?, level, Instruction.ofLevel, dif_pos inByte, Int.toNat_natCast, Instruction.of, same]
    rfl
  show ((Request.emit op distance value).answer? sketch).bind _ = _
  rw [answer]
  rfl

end Tokens

end Grammar

end PLZero
