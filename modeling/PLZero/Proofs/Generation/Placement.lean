import PLZero.Instruction

namespace PLZero

/-- A part of the code that begins at an address. -/
def CodeAt (code : List Instruction) (start : Nat) (part : List Instruction) : Prop :=
  part <+: code.drop start

namespace CodeAt

variable {code first rest : List Instruction} {start : Nat} {instruction : Instruction}

theorem left (h : CodeAt code start (first ++ rest)) : CodeAt code start first :=
  (List.prefix_append first rest).trans h

theorem right (h : CodeAt code start (first ++ rest)) : CodeAt code (start + first.length) rest := by
  obtain ⟨behind, whole⟩ := h
  refine ⟨behind, ?_⟩
  rw [← List.drop_drop, ← whole, List.append_assoc, List.drop_left]

theorem head (h : CodeAt code start (instruction :: rest)) : code[start]? = some instruction := by
  obtain ⟨behind, whole⟩ := h
  have held := congrArg (·[0]?) whole
  simpa [eq_comm] using held

theorem tail (h : CodeAt code start (instruction :: rest)) : CodeAt code (start + 1) rest :=
  @right code [instruction] rest start h

theorem whole : CodeAt code 0 code :=
  List.prefix_rfl

/-- The instruction between two parts. -/
theorem middle (h : CodeAt code start (first ++ instruction :: rest)) :
    code[start + first.length]? = some instruction :=
  h.right.head

theorem getElem?_eq (h : CodeAt code start first) {index : Nat} (inside : index < first.length) :
    code[start + index]? = some first[index] := by
  obtain ⟨behind, whole⟩ := h
  rw [← List.getElem?_drop, ← whole, List.getElem?_append_left inside, List.getElem?_eq_getElem inside]

end CodeAt

end PLZero
