namespace PLZero

/-- What is declared in one block, the latest first, and a mark of the block. -/
structure Layer (Mark Entry : Type) where
  mark : Mark
  entries : List (String × Entry)

/-- The declarations in force at a place, those of the innermost block in front. -/
abbrev Context (Mark Entry : Type) :=
  List (Layer Mark Entry)

/-- A declaration that a name refers to, how many blocks out it stands, and what was in force when it was made,
itself included. -/
structure Found (Mark Entry : Type) where
  distance : Nat
  entry : Entry
  visible : Context Mark Entry

variable {Mark Entry Other : Type}

def Layer.declare (layer : Layer Mark Entry) (name : String) (entry : Entry) : Layer Mark Entry :=
  { layer with entries := (name, entry) :: layer.entries }

/-- Several declarations one after another. -/
def Layer.declareAll (layer : Layer Mark Entry) (entries : List (String × Entry)) : Layer Mark Entry :=
  entries.foldl (fun layer entry => layer.declare entry.1 entry.2) layer

def Layer.names (layer : Layer Mark Entry) : List String :=
  layer.entries.map (·.1)

def Layer.map (f : Entry → Other) (layer : Layer Mark Entry) : Layer Mark Other :=
  ⟨layer.mark, layer.entries.map fun entry => (entry.1, f entry.2)⟩

/-- The latest entry of a name with those before it. -/
def Layer.find? (name : String) : List (String × Entry) → Option (Entry × List (String × Entry))
  | [] => none
  | (other, entry) :: older => if other = name then some (entry, (other, entry) :: older) else Layer.find? name older

namespace Context

def map (f : Entry → Other) (context : Context Mark Entry) : Context Mark Other :=
  List.map (Layer.map f) context

/-- The declaration that a name refers to: the latest one of the innermost block that has any. -/
def find? (name : String) : Context Mark Entry → Option (Found Mark Entry)
  | [] => none
  | layer :: outer =>
    match Layer.find? name layer.entries with
    | some (entry, entries) => some ⟨0, entry, { layer with entries } :: outer⟩
    | none => (find? name outer).map fun found => { found with distance := found.distance + 1 }

end Context

namespace Layer

@[simp] theorem declareAll_nil (layer : Layer Mark Entry) : layer.declareAll [] = layer := rfl

@[simp] theorem declareAll_cons (layer : Layer Mark Entry) (entry : String × Entry) (entries : List (String × Entry)) :
    layer.declareAll (entry :: entries) = (layer.declare entry.1 entry.2).declareAll entries := rfl

theorem declareAll_append (layer : Layer Mark Entry) (first second : List (String × Entry)) :
    layer.declareAll (first ++ second) = (layer.declareAll first).declareAll second :=
  List.foldl_append

@[simp] theorem declare_mark (layer : Layer Mark Entry) (name : String) (entry : Entry) :
    (layer.declare name entry).mark = layer.mark := rfl

@[simp] theorem declare_names (layer : Layer Mark Entry) (name : String) (entry : Entry) :
    (layer.declare name entry).names = name :: layer.names := rfl

@[simp] theorem declareAll_mark (layer : Layer Mark Entry) (entries : List (String × Entry)) :
    (layer.declareAll entries).mark = layer.mark := by
  induction entries generalizing layer with
  | nil => rfl
  | cons first rest ih => exact ih (layer.declare first.1 first.2)

theorem declareAll_entries (layer : Layer Mark Entry) (entries : List (String × Entry)) :
    (layer.declareAll entries).entries = entries.reverse ++ layer.entries := by
  induction entries generalizing layer with
  | nil => rfl
  | cons first rest ih => simp [ih, declare]

theorem declareAll_names (layer : Layer Mark Entry) (entries : List (String × Entry)) :
    (layer.declareAll entries).names = (entries.map (·.1)).reverse ++ layer.names := by
  simp [names, declareAll_entries]

@[simp] theorem map_declare (f : Entry → Other) (layer : Layer Mark Entry) (name : String) (entry : Entry) :
    (layer.declare name entry).map f = (layer.map f).declare name (f entry) := rfl

theorem map_declareAll (f : Entry → Other) (layer : Layer Mark Entry) (entries : List (String × Entry)) :
    (layer.declareAll entries).map f = (layer.map f).declareAll (entries.map fun entry => (entry.1, f entry.2)) := by
  induction entries generalizing layer with
  | nil => rfl
  | cons first rest ih => exact ih (layer.declare first.1 first.2)

@[simp] theorem map_mark (f : Entry → Other) (layer : Layer Mark Entry) : (layer.map f).mark = layer.mark := rfl

@[simp] theorem map_names (f : Entry → Other) (layer : Layer Mark Entry) : (layer.map f).names = layer.names := by
  simp [names, map]

/-- What a name stands for in the block. -/
def lookup (layer : Layer Mark Entry) (name : String) : Option Entry :=
  (find? name layer.entries).map (·.1)

theorem lookup_declare (layer : Layer Mark Entry) (name other : String) (entry : Entry) :
    (layer.declare other entry).lookup name = if other = name then some entry else layer.lookup name := by
  simp only [lookup, declare, find?]
  split <;> rfl

theorem lookup_eq_none_iff (layer : Layer Mark Entry) (name : String) :
    layer.lookup name = none ↔ name ∉ layer.names := by
  obtain ⟨mark, entries⟩ := layer
  simp only [lookup, names, Option.map_eq_none_iff]
  induction entries with
  | nil => simp [find?]
  | cons first rest ih =>
    simp only [find?]
    split <;> simp_all [eq_comm]

theorem lookup_map (f : Entry → Other) (layer : Layer Mark Entry) (name : String) :
    (layer.map f).lookup name = (layer.lookup name).map f := by
  obtain ⟨mark, entries⟩ := layer
  simp only [lookup, map]
  induction entries with
  | nil => rfl
  | cons first rest ih =>
    simp only [List.map_cons, find?]
    split
    · rfl
    · exact ih

theorem find?_map (f : Entry → Other) (name : String) (entries : List (String × Entry)) :
    find? name (entries.map fun entry => (entry.1, f entry.2)) =
      (find? name entries).map fun found => (f found.1, found.2.map fun entry => (entry.1, f entry.2)) := by
  induction entries with
  | nil => rfl
  | cons first rest ih =>
    simp only [List.map_cons, find?]
    split
    · rfl
    · exact ih

end Layer

namespace Context

theorem find?_map (f : Entry → Other) (context : Context Mark Entry) (name : String) :
    find? name (context.map f) = (find? name context).map fun found =>
      ⟨found.distance, f found.entry, Context.map f found.visible⟩ := by
  induction context with
  | nil => rfl
  | cons layer outer ih =>
    simp only [map] at ih
    simp only [map, List.map_cons, find?, Layer.map, Layer.find?_map, ih]
    cases Layer.find? name layer.entries with
    | some found => rfl
    | none => cases find? name outer <;> rfl

end Context

end PLZero
