import FuzzyControl.Proofs.FirstFault

/-! # When a condition can be evaluated

A statement "variable is term" can be evaluated if the variable is kept under its name, the term is one
of the variable's and there is a reading. A condition can be evaluated if all of its statements can, and
otherwise it fails as the leftmost one that cannot, wherever in the tree that stands and whatever the
connectives above it are. The variables are any table: one kept under another name than its own is known
by the name of the table.
-/
namespace FuzzyControl

set_option autoImplicit false

/-- The table has the term that the reference names. -/
def Declared (vars : Table Variable) (a : TermRef) : Prop :=
  ∃ v, (a.owner, v) ∈ vars.entries ∧ ∃ t ∈ v.terms, t.name = a.term

/-- Why a table does not have a term. -/
inductive Undeclared (vars : Table Variable) (a : TermRef) : Fault → Prop where
  | noVariable (hNone : ∀ v, (a.owner, v) ∉ vars.entries) :
      Undeclared vars a (.undeclaredVariable a.owner)
  | noTerm {v : Variable} (hMem : (a.owner, v) ∈ vars.entries)
      (hNone : ∀ t ∈ v.terms, t.name ≠ a.term) :
      Undeclared vars a (.undeclaredTerm a.owner a.term)

section

variable {vars : Table Variable} {readings : Readings} {a : TermRef} {f : Fault}

theorem Table.find?_eq_none_iff {α : Type} {t : Table α} {name : String} :
    t.find? name = none ↔ ∀ x, (name, x) ∉ t.entries := by
  simp only [← Table.find?_eq_some_iff, Option.eq_none_iff_forall_ne_some, ne_eq]

theorem Variable.exists_shape?_iff {v : Variable} {term : String} :
    (∃ shape, v.shape? term = some shape) ↔ ∃ t ∈ v.terms, t.name = term := by
  rw [← Option.isSome_iff_exists, ← Option.ne_none_iff_isSome, ne_eq, v.shape?_eq_none_iff]
  simp

theorem exists_shape?_iff_declared :
    (∃ v shape, vars.find? a.owner = some v ∧ v.shape? a.term = some shape) ↔ Declared vars a := by
  simp only [Declared, Table.find?_eq_some_iff, exists_and_left, Variable.exists_shape?_iff]

variable {β : Type} {next : Shape → Except Fault β}

/-- Looks the shape up that a reference names, and goes on with it. -/
def withShape (vars : Table Variable) (a : TermRef) (next : Shape → Except Fault β) :
    Except Fault β :=
  match vars.find? a.owner with
  | none => .error (.undeclaredVariable a.owner)
  | some v =>
    match v.shape? a.term with
    | none => .error (.undeclaredTerm a.owner a.term)
    | some shape => next shape

theorem withShape_of_shape? {v : Variable} {shape : Shape} (hVar : vars.find? a.owner = some v)
    (hShape : v.shape? a.term = some shape) : withShape vars a next = next shape := by
  simp only [withShape, hVar, hShape]

theorem Undeclared.withShape_eq (h : Undeclared vars a f) : withShape vars a next = .error f := by
  cases h with
  | noVariable hNone => rw [withShape, Table.find?_eq_none_iff.mpr hNone]
  | @noTerm v hMem hNone =>
    rw [withShape, Table.find?_eq_some_iff.mpr hMem]
    dsimp only
    rw [(v.shape?_eq_none_iff _).mpr hNone]

/-- There is a shape to go on with, or it is said why there is none. -/
theorem shape?_or_undeclared (vars : Table Variable) (a : TermRef) :
    (∃ v shape, vars.find? a.owner = some v ∧ v.shape? a.term = some shape) ∨
      ∃ f, Undeclared vars a f := by
  cases hVar : vars.find? a.owner with
  | none => exact .inr ⟨_, .noVariable (Table.find?_eq_none_iff.mp hVar)⟩
  | some v =>
    cases hShape : v.shape? a.term with
    | none =>
      exact .inr ⟨_, .noTerm (Table.find?_eq_some_iff.mp hVar) ((v.shape?_eq_none_iff _).mp hShape)⟩
    | some shape => exact .inl ⟨v, shape, rfl, hShape⟩

theorem exists_withShape_iff :
    (∃ b, withShape vars a next = .ok b) ↔
      ∃ v shape, (vars.find? a.owner = some v ∧ v.shape? a.term = some shape) ∧
        ∃ b, next shape = .ok b := by
  constructor
  · intro h
    obtain ⟨v, shape, hVar, hShape⟩ | ⟨f, hUndeclared⟩ := shape?_or_undeclared vars a
    · rw [withShape_of_shape? hVar hShape] at h
      exact ⟨v, shape, ⟨hVar, hShape⟩, h⟩
    · simp [hUndeclared.withShape_eq] at h
  · rintro ⟨v, shape, ⟨hVar, hShape⟩, h⟩
    rwa [withShape_of_shape? hVar hShape]

theorem withShape_eq_error_iff :
    withShape vars a next = .error f ↔ Undeclared vars a f ∨
      ∃ v shape, (vars.find? a.owner = some v ∧ v.shape? a.term = some shape) ∧
        next shape = .error f := by
  constructor
  · intro h
    obtain ⟨v, shape, hVar, hShape⟩ | ⟨g, hUndeclared⟩ := shape?_or_undeclared vars a
    · rw [withShape_of_shape? hVar hShape] at h
      exact .inr ⟨v, shape, ⟨hVar, hShape⟩, h⟩
    · rw [hUndeclared.withShape_eq] at h
      cases h
      exact .inl hUndeclared
  · rintro (hUndeclared | ⟨v, shape, ⟨hVar, hShape⟩, h⟩)
    · exact hUndeclared.withShape_eq
    · rwa [withShape_of_shape? hVar hShape]

namespace Antecedent

variable (vars readings a)

def Evaluable : Prop := Declared vars a ∧ ∃ x, readings.value? a.owner = some x

/-- Why a statement cannot be evaluated; the want of a reading is noticed last. -/
inductive Fails : Fault → Prop where
  | undeclared {f : Fault} (h : Undeclared vars a f) : Fails f
  | unread (hDeclared : Declared vars a) (hNone : readings.value? a.owner = none) :
      Fails (.noReading a.owner)

variable {vars readings a}

/-- The shape is looked up first, then the reading. -/
theorem atomDegree_eq_withShape :
    atomDegree vars readings a = withShape vars a fun shape =>
      match readings.value? a.owner with
      | none => .error (.noReading a.owner)
      | some x => .ok (Degree.clamp (shape.grade x)) :=
  rfl

theorem exists_atomDegree_iff :
    (∃ d, atomDegree vars readings a = .ok d) ↔ Evaluable vars readings a := by
  rw [atomDegree_eq_withShape, exists_withShape_iff, Evaluable, ← exists_shape?_iff_declared]
  cases readings.value? a.owner <;> simp

theorem atomDegree_eq_error_iff :
    atomDegree vars readings a = .error f ↔ Fails vars readings a f := by
  rw [atomDegree_eq_withShape, withShape_eq_error_iff]
  constructor
  · rintro (hUndeclared | ⟨v, shape, hFound, hReading⟩)
    · exact .undeclared hUndeclared
    · split at hReading
      · rename_i hNone
        cases hReading
        exact .unread (exists_shape?_iff_declared.mp ⟨v, shape, hFound⟩) hNone
      · cases hReading
  · intro h
    cases h with
    | undeclared hUndeclared => exact .inl hUndeclared
    | unread hDeclared hNone =>
      obtain ⟨v, shape, hFound⟩ := exists_shape?_iff_declared.mpr hDeclared
      exact .inr ⟨v, shape, hFound, by rw [hNone]⟩

/-- Both sides of a node are evaluated before they are combined. -/
theorem evaluate_of_right {l r : Antecedent} {d : Degree}
    (hl : l.evaluate vars readings = .ok d) (hr : r.evaluate vars readings = .error f) :
    (l.and r).evaluate vars readings = .error f ∧ (l.or r).evaluate vars readings = .error f := by
  rw [evaluate, evaluate, hl, hr]
  exact ⟨rfl, rfl⟩

/-- For any table and any readings: a condition can be evaluated exactly if all of its statements can,
it fails with the fault of the leftmost that cannot, and no connective hides a fault to its right. -/
theorem evaluate_of_statements (vars : Table Variable) (readings : Readings) (e : Antecedent) :
    ((∃ d, e.evaluate vars readings = .ok d) ↔ ∀ a ∈ e.atoms, Evaluable vars readings a) ∧
    (∀ f, e.evaluate vars readings = .error f ↔
      ∃ a, Leftmost (fun a => ¬ Evaluable vars readings a) e.atoms a ∧ Fails vars readings a f) ∧
    ∀ (l r : Antecedent) (d : Degree) (f : Fault), l.evaluate vars readings = .ok d →
      r.evaluate vars readings = .error f →
      (l.and r).evaluate vars readings = .error f ∧
        (l.or r).evaluate vars readings = .error f := by
  refine ⟨?_, ?_, fun l r d f hl hr => evaluate_of_right hl hr⟩
  · rw [← fault?_eq_none_iff, fault?_evaluate, List.findSome?_eq_none_iff]
    simp only [fault?_eq_none_iff, exists_atomDegree_iff]
  · intro f
    rw [← fault?_eq_some_iff, fault?_evaluate, findSome?_fault?_eq_some_iff]
    simp only [exists_atomDegree_iff, atomDegree_eq_error_iff]

-- a variable kept under another name, and one fault on each side: the left one counts
example : (Antecedent.or (.is "Water" "Hot" "Water") (.is "Flow" "High" "Flow")).evaluate
    (.ofList [("Water", ⟨"Tank", [⟨"Hot", .triangle 50.0 60.0 70.0⟩]⟩)]) [] =
      .error (.noReading "Water") := rfl

end Antecedent

end

end FuzzyControl
