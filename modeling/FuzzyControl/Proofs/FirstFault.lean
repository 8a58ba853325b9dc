import FuzzyControl.Antecedent

/-! # The first fault

A computation over a list stops at the first item that fails, and a condition is evaluated from left to
right without leaving anything out. `fault?` makes both precise: the fault of the whole is that of the
first part that has one. Without a fault there is a result for each item.
-/
namespace FuzzyControl

set_option autoImplicit false

def fault? {α : Type} : Except Fault α → Option Fault
  | .ok _ => none
  | .error f => some f

section

variable {α β : Type}

@[simp] theorem fault?_ok (a : α) : fault? (.ok a : Except Fault α) = none := rfl

@[simp] theorem fault?_error (f : Fault) : fault? (.error f : Except Fault α) = some f := rfl

@[simp] theorem fault?_pure (a : α) : fault? (pure a : Except Fault α) = none := rfl

theorem fault?_eq_none_iff {x : Except Fault α} : fault? x = none ↔ ∃ a, x = .ok a := by
  cases x <;> simp

theorem fault?_eq_some_iff {x : Except Fault α} {f : Fault} : fault? x = some f ↔ x = .error f := by
  cases x <;> simp

theorem fault?_unit_eq_none_iff {x : Except Fault Unit} : fault? x = none ↔ x = .ok () := by
  rw [fault?_eq_none_iff]
  exact ⟨fun ⟨_, h⟩ => h, fun h => ⟨(), h⟩⟩

theorem toOption_eq_some_iff {ε : Type} {x : Except ε α} {a : α} :
    x.toOption = some a ↔ x = .ok a := by
  cases x <;> simp [Except.toOption]

theorem bind_eq_ok_iff {x : Except Fault α} {g : α → Except Fault β} {b : β} :
    (x >>= g) = .ok b ↔ ∃ a, x = .ok a ∧ g a = .ok b := by
  cases x <;> simp [bind, Except.bind]

/-- What follows a computation has no fault of its own. -/
theorem fault?_bind_of_total {x : Except Fault α} {g : α → Except Fault β}
    (h : ∀ a, x = .ok a → fault? (g a) = none) : fault? (x >>= g) = fault? x := by
  cases x with
  | ok a => exact h a rfl
  | error f => rfl

theorem fault?_map (g : α → β) (x : Except Fault α) :
    fault? (x >>= fun a => pure (g a)) = fault? x :=
  fault?_bind_of_total fun _ _ => rfl

theorem fault?_bind₂ (g : α → α → β) (x y : Except Fault α) :
    fault? (x >>= fun a => y >>= fun b => pure (g a b)) = (fault? x).or (fault? y) := by
  cases x with
  | ok a => exact fault?_map (g a) y
  | error f => rfl

theorem findSome?_congr {g h : α → Option β} {as : List α} (hEq : ∀ a ∈ as, g a = h a) :
    as.findSome? g = as.findSome? h := by
  induction as with
  | nil => rfl
  | cons a as ih =>
    rw [List.findSome?_cons, List.findSome?_cons, hEq a List.mem_cons_self,
      ih fun b hb => hEq b (List.mem_cons_of_mem _ hb)]

theorem fault?_forM (g : α → Except Fault Unit) (as : List α) :
    fault? (as.forM g) = as.findSome? fun a => fault? (g a) := by
  induction as with
  | nil => rfl
  | cons a as ih =>
    rw [List.findSome?_cons, ← ih]
    cases h : g a <;> simp [h, bind, Except.bind]

theorem fault?_mapM (g : α → Except Fault β) (as : List α) :
    fault? (as.mapM g) = as.findSome? fun a => fault? (g a) := by
  induction as with
  | nil => rfl
  | cons a as ih =>
    rw [List.findSome?_cons, ← ih, List.mapM_cons]
    cases h : g a with
    | ok b => exact fault?_map _ _
    | error f => rfl

theorem forM_eq_ok_iff {g : α → Except Fault Unit} {as : List α} :
    as.forM g = .ok () ↔ ∀ a ∈ as, g a = .ok () := by
  rw [← fault?_unit_eq_none_iff, fault?_forM, List.findSome?_eq_none_iff]
  simp only [fault?_unit_eq_none_iff]

theorem mapM_congr {g h : α → Except Fault β} {as : List α} (hEq : ∀ a ∈ as, g a = h a) :
    as.mapM g = as.mapM h := by
  induction as with
  | nil => rfl
  | cons a as ih =>
    rw [List.mapM_cons, List.mapM_cons, hEq a List.mem_cons_self,
      ih fun b hb => hEq b (List.mem_cons_of_mem _ hb)]

/-- The item of the list has the property and none before it has. -/
def Leftmost (holds : α → Prop) (as : List α) (a : α) : Prop :=
  ∃ before after, as = before ++ a :: after ∧ (∀ b ∈ before, ¬ holds b) ∧ holds a

theorem find?_eq_some_iff_leftmost {p : α → Bool} {as : List α} {a : α} :
    as.find? p = some a ↔ Leftmost (fun a => p a = true) as a := by
  rw [List.find?_eq_some_iff_append]
  constructor
  · rintro ⟨ha, before, after, hSplit, hBefore⟩
    exact ⟨before, after, hSplit, fun b hb => by simpa using hBefore b hb, ha⟩
  · rintro ⟨before, after, hSplit, hBefore, ha⟩
    exact ⟨ha, before, after, hSplit, fun b hb => by simpa using hBefore b hb⟩

/-- What the computations of a list fail with is the fault of the leftmost that fails. -/
theorem findSome?_fault?_eq_some_iff {g : α → Except Fault β} {as : List α} {f : Fault} :
    (as.findSome? fun a => fault? (g a)) = some f ↔
      ∃ a, Leftmost (fun a => ¬ ∃ b, g a = .ok b) as a ∧ g a = .error f := by
  rw [List.findSome?_eq_some_iff]
  constructor
  · rintro ⟨before, a, after, hSplit, hFault, hBefore⟩
    have hError := fault?_eq_some_iff.mp hFault
    have hFails : ¬ ∃ b, g a = .ok b := by simp [hError]
    refine ⟨a, ⟨before, after, hSplit, ?_, hFails⟩, hError⟩
    intro b hb hFailed
    exact hFailed (fault?_eq_none_iff.mp (hBefore b hb))
  · rintro ⟨a, ⟨before, after, hSplit, hBefore, -⟩, hError⟩
    refine ⟨before, a, after, hSplit, fault?_eq_some_iff.mpr hError, ?_⟩
    intro b hb
    exact fault?_eq_none_iff.mpr (Classical.not_not.mp (hBefore b hb))

theorem mapM_cons_eq_ok_iff {g : α → Except Fault β} {a : α} {as : List α} {bs : List β} :
    (a :: as).mapM g = .ok bs ↔
      ∃ b bs', g a = .ok b ∧ as.mapM g = .ok bs' ∧ bs = b :: bs' := by
  rw [List.mapM_cons, bind_eq_ok_iff]
  constructor
  · rintro ⟨b, hb, hRest⟩
    obtain ⟨bs', hbs', hEq⟩ := bind_eq_ok_iff.mp hRest
    cases hEq
    exact ⟨b, bs', hb, hbs', rfl⟩
  · rintro ⟨b, bs', hb, hbs', rfl⟩
    exact ⟨b, hb, bind_eq_ok_iff.mpr ⟨bs', hbs', rfl⟩⟩

theorem length_of_mapM {g : α → Except Fault β} {as : List α} {bs : List β}
    (h : as.mapM g = .ok bs) : bs.length = as.length := by
  induction as generalizing bs with
  | nil =>
    cases h
    rfl
  | cons a as ih =>
    obtain ⟨b, bs', -, hRest, rfl⟩ := mapM_cons_eq_ok_iff.mp h
    rw [List.length_cons, List.length_cons, ih hRest]

theorem exists_of_mem_mapM {g : α → Except Fault β} {as : List α} {bs : List β}
    (h : as.mapM g = .ok bs) {b : β} (hb : b ∈ bs) : ∃ a ∈ as, g a = .ok b := by
  induction as generalizing bs with
  | nil =>
    cases h
    cases hb
  | cons a as ih =>
    obtain ⟨b', bs', hFirst, hRest, rfl⟩ := mapM_cons_eq_ok_iff.mp h
    obtain rfl | hb := List.mem_cons.mp hb
    · exact ⟨a, List.mem_cons_self, hFirst⟩
    · obtain ⟨a', ha', hEq⟩ := ih hRest hb
      exact ⟨a', List.mem_cons_of_mem _ ha', hEq⟩

theorem mapM_eq_ok_map {g : α → Except Fault β} {h : α → β} {as : List α}
    (hEq : ∀ a ∈ as, g a = .ok (h a)) : as.mapM g = .ok (as.map h) := by
  induction as with
  | nil => rfl
  | cons a as ih =>
    refine mapM_cons_eq_ok_iff.mpr ⟨h a, as.map h, hEq a List.mem_cons_self, ?_, rfl⟩
    exact ih fun b hb => hEq b (List.mem_cons_of_mem _ hb)

/-- Two passes in one: the second step of each item uses the result of the first. -/
theorem mapM_bind_of_mapM {γ : Type} {f : α → Except Fault β} {as : List α} {bs : List β}
    (h : as.mapM f = .ok bs) (g : α → β → Except Fault γ) :
    (as.mapM fun a => f a >>= g a) = (as.zip bs).mapM fun p => g p.1 p.2 := by
  induction as generalizing bs with
  | nil =>
    cases h
    rfl
  | cons a as ih =>
    obtain ⟨b, bs', hFirst, hRest, rfl⟩ := mapM_cons_eq_ok_iff.mp h
    rw [List.zip_cons_cons, List.mapM_cons, List.mapM_cons, ih hRest, hFirst]
    rfl

end

/-- A condition fails as its leftmost failing statement does. -/
theorem fault?_evaluate (vars : Table Variable) (readings : Readings) (e : Antecedent) :
    fault? (e.evaluate vars readings) =
      e.atoms.findSome? fun a => fault? (Antecedent.atomDegree vars readings a) := by
  induction e with
  | is owner term declaredIn => simp [Antecedent.evaluate, Antecedent.atoms]
  | and l r hl hr =>
    rw [Antecedent.evaluate, Antecedent.atoms, List.findSome?_append, ← hl, ← hr]
    exact fault?_bind₂ Degree.and _ _
  | or l r hl hr =>
    rw [Antecedent.evaluate, Antecedent.atoms, List.findSome?_append, ← hl, ← hr]
    exact fault?_bind₂ Degree.or _ _
  | not e he =>
    rw [Antecedent.evaluate, Antecedent.atoms, ← he]
    exact fault?_map Degree.not _

end FuzzyControl
