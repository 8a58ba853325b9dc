import FuzzyControl.Proofs.Declaration

/-! # The terms of a variable

A variable begins without terms and is given declarations in any number and order. A declaration is a
term that may be refused: a triangle or a trapezoid with any numbers for corners, under any name. Each
is answered in one of three ways (`Answer`), and only an accepted one leaves a trace, at the end of the
terms. So the terms are the accepted declarations in order, and a reference that was handed out keeps
leading to the shape that was declared with it.
-/
namespace FuzzyControl.Variable

set_option autoImplicit false

/-- What a declaration leaves of the variable, and what it is answered. -/
def attempt (v : Variable) (t : Term) : Variable × Except Fault TermRef :=
  match v.declare t.name t.shape with
  | .ok (w, ref) => (w, .ok ref)
  | .error fault => (v, .error fault)

/-- The variable after some declarations. -/
def after (v : Variable) (ts : List Term) : Variable := ts.foldl (fun v t => (v.attempt t).1) v

/-- Some declarations, each with its answer. -/
def answers (v : Variable) : List Term → List (Term × Except Fault TermRef)
  | [] => []
  | t :: ts => (t, (v.attempt t).2) :: answers (v.attempt t).1 ts

/-- Those declarations that are answered by a reference. -/
def accepted (v : Variable) (ts : List Term) : List Term :=
  ((v.answers ts).filter fun p => p.2.isOk).map Prod.fst

/-- The ways to answer a declaration. A refused one leaves the variable as it is, and a flaw of the
shape counts before a name that is taken. -/
inductive Answer (v : Variable) (t : Term) : Variable × Except Fault TermRef → Prop where
  | flawed {flaw : ShapeFlaw} (hFlaw : t.shape.flaw? = some flaw) :
      Answer v t (v, .error (.invalidShape t.name flaw))
  | taken (hFlaw : t.shape.flaw? = none) (hName : t.name ∈ v.terms.map Term.name) :
      Answer v t (v, .error (.duplicateTerm v.name t.name))
  | accepted (hFlaw : t.shape.flaw? = none) (hName : t.name ∉ v.terms.map Term.name) :
      Answer v t (⟨v.name, v.terms ++ [t]⟩, .ok ⟨v.name, t.name⟩)

/-- The name and all that is found by name stays. -/
structure Extends (v w : Variable) : Prop where
  name_eq : w.name = v.name
  shape?_eq : ∀ term shape, v.shape? term = some shape → w.shape? term = some shape

section

variable {v w : Variable} {t : Term}

theorem shape?_eq_none_iff_notMem {term : String} :
    v.shape? term = none ↔ term ∉ v.terms.map Term.name := by
  rw [shape?_eq_none_iff]
  simp

theorem answer_attempt (v : Variable) (t : Term) : Answer v t (v.attempt t) := by
  unfold attempt declare
  cases hFlaw : t.shape.flaw? with
  | some flaw => exact .flawed hFlaw
  | none =>
    cases hShape : v.shape? t.name with
    | some shape =>
      refine .taken hFlaw (Classical.byContradiction fun hName => ?_)
      rw [shape?_eq_none_iff_notMem.mpr hName] at hShape
      cases hShape
    | none => exact .accepted hFlaw (shape?_eq_none_iff_notMem.mp hShape)

theorem Answer.unique {p q : Variable × Except Fault TermRef} (hp : Answer v t p)
    (hq : Answer v t q) : p = q := by
  cases hp <;> cases hq <;> simp_all

theorem attempt_eq_iff {p : Variable × Except Fault TermRef} : v.attempt t = p ↔ Answer v t p := by
  constructor
  · rintro rfl
    exact answer_attempt v t
  · exact (answer_attempt v t).unique

theorem shape?_append_of_some {term : String} {shape : Shape} (h : v.shape? term = some shape)
    (ts : List Term) : shape? ⟨v.name, v.terms ++ ts⟩ term = some shape := by
  obtain ⟨found, hFound, hShape⟩ := Option.map_eq_some_iff.mp h
  simp [shape?, List.find?_append, hFound, hShape]

theorem shape?_append_singleton (h : t.name ∉ v.terms.map Term.name) :
    shape? ⟨v.name, v.terms ++ [t]⟩ t.name = some t.shape := by
  have hNone : v.terms.find? (fun s => s.name == t.name) = none :=
    Option.map_eq_none_iff.mp (shape?_eq_none_iff_notMem.mpr h)
  simp [shape?, List.find?_append, hNone]

theorem Extends.refl (v : Variable) : Extends v v := ⟨rfl, fun _ _ h => h⟩

theorem Extends.trans {u : Variable} (h : Extends u v) (h' : Extends v w) : Extends u w :=
  ⟨h'.name_eq.trans h.name_eq, fun _ _ hShape => h'.shape?_eq _ _ (h.shape?_eq _ _ hShape)⟩

namespace Answer

variable {p : Variable × Except Fault TermRef}

theorem extends_left (h : Answer v t p) : Extends v p.1 := by
  cases h with
  | flawed hFlaw => exact .refl v
  | taken hFlaw hName => exact .refl v
  | accepted hFlaw hName => exact ⟨rfl, fun _ _ hShape => shape?_append_of_some hShape [t]⟩

theorem terms_eq (h : Answer v t p) : p.1.terms = if p.2.isOk then v.terms ++ [t] else v.terms := by
  cases h <;> rfl

theorem mem_names_iff (h : Answer v t p) {name : String} :
    name ∈ p.1.terms.map Term.name ↔
      name ∈ v.terms.map Term.name ∨ t.shape.flaw? = none ∧ t.name = name := by
  cases h with
  | flawed hFlaw => simp [hFlaw]
  | taken hFlaw hName =>
    refine (or_iff_left_of_imp ?_).symm
    rintro ⟨-, rfl⟩
    exact hName
  | accepted hFlaw hName => simp [hFlaw, eq_comm]

/-- A reference that is handed out leads to the shape that was declared. -/
theorem resolves {ref : TermRef} (h : Answer v t p) (hRef : p.2 = .ok ref) :
    ref = ⟨v.name, t.name⟩ ∧ p.1.shape? ref.term = some t.shape := by
  cases h with
  | flawed hFlaw => cases hRef
  | taken hFlaw hName => cases hRef
  | accepted hFlaw hName =>
    cases hRef
    exact ⟨rfl, shape?_append_singleton hName⟩

end Answer

theorem Made.attempt {admits : String → Prop} (hv : Made admits v) (t : Term) :
    Made admits (v.attempt t).1 := by
  unfold Variable.attempt
  split
  · rename_i hDeclare
    exact hv.declare hDeclare
  · exact hv

theorem Made.sound {admits : String → Prop} (hv : Made admits v)
    (hTexts : ∀ text u, admits text → parse text = .ok u → u.Sound) : v.Sound := by
  obtain ⟨old, added, hTerms, hOrigin, hDeclared⟩ := hv.exists_declared
  exact (hDeclared.sound_iff hTerms).mpr (hOrigin.sound hTexts _)

end

section

variable {v : Variable}

theorem extends_after (v : Variable) (ts : List Term) : Extends v (v.after ts) := by
  induction ts generalizing v with
  | nil => exact .refl v
  | cons t ts ih => exact (answer_attempt v t).extends_left.trans (ih (v.attempt t).1)

theorem terms_after (v : Variable) (ts : List Term) :
    (v.after ts).terms = v.terms ++ v.accepted ts := by
  induction ts generalizing v with
  | nil => exact (List.append_nil _).symm
  | cons t ts ih =>
    have hStep : v.accepted (t :: ts) =
        (if (v.attempt t).2.isOk then [t] else []) ++ (v.attempt t).1.accepted ts := by
      rw [accepted, answers, List.filter_cons]
      split <;> rfl
    have hTerms := (answer_attempt v t).terms_eq
    rw [hStep, ← List.append_assoc]
    refine (ih (v.attempt t).1).trans (congrArg (· ++ _) ?_)
    rw [hTerms]
    split <;> simp

theorem mem_names_after_iff (v : Variable) (ts : List Term) {name : String} :
    name ∈ (v.after ts).terms.map Term.name ↔
      name ∈ v.terms.map Term.name ∨ ∃ t ∈ ts, t.shape.flaw? = none ∧ t.name = name := by
  induction ts generalizing v with
  | nil => simp [after]
  | cons t ts ih =>
    refine (ih (v.attempt t).1).trans ?_
    rw [(answer_attempt v t).mem_names_iff, or_assoc]
    simp only [List.mem_cons, exists_eq_or_imp]

theorem Made.after {admits : String → Prop} (hv : Made admits v) (ts : List Term) :
    Made admits (v.after ts) := by
  induction ts generalizing v with
  | nil => exact hv
  | cons t ts ih => exact ih (hv.attempt t)

/-- Whatever was declared later, a reference leads to the shape that was declared with it. -/
theorem resolves_after (v : Variable) (ts : List Term) :
    ∀ p ∈ v.answers ts, ∀ ref, p.2 = .ok ref →
      ref = ⟨v.name, p.1.name⟩ ∧ (v.after ts).shape? ref.term = some p.1.shape := by
  induction ts generalizing v with
  | nil =>
    intro p hp
    cases hp
  | cons t ts ih =>
    intro p hp ref hRef
    have hAnswer := answer_attempt v t
    obtain rfl | hLater := List.mem_cons.mp hp
    · obtain ⟨hEq, hShape⟩ := hAnswer.resolves hRef
      exact ⟨hEq, (extends_after (v.attempt t).1 ts).shape?_eq _ _ hShape⟩
    · obtain ⟨hEq, hShape⟩ := ih (v.attempt t).1 p hLater ref hRef
      exact ⟨hEq.trans (by rw [hAnswer.extends_left.name_eq]), hShape⟩

end

/-- A variable that begins without terms, after any declarations: its terms are those that were accepted,
in order, of different names and without a flaw; the next declaration is refused exactly for a flaw of
its shape or else for a name that an earlier flawless declaration took, and then nothing changes; and
every reference that was handed out names the variable and leads to the shape that was declared with
it. -/
theorem declarations_of_named (name : String) (ts : List Term) :
    ((named name).after ts).name = name ∧
    ((named name).after ts).terms = (named name).accepted ts ∧
    ((named name).after ts).Sound ∧
    (∀ t p, ((named name).after ts).attempt t = p ↔ Answer ((named name).after ts) t p) ∧
    (∀ term, term ∈ ((named name).after ts).terms.map Term.name ↔
      ∃ t ∈ ts, t.shape.flaw? = none ∧ t.name = term) ∧
    ∀ p ∈ (named name).answers ts, ∀ ref, p.2 = .ok ref →
      ref = ⟨name, p.1.name⟩ ∧ ((named name).after ts).shape? ref.term = some p.1.shape := by
  have hMade : Made (fun _ => False) ((named name).after ts) := Made.after (.named name) ts
  refine ⟨(extends_after _ ts).name_eq, terms_after _ ts, ?_, fun _ _ => attempt_eq_iff, ?_,
    resolves_after _ ts⟩
  · exact hMade.sound fun _ _ hText => absurd hText id
  · intro term
    rw [mem_names_after_iff]
    exact or_iff_right List.not_mem_nil

/-- The second and the third declaration have a flaw, the last two have a name that is taken. -/
def waterDeclarations : List Term :=
  [⟨"Cold", .trapezoid 0.0 0.0 20.0 40.0⟩, ⟨"Cold", .triangle 0.0 (0.0 / 0.0) 1.0⟩,
    ⟨"Warm", .triangle 70.0 50.0 (1.0 / 0.0)⟩, ⟨"Warm", .triangle 30.0 50.0 70.0⟩,
    ⟨"Warm", .triangle 0.0 1.0 2.0⟩, ⟨"Cold", .trapezoid 0.0 1.0 2.0 3.0⟩]

theorem declarations_of_named_water :
    ((named "Water").answers waterDeclarations).map (fun p => fault? p.2) =
      [none, some (.invalidShape "Cold" .notFinite), some (.invalidShape "Warm" .notFinite), none,
        some (.duplicateTerm "Water" "Warm"), some (.duplicateTerm "Water" "Cold")] ∧
    ((named "Water").after waterDeclarations).Sound ∧
    ((named "Water").after waterDeclarations).shape? "Cold" =
      some (.trapezoid 0.0 0.0 20.0 40.0) := by
  obtain ⟨-, -, hSound, -, -, hResolves⟩ := declarations_of_named "Water" waterDeclarations
  have hRef : ((named "Water").attempt ⟨"Cold", .trapezoid 0.0 0.0 20.0 40.0⟩).2.toOption =
      some ⟨"Water", "Cold"⟩ := by decide +kernel
  obtain ⟨-, hShape⟩ := hResolves _ List.mem_cons_self _ (toOption_eq_some_iff.mp hRef)
  exact ⟨by decide +kernel, hSound, hShape⟩

end FuzzyControl.Variable
