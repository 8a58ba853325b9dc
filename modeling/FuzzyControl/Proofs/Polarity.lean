import FuzzyControl.Proofs.Truth
import FuzzyControl.WaterHeater

/-! # Statements under negations

Every negation turns the order of the truths round, so a condition rises with the statements that stand
under an even number of negations and falls with the others. `occurrences` lists the statements with the
numbers of negations above them. The same numbers say what becomes of "and" and "or" when the negations
are moved down to the statements by the laws of De Morgan (`lowered`): the connectives under an odd
number are exchanged. Since the rounded complement exchanges minimum and maximum exactly, nothing else
changes.
-/
namespace FuzzyControl.Antecedent

open Degree

set_option autoImplicit false

/-- The statements from left to right, each with the number of negations above it, of which `n` are
above the whole condition. -/
def occurrences (n : Nat) : Antecedent → List (Nat × TermRef)
  | is owner term _ => [(n, ⟨owner, term⟩)]
  | and l r => l.occurrences n ++ r.occurrences n
  | or l r => l.occurrences n ++ r.occurrences n
  | not e => e.occurrences (n + 1)

theorem map_snd_occurrences (e : Antecedent) (n : Nat) :
    (e.occurrences n).map Prod.snd = e.atoms := by
  induction e generalizing n with
  | is owner term declaredIn => rfl
  | and l r hl hr => rw [occurrences, List.map_append, hl, hr, atoms]
  | or l r hl hr => rw [occurrences, List.map_append, hl, hr, atoms]
  | not e he => rw [occurrences, he, atoms]

/-- The statements that stand under an even number of negations are at least as true under `u` as under
`t`, and those under an odd number at most. -/
def Raised (t u : TermRef → ℝ) (os : List (Nat × TermRef)) : Prop :=
  ∀ o ∈ os, (Even o.1 → t o.2 ≤ u o.2) ∧ (Odd o.1 → u o.2 ≤ t o.2)

theorem truth_le_of_raised {t u : TermRef → ℝ} {e : Antecedent} {n : Nat}
    (h : Raised t u (e.occurrences n)) :
    (Even n → e.truth t ≤ e.truth u) ∧ (Odd n → e.truth u ≤ e.truth t) := by
  -- Both parities at once, since a negation exchanges them.
  induction e generalizing n with
  | is owner term declaredIn => exact h _ (List.mem_singleton_self _)
  | and l r hl hr =>
    obtain ⟨hLeft, hRight⟩ := List.forall_mem_append.mp h
    exact ⟨fun hn => min_le_min ((hl hLeft).1 hn) ((hr hRight).1 hn),
      fun hn => min_le_min ((hl hLeft).2 hn) ((hr hRight).2 hn)⟩
  | or l r hl hr =>
    obtain ⟨hLeft, hRight⟩ := List.forall_mem_append.mp h
    exact ⟨fun hn => max_le_max ((hl hLeft).1 hn) ((hr hRight).1 hn),
      fun hn => max_le_max ((hl hLeft).2 hn) ((hr hRight).2 hn)⟩
  | not e he =>
    obtain ⟨hEven, hOdd⟩ := he h
    exact ⟨fun hn => antitone_complement (hOdd hn.add_one),
      fun hn => antitone_complement (hEven hn.add_one)⟩

theorem exists_atomDegree {vars : Table Variable} {readings : Readings} {e : Antecedent} {d : Degree}
    (h : e.evaluate vars readings = .ok d) {a : TermRef} (ha : a ∈ e.atoms) :
    ∃ b, atomDegree vars readings a = .ok b := by
  have hNone : fault? (e.evaluate vars readings) = none := by rw [h, fault?_ok]
  rw [fault?_evaluate, List.findSome?_eq_none_iff] at hNone
  exact fault?_eq_none_iff.mp (hNone a ha)

/-- A condition does not come to less where each of its statements under an even number of negations has
a degree that is not lower, and each under an odd number one that is not higher. -/
theorem evaluate_mono {vars vars' : Table Variable} {readings readings' : Readings} {e : Antecedent}
    {d d' : Degree} (h : e.evaluate vars readings = .ok d)
    (h' : e.evaluate vars' readings' = .ok d')
    (hAtoms : ∀ o ∈ e.occurrences 0, ∀ a b, atomDegree vars readings o.2 = .ok a →
      atomDegree vars' readings' o.2 = .ok b →
      (Even o.1 → a.value ≤ b.value) ∧ (Odd o.1 → b.value ≤ a.value)) :
    d.value ≤ d'.value := by
  have hRaised : Raised (atomTruth vars readings) (atomTruth vars' readings')
      (e.occurrences 0) := by
    intro o ho
    have hMem : o.2 ∈ e.atoms := by
      rw [← map_snd_occurrences e 0]
      exact List.mem_map_of_mem ho
    obtain ⟨a, ha⟩ := exists_atomDegree h hMem
    obtain ⟨b, hb⟩ := exists_atomDegree h' hMem
    have hProper := proper_atomDegree ha
    have hProper' := proper_atomDegree hb
    obtain ⟨hEven, hOdd⟩ := hAtoms o ho a b ha hb
    rw [atomTruth_eq ha, atomTruth_eq hb]
    exact ⟨fun hn => (hProper.value_le_iff hProper').mp (hEven hn),
      fun hn => (hProper'.value_le_iff hProper).mp (hOdd hn)⟩
  rw [(proper_evaluate h).value_le_iff (proper_evaluate h'), truth_of_evaluate h,
    truth_of_evaluate h']
  exact (truth_le_of_raised hRaised).1 Even.zero

theorem value_eq_of_toOption {x : Except Fault Degree} {a : Degree} {r : Float} (ha : x = .ok a)
    (h : x.toOption.map value = some r) : a.value = r := by
  subst ha
  exact Option.some.inj h

/-- The water is hot and not cold. -/
def hotNotCold : Antecedent := .and (.about ⟨"Water", "Hot"⟩) (.not (.about ⟨"Water", "Cold"⟩))

/-- Warmer water is no less hot and not cold. -/
theorem evaluate_mono_waterHeater :
    ∃ d d',
      hotNotCold.evaluate (WaterHeater.controller .initial).vars (WaterHeater.readings 38.0) =
        .ok d ∧
      hotNotCold.evaluate (WaterHeater.controller .initial).vars (WaterHeater.readings 65.0) =
        .ok d' ∧
      d.value = 0.0 ∧ d'.value = 0.5 ∧ d.value ≤ d'.value := by
  have hSome : (hotNotCold.evaluate (WaterHeater.controller .initial).vars
      (WaterHeater.readings 38.0)).toOption.map value = some 0.0 := by decide +kernel
  have hSome' : (hotNotCold.evaluate (WaterHeater.controller .initial).vars
      (WaterHeater.readings 65.0)).toOption.map value = some 0.5 := by decide +kernel
  obtain ⟨d, hd, hValue⟩ := Option.map_eq_some_iff.mp hSome
  obtain ⟨d', hd', hValue'⟩ := Option.map_eq_some_iff.mp hSome'
  have hOk := toOption_eq_some_iff.mp hd
  have hOk' := toOption_eq_some_iff.mp hd'
  refine ⟨d, d', hOk, hOk', hValue, hValue', evaluate_mono hOk hOk' ?_⟩
  intro o ho a b ha hb
  obtain rfl | rfl : o = (0, ⟨"Water", "Hot"⟩) ∨ o = (1, ⟨"Water", "Cold"⟩) := by
    simpa [hotNotCold, occurrences, about] using ho
  · have hLow : a.value = 0.0 := value_eq_of_toOption ha (by decide +kernel)
    have hHigh : b.value = 0.5 := value_eq_of_toOption hb (by decide +kernel)
    rw [hLow, hHigh]
    exact ⟨fun _ => by decide +kernel, fun h => absurd h (by decide)⟩
  · have hHigh : a.value = 0.1 := value_eq_of_toOption ha (by decide +kernel)
    have hLow : b.value = 0.0 := value_eq_of_toOption hb (by decide +kernel)
    rw [hLow, hHigh]
    exact ⟨fun h => absurd h (by decide), fun _ => by decide +kernel⟩

inductive DeMorgan : Antecedent → Antecedent → Prop where
  | and (l r : Antecedent) : DeMorgan (.not (.and l r)) (.or (.not l) (.not r))
  | or (l r : Antecedent) : DeMorgan (.not (.or l r)) (.and (.not l) (.not r))

theorem DeMorgan.truth_eq {e e' : Antecedent} (h : DeMorgan e e') (t : TermRef → ℝ) :
    e'.truth t = e.truth t := by
  cases h with
  | and l r => exact (antitone_complement.map_min).symm
  | or l r => exact (antitone_complement.map_max).symm

theorem DeMorgan.atoms_eq {e e' : Antecedent} (h : DeMorgan e e') : e'.atoms = e.atoms := by
  cases h <;> rfl

/-- The condition under `n` negations, with all negations moved down to its statements. -/
def lower (n : Nat) : Antecedent → Antecedent
  | is owner term declaredIn => Antecedent.not^[n] (.is owner term declaredIn)
  | and l r => if Even n then .and (l.lower n) (r.lower n) else .or (l.lower n) (r.lower n)
  | or l r => if Even n then .or (l.lower n) (r.lower n) else .and (l.lower n) (r.lower n)
  | not e => e.lower (n + 1)

def lowered (e : Antecedent) : Antecedent := e.lower 0

/-- A statement under negations only. -/
def IsLiteral : Antecedent → Prop
  | is _ _ _ => True
  | not e => e.IsLiteral
  | _ => False

/-- All negations stand right above statements or above one another. -/
def IsLowered : Antecedent → Prop
  | is _ _ _ => True
  | and l r => l.IsLowered ∧ r.IsLowered
  | or l r => l.IsLowered ∧ r.IsLowered
  | not e => e.IsLiteral

theorem isLiteral_iterate_not (n : Nat) {e : Antecedent} (h : e.IsLiteral) :
    (Antecedent.not^[n] e).IsLiteral := by
  induction n with
  | zero => exact h
  | succ n ih =>
    rw [Function.iterate_succ_apply']
    exact ih

theorem IsLiteral.isLowered {e : Antecedent} (h : e.IsLiteral) : e.IsLowered := by
  cases e with
  | is owner term declaredIn => trivial
  | not e => exact h
  | and l r => cases h
  | or l r => cases h

theorem isLowered_lower (e : Antecedent) (n : Nat) : (e.lower n).IsLowered := by
  induction e generalizing n with
  | is owner term declaredIn => exact (isLiteral_iterate_not (e := .is owner term declaredIn) n trivial).isLowered
  | and l r hl hr =>
    rw [lower]
    split_ifs
    · exact ⟨hl n, hr n⟩
    · exact ⟨hl n, hr n⟩
  | or l r hl hr =>
    rw [lower]
    split_ifs
    · exact ⟨hl n, hr n⟩
    · exact ⟨hl n, hr n⟩
  | not e he => exact he (n + 1)

theorem occurrences_iterate_not (e : Antecedent) (n k : Nat) :
    (Antecedent.not^[n] e).occurrences k = e.occurrences (k + n) := by
  induction n generalizing k with
  | zero => rfl
  | succ n ih =>
    rw [Function.iterate_succ_apply', occurrences, ih, Nat.add_right_comm, Nat.add_assoc]

theorem occurrences_lower (e : Antecedent) (n k : Nat) :
    (e.lower n).occurrences k = e.occurrences (k + n) := by
  induction e generalizing n with
  | is owner term declaredIn => exact occurrences_iterate_not _ n k
  | and l r hl hr =>
    rw [lower, occurrences, ← hl, ← hr]
    split_ifs <;> rw [occurrences]
  | or l r hl hr =>
    rw [lower, occurrences, ← hl, ← hr]
    split_ifs <;> rw [occurrences]
  | not e he => rw [lower, he, occurrences, Nat.add_assoc]

section

variable {e e' : Antecedent}

/-- Steps of De Morgan's laws, at any positions. -/
abbrev Lowers : Antecedent → Antecedent → Prop := Relation.ReflTransGen (Within DeMorgan)

theorem Lowers.and {l l' r r' : Antecedent} (hl : Lowers l l') (hr : Lowers r r') :
    Lowers (.and l r) (.and l' r') :=
  (hl.lift (Antecedent.and · r) fun _ _ h => .andLeft r h).trans
    (hr.lift (Antecedent.and l') fun _ _ h => .andRight l' h)

theorem Lowers.or {l l' r r' : Antecedent} (hl : Lowers l l') (hr : Lowers r r') :
    Lowers (.or l r) (.or l' r') :=
  (hl.lift (Antecedent.or · r) fun _ _ h => .orLeft r h).trans
    (hr.lift (Antecedent.or l') fun _ _ h => .orRight l' h)

theorem Lowers.not (h : Lowers e e') : Lowers (.not e) (.not e') :=
  h.lift Antecedent.not fun _ _ h => .not h

/-- Several negations over a connective: it is exchanged as many times. -/
theorem lowers_iterate_not (n : Nat) (l r : Antecedent) :
    Lowers (Antecedent.not^[n] (.and l r))
      (if Even n then .and (Antecedent.not^[n] l) (Antecedent.not^[n] r)
        else .or (Antecedent.not^[n] l) (Antecedent.not^[n] r)) ∧
    Lowers (Antecedent.not^[n] (.or l r))
      (if Even n then .or (Antecedent.not^[n] l) (Antecedent.not^[n] r)
        else .and (Antecedent.not^[n] l) (Antecedent.not^[n] r)) := by
  induction n with
  | zero => exact ⟨.refl, .refl⟩
  | succ n ih =>
    -- The outermost negation meets the connective that the others have left.
    simp only [Function.iterate_succ_apply', Nat.even_add_one]
    by_cases hn : Even n
    · simp only [hn, not_true_eq_false, if_true, if_false] at ih ⊢
      exact ⟨ih.1.not.tail (.here (.and _ _)), ih.2.not.tail (.here (.or _ _))⟩
    · simp only [hn, not_false_eq_true, if_true, if_false] at ih ⊢
      exact ⟨ih.1.not.tail (.here (.or _ _)), ih.2.not.tail (.here (.and _ _))⟩

theorem lowers_lower (e : Antecedent) (n : Nat) : Lowers (Antecedent.not^[n] e) (e.lower n) := by
  induction e generalizing n with
  | is owner term declaredIn => exact .refl
  | and l r hl hr =>
    refine (lowers_iterate_not n l r).1.trans ?_
    rw [lower]
    split_ifs
    · exact (hl n).and (hr n)
    · exact (hl n).or (hr n)
  | or l r hl hr =>
    refine (lowers_iterate_not n l r).2.trans ?_
    rw [lower]
    split_ifs
    · exact (hl n).or (hr n)
    · exact (hl n).and (hr n)
  | not e he => exact he (n + 1)

theorem DeMorgan.lower_eq (h : DeMorgan e e') (n : Nat) : e'.lower n = e.lower n := by
  cases h with
  | and l r | or l r =>
    simp only [lower, Nat.even_add_one]
    by_cases hn : Even n <;> simp [hn]

theorem Within.lower_eq (h : Within DeMorgan e e') (n : Nat) : e'.lower n = e.lower n := by
  induction h generalizing n with
  | here h => exact h.lower_eq n
  | andLeft r _ ih | andRight l _ ih | orLeft r _ ih | orRight l _ ih | not _ ih =>
    simp only [lower, ih]

theorem IsLiteral.lower_eq (h : e.IsLiteral) (n : Nat) : e.lower n = Antecedent.not^[n] e := by
  induction e generalizing n with
  | is owner term declaredIn => rfl
  | not e he => exact he h (n + 1)
  | and l r => cases h
  | or l r => cases h

theorem IsLowered.lowered_eq (h : e.IsLowered) : e.lowered = e := by
  induction e with
  | is owner term declaredIn => rfl
  | and l r hl hr => exact congrArg₂ Antecedent.and (hl h.1) (hr h.2)
  | or l r hl hr => exact congrArg₂ Antecedent.or (hl h.1) (hr h.2)
  | not e he => exact IsLiteral.lower_eq (e := e) h 1

theorem Lowers.lowered_eq (h : Lowers e e') : e'.lowered = e.lowered := by
  induction h with
  | refl => rfl
  | tail _ hStep ih => exact (hStep.lower_eq 0).trans ih

theorem Lowers.eqvGen (h : Lowers e e') : Relation.EqvGen (Within DeMorgan) e e' :=
  Relation.EqvGen.reflTransGen_le_eqvGen _ _ _ h

theorem Lowers.truth_eq (h : Lowers e e') (t : TermRef → ℝ) : e'.truth t = e.truth t :=
  truth_eq_of_eqvGen (fun _ _ hStep => hStep.truth_eq t) h.eqvGen

theorem Lowers.fault?_eq (h : Lowers e e') (vars : Table Variable) (readings : Readings) :
    fault? (e'.evaluate vars readings) = fault? (e.evaluate vars readings) := by
  refine fault?_eq_of_eqvGen (fun e e' hStep => ?_) h.eqvGen
  rw [fault?_evaluate, fault?_evaluate, hStep.atoms_eq]

end

/-- Moving negations down to the statements changes no evaluation: it fails with the same fault or comes
to the same degree, to the last bit but for the sign of zero, and so after every single step. Each
statement keeps the negations above it, the end of the steps does not depend on their order, and it can
be reached from every condition. -/
theorem evaluate_lowered (e : Antecedent) :
    (∀ vars readings, Agree (e.lowered.evaluate vars readings) (e.evaluate vars readings)) ∧
    e.lowered.IsLowered ∧ e.lowered.occurrences 0 = e.occurrences 0 ∧ Lowers e e.lowered ∧
    ∀ e', Lowers e e' → (e'.IsLowered → e' = e.lowered) ∧
      ∀ vars readings, Agree (e'.evaluate vars readings) (e.evaluate vars readings) := by
  have hAgree : ∀ e', Lowers e e' → ∀ vars readings,
      Agree (e'.evaluate vars readings) (e.evaluate vars readings) := fun _ h vars readings =>
    agree_of_truth_eq h.truth_eq (h.fault?_eq vars readings)
  have hLowers : Lowers e e.lowered := lowers_lower e 0
  refine ⟨hAgree _ hLowers, isLowered_lower e 0, occurrences_lower e 0 0, hLowers, ?_⟩
  intro e' h
  exact ⟨fun hLowered => hLowered.lowered_eq.symm.trans h.lowered_eq, hAgree e' h⟩

/-- It is not so that the water is cold or not hot. -/
def neitherColdNorUnhot : Antecedent :=
  .not (.or (.about ⟨"Water", "Cold"⟩) (.not (.about ⟨"Water", "Hot"⟩)))

/-- One step moves the negation down, and keeps the two that stand above one another. -/
theorem evaluate_lowered_waterHeater :
    neitherColdNorUnhot.lowered =
        .and (.not (.about ⟨"Water", "Cold"⟩)) (.not (.not (.about ⟨"Water", "Hot"⟩))) ∧
      Agree
        ((Antecedent.and (.not (.about ⟨"Water", "Cold"⟩))
          (.not (.not (.about ⟨"Water", "Hot"⟩)))).evaluate
            (WaterHeater.controller .initial).vars (WaterHeater.readings 65.0))
        (neitherColdNorUnhot.evaluate
          (WaterHeater.controller .initial).vars (WaterHeater.readings 65.0)) := by
  obtain ⟨-, -, -, -, hSteps⟩ := evaluate_lowered neitherColdNorUnhot
  obtain ⟨hLowered, hAgree⟩ := hSteps _ (.single (.here (.or _ _)))
  exact ⟨(hLowered ⟨trivial, trivial⟩).symm, hAgree _ _⟩

end FuzzyControl.Antecedent
