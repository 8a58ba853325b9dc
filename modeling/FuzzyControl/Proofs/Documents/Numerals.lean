import FuzzyControl.Decimal.Notation
import FuzzyControl.Json.Token

/-! # Numerals are read as they are written

A plain numeral has decimal digits, at least one of them before the point, and no zero stands before
other digits there. Its characters are read as that numeral again (`Plain.ofWord_chars`). The numerals
in which numbers are written are plain (`plain_of_numeral?`), since their digits are those of a
coefficient that is not zero.
-/
namespace FuzzyControl.Decimal

set_option autoImplicit false

theorem digit?_digitChar {d : Nat} (h : d < 10) : digit? (digitChar d) = some d := by
  have hAll : ∀ d < 10, digit? (digitChar d) = some d := by decide
  exact hAll d h

theorem natDigitChar_eq {d : Nat} (h : d < 10) : Nat.digitChar d = digitChar d := by
  have hAll : ∀ d < 10, Nat.digitChar d = digitChar d := by decide
  exact hAll d h

theorem digits_of_lt {n : Nat} (h : n < 10) : digits n = [digitChar n] := by
  rw [digits, Nat.toDigits_of_lt_base h, natDigitChar_eq h]

theorem digits_of_le {n : Nat} (h : 10 ≤ n) :
    digits n = digits (n / 10) ++ [digitChar (n % 10)] := by
  rw [digits, Nat.toDigits_of_base_le (by decide) h, natDigitChar_eq (Nat.mod_lt n (by decide)),
    digits]

theorem digitValues_of_lt {n : Nat} (h : n < 10) : digitValues n = [n] := by
  rw [digitValues, digits_of_lt h, List.filterMap_cons_some (digit?_digitChar h), List.filterMap_nil]

theorem digitValues_of_le {n : Nat} (h : 10 ≤ n) :
    digitValues n = digitValues (n / 10) ++ [n % 10] := by
  rw [digitValues, digits_of_le h, List.filterMap_append, digitValues,
    List.filterMap_cons_some (digit?_digitChar (Nat.mod_lt n (by decide))), List.filterMap_nil]

/-- What holds of the digits of a number holds of them for all numbers if it holds for one digit and
survives a further digit at the end. -/
theorem digits_induction {P : Nat → Prop} (hOne : ∀ n < 10, P n)
    (hMore : ∀ n, 10 ≤ n → P (n / 10) → P n) (n : Nat) : P n := by
  induction n using Nat.strongRecOn with
  | ind n ih =>
    obtain hLow | hHigh := Nat.lt_or_ge n 10
    · exact hOne n hLow
    · exact hMore n hHigh (ih (n / 10) (by omega))

theorem digits_eq_map (n : Nat) : digits n = (digitValues n).map digitChar := by
  induction n using digits_induction with
  | hOne n h => rw [digits_of_lt h, digitValues_of_lt h, List.map_singleton]
  | hMore n h ih => rw [digits_of_le h, digitValues_of_le h, List.map_append, ih, List.map_singleton]

theorem lt_of_mem_digitValues {n d : Nat} (h : d ∈ digitValues n) : d < 10 := by
  induction n using digits_induction with
  | hOne n hn =>
    rw [digitValues_of_lt hn, List.mem_singleton] at h
    exact h ▸ hn
  | hMore n hn ih =>
    rw [digitValues_of_le hn, List.mem_append, List.mem_singleton] at h
    obtain h | rfl := h
    · exact ih h
    · exact Nat.mod_lt n (by decide)

theorem ofDigits_digitValues (n : Nat) : ofDigits (digitValues n) = n := by
  induction n using digits_induction with
  | hOne n h => rw [digitValues_of_lt h, ofDigits, appendDigits_cons, appendDigits_nil, Nat.mul_zero,
      Nat.zero_add]
  | hMore n h ih =>
    rw [ofDigits] at ih
    rw [digitValues_of_le h, ofDigits, appendDigits_append, ih, appendDigits_cons, appendDigits_nil,
      Nat.div_add_mod]

/-- A number other than zero does not begin with the digit zero. -/
theorem exists_digitValues_eq_cons {n : Nat} (h : n ≠ 0) :
    ∃ d ds, digitValues n = d :: ds ∧ d ≠ 0 := by
  induction n using digits_induction with
  | hOne n hn => exact ⟨n, [], digitValues_of_lt hn, h⟩
  | hMore n hn ih =>
    obtain ⟨d, ds, hCons, hd⟩ := ih (by omega)
    refine ⟨d, ds ++ [n % 10], ?_, hd⟩
    rw [digitValues_of_le hn, hCons, List.cons_append]

theorem digitValues_ne_nil (n : Nat) : digitValues n ≠ [] := by
  induction n using digits_induction with
  | hOne n h => simp [digitValues_of_lt h]
  | hMore n h ih => simp [digitValues_of_le h]

/-- The text does not begin with a digit. -/
def Undigital (cs : List Char) : Prop := ∀ c ∈ cs.head?, digit? c = none

theorem undigital_nil : Undigital [] := by
  rintro c ⟨⟩

theorem undigital_cons {c : Char} {cs : List Char} (h : digit? c = none) : Undigital (c :: cs) := by
  rintro c ⟨⟩
  exact h

theorem spanDigits_of_undigital {cs : List Char} (h : Undigital cs) : spanDigits cs = ([], cs) := by
  cases cs with
  | nil => rfl
  | cons c cs => simp only [spanDigits, h c rfl]

theorem spanDigits_map_append {ds : List Nat} (hds : ∀ d ∈ ds, d < 10) {rest : List Char}
    (hRest : Undigital rest) : spanDigits (ds.map digitChar ++ rest) = (ds, rest) := by
  induction ds with
  | nil => exact spanDigits_of_undigital hRest
  | cons d ds ih =>
    obtain ⟨hd, hds⟩ := List.forall_mem_cons.mp hds
    simp only [List.map_cons, List.cons_append, spanDigits, digit?_digitChar hd, ih hds]

theorem unsigned?_digits (n : Nat) : signed?.unsigned? (digits n) = some n := by
  have hSpan := spanDigits_map_append (fun _ => lt_of_mem_digitValues (n := n)) undigital_nil
  rw [List.append_nil, ← digits_eq_map] at hSpan
  have hValue := ofDigits_digitValues n
  rw [signed?.unsigned?, hSpan]
  cases h : digitValues n with
  | nil => exact absurd h (digitValues_ne_nil n)
  | cons d ds => exact congrArg some (h ▸ hValue)

namespace Numeral

structure Plain (n : Numeral) : Prop where
  digits : ∀ d ∈ n.whole ++ n.fraction, d < 10
  nonempty : n.whole ≠ []
  leading : n.whole.head? ≠ some 0 ∨ n.whole.length = 1

/-- The characters of the exponent; none if it is zero. -/
def exponentChars (e : Int) : List Char :=
  if e = 0 then [] else 'e' :: (if e < 0 then '-' else '+') :: Decimal.digits e.natAbs

theorem exponent?_exponentChars (e : Int) : exponent? (exponentChars e) = some e := by
  rw [exponentChars]
  split
  · simp_all [exponent?]
  · split
    · have hValue : -((e.natAbs : Nat) : Int) = e := by omega
      rw [exponent?, if_pos (.inl rfl), signed?, unsigned?_digits]
      exact congrArg some hValue
    · have hValue : ((e.natAbs : Nat) : Int) = e := by omega
      rw [exponent?, if_pos (.inl rfl), signed?, unsigned?_digits]
      exact congrArg some hValue

theorem undigital_exponentChars (e : Int) : Undigital (exponentChars e) := by
  rw [exponentChars]
  split
  · exact undigital_nil
  · exact undigital_cons (by decide)

def fractionChars (ds : List Nat) : List Char := if ds.isEmpty then [] else '.' :: ds.map digitChar

theorem undigital_fractionChars (ds : List Nat) (e : Int) :
    Undigital (fractionChars ds ++ exponentChars e) := by
  rw [fractionChars]
  split
  · exact undigital_exponentChars e
  · exact undigital_cons (by decide)

theorem spanFraction_fractionChars {ds : List Nat} (hds : ∀ d ∈ ds, d < 10) (e : Int) :
    ∃ fraction, spanFraction (fractionChars ds ++ exponentChars e) = (fraction, exponentChars e) ∧
      fraction ≠ some [] ∧ fraction.getD [] = ds := by
  cases ds with
  | nil =>
    refine ⟨none, ?_, by simp, rfl⟩
    change spanFraction (exponentChars e) = (none, exponentChars e)
    rw [exponentChars]
    split <;> rfl
  | cons d ds =>
    refine ⟨some (d :: ds), ?_, by simp, rfl⟩
    have hSpan := spanDigits_map_append hds (undigital_exponentChars e)
    rw [fractionChars, if_neg (by simp), List.cons_append, spanFraction, hSpan]

/-- The characters of a numeral without its sign. -/
def unsignedChars (n : Numeral) : List Char :=
  n.whole.map digitChar ++ (fractionChars n.fraction ++ exponentChars n.exponent)

theorem chars_eq (n : Numeral) :
    n.chars = (if n.negative then ['-'] else []) ++ n.unsignedChars := by
  simp only [chars, unsignedChars, fractionChars, exponentChars, List.append_assoc]

theorem Plain.numeral?_unsignedChars {n : Numeral} (h : n.Plain) (negative : Bool) :
    Json.Token.numeral? negative n.unsignedChars = some { n with negative } := by
  obtain ⟨hWhole, hFraction⟩ := List.forall_mem_append.mp h.digits
  obtain ⟨fraction, hSpan, hSome, hDigits⟩ := spanFraction_fractionChars hFraction n.exponent
  have hLeading : ¬ (n.whole.isEmpty ∨ (n.whole.head? = some 0 ∧ n.whole.length ≠ 1) ∨
      fraction = some []) := by
    rintro (hNil | ⟨hZero, hLong⟩ | hNone)
    · exact h.nonempty (List.isEmpty_iff.mp hNil)
    · exact h.leading.elim (fun hHead => hHead hZero) hLong
    · exact hSome hNone
  rw [Json.Token.numeral?, unsignedChars,
    spanDigits_map_append hWhole (undigital_fractionChars _ _)]
  simp only [hSpan, if_neg hLeading, exponent?_exponentChars, Option.map_some, hDigits]

theorem Plain.exists_unsignedChars_eq {n : Numeral} (h : n.Plain) :
    ∃ d < 10, ∃ cs, n.unsignedChars = digitChar d :: cs := by
  cases hWhole : n.whole with
  | nil => exact absurd hWhole h.nonempty
  | cons d ds =>
    refine ⟨d, h.digits d (by simp [hWhole]), ?_⟩
    rw [unsignedChars, hWhole, List.map_cons, List.cons_append]
    exact ⟨_, rfl⟩

/-- A word that begins with a digit is read as a numeral without a sign. -/
theorem ofWord_of_numeral? {d : Nat} (hd : d < 10) {cs : List Char} {n : Numeral}
    (h : Json.Token.numeral? false (digitChar d :: cs) = some n) :
    Json.Token.ofWord (digitChar d :: cs) = .number n := by
  have hAll : ∀ d < 10, digitChar d ∉ ['-', 'n', 't', 'f'] := by decide
  have hFirst := hAll d hd
  simp only [List.mem_cons, List.not_mem_nil, or_false, not_or] at hFirst
  obtain ⟨hMinus, hNull, hTrue, hFalse⟩ := hFirst
  simp only [Json.Token.ofWord, List.cons.injEq, hNull, hTrue, hFalse, false_and, if_false]
  split
  · rename_i _ m hm
    split at hm
    · rename_i hEq
      exact absurd (List.cons.inj hEq).1 hMinus
    · rw [h] at hm
      exact congrArg _ (Option.some.inj hm).symm
  · rename_i _ hm
    split at hm
    · rename_i hEq
      exact absurd (List.cons.inj hEq).1 hMinus
    · rw [h] at hm
      cases hm

theorem ofWord_of_negative_numeral? {cs : List Char} {n : Numeral}
    (h : Json.Token.numeral? true cs = some n) : Json.Token.ofWord ('-' :: cs) = .number n := by
  simp [Json.Token.ofWord, h]

theorem Plain.ofWord_chars {n : Numeral} (h : n.Plain) :
    Json.Token.ofWord n.chars = .number n := by
  obtain ⟨d, hd, cs, hCons⟩ := h.exists_unsignedChars_eq
  have hRead := h.numeral?_unsignedChars n.negative
  rw [chars_eq]
  cases hSign : n.negative with
  | true =>
    rw [hSign] at hRead
    rw [if_pos rfl, List.singleton_append, ofWord_of_negative_numeral? hRead, ← hSign]
  | false =>
    rw [hSign, hCons] at hRead
    rw [if_neg (by decide), List.nil_append, hCons, ofWord_of_numeral? hd hRead, ← hSign]

theorem Plain.chars_ne_nil {n : Numeral} (h : n.Plain) : n.chars ≠ [] := by
  obtain ⟨d, -, cs, hCons⟩ := h.exists_unsignedChars_eq
  simp [chars_eq, hCons]

theorem Plain.mem_chars {n : Numeral} (h : n.Plain) {c : Char} (hc : c ∈ n.chars) :
    c ∈ ['-', '+', '.', 'e'] ∨ ∃ d < 10, c = digitChar d := by
  have hDigit {ds : List Nat} (hds : ∀ d ∈ ds, d < 10) (hMem : c ∈ ds.map digitChar) :
      ∃ d < 10, c = digitChar d := by
    obtain ⟨d, hd, rfl⟩ := List.mem_map.mp hMem
    exact ⟨d, hds d hd, rfl⟩
  obtain ⟨hWhole, hFraction⟩ := List.forall_mem_append.mp h.digits
  simp only [chars, List.mem_append] at hc
  obtain ((hSign | hWholePart) | hFractionPart) | hExponent := hc
  · split at hSign
    · exact .inl (by simp_all)
    · cases hSign
  · exact .inr (hDigit hWhole hWholePart)
  · split at hFractionPart
    · cases hFractionPart
    · obtain rfl | hMem := List.mem_cons.mp hFractionPart
      · exact .inl (by decide)
      · exact .inr (hDigit hFraction hMem)
  · split at hExponent
    · cases hExponent
    · obtain rfl | hMem := List.mem_cons.mp hExponent
      · exact .inl (by decide)
      · obtain rfl | hMem := List.mem_cons.mp hMem
        · split <;> exact .inl (by decide)
        · rw [digits_eq_map] at hMem
          exact .inr (hDigit (fun _ => lt_of_mem_digitValues) hMem)

end Numeral

theorem Scientific.coefficient_trim_ne_zero {s : Scientific} (h : s.coefficient ≠ 0) (fuel : Nat) :
    (s.trim fuel).coefficient ≠ 0 := by
  induction fuel generalizing s with
  | zero => exact h
  | succ fuel ih =>
    rw [trim]
    split
    · exact ih (s := ⟨s.coefficient / 10, s.exponent + 1⟩) (by dsimp only; omega)
    · exact h

namespace Interval

theorem ne_zero_of_contains {i : Interval} (hLow : 0 < i.low) {n : Nat} (h : i.contains n = true) :
    n ≠ 0 := by
  obtain ⟨-, hLe, -⟩ | ⟨-, hLt, -⟩ := (contains_iff i n).mp h <;> omega

theorem coefficient_roundest_ne_zero {i : Interval} (hLow : 0 < i.low) (hValue : 0 < i.value)
    (k : Nat) : (i.roundest k).coefficient ≠ 0 := by
  induction k with
  | zero => exact Nat.pos_iff_ne_zero.mp hValue
  | succ k ih =>
    rw [roundest]
    split
    · rename_i n hNeighbour
      rintro (rfl : n = 0)
      exact ne_zero_of_contains hLow (contains_of_neighbour? hNeighbour) (Nat.zero_mul _)
    · exact ih

theorem ofBinary_pos {b : Binary} (h : b.significand ≠ 0) :
    0 < (ofBinary b).low ∧ 0 < (ofBinary b).value := by
  have hUnit : 0 < if 0 ≤ b.exponent - 2 then Nat.pow 2 (b.exponent - 2).toNat
      else Nat.pow 5 (-(b.exponent - 2)).toNat := by
    split <;> exact Nat.pow_pos (by decide)
  have hBelow : 0 < 4 * b.significand - if b.significand = Binary.hiddenBit ∧
      Binary.minExponent < b.exponent then 1 else 2 := by
    split <;> omega
  exact ⟨Nat.mul_pos hBelow hUnit, Nat.mul_pos (by omega) hUnit⟩

end Interval

theorem coefficient_shortest_ne_zero {b : Binary} (h : b.significand ≠ 0) :
    (shortest b).coefficient ≠ 0 := by
  obtain ⟨hLow, hValue⟩ := Interval.ofBinary_pos h
  exact Scientific.coefficient_trim_ne_zero (Interval.coefficient_roundest_ne_zero hLow hValue _) _

theorem plain_positional (negative : Bool) {d : Nat} {ds : List Nat} (hZero : d ≠ 0)
    (hds : ∀ e ∈ d :: ds, e < 10) (magnitude : Int) :
    (positional negative (d :: ds) magnitude).Plain := by
  have hZeros (k : Nat) : ∀ e ∈ List.replicate k 0, e < 10 := by
    rintro e he
    rw [List.eq_of_mem_replicate he]
    decide
  rw [positional]
  split
  · refine ⟨?_, by simp, .inr rfl⟩
    exact List.forall_mem_append.mpr ⟨by simp, List.forall_mem_append.mpr ⟨hZeros _, hds⟩⟩
  · dsimp only
    split
    · refine ⟨?_, by simp, .inl (by simpa using hZero)⟩
      exact List.forall_mem_append.mpr ⟨List.forall_mem_append.mpr ⟨hds, hZeros _⟩, by simp⟩
    · refine ⟨?_, by simp, .inl (by simpa using hZero)⟩
      rwa [List.take_append_drop]

theorem plain_exponential (negative : Bool) {d : Nat} {ds : List Nat}
    (hds : ∀ e ∈ d :: ds, e < 10) (magnitude : Int) :
    (exponential negative (d :: ds) magnitude).Plain :=
  ⟨hds, by simp [exponential], .inr rfl⟩

/-- The numerals in which numbers are written are plain. -/
theorem plain_of_numeral? {x : Float} {n : Numeral} (h : numeral? x = some n) : n.Plain := by
  rw [numeral?] at h
  split at h
  · dsimp only at h
    split at h
    · obtain rfl := Option.some.inj h
      exact ⟨by simp, by simp, .inr rfl⟩
    · rename_i hSignificand
      obtain rfl := Option.some.inj h
      obtain ⟨d, ds, hCons, hd⟩ :=
        exists_digitValues_eq_cons (coefficient_shortest_ne_zero hSignificand)
      have hLt : ∀ e ∈ d :: ds, e < 10 := by
        rw [← hCons]
        exact fun e => lt_of_mem_digitValues
      simp only [Scientific.numeral, hCons]
      split
      · exact plain_positional _ hd hLt _
      · exact plain_exponential _ hLt _
  · cases h

end FuzzyControl.Decimal
