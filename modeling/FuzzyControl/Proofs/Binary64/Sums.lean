import FuzzyControl.Proofs.Binary64.Accuracy

/-! # Sums that are rounded at each step

Doubles are added from the left, and each partial sum is rounded. Partial sums are multiples of the
least positive double, so each step is off by a small part of what it adds up, and a sum of `n` numbers
by the factor `growth n`. The order of the summands carries over to the sums. A result is finite only if
all that went into it was.
-/
namespace FuzzyControl.Binary64

open Float.Model Float.Model.UnpackedFloat

set_option autoImplicit false

section

variable {u v : UnpackedFloat}

theorem isFinite_unpack_pack (h : u.isFinite = false) :
    (Float.Model.pack u).unpack.isFinite = false := by
  cases u with
  | notANumber => rfl
  | infinity s => cases s <;> rfl
  | zero s => cases h
  | finite s m e hm => cases h

theorem isFinite_add_parts (h : u.isFinite = false) : (u.add .binary64 v).isFinite = false := by
  cases u with
  | notANumber => cases v <;> rfl
  | infinity s =>
    cases v with
    | infinity t => cases s <;> cases t <;> rfl
    | _ => rfl
  | zero s => cases h
  | finite s m e hm => cases h

theorem isFinite_mul_parts (h : v.isFinite = false) : (u.mul .binary64 v).isFinite = false := by
  cases v with
  | notANumber => cases u <;> rfl
  | infinity s => cases u <;> rfl
  | zero s => cases h
  | finite s m e hm => cases h

theorem isFinite_div_parts (h : u.isFinite = false) : (u.div .binary64 v).isFinite = false := by
  cases u with
  | notANumber => cases v <;> rfl
  | infinity s => cases v <;> rfl
  | zero s => cases h
  | finite s m e hm => cases h

variable {x y : Float}

theorem isFinite_left_of_add (h : (x + y).isFinite = true) : x.isFinite = true := by
  by_contra hx
  rw [Bool.not_eq_true] at hx
  have hSum : (x + y).isFinite = false := isFinite_unpack_pack (isFinite_add_parts hx)
  rw [hSum] at h
  cases h

theorem isFinite_right_of_add (h : (x + y).isFinite = true) : y.isFinite = true := by
  rw [add_symm] at h
  exact isFinite_left_of_add h

theorem isFinite_right_of_mul (h : (x * y).isFinite = true) : y.isFinite = true := by
  by_contra hy
  rw [Bool.not_eq_true] at hy
  have hProduct : (x * y).isFinite = false := isFinite_unpack_pack (isFinite_mul_parts hy)
  rw [hProduct] at h
  cases h

theorem isFinite_left_of_div (h : (x / y).isFinite = true) : x.isFinite = true := by
  by_contra hx
  rw [Bool.not_eq_true] at hx
  have hQuotient : (x / y).isFinite = false := isFinite_unpack_pack (isFinite_div_parts hx)
  rw [hQuotient] at h
  cases h

theorem Denotes.nearest_of_isFinite {r : ℝ} (hx : Denotes x (rounded r))
    (h : x.isFinite = true) : Denotes x (nearest r : ℝ) := by
  obtain ⟨hBot, hTop⟩ := hx.isFinite_iff.mp h
  have hEq : rounded r = nearest r := by
    rw [rounded, confined] at hBot hTop ⊢
    split_ifs with hLarge hSmall
    · exact absurd (if_pos hLarge) hTop
    · rw [if_neg hLarge, if_pos hSmall] at hBot
      exact absurd rfl hBot
    · rfl
  rwa [hEq] at hx

end

theorem growth_succ (n : ℕ) : growth (n + 1) = growth n * (1 + 2 ^ (-53 : ℤ)) :=
  pow_succ _ n

theorem one_le_growth (n : ℕ) : 1 ≤ growth n := by
  apply one_le_pow₀
  rw [le_add_iff_nonneg_right]
  positivity

theorem granular_zero : Granular 0 :=
  ⟨0, by simp⟩

/-- The error is a small part of the result, too: the leading power of two is below both. -/
theorem Granular.le_nearest_mul {x : ℝ} (h : Granular x) (hx : 0 ≤ x) :
    x ≤ nearest x * (1 + 2 ^ (-53 : ℤ)) := by
  obtain rfl | hPos := hx.eq_or_lt
  · rw [nearest_zero, zero_mul]
  · obtain hPlace | hPlace := max_choice (Int.log 2 |x| - 52) (-1074)
    · have hError := (abs_le.mp (abs_nearest_sub_le_leading hPlace)).1
      rw [abs_of_pos hPos] at hError
      have hLeast : -1074 ≤ Int.log 2 x := by
        rw [← Int.zpow_le_iff_le_log (by norm_num) hPos]
        exact_mod_cast h.le_of_pos hPos
      have hLeading : (2 : ℝ) ^ Int.log 2 x ≤ nearest x := by
        rw [← nearest_eq_self (representable_zpow hLeast)]
        apply nearest_mono
        exact_mod_cast Int.zpow_log_le_self (b := 2) (by norm_num) hPos
      have hPart : (2 : ℝ) ^ Int.log 2 x * 2 ^ (-53 : ℤ) ≤ nearest x * 2 ^ (-53 : ℤ) :=
        mul_le_mul_of_nonneg_right hLeading (by positivity)
      linarith
    · obtain ⟨k, hk⟩ := h
      rw [nearest_of_multiple hPlace.le hk]
      refine le_mul_of_one_le_right hx ?_
      rw [le_add_iff_nonneg_right]
      positivity

/-- Adding one to a number of fifty-four bits is lost. -/
theorem nearest_add_one : nearest (2 ^ (53 : ℤ) + 1) = 2 ^ (53 : ℤ) := by
  have hPos : (0 : ℝ) < 2 ^ (53 : ℤ) + 1 := by positivity
  have hLog : Int.log 2 ((2 : ℝ) ^ (53 : ℤ) + 1) = 53 := by
    apply le_antisymm
    · have hLt : Int.log 2 ((2 : ℝ) ^ (53 : ℤ) + 1) < 54 := by
        rw [← Int.lt_zpow_iff_log_lt (by norm_num) hPos]
        norm_num
      omega
    · rw [← Int.zpow_le_iff_le_log (by norm_num) hPos]
      norm_num
  have hPlace : lastPlace (2 ^ (53 : ℤ) + 1) = 1 := by
    rw [lastPlace_of_pos hPos, hLog]
    norm_num
  have hHalf : ((2 : ℝ) ^ (53 : ℤ) + 1) / 2 ^ (1 : ℤ) = ((2 ^ 52 : ℤ) : ℝ) + 1 / 2 := by
    norm_num
  have hFloor : ⌊((2 ^ 52 : ℤ) : ℝ) + 1 / 2⌋ = 2 ^ 52 := by
    rw [Int.floor_intCast_add]
    norm_num
  have hFract : Int.fract (((2 ^ 52 : ℤ) : ℝ) + 1 / 2) = 1 / 2 := by
    rw [Int.fract_intCast_add]
    norm_num
  have hEven : Even ((2 : ℤ) ^ 52) := by decide +kernel
  rw [nearest, hPlace, hHalf, roundEven, hFract, hFloor, if_neg (lt_irrefl _), if_neg (lt_irrefl _),
    if_pos hEven]
  norm_num

/-- The sum as it is computed, while it is in range. -/
noncomputable def nearestSum (ws : List ℝ) : ℝ := ws.foldl (fun a w => nearest (a + w)) 0

theorem nearestSum_append (ws : List ℝ) (w : ℝ) :
    nearestSum (ws ++ [w]) = nearest (nearestSum ws + w) := by
  rw [nearestSum, List.foldl_append]
  rfl

theorem granular_nearestSum (ws : List ℝ) : Granular (nearestSum ws) := by
  obtain rfl | ⟨init, w, rfl⟩ := ws.eq_nil_or_concat'
  · exact granular_zero
  · rw [nearestSum_append]
    exact granular_nearest _

section

variable {α : Type} {cs : List α} {f g d : α → ℝ}

theorem nearestSum_mono (h : ∀ c ∈ cs, f c ≤ g c) :
    nearestSum (cs.map f) ≤ nearestSum (cs.map g) := by
  induction cs using List.reverseRecOn with
  | nil => exact le_rfl
  | append_singleton cs c ih =>
    obtain ⟨hInit, hLast⟩ := List.forall_mem_append.mp h
    rw [List.map_append, List.map_append, List.map_singleton, List.map_singleton,
      nearestSum_append, nearestSum_append]
    exact nearest_mono (add_le_add (ih hInit) (hLast c (List.mem_singleton_self c)))

theorem nearestSum_nonneg (h : ∀ c ∈ cs, 0 ≤ f c) : 0 ≤ nearestSum (cs.map f) := by
  induction cs using List.reverseRecOn with
  | nil => exact le_rfl
  | append_singleton cs c ih =>
    obtain ⟨hInit, hLast⟩ := List.forall_mem_append.mp h
    rw [List.map_append, List.map_singleton, nearestSum_append]
    exact nearest_nonneg (add_nonneg (ih hInit) (hLast c (List.mem_singleton_self c)))

/-- Ones that are added up come no further than to the first number with a place too many. -/
theorem nearestSum_le_of_le_one (h : ∀ c ∈ cs, f c ≤ 1) : nearestSum (cs.map f) ≤ 2 ^ (53 : ℤ) := by
  induction cs using List.reverseRecOn with
  | nil =>
    change (0 : ℝ) ≤ _
    positivity
  | append_singleton cs c ih =>
    obtain ⟨hInit, hLast⟩ := List.forall_mem_append.mp h
    rw [List.map_append, List.map_singleton, nearestSum_append, ← nearest_add_one]
    exact nearest_mono (add_le_add (ih hInit) (hLast c (List.mem_singleton_self c)))

theorem abs_sum_map_le (cs : List α) (g : α → ℝ) :
    |(cs.map g).sum| ≤ (cs.map fun c => |g c|).sum := by
  have h := List.le_sum_of_subadditive (fun x : ℝ => |x|) abs_zero.le abs_add_le (cs.map g)
  rwa [List.map_map] at h

/-- One summand more: what has been off is enlarged, and what the addition itself is off comes to it. -/
theorem abs_step_sub_le {s x y z t a d ε e : ℝ} (hStep : |s - (x + y)| ≤ |x + y| * 2 ^ (-53 : ℤ))
    (hSoFar : |x - z| ≤ (e - 1) * a + e * d) (hLast : |y - t| ≤ ε) (hSize : |z| ≤ a)
    (he : 1 ≤ e) :
    |s - (z + t)| ≤ (e * (1 + 2 ^ (-53 : ℤ)) - 1) * (a + |t|) +
      e * (1 + 2 ^ (-53 : ℤ)) * (d + ε) := by
  have hNear : |x + y - (z + t)| ≤ (e - 1) * a + e * d + ε := by
    calc
      |x + y - (z + t)| = |(x - z) + (y - t)| := by ring_nf
      _ ≤ |x - z| + |y - t| := abs_add_le _ _
      _ ≤ (e - 1) * a + e * d + ε := add_le_add hSoFar hLast
  have hSum : |x + y| ≤ (a + |t|) + ((e - 1) * a + e * d + ε) := by
    calc
      |x + y| = |(z + t) + (x + y - (z + t))| := by ring_nf
      _ ≤ |z + t| + |x + y - (z + t)| := abs_add_le _ _
      _ ≤ (a + |t|) + ((e - 1) * a + e * d + ε) :=
        add_le_add ((abs_add_le _ _).trans (add_le_add_left hSize _)) hNear
  have hTotal : |s - (z + t)| ≤ |s - (x + y)| + |x + y - (z + t)| := abs_sub_le _ _ _
  have hRest : 0 ≤ (e - 1) * (|t| + ε) :=
    mul_nonneg (sub_nonneg.mpr he) (add_nonneg (abs_nonneg t) ((abs_nonneg _).trans hLast))
  norm_num at hStep hSum ⊢
  -- the addition is off by its part of `hSum`; `hRest` is what the bound has to spare for the new summand
  nlinarith

/-- How far a sum is from the exact sum of other numbers, if the summands are near those. -/
theorem abs_nearestSum_sub_le (hGranular : ∀ c ∈ cs, Granular (f c))
    (h : ∀ c ∈ cs, |f c - g c| ≤ d c) :
    |nearestSum (cs.map f) - (cs.map g).sum| ≤
      (growth cs.length - 1) * (cs.map fun c => |g c|).sum +
        growth cs.length * (cs.map d).sum := by
  induction cs using List.reverseRecOn with
  | nil => simp [nearestSum]
  | append_singleton cs c ih =>
    obtain ⟨hInit, hLast⟩ := List.forall_mem_append.mp h
    obtain ⟨hGranularInit, hGranularLast⟩ := List.forall_mem_append.mp hGranular
    have hStep := ((granular_nearestSum (cs.map f)).add
      (hGranularLast c (List.mem_singleton_self c))).abs_nearest_sub_le
    simp only [List.map_append, List.map_singleton, nearestSum_append, List.sum_append,
      List.sum_singleton, List.length_append, List.length_singleton, growth_succ]
    exact abs_step_sub_le hStep (ih hGranularInit hInit) (hLast c (List.mem_singleton_self c))
      (abs_sum_map_le cs g) (one_le_growth _)

theorem sum_le_growth_mul_nearestSum (hGranular : ∀ c ∈ cs, Granular (f c))
    (h : ∀ c ∈ cs, 0 ≤ f c) :
    (cs.map f).sum ≤ growth cs.length * nearestSum (cs.map f) := by
  induction cs using List.reverseRecOn with
  | nil => simp [nearestSum]
  | append_singleton cs c ih =>
    obtain ⟨hInit, hLast⟩ := List.forall_mem_append.mp h
    obtain ⟨hGranularInit, hGranularLast⟩ := List.forall_mem_append.mp hGranular
    have hc := hLast c (List.mem_singleton_self c)
    have hStep := ((granular_nearestSum (cs.map f)).add
      (hGranularLast c (List.mem_singleton_self c))).le_nearest_mul
        (add_nonneg (nearestSum_nonneg hInit) hc)
    have hGrowth := one_le_growth cs.length
    simp only [List.map_append, List.map_singleton, nearestSum_append, List.sum_append,
      List.sum_singleton, List.length_append, List.length_singleton, growth_succ]
    calc
      (cs.map f).sum + f c ≤ growth cs.length * nearestSum (cs.map f) + growth cs.length * f c :=
        add_le_add (ih hGranularInit hInit) (le_mul_of_one_le_left hc hGrowth)
      _ = growth cs.length * (nearestSum (cs.map f) + f c) := (mul_add _ _ _).symm
      _ ≤ growth cs.length *
          (nearest (nearestSum (cs.map f) + f c) * (1 + 2 ^ (-53 : ℤ))) :=
        mul_le_mul_of_nonneg_left hStep (zero_le_one.trans hGrowth)
      _ = _ := by ring

end

/-- A quotient whose parts are both off. -/
theorem abs_quotient_sub_le {w z t s a m e b η : ℝ} (hs : 0 < s) (ht : 0 < t) (he : 1 ≤ e)
    (hb : 1 ≤ b) (hTotal : |t - s| ≤ (e - 1) * s) (hSum : s ≤ e * t)
    (hMoment : |w - z| ≤ (e * b - 1) * a + e * η) (hz : |z| ≤ a) (ha : a ≤ m * s) :
    |w / t - z / s| ≤ m * (e ^ 3 * b - 1) + e * η / t := by
  have hm : 0 ≤ m := nonneg_of_mul_nonneg_left (((abs_nonneg z).trans hz).trans ha) hs
  have heb : 1 ≤ e * b := one_le_mul_of_one_le_of_one_le he hb
  have hRatio : s / t ≤ e := (div_le_iff₀ ht).mpr hSum
  have hSplit : w / t - z / s = (w - z) / t + z / s * ((s - t) / t) := by
    field_simp
    ring
  have hFirst : |(w - z) / t| ≤ (e * b - 1) * (m * e) + e * η / t := by
    rw [abs_div, abs_of_pos ht]
    calc
      |w - z| / t ≤ ((e * b - 1) * (m * s) + e * η) / t := by
        refine div_le_div_of_nonneg_right (hMoment.trans ?_) ht.le
        gcongr
      _ = (e * b - 1) * (m * (s / t)) + e * η / t := by ring
      _ ≤ (e * b - 1) * (m * e) + e * η / t := by
        gcongr
  have hSecond : |z / s * ((s - t) / t)| ≤ m * ((e - 1) * e) := by
    rw [abs_mul, abs_div, abs_div, abs_of_pos hs, abs_of_pos ht, abs_sub_comm]
    refine mul_le_mul ((div_le_iff₀ hs).mpr (hz.trans ha)) ?_ (by positivity) hm
    calc
      |t - s| / t ≤ (e - 1) * s / t := div_le_div_of_nonneg_right hTotal ht.le
      _ = (e - 1) * (s / t) := mul_div_assoc _ _ _
      _ ≤ (e - 1) * e := mul_le_mul_of_nonneg_left hRatio (sub_nonneg.mpr he)
  have hFactor : (e * b - 1) * e + (e - 1) * e ≤ e ^ 3 * b - 1 := by
    have hProduct : 0 ≤ (e - 1) * (e * (e * b - 1) + 1) := by
      apply mul_nonneg (sub_nonneg.mpr he)
      nlinarith
    nlinarith
  calc
    |w / t - z / s| ≤ |(w - z) / t| + |z / s * ((s - t) / t)| := by
      rw [hSplit]
      exact abs_add_le _ _
    _ ≤ (e * b - 1) * (m * e) + e * η / t + m * ((e - 1) * e) := add_le_add hFirst hSecond
    _ = m * ((e * b - 1) * e + (e - 1) * e) + e * η / t := by ring
    _ ≤ m * (e ^ 3 * b - 1) + e * η / t := by gcongr

section

variable {α : Type} {cs : List α} {u p : α → ℝ} {m : ℝ}

/-- The quotient of the rounded sum of rounded products and the rounded sum of the weights is near the
mean: off by a small part of the greatest of the averaged numbers, and by what products that are too
small for a double have lost. -/
theorem abs_mean_sub_le (hGranular : ∀ c ∈ cs, Granular (u c)) (hu : ∀ c ∈ cs, 0 ≤ u c)
    (hp : ∀ c ∈ cs, |p c| ≤ m) (hTotal : 0 < nearestSum (cs.map u)) :
    |nearestSum (cs.map fun c => nearest (u c * p c)) / nearestSum (cs.map u) -
        (cs.map fun c => u c * p c).sum / (cs.map u).sum| ≤
      m * (growth (3 * cs.length + 1) - 1) +
        growth cs.length * (cs.length * halfGrain) / nearestSum (cs.map u) := by
  have hGrowth := one_le_growth cs.length
  have hAbs : (cs.map fun c => |u c|) = cs.map u :=
    List.map_congr_left fun c hc => abs_of_nonneg (hu c hc)
  have hSum := sum_le_growth_mul_nearestSum hGranular hu
  have hWeights : |nearestSum (cs.map u) - (cs.map u).sum| ≤
      (growth cs.length - 1) * (cs.map u).sum := by
    have hError := abs_nearestSum_sub_le (g := u) (d := fun _ => 0) hGranular
      fun c _ => by rw [sub_self, abs_zero]
    rw [hAbs] at hError
    simpa using hError
  have hPos : 0 < (cs.map u).sum := by
    have hUpper := (abs_le.mp hWeights).2
    -- a sum that is not positive would have made the bound, and so the rounded sum, no greater than it
    by_contra hNot
    nlinarith
  have hProducts : |nearestSum (cs.map fun c => nearest (u c * p c)) -
      (cs.map fun c => u c * p c).sum| ≤
        (growth cs.length * (1 + 2 ^ (-53 : ℤ)) - 1) * (cs.map fun c => |u c * p c|).sum +
          growth cs.length * (cs.length * halfGrain) := by
    have hError := abs_nearestSum_sub_le (f := fun c => nearest (u c * p c))
      (fun c _ => granular_nearest _) fun c (_ : c ∈ cs) => abs_nearest_sub_le (u c * p c)
    rw [List.sum_map_add, List.sum_map_mul_right, List.map_const', List.sum_replicate,
      nsmul_eq_mul] at hError
    refine hError.trans_eq ?_
    rw [halfGrain]
    ring
  have hBound : (cs.map fun c => |u c * p c|).sum ≤ m * (cs.map u).sum := by
    rw [← List.sum_map_mul_left]
    apply List.sum_le_sum
    intro c hc
    rw [abs_mul, abs_of_nonneg (hu c hc), mul_comm]
    exact mul_le_mul_of_nonneg_right (hp c hc) (hu c hc)
  have hMean := abs_quotient_sub_le hPos hTotal hGrowth (le_add_of_nonneg_right (by positivity))
    hWeights hSum hProducts (abs_sum_map_le cs _) hBound
  refine hMean.trans_eq ?_
  rw [growth_succ, growth, growth, ← pow_mul, mul_comm cs.length]

end

end FuzzyControl.Binary64
