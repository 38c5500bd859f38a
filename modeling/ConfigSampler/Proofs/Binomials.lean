import ConfigSampler.Proofs.Choices

/-!
# Numbers of choices within the limit of counts

`binomial` multiplies before it divides, so a product on the way may exceed `maxCount` although the
number of choices does not.  The products grow up to the last one (`productsFit_iff`), which decides
whether the number comes out (`binomial_eq`).

`binomial_eq_min_iff` is the main statement: **the number of choices is cut off at `maxCount`, and
there only, unless the last product exceeds `maxCount` while the number itself is below it**.
-/

set_option autoImplicit false

namespace ConfigSampler

variable {n k i j : Nat}

/-- No product on the way to the number of choices of `k` of `n` things exceeds `maxCount`. -/
def ProductsFit (n k : Nat) : Prop := ∀ i < min k (n - k), n.choose i * (n - i) ≤ maxCount

/-- From the number of choices of size `i` on, the next factors are multiplied and divided unless a
    product exceeds `maxCount`. -/
theorem binomialFrom_eq (n k i : Nat) : binomialFrom n k i (n.choose i) =
    if ∀ j < k, n.choose (i + j) * (n - (i + j)) ≤ maxCount then n.choose (i + k)
    else maxCount := by
  induction k generalizing i with
  | zero => simp [binomialFrom]
  | succ k ih =>
    have hall : (∀ j < k + 1, n.choose (i + j) * (n - (i + j)) ≤ maxCount) ↔
        n.choose i * (n - i) ≤ maxCount ∧
          ∀ j < k, n.choose (i + 1 + j) * (n - (i + 1 + j)) ≤ maxCount := by
      rw [Nat.forall_lt_succ_left]
      simp only [Nat.add_zero, Nat.add_assoc, Nat.add_comm 1]
    rw [binomialFrom]
    split
    · rename_i hexceeds
      rw [if_neg fun h => Nat.not_le.2 hexceeds (hall.1 h).1]
    · rename_i hfits
      rw [choose_step, ih (i + 1), show i + 1 + k = i + (k + 1) by omega]
      exact if_congr (by rw [hall, and_iff_right (Nat.not_lt.1 hfits)]) rfl rfl

theorem binomial_of_productsFit (h : ProductsFit n k) : binomial n k = n.choose k := by
  unfold binomial
  split
  · rename_i hlt
    exact (Nat.choose_eq_zero_of_lt hlt).symm
  · rename_i hle
    have hfrom := binomialFrom_eq n (min k (n - k)) 0
    simp only [Nat.choose_zero_right, Nat.zero_add] at hfrom
    exact hfrom.trans ((if_pos h).trans (choose_min (Nat.not_lt.1 hle)))

theorem binomial_of_not_productsFit (h : ¬ ProductsFit n k) : binomial n k = maxCount := by
  have hle : ¬ n < k := fun hlt => h fun i hi => by omega
  have hfrom := binomialFrom_eq n (min k (n - k)) 0
  simp only [Nat.choose_zero_right, Nat.zero_add] at hfrom
  rw [binomial, if_neg hle]
  exact hfrom.trans (if_neg h)

/-- Up to half of the things, there are more choices of more. -/
theorem choose_le_choose_of_le_half (hij : i ≤ j) (hj : j ≤ n / 2) : n.choose i ≤ n.choose j := by
  induction j, hij using Nat.le_induction with
  | base => exact Nat.le_refl _
  | succ j _ ih =>
    exact Nat.le_trans (ih (Nat.le_of_succ_le hj)) (Nat.choose_le_succ_of_lt_half_left hj)

/-- **The last product is the greatest**, and it is the number of choices times that of factors. -/
theorem productsFit_iff (h : k ≤ n) :
    ProductsFit n k ↔ n.choose k * min k (n - k) ≤ maxCount := by
  rw [← choose_min h]
  have hhalf : min k (n - k) ≤ n / 2 := by omega
  unfold ProductsFit
  generalize min k (n - k) = factors at hhalf ⊢
  constructor
  · intro hall
    cases factors with
    | zero => exact Nat.zero_le _
    | succ last =>
      rw [Nat.choose_succ_right_eq]
      exact hall last (Nat.lt_succ_self last)
  · intro hlast i hi
    calc n.choose i * (n - i) = n.choose (i + 1) * (i + 1) := (Nat.choose_succ_right_eq n i).symm
      _ ≤ n.choose factors * factors :=
        Nat.mul_le_mul (choose_le_choose_of_le_half hi hhalf) hi
      _ ≤ maxCount := hlast

/-- The number of choices comes out if the last product is in range. -/
theorem binomial_eq (n k : Nat) : binomial n k =
    if n.choose k * min k (n - k) ≤ maxCount then n.choose k else maxCount := by
  rcases Nat.lt_or_ge n k with hlt | hle
  · have hfit : ProductsFit n k := fun i hi => by omega
    rw [binomial_of_productsFit hfit, Nat.choose_eq_zero_of_lt hlt, Nat.zero_mul,
      if_pos (Nat.zero_le _)]
  · split
    · rename_i hlast
      exact binomial_of_productsFit ((productsFit_iff hle).2 hlast)
    · rename_i hlast
      exact binomial_of_not_productsFit fun hfit => hlast ((productsFit_iff hle).1 hfit)

/-- **Numbers of choices are cut off early in one case**: where the last product exceeds `maxCount`
    the result is `maxCount`, also if the number itself is below it. -/
theorem binomial_eq_min_iff (n k : Nat) :
    (binomial n k = if n.choose k * min k (n - k) ≤ maxCount then n.choose k else maxCount) ∧
    (binomial n k = min (n.choose k) maxCount ↔
      n.choose k * min k (n - k) ≤ maxCount ∨ maxCount ≤ n.choose k) := by
  refine ⟨binomial_eq n k, ?_⟩
  rw [binomial_eq]
  split
  · rename_i hlast
    have hle : n.choose k ≤ maxCount := by
      rcases Nat.eq_zero_or_pos (min k (n - k)) with hnone | hsome
      · rcases Nat.lt_or_ge n k with hlt | hge
        · rw [Nat.choose_eq_zero_of_lt hlt]
          exact Nat.zero_le _
        · rw [← choose_min hge, hnone, Nat.choose_zero_right]
          decide
      · exact Nat.le_trans (Nat.le_mul_of_pos_right _ hsome) hlast
    exact iff_of_true (Nat.min_eq_left hle).symm (.inl hlast)
  · rename_i hlast
    rw [or_iff_right hlast]
    omega

/-- There are fewer choices of 29 of 63 things than `maxCount`, but the result is `maxCount`. -/
theorem binomial_63_29 : ¬ ∀ n k : Nat, n ≤ maxCount → k ≤ maxCount →
    binomial n k = min (n.choose k) maxCount := by
  intro h
  have hnumber : Nat.choose 63 29 = 759510004936100355 := by
    rw [← subsets_eq_choose]
    decide
  have hcut := h 63 29 (by decide) (by decide)
  rw [hnumber] at hcut
  exact absurd hcut (by decide)

end ConfigSampler
