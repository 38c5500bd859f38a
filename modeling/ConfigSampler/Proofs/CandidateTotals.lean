import ConfigSampler.Proofs.Binomials
import ConfigSampler.Proofs.Listings
import Mathlib.Algebra.BigOperators.NatAntidiagonal
import Mathlib.Data.List.Flatten
import Mathlib.Tactic.Ring

/-!
# Totals of candidates

The total of candidates is at least the number of candidates in the list, as far as it can be told
with numbers up to `maxCount` (`candidateTotal_atLeast`).  The choices of literals without a pair of
complements are counted variable by variable: those of one variable and those of the others are
chosen independently (`choicesWith_variable`), so their numbers multiply like polynomials.

Sums and products that are cut off compare to the full ones as their terms do (`Saturating`), and
this carries over to the coefficients of a product (`Relates.mul`), to the choices among variables
that are visited in any order (`choicesAmong_relates`) and to the total (`candidateTotalIn_relates`).
-/

set_option autoImplicit false

namespace ConfigSampler

/-! ## Numbers that are cut off -/

/-- A relation to the number that would stand for a count without a limit: it is kept by sums and
    products that are cut off, and nothing but zero is related to zero. -/
structure Saturating (R : Nat → Nat → Prop) : Prop where
  zero : R 0 0
  one : R 1 1
  eq_zero : ∀ {b : Nat}, R 0 b → b = 0
  add : ∀ {a a' b b' : Nat}, R a b → R a' b' → R (satAdd a a') (b + b')
  mul : ∀ {a a' b b' : Nat}, R a b → R a' b' → R (satMul a a') (b * b')

/-- The first number is no less than the second, or it is as great as a count can be. -/
def AtLeast (a b : Nat) : Prop := min b maxCount ≤ a

namespace AtLeast

variable {a a' b b' c : Nat}

theorem of_le (h : b ≤ a) : AtLeast a b := Nat.le_trans (Nat.min_le_left _ _) h

theorem mono (h : AtLeast a b) (hle : c ≤ b) : AtLeast a c :=
  Nat.le_trans (by omega) h

theorem satAdd (h : AtLeast a b) (h' : AtLeast a' b') : AtLeast (satAdd a a') (b + b') := by
  unfold AtLeast ConfigSampler.satAdd at *
  omega

theorem satMul (h : AtLeast a b) (h' : AtLeast a' b') : AtLeast (satMul a a') (b * b') := by
  have hpos : 0 < maxCount := by decide
  unfold AtLeast ConfigSampler.satMul at *
  rcases Nat.eq_zero_or_pos b with rfl | hb
  · simp
  rcases Nat.eq_zero_or_pos b' with rfl | hb'
  · simp
  have ha : 0 < a := by omega
  have ha' : 0 < a' := by omega
  -- a factor that was cut off makes the product as great as can be
  have hcut : a ≥ maxCount ∨ a' ≥ maxCount ∨ (b ≤ a ∧ b' ≤ a') := by omega
  rcases hcut with hcut | hcut | ⟨hle, hle'⟩
  · have := Nat.le_mul_of_pos_right a ha'
    omega
  · have := Nat.le_mul_of_pos_left a' ha
    omega
  · have := Nat.mul_le_mul hle hle'
    omega

theorem saturating : Saturating AtLeast where
  zero := of_le (Nat.le_refl 0)
  one := of_le (Nat.le_refl 1)
  eq_zero h := by
    unfold AtLeast maxCount at h
    omega
  add := satAdd
  mul := satMul

end AtLeast

theorem binomial_atLeast (n k : Nat) : AtLeast (binomial n k) (n.choose k) := by
  rw [binomial_eq]
  split
  · exact .of_le (Nat.le_refl _)
  · exact Nat.min_le_right _ _

/-! ## Products of counts -/

/-- The number of choices of size `k` that consist of one of either kind: sizes add up. -/
def convolve (f g : Nat → Nat) (k : Nat) : Nat :=
  ∑ sizes ∈ Finset.HasAntidiagonal.antidiagonal k, f sizes.1 * g sizes.2

theorem convolve_succ (f g : Nat → Nat) (k : Nat) :
    convolve f g (k + 1) = f 0 * g (k + 1) + convolve (fun i => f (i + 1)) g k :=
  Finset.Nat.sum_antidiagonal_succ

theorem convolve_succ' (f g : Nat → Nat) (k : Nat) :
    convolve f g (k + 1) = convolve f (fun i => g (i + 1)) k + f (k + 1) * g 0 := by
  unfold convolve
  rw [Finset.Nat.sum_antidiagonal_succ', Nat.add_comm]

theorem convolve_zero (f g : Nat → Nat) : convolve f g 0 = f 0 * g 0 := by
  simp [convolve]

theorem convolve_add_left (f f' g : Nat → Nat) (k : Nat) :
    convolve (fun i => f i + f' i) g k = convolve f g k + convolve f' g k := by
  simp [convolve, Nat.add_mul, Finset.sum_add_distrib]

theorem convolve_add_right (f g g' : Nat → Nat) (k : Nat) :
    convolve f (fun i => g i + g' i) k = convolve f g k + convolve f g' k := by
  simp [convolve, Nat.mul_add, Finset.sum_add_distrib]

namespace ChoiceCounts

/-- The counts of the choices up to a size have a relation to the given numbers. -/
def Relates (R : Nat → Nat → Prop) (p : ChoiceCounts) (f : Nat → Nat) (k : Nat) : Prop :=
  ∀ i ≤ k, R (p.ofSize i) (f i)

variable {R : Nat → Nat → Prop} {p q : ChoiceCounts} {f g : Nat → Nat} {k : Nat}

theorem Relates.add (hR : Saturating R) (hp : p.Relates R f k) (hq : q.Relates R g k) :
    (add p q).Relates R (fun i => f i + g i) k := by
  intro i hi
  induction p, q using add.induct generalizing i k f g with
  | case1 q =>
    show R (q.ofSize i) (f i + g i)
    rw [hR.eq_zero (hp i hi), Nat.zero_add]
    exact hq i hi
  | case2 p hne =>
    show R _ (f i + g i)
    rw [hR.eq_zero (hq i hi), Nat.add_zero]
    cases p with
    | nil => exact absurd rfl hne
    | cons a p => exact hp i hi
  | case3 a p b q ih =>
    cases i with
    | zero => exact hR.add (hp 0 hi) (hq 0 hi)
    | succ i =>
      exact ih (k := k - 1) (fun j hj => hp (j + 1) (by omega)) (fun j hj => hq (j + 1) (by omega))
        i (by omega)

theorem ofSize_map_satMul (a : Nat) (q : ChoiceCounts) (k : Nat) :
    ofSize (q.map (satMul a)) k = satMul a (q.ofSize k) := by
  simp only [ofSize, List.getD_eq_getElem?_getD, List.getElem?_map]
  cases q[k]? with
  | none => simp [satMul]
  | some b => rfl

/-- **Counts multiply like polynomials.** -/
theorem Relates.mul (hR : Saturating R) (hp : p.Relates R f k) (hq : q.Relates R g k) :
    (mul p q).Relates R (convolve f g) k := by
  induction p generalizing f k with
  | nil =>
    intro i hi
    have hzero : convolve f g i = 0 := Finset.sum_eq_zero fun sizes hsizes => by
      rw [Finset.HasAntidiagonal.mem_antidiagonal] at hsizes
      rw [hR.eq_zero (hp sizes.1 (by omega)), Nat.zero_mul]
    rw [hzero]
    exact hR.zero
  | cons a p ih =>
    have hfirst : Relates R (q.map (satMul a)) (fun i => f 0 * g i) k := by
      intro i hi
      rw [ofSize_map_satMul]
      exact hR.mul (hp 0 (Nat.zero_le k)) (hq i hi)
    have hshift : Relates R (0 :: mul p q)
        (fun i => i.casesOn 0 (convolve (fun i => f (i + 1)) g)) k := by
      intro i hi
      cases i with
      | zero => exact hR.zero
      | succ i =>
        exact ih (k := k - 1) (fun j hj => hp (j + 1) (by omega)) (fun j hj => hq j (by omega))
          i (by omega)
    intro i hi
    have hsum := hfirst.add hR hshift i hi
    rw [mul]
    cases i with
    | zero => rwa [convolve_zero]
    | succ i => rwa [convolve_succ]

end ChoiceCounts

/-- The number of ways to choose `k` of the literals of one variable, without a limit. -/
def signChoices (positive negative k : Nat) : Nat :=
  if k = 0 then 1 else positive.choose k + negative.choose k

theorem signWays_atLeast (positive negative k : Nat) :
    AtLeast (signWays positive negative k) (signChoices positive negative k) := by
  unfold signWays signChoices
  split
  · exact .of_le (Nat.le_refl 1)
  · exact (binomial_atLeast _ _).satAdd (binomial_atLeast _ _)

/-- There are no choices of more literals than those of either sign. -/
theorem ofSize_variableChoices (positive negative k : Nat) :
    (variableChoices positive negative).ofSize k = signWays positive negative k := by
  simp only [ChoiceCounts.ofSize, variableChoices, List.getD_eq_getElem?_getD, List.getElem?_map]
  by_cases hk : k < max positive negative + 1
  · rw [List.getElem?_range hk, Option.map_some, Option.getD_some]
  · have hnone : ∀ n, n < k → binomial n k = 0 := fun n hn => if_pos hn
    rw [List.getElem?_eq_none (by rw [List.length_range]; omega), signWays, if_neg (by omega),
      hnone positive (by omega), hnone negative (by omega)]
    rfl

/-! ## Choices from a list -/

section Sublists

variable {α : Type}

theorem map_sublistsLen {β : Type} (f : α → β) (l : List α) (k : Nat) :
    (l.map f).sublistsLen k = (l.sublistsLen k).map (List.map f) := by
  induction l generalizing k with
  | nil => cases k <;> simp
  | cons a l ih =>
    cases k with
    | zero => simp
    | succ k => simp [List.sublistsLen_succ_cons, ih, Function.comp_def]

/-- The number of choices of `k` elements that have a property. -/
def choicesWith (P : List α → Bool) (l : List α) (k : Nat) : Nat := (l.sublistsLen k).countP P

theorem choicesWith_zero (P : List α → Bool) (l : List α) :
    choicesWith P l 0 = if P [] then 1 else 0 := by
  simp [choicesWith, List.countP_singleton]

/-- Such a choice has the first element or not. -/
theorem choicesWith_cons (P : List α → Bool) (a : α) (l : List α) (k : Nat) :
    choicesWith P (a :: l) (k + 1) =
      choicesWith P l (k + 1) + choicesWith (fun s => P (a :: s)) l k := by
  simp [choicesWith, List.sublistsLen_succ_cons, List.countP_append, List.countP_map,
    Function.comp_def]

/-- **Choices on either side of a division are independent.** -/
theorem countP_sublistsLen_filter (p : α → Bool) (l : List α) (P Q : List α → Bool) (k : Nat) :
    choicesWith (fun s => P (s.filter p) && Q (s.filter fun a => !p a)) l k =
      convolve (choicesWith P (l.filter p)) (choicesWith Q (l.filter fun a => !p a)) k := by
  induction l generalizing P Q k with
  | nil =>
    cases k with
    | zero =>
      simp only [convolve_zero, choicesWith_zero, List.filter_nil]
      by_cases hP : P [] = true <;> simp [hP]
    | succ k =>
      -- one of the two sizes is not zero, and the empty list has no such choice
      refine (Finset.sum_eq_zero fun sizes hsizes => ?_).symm
      obtain ⟨i, j⟩ := sizes
      rw [Finset.HasAntidiagonal.mem_antidiagonal] at hsizes
      cases i with
      | zero =>
        obtain rfl : j = k + 1 := by simpa using hsizes
        exact Nat.mul_zero _
      | succ i => exact Nat.zero_mul _
  | cons a l ih =>
    cases k with
    | zero =>
      simp only [convolve_zero, choicesWith_zero, List.filter_nil]
      by_cases hP : P [] = true <;> simp [hP]
    | succ k =>
      rw [choicesWith_cons, ih]
      cases hp : p a with
      | true =>
        rw [List.filter_cons_of_pos hp, List.filter_cons_of_neg (by simp [hp])]
        simp only [List.filter_cons_of_pos hp, List.filter_cons_of_neg (p := fun a => !p a)
          (a := a) (by simp [hp])]
        rw [ih (fun s => P (a :: s)) Q k, convolve_succ, convolve_succ]
        simp only [choicesWith_cons, choicesWith_zero]
        rw [convolve_add_left]
        ring
      | false =>
        rw [List.filter_cons_of_neg (by simp [hp]), List.filter_cons_of_pos (by simp [hp])]
        simp only [List.filter_cons_of_neg (p := p) (a := a) (by simp [hp]),
          List.filter_cons_of_pos (p := fun a => !p a) (a := a) (by simp [hp])]
        rw [ih P (fun s => Q (a :: s)) k, convolve_succ', convolve_succ']
        simp only [choicesWith_cons, choicesWith_zero]
        rw [convolve_add_right]
        ring

/-- The number of choices of one element only. -/
theorem choicesWith_all [DecidableEq α] (x : α) (l : List α) (k : Nat) :
    choicesWith (fun s => s.all (· == x)) l k = (l.count x).choose k := by
  induction l generalizing k with
  | nil => cases k <;> rfl
  | cons a l ih =>
    cases k with
    | zero => simp [choicesWith_zero]
    | succ k =>
      rw [choicesWith_cons, ih]
      by_cases ha : a = x
      · subst ha
        simp only [List.all_cons, beq_self_eq_true, Bool.true_and]
        rw [ih, List.count_cons_self, Nat.choose_succ_succ, Nat.add_comm]
      · have hnone : choicesWith (fun s => (a :: s).all (· == x)) l k = 0 :=
          List.countP_eq_zero.2 fun s _ => by simp [ha]
        rw [hnone, List.count_cons_of_ne ha, Nat.add_zero]

end Sublists

/-! ## Choices of literals -/

/-- No literal is in the list together with its complement. -/
def unopposed (lits : List Int) : Bool := lits.all fun x => !lits.contains (-x)

theorem unopposed_iff {lits : List Int} : unopposed lits = true ↔ ∀ x ∈ lits, -x ∉ lits := by
  simp [unopposed]

/-- Literals of different variables do not oppose each other. -/
theorem unopposed_filter (v : Nat) (lits : List Int) : unopposed lits =
    (unopposed (lits.filter fun x => x.natAbs == v) &&
      unopposed (lits.filter fun x => !(x.natAbs == v))) := by
  rw [Bool.eq_iff_iff, Bool.and_eq_true]
  simp only [unopposed_iff, List.mem_filter, Int.natAbs_neg]
  constructor
  · intro h
    exact ⟨fun x hx hneg => h x hx.1 hneg.1, fun x hx hneg => h x hx.1 hneg.1⟩
  · rintro ⟨hown, hothers⟩ x hx hneg
    cases hv : x.natAbs == v with
    | true => exact hown x ⟨hx, hv⟩ ⟨hneg, hv⟩
    | false => exact hothers x ⟨hx, by simp [hv]⟩ ⟨hneg, by simp [hv]⟩

/-- Literals of one variable that do not oppose each other have one sign. -/
theorem choicesWith_unopposed {own : List Int} {v : Nat} (hv : 0 < v)
    (hown : ∀ x ∈ own, x.natAbs = v) (k : Nat) : choicesWith unopposed own k =
      signChoices (own.count (v : Int)) (own.count (-(v : Int))) k := by
  cases k with
  | zero => simp [choicesWith_zero, unopposed, signChoices]
  | succ k =>
    rw [signChoices, if_neg (Nat.succ_ne_zero k), ← choicesWith_all, ← choicesWith_all]
    unfold choicesWith
    rw [List.countP_eq_countP_filter_add _ _ fun s => s.all (· == (v : Int)), List.countP_filter,
      List.countP_filter]
    have hsub : ∀ s ∈ own.sublistsLen (k + 1), s ≠ [] ∧ ∀ x ∈ s, x = v ∨ x = -(v : Int) := by
      intro s hs
      obtain ⟨hsub, hlen⟩ := List.mem_sublistsLen.1 hs
      refine ⟨by rintro rfl; simp at hlen, fun x hx => ?_⟩
      have := hown x (hsub.subset hx)
      omega
    congr 1
    · refine List.countP_congr fun s hs => ?_
      simp only [Bool.and_eq_true, List.all_eq_true, beq_iff_eq, and_iff_right_iff_imp,
        unopposed_iff]
      intro hall x hx hneg
      have := hall x hx
      have := hall _ hneg
      omega
    · refine List.countP_congr fun s hs => ?_
      obtain ⟨hne, hsign⟩ := hsub s hs
      simp only [Bool.and_eq_true, Bool.not_eq_true', List.all_eq_false, List.all_eq_true,
        beq_iff_eq, unopposed_iff]
      constructor
      · rintro ⟨hfree, y, hy, hneg⟩ x hx
        obtain rfl : y = -(v : Int) := (hsign y hy).resolve_left hneg
        refine (hsign x hx).resolve_left fun he => ?_
        exact hfree x hx (he ▸ hy)
      · intro hall
        obtain ⟨y, hy⟩ := List.exists_mem_of_ne_nil s hne
        refine ⟨fun x hx hneg => ?_, y, hy, fun he => ?_⟩
        · have := hall x hx
          have := hall _ hneg
          omega
        · have := hall y hy
          omega

/-- Without variables there is the empty choice only. -/
theorem choicesWith_no_variable (lits : List Int) (k : Nat) :
    choicesWith unopposed (lits.filter fun x => ([] : List Nat).contains x.natAbs) k =
      if k = 0 then 1 else 0 := by
  have hnone : lits.filter (fun x => ([] : List Nat).contains x.natAbs) = [] := by simp
  rw [hnone]
  cases k <;> rfl

/-- The choices with one more variable consist of one among its literals and one of before. -/
theorem choicesWith_variable (lits : List Int) {v : Nat} {vars : List Nat} (hv : 0 < v)
    (hnew : v ∉ vars) :
    choicesWith unopposed (lits.filter fun x => (v :: vars).contains x.natAbs) =
      convolve (signChoices (lits.count (v : Int)) (lits.count (-(v : Int))))
        (choicesWith unopposed (lits.filter fun x => vars.contains x.natAbs)) := by
  have hown : ∀ x ∈ lits.filter fun x => x.natAbs == v, x.natAbs = v := fun x hx => by
    simpa using (List.mem_filter.1 hx).2
  have hfirst : (lits.filter fun x => (v :: vars).contains x.natAbs).filter
      (fun x => x.natAbs == v) = lits.filter fun x => x.natAbs == v := by
    rw [List.filter_filter]
    refine List.filter_congr fun x _ => ?_
    cases hx : x.natAbs == v with
    | true => simp [eq_of_beq hx]
    | false => rfl
  have hsecond : (lits.filter fun x => (v :: vars).contains x.natAbs).filter
      (fun x => !(x.natAbs == v)) = lits.filter fun x => vars.contains x.natAbs := by
    rw [List.filter_filter]
    refine List.filter_congr fun x _ => ?_
    cases hx : x.natAbs == v with
    | true => simp [eq_of_beq hx, hnew]
    | false => rw [List.contains_cons, hx, Bool.false_or, Bool.not_false, Bool.true_and]
  have hsigns : choicesWith unopposed (lits.filter fun x => x.natAbs == v) =
      signChoices (lits.count (v : Int)) (lits.count (-(v : Int))) := by
    funext k
    rw [choicesWith_unopposed hv hown, List.count_filter (by simp), List.count_filter (by simp)]
  funext k
  rw [show unopposed = fun s => unopposed (s.filter fun x => x.natAbs == v) &&
    unopposed (s.filter fun x => !(x.natAbs == v)) from funext (unopposed_filter v)]
  rw [countP_sublistsLen_filter, hfirst, hsecond]
  simp only [← unopposed_filter]
  rw [hsigns]

variable {R : Nat → Nat → Prop} {lits : List Int} {order : List Nat} {t : Nat}

/-- **The choices of literals are counted**, variable by variable. -/
theorem choicesAmong_relates (hR : Saturating R) {vars : List Nat} (hvars : vars.Nodup)
    (hpos : ∀ v ∈ vars, 0 < v)
    (hsigns : ∀ v ∈ vars, ∀ k ≤ t, R (signWays (lits.count (v : Int)) (lits.count (-(v : Int))) k)
      (signChoices (lits.count (v : Int)) (lits.count (-(v : Int))) k)) :
    (choicesAmong lits t vars).Relates R
      (choicesWith unopposed (lits.filter fun x => vars.contains x.natAbs)) t := by
  induction vars with
  | nil =>
    intro k _
    rw [choicesWith_no_variable]
    cases k with
    | zero => exact hR.one
    | succ k => exact hR.zero
  | cons v vars ih =>
    obtain ⟨hnew, hnodup⟩ := List.nodup_cons.1 hvars
    obtain ⟨hv, hpos⟩ := List.forall_mem_cons.1 hpos
    obtain ⟨hown, hsigns⟩ := List.forall_mem_cons.1 hsigns
    have hproduct := ChoiceCounts.Relates.mul hR
      (p := variableChoices (lits.count (v : Int)) (lits.count (-(v : Int))))
      (fun k hk => by rw [ofSize_variableChoices]; exact hown k hk) (ih hnodup hpos hsigns)
    intro k hk
    rw [choicesWith_variable lits hv hnew, choicesAmong, ChoiceCounts.ofSize,
      List.getD_eq_getElem?_getD, List.getElem?_take_of_lt (by omega),
      ← List.getD_eq_getElem?_getD]
    exact hproduct k hk

/-- The number of ways to choose `t` of the literals, when their variables are visited in the given
    order. -/
def literalChoicesIn (lits : List Int) (t : Nat) (order : List Nat) : Nat :=
  (choicesAmong lits t order).ofSize t

/-- Each variable of the literals is visited once. -/
def VisitsAll (lits : List Int) (order : List Nat) : Prop :=
  order.Perm (lits.map Int.natAbs).eraseDups

instance : DecidableRel VisitsAll := fun lits order =>
  inferInstanceAs (Decidable (order.Perm (lits.map Int.natAbs).eraseDups))

theorem nodup_eraseDups : ∀ vars : List Nat, vars.eraseDups.Nodup
  | [] => List.nodup_nil
  | v :: vars => by
    rw [List.eraseDups_cons, List.nodup_cons]
    exact ⟨by simp, nodup_eraseDups _⟩
termination_by vars => vars.length
decreasing_by exact Nat.lt_succ_of_le (List.length_filter_le _ _)

theorem VisitsAll.nodup (h : VisitsAll lits order) : order.Nodup :=
  h.nodup_iff.2 (nodup_eraseDups _)

theorem VisitsAll.mem_iff {v : Nat} (h : VisitsAll lits order) :
    v ∈ order ↔ ∃ x ∈ lits, x.natAbs = v := by
  rw [List.Perm.mem_iff h, List.mem_eraseDups, List.mem_map]

theorem VisitsAll.pos (h : VisitsAll lits order) (hne : ∀ x ∈ lits, x ≠ 0) :
    ∀ v ∈ order, 0 < v := by
  intro v hv
  obtain ⟨x, hx, rfl⟩ := h.mem_iff.1 hv
  exact Int.natAbs_pos.2 (hne x hx)

theorem VisitsAll.filter_eq_self (h : VisitsAll lits order) :
    (lits.filter fun x => order.contains x.natAbs) = lits :=
  List.filter_eq_self.2 fun x hx => List.contains_iff_mem.2 (h.mem_iff.2 ⟨x, hx, rfl⟩)

theorem literalChoicesIn_relates (hR : Saturating R) (hne : ∀ x ∈ lits, x ≠ 0)
    (horder : VisitsAll lits order)
    (hsigns : ∀ v ∈ order, ∀ k ≤ t, R (signWays (lits.count (v : Int)) (lits.count (-(v : Int))) k)
      (signChoices (lits.count (v : Int)) (lits.count (-(v : Int))) k)) :
    R (literalChoicesIn lits t order) (choicesWith unopposed lits t) := by
  have hall := choicesAmong_relates hR horder.nodup (horder.pos hne) hsigns t (Nat.le_refl t)
  rwa [horder.filter_eq_self] at hall

/-! ## Choices of expressions -/

/-- No literal of the expressions is among them together with its complement. -/
def areConsistent (exprs : List LiteralSet) : Bool := unopposed (exprs.flatMap (·.literals))

/-- A union is contradictory if the expressions oppose each other. -/
theorem isContradictory_unionAt {group : ExpressionGroup} {places : List Nat} :
    (unionAt group places).isContradictory = !areConsistent (group.pick places) := by
  have hmem : ∀ {x}, x ∈ (unionAt group places).literals ↔
      x ∈ (group.pick places).flatMap (·.literals) := by
    intro x
    rw [mem_literals_unionAt, List.mem_flatMap]
  have hopposed : areConsistent (group.pick places) = false ↔
      ∃ x ∈ (unionAt group places).literals, -x ∈ (unionAt group places).literals := by
    rw [← Bool.not_eq_true, areConsistent, unopposed_iff]
    simp only [hmem, not_forall, Classical.not_not, exists_prop]
  rw [Bool.eq_iff_iff, Bool.not_eq_true', hopposed]
  exact LiteralSet.isContradictory_ofList_iff

/-- The listed choices are all choices of expressions, in another order. -/
theorem pick_choiceList_perm (group : ExpressionGroup) (t : Nat) :
    ((choiceList group.size t).map group.pick).Perm (group.toList.sublistsLen t) := by
  have hplaces : (choiceList group.size t).Perm ((List.range group.size).sublistsLen t) := by
    refine (List.perm_ext_iff_of_nodup (nodup_choiceList _ _) ?_).2 fun qs => ?_
    · exact List.nodup_sublistsLen _ List.nodup_range
    · rw [mem_choiceList, List.mem_sublistsLen, rising_zero_iff]
  have hlist := hplaces.map group.pick
  rwa [show group.pick = List.map fun i => group.getD i default from rfl, ← map_sublistsLen,
    ← toList_eq_map_range] at hlist

theorem length_candidateList_cons (t : Nat) (group : ExpressionGroup)
    (groups : List ExpressionGroup) : (candidateList t (group :: groups)).length =
      choicesWith areConsistent group.toList t + (candidateList t groups).length := by
  have hcount : ∀ choices : List (ExpressionGroup × List Nat), (consistentUnions choices).length =
      choices.countP fun choice => areConsistent (choice.1.pick choice.2) := by
    intro choices
    rw [consistentUnions, ← List.countP_eq_length_filter, List.countP_map]
    refine List.countP_congr fun choice _ => ?_
    simp [isContradictory_unionAt]
  unfold candidateList
  rw [hcount, hcount, choicesOf_cons, List.countP_append, List.countP_map, choicesWith,
    ← (pick_choiceList_perm group t).countP_eq, List.countP_map]
  rfl

/-- Single literals are chosen like expressions. -/
theorem choicesWith_singletons {exprs : List LiteralSet} (hone : ∀ e ∈ exprs, e.size = 1) (t : Nat) :
    choicesWith areConsistent exprs t = choicesWith unopposed (exprs.flatMap (·.literals)) t := by
  let lit : LiteralSet → Int := fun e => e.literals.headD 0
  have hlit : ∀ l : List LiteralSet, (∀ e ∈ l, e.size = 1) →
      l.flatMap (·.literals) = l.map lit := by
    intro l hl
    rw [List.map_eq_flatMap]
    refine List.flatMap_congr fun e he => ?_
    obtain ⟨x, hx⟩ := List.length_eq_one_iff.1 (hl e he)
    simp [lit, hx]
  rw [hlit exprs hone, choicesWith, choicesWith, map_sublistsLen, List.countP_map]
  refine List.countP_congr fun s hs => ?_
  have hsub := (List.mem_sublistsLen.1 hs).1
  rw [areConsistent, hlit s fun e he => hone e (hsub.subset he), Function.comp_apply]

/-! ## The total -/

theorem ExpressionGroup.ne_zero_of_mem_literals {group : ExpressionGroup} {x : Int}
    (h : x ∈ group.literals) : x ≠ 0 := by
  obtain ⟨e, -, hx⟩ := List.mem_flatMap.1 h
  exact LiteralSet.ne_zero_of_mem_literals hx

/-- A group and an order in which the variables of its literals are visited. -/
abbrev Visit := ExpressionGroup × List Nat

/-- The number of candidates of a group, or a bound of it. -/
def Visit.candidates (t : Nat) (visit : Visit) : Nat :=
  if visit.1.isSingle then literalChoicesIn visit.1.literals t visit.2 else binomial visit.1.size t

/-- The number of candidates of all groups, or a bound of it. -/
def candidateTotalIn (visits : List Visit) (t : Nat) : Nat :=
  visits.foldl (fun total visit => satAdd total (visit.candidates t)) 0

/-- The number of candidates of a group, if the table of counts that it takes can be had. -/
def Visit.candidates? (t : Nat) (visit : Visit) : Option Nat :=
  if visit.1.isSingle && decide (maxTable < t + 1) then none else some (visit.candidates t)

/-- The number of candidates of all groups, if the tables of counts that it takes can be had. -/
def candidateTotalIn? (visits : List Visit) (t : Nat) : Option Nat :=
  visits.foldlM (fun total visit => (visit.candidates? t).map (satAdd total)) 0

/-- The visit in the order of the literals. -/
def ExpressionGroup.visit (group : ExpressionGroup) : Visit :=
  (group, (group.literals.map Int.natAbs).eraseDups)

theorem candidateTotal_eq (groups : List ExpressionGroup) (t : Nat) :
    candidateTotal groups t = candidateTotalIn (groups.map ExpressionGroup.visit) t := by
  rw [candidateTotalIn, List.foldl_map]
  rfl

theorem candidateTotal?_eq (groups : List ExpressionGroup) (t : Nat) :
    candidateTotal? groups t = candidateTotalIn? (groups.map ExpressionGroup.visit) t := by
  rw [candidateTotalIn?, List.foldlM_map]
  rfl

/-- There is a table of counts for every group that takes one. -/
def TablesFit (t : Nat) (groups : List ExpressionGroup) : Prop :=
  ∀ group ∈ groups, group.isSingle = true → t < maxTable

theorem Visit.candidates?_eq_some {t : Nat} {visit : Visit}
    (h : visit.1.isSingle = true → t < maxTable) :
    visit.candidates? t = some (visit.candidates t) := by
  refine if_neg fun hlong => ?_
  obtain ⟨hsingle, hlt⟩ := Bool.and_eq_true_iff.1 hlong
  have := h hsingle
  have := of_decide_eq_true hlt
  omega

theorem Visit.candidates?_eq_none {t : Nat} {visit : Visit} (hsingle : visit.1.isSingle = true)
    (hlong : maxTable ≤ t) : visit.candidates? t = none :=
  if_pos (Bool.and_eq_true_iff.2 ⟨hsingle, decide_eq_true (Nat.lt_succ_of_le hlong)⟩)

theorem candidateTotalIn?_eq_some {t : Nat} {visits : List Visit}
    (h : TablesFit t (visits.map Prod.fst)) :
    candidateTotalIn? visits t = some (candidateTotalIn visits t) := by
  have hfold : ∀ (visits : List Visit) (total : Nat), TablesFit t (visits.map Prod.fst) →
      visits.foldlM (fun total visit => (visit.candidates? t).map (satAdd total)) total =
        some (visits.foldl (fun total visit => satAdd total (visit.candidates t)) total) := by
    intro visits
    induction visits with
    | nil => exact fun total _ => rfl
    | cons visit visits ih =>
      intro total h
      obtain ⟨hfirst, hrest⟩ := List.forall_mem_cons.1 h
      rw [List.foldlM_cons, Visit.candidates?_eq_some hfirst]
      exact ih _ hrest
  exact hfold visits 0 h

theorem candidateTotalIn?_eq_none {t : Nat} {visits : List Visit}
    (h : ¬ TablesFit t (visits.map Prod.fst)) : candidateTotalIn? visits t = none := by
  have hfold : ∀ (visits : List Visit) (total : Nat), ¬ TablesFit t (visits.map Prod.fst) →
      visits.foldlM (fun total visit => (visit.candidates? t).map (satAdd total)) total = none := by
    intro visits
    induction visits with
    | nil => exact fun total h => absurd (fun _ hmem => nomatch hmem) h
    | cons visit visits ih =>
      intro total h
      rw [List.foldlM_cons]
      by_cases hfirst : visit.1.isSingle = true → t < maxTable
      · rw [Visit.candidates?_eq_some hfirst]
        exact ih _ fun hrest => h (List.forall_mem_cons.2 ⟨hfirst, hrest⟩)
      · rw [Classical.not_imp, Nat.not_lt] at hfirst
        rw [Visit.candidates?_eq_none hfirst.1 hfirst.2]
        rfl
  exact hfold visits 0 h

/-- **The total comes out if and only if there are the tables that it takes.** -/
theorem candidateTotalIn?_eq_some_iff {t total : Nat} {visits : List Visit} :
    candidateTotalIn? visits t = some total ↔
      TablesFit t (visits.map Prod.fst) ∧ total = candidateTotalIn visits t := by
  by_cases hfit : TablesFit t (visits.map Prod.fst)
  · rw [candidateTotalIn?_eq_some hfit, Option.some.injEq]
    exact ⟨fun h => ⟨hfit, h.symm⟩, fun h => h.2.symm⟩
  · rw [candidateTotalIn?_eq_none hfit]
    exact ⟨fun h => (nomatch h), fun h => absurd h.1 hfit⟩

theorem ExpressionGroup.size_eq_one {group : ExpressionGroup}
    (h : group.isSingle = true) : ∀ e ∈ group.toList, e.size = 1 := by
  intro e he
  simpa using Array.all_eq_true_iff_forall_mem.1 h e (by simpa using he)

theorem Visit.candidates_atLeast (t : Nat) {visit : Visit}
    (hvisit : VisitsAll visit.1.literals visit.2) :
    AtLeast (visit.candidates t) (choicesWith areConsistent visit.1.toList t) := by
  unfold candidates
  split
  · rename_i hsingle
    rw [choicesWith_singletons (ExpressionGroup.size_eq_one hsingle)]
    exact literalChoicesIn_relates AtLeast.saturating
      (fun x hx => ExpressionGroup.ne_zero_of_mem_literals hx) hvisit
      fun v _ k _ => signWays_atLeast _ _ k
  · refine (binomial_atLeast visit.1.size t).mono ?_
    calc choicesWith areConsistent visit.1.toList t ≤ (visit.1.toList.sublistsLen t).length :=
          List.countP_le_length
      _ = visit.1.size.choose t := by rw [List.length_sublistsLen, Array.length_toList]

/-- The total compares to the number of candidates as those of the groups do. -/
theorem candidateTotalIn_relates (hR : Saturating R) {visits : List Visit}
    (hvisits : ∀ visit ∈ visits,
      R (visit.candidates t) (choicesWith areConsistent visit.1.toList t)) :
    R (candidateTotalIn visits t) (candidateList t (visits.map Prod.fst)).length := by
  have hfold : ∀ (visits : List Visit) (total counted : Nat), R total counted →
      (∀ visit ∈ visits, R (visit.candidates t) (choicesWith areConsistent visit.1.toList t)) →
      R (visits.foldl (fun total visit => satAdd total (visit.candidates t)) total)
        (counted + (candidateList t (visits.map Prod.fst)).length) := by
    intro visits
    induction visits with
    | nil => exact fun total counted h _ => h
    | cons visit visits ih =>
      intro total counted h hvisits
      obtain ⟨hvisit, hvisits⟩ := List.forall_mem_cons.1 hvisits
      rw [List.map_cons, length_candidateList_cons, ← Nat.add_assoc]
      exact ih _ _ (hR.add h hvisit) hvisits
  have hall := hfold visits 0 0 hR.zero hvisits
  rwa [Nat.zero_add] at hall

theorem candidateTotalIn_atLeast (t : Nat) {visits : List Visit}
    (hvisits : ∀ visit ∈ visits, VisitsAll visit.1.literals visit.2) :
    AtLeast (candidateTotalIn visits t) (candidateList t (visits.map Prod.fst)).length :=
  candidateTotalIn_relates AtLeast.saturating fun visit hvisit =>
    Visit.candidates_atLeast t (hvisits visit hvisit)

theorem visitsAll_visit (groups : List ExpressionGroup) :
    ∀ visit ∈ groups.map ExpressionGroup.visit, VisitsAll visit.1.literals visit.2 := by
  intro visit hvisit
  obtain ⟨group, -, rfl⟩ := List.mem_map.1 hvisit
  exact List.Perm.refl _

/-- **The total is no less than the number of candidates in the list**, as far as it can be told. -/
theorem candidateTotal_atLeast (t : Nat) (groups : List ExpressionGroup) :
    AtLeast (candidateTotal groups t) (candidateList t groups).length := by
  have hall := candidateTotalIn_atLeast t (visitsAll_visit groups)
  rw [candidateTotal_eq]
  rwa [List.map_map, show Prod.fst ∘ ExpressionGroup.visit = id from rfl, List.map_id] at hall

/-- The total is not zero if some choice is free of contradiction. -/
theorem candidateTotal_pos {t : Nat} {group : ExpressionGroup} {groups : List ExpressionGroup}
    {qs : List Nat} (hgroup : group ∈ groups) (hchoice : IsChoice t group qs)
    (hcon : (unionAt group qs).isContradictory = false) : 0 < candidateTotal groups t := by
  have hmem : unionAt group qs ∈ candidateList t groups := by
    have hlisted : (group, qs) ∈ choicesOf t groups :=
      List.mem_flatMap.2 ⟨group, hgroup, List.mem_map_of_mem (mem_choiceList.2 hchoice)⟩
    exact List.mem_filter.2 ⟨List.mem_map.2 ⟨_, hlisted, rfl⟩, by rw [hcon, Bool.not_false]⟩
  have hlisted := List.length_pos_of_mem hmem
  have htotal := candidateTotal_atLeast t groups
  unfold AtLeast maxCount at htotal
  omega

end ConfigSampler
