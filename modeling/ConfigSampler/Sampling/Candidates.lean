import ConfigSampler.Arithmetic.Count
import ConfigSampler.Formula.LiteralSet

/-!
# Counting candidate combinations

A *group* is an array of expressions, each a set of literals, and a candidate combination of
strength `t` chooses `t` expressions of one group without contradiction.  `candidateTotal` counts
the candidates without listing them.  In a group of single literals the choices for different
variables are independent, so the counts by size multiply like polynomials, one factor for each
variable; in any other group the number of all choices stands in as an upper bound.

The counts by size stand in a table with an entry for every size up to `t`, however few literals
there are.  A strength that asks for a longer table than there can be fails; `candidateTotal?` tells
so, and `candidateTotal` is what comes out otherwise.
-/

set_option autoImplicit false

namespace ConfigSampler

/-- Expressions that are combined with each other. -/
abbrev ExpressionGroup := Array LiteralSet

/-- The product `acc * (n - i) / (i + 1) * …` over the given number of factors.  Each partial
    quotient is a number of subsets, so every division is exact. -/
def subsetsFrom (n : Nat) : Nat → Nat → Nat → Nat
  | 0, _, acc => acc
  | factors + 1, i, acc => subsetsFrom n factors (i + 1) (acc * (n - i) / (i + 1))

/-- The number of ways to choose `k` of `n` things. -/
def subsets (n k : Nat) : Nat := if n < k then 0 else subsetsFrom n (min k (n - k)) 0 1

/-- As `subsetsFrom`, but `maxCount` as soon as a product exceeds it. -/
def binomialFrom (n : Nat) : Nat → Nat → Nat → Nat
  | 0, _, acc => acc
  | factors + 1, i, acc =>
    let product := acc * (n - i)
    if maxCount < product then maxCount else binomialFrom n factors (i + 1) (product / (i + 1))

/-- The number of ways to choose `k` of `n` things, as far as it can be computed with numbers up to
    `maxCount`, and otherwise `maxCount`. -/
def binomial (n k : Nat) : Nat := if n < k then 0 else binomialFrom n (min k (n - k)) 0 1

/-- The numbers of choices of each size, that of the empty choice first. -/
abbrev ChoiceCounts := List Nat

namespace ChoiceCounts

/-- The counts of choices of either kind. -/
def add : ChoiceCounts → ChoiceCounts → ChoiceCounts
  | [], q => q
  | p, [] => p
  | a :: p, b :: q => satAdd a b :: add p q

/-- The counts of choices that consist of one of either kind: sizes add up. -/
def mul : ChoiceCounts → ChoiceCounts → ChoiceCounts
  | [], _ => []
  | a :: p, q => add (q.map (satMul a)) (0 :: mul p q)

/-- The number of choices of a size. -/
def ofSize (p : ChoiceCounts) (k : Nat) : Nat := p.getD k 0

end ChoiceCounts

/-- The number of ways to choose `k` of the literals of one variable: all of them of one sign.  To
    choose none is one way. -/
def signWays (positive negative k : Nat) : Nat :=
  if k = 0 then 1 else satAdd (binomial positive k) (binomial negative k)

/-- The choices for a variable that so many positive and so many negative literals belong to. -/
def variableChoices (positive negative : Nat) : ChoiceCounts :=
  (List.range (max positive negative + 1)).map (signWays positive negative)

/-- The choices among literals of the given variables, up to size `t`. -/
def choicesAmong (lits : List Int) (t : Nat) : List Nat → ChoiceCounts
  | [] => [1]
  | v :: rest =>
    let own := variableChoices (lits.count (v : Int)) (lits.count (-(v : Int)))
    (ChoiceCounts.mul own (choicesAmong lits t rest)).take (t + 1)

/-- The number of ways to choose `t` of the literals, which may repeat, without contradiction. -/
def literalChoices (lits : List Int) (t : Nat) : Nat :=
  (choicesAmong lits t (lits.map Int.natAbs).eraseDups).ofSize t

namespace ExpressionGroup

/-- All expressions of the group are single literals. -/
def isSingle (group : ExpressionGroup) : Bool := group.all fun e => e.size == 1

/-- The literals of all expressions of a group. -/
def literals (group : ExpressionGroup) : List Int := group.toList.flatMap (·.literals)

end ExpressionGroup

/-- The number of candidates of one group, or a bound of it. -/
def groupCandidates (t : Nat) (group : ExpressionGroup) : Nat :=
  if group.isSingle then literalChoices group.literals t else binomial group.size t

/-- The number of candidates of all groups: exact for groups of single literals, and otherwise an
    upper bound. -/
def candidateTotal (groups : List ExpressionGroup) (t : Nat) : Nat :=
  groups.foldl (fun total group => satAdd total (groupCandidates t group)) 0

/-- The greatest number of entries that a table of counts can have, `2 ^ 60 - 1`. -/
def maxTable : Nat := 1152921504606846975

/-- The number of candidates of one group, if the table of counts that it takes can be had. -/
def groupCandidates? (t : Nat) (group : ExpressionGroup) : Option Nat :=
  if group.isSingle && decide (maxTable < t + 1) then none else some (groupCandidates t group)

/-- The number of candidates of all groups, if the tables of counts that it takes can be had. -/
def candidateTotal? (groups : List ExpressionGroup) (t : Nat) : Option Nat :=
  groups.foldlM (fun total group => (groupCandidates? t group).map (satAdd total)) 0

end ConfigSampler
