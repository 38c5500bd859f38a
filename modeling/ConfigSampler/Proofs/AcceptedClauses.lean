import ConfigSampler.Proofs.Formulas
import ConfigSampler.Proofs.Layouts
import ConfigSampler.Proofs.NameTables

/-!
# The clauses that a formula accepts

A formula is built by calls that give a clause by literals or by names with polarities
(`Cnf.Addition`).  `Addition.run_eq` says all that a call does: the first bad entry of its list is the
error, and without one the set of its literals is stored.  What is stored keeps the meaning of the lists
as they were given (`Built.Sound`): repetitions do not matter, and a list with complementary literals
holds under every full assignment, so nothing is lost when it is dropped.

Principal result: `Cnf.clauses_keep_meaning`.
-/

set_option autoImplicit false

namespace ConfigSampler

/-- A partial assignment that gives each of the variables `1, …, n` a value. -/
structure LiteralSet.IsFullAssignment (n : Nat) (S : Finset Int) : Prop
    extends LiteralSet.IsPartialAssignment n S where
  mem_or_neg_mem : ∀ v ≤ n, 0 < v → (v : Int) ∈ S ∨ -(v : Int) ∈ S

namespace Cnf

/-- A call that adds a clause, given by its literals or by names with polarities. -/
inductive Addition where
  | literals (lits : List Int)
  | named (entries : List (String × Bool))
deriving DecidableEq, Repr

/-- What is wrong with a literal over a table. -/
def literalFault (vars : Variables) (x : Int) : Option SampleError :=
  if x = 0 then some .zeroLiteral
  else if vars.size < x.natAbs then some (.literalOutOfRange x)
  else none

/-- What is wrong with a name, whatever its polarity, over a table. -/
def nameFault (vars : Variables) (entry : String × Bool) : Option SampleError :=
  if entry.1 ∈ vars.names then none else some (.unknownVariable entry.1)

namespace Addition

/-- Whether the call succeeds, and the formula after it. -/
def run (cnf : Cnf) : Addition → Except SampleError Unit × Cnf
  | .literals lits => cnf.addClause lits
  | .named entries => cnf.addNamedClause entries

/-- What is wrong with the first bad entry of the list. -/
def fault (vars : Variables) : Addition → Option SampleError
  | .literals lits => lits.findSome? (literalFault vars)
  | .named entries => entries.findSome? (nameFault vars)

/-- The literals of the list, as they were given. -/
def raw (vars : Variables) : Addition → List Int
  | .literals lits => lits
  | .named entries => entries.filterMap fun (name, selected) =>
      (vars.indexOf? name).map fun v : Nat => if selected then (v : Int) else -(v : Int)

end Addition

/-- A formula in the course of calls, and the lists that it accepted. -/
structure Built where
  cnf : Cnf
  accepted : List (List Int)

namespace Built

/-- A list is accepted if its call succeeds; the formula is what the call leaves. -/
def add (b : Built) (call : Addition) : Built :=
  match call.run b.cnf with
  | (.ok (), cnf) => ⟨cnf, b.accepted ++ [call.raw b.cnf.vars]⟩
  | (.error _, cnf) => ⟨cnf, b.accepted⟩

/-- What a sequence of calls makes of the formula without clauses. -/
def ofCalls (vars : Variables) (calls : List Addition) : Built :=
  calls.foldl add ⟨ofVariables vars, []⟩

end Built

variable {vars : Variables} {cnf : Cnf} {lits : List Int} {entries : List (String × Bool)}
  {call : Addition} {b : Built} {S : Finset Int} {config clause : LiteralSet}

/-! ## What a call does -/

theorem checkLiteralWithin_eq {x : Int} : checkLiteralWithin vars.size x =
    match literalFault vars x with
    | some e => .error e
    | none => .ok () := by
  unfold checkLiteralWithin literalFault
  split
  · rfl
  · split <;> rfl

theorem literalFault_eq_none {x : Int} :
    literalFault vars x = none ↔ x ≠ 0 ∧ x.natAbs ≤ vars.size := by
  rw [← checkLiteralWithin_eq_ok, checkLiteralWithin_eq]
  cases literalFault vars x <;> simp

theorem checkLiteralsWithin_eq : checkLiteralsWithin vars.size lits =
    match lits.findSome? (literalFault vars) with
    | some e => .error e
    | none => .ok () := by
  induction lits with
  | nil => rfl
  | cons x rest ih =>
    rw [checkLiteralsWithin, List.findSome?_cons, ih, checkLiteralWithin_eq]
    cases literalFault vars x <;> rfl

theorem indexOf?_eq_none {name : String} : vars.indexOf? name = none ↔ name ∉ vars.names := by
  rw [Variables.indexOf?, Option.map_eq_none_iff, Array.findIdx?_eq_none_iff]
  constructor
  · intro h hmem
    simpa using h name hmem
  · intro h other hother
    simpa using ne_of_mem_of_not_mem hother h

/-- A variable that has a name is one of the table. -/
theorem indexOf?_bounds {name : String} {v : Nat} (h : vars.indexOf? name = some v) :
    0 < v ∧ v ≤ vars.size := by
  have hname := Variables.name?_of_indexOf? h
  exact ⟨(Variables.name?_eq_some.1 hname).1, Variables.le_size_of_name? hname⟩

theorem namedLiterals_eq : namedLiterals vars entries =
    match entries.findSome? (nameFault vars) with
    | some e => .error e
    | none => .ok ((Addition.named entries).raw vars) := by
  induction entries with
  | nil => rfl
  | cons entry rest ih =>
    obtain ⟨name, selected⟩ := entry
    rw [namedLiterals, List.findSome?_cons, ih, Variables.literal, Variables.indexOf]
    cases hindex : vars.indexOf? name with
    | none =>
      have hfault : nameFault vars (name, selected) = some (.unknownVariable name) :=
        if_neg (indexOf?_eq_none.1 hindex)
      rw [hfault]
      rfl
    | some v =>
      have hmem : name ∈ vars.names := by
        by_contra hno
        rw [indexOf?_eq_none.2 hno] at hindex
        cases hindex
      have hfault : nameFault vars (name, selected) = none := if_pos hmem
      rw [hfault]
      cases hrest : rest.findSome? (nameFault vars) with
      | some e => rfl
      | none => simp [Except.map, Addition.raw, hindex]

/-- Literals that names stand for belong to variables. -/
theorem valid_raw_named {x : Int} (hx : x ∈ (Addition.named entries).raw vars) :
    x ≠ 0 ∧ x.natAbs ≤ vars.size := by
  obtain ⟨⟨name, selected⟩, -, hx⟩ := List.mem_filterMap.1 hx
  obtain ⟨v, hindex, rfl⟩ := Option.map_eq_some_iff.1 hx
  have hv := indexOf?_bounds hindex
  split <;> omega

namespace Addition

theorem valid_raw (h : call.fault vars = none) {x : Int} (hx : x ∈ call.raw vars) :
    x ≠ 0 ∧ x.natAbs ≤ vars.size := by
  cases call with
  | literals lits => exact literalFault_eq_none.1 (List.findSome?_eq_none_iff.1 h x hx)
  | named entries => exact valid_raw_named hx

/-- **A call fails with the fault of its first bad entry** and leaves the formula as it was, and
    otherwise stores the set of its literals. -/
theorem run_eq : call.run cnf =
    match call.fault cnf.vars with
    | some e => (.error e, cnf)
    | none => (.ok (), cnf.store (LiteralSet.ofList (call.raw cnf.vars))) := by
  cases call with
  | literals lits =>
    rw [run, addClause, Cnf.size, checkLiteralsWithin_eq, fault]
    cases lits.findSome? (literalFault cnf.vars) <;> rfl
  | named entries =>
    rw [run, addNamedClause, namedLiterals_eq, fault]
    cases entries.findSome? (nameFault cnf.vars) with
    | some e => rfl
    | none =>
      have hcheck : checkLiteralsWithin cnf.size ((named entries).raw cnf.vars) = .ok () :=
        checkLiteralsWithin_eq_ok.2 fun x => valid_raw_named
      simp only [addClause, hcheck]

theorem run_eq_error {e : SampleError} :
    (call.run cnf).1 = .error e ↔ call.fault cnf.vars = some e := by
  rw [run_eq]
  cases call.fault cnf.vars <;> simp

end Addition

/-! ## What is kept -/

/-- The literals of a stored clause belong to variables of the table, each variable once. -/
structure IsStored (vars : Variables) (clause : LiteralSet) : Prop where
  valid : ∀ x ∈ clause.slots, x ≠ 0 ∧ x.natAbs ≤ vars.size
  nodup : (clause.slots.toList.map Int.natAbs).Nodup

theorem isStored_ofList (h : ∀ x ∈ lits, x ≠ 0 ∧ x.natAbs ≤ vars.size)
    (hno : (LiteralSet.ofList lits).isContradictory = false) :
    IsStored vars (LiteralSet.ofList lits) := by
  have hvalid : ∀ x ∈ (LiteralSet.ofList lits).slots, x ≠ 0 ∧ x.natAbs ≤ vars.size := by
    intro x hx
    rw [LiteralSet.ofList, LiteralSet.mem_foldl_insertNew] at hx
    exact h x (hx.resolve_left (by simp)).1
  refine ⟨hvalid, (List.nodup_map_iff_inj_on (LiteralSet.nodup_foldl_insertNew lits #[] (by simp))).2
    fun x hx y hy he => ?_⟩
  have hliteral : ∀ z ∈ (LiteralSet.ofList lits).slots.toList,
      z ∈ (LiteralSet.ofList lits).literals := fun z hz =>
    (LiteralSet.mem_literals (hvalid z (by simpa using hz)).1).2 (by simpa using hz)
  rcases Int.natAbs_eq_natAbs_iff.1 he with he | rfl
  · exact he
  · exact absurd (hliteral _ hx) (LiteralSet.neg_notMem_of_ofList hno (hliteral y hy))

/-- The stored clause holds under a full assignment exactly if one of the given literals does. -/
theorem any_literals_ofList (lits : List Int) (hS : LiteralSet.IsPartialAssignment vars.size S)
    (hconfig : config.Denotes S) :
    (LiteralSet.ofList lits).literals.any config.contains = true ↔ ∃ x ∈ lits, x ∈ S := by
  simp only [List.any_eq_true, LiteralSet.mem_literals_ofList, hconfig.contains_iff hS]
  constructor
  · rintro ⟨x, ⟨hx, -⟩, hxS⟩
    exact ⟨x, hx, hxS⟩
  · rintro ⟨x, hx, hxS⟩
    exact ⟨x, ⟨hx, hS.ne_zero hxS⟩, hxS⟩

/-- A tautology holds under every full assignment. -/
theorem exists_mem_of_isContradictory (hS : LiteralSet.IsFullAssignment vars.size S)
    (h : ∀ x ∈ lits, x ≠ 0 ∧ x.natAbs ≤ vars.size)
    (hc : (LiteralSet.ofList lits).isContradictory = true) : ∃ x ∈ lits, x ∈ S := by
  obtain ⟨x, hx, hneg⟩ := (LiteralSet.isContradictory_ofList fun x hx => (h x hx).1).1 hc
  obtain ⟨hne, hle⟩ := h x hx
  have hvalue := hS.mem_or_neg_mem x.natAbs hle (by omega)
  rcases Int.natAbs_eq x with he | he
  · rw [← he] at hvalue
    exact hvalue.elim (fun hmem => ⟨x, hx, hmem⟩) fun hmem => ⟨-x, hneg, hmem⟩
  · rw [show (x.natAbs : Int) = -x by omega, Int.neg_neg] at hvalue
    exact hvalue.elim (fun hmem => ⟨-x, hneg, hmem⟩) fun hmem => ⟨x, hx, hmem⟩

namespace Built

/-- What holds of a formula in the course of calls. -/
structure Sound (vars : Variables) (b : Built) : Prop where
  vars_eq : b.cnf.vars = vars
  stored : ∀ clause ∈ b.cnf.clauses, IsStored vars clause
  meaning : ∀ S config, LiteralSet.IsFullAssignment vars.size S →
    LiteralSet.Presents vars.size S config →
    (b.cnf.isSatisfiedBy config = true ↔ ∀ lits ∈ b.accepted, ∃ x ∈ lits, x ∈ S)

theorem isSatisfiedBy_store : (cnf.store clause).isSatisfiedBy config =
    (cnf.isSatisfiedBy config && (clause.isContradictory || clause.literals.any config.contains)) := by
  unfold store
  split
  · rename_i h
    rw [h, Bool.true_or, Bool.and_true]
  · rename_i h
    rw [Bool.not_eq_true] at h
    rw [h, Bool.false_or, isSatisfiedBy, isSatisfiedBy, Array.all_push]

theorem Sound.add (h : b.Sound vars) (call : Addition) : (b.add call).Sound vars := by
  obtain ⟨rfl, hstored, hmeaning⟩ := h
  unfold Built.add
  rw [Addition.run_eq]
  cases hfault : call.fault b.cnf.vars with
  | some e => exact ⟨rfl, hstored, hmeaning⟩
  | none =>
    have hvalid := fun x => Addition.valid_raw hfault (x := x)
    refine ⟨?_, fun clause hclause => ?_, fun S config hS hconfig => ?_⟩
    · simp only [store]
      split <;> rfl
    · simp only [store] at hclause
      split at hclause
      · exact hstored clause hclause
      · rename_i hno
        rcases Array.mem_push.1 hclause with hclause | rfl
        · exact hstored clause hclause
        · exact isStored_ofList hvalid (by simpa using hno)
    · have hclause := any_literals_ofList (call.raw b.cnf.vars) hS.toIsPartialAssignment
        (hconfig.denotes hS.toIsPartialAssignment)
      rw [isSatisfiedBy_store, Bool.and_eq_true, Bool.or_eq_true, hmeaning S config hS hconfig,
        hclause, List.forall_mem_append, List.forall_mem_singleton]
      refine and_congr_right fun _ => ⟨fun hor => hor.elim ?_ id, .inr⟩
      exact exists_mem_of_isContradictory hS hvalid

theorem sound_ofCalls (vars : Variables) (calls : List Addition) : (ofCalls vars calls).Sound vars := by
  have hstart : Sound vars ⟨ofVariables vars, []⟩ :=
    ⟨rfl, fun clause h => by simp [ofVariables] at h, fun S config _ _ => by
      simp [ofVariables, isSatisfiedBy]⟩
  unfold ofCalls
  generalize (⟨ofVariables vars, []⟩ : Built) = b at hstart
  induction calls generalizing b with
  | nil => exact hstart
  | cons call rest ih => exact ih _ (hstart.add call)

theorem ofCalls_append_singleton (vars : Variables) (calls : List Addition) (call : Addition) :
    ofCalls vars (calls ++ [call]) = (ofCalls vars calls).add call := by
  simp [ofCalls]

end Built

/-- **Stored clauses mean what was given.**  After any calls, the next one fails exactly if its list has
    a bad entry, with the fault of the first, and then changes nothing.  A stored clause has literals of
    registered variables only, each variable once.  A full assignment, in either layout, satisfies the
    formula exactly if it makes a literal of every accepted list true. -/
theorem clauses_keep_meaning (vars : Variables) (calls : List Addition) :
    (∀ call, (∀ e, (call.run (Built.ofCalls vars calls).cnf).1 = .error e ↔
        call.fault vars = some e) ∧
      (call.fault vars ≠ none → Built.ofCalls vars (calls ++ [call]) = Built.ofCalls vars calls) ∧
      (call.fault vars = none → (Built.ofCalls vars (calls ++ [call])).accepted =
        (Built.ofCalls vars calls).accepted ++ [call.raw vars])) ∧
    (∀ clause ∈ (Built.ofCalls vars calls).cnf.clauses, IsStored vars clause) ∧
    ∀ S config, LiteralSet.IsFullAssignment vars.size S →
      LiteralSet.Presents vars.size S config →
      ((Built.ofCalls vars calls).cnf.isSatisfiedBy config = true ↔
        ∀ lits ∈ (Built.ofCalls vars calls).accepted, ∃ x ∈ lits, x ∈ S) := by
  obtain ⟨hvars, hstored, hmeaning⟩ := Built.sound_ofCalls vars calls
  refine ⟨fun call => ⟨fun e => ?_, fun hfault => ?_, fun hfault => ?_⟩, hstored, hmeaning⟩
  · rw [Addition.run_eq_error, hvars]
  · obtain ⟨e, he⟩ := Option.ne_none_iff_exists'.1 hfault
    rw [Built.ofCalls_append_singleton, Built.add, Addition.run_eq, hvars, he]
  · rw [Built.ofCalls_append_singleton, Built.add, Addition.run_eq, hvars, hfault]

/-- Calls with a repeated literal, a tautology, names, and two lists with bad entries. -/
def sixCalls : List Addition :=
  [.literals [1, -2, 1], .literals [2, 3, -2], .named [("C", true), ("A", false)],
    .literals [1, 9, 0], .named [("B", true), ("D", true), ("E", false)], .literals [-2, -1]]

/-- A full assignment satisfies four accepted lists, until an empty list is accepted. -/
theorem clauses_keep_meaning_sixCalls :
    LiteralSet.IsFullAssignment 3 {1, -2, 3} ∧
    LiteralSet.Presents 3 {1, -2, 3} (LiteralSet.ofModel [3, 1, -2] 3 .indexed) ∧
    (Built.ofCalls ⟨#["A", "B", "C"]⟩ sixCalls).accepted =
      [[1, -2, 1], [2, 3, -2], [3, -1], [-2, -1]] ∧
    (Built.ofCalls ⟨#["A", "B", "C"]⟩ sixCalls).cnf.clauses.size = 3 ∧
    (Built.ofCalls ⟨#["A", "B", "C"]⟩ sixCalls).cnf.isSatisfiedBy
      (LiteralSet.ofModel [3, 1, -2] 3 .indexed) = true ∧
    ((Addition.literals [1, 9, 0]).run (Built.ofCalls ⟨#["A", "B", "C"]⟩ sixCalls).cnf).1 =
      .error (.literalOutOfRange 9) ∧
    (Built.ofCalls ⟨#["A", "B", "C"]⟩ (sixCalls ++ [.named [("D", true)]])).cnf.clauses =
      (Built.ofCalls ⟨#["A", "B", "C"]⟩ sixCalls).cnf.clauses ∧
    (Built.ofCalls ⟨#["A", "B", "C"]⟩ (sixCalls ++ [.literals []])).accepted =
      [[1, -2, 1], [2, 3, -2], [3, -1], [-2, -1], []] ∧
    (Built.ofCalls ⟨#["A", "B", "C"]⟩ (sixCalls ++ [.literals []])).cnf.isSatisfiedBy
      (LiteralSet.ofModel [3, 1, -2] 3 .indexed) = false := by
  have hS : LiteralSet.IsFullAssignment 3 {1, -2, 3} := ⟨by decide, by decide⟩
  have hconfig : LiteralSet.Presents 3 {1, -2, 3} (LiteralSet.ofModel [3, 1, -2] 3 .indexed) :=
    ⟨[3, 1, -2], .indexed, by decide, rfl⟩
  have haccepted : (Built.ofCalls ⟨#["A", "B", "C"]⟩ sixCalls).accepted =
      [[1, -2, 1], [2, 3, -2], [3, -1], [-2, -1]] := by decide +kernel
  obtain ⟨hcalls, -, hmeaning⟩ := clauses_keep_meaning ⟨#["A", "B", "C"]⟩ sixCalls
  obtain ⟨-, -, hmeaning'⟩ := clauses_keep_meaning ⟨#["A", "B", "C"]⟩ (sixCalls ++ [.literals []])
  have hlonger := (hcalls (.literals [])).2.2 rfl
  rw [haccepted] at hlonger
  refine ⟨hS, hconfig, haccepted, by decide +kernel, (hmeaning _ _ hS hconfig).2 ?_,
    ((hcalls (.literals [1, 9, 0])).1 _).2 (by decide),
    congrArg (·.cnf.clauses) ((hcalls (.named [("D", true)])).2.1 (by decide +kernel)), hlonger, ?_⟩
  · rw [haccepted]
    decide
  · rw [← Bool.not_eq_true, hmeaning' _ _ hS hconfig, hlonger]
    decide

end Cnf

end ConfigSampler
