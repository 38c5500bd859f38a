import ConfigSampler.Proofs.NameTables

/-!
# Names and their index

A table keeps its names in order and, next to them, an index that finds the variable of a name in one
step (`IndexedNames`).  The two parts are updated one after the other, and `rename` has to take the old
name out of the index.  `IndexedNames.Sound` is what this keeps: the index leads from each name to its
variable and from nothing else.  As long as it holds, the index answers what a search through the names
would (`IndexedNames.Sound.run`), so a `Variables` table goes through the same calls in the same way.

Principal results: `IndexedNames.Sound.run`, `IndexedNames.spec_ofCalls`.
-/

set_option autoImplicit false

namespace ConfigSampler

/-- A call that changes a table of names. -/
inductive Naming where
  | register (name : String)
  | rename (v : Nat) (name : String)
deriving DecidableEq, Repr

/-- The variables are `1, …, size`, and names and variables determine each other. -/
structure NameBijection (name? : Nat → Option String) (indexOf : String → Except SampleError Nat)
    (size : Nat) : Prop where
  isSome_name : ∀ v, (name? v).isSome = true ↔ 0 < v ∧ v ≤ size
  indexOf_name : ∀ v name, name? v = some name → indexOf name = .ok v
  name_indexOf : ∀ v name, indexOf name = .ok v → name? v = some name

/-- The names of the variables in order, and the variable of each name. -/
structure IndexedNames where
  names : Array String
  index : Std.HashMap String Nat

namespace IndexedNames

/-- Adds a name at the end, which is not looked up before. -/
def push (t : IndexedNames) (name : String) : Nat × IndexedNames :=
  (t.names.size + 1, ⟨t.names.push name, t.index.insert name (t.names.size + 1)⟩)

/-- `n` variables, each named by its own number. -/
def anonymous : Nat → IndexedNames
  | 0 => ⟨#[], ∅⟩
  | n + 1 => ((anonymous n).push (toString (n + 1))).2

/-- The variable of a name. -/
def indexOf (t : IndexedNames) (name : String) : Except SampleError Nat :=
  match t.index[name]? with
  | some v => .ok v
  | none => .error (.unknownVariable name)

/-- The name of a variable, if it is registered. -/
def name? (t : IndexedNames) (v : Nat) : Option String :=
  if v = 0 then none else t.names[v - 1]?

/-- Adds a variable at the end and says which one it is. -/
def register (t : IndexedNames) (name : String) : Except SampleError Nat × IndexedNames :=
  if t.index.contains name then (.error (.duplicateVariable name), t)
  else
    let (v, t) := t.push name
    (.ok v, t)

/-- Gives a registered variable another name, unless another variable has it. -/
def rename (t : IndexedNames) (v : Nat) (name : String) : Except SampleError Unit × IndexedNames :=
  match t.index[name]? with
  | some other =>
    if other = v then (.ok (), t) else (.error (.duplicateVariable name), t)
  | none =>
    if v = 0 then (.error .zeroLiteral, t)
    else
      match t.names[v - 1]? with
      | none => (.error (.literalOutOfRange v), t)
      | some old =>
        (.ok (), ⟨t.names.setIfInBounds (v - 1) name, (t.index.erase old).insert name v⟩)

/-- Whether the call succeeds, and the table after it. -/
def run (t : IndexedNames) : Naming → Except SampleError Unit × IndexedNames
  | .register name =>
    match t.register name with
    | (.ok _, t) => (.ok (), t)
    | (.error e, t) => (.error e, t)
  | .rename v name => t.rename v name

/-- The table after a sequence of calls, some of which may fail. -/
def ofCalls (n : Nat) (calls : List Naming) : IndexedNames :=
  calls.foldl (fun t call => (t.run call).2) (anonymous n)

/-- The names alone. -/
def table (t : IndexedNames) : Variables := ⟨t.names⟩

end IndexedNames

namespace Variables

/-- The table after the call, or the error of the call. -/
def run (vars : Variables) : Naming → Except SampleError Variables
  | .register name => (vars.register name).map Prod.snd
  | .rename v name => vars.rename v name

/-- The table after a sequence of calls; those that fail leave it as it is. -/
def after (vars : Variables) (calls : List Naming) : Variables :=
  calls.foldl (fun vars call => (vars.run call).toOption.getD vars) vars

/-- No two variables have the same name. -/
def Distinct (vars : Variables) : Prop :=
  ∀ v w name, vars.name? v = some name → vars.name? w = some name → v = w

variable {vars : Variables} {name : String} {v w n : Nat}

theorem after_append (vars : Variables) (calls calls' : List Naming) :
    vars.after (calls ++ calls') = (vars.after calls).after calls' :=
  List.foldl_append

/-- With different names the search for a name finds the variable that has it. -/
theorem Distinct.indexOf?_eq_some (h : vars.Distinct) :
    vars.indexOf? name = some v ↔ vars.name? v = some name := by
  refine ⟨name?_of_indexOf?, fun hv => ?_⟩
  cases hindex : vars.indexOf? name with
  | none => exact absurd hv (name?_of_indexOf?_eq_none hindex v)
  | some w => rw [h w v name (name?_of_indexOf? hindex) hv]

theorem isSome_name? : (vars.name? v).isSome = true ↔ 0 < v ∧ v ≤ vars.size := by
  rw [Option.isSome_iff_exists]
  constructor
  · rintro ⟨name, hname⟩
    exact ⟨(name?_eq_some.1 hname).1, le_size_of_name? hname⟩
  · rintro ⟨hpos, hle⟩
    unfold size at hle
    exact ⟨vars.names[v - 1], name?_eq_some.2 ⟨hpos, Array.getElem?_eq_getElem (by omega)⟩⟩

theorem Distinct.bijective (h : vars.Distinct) : NameBijection vars.name? vars.indexOf vars.size where
  isSome_name _ := isSome_name?
  indexOf_name v name hname := by rw [indexOf, h.indexOf?_eq_some.2 hname]
  name_indexOf v name hindex := by
    unfold indexOf at hindex
    split at hindex <;> cases hindex
    rename_i hindex
    exact name?_of_indexOf? hindex

theorem name?_push {names : Array String} : (Variables.mk (names.push name)).name? v =
    if v = names.size + 1 then some name else (Variables.mk names).name? v := by
  unfold name?
  rcases Nat.eq_zero_or_pos v with rfl | hv
  · simp
  · simp only [Array.getElem?_push, if_neg (Nat.ne_of_gt hv)]
    by_cases hsize : v = names.size + 1
    · rw [if_pos hsize, if_pos (by omega)]
    · rw [if_neg hsize, if_neg (by omega)]

theorem name?_set {names : Array String} (hpos : 0 < v) (hle : v ≤ names.size) :
    (Variables.mk (names.setIfInBounds (v - 1) name)).name? w =
      if w = v then some name else (Variables.mk names).name? w := by
  unfold name?
  rcases Nat.eq_zero_or_pos w with rfl | hw
  · rw [if_neg (Nat.ne_of_lt hpos)]
    rfl
  · simp only [Array.getElem?_setIfInBounds, if_neg (Nat.ne_of_gt hw)]
    by_cases hwv : w = v
    · rw [if_pos hwv, if_pos (by omega), if_pos (by omega)]
    · rw [if_neg hwv, if_neg (by omega)]

theorem name?_anonymous : (anonymous n).name? v = some name ↔ 0 < v ∧ v ≤ n ∧ name = toString v := by
  rw [name?_eq_some, anonymous, Array.getElem?_ofFn]
  constructor
  · rintro ⟨hpos, hname⟩
    split at hname
    · rw [Nat.sub_add_cancel hpos] at hname
      exact ⟨hpos, by omega, (Option.some.inj hname).symm⟩
    · cases hname
  · rintro ⟨hpos, hle, rfl⟩
    rw [dif_pos (by omega), Nat.sub_add_cancel hpos]
    exact ⟨hpos, rfl⟩

theorem anonymous_succ (n : Nat) :
    anonymous (n + 1) = ⟨(anonymous n).names.push (toString (n + 1))⟩ := by
  simp [anonymous, Array.ofFn_succ]

/-- A table of numbers grows by the next number. -/
theorem register_anonymous (n : Nat) :
    (anonymous n).register (toString (n + 1)) = .ok (n + 1, anonymous (n + 1)) := by
  have hnone : (anonymous n).indexOf? (toString (n + 1)) = none := by
    rw [Option.eq_none_iff_forall_ne_some]
    intro v hv
    obtain ⟨-, hle, he⟩ := name?_anonymous.1 (name?_of_indexOf? hv)
    have := toString_injective he
    omega
  rw [register, hnone, anonymous_succ, Dimacs.size_anonymous]

end Variables

namespace IndexedNames

variable {t : IndexedNames} {name : String} {v n : Nat}

/-- The index leads to a variable from its name, and from nothing else. -/
def Sound (t : IndexedNames) : Prop :=
  ∀ name v, t.index[name]? = some v ↔ t.table.name? v = some name

theorem Sound.distinct (h : t.Sound) : t.table.Distinct := by
  intro v w name hv hw
  rw [← h] at hv hw
  exact Option.some.inj (hv.symm.trans hw)

theorem Sound.index_eq (h : t.Sound) (name : String) : t.index[name]? = t.table.indexOf? name := by
  refine Option.ext fun v => ?_
  rw [h, h.distinct.indexOf?_eq_some]

theorem Sound.indexOf_eq (h : t.Sound) (name : String) : t.indexOf name = t.table.indexOf name := by
  rw [indexOf, h.index_eq]
  rfl

theorem Sound.bijective (h : t.Sound) : NameBijection t.name? t.indexOf t.names.size := by
  rw [show t.indexOf = t.table.indexOf from funext h.indexOf_eq]
  exact h.distinct.bijective

/-! ## One call -/

/-- A name that is new may be added at the end. -/
theorem Sound.push (h : t.Sound) (hnew : t.index[name]? = none) : (t.push name).2.Sound := by
  intro other v
  have hlast : t.table.name? (t.names.size + 1) = none := by
    rw [← Option.not_isSome_iff_eq_none, Variables.isSome_name?]
    exact fun hle => Nat.not_succ_le_self _ hle.2
  simp only [IndexedNames.push, table, Variables.name?_push, Std.HashMap.getElem?_insert, beq_iff_eq]
  by_cases hname : name = other
  · subst hname
    rw [if_pos rfl]
    by_cases hv : v = t.names.size + 1
    · simp [hv]
    · rw [if_neg hv]
      refine ⟨fun he => absurd (Option.some.inj he).symm hv, fun hold => ?_⟩
      rw [← table, ← h, hnew] at hold
      cases hold
  · rw [if_neg hname, h]
    by_cases hv : v = t.names.size + 1
    · subst hv
      rw [if_pos rfl, hlast]
      simp [hname]
    · rw [if_neg hv]
      rfl

/-- A variable may get a name that is new, when its old one leaves the index. -/
theorem Sound.replace (h : t.Sound) (hnew : t.index[name]? = none) (hpos : 0 < v) {old : String}
    (hold : t.names[v - 1]? = some old) :
    Sound ⟨t.names.setIfInBounds (v - 1) name, (t.index.erase old).insert name v⟩ := by
  intro other w
  have hname : t.table.name? v = some old := Variables.name?_eq_some.2 ⟨hpos, hold⟩
  have hle : v ≤ t.names.size := Variables.le_size_of_name? hname
  simp only [table, Variables.name?_set hpos hle, Std.HashMap.getElem?_insert,
    Std.HashMap.getElem?_erase, beq_iff_eq]
  by_cases hother : name = other
  · subst hother
    rw [if_pos rfl]
    by_cases hw : w = v
    · simp [hw]
    · rw [if_neg hw]
      refine ⟨fun he => absurd (Option.some.inj he).symm hw, fun hkept => ?_⟩
      rw [← table, ← h, hnew] at hkept
      cases hkept
  · rw [if_neg hother]
    by_cases hw : w = v
    · -- the variable no longer has its old name, and never had another
      subst hw
      rw [if_pos rfl]
      refine ⟨fun he => ?_, fun he => absurd (Option.some.inj he) hother⟩
      split at he
      · cases he
      · rename_i hne
        rw [h, hname] at he
        exact absurd (Option.some.inj he) hne
    · rw [if_neg hw, ← table, ← h]
      by_cases hsame : old = other
      · subst hsame
        rw [if_pos rfl, h]
        exact ⟨(nomatch ·), fun he => absurd (h.distinct w v old he hname) hw⟩
      · rw [if_neg hsame]

/-- What a call makes of a table with an index, and of its names alone: the same table, with a sound
    index, or the same error, with nothing changed. -/
inductive Tracks (t : IndexedNames) :
    Except SampleError Unit × IndexedNames → Except SampleError Variables → Prop
  | ok {t' : IndexedNames} (h : t'.Sound) : Tracks t (.ok (), t') (.ok t'.table)
  | error (e : SampleError) : Tracks t (.error e, t) (.error e)

theorem Tracks.error_iff {outcome : Except SampleError Unit × IndexedNames}
    {alone : Except SampleError Variables} (h : Tracks t outcome alone) (e : SampleError) :
    (outcome.1 = .error e ↔ alone = .error e) ∧ (outcome.1 = .error e → outcome.2 = t) := by
  cases h with
  | ok h => exact ⟨⟨(nomatch ·), (nomatch ·)⟩, (nomatch ·)⟩
  | error e' => exact ⟨by simp, fun _ => rfl⟩

/-- **A call does the same with and without the index**, keeps the index sound, and changes nothing if
    it fails. -/
theorem Sound.run (h : t.Sound) (call : Naming) : Tracks t (t.run call) (t.table.run call) := by
  cases call with
  | register name =>
    rw [Variables.run, Variables.register, ← h.index_eq, IndexedNames.run, IndexedNames.register,
      Std.HashMap.contains_eq_isSome_getElem?]
    cases hindex : t.index[name]? with
    | some v => exact .error _
    | none => exact .ok (h.push hindex)
  | rename v name =>
    rw [Variables.run, Variables.rename, ← h.index_eq, IndexedNames.run, IndexedNames.rename]
    cases hindex : t.index[name]? with
    | some other =>
      dsimp only
      by_cases hsame : other = v
      · rw [if_pos hsame, if_pos hsame]
        exact .ok h
      · rw [if_neg hsame, if_neg hsame]
        exact .error _
    | none =>
      dsimp only
      by_cases hzero : v = 0
      · rw [if_pos hzero, if_pos hzero]
        exact .error _
      rw [if_neg hzero, if_neg hzero, show t.table.size = t.names.size from rfl]
      cases hold : t.names[v - 1]? with
      | none =>
        have hle := Array.getElem?_eq_none_iff.1 hold
        rw [if_pos (by omega)]
        exact .error _
      | some old =>
        have hlt := (Array.getElem?_eq_some_iff.1 hold).1
        rw [if_neg (by omega)]
        exact .ok (h.replace hindex (by omega) hold)

/-! ## Sequences of calls -/

theorem sound_anonymous : ∀ n, (anonymous n).Sound ∧ (anonymous n).table = Variables.anonymous n
  | 0 => by
    refine ⟨fun name v => ?_, by simp [anonymous, table, Variables.anonymous]⟩
    simp [anonymous, table, Variables.name?]
  | n + 1 => by
    obtain ⟨hsound, htable⟩ := sound_anonymous n
    have hnew : (anonymous n).index[toString (n + 1)]? = none := by
      rw [hsound.index_eq, htable]
      have hregister := Variables.register_anonymous n
      rw [Variables.register] at hregister
      split at hregister
      · cases hregister
      · assumption
    refine ⟨hsound.push hnew, ?_⟩
    rw [Variables.anonymous_succ, ← htable]
    rfl

/-- The index is sound after any calls, and the names are those of a table without one. -/
theorem spec_ofCalls (n : Nat) (calls : List Naming) :
    (ofCalls n calls).Sound ∧ (ofCalls n calls).table = (Variables.anonymous n).after calls := by
  obtain ⟨hsound, htable⟩ := sound_anonymous n
  unfold ofCalls Variables.after
  rw [← htable]
  clear htable
  generalize anonymous n = t at hsound
  induction calls generalizing t with
  | nil => exact ⟨hsound, rfl⟩
  | cons call rest ih =>
    rw [List.foldl_cons, List.foldl_cons]
    have hstep := hsound.run call
    generalize t.run call = outcome, t.table.run call = alone at hstep
    cases hstep with
    | ok hnext => exact ih _ hnext
    | error e => exact ih _ hsound

end IndexedNames

/-- Tables that come from numbers by calls have different names. -/
theorem Variables.distinct_after (n : Nat) (calls : List Naming) :
    ((anonymous n).after calls).Distinct := by
  obtain ⟨hsound, htable⟩ := IndexedNames.spec_ofCalls n calls
  exact htable ▸ hsound.distinct

end ConfigSampler
