import ConfigSampler.Dimacs.Writer
import ConfigSampler.Proofs.Renderings
import Mathlib.Data.List.FinRange

/-!
# Reading back the names of a table

The written names of a table are read back by giving the variables one name after the other, over a
table that starts out with decimal numbers.  So a name that is the number of a later variable is
still taken when its turn comes, and is refused (`Variables.Anticipates`); every other table of names
that comments can give is read back as it was (`Dimacs.names_read_back`).
-/

set_option autoImplicit false

namespace ConfigSampler

open Text

/-! ## Decimal numbers as names -/

theorem toString_injective {m n : Nat} (h : toString m = toString n) : m = n := by
  rw [← (isNumeral_toString m).value, h, (isNumeral_toString n).value]

/-- A comment can give this name: it is not empty, has no line break, and has no white space at
    either end. -/
structure IsName (name : String) : Prop where
  ne_nil : name.toList ≠ []
  line : '\n' ∉ name.toList
  bare : Bare name.toList

instance (name : String) : Decidable (IsName name) :=
  decidable_of_iff (name.toList ≠ [] ∧ '\n' ∉ name.toList ∧ Bare name.toList)
    ⟨fun h => ⟨h.1, h.2.1, h.2.2⟩, fun h => ⟨h.ne_nil, h.line, h.bare⟩⟩

theorem isName_toString (n : Nat) : IsName (toString n) := by
  have h := isNumeral_toString n
  have hdigit : ∀ c ∈ (toString n).toList, isBlank c = false := fun c hc =>
    isBlank_of_isDigit (h.allDigits c hc)
  refine ⟨h.ne_nil, fun hmem => ?_, ⟨fun c hc => hdigit c (List.mem_of_mem_head? hc),
    fun c hc => hdigit c (List.mem_of_mem_getLast? hc)⟩⟩
  exact absurd (h.allDigits '\n' hmem) (by decide)

namespace Variables

variable {vars : Variables} {name other : String} {index v k : Nat}

/-! ## Renaming -/

theorem name?_eq_some : vars.name? v = some name ↔ 0 < v ∧ vars.names[v - 1]? = some name := by
  unfold name?
  split
  · rename_i h
    simp [h]
  · rename_i h
    simp [Nat.pos_of_ne_zero h]

theorem le_size_of_name? (h : vars.name? v = some name) : v ≤ vars.size := by
  obtain ⟨-, hname⟩ := name?_eq_some.1 h
  have := (Array.getElem?_eq_some_iff.1 hname).1
  unfold size
  omega

theorem name?_of_indexOf? (h : vars.indexOf? name = some v) : vars.name? v = some name := by
  obtain ⟨i, hfind, rfl⟩ := Option.map_eq_some_iff.1 h
  obtain ⟨hi, heq, -⟩ := Array.findIdx?_eq_some_iff_getElem.1 hfind
  rw [name?_eq_some]
  exact ⟨Nat.succ_pos i, by simpa [hi] using heq⟩

theorem name?_of_indexOf?_eq_none (h : vars.indexOf? name = none) (v : Nat) :
    vars.name? v ≠ some name := by
  intro hv
  obtain ⟨-, hname⟩ := name?_eq_some.1 hv
  have hfind := Array.findIdx?_eq_none_iff.1 (Option.map_eq_none_iff.1 h)
  have := hfind name (Array.mem_of_getElem? hname)
  simp at this

/-- A variable gets a name that no other one has. -/
theorem rename_of_free (hpos : 0 < index) (hle : index ≤ vars.size)
    (hfree : ∀ v, vars.name? v = some name → v = index) :
    vars.rename index name = .ok ⟨vars.names.setIfInBounds (index - 1) name⟩ := by
  unfold rename
  split
  · rename_i v hv
    have hname := name?_of_indexOf? hv
    obtain rfl := hfree v hname
    rw [if_pos rfl]
    obtain ⟨-, hget⟩ := name?_eq_some.1 hname
    obtain ⟨hlt, rfl⟩ := Array.getElem?_eq_some_iff.1 hget
    rw [Array.setIfInBounds_def, dif_pos hlt, Array.set_getElem_self]
  · rw [if_neg (by omega), if_neg (by omega)]

/-- A name that another variable has is refused. -/
theorem rename_of_taken (hv : vars.name? v = some name) (hother : vars.name? index ≠ some name) :
    vars.rename index name = .error (.duplicateVariable name) := by
  unfold rename
  split
  · rename_i w hw
    rw [if_neg]
    rintro rfl
    exact hother (name?_of_indexOf? hw)
  · rename_i hnone
    exact absurd hv (name?_of_indexOf?_eq_none hnone v)

/-! ## Tables that are renamed step by step -/

/-- The variables up to `k` have the names of the table, and the others their numbers. -/
def namedUpTo (vars : Variables) (k : Nat) : Variables :=
  ⟨Array.ofFn fun i : Fin vars.names.size => if i < k then vars.names[i] else toString (i.val + 1)⟩

theorem size_namedUpTo (vars : Variables) (k : Nat) : (vars.namedUpTo k).size = vars.size := by
  simp [namedUpTo, size]

theorem namedUpTo_zero (vars : Variables) : vars.namedUpTo 0 = anonymous vars.size := by
  simp [namedUpTo, anonymous, size]

theorem namedUpTo_size (vars : Variables) : vars.namedUpTo vars.size = vars := by
  obtain ⟨names⟩ := vars
  simp [namedUpTo, size]

theorem name?_namedUpTo (hle : v ≤ k) : (vars.namedUpTo k).name? v = vars.name? v := by
  unfold name? namedUpTo
  split
  · rfl
  · have hlt : v - 1 < k := by omega
    rw [Array.getElem?_ofFn]
    split <;> simp_all

theorem name?_namedUpTo_of_lt (hlt : k < v) (hle : v ≤ vars.size) :
    (vars.namedUpTo k).name? v = some (toString v) := by
  unfold size at hle
  have hnot : ¬ v - 1 < k := by omega
  have hin : v - 1 < vars.names.size := by omega
  have hsucc : v - 1 + 1 = v := by omega
  simp [name?, namedUpTo, Nat.ne_of_gt (Nat.zero_lt_of_lt hlt), hnot, hin, hsucc]

/-- Giving the next variable its name leads to the next table. -/
theorem setIfInBounds_namedUpTo (h : vars.name? (k + 1) = some name) :
    ⟨(vars.namedUpTo k).names.setIfInBounds k name⟩ = vars.namedUpTo (k + 1) := by
  obtain ⟨-, hname⟩ := name?_eq_some.1 h
  obtain ⟨hlt, heq⟩ := Array.getElem?_eq_some_iff.1 hname
  unfold namedUpTo
  congr 1
  refine Array.ext (by simp) fun i hi hi' => ?_
  rw [Array.getElem_setIfInBounds (by simpa using hi)]
  simp only [Array.getElem_ofFn]
  rcases Nat.lt_trichotomy i k with hik | rfl | hik
  · rw [if_neg (Nat.ne_of_gt hik), if_pos hik, if_pos (Nat.lt_succ_of_lt hik)]
  · rw [if_pos rfl, if_pos (Nat.lt_succ_self i)]
    exact heq.symm
  · have hnot : ¬ i < k := by omega
    have hnot' : ¬ i < k + 1 := by omega
    rw [if_neg (Nat.ne_of_lt hik), if_neg hnot, if_neg hnot']

/-- The name of the variable is the number of a later one. -/
def Anticipates (vars : Variables) (v : Nat) : Prop :=
  ∃ w ≤ vars.size, v < w ∧ vars.name? v = some (toString w)

/-- The names of the table are different, and a comment can give each of them. -/
structure Writable (vars : Variables) : Prop where
  size : vars.size ≤ maxVariables
  nodup : vars.names.toList.Nodup
  isName : ∀ name ∈ vars.names, IsName name

instance (vars : Variables) : Decidable vars.Writable :=
  decidable_of_iff (vars.size ≤ maxVariables ∧ vars.names.toList.Nodup ∧
      ∀ name ∈ vars.names, IsName name)
    ⟨fun h => ⟨h.1, h.2.1, h.2.2⟩, fun h => ⟨h.size, h.nodup, h.isName⟩⟩

instance (vars : Variables) (v : Nat) : Decidable (vars.Anticipates v) :=
  inferInstanceAs (Decidable (∃ w ≤ vars.size, v < w ∧ vars.name? v = some (toString w)))

theorem Anticipates.lt_size (h : vars.Anticipates v) : v < vars.size := by
  obtain ⟨w, hle, hlt, -⟩ := h
  omega

theorem Writable.eq_of_name? (h : vars.Writable) {w : Nat} (hv : vars.name? v = some name)
    (hw : vars.name? w = some name) : v = w := by
  obtain ⟨hv0, hv⟩ := name?_eq_some.1 hv
  obtain ⟨hw0, hw⟩ := name?_eq_some.1 hw
  have hlt := (Array.getElem?_eq_some_iff.1 hv).1
  have hsame : vars.names.toList[v - 1]? = vars.names.toList[w - 1]? := by
    rw [Array.getElem?_toList, Array.getElem?_toList, hv, hw]
  have := (List.getElem?_inj (by simpa using hlt) h.nodup).1 hsame
  omega

/-- **A variable gets its name in turn**, unless this is the number of a later one. -/
theorem rename_namedUpTo (h : vars.Writable) (hname : vars.name? (k + 1) = some name)
    (hfree : ¬ vars.Anticipates (k + 1)) :
    (vars.namedUpTo k).rename (k + 1) name = .ok (vars.namedUpTo (k + 1)) := by
  have hle := le_size_of_name? hname
  rw [← size_namedUpTo vars k] at hle
  rw [rename_of_free (Nat.succ_pos k) hle fun v hv => ?_]
  · exact congrArg _ (setIfInBounds_namedUpTo hname)
  rcases Nat.lt_or_ge k v with hlt | hge
  · have hvle := le_size_of_name? hv
    rw [size_namedUpTo] at hvle
    rw [name?_namedUpTo_of_lt hlt hvle] at hv
    cases hv
    by_contra hne
    exact hfree ⟨v, hvle, by omega, hname⟩
  · rw [name?_namedUpTo hge] at hv
    exact h.eq_of_name? hv hname

/-- A name that is the number of a later variable is still taken. -/
theorem rename_namedUpTo_of_anticipates (hname : vars.name? (k + 1) = some name)
    (h : vars.Anticipates (k + 1)) :
    (vars.namedUpTo k).rename (k + 1) name = .error (.duplicateVariable name) := by
  obtain ⟨w, hle, hlt, hw⟩ := h
  obtain rfl : name = toString w := by
    rw [hname] at hw
    exact Option.some.inj hw
  refine rename_of_taken (name?_namedUpTo_of_lt (by omega) hle) ?_
  rw [name?_namedUpTo_of_lt (Nat.lt_succ_self k) (le_size_of_name? hname)]
  intro he
  exact absurd (toString_injective (Option.some.inj he)) (Nat.ne_of_lt hlt)

/-- The table of numbers is writable. -/
theorem writable_anonymous {n : Nat} (hn : n ≤ maxVariables) : (anonymous n).Writable := by
  refine ⟨by rwa [Dimacs.size_anonymous], ?_, fun name hname => ?_⟩
  · rw [anonymous, Array.toList_ofFn, List.nodup_ofFn]
    exact fun i j he => Fin.ext (Nat.succ.inj (toString_injective he))
  · obtain ⟨i, rfl⟩ := Array.mem_ofFn.1 hname
    exact isName_toString _

theorem Writable.rename (h : vars.Writable) (hname : IsName name) {vars' : Variables}
    (he : vars.rename index name = .ok vars') : vars'.Writable := by
  unfold Variables.rename at he
  split at he
  · split at he <;> cases he
    exact h
  · rename_i hnone
    split at he
    · cases he
    split at he
    · cases he
    cases he
    have hnew : name ∉ vars.names.toList := fun hmem => by
      obtain ⟨i, hi⟩ := List.mem_iff_getElem?.1 hmem
      exact name?_of_indexOf?_eq_none hnone (i + 1)
        (name?_eq_some.2 ⟨Nat.succ_pos i, by simpa using hi⟩)
    have hsize : Variables.size ⟨vars.names.setIfInBounds (index - 1) name⟩ = vars.size := by
      simp [Variables.size]
    refine ⟨hsize ▸ h.size, ?_, fun other hother => ?_⟩
    · rw [Array.toList_setIfInBounds]
      exact h.nodup.set hnew
    · rcases Array.mem_or_eq_of_mem_setIfInBounds hother with hold | rfl
      · exact h.isName other hold
      · exact hname

/-- The variables with their names, in order. -/
def entries (vars : Variables) : List (Nat × String) :=
  (vars.names.toList.zipIdx 1).map Prod.swap

theorem drop_entries (h : vars.name? (k + 1) = some name) :
    vars.entries.drop k = (k + 1, name) :: vars.entries.drop (k + 1) := by
  obtain ⟨-, hname⟩ := name?_eq_some.1 h
  obtain ⟨hlt, heq⟩ := Array.getElem?_eq_some_iff.1 hname
  have hlen : k < vars.entries.length := by simpa [entries] using hlt
  rw [List.drop_eq_getElem_cons hlen]
  simp only [Nat.add_sub_cancel] at heq
  simp [entries, heq, Nat.add_comm 1 k]

theorem mem_entries (h : (index, name) ∈ vars.entries) :
    name ∈ vars.names ∧ 0 < index ∧ index ≤ vars.size := by
  obtain ⟨⟨name', index'⟩, hmem, heq⟩ := List.mem_map.1 h
  cases heq
  obtain ⟨hle, hlt, heq⟩ := List.mem_zipIdx hmem
  refine ⟨?_, by omega, ?_⟩
  · rw [heq]
    simp
  · simp only [Array.length_toList] at hlt
    unfold size
    omega

end Variables

namespace Dimacs

variable {vars : Variables} {name : String} {index n k line : Nat} {mode : Mode}
  {text cs : List Char} {names : Array (Nat × String)} {doc : Document} {cnf cnf' : Cnf}
  {journal journal' : Journal}

/-! ## Giving all names -/

/-- As long as no name is the number of a later variable, the variables get their names in turn. -/
theorem applyNames_upTo (h : vars.Writable) (journal : Journal) (hk : k ≤ vars.size)
    (hfree : ∀ v ≤ k, ¬ vars.Anticipates v) :
    applyNames (Variables.anonymous vars.size) journal vars.entries =
      applyNames (vars.namedUpTo k) journal (vars.entries.drop k) := by
  induction k with
  | zero => rw [Variables.namedUpTo_zero, List.drop_zero]
  | succ k ih =>
    obtain ⟨name, hname⟩ : ∃ name, vars.name? (k + 1) = some name := by
      have hlt : k < vars.names.size := hk
      exact ⟨vars.names[k], Variables.name?_eq_some.2
        ⟨Nat.succ_pos k, Array.getElem?_eq_getElem hlt⟩⟩
    have hnot : ¬ (vars.namedUpTo k).size < k + 1 := by
      rw [Variables.size_namedUpTo]
      omega
    rw [ih (by omega) fun v hv => hfree v (by omega), Variables.drop_entries hname, applyNames,
      if_neg hnot, Variables.rename_namedUpTo h hname (hfree (k + 1) (Nat.le_refl _))]

theorem applyNames_entries (h : vars.Writable) (journal : Journal)
    (hfree : ∀ v, ¬ vars.Anticipates v) :
    applyNames (Variables.anonymous vars.size) journal vars.entries = (.ok vars, journal) := by
  have hdrop : vars.entries.drop vars.size = [] := by
    simp [Variables.entries, Variables.size]
  rw [applyNames_upTo h journal (Nat.le_refl _) fun v _ => hfree v, hdrop,
    Variables.namedUpTo_size, applyNames]

/-- The first name that is the number of a later variable is refused. -/
theorem applyNames_entries_of_anticipates (h : vars.Writable) (journal : Journal) {v : Nat}
    (hv : vars.Anticipates v) (hfirst : ∀ w < v, ¬ vars.Anticipates w)
    (hname : vars.name? v = some name) :
    applyNames (Variables.anonymous vars.size) journal vars.entries =
      (.error (.duplicateVariable name), journal) := by
  obtain ⟨k, rfl⟩ := Nat.exists_eq_add_one_of_ne_zero
    (Nat.ne_of_gt (Variables.name?_eq_some.1 hname).1)
  have hle := Variables.le_size_of_name? hname
  have hnot : ¬ (vars.namedUpTo k).size < k + 1 := by
    rw [Variables.size_namedUpTo]
    omega
  rw [applyNames_upTo h journal (Nat.le_of_succ_le hle) fun w hw => hfirst w (Nat.lt_succ_of_le hw),
    Variables.drop_entries hname, applyNames, if_neg hnot,
    Variables.rename_namedUpTo_of_anticipates hname hv]

/-! ## Reading the written names -/

/-- The text of the comment that gives a variable a name. -/
def nameComment (index : Nat) (name : String) : List Char :=
  ' ' :: ((toString index).toList ++ ' ' :: name.toList)

theorem toList_nameText (index : Nat) (name : String) :
    (nameText index name).toList = 'c' :: (nameComment index name ++ ['\n']) := by
  simp [nameText, nameComment]

theorem newline_notMem_nameComment (h : IsName name) (index : Nat) :
    '\n' ∉ nameComment index name := by
  simp only [nameComment, List.mem_cons, List.mem_append, not_or]
  exact ⟨by decide, (isName_toString index).line, by decide, h.line⟩

theorem names_nameComment (h : IsName name) (index : Nat) :
    Names index name.toList (nameComment index name) := by
  have hnames := Names.intro [' '] _ [' '] [] (by decide) (.plain (isNumeral_toString index))
    (by decide) (by decide) h.ne_nil h.bare (by decide)
  simpa [nameComment] using hnames

theorem addName_nameComment (h : IsName name) (hpos : 0 < index) (hle : index ≤ maxNamedVariable) :
    addName names (nameComment index name) = names.push (index, name) := by
  rw [addName, nameOfComment_eq_some.2 ⟨names_nameComment h index, hpos, hle⟩]

theorem readHeader_nameTexts : ∀ (entries : List (Nat × String)) {names : Array (Nat × String)}
    {line : Nat} (cs : List Char),
    (∀ entry ∈ entries, IsName entry.2 ∧ 0 < entry.1 ∧ entry.1 ≤ maxNamedVariable) →
    readHeader names ⟨line, entries.flatMap (fun entry => (nameText entry.1 entry.2).toList) ++ cs⟩ =
      readHeader (names ++ entries.toArray) ⟨line + entries.length, cs⟩
  | [], _, _, _, _ => by simp
  | (index, name) :: rest, names, line, cs, h => by
    obtain ⟨⟨hname, hpos, hle⟩, hrest⟩ := List.forall_mem_cons.1 h
    have htext :
        ((index, name) :: rest).flatMap (fun entry => (nameText entry.1 entry.2).toList) ++ cs =
          'c' :: (nameComment index name ++ '\n' ::
            (rest.flatMap (fun entry => (nameText entry.1 entry.2).toList) ++ cs)) := by
      simp [toList_nameText]
    rw [htext, readHeader_comment (newline_notMem_nameComment hname index),
      addName_nameComment hname hpos hle, readHeader_nameTexts rest cs hrest]
    simp [Nat.add_assoc, Nat.add_comm 1]

theorem toList_namesText (vars : Variables) : (namesText vars).toList =
    vars.entries.flatMap fun entry => (nameText entry.1 entry.2).toList := by
  rw [namesText, String.toList_join, Variables.entries, List.flatMap_map, List.flatMap_map]
  rfl

/-- A header that declares so many variables and no clauses. -/
def headerText (n : Nat) : String := "p cnf " ++ toString n ++ " 0\n"

theorem readHeader_headerText (hn : n ≤ maxVariables) (names : Array (Nat × String)) (line : Nat) :
    ∃ line', readHeader names ⟨line, (headerText n).toList⟩ =
      .ok (⟨n, 0, names⟩, ⟨line', ['\n']⟩) := by
  have hproblem : WritesProblem n 0
      ("p cnf".toList ++ ([' '] ++ ((toString n).toList ++ ([' '] ++ ['0'])))) :=
    .intro _ _ _ _ (by decide) (by decide) (.plain (isNumeral_toString n)) (by decide) (by decide)
      (.plain (by decide))
  have hend : EndsNumber ['\n'] := endsNumber_cons (by decide)
  obtain ⟨line', hread⟩ := readHeader_spec hproblem hn (Nat.zero_le _) hend names line
  refine ⟨line', ?_⟩
  rw [← hread]
  simp [headerText]

theorem ofText_namesText (h : vars.Writable) : ∃ line,
    Document.ofText (namesText vars ++ headerText vars.size) =
      .ok ⟨vars.size, 0, #[], vars.entries.toArray, .ok line⟩ := by
  have hentries : ∀ entry ∈ vars.entries,
      IsName entry.2 ∧ 0 < entry.1 ∧ entry.1 ≤ maxNamedVariable := by
    rintro ⟨index, name⟩ hmem
    obtain ⟨hname, hpos, hle⟩ := Variables.mem_entries hmem
    exact ⟨h.isName name hname, hpos, Nat.le_trans hle (Nat.le_trans h.size (by decide))⟩
  obtain ⟨line, hheader⟩ := readHeader_headerText h.size (#[] ++ vars.entries.toArray)
    (1 + vars.entries.length)
  refine ⟨line + 1, ?_⟩
  unfold Document.ofText Source.ofText
  rw [String.toList_append, toList_namesText, readHeader_nameTexts _ _ hentries, hheader]
  dsimp only
  rw [readBody_congr (Source.skipBlanks_cons (by decide) line []), readBody_nil]
  simp [Source.lineAfter]

/-- A document that holds names only, in either mode. -/
theorem toCnf_names (mode : Mode) (names : List (Nat × String)) (line n : Nat) :
    Document.toCnf mode ⟨n, 0, #[], names.toArray, .ok line⟩ =
      match applyNames (Variables.anonymous n) #[] names with
      | (.error e, journal) => (.error e, journal)
      | (.ok vars, journal) => (.ok (Cnf.ofVariables vars), journal) := by
  cases mode <;> rfl

/-! ## Tables that come from texts -/

/-- Every name may stand in a table. -/
def NamesAllowed (names : Array (Nat × String)) : Prop := ∀ entry ∈ names, IsName entry.2

theorem isName_of_nameOfComment (ht : '\n' ∉ text) (h : nameOfComment text = some (index, name)) :
    IsName name := by
  obtain ⟨hnames, -⟩ := nameOfComment_eq_some.1 h
  obtain ⟨chars, hchars⟩ : ∃ chars, name.toList = chars := ⟨_, rfl⟩
  rw [hchars] at hnames
  obtain ⟨before, word, gap, after, -, -, -, -, hname, hbare, -⟩ := hnames
  refine ⟨hchars ▸ hname, fun hmem => ht ?_, hchars ▸ hbare⟩
  rw [hchars] at hmem
  simp [hmem]

theorem NamesAllowed.addName (h : NamesAllowed names) (cs : List Char) :
    NamesAllowed (addName names (commentText cs)) := by
  have hline : '\n' ∉ commentText cs := fun hmem => by
    simpa using List.mem_takeWhile_imp hmem
  unfold Dimacs.addName
  split
  · exact h
  · rename_i entry hname
    intro entry' hmem
    rcases Array.mem_push.1 hmem with hmem | rfl
    · exact h entry' hmem
    · exact isName_of_nameOfComment hline hname

theorem readProblem_names {s s' : Source} {header : Header} (h : NamesAllowed names)
    (he : readProblem names s = .ok (header, s')) :
    NamesAllowed header.names ∧ header.declaredVariables ≤ maxVariables := by
  unfold readProblem at he
  split at he
  · split at he
    · cases he
    split at he
    · cases he
    split at he
    · cases he
    rename_i hle
    cases he
    exact ⟨h, Nat.not_lt.1 hle⟩
  · cases he

theorem readHeader_names {s s' : Source} {header : Header} (h : NamesAllowed names)
    (he : readHeader names s = .ok (header, s')) :
    NamesAllowed header.names ∧ header.declaredVariables ≤ maxVariables := by
  fun_induction readHeader names s with
  | case1 => cases he
  | case2 names s cs hs ih => exact ih (h.addName cs) he
  | case3 => exact readProblem_names h he

theorem readBody_names (doc : Document) (s : Source) (h : NamesAllowed doc.names) :
    NamesAllowed (readBody doc s).names ∧
      (readBody doc s).declaredVariables = doc.declaredVariables := by
  fun_induction readBody doc s with
  | case1 => exact ⟨h, rfl⟩
  | case2 doc s cs hs ih => exact ih (h.addName cs)
  | case3 => exact ⟨h, rfl⟩
  | case4 doc s _ _ _ _ _ ih => exact ih h

/-- Clauses leave a table of numbers a table of numbers. -/
theorem vars_of_addEntries : ∀ (entries : List Entry) {cnf : Cnf} {journal : Journal} {n : Nat},
    n ≤ maxVariables → cnf.vars = Variables.anonymous n →
    addEntries mode cnf journal entries = (.ok cnf', journal') →
    ∃ n ≤ maxVariables, cnf'.vars = Variables.anonymous n
  | [], _, _, n, hn, hvars, he => by
    cases he
    exact ⟨n, hn, hvars⟩
  | entry :: rest, cnf, journal, n, hn, hvars, he => by
    have hcnf : cnf.size = n := by rw [Cnf.size, hvars, size_anonymous]
    unfold addEntries at he
    split at he
    · cases he
    · rename_i size hsize
      split at he
      · cases he
      · rename_i cnf₁ hadd
        have hgrown : ∃ n ≤ maxVariables, (growTo cnf size).vars = Variables.anonymous n := by
          unfold growTo
          split
          · exact ⟨n, hn, hvars⟩
          · refine ⟨size, ?_, rfl⟩
            unfold sizeWith at hsize
            dsimp only at hsize
            split at hsize
            · cases hsize
              omega
            · split at hsize
              · cases hsize
              · split at hsize <;> cases hsize
                omega
        obtain ⟨k, hk, hvars'⟩ := hgrown
        have hsame : cnf₁.vars = (growTo cnf size).vars := by
          have hvars' := (growTo cnf size).vars_addClause entry.literals
          rwa [hadd] at hvars'
        exact vars_of_addEntries rest hk (hsame.trans hvars') he

theorem writable_applyNames : ∀ (entries : List (Nat × String)) {vars vars' : Variables}
    {journal journal' : Journal}, vars.Writable → (∀ entry ∈ entries, IsName entry.2) →
    applyNames vars journal entries = (.ok vars', journal') → vars'.Writable
  | [], _, _, _, _, h, _, he => by
    cases he
    exact h
  | (index, name) :: rest, vars, vars', journal, journal', h, hentries, he => by
    obtain ⟨hname, hrest⟩ := List.forall_mem_cons.1 hentries
    unfold applyNames at he
    split at he
    · exact writable_applyNames rest h hrest he
    · split at he
      · cases he
      · rename_i hrename
        exact writable_applyNames rest (h.rename hname hrename) hrest he

/-- **Every table that comes from a text is writable.** -/
theorem writable_parseText {text : String} (h : parseText mode text = (.ok cnf, journal)) :
    cnf.vars.Writable := by
  unfold parseText at h
  split at h
  · cases h
  rename_i doc hdoc
  have hnames : NamesAllowed doc.names ∧ doc.declaredVariables ≤ maxVariables := by
    unfold Document.ofText at hdoc
    split at hdoc
    · cases hdoc
    rename_i header s hheader
    obtain ⟨hnames, hdeclared⟩ := readHeader_names (by simp [NamesAllowed]) hheader
    cases hdoc
    obtain ⟨hnames', hsame⟩ := readBody_names
      ⟨header.declaredVariables, header.declaredClauses, #[], header.names, .ok s.line⟩ s hnames
    exact ⟨hnames', by rw [hsame]; exact hdeclared⟩
  obtain ⟨hallowed, hdeclared⟩ := hnames
  unfold Document.toCnf at h
  dsimp only at h
  split at h
  · cases h
  rename_i hentries
  obtain ⟨n, hn, hvars⟩ := vars_of_addEntries _ hdeclared rfl hentries
  split at h
  · cases h
  split at h
  · cases h
  split at h
  · cases h
  rename_i happly
  cases h
  refine writable_applyNames _ (hvars ▸ Variables.writable_anonymous hn) ?_ happly
  exact fun entry hentry => hallowed entry (by simpa using hentry)

/-- **Names are read back**, in either mode, unless one of them is the number of a later variable; the
    first such name is refused.  The table of every text is writable. -/
theorem names_read_back :
    (∀ mode text cnf journal, parseText mode text = (.ok cnf, journal) → cnf.vars.Writable) ∧
    ∀ vars : Variables, vars.Writable → ∀ mode,
      ((∀ v, ¬ vars.Anticipates v) →
        (parseText mode (namesText vars ++ headerText vars.size)).1 = .ok (Cnf.ofVariables vars)) ∧
      ∀ v name, vars.Anticipates v → (∀ w < v, ¬ vars.Anticipates w) → vars.name? v = some name →
        (parseText mode (namesText vars ++ headerText vars.size)).1 =
          .error (.duplicateVariable name) := by
  refine ⟨fun mode text cnf journal h => writable_parseText h, fun vars h mode => ?_⟩
  obtain ⟨line, hdoc⟩ := ofText_namesText h
  refine ⟨fun hfree => ?_, fun v name hv hfirst hname => ?_⟩
  all_goals
    unfold parseText
    rw [hdoc]
    dsimp only
    rw [toCnf_names]
  · rw [applyNames_entries h #[] hfree]
  · rw [applyNames_entries_of_anticipates h #[] hv hfirst hname]

/-- Names with white space inside, the number of an earlier variable and a variable's own number are
    read back; the number of a later variable is refused. -/
theorem names_read_back_numbers :
    (Variables.mk #["a b", "1", "3"]).Writable ∧
    (parseText .strict (namesText ⟨#["a b", "1", "3"]⟩ ++ headerText 3)).1 =
      .ok (Cnf.ofVariables ⟨#["a b", "1", "3"]⟩) ∧
    (Variables.mk #["x", "3", "y"]).Writable ∧
    (parseText .lenient (namesText ⟨#["x", "3", "y"]⟩ ++ headerText 3)).1 =
      .error (.duplicateVariable "3") := by
  have hread : (Variables.mk #["a b", "1", "3"]).Writable := by decide
  have hrefused : (Variables.mk #["x", "3", "y"]).Writable := by decide
  have hnone : ∀ v < 3, ¬ (Variables.mk #["a b", "1", "3"]).Anticipates v := by decide
  refine ⟨hread, (names_read_back.2 _ hread .strict).1 fun v hv => hnone v hv.lt_size hv, hrefused,
    (names_read_back.2 _ hrefused .lenient).2 2 "3" (by decide) (by decide) (by decide)⟩

/-- Two variables that have each other's number come from a text, and their written names are
    refused. -/
theorem exchanged_numbers_refused :
    (parseText .strict "c 2 x\nc 1 2\nc 2 1\np cnf 2 0\n").1 =
      .ok (Cnf.ofVariables ⟨#["2", "1"]⟩) ∧
    (Variables.mk #["2", "1"]).Writable ∧
    (parseText .strict (namesText ⟨#["2", "1"]⟩ ++ headerText 2)).1 =
      .error (.duplicateVariable "2") ∧
    (parseText .lenient (namesText ⟨#["2", "1"]⟩ ++ headerText 2)).1 =
      .error (.duplicateVariable "2") := by
  decide +kernel

end Dimacs

end ConfigSampler
