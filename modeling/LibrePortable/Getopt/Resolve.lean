import LibrePortable.Getopt.Dash

/-!
# What a name stands for

The search for a long option goes over the table once, with three running variables. What
it is to find is said here without an order: an entry of that name, or else an entry that
the name abbreviates, if the entries it abbreviates do not differ. The search meets the
entries one after the other, compares each with the first, and arrives at the same.
-/

namespace LibrePortable.Getopt

/-- The text in front of the `=`. -/
def givenName (text : Text) : Text := text.take (splitEqual text).1

/-- What a name can stand for. -/
inductive Resolution where
  | entry (o : LongOption)
  | ambiguous
  | unknown

/-- Two entries that do the same. -/
def LongOption.Same (o o' : LongOption) : Prop :=
  o.hasArg = o'.hasArg ∧ o.flag = o'.flag ∧ o.val = o'.val

/-- The name is an abbreviation of this entry's. A single character that is also an option
letter abbreviates nothing. -/
def Abbreviates (name : Text) (shortToo : Bool) (o : LongOption) : Prop :=
  name <+: o.name ∧ name ≠ o.name ∧ ¬ (shortToo = true ∧ name.length = 1)

/-- What the name stands for in a table, in whatever order its entries are. -/
inductive Resolves (table : List LongOption) (name : Text) (shortToo longonly : Bool) :
    Resolution → Prop where
  | exact {o : LongOption} : o ∈ table → o.name = name →
      Resolves table name shortToo longonly (.entry o)
  | only {o : LongOption} : (∀ o' ∈ table, o'.name ≠ name) → o ∈ table →
      Abbreviates name shortToo o → (∀ o' ∈ table, Abbreviates name shortToo o' → o' = o) →
      Resolves table name shortToo longonly (.entry o)
  | same {o : LongOption} : (∀ o' ∈ table, o'.name ≠ name) → longonly = false → o ∈ table →
      Abbreviates name shortToo o → (∀ o' ∈ table, Abbreviates name shortToo o' → o'.Same o) →
      Resolves table name shortToo longonly (.entry o)
  | ambiguous {o o' : LongOption} : (∀ o' ∈ table, o'.name ≠ name) → o ∈ table → o' ∈ table →
      Abbreviates name shortToo o → Abbreviates name shortToo o' → o' ≠ o →
      longonly = true ∨ ¬ o'.Same o → Resolves table name shortToo longonly .ambiguous
  | unknown : (∀ o' ∈ table, o'.name ≠ name) →
      (∀ o' ∈ table, ¬ Abbreviates name shortToo o') →
      Resolves table name shortToo longonly .unknown

/-- No two entries have one name. -/
def DistinctNames (table : List LongOption) : Prop := (table.map LongOption.name).Nodup

instance (table : List LongOption) : Decidable (DistinctNames table) :=
  inferInstanceAs (Decidable (List.Nodup _))

/-! ## The reference -/

section Reference

variable {table table' : List LongOption} {name : Text} {shortToo longonly : Bool}
  {r r' : Resolution} {o o' : LongOption}

theorem LongOption.Same.refl (o : LongOption) : o.Same o := ⟨rfl, rfl, rfl⟩

theorem LongOption.Same.symm (h : o.Same o') : o'.Same o := ⟨h.1.symm, h.2.1.symm, h.2.2.symm⟩

theorem LongOption.Same.trans {o'' : LongOption} (h : o.Same o') (h' : o'.Same o'') :
    o.Same o'' := ⟨h.1.trans h'.1, h.2.1.trans h'.2.1, h.2.2.trans h'.2.2⟩

/-- Only the entries count, not their order. -/
theorem Resolves.perm (hperm : table.Perm table') (h : Resolves table name shortToo longonly r) :
    Resolves table' name shortToo longonly r := by
  have hall : ∀ {P : LongOption → Prop}, (∀ o ∈ table, P o) → ∀ o ∈ table', P o :=
    fun h o ho => h o (hperm.mem_iff.mpr ho)
  cases h with
  | exact ho heq => exact .exact (hperm.mem_iff.mp ho) heq
  | only hno ho habb huniq => exact .only (hall hno) (hperm.mem_iff.mp ho) habb (hall huniq)
  | same hno hl ho habb hsame => exact .same (hall hno) hl (hperm.mem_iff.mp ho) habb (hall hsame)
  | ambiguous hno ho ho' habb habb' hne hdiff =>
      exact .ambiguous (hall hno) (hperm.mem_iff.mp ho) (hperm.mem_iff.mp ho') habb habb' hne hdiff
  | unknown hno hnone => exact .unknown (hall hno) (hall hnone)

theorem DistinctNames.perm (hperm : table.Perm table') (h : DistinctNames table) :
    DistinctNames table' := (hperm.map _).nodup_iff.mp h

/-- An entry is known by its name. -/
theorem DistinctNames.eq (h : DistinctNames table) (ho : o ∈ table) (ho' : o' ∈ table)
    (heq : o.name = o'.name) : o = o' := List.inj_on_of_nodup_map h ho ho' heq

/-- Two resolutions that cannot be told apart by what the parser returns. -/
def Resolution.Alike : Resolution → Resolution → Prop
  | .entry o, .entry o' => o.Same o'
  | .ambiguous, .ambiguous | .unknown, .unknown => True
  | _, _ => False

/-- **The reference is a function** of the entries, up to what cannot be told apart. -/
theorem Resolves.alike (hnames : DistinctNames table)
    (h : Resolves table name shortToo longonly r) (h' : Resolves table name shortToo longonly r') :
    r.Alike r' := by
  cases h with
  | exact ho heq =>
      cases h' with
      | exact ho' heq' =>
          obtain rfl := hnames.eq ho ho' (heq.trans heq'.symm)
          exact .refl _
      | only hno => exact absurd heq (hno _ ho)
      | same hno => exact absurd heq (hno _ ho)
      | ambiguous hno => exact absurd heq (hno _ ho)
      | unknown hno => exact absurd heq (hno _ ho)
  | only hno ho habb huniq =>
      cases h' with
      | exact ho' heq' => exact absurd heq' (hno _ ho')
      | only _ ho' habb' => rw [huniq _ ho' habb']; exact .refl _
      | same _ _ ho' habb' => rw [huniq _ ho' habb']; exact .refl _
      | ambiguous _ ho₁ ho₂ habb₁ habb₂ hne =>
          exact absurd ((huniq _ ho₂ habb₂).trans (huniq _ ho₁ habb₁).symm) hne
      | unknown _ hnone => exact absurd habb (hnone _ ho)
  | same hno hl ho habb hsame =>
      cases h' with
      | exact ho' heq' => exact absurd heq' (hno _ ho')
      | only _ ho' habb' => exact (hsame _ ho' habb').symm
      | same _ _ ho' habb' => exact (hsame _ ho' habb').symm
      | ambiguous _ ho₁ ho₂ habb₁ habb₂ _ hdiff =>
          rcases hdiff with hl' | hdiff
          · rw [hl] at hl'
            cases hl'
          · exact absurd ((hsame _ ho₂ habb₂).trans (hsame _ ho₁ habb₁).symm) hdiff
      | unknown _ hnone => exact absurd habb (hnone _ ho)
  | ambiguous hno ho₁ ho₂ habb₁ habb₂ hne hdiff =>
      cases h' with
      | exact ho' heq' => exact absurd heq' (hno _ ho')
      | only _ _ _ huniq => exact absurd ((huniq _ ho₂ habb₂).trans (huniq _ ho₁ habb₁).symm) hne
      | same _ hl _ _ hsame =>
          rcases hdiff with hl' | hdiff
          · rw [hl] at hl'
            cases hl'
          · exact absurd ((hsame _ ho₂ habb₂).trans (hsame _ ho₁ habb₁).symm) hdiff
      | ambiguous => trivial
      | unknown _ hnone => exact absurd habb₁ (hnone _ ho₁)
  | unknown hno hnone =>
      cases h' with
      | exact ho' heq' => exact absurd heq' (hno _ ho')
      | only _ ho' habb' => exact absurd habb' (hnone _ ho')
      | same _ _ ho' habb' => exact absurd habb' (hnone _ ho')
      | ambiguous _ ho₁ _ habb₁ => exact absurd habb₁ (hnone _ ho₁)
      | unknown => trivial

end Reference

/-! ## The search -/

section Search

variable {text : Text} {shortToo longonly : Bool} {len : Nat}

/-- `strncmp` finds no difference where the one text is a prefix of the other. -/
theorem strncmpEq_iff : ∀ {n : Nat} {t u : Text}, n ≤ t.length →
    (strncmpEq t u n = true ↔ t.take n <+: u)
  | 0, t, u, _ => by
      rw [List.take_zero]
      exact ⟨fun _ => List.nil_prefix, fun _ => by cases t <;> cases u <;> rfl⟩
  | n + 1, [], u, hle => absurd hle (Nat.not_succ_le_zero n)
  | n + 1, a :: t, [], _ => by
      rw [List.take_succ_cons]
      exact ⟨fun h => by simp [strncmpEq] at h, fun h => by simp at h⟩
  | n + 1, a :: t, b :: u, hle => by
      have ih := strncmpEq_iff (u := u) (Nat.le_of_succ_le_succ hle)
      rw [List.take_succ_cons, strncmpEq, Bool.and_eq_true, decide_eq_true_iff, ih,
        List.cons_prefix_cons]

theorem givenName_length (text : Text) : (givenName text).length = (splitEqual text).1 := by
  rw [givenName, List.length_take, Nat.min_eq_left (splitEqual_le text)]

/-- What the search has found among the entries it has been over, none of which has the name. -/
structure Partial (name : Text) (shortToo longonly : Bool) (before : List LongOption) (r : Found) :
    Prop where
  inexact : r.exactMatch = false
  names : ∀ o ∈ before, o.name ≠ name
  /-- Nothing was found: nothing is abbreviated. -/
  none : r.found = none → r.secondPartialMatch = false ∧ ∀ o ∈ before, ¬ Abbreviates name shortToo o
  /-- The first entry that is abbreviated was found. -/
  some : ∀ i m, r.found = some (i, m) → before[i]? = some m ∧ Abbreviates name shortToo m ∧
    (r.secondPartialMatch = true ↔ ∃ o ∈ before, Abbreviates name shortToo o ∧ o ≠ m ∧
      (longonly = true ∨ ¬ o.Same m))

/-- What it has found in the end. -/
inductive Ends (name : Text) (shortToo longonly : Bool) (table : List LongOption) (r : Found) :
    Prop where
  | exact {i : Nat} {o : LongOption} : r.exactMatch = true → r.found = some (i, o) →
      table[i]? = some o → o.name = name → Ends name shortToo longonly table r
  | inexact : Partial name shortToo longonly table r → Ends name shortToo longonly table r

variable {name : Text} {before os : List LongOption} {o : LongOption} {r : Found} {i : Nat}
  {m : LongOption}

/-- An entry that the name neither is nor abbreviates changes nothing. -/
theorem Partial.skip (hp : Partial name shortToo longonly before r) (hname : o.name ≠ name)
    (hno : ¬ Abbreviates name shortToo o) : Partial name shortToo longonly (before ++ [o]) r := by
  refine ⟨hp.inexact, fun o' ho' => ?_, fun hf => ⟨(hp.none hf).1, fun o' ho' => ?_⟩,
    fun i m hf => ?_⟩
  · rcases List.mem_append.mp ho' with ho' | ho'
    · exact hp.names o' ho'
    · rw [List.mem_singleton.mp ho']
      exact hname
  · rcases List.mem_append.mp ho' with ho' | ho'
    · exact (hp.none hf).2 o' ho'
    · rw [List.mem_singleton.mp ho']
      exact hno
  · obtain ⟨hget, habb, hsecond⟩ := hp.some i m hf
    refine ⟨List.getElem?_append_left (List.getElem?_eq_some_iff.mp hget).1 ▸ hget, habb,
      hsecond.trans ⟨?_, ?_⟩⟩
    · intro hex
      obtain ⟨o', ho', h⟩ := hex
      exact ⟨o', List.mem_append_left _ ho', h⟩
    · intro hex
      obtain ⟨o', ho', habb', h⟩ := hex
      rcases List.mem_append.mp ho' with ho' | ho'
      · exact ⟨o', ho', habb', h⟩
      · rw [List.mem_singleton.mp ho'] at habb'
        exact absurd habb' hno

/-- The first entry that is abbreviated. -/
theorem Partial.first (hp : Partial name shortToo longonly before r) (hname : o.name ≠ name)
    (habb : Abbreviates name shortToo o) (hf : r.found = Option.none) :
    Partial name shortToo longonly (before ++ [o])
      { r with found := Option.some (before.length, o) } := by
  obtain ⟨hsecond, hnone⟩ := hp.none hf
  refine ⟨hp.inexact, fun o' ho' => ?_, nofun, fun i m hf' => ?_⟩
  · rcases List.mem_append.mp ho' with ho' | ho'
    · exact hp.names o' ho'
    · rw [List.mem_singleton.mp ho']
      exact hname
  · obtain ⟨rfl, rfl⟩ := Prod.mk.inj (Option.some.inj hf')
    refine ⟨List.getElem?_concat_length, habb, ?_⟩
    show r.secondPartialMatch = true ↔ _
    rw [hsecond]
    refine ⟨fun h => absurd h Bool.false_ne_true, ?_⟩
    intro hex
    obtain ⟨o', ho', habb', hne, -⟩ := hex
    rcases List.mem_append.mp ho' with ho' | ho'
    · exact absurd habb' (hnone o' ho')
    · exact absurd (List.mem_singleton.mp ho') hne

/-- **A later entry that is abbreviated** is compared with the first. -/
theorem Partial.later (hp : Partial name shortToo longonly before r) (hname : o.name ≠ name)
    (habb : Abbreviates name shortToo o) (hf : r.found = Option.some (i, m)) (hne : o ≠ m)
    (b : Bool)
    (hb : b = true ↔ r.secondPartialMatch = true ∨ longonly = true ∨ ¬ o.Same m) :
    Partial name shortToo longonly (before ++ [o]) { r with secondPartialMatch := b } := by
  refine ⟨hp.inexact, fun o' ho' => ?_, fun hf' => ?_, fun i' m' hf' => ?_⟩
  · rcases List.mem_append.mp ho' with ho' | ho'
    · exact hp.names o' ho'
    · rw [List.mem_singleton.mp ho']
      exact hname
  · exact absurd (hf.symm.trans hf') (by simp)
  · obtain ⟨rfl, rfl⟩ := Prod.mk.inj (Option.some.inj (hf.symm.trans hf'))
    obtain ⟨hget, habb', hsecond⟩ := hp.some i m hf
    refine ⟨List.getElem?_append_left (List.getElem?_eq_some_iff.mp hget).1 ▸ hget, habb',
      hb.trans ⟨?_, ?_⟩⟩
    · intro hcase
      rcases hcase with hs | hdiff
      · obtain ⟨o', ho', h⟩ := hsecond.mp hs
        exact ⟨o', List.mem_append_left _ ho', h⟩
      · exact ⟨o, List.mem_append_right _ (List.mem_singleton_self o), habb, hne, hdiff⟩
    · intro hex
      obtain ⟨o', ho', h⟩ := hex
      rcases List.mem_append.mp ho' with ho' | ho'
      · exact Or.inl (hsecond.mpr ⟨o', ho', h⟩)
      · rw [List.mem_singleton.mp ho'] at h
        exact Or.inr h.2.2

/-- **The search**, entry by entry. -/
theorem findLong_ends : ∀ {os before : List LongOption} {r : Found}, DistinctNames (before ++ os) →
    Partial (givenName text) shortToo longonly before r →
    Ends (givenName text) shortToo longonly (before ++ os)
      (findLong text (splitEqual text).1 shortToo longonly before.length r os) := by
  intro os
  induction os with
  | nil =>
      intro before r _ hp
      rw [List.append_nil, findLong]
      exact .inexact hp
  | cons o os ih =>
      intro before r hnames hp
      -- what is left to do once the entry has been dealt with
      have hnext : ∀ {r' : Found}, Partial (givenName text) shortToo longonly (before ++ [o]) r' →
          Ends (givenName text) shortToo longonly (before ++ o :: os)
            (findLong text (splitEqual text).1 shortToo longonly (before.length + 1) r' os) := by
        intro r' hp'
        have := ih (by rw [List.append_assoc]; exact hnames) hp'
        rwa [List.append_assoc, List.length_append, List.length_singleton] at this
      have hcmp : strncmpEq text o.name (splitEqual text).1 = true ↔ givenName text <+: o.name :=
        strncmpEq_iff (splitEqual_le text)
      rw [findLong]
      by_cases hpre : givenName text <+: o.name
      · rw [hcmp.mpr hpre, if_neg (by decide)]
        by_cases hlen : o.name.length = (splitEqual text).1
        · -- the whole name
          rw [if_pos hlen]
          refine .exact rfl rfl ?_
            (hpre.eq_of_length ((givenName_length text).trans hlen.symm)).symm
          rw [List.getElem?_append_right (Nat.le_refl _), Nat.sub_self, List.getElem?_cons_zero]
        · rw [if_neg hlen]
          have hname : o.name ≠ givenName text := by
            intro h
            rw [h, givenName_length] at hlen
            exact hlen rfl
          by_cases hshort : shortToo = true ∧ (splitEqual text).1 = 1
          · rw [if_pos hshort]
            refine hnext (hp.skip hname fun habb => habb.2.2 ⟨hshort.1, ?_⟩)
            rw [givenName_length]
            exact hshort.2
          · rw [if_neg hshort]
            have habb : Abbreviates (givenName text) shortToo o :=
              ⟨hpre, hname.symm, by rw [givenName_length]; exact hshort⟩
            cases hf : r.found with
            | none => exact hnext (hp.first hname habb hf)
            | some p =>
                obtain ⟨i, m⟩ := p
                -- an entry further on has another name, so it is not the first
                have hne : o ≠ m := by
                  intro heq
                  subst heq
                  have hm := List.mem_of_getElem? (hp.some i o hf).1
                  have hnd := hnames
                  rw [DistinctNames, List.map_append, List.nodup_append] at hnd
                  exact hnd.2.2 _ (List.mem_map_of_mem hm) _ List.mem_cons_self rfl
                have hsame : (longonly = true ∨ o.hasArg ≠ m.hasArg ∨ o.flag ≠ m.flag
                    ∨ o.val ≠ m.val)
                    ↔ (longonly = true ∨ ¬ o.Same m) := by
                  rw [LongOption.Same, not_and_or, not_and_or]
                dsimp only
                by_cases hdiff : longonly = true ∨ o.hasArg ≠ m.hasArg ∨ o.flag ≠ m.flag
                    ∨ o.val ≠ m.val
                · rw [if_pos hdiff]
                  have hlater := hp.later hname habb hf hne true
                    ⟨fun _ => Or.inr (hsame.mp hdiff), fun _ => rfl⟩
                  rw [hf] at hlater
                  exact hnext hlater
                · rw [if_neg hdiff]
                  refine hnext (hp.later hname habb hf hne r.secondPartialMatch ⟨Or.inl, ?_⟩)
                  intro h
                  rcases h with h | h
                  · exact h
                  · exact absurd (hsame.mpr h) hdiff
      · rw [Bool.eq_false_iff.mpr (mt hcmp.mp hpre), if_pos (by decide)]
        refine hnext (hp.skip ?_ fun habb => hpre habb.1)
        intro h
        exact hpre (h ▸ List.prefix_rfl)

/-- The search over a whole table. -/
theorem search_ends {table : List LongOption} (hnames : DistinctNames table) (text : Text)
    (shortToo longonly : Bool) :
    Ends (givenName text) shortToo longonly table (search table text shortToo longonly) := by
  have hstart : Partial (givenName text) shortToo longonly [] ⟨none, false, false⟩ :=
    ⟨rfl, nofun, fun _ => ⟨rfl, nofun⟩, nofun⟩
  have hall : DistinctNames ([] ++ table) := hnames
  exact findLong_ends hall hstart

end Search

/-! ## `parse_long_options` -/

section Parse

variable {table table' : List LongOption} {text : Text} {shortToo longonly : Bool}
  {options : Text} {hasIdx : Bool} {s : State} {o o' : LongOption} {i i' : Nat}

/-- A call of `parse_long_options`, with the index it stores taken away. -/
def sansIdx (x : Option (Int × State)) : Option (Int × State) :=
  x.map fun (rc, s) => (rc, { s with idx := 0 })

/-- What the parser is to do with a resolution: an entry goes on to its argument; nothing
found returns `?`, or -1 and leaves all as it was where the text may also be letters. -/
def Handled (options : Text) (table : List LongOption) (hasIdx shortToo : Bool) (s : State)
    (x : Option (Int × State)) : Resolution → Prop
  | .entry o => ∃ i, table[i]? = some o ∧
      x = longFound options hasIdx s.place.text i o { s with optind := s.optind + 1 }
  | .ambiguous => x = some (badch, { ({ s with optind := s.optind + 1 } : State).warn options ambig
      (.start (splitEqual s.place.text).1 s.place.text) with optopt := 0 })
  | .unknown => x = if shortToo then some (-1, s)
      else some (badch, { ({ s with optind := s.optind + 1 } : State).warn options illoptstring
        (.string s.place.text) with optopt := 0 })

/-- **What the search finds** is what the name stands for. -/
theorem parseLongOptions_handled (hnames : DistinctNames table) (options : Text) (hasIdx : Bool)
    (shortToo longonly : Bool) (s : State) :
    ∃ r, Resolves table (givenName s.place.text) shortToo longonly r ∧
      Handled options table hasIdx shortToo s
        (parseLongOptions options table hasIdx shortToo longonly s) r := by
  have hends := search_ends hnames s.place.text shortToo longonly
  rw [parseLongOptions]
  dsimp only
  generalize search table s.place.text shortToo longonly = f at hends
  cases hends with
  | @exact i o hexact hfound hget hname =>
      refine ⟨.entry o, .exact (List.mem_of_getElem? hget) hname, i, hget, ?_⟩
      rw [hexact, hfound, if_neg (by simp)]
  | inexact hp =>
      rw [hp.inexact]
      by_cases hsecond : f.secondPartialMatch = true
      · -- some entry differs from the first
        rw [if_pos ⟨rfl, hsecond⟩]
        cases hf : f.found with
        | none =>
            rw [(hp.none hf).1] at hsecond
            cases hsecond
        | some p =>
            obtain ⟨i, m⟩ := p
            obtain ⟨hget, habb, hiff⟩ := hp.some i m hf
            obtain ⟨o, ho, habb', hne, hdiff⟩ := hiff.mp hsecond
            exact ⟨.ambiguous,
              .ambiguous hp.names (List.mem_of_getElem? hget) ho habb habb' hne hdiff,
              rfl⟩
      · rw [if_neg fun h => hsecond h.2]
        cases hf : f.found with
        | none =>
            refine ⟨.unknown, .unknown hp.names (hp.none hf).2, ?_⟩
            cases shortToo with
            | true =>
                exact congrArg (fun n => some (-1, { s with optind := n })) (Int.add_sub_cancel ..)
            | false => rfl
        | some p =>
            obtain ⟨i, m⟩ := p
            obtain ⟨hget, habb, hiff⟩ := hp.some i m hf
            -- no entry differs from the first
            have hnone : ∀ o ∈ table, Abbreviates (givenName s.place.text) shortToo o → o ≠ m →
                longonly = false ∧ o.Same m := by
              intro o ho habb' hne
              have hno : ¬ (longonly = true ∨ ¬ o.Same m) := fun hd =>
                hsecond (hiff.mpr ⟨o, ho, habb', hne, hd⟩)
              exact ⟨Bool.eq_false_iff.mpr fun h => hno (Or.inl h), by
                by_contra h
                exact hno (Or.inr h)⟩
            refine ⟨.entry m, ?_, i, hget, rfl⟩
            cases longonly with
            | true =>
                refine .only hp.names (List.mem_of_getElem? hget) habb fun o ho habb' => ?_
                by_contra hne
                exact absurd (hnone o ho habb' hne).1 (by decide)
            | false =>
                refine .same hp.names rfl (List.mem_of_getElem? hget) habb fun o ho habb' => ?_
                by_cases heq : o = m
                · rw [heq]
                  exact .refl m
                · exact (hnone o ho habb' heq).2

/-- Entries that do the same are handled the same, but for the index stored. -/
theorem longFound_same (h : o.Same o') (options : Text) (hasIdx : Bool) (text : Text) (i i' : Nat)
    (s : State) : sansIdx (longFound options hasIdx text i o s)
      = sansIdx (longFound options hasIdx text i' o' s) := by
  obtain ⟨hasArg, hflag, hval⟩ := h
  have hoptopt : optoptOf o = optoptOf o' := by rw [optoptOf, optoptOf, hflag, hval]
  have hargument : ∀ e s, longArgument o e s = longArgument o' e s := by
    intro e s
    rw [longArgument.eq_def, longArgument.eq_def, hasArg]
  have hreturn : ∀ s, sansIdx (some (longReturn hasIdx i o s))
      = sansIdx (some (longReturn hasIdx i' o' s)) := by
    intro s
    rw [longReturn, longReturn, hflag, hval]
    cases hasIdx <;> cases o'.flag <;> rfl
  rw [longFound, longFound, hasArg, hoptopt]
  obtain ⟨len, hasEqual⟩ := splitEqual text
  dsimp only
  split
  · rfl
  · rw [hargument]
    cases longArgument o' hasEqual s with
    | none => rfl
    | some s₁ =>
        rw [Option.map_some, Option.map_some]
        split
        · rfl
        · exact hreturn s₁

/-- Alike resolutions are handled the same. -/
theorem handled_alike {r r' : Resolution} {x x' : Option (Int × State)} (h : r.Alike r')
    (hx : Handled options table hasIdx shortToo s x r)
    (hx' : Handled options table' hasIdx shortToo s x' r') : sansIdx x = sansIdx x' := by
  cases r with
  | entry o =>
      cases r' with
      | entry o' =>
          obtain ⟨i, -, rfl⟩ := hx
          obtain ⟨i', -, rfl⟩ := hx'
          exact longFound_same h ..
      | ambiguous => exact h.elim
      | unknown => exact h.elim
  | ambiguous =>
      cases r' with
      | entry o' => exact h.elim
      | ambiguous => rw [show x = _ from hx, show x' = _ from hx']
      | unknown => exact h.elim
  | unknown =>
      cases r' with
      | entry o' => exact h.elim
      | ambiguous => exact h.elim
      | unknown => rw [show x = _ from hx, show x' = _ from hx']

/--
**`parse_long_options` finds what the name stands for.**

The name resolves to one thing, up to entries that do the same, and the parser goes on
with that. In another order of the table the same resolves, and all that the parser can do
differently is the index that it stores.
-/
theorem parseLongOptions_resolves (hnames : DistinctNames table) (options : Text)
    (hasIdx shortToo longonly : Bool) (s : State) :
    (∃ r, Resolves table (givenName s.place.text) shortToo longonly r ∧
      Handled options table hasIdx shortToo s
        (parseLongOptions options table hasIdx shortToo longonly s) r)
    ∧ (∀ r r', Resolves table (givenName s.place.text) shortToo longonly r →
        Resolves table (givenName s.place.text) shortToo longonly r' → r.Alike r')
    ∧ ∀ table', table.Perm table' →
        sansIdx (parseLongOptions options table hasIdx shortToo longonly s)
          = sansIdx (parseLongOptions options table' hasIdx shortToo longonly s) := by
  refine ⟨parseLongOptions_handled hnames .., fun r r' h h' => h.alike hnames h',
    fun table' hperm => ?_⟩
  obtain ⟨r, hr, hx⟩ := parseLongOptions_handled hnames options hasIdx shortToo longonly s
  obtain ⟨r', hr', hx'⟩ :=
    parseLongOptions_handled (hnames.perm hperm) options hasIdx shortToo longonly s
  exact handled_alike ((hr.perm hperm).alike (hnames.perm hperm) hr') hx hx'

/-- The entries `ab` and `ac`, which differ, and the text `a`. -/
def twoNames : List LongOption :=
  [⟨textOf [97, 98], noArgument, none, 1⟩, ⟨textOf [97, 99], noArgument, none, 2⟩]

def atName : State :=
  ⟨1, 1, 0, 0, none, .inside (textOf [97]) 0, -1, -1, 0, [textOf [45, 45, 97]], 0, fun _ => 0, []⟩

theorem twoNames_resolves :
    Resolves twoNames (givenName atName.place.text) false false .ambiguous
    ∧ sansIdx (parseLongOptions [] twoNames true false false atName)
      = sansIdx (parseLongOptions [] twoNames.reverse true false false atName) := by
  have hnames : DistinctNames twoNames := by decide
  obtain ⟨-, -, hperm⟩ := parseLongOptions_resolves hnames [] true false false atName
  have hab : Abbreviates (givenName atName.place.text) false twoNames[0] :=
    ⟨by decide, by decide, by decide⟩
  have hac : Abbreviates (givenName atName.place.text) false twoNames[1] :=
    ⟨by decide, by decide, by decide⟩
  exact ⟨.ambiguous (by decide) (by decide) (by decide) hab hac (by decide)
    (Or.inr fun h => absurd h.2.2 (by decide)), hperm _ (List.reverse_perm _).symm⟩

end Parse

end LibrePortable.Getopt
