/-!
# Walks whose body may destroy the element

A walk along a chain in memory that looks up where to go next before it runs its body. The
body may take the element out of the chain and overwrite it; the walk goes on where the
chain went on before.
-/

namespace LibrePortable.Lib

variable {M V E : Type}

/-- `for (var = …; var != END && ((tvar) = next(var), 1); var = tvar) body`: what is left of
memory, and the elements met. `see` follows a pointer, and NULL is `some none`. -/
def walkSafe (see : V → Option (Option E)) (next : M → E → Option V) (body : M → E → Option M) :
    (fuel : Nat) → M → (var : V) → Option (M × List E)
  | 0, _, _ => none
  | fuel + 1, m, var => do
    match ← see var with
    | none => pure (m, [])
    | some elm =>
      let tvar ← next m elm
      let m ← body m elm
      let (m, rest) ← walkSafe see next body fuel m tvar
      pure (m, elm :: rest)

section Rule

variable {see : V → Option (Option E)} {next : M → E → Option V} {body : M → E → Option M}
  {ptr : Option E → V}

/-- **The rule**: `Inv rest m` holds before each round, where `rest` is still to be met. The
next element is looked up before the body, which only has to leave the rest in place. -/
theorem walkSafe_rule {Inv : List E → M → Prop} (hsee : ∀ x, see (ptr x) = some x)
    (hnext : ∀ m e rest, Inv (e :: rest) m → next m e = some (ptr rest.head?))
    (hbody : ∀ m e rest, Inv (e :: rest) m → ∃ m', body m e = some m' ∧ Inv rest m')
    {m : M} {es : List E} (h : Inv es m) {fuel : Nat} (hf : es.length < fuel) :
    ∃ m', walkSafe see next body fuel m (ptr es.head?) = some (m', es) ∧ Inv [] m' := by
  induction es generalizing m fuel with
  | nil =>
      obtain ⟨n, rfl⟩ := Nat.exists_eq_add_one.mpr hf
      refine ⟨m, ?_, h⟩
      simp [walkSafe, hsee]
  | cons e rest ih =>
      obtain ⟨n, rfl⟩ := Nat.exists_eq_add_one.mpr (Nat.zero_lt_of_lt hf)
      obtain ⟨m₁, hm₁, h₁⟩ := hbody m e rest h
      obtain ⟨m₂, hm₂, h₂⟩ := ih h₁ (by simpa using hf)
      refine ⟨m₂, ?_, h₂⟩
      simp [walkSafe, hsee, hnext m e rest h, hm₁, hm₂]

/-- A body that keeps some elements and takes the others out. -/
structure Weeds (Holds : List E → M → Prop) (keep : E → Bool) (next : M → E → Option V)
    (body : M → E → Option M) (ptr : Option E → V) : Prop where
  next : ∀ m xs e ys, Holds (xs ++ e :: ys) m → next m e = some (ptr ys.head?)
  keeps : ∀ m e, keep e = true → body m e = some m
  drops : ∀ m xs e ys, keep e = false → (∀ x ∈ xs, keep x = true) → Holds (xs ++ e :: ys) m →
    ∃ m', body m e = some m' ∧ Holds (xs ++ ys) m'

/-- What has been met stands before the rest, weeded. -/
def Weeding (Holds : List E → M → Prop) (keep : E → Bool) (es rest : List E) (m : M) : Prop :=
  ∃ met, es = met ++ rest ∧ Holds (met.filter keep ++ rest) m

/-- One round. -/
theorem Weeds.round {Holds : List E → M → Prop} {keep : E → Bool} {es : List E}
    (hw : Weeds Holds keep next body ptr) (m : M) (e : E) (rest : List E)
    (h : Weeding Holds keep es (e :: rest) m) :
    ∃ m', body m e = some m' ∧ Weeding Holds keep es rest m' := by
  obtain ⟨met, hes, hm⟩ := h
  have hes : es = (met ++ [e]) ++ rest := by rw [hes, List.append_assoc, List.singleton_append]
  cases hk : keep e with
  | true =>
      refine ⟨m, hw.keeps m e hk, met ++ [e], hes, ?_⟩
      rw [List.filter_append, List.filter_cons_of_pos hk, List.filter_nil, List.append_assoc]
      exact hm
  | false =>
      obtain ⟨m', hm', hrest⟩ :=
        hw.drops m _ e rest hk (fun x hx => (List.mem_filter.mp hx).2) hm
      refine ⟨m', hm', met ++ [e], hes, ?_⟩
      rw [List.filter_append, List.filter_cons_of_neg (by rw [hk]; exact Bool.false_ne_true),
        List.filter_nil, List.append_nil]
      exact hrest

/-- **Weeding a chain** meets every element, and leaves those that are kept in their order. -/
theorem Weeds.walk {Holds : List E → M → Prop} {keep : E → Bool}
    (hw : Weeds Holds keep next body ptr) (hsee : ∀ x, see (ptr x) = some x) {m : M} {es : List E}
    (h : Holds es m) {fuel : Nat} (hf : es.length < fuel) :
    ∃ m', walkSafe see next body fuel m (ptr es.head?) = some (m', es) ∧
      Holds (es.filter keep) m' := by
  have hnext : ∀ m e rest, Weeding Holds keep es (e :: rest) m →
      next m e = some (ptr rest.head?) := by
    rintro m e rest ⟨met, -, hm⟩
    exact hw.next m _ e rest hm
  obtain ⟨m', hm', met, hes, hend⟩ := walkSafe_rule hsee hnext hw.round ⟨[], rfl, h⟩ hf
  rw [List.append_nil] at hes hend
  subst hes
  exact ⟨m', hm', hend⟩

end Rule

end LibrePortable.Lib
