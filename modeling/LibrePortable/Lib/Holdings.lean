import Mathlib.Logic.Function.Basic
import Mathlib.Data.List.Nodup

/-!
# Who holds what

Some resources are live, such as blocks of memory or open handles, and every live one is
held by one of several holders. A holder can give back what it has and get something new;
what the others hold it leaves alone. If each step is such a trade by one holder then
nothing is lost, nothing is given back twice, and nothing is held by two.
-/

namespace LibrePortable.Lib

variable {ρ : Type}

/-- What a holder has is live, and it has nothing twice. -/
structure Holds (live : ρ → Prop) (xs : List ρ) : Prop where
  nodup : xs.Nodup
  live : ∀ x ∈ xs, live x

/-- Giving back `xs` and getting `ys`, which was held already or was not live. -/
structure Trade (live live' : ρ → Prop) (xs ys : List ρ) : Prop where
  nodup : ys.Nodup
  live_iff : ∀ x, live' x ↔ x ∈ ys ∨ (live x ∧ x ∉ xs)
  fresh : ∀ x ∈ ys, x ∈ xs ∨ ¬ live x

variable {live live' live'' : ρ → Prop} {xs ys zs es : List ρ} {x : ρ}

theorem Trade.holds (h : Trade live live' xs ys) : Holds live' ys :=
  ⟨h.nodup, fun x hx => (h.live_iff x).mpr (.inl hx)⟩

theorem Trade.refl (h : Holds live xs) : Trade live live xs xs where
  nodup := h.nodup
  live_iff x := by
    constructor
    · intro hx
      by_cases hm : x ∈ xs
      · exact .inl hm
      · exact .inr ⟨hx, hm⟩
    · rintro (hm | ⟨hx, -⟩)
      · exact h.live x hm
      · exact hx
  fresh _ hx := .inl hx

theorem Trade.trans (h : Trade live live' xs ys) (h' : Trade live' live'' ys zs) :
    Trade live live'' xs zs where
  nodup := h'.nodup
  live_iff x := by
    rw [h'.live_iff, h.live_iff]
    constructor
    · rintro (hz | ⟨hy | hx, hny⟩)
      · exact .inl hz
      · exact absurd hy hny
      · exact .inr hx
    · rintro (hz | ⟨hx, hnx⟩)
      · exact .inl hz
      · refine .inr ⟨.inr ⟨hx, hnx⟩, fun hy => ?_⟩
        exact (h.fresh x hy).elim hnx fun hn => hn hx
  fresh x hz := by
    rcases h'.fresh x hz with hy | hn
    · exact h.fresh x hy
    · by_cases hx : x ∈ xs
      · exact .inl hx
      · exact .inr fun hl => hn ((h.live_iff x).mpr (.inr ⟨hl, hx⟩))

/-- A trade leaves what else the holder has where it is. -/
theorem Trade.frame (h : Trade live live' xs ys) (hh : Holds live (es ++ xs)) :
    Trade live live' (es ++ xs) (es ++ ys) := by
  obtain ⟨hes, -, hapart⟩ := List.nodup_append.mp hh.nodup
  have hlive : ∀ x ∈ es, live x := fun x hx => hh.live x (List.mem_append_left _ hx)
  have hnot : ∀ x ∈ es, x ∉ xs := fun x hx hx' => hapart x hx x hx' rfl
  refine ⟨List.nodup_append.mpr ⟨hes, h.nodup, ?_⟩, fun x => ?_, fun x hx => ?_⟩
  · rintro x hx y hy rfl
    exact (h.fresh x hy).elim (hnot x hx) fun hn => hn (hlive x hx)
  · rw [h.live_iff, List.mem_append, List.mem_append, not_or]
    constructor
    · rintro (hy | ⟨hx, hnx⟩)
      · exact .inl (.inr hy)
      · by_cases he : x ∈ es
        · exact .inl (.inl he)
        · exact .inr ⟨hx, he, hnx⟩
    · rintro ((he | hy) | ⟨hx, -, hnx⟩)
      · exact .inr ⟨hlive x he, hnot x he⟩
      · exact .inl hy
      · exact .inr ⟨hx, hnx⟩
  · rcases List.mem_append.mp hx with he | hy
    · exact .inl (List.mem_append_left _ he)
    · exact (h.fresh x hy).imp_left (List.mem_append_right _)

theorem Trade.make (hlive : ∀ y, live' y ↔ y = x ∨ live y) (hx : ¬ live x) :
    Trade live live' [] [x] where
  nodup := List.nodup_singleton x
  live_iff y := by simp [hlive]
  fresh y hy := .inr (List.mem_singleton.mp hy ▸ hx)

theorem Trade.drop (hlive : ∀ y, live' y ↔ live y ∧ y ≠ x) : Trade live live' [x] [] where
  nodup := .nil
  live_iff y := by simp [hlive]
  fresh _ hy := absurd hy List.not_mem_nil

/-! ## Several holders -/

/-- Every live resource has a holder, and no two holders have the same one. -/
structure Accounts {ι : Type} (live : ρ → Prop) (held : ι → List ρ) : Prop where
  holds : ∀ i, Holds live (held i)
  owner : ∀ x, live x → ∃ i, x ∈ held i
  apart : ∀ i j, i ≠ j → ∀ x ∈ held i, x ∉ held j

variable {ι : Type} {held : ι → List ρ}

/-- At first nothing is live. -/
theorem Accounts.none (h : ∀ x, ¬ live x) : Accounts live fun _ : ι => [] where
  holds _ := ⟨.nil, fun _ hx => absurd hx List.not_mem_nil⟩
  owner x hx := absurd hx (h x)
  apart _ _ _ _ hx := absurd hx List.not_mem_nil

/-- **A trade by one holder** keeps the accounts. -/
theorem Accounts.trade [DecidableEq ι] (h : Accounts live held) {i : ι}
    (ht : Trade live live' (held i) ys) : Accounts live' (Function.update held i ys) where
  holds j := by
    by_cases hj : j = i
    · subst hj
      rw [Function.update_self]
      exact ht.holds
    · rw [Function.update_of_ne hj]
      exact ⟨(h.holds j).nodup, fun x hx =>
        (ht.live_iff x).mpr (.inr ⟨(h.holds j).live x hx, h.apart j i hj x hx⟩)⟩
  owner x hx := by
    rcases (ht.live_iff x).mp hx with hy | ⟨hx, hn⟩
    · exact ⟨i, by rwa [Function.update_self]⟩
    · obtain ⟨j, hj⟩ := h.owner x hx
      have hji : j ≠ i := fun heq => hn (heq ▸ hj)
      exact ⟨j, by rwa [Function.update_of_ne hji]⟩
  apart j k hjk x hj hk := by
    have hown : ∀ j, j ≠ i → x ∈ held j → x ∉ ys := fun j hji hx hy =>
      (ht.fresh x hy).elim (h.apart j i hji x hx) fun hn => hn ((h.holds j).live x hx)
    by_cases hji : j = i
    · subst hji
      rw [Function.update_self] at hj
      rw [Function.update_of_ne (Ne.symm hjk)] at hk
      exact hown k (Ne.symm hjk) hk hj
    · rw [Function.update_of_ne hji] at hj
      by_cases hki : k = i
      · subst hki
        rw [Function.update_self] at hk
        exact hown j hji hj hk
      · rw [Function.update_of_ne hki] at hk
        exact h.apart j k hjk x hj hk

theorem Accounts.unique (h : Accounts live held) {i j : ι} (hi : x ∈ held i) (hj : x ∈ held j) :
    i = j := by
  by_contra hne
  exact h.apart i j hne x hi hj

end LibrePortable.Lib
