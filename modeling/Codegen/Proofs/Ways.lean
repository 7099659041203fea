import Mathlib.Data.Finset.Card
import Mathlib.Data.Finset.Filter
import Mathlib.Logic.Relation

/-!
# Ways up

A relation leads from each place to the places right above it. If no place is above itself, places
can be moved: below places that are not inside what is moved no cycle arises. The ways up are then
no longer than there are places.

* `below_of_moved`, `acyclic_of_moved`: **moving a part makes no cycle**;
* `below_of_attached`, `acyclic_of_attached`: single places are put below others;
* `countAbove`, `countAbove_lt`: fewer and fewer places are above on a way up.
-/

namespace Codegen

open Relation

variable {α : Type} {r r' : α → α → Prop} {a b : α}

/-! ## Moves -/

section

variable {S : α → Prop}

/-- What is inside a part stays inside it, or leaves it for good: then a way that starts in the
part stays in it, on steps that were there before, or ends outside. -/
theorem below_of_moved (hout : ∀ c p, ¬ S c → r' c p → r c p ∧ ¬ S p)
    (hin : ∀ c p, S c → r' c p → r c p ∨ ¬ S p) (h : TransGen r' a b) :
    TransGen r a b ∨ S a ∧ ¬ S b := by
  by_cases ha : S a
  · induction h with
    | single h => exact (hin _ _ ha h).imp .single fun hb => ⟨ha, hb⟩
    | @tail b c _ hc ih =>
      by_cases hb : S b
      · have hab := ih.resolve_right fun h => h.2 hb
        exact (hin _ _ hb hc).imp hab.tail fun hc => ⟨ha, hc⟩
      · exact .inr ⟨ha, (hout _ _ hb hc).2⟩
  · have hall : TransGen r a b ∧ ¬ S b := by
      induction h with
      | single h => exact ⟨.single (hout _ _ ha h).1, (hout _ _ ha h).2⟩
      | tail _ hc ih => exact ⟨ih.1.tail (hout _ _ ih.2 hc).1, (hout _ _ ih.2 hc).2⟩
    exact .inl hall.1

/-- **Moving a part makes no cycle.** -/
theorem acyclic_of_moved (h : ∀ c, ¬ TransGen r c c)
    (hout : ∀ c p, ¬ S c → r' c p → r c p ∧ ¬ S p)
    (hin : ∀ c p, S c → r' c p → r c p ∨ ¬ S p) (c : α) : ¬ TransGen r' c c :=
  fun hc => (below_of_moved hout hin hc).elim (h c) fun hs => hs.2 hs.1

end

section

variable {M T : α → Prop}

theorem below_of_attached (hr : ∀ c q, r' c q → r c q ∨ M c ∧ T q)
    (ht : ∀ m q, M m → T q → ¬ ReflTransGen r q m) (h : TransGen r' a b) :
    TransGen r a b ∨ (∃ m, M m ∧ ReflTransGen r a m) ∧ ¬ ∃ m, M m ∧ ReflTransGen r b m := by
  refine below_of_moved (S := fun c => ∃ m, M m ∧ ReflTransGen r c m) (fun c q hc hq => ?_)
    (fun c q _ hq => ?_) h
  · have hcq := (hr c q hq).resolve_right fun hm => hc ⟨c, hm.1, .refl⟩
    exact ⟨hcq, fun ⟨m, hm, hqm⟩ => hc ⟨m, hm, .head hcq hqm⟩⟩
  · exact (hr c q hq).imp_right fun ⟨_, hq⟩ ⟨m, hm, hqm⟩ => ht m q hm hq hqm

/-- **Places can be put below places that are not inside them.** -/
theorem acyclic_of_attached (h : ∀ c, ¬ TransGen r c c)
    (hr : ∀ c q, r' c q → r c q ∨ M c ∧ T q)
    (ht : ∀ m q, M m → T q → ¬ ReflTransGen r q m) (c : α) : ¬ TransGen r' c c :=
  fun hc => (below_of_attached hr ht hc).elim (h c) fun hs => hs.2 hs.1

end

/-! ## Counting -/

open Classical in
/-- How many of the first places are above a place. -/
noncomputable def countAbove (r : ℕ → ℕ → Prop) (size n : ℕ) : ℕ :=
  ((Finset.range size).filter (TransGen r n)).card

variable {r : ℕ → ℕ → Prop} {size n p : ℕ}

open Classical in
theorem countAbove_le : countAbove r size n ≤ size :=
  (Finset.card_filter_le _ _).trans (Finset.card_range size).le

open Classical in
/-- **Fewer places are above what is above.** -/
theorem countAbove_lt (h : ∀ c, ¬ TransGen r c c) (hp : p < size) (hnp : r n p) :
    countAbove r size p < countAbove r size n := by
  refine Finset.card_lt_card ⟨fun m hm => ?_, fun hsub => ?_⟩
  · rw [Finset.mem_filter] at hm ⊢
    exact ⟨hm.1, .head hnp hm.2⟩
  · have hmem := hsub (Finset.mem_filter.mpr ⟨Finset.mem_range.mpr hp, .single hnp⟩)
    exact h p (Finset.mem_filter.mp hmem).2

end Codegen
