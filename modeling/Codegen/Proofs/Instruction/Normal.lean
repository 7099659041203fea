import Codegen.Proofs.Instruction.Simplified
import Mathlib.Logic.Function.Iterate

/-!
# Simplified steps are in normal form

Each rule either leaves the steps as they are or makes them fewer. So rounds that go on as long as
the list gets shorter stop at a list that no rule changes, and in such a list the patterns that the
rules look for do not occur.

* `Step.Shortens`: a map that changes nothing or shortens the list;
* `Step.Rewrites`: one place of a scan; `Rewrites.scan`, `Rewrites.at_suffix`: **a scan that
  changes nothing has found nothing**, at any place;
* `Step.simplifyOnce_simplify`: simplified steps are a fixed point of a round;
* `Step.IsNormal`: the patterns that are left out, `isNormal_of_fixed`;
* `Step.simplify_eq_iterate`: simplification is the first round that makes nothing fewer;
* `Step.simplify_normal`: **simplification ends, in a normal form that it leaves alone**.
-/

namespace Codegen.Step

/-! ## Shorter lists -/

/-- The map leaves a list as it is or makes it shorter. -/
def Shortens (f : List Step → List Step) : Prop := ∀ xs, f xs = xs ∨ (f xs).length < xs.length

/-- What a rule does in front of a list: nothing, or the list with the step gets shorter. -/
def Rewrites (rule : Step → List Step → List Step) : Prop :=
  ∀ s rest, rule s rest = s :: rest ∨ (rule s rest).length ≤ rest.length

/-- No jump leads to the label right after it, no conditional jump over an unconditional one could
be inverted, and every label is jumped to. -/
structure IsNormal (xs : List Step) : Prop where
  jump : ∀ pre l post, xs ≠ pre ++ .jump l none :: .label l :: post
  inverted : ∀ pre n t m post, m ≠ n →
    xs ≠ pre ++ .jump n (some t) :: .jump m none :: .label n :: post
  used : ∀ l, label l ∈ xs → l ∈ targets xs

variable {f g : List Step → List Step} {rule : Step → List Step → List Step}
variable {s : Step} {xs rest : List Step}

theorem Shortens.length_le (hf : Shortens f) (xs : List Step) : (f xs).length ≤ xs.length := by
  rcases hf xs with h | h
  · exact Nat.le_of_eq (congrArg List.length h)
  · omega

/-- **Equal length means an unchanged list.** -/
theorem Shortens.eq_iff (hf : Shortens f) : (f xs).length = xs.length ↔ f xs = xs := by
  refine ⟨fun h => ?_, fun h => by rw [h]⟩
  rcases hf xs with h' | h'
  · exact h'
  · omega

theorem Shortens.comp (hg : Shortens g) (hf : Shortens f) : Shortens fun xs => g (f xs) := by
  intro xs
  rcases hf xs with h | h
  · simpa only [h] using hg xs
  · exact .inr (Nat.lt_of_le_of_lt (hg.length_le _) h)

theorem Shortens.fixed_of_comp (hg : Shortens g) (hf : Shortens f) (h : g (f xs) = xs) :
    f xs = xs ∧ g xs = xs := by
  have hlen : (f xs).length = xs.length := by
    have h1 := hg.length_le (f xs)
    have h2 := hf.length_le xs
    rw [h] at h1
    omega
  have hfx := hf.eq_iff.mp hlen
  exact ⟨hfx, by rwa [hfx] at h⟩

/-! ## Scans -/

namespace Rewrites

variable (hr : Rewrites rule)

include hr

theorem scan : Shortens fun xs => xs.foldr rule [] := by
  intro xs
  induction xs with
  | nil => exact .inl rfl
  | cons s rest ih =>
    simp only [List.foldr_cons, List.length_cons] at ih ⊢
    rcases hr s (rest.foldr rule []) with h | h
    · rw [h]
      exact ih.imp (congrArg (s :: ·)) fun h => Nat.succ_lt_succ h
    · rcases ih with ih | ih
      · rw [ih] at h ⊢
        exact .inr (by omega)
      · exact .inr (by omega)

theorem at_suffix (h : xs.foldr rule [] = xs) (hs : s :: rest <:+ xs) :
    rule s rest = s :: rest := by
  induction xs with
  | nil => simp at hs
  | cons s' xs ih =>
    rw [List.foldr_cons] at h
    have htail : xs.foldr rule [] = xs := by
      rcases hr s' (xs.foldr rule []) with h' | h'
      · exact (List.cons.inj (h'.symm.trans h)).2
      · have := hr.scan.length_le xs
        rw [h, List.length_cons] at h'
        omega
    rcases List.suffix_cons_iff.mp hs with he | hs
    · obtain ⟨rfl, rfl⟩ := List.cons.inj he
      rwa [htail] at h
    · exact ih htail hs

end Rewrites

/-! ## The rules -/

theorem dropJumps_eq_foldr (xs : List Step) : dropJumps xs = xs.foldr dropJump [] := by
  induction xs with
  | nil => rfl
  | cons s rest ih => rw [dropJumps, ih, List.foldr_cons]

theorem invertJumps_eq_foldr (xs : List Step) : invertJumps xs = xs.foldr invertJump [] := by
  induction xs with
  | nil => rfl
  | cons s rest ih => rw [invertJumps, ih, List.foldr_cons]

theorem rewrites_dropJump : Rewrites dropJump := by
  intro s rest
  rcases dropJump_cases s rest with h | ⟨l, ys, -, -, h⟩
  · exact .inl h
  · exact .inr (Nat.le_of_eq (congrArg List.length h))

theorem rewrites_invertJump : Rewrites invertJump := by
  intro s rest
  rcases invertJump_cases s rest with h | ⟨n, m, ys, t, -, -, rfl, h⟩
  · exact .inl h
  · exact .inr (by simp [h])

theorem shortens_dropJumps : Shortens dropJumps :=
  funext dropJumps_eq_foldr ▸ rewrites_dropJump.scan

theorem shortens_invertJumps : Shortens invertJumps :=
  funext invertJumps_eq_foldr ▸ rewrites_invertJump.scan

theorem shortens_dropLabels : Shortens dropLabels := fun xs =>
  (Nat.eq_or_lt_of_le (dropLabels_sublist xs).length_le).imp (dropLabels_sublist xs).eq_of_length id

theorem shortens_simplifyOnce : Shortens simplifyOnce :=
  shortens_dropLabels.comp (shortens_invertJumps.comp shortens_dropJumps)

/-- **A list that a round leaves alone is in normal form.** -/
theorem isNormal_of_fixed (h : simplifyOnce xs = xs) : IsNormal xs := by
  obtain ⟨hji, hl⟩ := shortens_dropLabels.fixed_of_comp
    (shortens_invertJumps.comp shortens_dropJumps) h
  obtain ⟨hj, hi⟩ := shortens_invertJumps.fixed_of_comp shortens_dropJumps hji
  rw [dropJumps_eq_foldr] at hj
  rw [invertJumps_eq_foldr] at hi
  refine ⟨fun pre l post hxs => ?_, fun pre n t m post hmn hxs => ?_, fun l hmem => ?_⟩
  · have := rewrites_dropJump.at_suffix hj (hxs ▸ List.suffix_append _ _)
    simp [dropJump] at this
  · have := rewrites_invertJump.at_suffix hi (hxs ▸ List.suffix_append _ _)
    simp [invertJump, hmn] at this
  · rw [← hl] at hmem
    simpa [targets] using (List.mem_filter.mp hmem).2

/-! ## Rounds -/

theorem simplifyOnce_simplify (xs : List Step) : simplifyOnce (simplify xs) = simplify xs := by
  induction xs using simplify.induct with
  | case1 xs next hlt ih => rwa [simplify, if_pos hlt]
  | case2 xs next hge =>
    have hfix : simplifyOnce xs = xs := (shortens_simplifyOnce xs).resolve_right hge
    rw [simplify, if_neg hge, hfix, hfix]

theorem simplify_of_fixed (h : simplifyOnce xs = xs) : simplify xs = xs := by
  rw [simplify, h, if_neg (Nat.lt_irrefl _)]

/-- **The rounds end.** After some rounds that each make the list shorter, no more of them than
there are steps, one more round leaves its length as it is. -/
theorem simplify_eq_iterate (xs : List Step) : ∃ n ≤ xs.length,
    simplify xs = simplifyOnce^[n + 1] xs ∧
    (simplifyOnce^[n + 1] xs).length = (simplifyOnce^[n] xs).length ∧
    ∀ i < n, (simplifyOnce^[i + 1] xs).length < (simplifyOnce^[i] xs).length := by
  induction xs using simplify.induct with
  | case1 xs next hlt ih =>
    obtain ⟨n, hn, heq, hlast, hshort⟩ := ih
    refine ⟨n + 1, by omega, by rw [simplify, if_pos hlt, heq]; rfl, hlast, fun i hi => ?_⟩
    cases i with
    | zero => exact hlt
    | succ i => exact hshort i (by omega)
  | case2 xs next hge =>
    refine ⟨0, Nat.zero_le _, by rw [simplify, if_neg hge]; rfl, ?_, fun i hi => by omega⟩
    exact shortens_simplifyOnce.eq_iff.mpr ((shortens_simplifyOnce xs).resolve_right hge)

theorem comparisons_simplify (xs : List Step) : comparisons (simplify xs) = comparisons xs := by
  refine simplify_induct (P := fun ys => comparisons ys = comparisons xs)
    (fun ys h => (comparisons_dropJumps ys).trans h)
    (fun ys h => (comparisons_invertJumps ys).trans h) (fun ys h => ?_) rfl
  obtain ⟨keep, hkeep, hk, -⟩ := dropLabels_eq_filter ys
  rw [hkeep, comparisons_filter hk, h]

/-- **Simplification ends in a normal form.** For any steps, whatever labels they have or jump to,
the rounds end: each of them makes the list shorter until one leaves its length as it is, and that
one changes nothing at all. What is left has no jump to the label right after it, no conditional
jump that an unconditional one to another label separates from its own label, and no label that is
not jumped to; its comparisons are those of the steps, in their order; and simplification changes
nothing in it. -/
theorem simplify_normal (xs : List Step) :
    (∃ n ≤ xs.length, simplify xs = simplifyOnce^[n + 1] xs ∧
      simplifyOnce^[n + 1] xs = simplifyOnce^[n] xs ∧
      (∀ i < n, (simplifyOnce^[i + 1] xs).length < (simplifyOnce^[i] xs).length)) ∧
    IsNormal (simplify xs) ∧
    comparisons (simplify xs) = comparisons xs ∧
    simplify (simplify xs) = simplify xs := by
  refine ⟨?_, isNormal_of_fixed (simplifyOnce_simplify xs), comparisons_simplify xs,
    simplify_of_fixed (simplifyOnce_simplify xs)⟩
  obtain ⟨n, hn, heq, hlast, hshort⟩ := simplify_eq_iterate xs
  refine ⟨n, hn, heq, ?_, hshort⟩
  rw [Function.iterate_succ_apply'] at hlast ⊢
  exact shortens_simplifyOnce.eq_iff.mp hlast

end Codegen.Step
