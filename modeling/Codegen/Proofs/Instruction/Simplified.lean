import Codegen.Proofs.Instruction.Run

/-!
# Simplified steps run like the steps

Each rule maps the steps behind a place to the steps behind that place in the new list. A run of the
one list and a run of the other are at corresponding places all the time, up to a few jumps and
labels that only one of them has to pass.

* `Step.Mimics`: places of two lists **from which the runs look the same**;
* `Step.run_dropJumps`: without the jumps to the label right after them, the run is step for step
  the same;
* `Step.alike_invertJumps`: an inverted jump takes one step where two were taken, or the reverse;
* `Step.alike_dropLabels`: labels that no step jumps to may go;
* `Step.alike_simplify`, `simplify_conduct`: **simplification changes nothing that is seen of a
  run**, however it ends or if it never does.
-/

namespace Codegen.Step

variable {σ : Outcomes} {p : Word × Word} {whole rest steps xs ys : List Step} {s : Step}
variable {l m : Label} {n : Nat} {test : Option JumpTest}

theorem suffix_tail (h : s :: rest <:+ whole) : rest <:+ whole := (List.suffix_cons s rest).trans h

theorem mem_targets (h : s :: rest <:+ whole) (hl : s.target? = some l) : l ∈ targets whole :=
  List.mem_filterMap.mpr ⟨s, h.mem List.mem_cons_self, hl⟩

theorem comparisons_cons_congr (h : comparisons xs = comparisons ys) :
    comparisons (s :: xs) = comparisons (s :: ys) := by
  cases s <;> simp [h]

/-! ## Corresponding places -/

/-- From `ys`, the one list does in some number of steps what that many steps of the other one do
from `xs`. -/
def Mimics (σ : Outcomes) (whole' whole : List Step) (n : Nat) (ys xs : List Step) : Prop :=
  ∀ p, ∃ k, run σ whole' k p ys = run σ whole n p xs

namespace Mimics

variable {whole' : List Step}

theorem zero : Mimics σ whole' whole 0 ys xs := fun _ => ⟨0, by simp⟩

theorem nil : Mimics σ whole' whole (n + 1) [] [] := fun _ => ⟨n + 1, rfl⟩

theorem cons (h : Mimics σ whole' whole n ys xs) (hc : comparisons ys = comparisons xs)
    (hj : ∀ l, s.target? = some l →
      Option.Rel (Mimics σ whole' whole n) (behind l whole') (behind l whole)) :
    Mimics σ whole' whole (n + 1) (s :: ys) (s :: xs) := by
  intro p
  cases s with
  | label l =>
    obtain ⟨k, hk⟩ := h p
    exact ⟨k + 1, hk⟩
  | compare a b =>
    obtain ⟨k, hk⟩ := h (σ (comparisons xs).length a b)
    exact ⟨k + 1, by rw [run_compare, run_compare, hc, hk]⟩
  | jump l test =>
    cases ht : test.all (·.decides p) with
    | false =>
      obtain ⟨k, hk⟩ := h p
      exact ⟨k + 1, by rw [run_pass ht, run_pass ht, hk]⟩
    | true =>
      have hl := hj l rfl
      generalize hb : behind l whole = zs, hb' : behind l whole' = zs' at hl
      cases hl with
      | none => exact ⟨1, by rw [run_leave ht hb, run_leave ht hb']⟩
      | some hz =>
        obtain ⟨k, hk⟩ := hz p
        exact ⟨k + 1, by rw [run_land ht hb, run_land ht hb', hk]⟩

end Mimics

section

variable {f : List Step → List Step} {R : List Step → List Step → Prop} {whole' : List Step}
variable (hl : behind l whole' = (behind l whole).map f)

include hl

/-- Where places correspond, so do those behind a label. -/
theorem rel_behind (h : ∀ zs, zs <:+ whole → R (f zs) zs) :
    Option.Rel R (behind l whole') (behind l whole) := by
  rw [hl]
  cases hb : behind l whole with
  | none => exact .none
  | some zs => exact .some (h zs (behind_suffix hb))

theorem rel_behind_symm (h : ∀ zs, zs <:+ whole → R zs (f zs)) :
    Option.Rel R (behind l whole) (behind l whole') := by
  rw [hl]
  cases hb : behind l whole with
  | none => exact .none
  | some zs => exact .some (h zs (behind_suffix hb))

end

/-! ## Jumps to the next label -/

theorem dropJump_cases (s : Step) (rest : List Step) : dropJump s rest = s :: rest ∨
    ∃ l ys, s = jump l none ∧ rest = label l :: ys ∧ dropJump s rest = rest := by
  unfold dropJump
  split
  next l m ys =>
    split
    next hlm => exact .inr ⟨l, ys, rfl, hlm ▸ rfl, rfl⟩
    next => exact .inl rfl
  next => exact .inl rfl

theorem comparisons_dropJumps (xs : List Step) :
    comparisons (dropJumps xs) = comparisons xs := by
  induction xs with
  | nil => rfl
  | cons s rest ih =>
    rw [dropJumps]
    rcases dropJump_cases s (dropJumps rest) with h | ⟨l, ys, rfl, -, h⟩
    · rw [h]
      exact comparisons_cons_congr ih
    · rw [h, ih, comparisons_cons_jump]

theorem behind_dropJumps (l : Label) (xs : List Step) :
    behind l (dropJumps xs) = (behind l xs).map dropJumps := by
  induction xs with
  | nil => rfl
  | cons s rest ih =>
    rw [dropJumps]
    rcases dropJump_cases s (dropJumps rest) with h | ⟨k, ys, rfl, -, h⟩
    · rw [h, behind, behind, ih]
      split <;> rfl
    · rw [h, ih, behind_cons_of_ne (by simp)]

/-- **The run is the same step for step**: a jump to the next label takes one step, as the label
does. -/
theorem run_dropJumps (hn : (labels whole).Nodup) (hs : rest <:+ whole) :
    run σ (dropJumps whole) n p (dropJumps rest) = run σ whole n p rest := by
  induction n generalizing p rest with
  | zero => simp
  | succ n ih =>
    cases rest with
    | nil => rfl
    | cons s rest =>
      have ih' {p : Word × Word} := ih (p := p) (suffix_tail hs)
      rw [dropJumps]
      rcases dropJump_cases s (dropJumps rest) with h | ⟨l, ys, rfl, hys, h⟩
      · rw [h]
        cases s with
        | label m => exact ih'
        | compare a b => rw [run_compare, run_compare, comparisons_dropJumps, ih']
        | jump l test =>
          cases ht : test.all (·.decides p) with
          | false => rw [run_pass ht, run_pass ht, ih']
          | true =>
            have hl := behind_dropJumps l whole
            cases hb : behind l whole with
            | none =>
              rw [run_leave ht hb, run_leave ht (hl.trans (by rw [hb]; rfl))]
            | some zs =>
              rw [run_land ht hb, run_land ht (hl.trans (by rw [hb]; rfl)),
                ih (behind_suffix hb)]
      · -- the label is behind the jump in the old list too, as the only one of its name
        have hmem : l ∈ labels rest := by
          rw [← labels_dropJumps, hys]
          exact List.mem_cons_self
        have hb := behind_dropJumps l rest
        rw [hys, behind_cons_self, ← behind_of_suffix hn (suffix_tail hs) hmem] at hb
        obtain ⟨zs, hzs, rfl⟩ := Option.map_eq_some_iff.mp hb.symm
        rw [h, hys, run_label, run_land rfl hzs, ih (behind_suffix hzs)]

theorem alike_dropJumps (hn : (labels steps).Nodup) : Alike σ p (dropJumps steps) steps :=
  fun _ => exists_congr fun _ => by rw [run_dropJumps hn List.suffix_rfl]

/-! ## Jumps over jumps -/

/-- A jump is inverted over an unconditional one alone, in front of its label. -/
theorem invertJump_cases (s : Step) (rest : List Step) : invertJump s rest = s :: rest ∨
    ∃ next target ys, ∃ t : JumpTest, s = jump next (some t) ∧ target ≠ next ∧
      rest = jump target none :: label next :: ys ∧
      invertJump s rest = jump target (some { t with comparison := t.comparison.inverse }) ::
        label next :: ys := by
  unfold invertJump
  split
  next skipped t target next ys =>
    split
    next h => exact .inr ⟨next, target, ys, t, h.1 ▸ rfl, h.2, rfl, rfl⟩
    next => exact .inl rfl
  next => exact .inl rfl

theorem comparisons_invertJumps (xs : List Step) :
    comparisons (invertJumps xs) = comparisons xs := by
  induction xs with
  | nil => rfl
  | cons s rest ih =>
    rw [invertJumps]
    rcases invertJump_cases s (invertJumps rest) with h | ⟨l, k, ys, t, rfl, -, hys, h⟩
    · rw [h]
      exact comparisons_cons_congr ih
    · rw [h, comparisons_cons_jump, comparisons_cons_jump, ← ih, hys, comparisons_cons_jump]

theorem behind_invertJumps (l : Label) (xs : List Step) :
    behind l (invertJumps xs) = (behind l xs).map invertJumps := by
  induction xs with
  | nil => rfl
  | cons s rest ih =>
    rw [invertJumps]
    rcases invertJump_cases s (invertJumps rest) with h | ⟨next, k, ys, t, rfl, -, hys, h⟩
    · rw [h, behind, behind, ih]
      split <;> rfl
    · rw [hys, behind_cons_of_ne (by simp)] at ih
      rw [h, behind_cons_of_ne (by simp), ih, behind_cons_of_ne (by simp)]

/-- Where the jump over a jump goes: behind the label that is ahead. -/
theorem behind_inverted (hn : (labels whole).Nodup) (hs : rest <:+ whole)
    (h : invertJumps rest = jump m none :: label l :: ys) :
    ∃ zs, behind l whole = some zs ∧ invertJumps zs = ys := by
  have hmem : l ∈ labels rest := by
    rw [← labels_invertJumps, h]
    exact List.mem_cons_self
  have hb := behind_invertJumps l rest
  rw [h, behind_cons_of_ne (by simp), behind_cons_self, ← behind_of_suffix hn hs hmem] at hb
  obtain ⟨zs, hzs, rfl⟩ := Option.map_eq_some_iff.mp hb.symm
  exact ⟨zs, hzs, rfl⟩

theorem mimics_invertJumps (hn : (labels whole).Nodup) (hs : rest <:+ whole) :
    Mimics σ (invertJumps whole) whole n (invertJumps rest) rest := by
  induction n generalizing rest with
  | zero => exact .zero
  | succ n ih =>
    cases rest with
    | nil => exact .nil
    | cons s rest =>
      have hrest := suffix_tail hs
      rw [invertJumps]
      rcases invertJump_cases s (invertJumps rest) with h | ⟨next, target, ys, t, rfl, -, hys, h⟩
      · rw [h]
        exact (ih hrest).cons (comparisons_invertJumps rest) fun l _ =>
          rel_behind (behind_invertJumps l whole) fun zs => ih
      · intro p
        rw [h]
        have hinv := t.decides_inverse p
        cases ht : t.decides p with
        | true =>
          obtain ⟨zs, hzs, rfl⟩ := behind_inverted hn hrest hys
          obtain ⟨k, hk⟩ := ih (behind_suffix hzs) p
          refine ⟨k + 2, ?_⟩
          rw [run_land (t := some t) ht hzs, run_pass (by simpa [ht] using hinv), run_label, hk]
        | false =>
          obtain ⟨k, hk⟩ := ih hrest p
          rw [run_pass (t := some t) ht]
          cases k with
          | zero => exact ⟨0, by rw [← hk, run_zero, run_zero]⟩
          | succ k =>
            refine ⟨k + 1, ?_⟩
            rw [← hk, hys]
            exact run_taken (by simpa [ht] using hinv) rfl

theorem invertJumps_mimics (hn : (labels whole).Nodup) (hs : rest <:+ whole) :
    Mimics σ whole (invertJumps whole) n rest (invertJumps rest) := by
  induction n using Nat.strongRecOn generalizing rest with
  | _ n ih =>
    cases n with
    | zero => exact .zero
    | succ n =>
      -- an inverted jump that is taken stands for two jumps, the second one of them in the rest
      induction rest with
      | nil => exact .nil
      | cons s rest ihrest =>
        have hrest := suffix_tail hs
        rw [invertJumps]
        rcases invertJump_cases s (invertJumps rest) with h | ⟨next, target, ys, t, rfl, -, hys, h⟩
        · rw [h]
          exact (ih n n.lt_succ_self hrest).cons (comparisons_invertJumps rest).symm fun l _ =>
            rel_behind_symm (behind_invertJumps l whole) fun zs => ih n n.lt_succ_self
        · intro p
          rw [h]
          have hinv := t.decides_inverse p
          cases ht : t.decides p with
          | true =>
            rw [run_pass (by simpa [ht] using hinv)]
            cases n with
            | zero => exact ⟨0, by simp⟩
            | succ n =>
              obtain ⟨zs, hzs, rfl⟩ := behind_inverted hn hrest hys
              obtain ⟨k, hk⟩ := ih n (by omega) (behind_suffix hzs) p
              exact ⟨k + 1, by rw [run_land (t := some t) ht hzs, run_label, hk]⟩
          | false =>
            obtain ⟨k, hk⟩ := ihrest hrest p
            refine ⟨k + 1, ?_⟩
            rw [run_pass (t := some t) ht, hk, hys]
            exact run_taken rfl (by simpa [ht] using hinv)

theorem alike_invertJumps (hn : (labels steps).Nodup) :
    Alike σ p (invertJumps steps) steps := by
  intro o
  constructor
  · rintro ⟨n, rfl⟩
    exact invertJumps_mimics hn List.suffix_rfl p
  · rintro ⟨n, rfl⟩
    exact mimics_invertJumps hn List.suffix_rfl p

/-! ## Labels without jumps -/

section Filter

variable {keep : Step → Bool} (hk : ∀ s, s.label? = none → keep s = true)

include hk

theorem filter_label_or (s : Step) (rest : List Step) :
    (s :: rest).filter keep = s :: rest.filter keep ∨
      ∃ l, s = label l ∧ keep (label l) = false ∧ (s :: rest).filter keep = rest.filter keep := by
  cases hs : keep s with
  | true => exact .inl (List.filter_cons_of_pos hs)
  | false =>
    cases s with
    | label l => exact .inr ⟨l, rfl, hs, List.filter_cons_of_neg (by simp [hs])⟩
    | compare | jump => exact absurd (hk _ rfl) (hs ▸ Bool.false_ne_true)

theorem comparisons_filter (xs : List Step) :
    comparisons (xs.filter keep) = comparisons xs := by
  induction xs with
  | nil => rfl
  | cons s rest ih =>
    rcases filter_label_or hk s rest with h | ⟨l, rfl, -, h⟩
    · rw [h]
      exact comparisons_cons_congr ih
    · rw [h, ih, comparisons_cons_label]

theorem behind_filter (hl : keep (label l) = true) (xs : List Step) :
    behind l (xs.filter keep) = (behind l xs).map (List.filter keep) := by
  induction xs with
  | nil => rfl
  | cons s rest ih =>
    rcases filter_label_or hk s rest with h | ⟨m, rfl, hm, h⟩
    · rw [h, behind, behind, ih]
      split <;> rfl
    · have hne : label m ≠ label l := fun he => by simp [he, hl] at hm
      rw [h, ih, behind_cons_of_ne hne]

variable (ht : ∀ l ∈ targets whole, keep (label l) = true)

include ht

theorem mimics_filter (hs : rest <:+ whole) :
    Mimics σ (whole.filter keep) whole n (rest.filter keep) rest := by
  induction n generalizing rest with
  | zero => exact .zero
  | succ n ih =>
    cases rest with
    | nil => exact .nil
    | cons s rest =>
      have hrest := suffix_tail hs
      rcases filter_label_or hk s rest with h | ⟨l, rfl, -, h⟩
      · rw [h]
        exact (ih hrest).cons (comparisons_filter hk rest) fun l hl =>
          rel_behind (behind_filter hk (ht l (mem_targets hs hl)) whole) fun zs => ih
      · rw [h]
        exact ih hrest

theorem filter_mimics (hs : rest <:+ whole) :
    Mimics σ whole (whole.filter keep) n rest (rest.filter keep) := by
  induction n generalizing rest with
  | zero => exact .zero
  | succ n ih =>
    -- the labels that are gone are passed first
    induction rest with
    | nil => exact .nil
    | cons s rest ihrest =>
      have hrest := suffix_tail hs
      rcases filter_label_or hk s rest with h | ⟨l, rfl, -, h⟩
      · rw [h]
        exact (ih hrest).cons (comparisons_filter hk rest).symm fun l hl =>
          rel_behind_symm (behind_filter hk (ht l (mem_targets hs hl)) whole) fun zs => ih
      · intro p
        obtain ⟨k, hrun⟩ := ihrest hrest p
        exact ⟨k + 1, by rw [run_label, h, hrun]⟩

end Filter

theorem dropLabels_eq_filter (steps : List Step) : ∃ keep : Step → Bool,
    dropLabels steps = steps.filter keep ∧ (∀ s, s.label? = none → keep s = true) ∧
      ∀ l ∈ targets steps, keep (label l) = true := by
  refine ⟨_, rfl, fun s hs => ?_, fun l hl => by simpa [targets] using hl⟩
  cases s with
  | label l => cases hs
  | compare | jump => rfl

theorem alike_dropLabels : Alike σ p (dropLabels steps) steps := by
  obtain ⟨keep, hkeep, hk, ht⟩ := dropLabels_eq_filter steps
  rw [hkeep]
  intro o
  constructor
  · rintro ⟨n, rfl⟩
    exact filter_mimics hk ht List.suffix_rfl p
  · rintro ⟨n, rfl⟩
    exact mimics_filter hk ht List.suffix_rfl p

/-! ## Simplification -/

theorem alike_simplify (hn : (labels steps).Nodup) : Alike σ p (simplify steps) steps := by
  refine (simplify_induct (P := fun xs => (labels xs).Nodup ∧ Alike σ p xs steps) ?_ ?_ ?_
    ⟨hn, .refl⟩).2
  · exact fun xs h => ⟨(labels_dropJumps xs).symm ▸ h.1, (alike_dropJumps h.1).trans h.2⟩
  · exact fun xs h => ⟨(labels_invertJumps xs).symm ▸ h.1, (alike_invertJumps h.1).trans h.2⟩
  · exact fun xs h => ⟨h.1.sublist ((dropLabels_sublist xs).filterMap _),
      alike_dropLabels.trans h.2⟩

/-- **Simplification changes nothing that is seen of a run**, if each label is defined once. From
any words that were compared last, and whatever words each of the comparisons compares, the same
comparisons are made; the run ends at the same label or behind the steps, or it never ends. -/
theorem simplify_conduct (hn : (labels steps).Nodup) (σ : Outcomes) (p : Word × Word) :
    (∀ cs e, Ends σ p (simplify steps) cs e ↔ Ends σ p steps cs e) ∧
      (Diverges σ p (simplify steps) ↔ Diverges σ p steps) ∧
      ∀ cs, Compares σ p (simplify steps) cs ↔ Compares σ p steps cs :=
  have h := alike_simplify hn
  ⟨fun _ _ => h.ends, h.diverges, fun _ => h.compares⟩

/-- A loop is left by an inverted jump, out of the middle: its labels but for the first are gone. -/
theorem simplify_conduct_loop :
    (labels [label 0, compare 5 3, jump 1 (some ⟨.less, true⟩), jump 2 none, label 1, jump 0 none,
        label 3]).Nodup ∧
      Ends (fun _ a b => (.ofNat a, .ofNat b)) (0, 0) (simplify [label 0, compare 5 3,
        jump 1 (some ⟨.less, true⟩), jump 2 none, label 1, jump 0 none, label 3])
        [(5, 3)] (.left 2) :=
  ⟨by decide, ((simplify_conduct (by decide) _ _).1 _ _).mpr ⟨9, by decide⟩⟩

example : simplify [label 0, compare 5 3, jump 1 (some ⟨.less, true⟩), jump 2 none, label 1,
      jump 0 none, label 3] =
    [label 0, compare 5 3, jump 2 (some ⟨.greaterOrEqual, true⟩), jump 0 none] := by
  cbv

end Codegen.Step
