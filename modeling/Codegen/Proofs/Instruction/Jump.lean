import Codegen.Instruction.Jump

/-!
# Labels and targets of simplified conditions

The rules that simplify the steps of a condition take out labels only where no step jumps to them,
and add no targets.

* `Step.labels`, `Step.targets`: the labels that steps define and jump to;
* `Step.simplify_induct`: what each rule keeps, simplification keeps;
* `Step.labels_simplify`, `targets_simplify`: **labels and targets only get fewer**;
* `Step.Closed`, `closed_simplify`: **a target that had its label keeps it**.
-/

namespace Codegen.Step

/-- The label that a step defines. -/
def label? : Step → Option Label
  | label l => some l
  | _ => none

/-- The labels that steps define. -/
def labels (steps : List Step) : List Label := steps.filterMap label?

/-- The labels that steps jump to. -/
def targets (steps : List Step) : List Label := steps.filterMap target?

variable {s : Step} {steps rest xs : List Step} {l : Label}

@[simp] theorem labels_append (xs ys : List Step) : labels (xs ++ ys) = labels xs ++ labels ys :=
  List.filterMap_append

@[simp] theorem targets_append (xs ys : List Step) :
    targets (xs ++ ys) = targets xs ++ targets ys :=
  List.filterMap_append

@[simp] theorem labels_nil : labels [] = [] := rfl

@[simp] theorem targets_nil : targets [] = [] := rfl

@[simp] theorem labels_cons_label : labels (label l :: rest) = l :: labels rest := rfl

@[simp] theorem labels_cons_jump {t : Option JumpTest} : labels (jump l t :: rest) = labels rest :=
  rfl

@[simp] theorem labels_cons_compare {m n : NodeId} :
    labels (compare m n :: rest) = labels rest := rfl

@[simp] theorem targets_cons_label : targets (label l :: rest) = targets rest := rfl

@[simp] theorem targets_cons_jump {t : Option JumpTest} :
    targets (jump l t :: rest) = l :: targets rest := rfl

@[simp] theorem targets_cons_compare {m n : NodeId} :
    targets (compare m n :: rest) = targets rest := rfl

theorem mem_labels : l ∈ labels xs ↔ label l ∈ xs := by
  constructor
  · intro h
    obtain ⟨s, hs, hl⟩ := List.mem_filterMap.mp h
    cases s <;> simp_all [label?]
  · intro h
    exact List.mem_filterMap.mpr ⟨_, h, rfl⟩

theorem simplify_induct {P : List Step → Prop} (hj : ∀ xs, P xs → P (dropJumps xs))
    (hi : ∀ xs, P xs → P (invertJumps xs)) (hl : ∀ xs, P xs → P (dropLabels xs)) (h : P xs) :
    P (simplify xs) := by
  induction xs using simplify.induct with
  | case1 xs next hlt ih =>
    rw [simplify, if_pos hlt]
    exact ih (hl _ (hi _ (hj _ h)))
  | case2 xs next hge =>
    rw [simplify, if_neg hge]
    exact hl _ (hi _ (hj _ h))

/-! ## Each rule -/

theorem labels_dropJump (s : Step) (rest : List Step) :
    labels (dropJump s rest) = labels (s :: rest) := by
  unfold dropJump
  split
  · split <;> simp
  · rfl

theorem targets_dropJump (s : Step) (rest : List Step) :
    (targets (dropJump s rest)).Sublist (targets (s :: rest)) := by
  unfold dropJump
  split
  · split <;> simp
  · exact .refl _

theorem labels_dropJumps (xs : List Step) : labels (dropJumps xs) = labels xs := by
  induction xs with
  | nil => rfl
  | cons s rest ih =>
    rw [dropJumps, labels_dropJump]
    cases s <;> simp [ih]

theorem targets_dropJumps (xs : List Step) : targets (dropJumps xs) ⊆ targets xs := by
  induction xs with
  | nil => simp [dropJumps]
  | cons s rest ih =>
    rw [dropJumps]
    refine List.Subset.trans (targets_dropJump s _).subset ?_
    cases s with
    | jump l t => exact List.cons_subset_cons l ih
    | compare | label => exact ih

theorem labels_invertJump (s : Step) (rest : List Step) :
    labels (invertJump s rest) = labels (s :: rest) := by
  unfold invertJump
  split
  · split <;> simp
  · rfl

theorem targets_invertJump (s : Step) (rest : List Step) :
    targets (invertJump s rest) ⊆ targets (s :: rest) := by
  unfold invertJump
  split
  · split <;> simp
  · exact fun _ => id

theorem labels_invertJumps (xs : List Step) : labels (invertJumps xs) = labels xs := by
  induction xs with
  | nil => rfl
  | cons s rest ih =>
    rw [invertJumps, labels_invertJump]
    cases s <;> simp [ih]

theorem targets_invertJumps (xs : List Step) : targets (invertJumps xs) ⊆ targets xs := by
  induction xs with
  | nil => simp [invertJumps]
  | cons s rest ih =>
    rw [invertJumps]
    refine List.Subset.trans (targets_invertJump s _) ?_
    cases s with
    | jump l t => exact List.cons_subset_cons l ih
    | compare | label => exact ih

theorem dropLabels_sublist (xs : List Step) : (dropLabels xs).Sublist xs := List.filter_sublist

theorem mem_labels_dropLabels (hl : l ∈ labels xs) (ht : l ∈ targets xs) :
    l ∈ labels (dropLabels xs) := by
  rw [mem_labels] at hl ⊢
  refine List.mem_filter.mpr ⟨hl, ?_⟩
  simpa [targets] using ht

/-! ## Simplification -/

theorem labels_simplify (xs : List Step) : (labels (simplify xs)).Sublist (labels xs) :=
  simplify_induct (P := fun ys => (labels ys).Sublist (labels xs))
    (fun ys h => (labels_dropJumps ys).symm ▸ h) (fun ys h => (labels_invertJumps ys).symm ▸ h)
    (fun ys h => ((dropLabels_sublist ys).filterMap _).trans h) (.refl _)

theorem targets_simplify (xs : List Step) : targets (simplify xs) ⊆ targets xs :=
  simplify_induct (P := fun ys => targets ys ⊆ targets xs)
    (fun ys h => List.Subset.trans (targets_dropJumps ys) h)
    (fun ys h => List.Subset.trans (targets_invertJumps ys) h)
    (fun ys h => List.Subset.trans ((dropLabels_sublist ys).filterMap _).subset h) (fun _ => id)

theorem compare_mem_of_simplify {m n : NodeId} (h : compare m n ∈ simplify xs) :
    compare m n ∈ xs := by
  have dropJump {s rest} (h : compare m n ∈ dropJump s rest) : compare m n ∈ s :: rest := by
    unfold Step.dropJump at h
    split at h
    · split at h <;> simp_all
    · exact h
  have invertJump {s rest} (h : compare m n ∈ invertJump s rest) : compare m n ∈ s :: rest := by
    unfold Step.invertJump at h
    split at h
    · split at h <;> simp_all
    · exact h
  refine simplify_induct (P := fun ys => compare m n ∈ ys → compare m n ∈ xs) ?_ ?_ ?_ id h
  · intro ys ih h
    refine ih ?_
    clear ih
    induction ys with
    | nil => simp [dropJumps] at h
    | cons s rest ih =>
      exact (List.mem_cons.mp (dropJump h)).elim (fun h => h ▸ List.mem_cons_self)
        fun h => List.mem_cons_of_mem _ (ih h)
  · intro ys ih h
    refine ih ?_
    clear ih
    induction ys with
    | nil => simp [invertJumps] at h
    | cons s rest ih =>
      exact (List.mem_cons.mp (invertJump h)).elim (fun h => h ▸ List.mem_cons_self)
        fun h => List.mem_cons_of_mem _ (ih h)
  · exact fun ys ih h => ih ((dropLabels_sublist ys).subset h)

/-- A conditional jump away from the steps stays one: only a jump over another one is inverted. -/
theorem exists_jump_simplify (hl : l ∉ labels xs) (h : ∃ test, jump l (some test) ∈ xs) :
    ∃ test, jump l (some test) ∈ simplify xs := by
  have dropJump {s rest test} (h : jump l (some test) ∈ s :: rest) :
      jump l (some test) ∈ dropJump s rest := by
    unfold Step.dropJump
    split
    · split <;> simp_all
    · exact h
  have invertJump {s rest} (hl : l ∉ labels rest) (h : ∃ test, jump l (some test) ∈ s :: rest) :
      ∃ test, jump l (some test) ∈ invertJump s rest := by
    unfold Step.invertJump
    split
    · split <;> grind [labels_cons_jump, labels_cons_label]
    · exact h
  refine (simplify_induct (P := fun ys => l ∉ labels ys ∧ ∃ test, jump l (some test) ∈ ys)
    ?_ ?_ ?_ ⟨hl, h⟩).2
  · rintro ys ⟨hl, test, h⟩
    refine ⟨by rwa [labels_dropJumps], test, ?_⟩
    clear hl
    induction ys with
    | nil => simp at h
    | cons s rest ih =>
      rw [dropJumps]
      rcases List.mem_cons.mp h with rfl | h
      · exact dropJump List.mem_cons_self
      · exact dropJump (List.mem_cons_of_mem _ (ih h))
  · rintro ys ⟨hl, h⟩
    refine ⟨by rwa [labels_invertJumps], ?_⟩
    induction ys with
    | nil => simp at h
    | cons s rest ih =>
      have hl' : l ∉ labels rest := fun hm => hl (by cases s <;> simp [hm])
      rw [invertJumps]
      refine invertJump (by rwa [labels_invertJumps]) ?_
      obtain ⟨test, h⟩ := h
      rcases List.mem_cons.mp h with rfl | h
      · exact ⟨test, List.mem_cons_self⟩
      · exact (ih hl' ⟨test, h⟩).imp fun _ => List.mem_cons_of_mem _
  · rintro ys ⟨hl, test, h⟩
    refine ⟨fun hm => hl (((dropLabels_sublist ys).filterMap label?).subset hm), test, ?_⟩
    exact List.mem_filter.mpr ⟨h, rfl⟩

/-- The steps jump only to their own labels and to some others. -/
def Closed (others : List Label) (steps : List Step) : Prop :=
  ∀ l ∈ targets steps, l ∈ labels steps ∨ l ∈ others

/-- **Simplification takes out no label that is jumped to.** -/
theorem closed_simplify {others : List Label} (h : Closed others xs) :
    Closed others (simplify xs) := by
  refine simplify_induct (P := Closed others) ?_ ?_ ?_ h
  · intro ys h l hl
    rw [labels_dropJumps]
    exact h l (targets_dropJumps ys hl)
  · intro ys h l hl
    rw [labels_invertJumps]
    exact h l (targets_invertJumps ys hl)
  · intro ys h l hl
    have ht := ((dropLabels_sublist ys).filterMap target?).subset hl
    exact (h l ht).imp_left fun hm => mem_labels_dropLabels hm ht

end Codegen.Step
