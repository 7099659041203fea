import Codegen.Proofs.Control.Walk
import Codegen.Proofs.Instruction.Jump

/-!
# Runs of condition steps

Steps run from the first one. A jump that is taken leads to its label, wherever this stands among
the steps, or out of them if they do not define it. So a run ends at a label outside or behind the
last step, or it goes on forever.

* `Step.run`: **a number of steps of a run**, the comparisons that it makes and how it ends;
* `Step.Ends`, `Diverges`, `Compares`: what is seen of a whole run;
* `Step.Alike`: **lists of steps whose runs look the same**;
* `Step.behind_append`, `behind_suffix`: where a jump lands.
-/

namespace Codegen

namespace Step

/-- The nodes whose values a step compares. -/
def compared? : Step → Option (NodeId × NodeId)
  | compare a b => some (a, b)
  | _ => none

/-- The comparisons of steps, in order. -/
def comparisons (steps : List Step) : List (NodeId × NodeId) := steps.filterMap compared?

/-- The steps behind a label. -/
def behind (l : Label) : List Step → Option (List Step)
  | [] => none
  | s :: rest => if s = label l then some rest else behind l rest

/-- How a run ends. -/
inductive Exit
  /-- At a label that is not among the steps. -/
  | left (label : Label)
  /-- Behind the last step. -/
  | fell
deriving DecidableEq

/-- The words that a comparison of two nodes compares, by the number of comparisons that stand
behind it among the steps. -/
abbrev Outcomes := Nat → NodeId → NodeId → Word × Word

/-- **What is seen of that many steps of a run**: the comparisons that it makes, and how it ends if
it does. The words are those that were compared last; they decide which jumps are taken. -/
def run (σ : Outcomes) (whole : List Step) :
    Nat → Word × Word → List Step → List (NodeId × NodeId) × Option Exit
  | 0, _, _ => ([], none)
  | _ + 1, _, [] => ([], some .fell)
  | n + 1, p, label _ :: rest => run σ whole n p rest
  | n + 1, _, compare a b :: rest =>
    (run σ whole n (σ (comparisons rest).length a b) rest).map ((a, b) :: ·) id
  | n + 1, p, jump l test :: rest =>
    if test.all (·.decides p) then
      match behind l whole with
      | some rest => run σ whole n p rest
      | none => ([], some (.left l))
    else run σ whole n p rest

/-! ## Whole runs -/

section

variable (σ : Outcomes) (p : Word × Word) (xs ys : List Step)

/-- The run makes these comparisons and ends there. -/
def Ends (cs : List (NodeId × NodeId)) (e : Exit) : Prop :=
  ∃ n, run σ xs n p xs = (cs, some e)

/-- The run goes on forever. -/
def Diverges : Prop := ∀ n, (run σ xs n p xs).2 = none

/-- The run begins with these comparisons. -/
def Compares (cs : List (NodeId × NodeId)) : Prop := ∃ n, (run σ xs n p xs).1 = cs

/-- What is seen of runs at some time or other is the same. -/
def Alike : Prop := ∀ o, (∃ n, run σ xs n p xs = o) ↔ ∃ n, run σ ys n p ys = o

end

variable {σ : Outcomes} {p : Word × Word} {xs ys zs whole rest : List Step} {l m : Label} {n : Nat}
variable {a b : NodeId} {t : Option JumpTest} {s : Step}

namespace Alike

theorem refl : Alike σ p xs xs := fun _ => .rfl

theorem trans (h : Alike σ p xs ys) (h' : Alike σ p ys zs) : Alike σ p xs zs := fun o =>
  (h o).trans (h' o)

theorem ends (h : Alike σ p xs ys) {cs : List (NodeId × NodeId)} {e : Exit} :
    Ends σ p xs cs e ↔ Ends σ p ys cs e := h _

theorem diverges (h : Alike σ p xs ys) : Diverges σ p xs ↔ Diverges σ p ys := by
  have transfer {xs ys : List Step} (h : Alike σ p xs ys) (hx : Diverges σ p xs) :
      Diverges σ p ys := fun n => by
    obtain ⟨m, hm⟩ := (h _).mpr ⟨n, rfl⟩
    exact hm ▸ hx m
  exact ⟨transfer h, transfer fun o => (h o).symm⟩

theorem compares (h : Alike σ p xs ys) {cs : List (NodeId × NodeId)} :
    Compares σ p xs cs ↔ Compares σ p ys cs := by
  have transfer {xs ys : List Step} (h : Alike σ p xs ys) : Compares σ p xs cs →
      Compares σ p ys cs := by
    rintro ⟨n, rfl⟩
    obtain ⟨m, hm⟩ := (h _).mp ⟨n, rfl⟩
    exact ⟨m, by rw [hm]⟩
  exact ⟨transfer h, transfer fun o => (h o).symm⟩

end Alike

/-! ## Single steps -/

@[simp] theorem run_zero : run σ whole 0 p rest = ([], none) := by rw [run]

theorem run_nil : run σ whole (n + 1) p [] = ([], some .fell) := rfl

theorem run_label : run σ whole (n + 1) p (label l :: rest) = run σ whole n p rest := rfl

theorem run_compare : run σ whole (n + 1) p (compare a b :: rest) =
    (run σ whole n (σ (comparisons rest).length a b) rest).map ((a, b) :: ·) id := rfl

theorem run_pass (ht : t.all (·.decides p) = false) :
    run σ whole (n + 1) p (jump l t :: rest) = run σ whole n p rest := by
  rw [run, ht]
  rfl

theorem run_land (ht : t.all (·.decides p) = true) {ys : List Step}
    (hl : behind l whole = some ys) :
    run σ whole (n + 1) p (jump l t :: rest) = run σ whole n p ys := by
  rw [run, if_pos ht, hl]

theorem run_leave (ht : t.all (·.decides p) = true) (hl : behind l whole = none) :
    run σ whole (n + 1) p (jump l t :: rest) = ([], some (.left l)) := by
  rw [run, if_pos ht, hl]

theorem run_taken {t' : Option JumpTest} {ys : List Step} (ht : t.all (·.decides p) = true)
    (ht' : t'.all (·.decides p) = true) :
    run σ whole n p (jump l t :: xs) = run σ whole n p (jump l t' :: ys) := by
  cases n with
  | zero => simp
  | succ n => rw [run, run, if_pos ht, if_pos ht']

/-! ## Comparisons and landings -/

@[simp] theorem comparisons_append :
    comparisons (xs ++ ys) = comparisons xs ++ comparisons ys := List.filterMap_append

@[simp] theorem comparisons_cons_label : comparisons (label l :: rest) = comparisons rest := rfl

@[simp] theorem comparisons_cons_jump : comparisons (jump l t :: rest) = comparisons rest := rfl

@[simp] theorem comparisons_cons_compare :
    comparisons (compare a b :: rest) = (a, b) :: comparisons rest := rfl

theorem behind_cons_self : behind l (label l :: rest) = some rest := if_pos rfl

theorem behind_cons_of_ne (h : s ≠ label l) : behind l (s :: rest) = behind l rest := if_neg h

theorem behind_eq_none (h : l ∉ labels xs) : behind l xs = none := by
  induction xs with
  | nil => rfl
  | cons s xs ih =>
    have hs : s ≠ label l := fun hs => h (hs ▸ List.mem_cons_self)
    rw [behind_cons_of_ne hs]
    exact ih fun hl => h (by cases s <;> simp [hl])

theorem behind_append (h : l ∉ labels xs) : behind l (xs ++ ys) = behind l ys := by
  induction xs with
  | nil => rfl
  | cons s xs ih =>
    have hs : s ≠ label l := fun hs => h (hs ▸ List.mem_cons_self)
    rw [List.cons_append, behind_cons_of_ne hs]
    exact ih fun hl => h (by cases s <;> simp [hl])

theorem behind_suffix (h : behind l whole = some ys) : ys <:+ whole := by
  induction whole with
  | nil => cases h
  | cons s whole ih =>
    rw [behind] at h
    split at h
    · cases h
      exact List.suffix_cons _ _
    · exact (ih h).trans (List.suffix_cons _ _)

theorem behind_of_suffix (hn : (labels whole).Nodup) (hs : rest <:+ whole) (hl : l ∈ labels rest) :
    behind l whole = behind l rest := by
  obtain ⟨ahead, rfl⟩ := hs
  rw [labels_append] at hn
  exact behind_append fun ha => (List.nodup_append.mp hn).2.2 l ha l hl rfl

end Step

end Codegen
