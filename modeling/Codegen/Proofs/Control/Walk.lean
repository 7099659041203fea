import Mathlib.Data.List.Basic
import Mathlib.Logic.Function.Iterate
import Codegen.Instruction.Basic
import Codegen.Proofs.Machine.Basic

/-!
# Walks through a stream of instructions

A walk follows the stream from one instruction to the next, from a jump to its label, and up to a
return. What it does is the sequence of comparisons, calls, stores and returns that it comes to,
with their operands. The words that are compared are not known; an oracle tells the pair of them for
each comparison.

* `JumpTest.decides`: the outcome of a test of two words;
* `Oracle`, `isTaken`: the pairs that are compared, and the jumps that are taken;
* `Walk.step`: **one step of a walk**;
* `Reaches`: a number of steps from one instruction to another;
* `walk_history`, `not_reaches_end`: whole walks.
-/

namespace Codegen

/-! ## Tests -/

/-- Does a test hold of two words? -/
def JumpTest.decides (t : JumpTest) (p : Word × Word) : Bool :=
  if t.signed then t.comparison.holds p.1 p.2 else t.comparison.holdsUnsigned p.1 p.2

theorem Comparison.holds_inverse (c : Comparison) (a b : Word) :
    c.inverse.holds a b = !c.holds a b := by
  cases c <;> simp [inverse, holds, bne, ← decide_not, Int64.not_le, Int64.not_lt]

theorem Comparison.holdsUnsigned_inverse (c : Comparison) (a b : Word) :
    c.inverse.holdsUnsigned a b = !c.holdsUnsigned a b := by
  cases c <;> simp [inverse, holdsUnsigned, bne, ← decide_not, UInt64.not_le, UInt64.not_lt]

theorem JumpTest.decides_inverse (t : JumpTest) (p : Word × Word) :
    JumpTest.decides { t with comparison := t.comparison.inverse } p = !t.decides p := by
  unfold decides
  split
  · exact Comparison.holds_inverse ..
  · exact Comparison.holdsUnsigned_inverse ..

/-- The ordered pair of words that is compared at each comparison of a run. -/
abbrev Oracle := Nat → Word × Word

/-- The words that were compared last, after a number of comparisons. -/
def Oracle.last (o : Oracle) : Nat → Word × Word
  | 0 => (0, 0)
  | n + 1 => o n

/-- Is a jump taken after a number of comparisons? One without a test always is. -/
def isTaken (o : Oracle) (n : Nat) (test : Option JumpTest) : Bool :=
  test.all fun t => t.decides (o.last n)

/-! ## Instructions -/

namespace InstructionKind

/-- Is an instruction a comparison? -/
def isCompare : InstructionKind → Bool
  | compare .. => true
  | _ => false

/-- Is an instruction something that the function does: a comparison, a call, a store or a
return? -/
def isEvent : InstructionKind → Bool
  | compare .. | call .. | move .. | ret .. => true
  | _ => false

/-- Is an instruction no event and no jump? -/
def isSilent : InstructionKind → Bool
  | jump .. => false
  | k => !k.isEvent

end InstructionKind

/-- The number of comparisons among instructions. -/
def comparisons (h : List InstructionKind) : Nat := h.countP (·.isCompare)

/-! ## Steps -/

/-- Where a walk stands: in front of an instruction, behind a return, or nowhere. -/
inductive Stand
  | front (i : Nat)
  | returned
  | lost
deriving DecidableEq

/-- A walk: where it stands, and the events on it, the last one first. -/
structure Walk where
  stand : Stand
  history : List InstructionKind

/-- Where a jump to a label lands. -/
def landing (ks : List InstructionKind) (l : Label) : Nat := ks.idxOf (.label l)

/-- **One step of a walk.** -/
def Walk.step (o : Oracle) (ks : List InstructionKind) (w : Walk) : Walk :=
  match w.stand with
  | .front i =>
    match ks[i]? with
    | none => ⟨.lost, w.history⟩
    | some (.jump l test) =>
      if isTaken o (comparisons w.history) test then
        ⟨if .label l ∈ ks then .front (landing ks l) else .lost, w.history⟩
      else ⟨.front (i + 1), w.history⟩
    | some (.ret value) => ⟨.returned, .ret value :: w.history⟩
    | some k => ⟨.front (i + 1), if k.isEvent then k :: w.history else w.history⟩
  | _ => w

/-- The walk from the first instruction, after some steps. -/
def walk (o : Oracle) (ks : List InstructionKind) (k : Nat) : Walk :=
  (Walk.step o ks)^[k] ⟨.front 0, []⟩

variable {o : Oracle} {ks h h' h'' : List InstructionKind} {i j k m : Nat}

/-- The walk gets from one instruction to another in that many steps. -/
def Reaches (o : Oracle) (ks : List InstructionKind) (k i : Nat) (h : List InstructionKind)
    (j : Nat) (h' : List InstructionKind) : Prop :=
  (Walk.step o ks)^[k] ⟨.front i, h⟩ = ⟨.front j, h'⟩

/-- From an instruction the walk gets to a return in that many steps. -/
def Returns (o : Oracle) (ks : List InstructionKind) (k i : Nat)
    (h h' : List InstructionKind) : Prop :=
  (Walk.step o ks)^[k] ⟨.front i, h⟩ = ⟨.returned, h'⟩

theorem Reaches.refl : Reaches o ks 0 i h i h := rfl

theorem Reaches.trans (h₁ : Reaches o ks k i h j h') {j' : Nat} (h₂ : Reaches o ks m j h' j' h'') :
    Reaches o ks (m + k) i h j' h'' := by
  unfold Reaches at h₁ h₂ ⊢
  rw [Function.iterate_add_apply, h₁, h₂]

theorem Reaches.returns (h₁ : Reaches o ks k i h j h') (h₂ : Returns o ks m j h' h'') :
    Returns o ks (m + k) i h h'' := by
  unfold Reaches Returns at *
  rw [Function.iterate_add_apply, h₁, h₂]

theorem reaches_silent {kind : InstructionKind} (hk : ks[i]? = some kind)
    (hs : kind.isSilent = true) : Reaches o ks 1 i h (i + 1) h := by
  simp only [Reaches, Function.iterate_one, Walk.step, hk]
  cases kind <;> simp_all [InstructionKind.isSilent, InstructionKind.isEvent]

theorem reaches_event {kind : InstructionKind} (hk : ks[i]? = some kind)
    (he : kind.isEvent = true) (hr : ∀ value, kind ≠ .ret value) :
    Reaches o ks 1 i h (i + 1) (kind :: h) := by
  simp only [Reaches, Function.iterate_one, Walk.step, hk]
  cases kind <;> simp_all [InstructionKind.isEvent]

theorem returns_ret {value : Option ValueId} (hk : ks[i]? = some (.ret value)) :
    Returns o ks 1 i h (.ret value :: h) := by
  simp [Returns, Walk.step, hk]

theorem reaches_next {l : Label} {test : Option JumpTest} (hk : ks[i]? = some (.jump l test))
    (ht : isTaken o (comparisons h) test = false) : Reaches o ks 1 i h (i + 1) h := by
  simp [Reaches, Walk.step, hk, ht]

/-! ## Labels -/

/-- A stream in which labels are unique and jumps have theirs. -/
structure Labelled (ks : List InstructionKind) : Prop where
  unique : ∀ l, ks.count (.label l) ≤ 1
  defined : ∀ l test, .jump l test ∈ ks → .label l ∈ ks

theorem Labelled.landing_eq (hks : Labelled ks) {l : Label} (hl : ks[i]? = some (.label l)) :
    landing ks l = i := by
  obtain ⟨hi, hl⟩ := List.getElem?_eq_some_iff.mp hl
  have hsplit : ks = ks.take i ++ .label l :: ks.drop (i + 1) := by
    rw [← hl, ← List.drop_eq_getElem_cons hi, List.take_append_drop]
  have hnot : .label l ∉ ks.take i := by
    have hc := hks.unique l
    rw [hsplit, List.count_append, List.count_cons_self] at hc
    exact List.count_eq_zero.mp (by omega)
  rw [landing, hsplit, List.idxOf_append_of_notMem hnot, List.idxOf_cons_self, List.length_take]
  omega

theorem Labelled.reaches_landing (hks : Labelled ks) {l : Label} {test : Option JumpTest}
    (hk : ks[i]? = some (.jump l test)) (ht : isTaken o (comparisons h) test = true) :
    Reaches o ks 1 i h (landing ks l) h := by
  have hl := hks.defined l test (List.mem_of_getElem? hk)
  simp [Reaches, Walk.step, hk, ht, hl]

/-! ## Whole walks -/

theorem Walk.step_eq_self {w : Walk} (hw : ∀ i, w.stand ≠ .front i) : w.step o ks = w := by
  unfold step
  split
  next i hi => exact absurd hi (hw i)
  next => rfl

theorem Walk.history_step (w : Walk) : w.history <:+ (w.step o ks).history := by
  unfold step
  split
  · split
    · exact List.suffix_rfl
    · split <;> exact List.suffix_rfl
    · exact List.suffix_cons _ _
    · dsimp only
      split
      · exact List.suffix_cons _ _
      · exact List.suffix_rfl
  · exact List.suffix_rfl

theorem walk_add (d k : Nat) : walk o ks (d + k) = (Walk.step o ks)^[d] (walk o ks k) :=
  Function.iterate_add_apply ..

theorem walk_eq_of_le (hw : ∀ i, (walk o ks k).stand ≠ .front i) (hk : k ≤ m) :
    walk o ks m = walk o ks k := by
  obtain ⟨d, rfl⟩ := Nat.exists_eq_add_of_le' hk
  rw [walk_add]
  exact Function.iterate_fixed (Walk.step_eq_self hw) d

theorem walk_history (hk : k ≤ m) : (walk o ks k).history <:+ (walk o ks m).history := by
  obtain ⟨d, rfl⟩ := Nat.exists_eq_add_of_le' hk
  rw [walk_add]
  induction d with
  | zero => exact List.suffix_rfl
  | succ d ih =>
    rw [Function.iterate_succ_apply']
    exact (ih (Nat.le_add_left k d)).trans (Walk.history_step _)

theorem Walk.step_ne_end {value : Option ValueId} {w : Walk}
    (hlast : ks.getLast? = some (.ret value)) (hw : w.stand ≠ .front ks.length) :
    (w.step o ks).stand ≠ .front ks.length := by
  have next {i : Nat} {kind : InstructionKind} (hk : ks[i]? = some kind)
      (hr : ∀ value, kind ≠ .ret value) : Stand.front (i + 1) ≠ .front ks.length := by
    intro he
    rw [List.getLast?_eq_getElem?, ← Stand.front.inj he, Nat.add_sub_cancel, hk] at hlast
    exact hr value (by simpa using hlast)
  unfold step
  split
  next i hi =>
    split
    next => simp
    next l test hk =>
      split
      · split
        next hm =>
          have hlt := List.idxOf_lt_length_of_mem hm
          simpa [landing] using Nat.ne_of_lt hlt
        next => simp
      · exact next hk (by simp)
    next => simp
    next kind _ hr hk => exact next hk hr
  next => exact hw

theorem not_reaches_end {value : Option ValueId} (hlast : ks.getLast? = some (.ret value)) :
    ¬ Reaches o ks k 0 [] ks.length h := by
  have hne : (walk o ks k).stand ≠ .front ks.length := by
    induction k with
    | zero =>
      have hpos : ks ≠ [] := by
        rintro rfl
        simp at hlast
      simpa [walk, eq_comm] using hpos
    | succ k ih =>
      rw [walk, Function.iterate_succ_apply']
      exact Walk.step_ne_end hlast ih
  exact fun h => hne (congrArg Walk.stand h)

end Codegen
