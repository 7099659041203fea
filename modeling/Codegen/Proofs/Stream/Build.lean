import Codegen.Proofs.Stream.Closed
import Codegen.Proofs.Stream.Steady
import Mathlib.Data.List.Nodup

/-!
# The build of a closed stream

A closed stream refers only to records that its instructions have made by then, and only its labels
and jumps become labels and jumps of machine code.

* `controlOf`: the labels and jumps of an instruction;
* `Skeleton.behind`: what an instruction adds to a skeleton;
* `Generating.buildInstruction_leads`: the build of one instruction;
* `Building`: **the invariant of a build**;
* `build_attains`: **what the build of a closed stream leads to**.
-/

namespace Codegen

/-! ## Labels and jumps -/

/-- The name of a label in the assembly text of a function. -/
def labelText (symbol : String) (l : Label) : String := symbol ++ s!"_L{l}"

/-- The operations of an instruction that define labels and jump to them. -/
def controlOf (symbol : String) : InstructionKind → List Operation
  | .label l => [⟨.label, [.label (labelText symbol l)]⟩]
  | .jump l (some t) => [⟨.conditionalJump t.comparison t.signed, [.label (labelText symbol l)]⟩]
  | .jump l none => [⟨.jump, [.label (labelText symbol l)]⟩]
  | _ => []

namespace Skeleton

/-- What an instruction at a position adds to a skeleton. -/
def behind (s : Skeleton) (position : Nat) (k : InstructionKind) : Skeleton :=
  match k with
  | .saveState => { s with saved := position :: s.saved }
  | .enterScope _ => { s with entered := position :: s.entered }
  | .symmetryStart .. => { s with saved := position :: s.saved, entered := position :: s.entered }
  | k => { s with current := s.current ++ controlOf s.symbol k }

/-- Does the instruction make a record? -/
def isRecord : InstructionKind → Bool
  | .saveState | .enterScope _ | .symmetryStart .. => true
  | _ => false

theorem behind_eq {s : Skeleton} {position : Nat} {k : InstructionKind} (hr : isRecord k = false)
    (hc : controlOf s.symbol k = []) : s.behind position k = s := by
  cases k <;> simp_all [behind, isRecord]

section

variable (s : Skeleton) (position : Nat) (k : InstructionKind)

@[simp] theorem behind_symbol : (s.behind position k).symbol = s.symbol := by cases k <;> rfl

@[simp] theorem behind_kinds : (s.behind position k).kinds = s.kinds := by cases k <;> rfl

@[simp] theorem behind_control : (s.behind position k).control = s.control := by cases k <;> rfl

@[simp] theorem behind_current :
    (s.behind position k).current = s.current ++ controlOf s.symbol k := by
  cases k <;> simp [behind, controlOf]

theorem subset_saved_behind : s.saved ⊆ (s.behind position k).saved := by
  cases k <;> simp [behind]

theorem subset_entered_behind : s.entered ⊆ (s.behind position k).entered := by
  cases k <;> simp [behind]

end

/-- The operations of an instruction become part of it when it is built. -/
def store (s : Skeleton) (position : Nat) : Skeleton :=
  { s with control := s.control.set position s.current, current := [] }

/-- The records that an instruction asks for were made. -/
def Provides (s : Skeleton) : InstructionKind → Prop
  | .restoreState save => save ∈ s.saved
  | .mergeScope enter _ => enter ∈ s.entered
  | .symmetryEnd start _ => start ∈ s.saved ∧ start ∈ s.entered
  | _ => True

end Skeleton

namespace Generating

variable {r : Routine} {p : Nat}

theorem emit_leads {opcode : Opcode} {operands : List Operand} (ho : opcode.isControl = true) :
    LeadsTo (emit opcode operands) r
      { r.skeleton with current := r.skeleton.current ++ [⟨opcode, operands⟩] } := by
  change Routine.skeleton _ = _
  simp [Routine.skeleton, Routine.kinds, Operation.isControl, ho]

theorem lookup_of_mem {α : Type} {xs : List (Nat × α)} (h : p ∈ xs.map (·.1)) :
    ∃ a, xs.lookup p = some a := by
  induction xs with
  | nil => simp at h
  | cons x xs ih =>
    obtain ⟨q, a⟩ := x
    rw [List.lookup_cons]
    split
    · exact ⟨a, rfl⟩
    next hne =>
      simp only [List.map_cons, List.mem_cons] at h
      exact ih (h.resolve_left fun he => by simp [he] at hne)

theorem required_leads {α β : Type} {c : Inconsistency} {xs : List (Nat × α)}
    {f : α → Generating β} (h : p ∈ xs.map (·.1)) (hf : ∀ a, SteadyAt (f a) r) :
    SteadyAt (required c (xs.lookup p) >>= f) r := by
  obtain ⟨a, ha⟩ := lookup_of_mem h
  rw [ha]
  exact hf a

theorem restoreSnapshot_leads (h : p ∈ r.skeleton.saved) : SteadyAt (restoreSnapshot p) r :=
  Steady.getAt (required_leads h fun _ => rfl)

theorem reconcile_leads {pairs : List MergePair} {survivingOnly : Bool}
    (h : p ∈ r.skeleton.entered) : SteadyAt (reconcile p pairs survivingOnly) r := by
  refine Steady.getAt (required_leads h fun entries => ?_)
  exact Steady.bind (.mapM fun _ => planReturn_steady) (fun _ => .bind parallelMove_steady fun _ =>
    .forM fun _ => settleAt_steady) r

theorem saveSnapshot_leads :
    LeadsTo (saveSnapshot p) r { r.skeleton with saved := p :: r.skeleton.saved } :=
  (rfl : Routine.skeleton _ = _)

theorem recordEntry_leads {actives : List Binding} :
    LeadsTo (recordEntry p actives) r { r.skeleton with entered := p :: r.skeleton.entered } := by
  refine Steady.bindAt (Steady.mapM (fun _ => .bind handleOf_steady fun _ => .pure) r)
    fun entries r' _ h => ?_
  rw [← h]
  exact (rfl : Routine.skeleton _ = _)

/-- **The build of one instruction** adds what is its own, if the records it asks for are there. -/
theorem buildInstruction_leads {result : ValueId} {k : InstructionKind}
    (h : r.skeleton.Provides k) :
    LeadsTo (buildInstruction p result k) r (r.skeleton.behind p k) := by
  have steady {g : Generating Unit} {k : InstructionKind} (hg : Steady g)
      (hk : r.skeleton.behind p k = r.skeleton) : LeadsTo g r (r.skeleton.behind p k) :=
    hk.symm ▸ hg r
  cases k with
  | label l => exact Steady.getAt (emit_leads rfl)
  | jump l test => cases test <;> exact Steady.getAt (emit_leads rfl)
  | saveState => exact saveSnapshot_leads
  | enterScope actives => exact recordEntry_leads
  | symmetryStart loop actives =>
    refine Steady.bindAt recordEntry_leads fun _ r' _ h' => ?_
    have hs : r.skeleton.behind p (.symmetryStart loop actives) =
        { r'.skeleton with saved := p :: r'.skeleton.saved } := by
      rw [h']
      rfl
    rw [hs]
    exact saveSnapshot_leads
  | restoreState save =>
    rw [Skeleton.behind_eq rfl rfl]
    exact restoreSnapshot_leads h
  | mergeScope enter pairs =>
    rw [Skeleton.behind_eq rfl rfl]
    exact reconcile_leads h
  | symmetryEnd start pairs =>
    rw [Skeleton.behind_eq rfl rfl]
    refine Steady.bindAt (reconcile_leads h.2) fun _ r' _ h' => ?_
    rw [← h']
    exact restoreSnapshot_leads (h'.symm ▸ h.1)
  | bindParameters parameters => exact steady buildParameters_steady (Skeleton.behind_eq rfl rfl)
  | compare left right => exact steady buildCompare_steady (Skeleton.behind_eq rfl rfl)
  | move destination source => exact steady buildMove_steady (Skeleton.behind_eq rfl rfl)
  | duplicate value => exact steady buildDuplicate_steady (Skeleton.behind_eq rfl rfl)
  | addition first second => exact steady (buildAdditive_steady rfl) (Skeleton.behind_eq rfl rfl)
  | subtraction first second =>
    exact steady (buildAdditive_steady rfl) (Skeleton.behind_eq rfl rfl)
  | multiplication first second =>
    exact steady buildMultiplication_steady (Skeleton.behind_eq rfl rfl)
  | call symbol arguments => exact steady buildCall_steady (Skeleton.behind_eq rfl rfl)
  | ret value => exact steady buildReturn_steady (Skeleton.behind_eq rfl rfl)
  | evacuate => exact steady buildEvacuate_steady (Skeleton.behind_eq rfl rfl)
  | getVariable owner value => exact steady buildRead_steady (Skeleton.behind_eq rfl rfl)
  | cacheVariables vars preserved => exact steady buildCache_steady (Skeleton.behind_eq rfl rfl)
  | getMemoryAddress | getObjectPointer | allocateStack | branch =>
    exact steady .pure (Skeleton.behind_eq rfl rfl)

end Generating

/-! ## The stream in order -/

variable {ks : List InstructionKind} {symbol : String} {s : Skeleton}

/-- **What holds behind the first instructions of a stream**: their labels and jumps are there, and
the records that they make. -/
structure Building (symbol : String) (ks : List InstructionKind) (n : Nat) (s : Skeleton) :
    Prop where
  name : s.symbol = symbol
  kinds : s.kinds = ks
  current : s.current = []
  length : s.control.length = ks.length
  control : ∀ (i : Nat) k, i < n → ks[i]? = some k → s.control[i]? = some (controlOf symbol k)
  saved : ∀ i : Nat, i < n → ks[i]? = some .saveState → i ∈ s.saved
  entered : ∀ (i : Nat) bs, i < n → ks[i]? = some (.enterScope bs) → i ∈ s.entered
  rounds : ∀ (i : Nat) loop bs, i < n → ks[i]? = some (.symmetryStart loop bs) →
    i ∈ s.saved ∧ i ∈ s.entered

theorem Building.provides {n : Nat} {k : InstructionKind} (hc : Closed ks)
    (h : Building symbol ks n s) (hk : ks[n]? = some k) : s.Provides k := by
  cases k with
  | restoreState save =>
    obtain ⟨hlt, hs⟩ := hc.saves n save hk
    exact h.saved save hlt hs
  | mergeScope enter pairs =>
    obtain ⟨hlt, bs, hs⟩ := hc.merges n enter pairs hk
    exact h.entered enter bs hlt hs
  | symmetryEnd start pairs =>
    obtain ⟨hlt, loop, bs, hs⟩ := hc.rounds n start pairs hk
    exact h.rounds start loop bs hlt hs
  | _ => trivial

theorem Building.next {n : Nat} {k : InstructionKind} (h : Building symbol ks n s)
    (hk : ks[n]? = some k) : Building symbol ks (n + 1) ((s.behind n k).store n) := by
  have hn : n < s.control.length := by
    rw [h.length]
    exact (List.getElem?_eq_some_iff.mp hk).1
  have hcases {i : Nat} (hi : i < n + 1) : i < n ∨ i = n := by omega
  constructor
  · simp [Skeleton.store, h.name]
  · simp [Skeleton.store, h.kinds]
  · rfl
  · simp [Skeleton.store, h.length]
  · intro i k' hi hk'
    simp only [Skeleton.store, Skeleton.behind_control, Skeleton.behind_current, h.current, h.name,
      List.nil_append]
    rcases hcases hi with hi | rfl
    · rw [List.getElem?_set_ne (Nat.ne_of_gt hi)]
      exact h.control i k' hi hk'
    · rw [List.getElem?_set_self hn, Option.some.inj (hk.symm.trans hk')]
  · intro i hi hi'
    rcases hcases hi with hi | rfl
    · exact s.subset_saved_behind n k (h.saved i hi hi')
    · cases Option.some.inj (hk.symm.trans hi')
      exact List.mem_cons_self
  · intro i bs hi hi'
    rcases hcases hi with hi | rfl
    · exact s.subset_entered_behind n k (h.entered i bs hi hi')
    · cases Option.some.inj (hk.symm.trans hi')
      exact List.mem_cons_self
  · intro i loop bs hi hi'
    rcases hcases hi with hi | rfl
    · obtain ⟨h₁, h₂⟩ := h.rounds i loop bs hi hi'
      exact ⟨s.subset_saved_behind n k h₁, s.subset_entered_behind n k h₂⟩
    · cases Option.some.inj (hk.symm.trans hi')
      exact ⟨List.mem_cons_self, List.mem_cons_self⟩

theorem control_modify (is : List Instruction) (n : Nat) (os : List Operation) :
    (is.modify n ({ · with operations := os })).map (fun i => i.operations.filter (·.isControl)) =
      (is.map fun i => i.operations.filter (·.isControl)).set n (os.filter (·.isControl)) := by
  refine List.ext_getElem? fun j => ?_
  simp only [List.getElem?_map, List.getElem?_modify, List.getElem?_set, List.length_map]
  by_cases hj : n = j
  · subst hj
    by_cases hn : n < is.length
    · simp [hn]
    · simp [hn]
  · simp [hj]

open Generating in
theorem buildAt_leads {n : Nat} {i : Instruction} (hc : Closed ks)
    (h : Building symbol ks n r.skeleton) (hk : ks[n]? = some i.kind) :
    LeadsTo (buildAt n i) r ((r.skeleton.behind n i.kind).store n) := by
  refine Steady.bindAt (P := (· = r.skeleton)) (rfl : Routine.skeleton _ = _) fun _ r₁ _ h₁ => ?_
  refine Steady.bindAt (releaseExpired_steady r₁) fun _ r₂ _ h₂ => ?_
  rw [h₁] at h₂
  refine Steady.bindAt (buildInstruction_leads (h₂ ▸ h.provides hc hk)) fun _ r₃ _ h₃ => ?_
  rw [h₂] at h₃
  rw [← h₃]
  change Routine.skeleton _ = _
  have hkinds : (r₃.instructions.toList.modify n ({ · with operations := r₃.operations })).map
      (·.kind) = r₃.instructions.toList.map (·.kind) := by
    refine List.ext_getElem? fun j => ?_
    simp only [List.getElem?_map, List.getElem?_modify, Option.map_eq_map, Option.map_map]
    congr 1
    split <;> rfl
  simp only [Routine.skeleton, Routine.kinds, Skeleton.store, Array.toList_modify, hkinds,
    control_modify, List.filter_nil]

open Generating in
theorem buildAll_attains {n : Nat} {is : List Instruction} (hc : Closed ks)
    (h : Building symbol ks n r.skeleton) (his : is.map (·.kind) = ks.drop n) :
    Attains ((is.zipIdx n).forM fun (i, position) => buildAt position i) r
      (Building symbol ks ks.length) := by
  induction is generalizing n r with
  | nil =>
    have hn : ks.length ≤ n := List.drop_eq_nil_iff.mp his.symm
    have hlt {i : Nat} (hi : i < ks.length) : i < n := by omega
    exact { h with
      control := fun i k hi => h.control i k (hlt hi)
      saved := fun i hi => h.saved i (hlt hi)
      entered := fun i bs hi => h.entered i bs (hlt hi)
      rounds := fun i loop bs hi => h.rounds i loop bs (hlt hi) }
  | cons i is ih =>
    have hk : ks[n]? = some i.kind := by
      rw [← List.head?_drop, ← his]
      rfl
    have hrest : is.map (·.kind) = ks.drop (n + 1) := by
      rw [← List.tail_drop, ← his]
      rfl
    refine Steady.bindAt (buildAt_leads hc h hk) fun _ r' _ h' => ih ?_ hrest
    rw [h']
    exact h.next hk

open Generating in
/-- **What the build of a closed stream leads to.** -/
theorem build_attains (hc : Closed r.kinds) (hr : r.operations = []) :
    Attains build r (Building r.symbol r.kinds r.kinds.length) := by
  refine Steady.getAt ?_
  split
  · exact rfl
  refine Steady.bindAt (P := (· = r.skeleton)) (rfl : Routine.skeleton _ = _) fun _ r' _ h' => ?_
  refine buildAll_attains hc ?_ rfl
  rw [h']
  constructor <;> simp [Routine.skeleton, Routine.kinds, hr]

end Codegen
