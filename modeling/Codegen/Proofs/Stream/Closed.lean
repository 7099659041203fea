import Codegen.Proofs.Compilation
import Codegen.Proofs.Stream.Lowering
import Mathlib.Data.List.Induction
import Mathlib.Data.List.Nodup

/-!
# Streams of whole functions are closed

When the instructions of a function have been appended, nothing is left to come: jumps have their
labels, brackets their partners, and every reference to another instruction points back to one of
the right kind.

* `Closed`: **a stream that is closed**;
* `nested_of_scopes`: a region is left behind the instruction that entered it;
* `Closed.of_open`: a stream with nothing to come is closed;
* `Lowered.stream_open`: **nothing is to come behind the last instruction of a function**.
-/

namespace Codegen

/-- **A closed stream of instructions.** -/
structure Closed (ks : List InstructionKind) : Prop where
  /-- No label is defined twice. -/
  labels : ∀ l, ks.count (.label l) ≤ 1
  /-- A label that is jumped to is defined by exactly one instruction. -/
  jumps : ∀ l test, .jump l test ∈ ks → ks.count (.label l) = 1
  saves : ∀ i s : Nat, ks[i]? = some (.restoreState s) → s < i ∧ ks[s]? = some .saveState
  merges : ∀ (i e : Nat) ps, ks[i]? = some (.mergeScope e ps) →
    e < i ∧ ∃ bs, ks[e]? = some (.enterScope bs)
  rounds : ∀ (i s : Nat) ps, ks[i]? = some (.symmetryEnd s ps) →
    s < i ∧ ∃ n bs, ks[s]? = some (.symmetryStart n bs)
  /-- Regions are left in the opposite order of their entries, and all are. -/
  nested : scopes 0 [] ks = some []
  calls : ∀ i : Nat, ks[i]? = some .evacuate → ∃ symbol xs, ks[i + 1]? = some (.call symbol xs)

/-! ## Regions -/

variable {ks : List InstructionKind}

theorem nested_of_scopes {open? : List Nat} (h : scopes 0 [] ks = some open?) :
    (∀ e ∈ open?, ∃ bs, ks[e]? = some (.enterScope bs)) ∧
      ∀ (i e : Nat) ps, ks[i]? = some (.mergeScope e ps) →
        e < i ∧ ∃ bs, ks[e]? = some (.enterScope bs) := by
  induction ks using List.reverseRecOn generalizing open? with
  | nil =>
    obtain rfl : [] = open? := by simpa [scopes] using h
    simp
  | append_singleton ks k ih =>
    rw [scopes_append, Option.bind_eq_some_iff] at h
    obtain ⟨before, hbefore, h⟩ := h
    obtain ⟨hentered, hmerges⟩ := ih hbefore
    rw [Nat.zero_add] at h
    have hold {e : Nat} {k'} (he : ks[e]? = some k') : (ks ++ [k])[e]? = some k' :=
      getElem?_snoc.mpr (.inl he)
    have hsub : ∀ e ∈ open?, e ∈ before ∨ ∃ bs, k = .enterScope bs ∧ e = ks.length := by
      unfold scopesBehind at h
      grind
    constructor
    · intro e he
      rcases hsub e he with he | ⟨bs, rfl, rfl⟩
      · obtain ⟨bs, hbs⟩ := hentered e he
        exact ⟨bs, hold hbs⟩
      · exact ⟨bs, getElem?_snoc.mpr (.inr ⟨rfl, rfl⟩)⟩
    · intro i e ps hi
      rcases getElem?_snoc.mp hi with hi | ⟨rfl, rfl⟩
      · obtain ⟨hlt, bs, hbs⟩ := hmerges i e ps hi
        exact ⟨hlt, bs, hold hbs⟩
      · have he : e ∈ before := by
          cases before with
          | nil => simp [scopesBehind] at h
          | cons top rest =>
            simp only [scopesBehind, Option.ite_none_right_eq_some] at h
            exact h.1 ▸ List.mem_cons_self
        obtain ⟨bs, hbs⟩ := hentered e he
        exact ⟨(List.getElem?_eq_some_iff.mp hbs).1, bs, hold hbs⟩

/-! ## Functions -/

theorem count_label (ks : List InstructionKind) (l : Label) :
    ks.count (.label l) = (ks.filterMap (·.label?)).count l := by
  induction ks with
  | nil => rfl
  | cons k ks ih =>
    rw [List.count_cons, ih, List.filterMap_cons]
    cases k <;> simp [InstructionKind.label?, List.count_cons]

theorem Closed.of_open {r : Routine} (h : Open ⟨[], [], [], [], []⟩ r) : Closed r.kinds where
  labels l := by
    have hnodup : r.defined.Nodup := by simpa using h.distinct
    rw [count_label]
    exact List.nodup_iff_count_le_one.mp hnodup l
  jumps l test hl := by
    have hnodup : r.defined.Nodup := by simpa using h.distinct
    have ht : l ∈ r.targets := List.mem_filterMap.mpr ⟨_, hl, rfl⟩
    have hd : l ∈ r.defined := by simpa using h.targets l ht
    rw [count_label]
    exact List.count_eq_one_of_mem hnodup hd
  saves := h.saves
  merges := (nested_of_scopes h.scopes).2
  rounds := h.rounds
  nested := h.scopes
  calls i hi := by simpa using h.calls i hi

open Generating in
/-- **Nothing is left to come** behind the last instruction of a function. -/
theorem Lowered.stream_open (w : Lowered) : Open ⟨[], [], [], [], []⟩ w.routine := by
  have ho₀ : Open ⟨[], [], [], [], []⟩ w.start := by
    have hs := w.started
    simp only [Routine.start, Arena.bind_eq_ok, Arena.pure_eq_ok] at hs
    obtain ⟨symbol, -, hs⟩ := hs
    rw [← hs]
    constructor <;> simp [Routine.defined, Routine.targets, Routine.kinds, scopes]
  obtain ⟨r₁, x?, r₂, h₁, h₂, h₃⟩ := lowerFunction_parts w.lowers
  obtain ⟨xs, q, y, hq, ha⟩ := bindParameters_parts h₁
  have ho₂ := lower_keeps h₂ (append_plain rfl ha (prepared_open hq ho₀))
  rcases finish_parts h₃ with hfinish | ⟨y, h₃⟩
  · exact hfinish ▸ ho₂
  · exact append_plain rfl h₃ ho₂

end Codegen
