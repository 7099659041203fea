import Mathlib.Data.List.Perm.Subperm
import Codegen.Frame
import Codegen.Proofs.Compilation
import Codegen.Proofs.Frame.Saving
import Codegen.Proofs.Register.Set

/-!
# Around the body

The prologue puts the chunks of preserved registers on the stack and makes room for the slots. Then
the function is in its frame: the stack pointer is below the saved words, and what is not saved is as
it was. From any such state the epilogue brings back all that callees keep, and touches nothing else.

* `Architecture.calleeSaved`: the registers that callees keep;
* `Frame.stacked`: the chunks of saved registers, those saved last first;
* `Frame.Entered`: **being in the frame of a function**;
* `Frame.prologue_outcome`, `Frame.epilogue_outcome`: **into the frame and out of it**.
-/

namespace Codegen

open ByteMachine

/-! ## Roles -/

namespace Architecture

/-- The registers that the calling convention asks callees to keep, beside the stack pointer. -/
def calleeSaved : Architecture → List Register
  | x64 => [3, 5, 12, 13, 14, 15].map .general
  | arm64 => (Target.span 19 30).map .general ++ (Target.span 8 15).map .media

/-- The operation that saves registers. -/
def saving : Architecture → Opcode
  | x64 => .push
  | arm64 => .savePair

/-- The operation that restores registers. -/
def restoring : Architecture → Opcode
  | x64 => .pop
  | arm64 => .restorePair

/-- The bytes that saving takes. -/
def chunkBytes : Architecture → Nat
  | x64 => 8
  | arm64 => 16

/-- Can the registers be saved at once? -/
def IsChunk (a : Architecture) (rs : List Register) : Prop :=
  rs ≠ [] ∧ 8 * rs.length ≤ a.chunkBytes

/-- The registers that a function saves if it mentions them. -/
def spared (a : Architecture) : RegisterSet := a.target.allocatable.diff a.target.volatile

variable {a : Architecture} {r : Register}

theorem calleeSaved_of_spared (h : a.spared.contains r = true) :
    r ∈ a.calleeSaved ∧ r ≠ a.target.framePointer := by
  cases a
  all_goals
    simp only [spared, RegisterSet.contains_diff, target, Target.x64, Target.arm64,
      RegisterSet.contains_ofList, Bool.and_eq_true, Bool.not_eq_true', Bool.and_eq_false_imp,
      decide_eq_true_eq] at h
    obtain ⟨⟨hr, hs⟩, hv⟩ := h
    replace hv := mt hv (by simp [hs])
    revert r
    decide

theorem stackPointer_not_calleeSaved : a.target.stackPointer ∉ a.calleeSaved := by
  cases a <;> decide

theorem scratch_not_calleeSaved (h : a.target.scratch? = some r) : r ∉ a.calleeSaved := by
  cases a
  · cases h
  · cases h
    decide

end Architecture

/-! ## Chunks -/

namespace ByteMachine

variable {k : ByteMachine} {program : List Operation} {s : State} {a : Architecture}
  {value : Register → BitVec 64} {rs : List Register}

theorem Outcome.save (h : a.IsChunk rs) :
    Outcome k program [Frame.onRegisters a.saving rs] s
      (s.pushed k.stackPointer a.chunkBytes (rs.map s.registers)) := by
  obtain ⟨hne, hlen⟩ := h
  have hpos := List.length_pos_iff.mpr hne
  cases a with
  | x64 =>
    rw [Architecture.chunkBytes] at hlen
    obtain ⟨r, rfl⟩ := List.length_eq_one_iff.mp (show rs.length = 1 by omega)
    exact .push
  | arm64 =>
    rw [Architecture.chunkBytes] at hlen
    exact .savePair (by omega)

theorem Outcome.restore (h : a.IsChunk rs) :
    Outcome k program [Frame.onRegisters a.restoring rs] s
      (s.popped k.stackPointer a.chunkBytes rs) := by
  obtain ⟨hne, hlen⟩ := h
  have hpos := List.length_pos_iff.mpr hne
  cases a with
  | x64 =>
    rw [Architecture.chunkBytes] at hlen
    obtain ⟨r, rfl⟩ := List.length_eq_one_iff.mp (show rs.length = 1 by omega)
    exact .pop
  | arm64 =>
    rw [Architecture.chunkBytes] at hlen
    exact .restorePair (by omega)

variable (k program) in
/-- **Chunks that are saved one after another** are all on the stack in the end. -/
theorem Outcome.saving (cs done : List (List Register)) (hc : ∀ rs ∈ cs ++ done, a.IsChunk rs)
    (hn : a.chunkBytes * (cs.length + done.length) ≤ 0x10000000000000000)
    (hr : ∀ r ∈ cs.flatten, r ≠ k.stackPointer ∧ s.registers r = value r)
    (hs : Saved value a.chunkBytes s (s.registers k.stackPointer) done) :
    ∃ t, Outcome k program (cs.map (Frame.onRegisters a.saving)) s t ∧
      Saved value a.chunkBytes t (t.registers k.stackPointer) (cs.reverse ++ done) ∧
      t.registers k.stackPointer =
        s.registers k.stackPointer - .ofNat 64 (a.chunkBytes * cs.length) ∧
      ∀ r, r ≠ k.stackPointer → t.registers r = s.registers r := by
  induction cs generalizing s done with
  | nil => exact ⟨s, .nil, hs, by simp, fun _ _ => rfl⟩
  | cons rs cs ih =>
    rw [List.cons_append, List.forall_mem_cons] at hc
    rw [List.length_cons] at hn
    rw [List.flatten_cons] at hr
    have hdone : ∀ qs ∈ rs :: done, a.IsChunk qs :=
      List.forall_mem_cons.mpr ⟨hc.1, fun qs h => hc.2 qs (List.mem_append_right _ h)⟩
    have hpush := hs.pushed (fun qs h => (hdone qs h).2)
      (Nat.le_trans (Nat.mul_le_mul_left _ (by omega)) hn)
      fun r h => (hr r (List.mem_append_left _ h)).2
    obtain ⟨t, ht, hsaved, hsp, hothers⟩ := ih (rs :: done)
      (fun qs h => (List.mem_append.mp h).elim (fun h => hc.2 qs (List.mem_append_left _ h))
        (hdone qs))
      (by rw [List.length_cons]; exact Nat.le_trans (Nat.mul_le_mul_left _ (by omega)) hn)
      (fun r h => by
        obtain ⟨hne, he⟩ := hr r (List.mem_append_right _ h)
        exact ⟨hne, (pushed_registers hne).trans he⟩)
      hpush
    refine ⟨t, (Outcome.save hc.1).append ht, ?_, ?_, fun r hne => ?_⟩
    · rwa [List.reverse_cons, List.append_assoc]
    · rw [hsp, pushed_stackPointer, List.length_cons, Nat.mul_add]
      bv_omega
    · rw [hothers r hne, pushed_registers hne]

variable (k program) in
/-- **Chunks that are restored one after another** have their words again. -/
theorem Outcome.restoring (cs : List (List Register)) (hc : ∀ rs ∈ cs, a.IsChunk rs)
    (hr : k.stackPointer ∉ cs.flatten)
    (hs : Saved value a.chunkBytes s (s.registers k.stackPointer) cs) :
    ∃ t, Outcome k program (cs.map (Frame.onRegisters a.restoring)) s t ∧
      t.registers k.stackPointer =
        s.registers k.stackPointer + .ofNat 64 (a.chunkBytes * cs.length) ∧
      (∀ r ∈ cs.flatten, t.registers r = value r) ∧
      ∀ r, r ∉ cs.flatten → r ≠ k.stackPointer → t.registers r = s.registers r := by
  induction cs generalizing s with
  | nil => exact ⟨s, .nil, by simp, by simp, fun _ _ _ => rfl⟩
  | cons rs cs ih =>
    rw [List.forall_mem_cons] at hc
    rw [List.flatten_cons, List.mem_append, not_or] at hr
    have hsp : (s.popped k.stackPointer a.chunkBytes rs).registers k.stackPointer = _ :=
      popped_stackPointer hr.1
    have hpop : Saved value a.chunkBytes (s.popped k.stackPointer a.chunkBytes rs)
        ((s.popped k.stackPointer a.chunkBytes rs).registers k.stackPointer) cs := by
      rw [hsp]
      exact hs.2.congr (fun qs h => (hc.2 qs h).2) fun b _ => by rw [popped_memory]
    obtain ⟨t, ht, htsp, hmem, hothers⟩ := ih hc.2 hr.2 hpop
    refine ⟨t, (Outcome.restore hc.1).append ht, ?_, fun r h => ?_, fun r h hne => ?_⟩
    · rw [htsp, hsp, List.length_cons, Nat.mul_add]
      bv_omega
    · by_cases hrest : r ∈ cs.flatten
      · exact hmem r hrest
      · have hmem : r ∈ rs := (List.mem_append.mp h).resolve_right hrest
        rw [hothers r hrest fun he => hr.1 (he ▸ hmem)]
        exact loadAll_registers_of_mem hs.1 hmem
    · rw [List.flatten_cons, List.mem_append, not_or] at h
      rw [hothers r h.2 hne, popped_registers_of_not_mem h.1 hne]

variable (k program s) in
/-- Moving the stack pointer changes nothing else but a register that is kept free. -/
theorem Outcome.adjust {c : Opcode} {f : BitVec 64 → BitVec 64 → BitVec 64} (hc : sum? c = some f)
    (hf : f (s.registers k.stackPointer) 0 = s.registers k.stackPointer)
    (hk : k.stackPointer = a.target.stackPointer) (bytes : Nat) :
    ∃ t, Outcome k program (Frame.adjustStack a c bytes) s t ∧ t.memory = s.memory ∧
      t.registers k.stackPointer = f (s.registers k.stackPointer) (.ofNat 64 bytes) ∧
      ∀ r, r ≠ k.stackPointer → a.target.scratch? ≠ some r → t.registers r = s.registers r := by
  have himmediate (s : State) :
      k.valueOf? s (.immediate (.ofNat bytes)) = some (.ofNat 64 bytes) := rfl
  have hgeneral : k.stackPointer.isMedia = false := by
    rw [hk]
    cases a <;> rfl
  unfold Frame.adjustStack
  simp only [← hk]
  split
  next h =>
    subst h
    exact ⟨s, .nil, rfl, hf.symm, fun _ _ _ => rfl⟩
  next h =>
    split
    next scratch hscratch =>
      split
      next hsmall =>
        exact ⟨_, .sum hc hgeneral (himmediate s), rfl, State.set_registers_self,
          fun r hr _ => State.set_registers_of_ne hr⟩
      next hlarge =>
        have hne : k.stackPointer ≠ scratch := by
          rw [hk]
          cases hscratch
          decide
        refine ⟨_, (Outcome.move (himmediate s)).append (.sum hc hgeneral
          (x := .register scratch) (by rw [valueOf?, State.set_registers_self])), rfl, ?_,
          fun r hr hs => ?_⟩
        · rw [State.set_registers_self, State.set_registers_of_ne hne]
        · rw [State.set_registers_of_ne hr,
            State.set_registers_of_ne fun he : r = scratch => hs (he ▸ hscratch)]
    next =>
      exact ⟨_, .sumInto hc hgeneral (himmediate s), rfl, State.set_registers_self,
        fun r hr _ => State.set_registers_of_ne hr⟩

end ByteMachine

/-! ## Into the frame and out of it -/

namespace Frame

variable {f : Frame} {config : Config}

/-- The chunk that the prologue saves before it sets the frame pointer. -/
def leading (config : Config) : List (List Register) :=
  let fp := config.architecture.target.framePointer
  match config.architecture with
  | .x64 => if config.debug then [[fp]] else []
  | .arm64 => [[fp, Target.linkRegister]]

/-- The chunks of the registers that are saved because the body mentions them. -/
def chunks (f : Frame) (a : Architecture) : List (List Register) :=
  match a with
  | .x64 => f.saved.map fun r => [r]
  | .arm64 => f.savedPairs

/-- The chunks of saved registers, those saved last first. -/
def stacked (f : Frame) (config : Config) : List (List Register) :=
  (f.chunks config.architecture).reverse ++ leading config

/-- The bytes of the saved registers. -/
def savedBytes (f : Frame) (config : Config) : Nat :=
  config.architecture.chunkBytes * (f.stacked config).length

/-- **A frame that can be entered**: it saves what a function may save, and it is not larger than
32 bits allow. -/
structure IsSound (f : Frame) (config : Config) : Prop where
  spared : ∀ r ∈ f.saved, config.architecture.spared.contains r = true
  few : f.saved.length ≤ 63
  size : f.size < 0x100000000

/-- **Being in the frame of a function** that was entered in a state. -/
structure Entered (f : Frame) (config : Config) (s₀ s : State) : Prop where
  stackPointer : s.registers config.architecture.target.stackPointer =
    s₀.registers config.architecture.target.stackPointer - .ofNat 64 (f.savedBytes config) -
      .ofNat 64 f.size
  saved : Saved s₀.registers config.architecture.chunkBytes s
    (s₀.registers config.architecture.target.stackPointer - .ofNat 64 (f.savedBytes config))
    (f.stacked config)
  kept : ∀ r ∈ config.architecture.calleeSaved, r ∉ (f.stacked config).flatten →
    s.registers r = s₀.registers r

theorem prologue_eq (f : Frame) (config : Config) :
    f.prologue config =
      (leading config).flatMap (fun rs => [onRegisters config.architecture.saving rs,
        onRegisters .move [config.architecture.target.framePointer,
          config.architecture.target.stackPointer]]) ++
      (f.chunks config.architecture).map (onRegisters config.architecture.saving) ++
      adjustStack config.architecture .subtract f.size := by
  obtain ⟨a, debug, _⟩ := config
  cases a
  · cases debug <;> simp [prologue, leading, chunks, Architecture.saving, Function.comp_def]
  · simp [prologue, leading, chunks, Architecture.saving]

theorem epilogue_eq (f : Frame) (config : Config) :
    f.epilogue config =
      (adjustStack config.architecture .add f.size ++
        (f.stacked config).map (onRegisters config.architecture.restoring)) ++ [⟨.ret, []⟩] := by
  obtain ⟨a, debug, _⟩ := config
  cases a
  · cases debug <;>
      simp [epilogue, stacked, leading, chunks, Architecture.restoring, Function.comp_def,
        ← List.map_reverse]
  · simp [epilogue, stacked, leading, chunks, Architecture.restoring]

theorem flatten_pairsOf (rs : List Register) : (pairsOf rs).flatten = rs := by
  induction rs using pairsOf.induct with
  | case1 => rfl
  | case2 => rfl
  | case3 r s rest ih => simp [pairsOf, ih]

theorem isChunk_of_mem_pairsOf {rs qs : List Register} (h : qs ∈ pairsOf rs) :
    Architecture.arm64.IsChunk qs := by
  induction rs using pairsOf.induct with
  | case1 => cases h
  | case2 r =>
    obtain rfl := List.mem_singleton.mp h
    exact ⟨by simp, by simp [Architecture.chunkBytes]⟩
  | case3 r s rest ih =>
    rcases List.mem_cons.mp h with rfl | h
    · exact ⟨by simp, by simp [Architecture.chunkBytes]⟩
    · exact ih h

theorem length_pairsOf_le (rs : List Register) : (pairsOf rs).length ≤ rs.length := by
  induction rs using pairsOf.induct with
  | case1 => exact Nat.le_refl _
  | case2 => exact Nat.le_refl _
  | case3 r s rest ih =>
    simp only [pairsOf, List.length_cons]
    omega

theorem mem_flatten_chunks {a : Architecture} {r : Register} :
    r ∈ (f.chunks a).flatten ↔ r ∈ f.saved := by
  cases a
  · simp [chunks]
  · rw [chunks, savedPairs, List.flatten_append, flatten_pairsOf, flatten_pairsOf,
      List.mem_append, List.mem_filter, List.mem_filter]
    cases r.isMedia <;> simp

theorem length_chunks_le {a : Architecture} : (f.chunks a).length ≤ f.saved.length := by
  cases a
  · simp [chunks]
  · rw [chunks, savedPairs, List.length_append]
    have hgeneral := length_pairsOf_le (f.saved.filter (!·.isMedia))
    have hmedia := length_pairsOf_le (f.saved.filter (·.isMedia))
    have hsum := List.length_eq_length_filter_add (l := f.saved) (·.isMedia)
    omega

theorem isChunk_of_mem_stacked {rs : List Register} (h : rs ∈ f.stacked config) :
    config.architecture.IsChunk rs := by
  obtain ⟨a, debug, _⟩ := config
  rcases List.mem_append.mp h with h | h
  · rw [List.mem_reverse] at h
    cases a
    · obtain ⟨r, _, rfl⟩ := List.mem_map.mp h
      exact ⟨by simp, Nat.le_refl _⟩
    · exact (List.mem_append.mp h).elim isChunk_of_mem_pairsOf isChunk_of_mem_pairsOf
  · cases a
    · cases debug
      · cases h
      · obtain rfl := List.mem_singleton.mp h
        exact ⟨by simp, Nat.le_refl _⟩
    · obtain rfl := List.mem_singleton.mp h
      exact ⟨by simp, Nat.le_refl _⟩

theorem leading_cases (config : Config) :
    leading config = [] ∨
      ∃ rs, leading config = [rs] ∧ config.architecture.target.framePointer ∈ rs ∧
        ∀ r ∈ rs, r ∈ config.architecture.calleeSaved := by
  obtain ⟨a, debug, _⟩ := config
  cases a
  · cases debug
    · exact .inl rfl
    · exact .inr ⟨_, rfl, List.mem_singleton_self _, by
        show ∀ r ∈ [Target.x64.framePointer], r ∈ Architecture.x64.calleeSaved
        decide⟩
  · exact .inr ⟨_, rfl, List.mem_cons_self, by
      show ∀ r ∈ [Target.arm64.framePointer, Target.linkRegister],
        r ∈ Architecture.arm64.calleeSaved
      decide⟩

theorem length_leading_le (config : Config) : (leading config).length ≤ 1 := by
  rcases leading_cases config with h | ⟨_, h, _⟩ <;> simp [h]

section Sound

variable (hf : f.IsSound config)
include hf

theorem calleeSaved_of_mem_stacked {r : Register} (h : r ∈ (f.stacked config).flatten) :
    r ∈ config.architecture.calleeSaved := by
  obtain ⟨rs, hrs, hr⟩ := List.mem_flatten.mp h
  rcases List.mem_append.mp hrs with hrs | hrs
  · have hsaved := mem_flatten_chunks.mp
      (List.mem_flatten.mpr ⟨rs, List.mem_reverse.mp hrs, hr⟩)
    exact (Architecture.calleeSaved_of_spared (hf.spared r hsaved)).1
  · rcases leading_cases config with h | ⟨qs, h, _, hqs⟩
    · rw [h] at hrs
      cases hrs
    · rw [h] at hrs
      exact hqs r (List.mem_singleton.mp hrs ▸ hr)

theorem savedBytes_le : f.savedBytes config ≤ 1024 := by
  have hfew := Nat.le_trans (length_chunks_le (a := config.architecture)) hf.few
  have hone := length_leading_le config
  have hbytes : config.architecture.chunkBytes ≤ 16 := by cases config.architecture <;> decide
  calc config.architecture.chunkBytes * (f.stacked config).length
    _ ≤ 16 * 64 := Nat.mul_le_mul hbytes (by simp [stacked]; omega)

variable {k : ByteMachine} {program : List Operation} {s₀ s : State}
  (hk : k.stackPointer = config.architecture.target.stackPointer)
include hk

omit hf in
theorem leading_outcome (program : List Operation) (s₀ : State) :
    ∃ t, Outcome k program
        ((leading config).flatMap fun rs => [onRegisters config.architecture.saving rs,
          onRegisters .move [config.architecture.target.framePointer,
            config.architecture.target.stackPointer]]) s₀ t ∧
      Saved s₀.registers config.architecture.chunkBytes t (t.registers k.stackPointer)
        (leading config) ∧
      t.registers k.stackPointer = s₀.registers k.stackPointer -
        .ofNat 64 (config.architecture.chunkBytes * (leading config).length) ∧
      ∀ r, r ≠ k.stackPointer →
        (r = config.architecture.target.framePointer → r ∉ (leading config).flatten) →
        t.registers r = s₀.registers r := by
  rcases leading_cases config with h | ⟨rs, h, hfp, hrs⟩
  · rw [h]
    exact ⟨s₀, .nil, trivial, by simp, fun _ _ _ => rfl⟩
  · have hchunk : config.architecture.IsChunk rs :=
      isChunk_of_mem_stacked (f := default) (List.mem_append_right _ (by simp [h]))
    have hne : k.stackPointer ≠ config.architecture.target.framePointer := by
      rw [hk]
      cases config.architecture <;> decide
    rw [h]
    refine ⟨_, (Outcome.save hchunk).append (.move rfl), ?_, ?_, fun r hr hleading => ?_⟩
    · rw [State.set_registers_of_ne hne]
      have hsaved : Saved s₀.registers config.architecture.chunkBytes s₀
        (s₀.registers k.stackPointer) [] := trivial
      refine (hsaved.pushed (by simpa using hchunk.2) ?_ fun _ _ => rfl).congr
        (by simpa using hchunk.2) fun b _ => rfl
      cases config.architecture <;> decide
    · rw [State.set_registers_of_ne hne, pushed_stackPointer, List.length_singleton, Nat.mul_one]
    · have hr' : r ≠ config.architecture.target.framePointer := fun he =>
        hleading he (by simpa using he ▸ hfp)
      rw [State.set_registers_of_ne hr', pushed_registers hr]

/-- **The prologue leads into the frame**, from any state. -/
theorem prologue_outcome (program : List Operation) (s₀ : State) :
    ∃ s, Outcome k program (f.prologue config) s₀ s ∧ f.Entered config s₀ s := by
  have hspared {r : Register} (h : r ∈ (f.chunks config.architecture).flatten) :
      r ≠ k.stackPointer ∧ r ≠ config.architecture.target.framePointer := by
    obtain ⟨hr, hfp⟩ :=
      Architecture.calleeSaved_of_spared (hf.spared r (mem_flatten_chunks.mp h))
    exact ⟨fun he => Architecture.stackPointer_not_calleeSaved (hk ▸ he ▸ hr), hfp⟩
  have hlen : (f.stacked config).length =
      (f.chunks config.architecture).length + (leading config).length := by simp [stacked]
  obtain ⟨s₁, h₁, hsaved₁, hsp₁, hothers₁⟩ := leading_outcome hk program s₀
  obtain ⟨s₂, h₂, hsaved₂, hsp₂, hothers₂⟩ := Outcome.saving k program
    (f.chunks config.architecture) (leading config)
    (fun rs h => isChunk_of_mem_stacked (show rs ∈ f.stacked config by simpa [stacked] using h))
    (by
      have hle := savedBytes_le hf
      rw [savedBytes, hlen] at hle
      omega)
    (fun r h => ⟨(hspared h).1, hothers₁ r (hspared h).1 fun he => absurd he (hspared h).2⟩)
    hsaved₁
  obtain ⟨s, h₃, hmemory, hsp, hothers₃⟩ := Outcome.adjust k program s₂
    (c := .subtract) rfl (BitVec.sub_zero _) hk f.size
  have htop : s₂.registers k.stackPointer =
      s₀.registers k.stackPointer - .ofNat 64 (f.savedBytes config) := by
    rw [hsp₂, hsp₁, savedBytes, hlen, Nat.mul_add]
    bv_omega
  rw [prologue_eq]
  refine ⟨s, (h₁.append h₂).append h₃, ?_, ?_, fun r hr hstacked => ?_⟩
  · rw [← hk, hsp, htop]
  · rw [← hk, ← htop]
    exact hsaved₂.congr (fun rs h => (isChunk_of_mem_stacked h).2) fun b _ => by rw [hmemory]
  · have hne : r ≠ k.stackPointer := fun he =>
      Architecture.stackPointer_not_calleeSaved (hk ▸ he ▸ hr)
    rw [hothers₃ r hne fun he => Architecture.scratch_not_calleeSaved he hr, hothers₂ r hne,
      hothers₁ r hne fun _ h => hstacked (by simp [stacked, h])]

/-- **The epilogue leads out of the frame**, from any state in it: callees have kept what they
should, and other registers are as they were, but for the one that is kept free. -/
theorem epilogue_outcome (program : List Operation) (h : f.Entered config s₀ s) :
    ∃ t, Outcome k program
        (adjustStack config.architecture .add f.size ++
          (f.stacked config).map (onRegisters config.architecture.restoring)) s t ∧
      t.registers k.stackPointer = s₀.registers k.stackPointer ∧
      (∀ r ∈ config.architecture.calleeSaved, t.registers r = s₀.registers r) ∧
      ∀ r, r ∉ config.architecture.calleeSaved → r ≠ k.stackPointer →
        config.architecture.target.scratch? ≠ some r → t.registers r = s.registers r := by
  have hsp : k.stackPointer ∉ (f.stacked config).flatten := fun hmem =>
    Architecture.stackPointer_not_calleeSaved (hk ▸ calleeSaved_of_mem_stacked hf hmem)
  obtain ⟨s₁, h₁, hmemory, hsp₁, hothers₁⟩ := Outcome.adjust k program s
    (c := .add) rfl (BitVec.add_zero _) hk f.size
  have htop : s₁.registers k.stackPointer =
      s₀.registers k.stackPointer - .ofNat 64 (f.savedBytes config) := by
    rw [hsp₁, hk, h.stackPointer, BitVec.sub_add_cancel]
  obtain ⟨t, h₂, hsp₂, hmem, hothers₂⟩ := Outcome.restoring k program (f.stacked config)
    (fun rs h => isChunk_of_mem_stacked h) hsp
    (by
      rw [htop, hk]
      exact h.saved.congr (fun rs h => (isChunk_of_mem_stacked h).2) fun b _ => by rw [hmemory])
  refine ⟨t, h₁.append h₂, ?_, fun r hr => ?_, fun r hr hne hs => ?_⟩
  · rw [hsp₂, htop, savedBytes, BitVec.sub_add_cancel]
  · by_cases hstacked : r ∈ (f.stacked config).flatten
    · exact hmem r hstacked
    · have hne : r ≠ k.stackPointer := fun he =>
        Architecture.stackPointer_not_calleeSaved (hk ▸ he ▸ hr)
      rw [hothers₂ r hstacked hne,
        hothers₁ r hne fun he => Architecture.scratch_not_calleeSaved he hr, h.kept r hr hstacked]
  · rw [hothers₂ r (fun hmem => hr (calleeSaved_of_mem_stacked hf hmem)) hne, hothers₁ r hne hs]

end Sound

end Frame

end Codegen
