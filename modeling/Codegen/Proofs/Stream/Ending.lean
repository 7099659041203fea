import Codegen.Proofs.Compilation
import Codegen.Proofs.Frame.Enclosed
import Codegen.Proofs.Stream.Build

/-!
# Functions end with a return

The last instruction of a function is a return, and so is the last operation that it is built to.
In the frame the return becomes an epilogue. So no function is compiled to nothing.

* `Generating.buildAt_ret`: what the build of a return leaves in the stream;
* `Lowered.ret_mem_body`: a function that was built returns;
* `Compiled.operations_ne_nil`: **no output is without operations**.
-/

namespace Codegen

variable {r r' : Routine} {u : Unit}

namespace Generating

theorem takes_forM_concat {α : Type} {xs : List α} {x : α} {k : α → Generating Unit} :
    Takes ((xs ++ [x]).forM k) r u r' ↔
      ∃ r₁, Takes (xs.forM k) r () r₁ ∧ Takes (k x) r₁ u r' := by
  simp only [List.forM_eq_forM, List.forM_append, List.forM_cons, List.forM_nil, takes_bind,
    takes_pure]
  constructor
  · rintro ⟨_, r₁, h₁, _, r₂, h₂, -, rfl⟩
    exact ⟨r₁, h₁, h₂⟩
  · rintro ⟨r₁, h₁, h₂⟩
    exact ⟨(), r₁, h₁, (), r', h₂, trivial, rfl⟩

theorem buildReturn_ret {value? : Option ValueId} (h : Takes (buildReturn value?) r u r') :
    ⟨.ret, []⟩ ∈ r'.operations := by
  simp only [buildReturn, takes_bind, emit, takes_modify] at h
  obtain ⟨_, r₁, -, rfl⟩ := h
  simp

theorem buildAt_ret {p : Nat} {i : Instruction} {value? : Option ValueId}
    (hi : i.kind = .ret value?) (h : Takes (buildAt p i) r u r') (hp : p < r'.instructions.size) :
    ⟨.ret, []⟩ ∈ r'.body := by
  simp only [buildAt, takes_bind, takes_modify, hi] at h
  obtain ⟨_, r₁, -, _, r₂, -, _, r₃, h₃, rfl⟩ := h
  have hret := buildReturn_ret h₃
  rw [Routine.body, List.mem_flatMap]
  have hp : p < r₃.instructions.size := by simpa using hp
  refine ⟨{ r₃.instructions[p] with operations := r₃.operations }, ?_, hret⟩
  refine List.mem_iff_getElem?.mpr ⟨p, ?_⟩
  rw [Array.getElem?_toList, Array.getElem?_modify, if_pos rfl, Array.getElem?_eq_getElem hp]
  rfl

theorem build_last {front : List Instruction} {i : Instruction}
    (hi : r.instructions.toList = front ++ [i]) (h : Takes build r u r') :
    ∃ r₁, Takes (buildAt front.length i) r₁ u r' := by
  simp only [build, takes_bind, takes_get] at h
  obtain ⟨_, _, ⟨rfl, rfl⟩, h⟩ := h
  split at h
  · simp only [takes_bind] at h
    obtain ⟨_, _, h, -⟩ := h
    exact absurd h not_takes_refuse
  · obtain ⟨_, _, -, h⟩ := takes_bind.mp h
    rw [hi, List.zipIdx_append, List.zipIdx_singleton, takes_forM_concat] at h
    obtain ⟨r₁, -, h⟩ := h
    exact ⟨r₁, by simpa using h⟩

end Generating

open Generating in
/-- **A function that was built returns.** -/
theorem Lowered.ret_mem_body (w : Lowered) (h : Generating.build w.routine = .ok () r') :
    ⟨.ret, []⟩ ∈ r'.body := by
  have hopen := w.stream_open
  have hbuilt := build_attains (Closed.of_open hopen) hopen.unbuilt
  rw [Attains, h] at hbuilt
  obtain ⟨_, _, _, -, -, hf⟩ := lowerFunction_parts w.lowers
  obtain ⟨value?, hlast⟩ := finish_ends hf
  obtain ⟨front, i, hi⟩ : ∃ front i, w.routine.instructions.toList = front ++ [i] ∧
      i.kind = .ret value? := by
    rw [Routine.kinds, List.getLast?_map, Option.map_eq_some_iff] at hlast
    obtain ⟨i, hi, hk⟩ := hlast
    obtain ⟨front, hfront⟩ := List.getLast?_eq_some_iff.mp hi
    exact ⟨front, i, hfront, hk⟩
  have hsize : r'.instructions.size = front.length + 1 := by
    have hkinds := congrArg List.length hbuilt.kinds
    simpa [Routine.skeleton, Routine.kinds, hi.1] using hkinds
  obtain ⟨r₁, hr₁⟩ := build_last hi.1 h
  exact buildAt_ret hi.2 hr₁ (hsize ▸ Nat.lt_succ_self _)

theorem Frame.ret_mem_complete {f : Frame} {config : Config} {body os : List Operation}
    (hb : ⟨.ret, []⟩ ∈ body) (h : f.complete config body = .ok os) : ⟨.ret, []⟩ ∈ os := by
  simp only [complete, Arena.bind_eq_ok, Arena.pure_eq_ok] at h
  obtain ⟨oss, hoss, rfl⟩ := h
  refine List.mem_append_right _ ?_
  have henclosed : f.Encloses config body oss.flatten := ⟨oss, hoss, rfl⟩
  generalize oss.flatten = os at henclosed ⊢
  clear hoss
  induction body generalizing os with
  | nil => simp at hb
  | cons o body ih =>
    obtain ⟨first, rest, ho, hrest, rfl⟩ := encloses_cons.mp henclosed
    rw [List.mem_append]
    rcases List.mem_cons.mp hb with rfl | hb
    · obtain rfl := (enclose_ret rfl).mp ho
      left
      rw [epilogue_eq]
      simp
    · exact .inr (ih hb rest hrest)

/-- **No output is without operations.** -/
theorem Compiled.operations_ne_nil {config : Config} {symbols : SymbolTable} {s : Source}
    {o : Output} (w : Compiled config symbols s o) : o.operations ≠ [] :=
  List.ne_nil_of_mem (Frame.ret_mem_complete
    (Lowered.ret_mem_body ⟨s, symbols, config, w.start, w.lowered, w.started, w.lowers⟩ w.builds)
    w.completes)

end Codegen
