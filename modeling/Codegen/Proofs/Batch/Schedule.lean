import Codegen.Proofs.Batch.Report
import Codegen.Surface.Elaborate
import Mathlib

/-!
# The order of tasks does not matter

Whatever the order in which the tasks of a batch take their steps, each of them ends as its function
does when it is compiled alone, and the list of results holds what the tasks handed in so far, each
once. When all tasks are over, sorting the results by their places gives the order of the sources.

* `Batch.Stepped`: **what an event does**;
* `Batch.Fits`: **what holds of the tasks at any time**, kept by each event;
* `Batch.exists_step`: no event is possible only when all tasks are over;
* `Fits.report_eq`: the report of tasks that are over;
* `Batch.report_of_run`: **the report does not depend on the order of events**.
-/

namespace Codegen

variable {b : Batch} {c c' : Crew} {e : BatchEvent} {es : List BatchEvent} {i : Nat} {s : Source}
variable {g : TaskStage}

namespace Batch

/-! ## Events -/

/-- **What an event does.** -/
inductive Stepped (b : Batch) (c : Crew) : BatchEvent → Crew → Prop
  | spawned {s : Source} (hs : b.sources[c.stages.length]? = some s)
    (ht : b.config.multithreaded = true) :
    Stepped b c .start { c with stages := c.stages ++ [.working] }
  | ran {s : Source} (hs : b.sources[c.stages.length]? = some s)
    (ht : b.config.multithreaded = false) :
    Stepped b c .start
      ⟨c.stages ++ [.joined (b.ending s)], c.results ++ b.handsIn c.stages.length s⟩
  | handedIn {i : Nat} {s : Source} {o : Output} {t : Statistics} (hs : b.sources[i]? = some s)
    (hi : c.stages[i]? = some .working) (ho : b.outcome s = .ok (o, t)) :
    Stepped b c (.work i) ⟨c.stages.set i .handedIn, c.results ++ [⟨i, o, t⟩]⟩
  | failed {i : Nat} {s : Source} {f : Fault} (hs : b.sources[i]? = some s)
    (hi : c.stages[i]? = some .working) (ho : b.outcome s = .error f) :
    Stepped b c (.work i) { c with stages := c.stages.set i (.ended (b.ending s)) }
  | succeeded {i : Nat} {s : Source} (hs : b.sources[i]? = some s)
    (hi : c.stages[i]? = some .handedIn) :
    Stepped b c (.work i) { c with stages := c.stages.set i (.ended .success) }
  | joined {i : Nat} {e : Ending} (hi : c.stages[i]? = some (.ended e))
    (hl : c.stages.length = b.sources.length) (ht : ∀ g ∈ c.stages.take i, g.isJoined) :
    Stepped b c (.join i) { c with stages := c.stages.set i (.joined e) }

theorem stepped_iff : b.Stepped c e c' ↔ b.step c e = some c' := by
  constructor
  · rintro (⟨hs, ht⟩ | ⟨hs, ht⟩ | ⟨hs, hi, ho⟩ | ⟨hs, hi, ho⟩ | ⟨hs, hi⟩ | ⟨hi, hl, ht⟩)
    · simp [step, start, hs, ht]
    · simp [step, start, hs, ht]
    · simp [step, work, hs, hi, ho]
    · simp [step, work, hs, hi, ho]
    · simp [step, work, hs, hi]
    · simp only [step, join, hi, hl, true_and, List.all_eq_true]
      exact if_pos ht
  · intro h
    cases e with
    | start =>
      simp only [step, start, Option.bind_eq_bind, Option.bind_eq_some_iff] at h
      obtain ⟨s, hs, h⟩ := h
      split at h
      next ht =>
        cases h
        exact .spawned hs ht
      next ht =>
        cases h
        exact .ran hs (by simpa using ht)
    | work i =>
      simp only [step, work, Option.bind_eq_bind, Option.bind_eq_some_iff] at h
      obtain ⟨s, hs, h⟩ := h
      split at h
      next hi ho =>
        cases h
        exact .handedIn hs hi ho
      next hi ho =>
        cases h
        exact .failed hs hi ho
      next _ hi =>
        cases h
        exact .succeeded hs hi
      next => cases h
    | join i =>
      simp only [step, join] at h
      split at h
      next hi =>
        simp only [Option.ite_none_right_eq_some, List.all_eq_true] at h
        obtain ⟨⟨hl, ht⟩, h⟩ := h
        cases h
        exact .joined hi hl ht
      next => cases h

/-! ## What holds at any time -/

/-- The task of a function can be at the stage. -/
def Allows (b : Batch) (s : Source) : TaskStage → Prop
  | .working => True
  | .handedIn => (b.output? s).isSome
  | .ended e | .joined e => e = b.ending s

/-- **What holds of the tasks of a batch at any time.** -/
structure Fits (b : Batch) (c : Crew) : Prop where
  stages : ∀ (i : Nat) g, c.stages[i]? = some g → ∃ s, b.sources[i]? = some s ∧ b.Allows s g
  /-- The results are those of the functions whose tasks are not at work any more. -/
  results : ∀ x, x ∈ c.results ↔ ∃ s g, b.sources[x.index]? = some s ∧
    c.stages[x.index]? = some g ∧ g ≠ .working ∧ x ∈ b.handsIn x.index s
  nodup : (c.results.map (·.index)).Nodup

theorem mem_handsIn {x : BatchResult} :
    x ∈ b.handsIn i s ↔ x.index = i ∧ b.outcome s = .ok (x.output, x.statistics) := by
  unfold handsIn
  obtain ⟨j, o, t⟩ := x
  split
  next ho => simp [ho]; grind
  next ho => simp [ho]

theorem nodup_handsIn : ((b.handsIn i s).map (·.index)).Nodup := by
  unfold handsIn
  split <;> simp

theorem ending_of_ok {d : Output × Statistics} (h : b.outcome s = .ok d) :
    b.ending s = .success := by
  rw [ending, h]
  rfl

namespace Fits

variable {stages : List TaskStage}

theorem empty : b.Fits .empty where
  stages := by simp [Crew.empty]
  results := by simp [Crew.empty]
  nodup := by simp [Crew.empty]

theorem length_le (h : b.Fits c) : c.stages.length ≤ b.sources.length := by
  by_contra hlt
  obtain ⟨s, hs, -⟩ := h.stages _ _ (List.getElem?_eq_getElem (Nat.lt_of_not_le hlt))
  simp at hs

theorem stages_moved (h : b.Fits c) (hs : b.sources[i]? = some s) (hg : b.Allows s g)
    (hst : ∀ j : Nat, stages[j]? = if j = i then some g else c.stages[j]?) (j : Nat)
    (g' : TaskStage) (hj : stages[j]? = some g') :
    ∃ s, b.sources[j]? = some s ∧ b.Allows s g' := by
  rw [hst] at hj
  split at hj
  next hji =>
    cases hj
    exact ⟨s, hji ▸ hs, hg⟩
  next => exact h.stages j g' hj

/-- A task that is new or at work hands in its result, unless it is still at work. -/
theorem handIn (h : b.Fits c) (hs : b.sources[i]? = some s) (hg : b.Allows s g)
    (hst : ∀ j : Nat, stages[j]? = if j = i then some g else c.stages[j]?)
    (hi : ∀ g, c.stages[i]? = some g → g = .working) :
    b.Fits ⟨stages, c.results ++ if g = .working then [] else b.handsIn i s⟩ where
  stages := h.stages_moved hs hg hst
  results x := by
    rw [List.mem_append, h.results, hst]
    by_cases hx : x.index = i
    · subst hx
      by_cases hg : g = .working
      · simp only [hg]
        grind
      · simp only [if_neg hg]
        grind
    · have : x ∉ b.handsIn i s := fun hmem => hx (mem_handsIn.mp hmem).1
      simp only [if_neg hx]
      grind
  nodup := by
    rw [List.map_append, List.nodup_append']
    refine ⟨h.nodup, by split <;> simp [nodup_handsIn], ?_⟩
    intro j hj hj'
    obtain ⟨x, hx, rfl⟩ := List.mem_map.mp hj
    obtain ⟨y, hy, he⟩ := List.mem_map.mp hj'
    obtain ⟨_, g', -, hg', hne, -⟩ := (h.results x).mp hx
    split at hy
    · simp at hy
    · rw [← he, (mem_handsIn.mp hy).1] at hg'
      exact hne (hi g' hg')

/-- A task that handed in its result before moves on without another one. -/
theorem moveOn {g' : TaskStage} (h : b.Fits c) (hs : b.sources[i]? = some s) (hg : b.Allows s g)
    (hst : ∀ j : Nat, stages[j]? = if j = i then some g else c.stages[j]?)
    (hi : c.stages[i]? = some g') (hg' : g' ≠ .working) (hne : g ≠ .working) :
    b.Fits ⟨stages, c.results⟩ where
  stages := h.stages_moved hs hg hst
  results x := by
    rw [h.results, hst]
    split <;> grind
  nodup := h.nodup

theorem getElem?_concat {α : Type} (xs : List α) (x : α) (j : Nat) :
    (xs ++ [x])[j]? = if j = xs.length then some x else xs[j]? := by
  grind

theorem getElem?_set {α : Type} {xs : List α} {x : α} (h : i < xs.length) (j : Nat) :
    (xs.set i x)[j]? = if j = i then some x else xs[j]? := by
  grind

/-- **Each event keeps it.** -/
theorem step (h : b.Fits c) (hc : b.step c e = some c') : b.Fits c' := by
  cases stepped_iff.mpr hc with
  | spawned hs ht =>
    simpa using h.handIn (g := .working) hs trivial (getElem?_concat _ _) fun g hg => by simp at hg
  | ran hs ht =>
    simpa using h.handIn (g := .joined _) hs rfl (getElem?_concat _ _) fun g hg => by simp at hg
  | handedIn hs hi ho =>
    have hlt := (List.getElem?_eq_some_iff.mp hi).1
    have hsome := Option.isSome_iff_exists.mpr ⟨_, output?_eq_some.mpr ⟨_, ho⟩⟩
    simpa [handsIn, ho] using h.handIn (g := .handedIn) hs hsome (getElem?_set hlt) (by grind)
  | failed hs hi ho =>
    have hlt := (List.getElem?_eq_some_iff.mp hi).1
    simpa [handsIn, ho] using h.handIn (g := .ended _) hs rfl (getElem?_set hlt) (by grind)
  | succeeded hs hi =>
    have hlt := (List.getElem?_eq_some_iff.mp hi).1
    obtain ⟨s', hs', ho⟩ := h.stages _ _ hi
    cases hs.symm.trans hs'
    obtain ⟨o, ho⟩ := Option.isSome_iff_exists.mp ho
    obtain ⟨t, ho⟩ := output?_eq_some.mp ho
    exact h.moveOn (g := .ended _) hs (ending_of_ok ho).symm (getElem?_set hlt) hi (by simp) (by simp)
  | joined hi hl ht =>
    have hlt := (List.getElem?_eq_some_iff.mp hi).1
    obtain ⟨s, hs, he⟩ := h.stages _ _ hi
    exact h.moveOn (g := .joined _) hs he (getElem?_set hlt) hi (by simp) (by simp)

end Fits

end Batch

/-! ## Events in a row -/

/-- The number of steps to a stage. -/
def TaskStage.rank : TaskStage → Nat
  | working => 1
  | handedIn => 2
  | ended _ => 3
  | joined _ => 4

/-- The number of steps that the tasks can have taken. -/
def Crew.weight (c : Crew) : Nat := (c.stages.map (·.rank)).sum

namespace Batch

theorem weight_set {xs : List TaskStage} {g' : TaskStage} (hi : xs[i]? = some g)
    (hlt : g.rank < g'.rank) :
    (xs.map (·.rank)).sum < ((xs.set i g').map (·.rank)).sum := by
  obtain ⟨hlen, rfl⟩ := List.getElem?_eq_some_iff.mp hi
  have hsum := List.sum_take_add_sum_drop (xs.map (·.rank)) i
  rw [List.drop_eq_getElem_cons (by simpa using hlen), List.sum_cons, List.getElem_map] at hsum
  rw [List.map_set, List.sum_set, List.length_map, if_pos hlen]
  omega

theorem weight_lt (h : b.step c e = some c') : c.weight < c'.weight := by
  cases stepped_iff.mpr h with
  | spawned | ran => simp [Crew.weight, TaskStage.rank]
  | handedIn _ hi | failed _ hi | succeeded _ hi | joined hi =>
    exact weight_set hi (by simp [TaskStage.rank])

theorem weight_le (gs : List TaskStage) : (gs.map (·.rank)).sum ≤ 4 * gs.length := by
  induction gs with
  | nil => exact Nat.zero_le _
  | cons g gs ih =>
    have : g.rank ≤ 4 := by cases g <;> simp [TaskStage.rank]
    simp only [List.map_cons, List.sum_cons, List.length_cons]
    omega

theorem fits_foldlM (h : b.Fits c) (hr : es.foldlM b.step c = some c') :
    b.Fits c' ∧ c.weight + es.length ≤ c'.weight := by
  induction es generalizing c with
  | nil =>
    cases hr
    exact ⟨h, Nat.le_refl _⟩
  | cons e es ih =>
    obtain ⟨c₁, h₁, h₂⟩ := Option.bind_eq_some_iff.mp hr
    obtain ⟨hf, hw⟩ := ih (h.step h₁) h₂
    have := weight_lt h₁
    rw [List.length_cons]
    exact ⟨hf, by omega⟩

/-- **What holds behind any events in a row**, of which there are not many. -/
theorem fits_of_run (h : b.run es = some c) : b.Fits c ∧ es.length ≤ 4 * b.sources.length := by
  obtain ⟨hf, hw⟩ := fits_foldlM .empty h
  have hle : c.weight ≤ _ := weight_le c.stages
  have hlen := hf.length_le
  exact ⟨hf, by omega⟩

/-! ## The end -/

theorem exists_start (h : c.stages.length < b.sources.length) : ∃ c', b.step c .start = some c' := by
  have hs := List.getElem?_eq_getElem h
  cases ht : b.config.multithreaded with
  | true => exact ⟨_, stepped_iff.mp (.spawned hs ht)⟩
  | false => exact ⟨_, stepped_iff.mp (.ran hs ht)⟩

/-- **Tasks that are not all over do not get stuck.** -/
theorem exists_step (h : b.Fits c) (hd : ¬ b.Done c) : ∃ e c', b.step c e = some c' := by
  rcases Nat.lt_or_eq_of_le h.length_le with hlt | hlen
  · exact ⟨.start, exists_start hlt⟩
  obtain ⟨g, hg⟩ : ∃ g, c.stages.find? (fun g => !g.isJoined) = some g := by
    rw [← Option.isSome_iff_exists, List.find?_isSome]
    have hall : ¬ (c.stages.all (·.isJoined) : Prop) := fun hall => hd ⟨hlen, hall⟩
    simpa using hall
  -- the first task that is not joined can take a step, or the phase is about to see its end
  obtain ⟨hgj, front, rest, hfront, hjoined⟩ := List.find?_eq_some_iff_append.mp hg
  have hi : c.stages[front.length]? = some g := by simp [hfront]
  obtain ⟨s, hs, -⟩ := h.stages _ _ hi
  cases g with
  | working =>
    cases ho : b.outcome s with
    | ok d => exact ⟨_, _, stepped_iff.mp (.handedIn (o := d.1) (t := d.2) hs hi ho)⟩
    | error f => exact ⟨_, _, stepped_iff.mp (.failed hs hi ho)⟩
  | handedIn => exact ⟨_, _, stepped_iff.mp (.succeeded hs hi)⟩
  | ended e =>
    refine ⟨_, _, stepped_iff.mp (.joined hi hlen fun g hg => ?_)⟩
    rw [hfront, List.take_left] at hg
    simpa using hjoined g hg
  | joined e => cases hgj

/-- The results of all functions in the order of the sources. -/
def allResults (b : Batch) : List BatchResult :=
  b.sources.zipIdx.flatMap fun d => b.handsIn d.2 d.1

theorem mem_allResults {x : BatchResult} :
    x ∈ b.allResults ↔ ∃ s, b.sources[x.index]? = some s ∧ x ∈ b.handsIn x.index s := by
  simp only [allResults, List.mem_flatMap, List.mem_zipIdx_iff_getElem?]
  constructor
  · rintro ⟨⟨s, i⟩, hs, hx⟩
    obtain rfl := (mem_handsIn.mp hx).1
    exact ⟨s, hs, hx⟩
  · rintro ⟨s, hs, hx⟩
    exact ⟨(s, x.index), hs, hx⟩

theorem pairwise_allResults : b.allResults.Pairwise (·.index < ·.index) := by
  refine List.pairwise_flatMap.mpr ⟨fun d _ => ?_, ?_⟩
  · unfold handsIn
    split <;> simp
  · have hlt := List.pairwise_lt_range' (s := 0) (n := b.sources.length) 1
    rw [← List.zipIdx_map_snd, List.pairwise_map] at hlt
    refine hlt.imp fun {d d'} hlt x hx y hy => ?_
    rw [(mem_handsIn.mp hx).1, (mem_handsIn.mp hy).1]
    exact hlt

theorem map_allResults : b.allResults.map (fun x => (x.output, x.statistics)) = b.compiled := by
  have hmap (i : Nat) (s : Source) : (b.handsIn i s).map (fun x => (x.output, x.statistics)) =
      (b.outcome s).toOption.toList := by
    unfold handsIn
    cases b.outcome s <;> rfl
  rw [allResults, List.map_flatMap, compiled, List.filterMap_eq_flatMap_toList]
  simp only [hmap]
  conv_rhs => rw [← List.zipIdx_map_fst 0 b.sources, List.flatMap_map]

namespace Fits

theorem perm_allResults (h : b.Fits c) (hd : b.Done c) : c.results.Perm b.allResults := by
  have hnodup : b.allResults.Nodup := pairwise_allResults.imp fun {x y} hlt he =>
    Nat.ne_of_lt hlt (congrArg BatchResult.index he)
  refine (List.perm_ext_iff_of_nodup h.nodup.of_map hnodup).mpr fun x => ?_
  rw [h.results, mem_allResults]
  constructor
  · rintro ⟨s, _, hs, -, -, hx⟩
    exact ⟨s, hs, hx⟩
  · rintro ⟨s, hs, hx⟩
    have hlt := (List.getElem?_eq_some_iff.mp hs).1
    rw [← hd.1] at hlt
    refine ⟨s, _, hs, List.getElem?_eq_getElem hlt, fun hg => ?_, hx⟩
    have := List.all_eq_true.mp hd.2 _ (List.getElem_mem hlt)
    rw [hg] at this
    cases this

theorem mergeSort_results (h : b.Fits c) (hd : b.Done c) :
    c.results.mergeSort (·.index ≤ ·.index) = b.allResults := by
  have hperm := h.perm_allResults hd
  refine @List.Perm.eq_of_pairwise _ (fun x y => x.index ≤ y.index) _ _ ?_ ?_
    (pairwise_allResults.imp Nat.le_of_lt) ((List.mergeSort_perm _ _).trans hperm)
  · intro x y hx hy hxy hyx
    rw [List.mem_mergeSort, hperm.mem_iff] at hx
    obtain ⟨s, hs, hx⟩ := mem_allResults.mp hx
    obtain ⟨s', hs', hy⟩ := mem_allResults.mp hy
    have hi := Nat.le_antisymm hxy hyx
    rw [hi] at hs hx
    cases hs.symm.trans hs'
    have ho := (mem_handsIn.mp hx).2.symm.trans (mem_handsIn.mp hy).2
    cases x
    cases y
    simp_all
  · exact (List.pairwise_mergeSort (by simpa using fun _ _ _ => Nat.le_trans)
      (by simpa using fun _ _ => Nat.le_total _ _) _).imp (by simp)

theorem stages_eq (h : b.Fits c) (hd : b.Done c) :
    c.stages = b.sources.map fun s => .joined (b.ending s) := by
  refine List.ext_getElem (by simp [hd.1]) fun i hi hi' => ?_
  rw [List.getElem_map]
  obtain ⟨s, hs, hg⟩ := h.stages i _ (List.getElem?_eq_getElem hi)
  obtain ⟨hlt, rfl⟩ := List.getElem?_eq_some_iff.mp hs
  have hjoined := List.all_eq_true.mp hd.2 _ (List.getElem_mem hi)
  cases hc : c.stages[i] with
  | joined e =>
    rw [hc] at hg
    exact congrArg _ hg
  | working | handedIn | ended =>
    rw [hc] at hjoined
    cases hjoined

/-- **When all tasks are over, the report is the one on the batch.** -/
theorem report_eq (h : b.Fits c) (hd : b.Done c) : c.report = b.report := by
  have hmessages : c.stages.filterMap (·.message?) = b.sources.filterMap b.message? := by
    rw [h.stages_eq hd, List.filterMap_map]
    rfl
  rw [Crew.report, h.mergeSort_results hd, hmessages, report, ← map_compiled, ← map_allResults,
    List.map_map, Statistics.merged, List.foldl_map]
  rfl

end Fits

/-! ## One behind the other -/

theorem run_concat : b.run (es ++ [e]) = (b.run es).bind (b.step · e) := by
  simp [run, List.foldlM_append]

theorem exists_inline_run (ht : b.config.multithreaded = false) {n : Nat}
    (hn : n ≤ b.sources.length) : ∃ c, b.run (.replicate n .start) = some c ∧
      c.stages.length = n ∧ c.stages.all (·.isJoined) := by
  induction n with
  | zero => exact ⟨.empty, rfl, rfl, rfl⟩
  | succ n ih =>
    obtain ⟨c, hc, rfl, hall⟩ := ih (Nat.le_of_succ_le hn)
    have hs := stepped_iff.mp (.ran (List.getElem?_eq_getElem hn) ht)
    generalize b.sources[c.stages.length] = s at hs
    refine ⟨⟨c.stages ++ [.joined (b.ending s)], c.results ++ b.handsIn c.stages.length s⟩, ?_,
      by simp, by simp_all [TaskStage.isJoined]⟩
    rw [List.replicate_succ', run_concat, hc]
    exact hs

/-- **The report does not depend on the order in which the tasks take their steps.** There are not
many steps, and one is possible until all tasks are over. Then the report tells of each function what
became of it alone, and is the same as when the functions are compiled one behind the other. -/
theorem report_of_run (h : b.run es = some c) :
    es.length ≤ 4 * b.sources.length ∧ (b.Done c ∨ ∃ e c', b.step c e = some c') ∧
      (b.Done c → b.Reports c.report ∧ ∃ c', b.inline.Done c' ∧
        b.inline.run (.replicate b.sources.length .start) = some c' ∧ c.report = c'.report ∧
        c.report = compileAll b.inline.config b.binary b.symbols b.sources) := by
  obtain ⟨hfits, hlen⟩ := fits_of_run h
  refine ⟨hlen, ?_, fun hd => ?_⟩
  · by_cases hd : b.Done c
    · exact .inl hd
    · exact .inr (exists_step hfits hd)
  · have hreport := hfits.report_eq hd
    obtain ⟨c', hrun, hdone⟩ := exists_inline_run (b := b.inline) rfl (Nat.le_refl b.sources.length)
    -- what a function is compiled to has no use for threads
    have hinline : b.inline.report = b.report := rfl
    rw [hreport]
    refine ⟨reports_report b, c', hdone, hrun, ?_, ?_⟩
    · rw [(fits_of_run hrun).1.report_eq hdone, hinline]
    · rw [← hinline, ← b.inline.compileAll_eq]
      rfl

/-! ## A task that is overtaken -/

/-- The third function of three overtakes the others, and the second one fails. -/
def overtaking : List BatchEvent :=
  [.start, .start, .work 1, .start, .work 2, .work 0, .work 0, .work 2, .join 0, .join 1, .join 2]

theorem run_overtaking {s₀ s₁ s₂ : Source} {o₀ o₂ : Output} {t₀ t₂ : Statistics} {f : Fault}
    (ht : b.config.multithreaded = true) (hs : b.sources = [s₀, s₁, s₂])
    (h₀ : b.outcome s₀ = .ok (o₀, t₀)) (h₁ : b.outcome s₁ = .error f)
    (h₂ : b.outcome s₂ = .ok (o₂, t₂)) : b.run overtaking = some
      ⟨[.joined .success, .joined (b.ending s₁), .joined .success], [⟨2, o₂, t₂⟩, ⟨0, o₀, t₀⟩]⟩ := by
  simp [run, overtaking, step, start, work, join, Crew.empty, ht, hs, h₀, h₁, h₂,
    TaskStage.isJoined]

open Surface in
/-- Three functions, of which the second one compares where a value is needed. -/
def trio : ProgramForm where
  globals := []
  types := []
  functions := [
    { name := "one", key := "one", inside? := none, parameters := [], returnType? := some "i64"
      body? := some [.retValue (.number (.integer 1) .i64)] },
    { name := "odd", key := "odd", inside? := none, parameters := [⟨"a", some "i64"⟩]
      returnType? := some "i64"
      body? := some [.retValue (.operator .less (.reference "a") (.number (.integer 1) .i64))] },
    { name := "nil", key := "nil", inside? := none, parameters := [], returnType? := none
      body? := some [.ret] }]

/-- The functions of a program. -/
def ofProgram (l : Surface.Loaded) (config : Config) : Batch :=
  ⟨config, false, l.symbols, l.bodies.map (·.toSource)⟩

theorem trio_outputs : ((Surface.load trio).toOption.any fun l =>
    (ofProgram l ⟨.x64, false, true⟩).sources.map (fun s =>
      ((ofProgram l ⟨.x64, false, true⟩).output? s).map (·.operations.length)) ==
        [some 4, none, some 3]) = true := by
  cbv

/-- So the results are handed in backwards and reported in order, with one message between. -/
theorem report_of_run_overtaking : ∃ (b : Batch) (c : Crew), b.config.multithreaded = true ∧
    b.run overtaking = some c ∧ b.Done c ∧ c.results.map (·.index) = [2, 0] ∧ b.Reports c.report ∧
    c.report.outputs.map (·.operations.length) = [4, 3] ∧ c.report.errors.length = 1 ∧
    ∃ c', b.inline.Done c' ∧ b.inline.run [.start, .start, .start] = some c' ∧
      c.report = c'.report := by
  obtain ⟨l, -, hl⟩ := (Option.any_eq_true _ _).mp trio_outputs
  have houtputs := beq_iff_eq.mp hl
  generalize ht : ofProgram l ⟨.x64, false, true⟩ = b at houtputs
  have ht : b.config.multithreaded = true := ht ▸ rfl
  obtain ⟨s₀, s₁, s₂, hs⟩ := List.length_eq_three.mp (by simpa using congrArg List.length houtputs)
  simp only [hs, List.map_cons, List.map_nil, List.cons.injEq, and_true, Option.map_eq_some_iff,
    Option.map_eq_none_iff] at houtputs
  obtain ⟨⟨o₀, h₀, hn₀⟩, h₁, o₂, h₂, hn₂⟩ := houtputs
  obtain ⟨t₀, ho₀⟩ := output?_eq_some.mp h₀
  obtain ⟨f, ho₁⟩ := output?_eq_none.mp h₁
  obtain ⟨t₂, ho₂⟩ := output?_eq_some.mp h₂
  have hrun := run_overtaking ht hs ho₀ ho₁ ho₂
  obtain ⟨-, -, hdone⟩ := report_of_run hrun
  obtain ⟨hreports, c', hd', hrun', hreport, -⟩ := hdone ⟨by rw [hs]; rfl, rfl⟩
  rw [hs] at hrun'
  refine ⟨b, _, ht, hrun, ⟨by rw [hs]; rfl, rfl⟩, rfl, hreports, ?_, ?_, c', hd', hrun', hreport⟩
  · rw [hreports.outputs, hs]
    simp [h₀, h₁, h₂, hn₀, hn₂]
  · have hsome (s : Source) := hreports.either s
    have hm₀ : b.message? s₀ = none := by simpa [h₀] using hsome s₀
    have hm₂ : b.message? s₂ = none := by simpa [h₂] using hsome s₂
    obtain ⟨m, hm₁⟩ := Option.isSome_iff_exists.mp ((hsome s₁).trans (by rw [h₁]; rfl))
    rw [hreports.errors, hs]
    simp [hm₀, hm₁, hm₂]

end Batch

end Codegen
