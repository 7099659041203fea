import Codegen.Proofs.Round.Condition

/-!
# Statements that leave a loop

A statement that leaves or restarts a loop looks the innermost loop around it up in the table of
loops. Before its first round a loop is not in the table yet, so what a loop does before its first
round cannot leave it: the lowering would have failed. Since that is lowered again behind each round,
no record of an earlier lowering of the loop is looked up either.

* `Shape.Leaves`: the part leaves or restarts the innermost loop around it;
* `Tabled`: **the loops of the table cannot be left before their rounds**;
* `Traversed`: what the lowering of a part does, and which record it looks up.
-/

namespace Codegen

open Generating

namespace Shape

/-- **The part leaves or restarts the innermost loop around it**, or some statement in it does. The
parts that follow it may be branches of the chain that it begins. -/
inductive Leaves : Shape → List Shape → Prop
  | control {s : Shape} {ss : List Shape} {k : LoopControl} (hk : s.kind = .control k) :
      Leaves s ss
  | statement {s c : Shape} {ss before after : List Shape} {k : ContextId}
      (hk : s.kind = .scope k) (hp : s.parts = before ++ c :: after)
      (hc : c.kind.isAlternative = false) (h : Leaves c after) : Leaves s ss
  | test {s b d q c : Shape} {ss before after : List Shape} {k : ContextId}
      (hk : s.kind = .ifBranch k) (hb : b ∈ s :: followers s.kind ss)
      (hc : b.kind.isConditional = true) (hd : b.scope? = some d)
      (hp : d.parts = before ++ c :: (after ++ [q])) (h : Leaves c (after ++ [q])) : Leaves s ss
  | body {s b c : Shape} {ss cs : List Shape} {k : ContextId} (hk : s.kind = .ifBranch k)
      (hb : b ∈ s :: followers s.kind ss) (hp : b.bodyOn = c :: cs) (h : Leaves c cs) :
      Leaves s ss

/-- One of the parts, which are followed by others, leaves the loop. -/
def AnyLeaves (cs rest : List Shape) : Prop :=
  ∃ before c after, cs = before ++ c :: after ∧ Leaves c (after ++ rest)

/-- One of the statements, which does not continue a chain, leaves the loop. -/
def StatedLeaves (cs : List Shape) : Prop :=
  ∃ before c after, cs = before ++ c :: after ∧ c.kind.isAlternative = false ∧ Leaves c after

/-- The first one of the parts leaves the loop. -/
def FirstLeaves (cs : List Shape) : Prop := ∃ c rest, cs = c :: rest ∧ Leaves c rest

/-- A statement before the condition of a branch or a loop leaves the loop. -/
def TestLeaves (s : Shape) : Prop :=
  ∃ d q cs, s.scope? = some d ∧ d.parts = cs ++ [q] ∧ AnyLeaves cs [q]

/-- The body of a branch or a loop leaves the loop. -/
def BodyLeaves (s : Shape) : Prop := FirstLeaves s.bodyOn

/-- The loop is left before its first round. -/
def LeavesBefore (s : Shape) : Prop :=
  FirstLeaves s.parts ∨ TestLeaves s

/-- A member of a list with what follows it: the first one, or a later one. -/
theorem exists_split_cons {α : Type} {Q : α → List α → Prop} {x : α} {xs : List α} :
    (∃ before c after, x :: xs = before ++ c :: after ∧ Q c after) ↔
      Q x xs ∨ ∃ before c after, xs = before ++ c :: after ∧ Q c after := by
  constructor
  · rintro ⟨_ | ⟨b, before⟩, c, after, h, hq⟩
    · cases h
      exact .inl hq
    · cases h
      exact .inr ⟨before, c, after, rfl, hq⟩
  · rintro (hq | ⟨before, c, after, rfl, hq⟩)
    · exact ⟨[], x, xs, rfl, hq⟩
    · exact ⟨x :: before, c, after, rfl, hq⟩

theorem anyLeaves_nil (rest : List Shape) : ¬ AnyLeaves [] rest := by simp [AnyLeaves]

theorem anyLeaves_cons {c : Shape} {cs rest : List Shape} :
    AnyLeaves (c :: cs) rest ↔ Leaves c (cs ++ rest) ∨ AnyLeaves cs rest := exists_split_cons

theorem statedLeaves_nil : ¬ StatedLeaves [] := by simp [StatedLeaves]

theorem statedLeaves_cons {c : Shape} {cs : List Shape} :
    StatedLeaves (c :: cs) ↔ (c.kind.isAlternative = false ∧ Leaves c cs) ∨ StatedLeaves cs :=
  exists_split_cons

theorem firstLeaves_cons {c : Shape} {cs : List Shape} :
    FirstLeaves (c :: cs) ↔ Leaves c cs := by
  simp [FirstLeaves]

theorem leaves_scope {s : Shape} {ss : List Shape} {k : ContextId} (hk : s.kind = .scope k) :
    Leaves s ss ↔ StatedLeaves s.parts := by
  constructor
  · intro h
    cases h with
    | statement _ hp hc h => exact ⟨_, _, _, hp, hc, h⟩
    | control hk' | test hk' | body hk' => simp [hk] at hk'
  · rintro ⟨before, c, after, hp, hc, h⟩
    exact .statement hk hp hc h

/-- The test or the body of one of the branches leaves the loop. -/
def BranchLeaves (b : Shape) : Prop :=
  b.kind.isConditional = true ∧ b.TestLeaves ∨ b.BodyLeaves

theorem leaves_chain {s : Shape} {ss : List Shape} {k : ContextId} (hk : s.kind = .ifBranch k) :
    Leaves s ss ↔ ∃ b ∈ s :: followers s.kind ss, b.BranchLeaves := by
  constructor
  · intro h
    cases h with
    | test _ hb hc hd hp h =>
      exact ⟨_, hb, .inl ⟨hc, _, _, _, hd, hp.trans (List.append_assoc _ (_ :: _) _).symm, _, _, _,
        rfl, h⟩⟩
    | body _ hb hp h => exact ⟨_, hb, .inr ⟨_, _, hp, h⟩⟩
    | control hk' | statement hk' => simp [hk] at hk'
  · rintro ⟨b, hb, ⟨hc, d, q, cs, hd, hp, before, c, after, rfl, h⟩ | ⟨c, cs, hp, h⟩⟩
    · exact .test hk hb hc hd (hp.trans (List.append_assoc _ _ _)) h
    · exact .body hk hb hp h

theorem not_leaves {s : Shape} {ss : List Shape} (h₁ : ∀ k, s.kind ≠ .scope k)
    (h₂ : ∀ k, s.kind ≠ .ifBranch k) (h₃ : ∀ k, s.kind ≠ .control k) : ¬ Leaves s ss := by
  intro h
  cases h with
  | control hk => exact h₃ _ hk
  | statement hk => exact h₁ _ hk
  | test hk | body hk => exact h₂ _ hk

end Shape

/-- **The loops of the table cannot be left before their rounds**, which begin in the stream. -/
structure Tabled (W : Shape) (r : Routine) : Prop where
  symmetry : ∀ n record, (n, record) ∈ r.loops → record.symmetry < r.kinds.length
  before : ∀ n record, (n, record) ∈ r.loops → ∀ {pl path s}, W.In pl path s → s.id = n →
    (∃ c, s.kind = .loop c false) → ¬ s.LeavesBefore

/-- The record of the innermost one of the loops around a part. -/
def Targets (path : List Shape) (r : Routine) (record : LoopRecord) : Prop :=
  ∃ p, path.find? (·.kind.isLoop) = some p ∧ r.loops.lookup p.id = some record

/-- **What the lowering of a part does.** If it leaves the innermost loop around it, that is in the
table of loops. -/
structure Traversed (t : Tree) (W : Shape) (path : List Shape) (leaves : Prop)
    (labels : List Label) (r r' : Routine) : Prop where
  tabled : Tabled W r'
  same : ∀ p ∈ path, r'.loops.lookup p.id = r.loops.lookup p.id
  targets : leaves → ∃ record, Targets path r record
  run : ∀ c : Exits, c.Old r → labels ⊆ c.labels → (leaves → ∀ record, Targets path r record →
    record.actives ⊆ c.actives ∧ c.symmetry? = some record.symmetry) → Run t c r r'

variable {t : Tree} {W s d : Shape} {path : List Shape} {P Q : Prop} {ls ls' : List Label}
variable {r r' r'' r₁ : Routine}

theorem Tabled.extend (h : Tabled W r) (hk : r.kinds.length ≤ r'.kinds.length)
    (hl : r'.loops = r.loops) : Tabled W r' :=
  ⟨fun n record hm => Nat.lt_of_lt_of_le (h.symmetry n record (hl ▸ hm)) hk,
    fun n record hm => h.before n record (hl ▸ hm)⟩

namespace Traversed

theorem of_run (ht : Tabled W r) (h : Run t ⟨[], none, ls, none⟩ r r')
    (hl : r'.loops = r.loops) : Traversed t W path False ls r r' := by
  refine ⟨ht.extend h.kinds.length_le hl, fun p _ => by rw [hl], False.elim,
    fun c _ hc _ => h.weaken ?_ ?_ ?_ ?_⟩
  · exact fun x hx => hx.imp_right fun hx => .inl (hx.resolve_right (by simp))
  · simp
  · exact fun l hl => .inr (hc hl)
  · simp

theorem exists_exits (h : Traversed t W path P ls r r') (ht : Tabled W r)
    (hls : ∀ l ∈ ls, l < r.labels) : ∃ c : Exits, c.Old r ∧ ls ⊆ c.labels ∧ (P → ∀ record,
      Targets path r record → record.actives ⊆ c.actives ∧ c.symmetry? = some record.symmetry) := by
  by_cases hp : P
  · obtain ⟨record, p, hp, hrec⟩ := h.targets hp
    refine ⟨⟨record.actives, some record.symmetry, ls, none⟩, ⟨?_, hls⟩, fun _ h => h, ?_⟩
    · rintro _ ⟨⟩
      obtain ⟨before, after, hl, -⟩ := List.lookup_eq_some_iff.mp hrec
      exact .inl (ht.symmetry p.id record (by simp [hl]))
    · rintro - record' ⟨p', hp', hrec'⟩
      cases hp.symm.trans hp'
      cases hrec.symm.trans hrec'
      exact ⟨fun _ h => h, rfl⟩
  · exact ⟨⟨[], none, ls, none⟩, ⟨by simp, hls⟩, fun _ h => h, fun h => absurd h hp⟩

theorem covered (h : Traversed t W path P ls r r') (ht : Tabled W r)
    (hls : ∀ l ∈ ls, l < r.labels) : Covered r' := by
  obtain ⟨c, ho, hc, hp⟩ := h.exists_exits ht hls
  exact (h.run c ho hc hp).covered

theorem labels_le (h : Traversed t W path P ls r r') (ht : Tabled W r)
    (hls : ∀ l ∈ ls, l < r.labels) : r.labels ≤ r'.labels := by
  obtain ⟨c, ho, hc, hp⟩ := h.exists_exits ht hls
  exact (h.run c ho hc hp).labels

theorem kinds (h : Traversed t W path P ls r r') (ht : Tabled W r)
    (hls : ∀ l ∈ ls, l < r.labels) : r.kinds <+: r'.kinds := by
  obtain ⟨c, ho, hc, hp⟩ := h.exists_exits ht hls
  exact (h.run c ho hc hp).kinds

theorem targets_same (h : Traversed t W path P ls r r') (record : LoopRecord) :
    Targets path r' record ↔ Targets path r record := by
  refine exists_congr fun p => and_congr_right fun hp => ?_
  rw [h.same p (List.mem_of_find?_eq_some hp)]

/-- **One part after another.** -/
theorem trans (h : Traversed t W path P ls r r') (h' : Traversed t W path Q ls r' r'') :
    Traversed t W path (P ∨ Q) ls r r'' := by
  refine ⟨h'.tabled, fun p hp => (h'.same p hp).trans (h.same p hp), ?_, fun c ho hc hp => ?_⟩
  · rintro (hp | hq)
    · exact h.targets hp
    · exact (h'.targets hq).imp fun record => (h.targets_same record).mp
  · have h₁ := h.run c ho hc fun hP => hp (.inl hP)
    exact h₁.trans ho (h'.run c (ho.run h₁) hc fun hQ record hr =>
      hp (.inr hQ) record ((h.targets_same record).mp hr))

theorem congr (h : Traversed t W path P ls r r') (hPQ : Q ↔ P) : Traversed t W path Q ls r r' :=
  propext hPQ ▸ h

theorem up (h : Traversed t W (s :: path) P ls r r') (hs : s.kind.isLoop = false) :
    Traversed t W path P ls r r' := by
  have htargets (record : LoopRecord) : Targets (s :: path) r record ↔ Targets path r record := by
    simp [Targets, hs]
  refine ⟨h.tabled, fun p hp => h.same p (List.mem_cons_of_mem _ hp),
    fun hp => (h.targets hp).imp fun record => (htargets record).mp, fun c ho hc hp => ?_⟩
  exact h.run c ho hc fun hP record hr => hp hP record ((htargets record).mp hr)

theorem mono (h : Traversed t W path P ls r r') (hls : ls ⊆ ls') :
    Traversed t W path P ls' r r' :=
  ⟨h.tabled, h.same, h.targets, fun c ho hc => h.run c ho (List.Subset.trans hls hc)⟩

/-- Fresh labels are no exits. -/
theorem fresh {q : Routine} (h : Traversed t W path P (ls' ++ ls) q r')
    (hi : q.instructions = r.instructions) (hv : q.values = r.values)
    (hb : q.bindings = r.bindings) (hloops : q.loops = r.loops) (hl : r.labels ≤ q.labels)
    (hls : ∀ l ∈ ls', r.labels ≤ l ∧ l < q.labels) : Traversed t W path P ls r r' := by
  have hk : q.kinds = r.kinds := by rw [Routine.kinds, hi, Routine.kinds]
  have htargets (record : LoopRecord) : Targets path q record ↔ Targets path r record := by
    simp [Targets, hloops]
  refine ⟨h.tabled, fun p hp => by rw [h.same p hp, hloops],
    fun hp => (h.targets hp).imp fun record => (htargets record).mp, fun c ho hc hp => ?_⟩
  have h' := h.run { c with labels := ls' ++ c.labels } ⟨?_, ?_⟩ ?_ fun hP record hr =>
    hp hP record ((htargets record).mp hr)
  · refine (h'.rebase hi hv hb hl).weaken (fun _ h => h) (fun _ => .inr) (fun l hl => ?_)
      fun _ h => h
    exact (List.mem_append.mp hl).imp (fun hl => (hls l hl).1) (fun hl => hl)
  · exact hk ▸ ho.symmetry
  · intro l hm
    rcases List.mem_append.mp hm with hm | hm
    · exact (hls l hm).2
    · exact Nat.lt_of_lt_of_le (ho.labels l hm) hl
  · exact List.append_subset.mpr ⟨List.subset_append_left _ _,
      fun l hl => List.mem_append_right _ (hc hl)⟩

end Traversed

end Codegen
