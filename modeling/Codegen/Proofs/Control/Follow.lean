import Codegen.Proofs.Control.Denotes
import Codegen.Proofs.Lowering.Kept

/-!
# Walks that follow an execution

A walk follows the execution of a part if its instructions carry out the events of the part, and it
ends where the part ends: behind its instructions, at the label that a control statement leads to,
or behind a return. If the execution was cut short, the walk has taken at least as many steps as
there were rounds left.

* `Follows`: **the walk from an instruction does what a part does**;
* `Follows.bind`, `rounds`: sequences and loops;
* `Silent`: instructions that do nothing;
* `Traced`: **the instructions that were appended do what a part does**.
-/

namespace Codegen

open Exec

variable {α β : Type} {o : Oracle} {R : Routine} {symbols : SymbolTable} {n i j k : Nat}
variable {targets : Option (LoopControl → Label)} {ks g g' : List InstructionKind} {h : History}
variable {ends : α → Nat}

/-! ## Walks and executions -/

/-- The walk through a routine from an instruction ends as the execution of a part did, and the
instructions on it have carried out what happened. -/
def Answers (o : Oracle) (R : Routine) (symbols : SymbolTable)
    (targets : Option (LoopControl → Label)) (n i : Nat) (g : List InstructionKind)
    (ends : α → Nat) : EStateM.Result Leave History α → Prop
  | .ok a h => ∃ k g', Reaches o R.kinds k i g (ends a) g' ∧ R.Matches symbols g' h
  | .error (.control c) h => ∃ f, targets = some f ∧
      ∃ k g', Reaches o R.kinds k i g (landing R.kinds (f c)) g' ∧ R.Matches symbols g' h
  | .error .ret h => ∃ k g', Returns o R.kinds k i g g' ∧ R.Matches symbols g' h
  | .error .cut h => ∃ k j g', n ≤ k ∧ Reaches o R.kinds k i g j g' ∧ R.Matches symbols g' h

/-- **The walk from an instruction does what a part does.** -/
def Follows (o : Oracle) (R : Routine) (symbols : SymbolTable)
    (targets : Option (LoopControl → Label)) (n : Nat) (m : Exec α) (i : Nat) (ends : α → Nat) :
    Prop :=
  ∀ g h, R.Matches symbols g h → Answers o R symbols targets n i g ends (m h)

/-- The walk passes from one instruction to another without an event. -/
def Passes (o : Oracle) (ks : List InstructionKind) (i j : Nat) : Prop :=
  ∀ g, ∃ k, Reaches o ks k i g j g

theorem Passes.refl : Passes o ks i i := fun _ => ⟨0, .refl⟩

theorem Passes.of_eq (e : i = j) : Passes o ks i j := e ▸ .refl

theorem Passes.trans {i' : Nat} (h₁ : Passes o ks i j) (h₂ : Passes o ks j i') :
    Passes o ks i i' := fun g =>
  have ⟨_, g₁⟩ := h₁ g
  have ⟨_, g₂⟩ := h₂ g
  ⟨_, g₁.trans g₂⟩

theorem Answers.after {res : EStateM.Result Leave History α} (h₁ : Reaches o R.kinds k i g j g')
    (h₂ : Answers o R symbols targets n j g' ends res) :
    Answers o R symbols targets (n + k) i g ends res := by
  cases res with
  | ok a h =>
    obtain ⟨m, g'', hm, hg⟩ := h₂
    exact ⟨m + k, g'', h₁.trans hm, hg⟩
  | error e h =>
    cases e with
    | control c =>
      obtain ⟨f, hf, m, g'', hm, hg⟩ := h₂
      exact ⟨f, hf, m + k, g'', h₁.trans hm, hg⟩
    | ret =>
      obtain ⟨m, g'', hm, hg⟩ := h₂
      exact ⟨m + k, g'', h₁.returns hm, hg⟩
    | cut =>
      obtain ⟨m, j', g'', hn, hm, hg⟩ := h₂
      exact ⟨m + k, j', g'', Nat.add_le_add_right hn k, h₁.trans hm, hg⟩

theorem Answers.mono {res : EStateM.Result Leave History α} {m : Nat} (hm : m ≤ n)
    (ha : Answers o R symbols targets n i g ends res) :
    Answers o R symbols targets m i g ends res := by
  cases res with
  | ok a h => exact ha
  | error e h =>
    cases e with
    | control c => exact ha
    | ret => exact ha
    | cut =>
      obtain ⟨k, j, g', hk, hg⟩ := ha
      exact ⟨k, j, g', Nat.le_trans hm hk, hg⟩

namespace Follows

variable {m : Exec α} {f : α → Exec β}

theorem pure {a : α} (hi : Passes o R.kinds i (ends a)) :
    Follows o R symbols targets n (Pure.pure a) i ends := fun g _ hg =>
  have ⟨k, hk⟩ := hi g
  ⟨k, g, hk, hg⟩

theorem bind {ends' : β → Nat} (h₁ : Follows o R symbols targets n m i ends)
    (h₂ : ∀ a, Follows o R symbols targets n (f a) (ends a) ends') :
    Follows o R symbols targets n (m >>= f) i ends' := by
  intro g h hg
  have h₁ := h₁ g h hg
  change Answers o R symbols targets n i g ends' (EStateM.bind m f h)
  rw [EStateM.bind]
  cases hm : m h with
  | ok a h' =>
    rw [hm] at h₁
    obtain ⟨k, g', hk, hg'⟩ := h₁
    exact .mono (Nat.le_add_right n k) (.after hk (h₂ a g' h' hg'))
  | error e h' =>
    rw [hm] at h₁
    cases e <;> exact h₁

theorem behind (hp : Passes o R.kinds i j) (hf : Follows o R symbols targets n m j ends) :
    Follows o R symbols targets n m i ends := fun g h hg =>
  have ⟨k, hk⟩ := hp g
  .mono (Nat.le_add_right n k) (.after hk (hf g h hg))

theorem ahead {ends' : α → Nat} (hf : Follows o R symbols targets n m i ends)
    (hp : ∀ a, Passes o R.kinds (ends a) (ends' a)) :
    Follows o R symbols targets n m i ends' := by
  have hb := hf.bind (f := Pure.pure) fun a => .pure (hp a)
  rwa [bind_pure] at hb

theorem of_map {f : α → β} {ends' : β → Nat}
    (hf : Follows o R symbols targets n (m >>= fun a => Pure.pure (f a)) i ends') :
    Follows o R symbols targets n m i fun a => ends' (f a) := by
  intro g h hg
  have hf := hf g h hg
  change Answers o R symbols targets n i g ends' (EStateM.bind m _ h) at hf
  rw [EStateM.bind] at hf
  cases hm : m h with
  | ok a h' =>
    rw [hm] at hf
    exact hf
  | error e h' =>
    rw [hm] at hf
    cases e <;> exact hf

theorem of_none (hf : Follows o R symbols none n m i ends) :
    Follows o R symbols targets n m i ends := by
  intro g h hg
  have hf := hf g h hg
  cases hm : m h with
  | ok a h' =>
    rw [hm] at hf
    exact hf
  | error e h' =>
    rw [hm] at hf
    cases e with
    | control c =>
      obtain ⟨f, hf, -⟩ := hf
      cases hf
    | ret => exact hf
    | cut => exact hf

theorem perform {kind : InstructionKind} {e : Event} (hk : R.kinds[i]? = some kind)
    (hc : R.Carries symbols kind e) (hr : ∀ value, kind ≠ .ret value) :
    Follows o R symbols targets n (Exec.perform e) i fun _ => i + 1 := fun g _ hg =>
  ⟨1, kind :: g, reaches_event hk hc.isEvent hr, .cons hc hg⟩

theorem ret {value : Option ValueId} {e : Event} (hk : R.kinds[i]? = some (.ret value))
    (hc : R.Carries symbols (.ret value) e) {ends : Unit → Nat} :
    Follows o R symbols targets n (do Exec.perform e; throw .ret) i ends := fun g _ hg =>
  ⟨1, .ret value :: g, returns_ret hk, .cons hc hg⟩

theorem control {f : LoopControl → Label} {c : LoopControl} (hf : targets = some f)
    (hp : Passes o R.kinds i (landing R.kinds (f c))) {ends : α → Nat} :
    Follows o R symbols targets n (throw (.control c)) i ends := fun g _ hg =>
  have ⟨k, hk⟩ := hp g
  ⟨f, hf, k, g, hk, hg⟩

theorem caught {f : LoopControl → Label} {ends : Unit → Nat} {m : Exec Unit}
    (hf : Follows o R symbols (some f) n m i ends) :
    Follows o R symbols targets n (Exec.caught m) i
      fun c => c.elim (ends ()) fun c => landing R.kinds (f c) := by
  intro g h hg
  have hf := hf g h hg
  unfold Exec.caught
  cases hm : m h with
  | ok a h' =>
    rw [hm] at hf
    exact hf
  | error e h' =>
    rw [hm] at hf
    cases e with
    | control c =>
      obtain ⟨_, ⟨⟩, hf⟩ := hf
      exact hf
    | ret => exact hf
    | cut => exact hf

/-- **The rounds of a loop**, each of which begins with the label that leads back to it. -/
theorem rounds {round : Nat → Exec Unit} {again : Nat → Exec Bool} {f : LoopControl → Label}
    {start test stop : Nat} (hlabel : ∀ g, Reaches o R.kinds 1 start g (start + 1) g)
    (hround : ∀ n, Follows o R symbols (some f) n (round n) (start + 1) fun _ => test)
    (hagain : ∀ n, Follows o R symbols none n (again n) test
      fun b => if b then start else stop)
    (hnext : landing R.kinds (f .next) = start)
    (hstop : Passes o R.kinds (landing R.kinds (f .stop)) stop) :
    Follows o R symbols targets n (Exec.rounds round again n) start fun _ => stop := by
  induction n with
  | zero => exact fun g _ hg => ⟨0, start, g, Nat.le_refl 0, .refl, hg⟩
  | succ n ih =>
    have hbody : Follows o R symbols targets n (Exec.rounds round again (n + 1)) (start + 1)
        fun _ => stop := by
      refine .bind (hround n).caught fun c => ?_
      rcases c with _ | _ | _
      · refine .bind (hagain n).of_none fun b => ?_
        cases b with
        | true => exact ih
        | false => exact .pure .refl
      · exact .pure hstop
      · exact .behind (.of_eq hnext) ih
    exact fun g h hg => .after (hlabel g) (hbody g h hg)

end Follows

/-! ## Instructions without events -/

/-- Only instructions without events were appended, and nothing else that matters has changed. -/
structure Mute (r r' : Routine) : Prop where
  instructions : ∃ seg, r'.instructions.toList = r.instructions.toList ++ seg ∧
    ∀ i ∈ seg, i.kind.isSilent = true
  loops : r'.loops = r.loops
  labels : r'.labels = r.labels

namespace Mute

open Generating

variable {r r' r'' : Routine} {kind : InstructionKind} {x y z : ValueId} {u : Unit} {f : Format}
variable {v : VariableId} {actives : List Binding}

theorem of_eq (hk : r'.instructions = r.instructions) (hl : r'.loops = r.loops)
    (hs : r'.labels = r.labels) : Mute r r' := ⟨⟨[], by simp [hk]⟩, hl, hs⟩

theorem refl (r : Routine) : Mute r r := of_eq rfl rfl rfl

theorem trans (h : Mute r r') (h' : Mute r' r'') : Mute r r'' := by
  obtain ⟨seg, hk, hs⟩ := h.instructions
  obtain ⟨seg', hk', hs'⟩ := h'.instructions
  refine ⟨⟨seg ++ seg', by rw [hk', hk, List.append_assoc], ?_⟩, h'.loops.trans h.loops,
    h'.labels.trans h.labels⟩
  exact fun k hk => (List.mem_append.mp hk).elim (hs k) (hs' k)

theorem of_revalued (h : Revalued r r') : Mute r r' := by
  obtain ⟨values, rfl, -⟩ := h
  exact of_eq rfl rfl rfl

theorem of_appended (h : Appended kind r x r') (hk : kind.isSilent = true) : Mute r r' := by
  obtain ⟨values, rfl, -⟩ := h.routine
  exact ⟨⟨[⟨kind, x, kind.parameters, []⟩], by simp, by simpa using hk⟩, rfl, rfl⟩

theorem append (h : Takes (append kind f) r x r') (hk : kind.isSilent = true) : Mute r r' :=
  of_appended (append_appended h) hk

theorem marker (h : Takes (appendMarker kind) r i r') (hk : kind.isSilent = true) :
    Mute r r' := by
  obtain ⟨-, x, h⟩ := appendMarker_appended h
  exact of_appended h hk

theorem create {k : Handle} (h : Takes (create k f) r x r') : Mute r r' := by
  obtain ⟨-, rfl⟩ := takes_create.mp h
  exact of_eq rfl rfl rfl

theorem bind (h : Takes (bind v x) r u r') : Mute r r' := by
  obtain ⟨r₁, hr, rfl⟩ := bind_revalued h
  exact (of_revalued hr).trans (of_eq rfl rfl rfl)

theorem prepared (h : Prepared actives r r') : Mute r r' := by
  induction h with
  | refl => exact refl r
  | cache _ _ ha ih => exact ih.trans (append ha rfl)
  | keep _ _ ha ih => exact ih.trans (append ha rfl)
  | copy _ _ ha hb ih => exact ih.trans ((append ha rfl).trans (bind hb))
  | fresh _ hc hb _ ih => exact ih.trans ((create hc).trans (bind hb))

theorem valueOf (h : Takes (valueOf v) r x r') : Mute r r' := by
  rcases valueOf_cases h with ⟨-, rfl⟩ | h
  · exact refl _
  · obtain ⟨r₁, k, h₁, h₂⟩ := takes_bindToSlot h
    exact (create h₁).trans (bind h₂)

theorem combined {op : Operator} (h : Combined op x y r z r') : Mute r r' := by
  cases h with
  | first _ hr => exact hr ▸ refl r
  | constant h => exact create h
  | instruction hk h => exact append h (by cases isArithmetic_of_arithmetic? hk <;> rfl)

theorem operated {op : Operator} (h : Operated op x y r z r') : Mute r r' := by
  rcases h with h | ⟨-, h⟩ <;> exact combined h

theorem closeSymmetry {symmetry : Nat} (h : Takes (closeSymmetry symmetry actives) r u r') :
    Mute r r' := by
  obtain ⟨i, r₁, h₁, h₂⟩ := closeSymmetry_parts h
  exact (marker h₁ rfl).trans <| takes_forM (fun _ r' => Mute r₁ r') h₂ (refl r₁)
    fun _ _ _ _ _ _ hb h => h.trans (bind hb)

end Mute

/-- Only instructions without events were appended, and the routine names leaders only as
before. -/
structure Silent (r r' : Routine) : Prop extends Mute r r' where
  onward : Onward r.values r'

namespace Silent

open Generating

variable {r r' r'' : Routine} {kind : InstructionKind} {x y z : ValueId} {u : Unit} {f : Format}
variable {v : VariableId} {actives : List Binding}

theorem refl (hr : r.Led) : Silent r r := ⟨.refl r, hr.onward⟩

theorem trans (h : Silent r r') (h' : Silent r' r'') : Silent r r'' :=
  ⟨h.toMute.trans h'.toMute, h.onward.trans h'.onward⟩

theorem before (h : Silent r r') : r.Before r' := by
  obtain ⟨seg, hk, -⟩ := h.instructions
  exact ⟨hk ▸ List.prefix_append _ _, h.onward⟩

theorem led (h : Silent r r') : r'.Led := h.onward.led

/-- The tree, the regions and the identities do not matter. -/
theorem context (hr : r.Led) (tree : Tree) (regions : List Region) (identities : Nat) :
    Silent r { r with tree, regions, identities } :=
  ⟨.of_eq rfl rfl rfl, hr.context tree regions r.labels identities, fun _ h => h,
    fun v _ => .refl _ v⟩

/-- Bindings of an earlier routine are brought back. -/
theorem rebind {r₀ : Routine} (hr : r.Led) (h₀ : r₀.Led) (ho : Onward r₀.values r) :
    Silent r { r with bindings := r₀.bindings } :=
  ⟨.of_eq rfl rfl rfl, hr.rebind (fun b hb => ho.leader _ (h₀.bindings b hb)) (ho.held h₀),
    fun _ h => h, fun v _ => .refl _ v⟩

theorem append (h : Takes (append kind f) r x r') (hr : r.Led)
    (hq : ∀ q ∈ kind.parameters, r.values.Leader q.value) (hk : kind.isSilent = true) :
    Silent r r' := ⟨.append h hk, (append_onward h hr hq).1⟩

theorem marker (h : Takes (appendMarker kind) r i r') (hr : r.Led)
    (hq : ∀ q ∈ kind.parameters, r.values.Leader q.value) (hk : kind.isSilent = true) :
    Silent r r' := ⟨.marker h hk, marker_onward h hr hq⟩

theorem plain (h : Takes (appendMarker kind) r i r') (hr : r.Led) (hq : kind.parameters = [])
    (hk : kind.isSilent = true) : Silent r r' := marker h hr (by simp [hq]) hk

theorem label {l : Label} (h : Takes (appendLabel l) r u r') (hr : r.Led) : Silent r r' := by
  obtain ⟨x, hx⟩ := appendLabel_appended h
  exact ⟨.of_appended hx rfl, label_onward h hr⟩

theorem create {k : Handle} (h : Takes (create k f) r x r') (hr : r.Led)
    (hk : k.Refers r.values.Leader) : Silent r r' := ⟨.create h, (create_onward h hr hk).1⟩

theorem prepared (h : Prepared actives r r') (hr : r.Led) (ha : Bound r actives) :
    Silent r r' := ⟨.prepared h, prepared_onward h hr ha⟩

theorem bind (h : Takes (bind v x) r u r') (hr : r.Led) (hx : r.values.Leader x) : Silent r r' :=
  ⟨.bind h, bind_onward h hr hx⟩

theorem copied (h : Copied x r y r') (hr : r.Led) (hx : r.values.Leader x) : Silent r r' := by
  rcases h with ⟨-, rfl⟩ | ⟨f, h⟩
  · exact refl hr
  · exact append h hr (fun q hq => by rwa [List.mem_singleton.mp hq]) rfl

theorem closeSymmetry {symmetry : Nat} (h : Takes (closeSymmetry symmetry actives) r u r')
    (hr : r.Led) (ha : Bound r actives) : Silent r r' :=
  ⟨.closeSymmetry h, closeSymmetry_onward h hr ha⟩

theorem passes (h : Silent r r') (hR : r'.Before R) :
    Passes o R.kinds r.kinds.length r'.kinds.length := by
  obtain ⟨seg, hk, hs⟩ := h.instructions
  have hks := hR.kinds
  have hkinds : r'.kinds = r.kinds ++ seg.map (·.kind) := by
    rw [Routine.kinds, hk, List.map_append, ← Routine.kinds]
  rw [hkinds] at hks ⊢
  generalize r.kinds = ks at hks
  clear hk hkinds
  induction seg generalizing ks with
  | nil => exact .of_eq (by simp)
  | cons i seg ih =>
    simp only [List.mem_cons, forall_eq_or_imp] at hs
    have hk : R.kinds[ks.length]? = some i.kind := by
      obtain ⟨rest, hrest⟩ := hks
      simp [← hrest]
    have h₁ : Passes o R.kinds ks.length (ks.length + 1) := fun g =>
      ⟨1, reaches_silent hk hs.1⟩
    have h₂ := ih hs.2 (ks ++ [i.kind]) (by simpa using hks)
    simp only [List.map_cons, List.length_append, List.length_cons, List.length_nil] at h₂ ⊢
    exact h₁.trans (by rwa [Nat.add_assoc, Nat.add_comm 1] at h₂)

end Silent

/-! ## Routines -/

/-- The lowering has gone on, and the loops around a part are registered as before. -/
structure Grown (path : List Shape) (r r' : Routine) : Prop where
  before : r.Before r'
  loops : ∀ p ∈ path, r'.loops.lookup p.id = r.loops.lookup p.id
  labels : r.labels ≤ r'.labels

open Generating

variable {path path' : List Shape} {r r' r₁ : Routine} {m : Exec α}

theorem Grown.led (h : Grown path r r') : r'.Led := h.before.led

theorem Grown.refl (hr : r.Led) : Grown path r r :=
  ⟨.refl hr, fun _ _ => rfl, Nat.le_refl _⟩

theorem Grown.trans (h : Grown path r r₁) (h' : Grown path r₁ r') : Grown path r r' :=
  ⟨h.before.trans h'.before, fun p hp => (h'.loops p hp).trans (h.loops p hp),
    Nat.le_trans h.labels h'.labels⟩

theorem Grown.context (hr : r.Led) (tree : Tree) (regions : List Region) {labels : Nat}
    (identities : Nat) (hl : r.labels ≤ labels) :
    Grown path r { r with tree, regions, labels, identities } :=
  ⟨.of_eq rfl ⟨hr.context tree regions labels identities, fun _ h => h, fun v _ => .refl _ v⟩,
    fun _ _ => rfl, hl⟩

theorem Grown.mono (h : Grown path r r') (hp : path' ⊆ path) : Grown path' r r' :=
  ⟨h.before, fun p hp' => h.loops p (hp hp'), h.labels⟩

theorem Silent.grown (h : Silent r r') : Grown path r r' :=
  ⟨h.before, fun _ _ => by rw [h.loops], Nat.le_of_eq h.labels.symm⟩

/-- **The instructions that were appended do what a part does.** They are part of the routine that
is walked through. -/
structure Traced (o : Oracle) (R : Routine) (symbols : SymbolTable)
    (targets : Option (LoopControl → Label)) (path : List Shape) (n : Nat) (m : Exec α)
    (r r' : Routine) (ends : α → Nat) : Prop where
  grown : Grown path r r'
  follows : r'.Before R → Follows o R symbols targets n m r.kinds.length ends

/-- The instructions that were appended do what a part does, and end where the part ends. -/
abbrev Performed (o : Oracle) (R : Routine) (symbols : SymbolTable)
    (targets : Option (LoopControl → Label)) (path : List Shape) (n : Nat) (m : Exec α)
    (r r' : Routine) : Prop :=
  Traced o R symbols targets path n m r r' fun _ => r'.kinds.length

namespace Traced

theorem mono (h : Traced o R symbols targets path n m r r' ends) (hp : path' ⊆ path) :
    Traced o R symbols targets path' n m r r' ends := ⟨h.grown.mono hp, h.follows⟩

theorem of_none (h : Traced o R symbols none path n m r r' ends) :
    Traced o R symbols targets path n m r r' ends := ⟨h.grown, fun hR => (h.follows hR).of_none⟩

theorem bind {m : Exec Unit} {f : Unit → Exec α}
    (h₁ : Performed o R symbols targets path n m r r₁)
    (h₂ : Traced o R symbols targets path n (f ()) r₁ r' ends) :
    Traced o R symbols targets path n (m >>= f) r r' ends :=
  ⟨h₁.grown.trans h₂.grown, fun hR =>
    .bind (h₁.follows (h₂.grown.before.trans hR)) fun _ => h₂.follows hR⟩

theorem behind (hs : Silent r r₁) (h : Traced o R symbols targets path n m r₁ r' ends) :
    Traced o R symbols targets path n m r r' ends :=
  ⟨hs.grown.trans h.grown, fun hR =>
    .behind (hs.passes (h.grown.before.trans hR)) (h.follows hR)⟩

theorem ahead (h : Performed o R symbols targets path n m r r₁) (hs : Silent r₁ r') :
    Performed o R symbols targets path n m r r' :=
  ⟨h.grown.trans hs.grown, fun hR =>
    .ahead (h.follows (hs.before.trans hR)) fun _ => hs.passes hR⟩

end Traced

theorem Generating.Appended.getElem? {kind : InstructionKind} {x : ValueId}
    (h : Generating.Appended kind r x r') (hR : r'.Before R) :
    R.kinds[r.kinds.length]? = some kind := by
  obtain ⟨rest, hrest⟩ := hR.kinds
  simp [← hrest, h.kinds]

theorem Generating.Appended.grown {kind : InstructionKind} {x : ValueId}
    (h : Generating.Appended kind r x r') (ho : Onward r.values r') : Grown path r r' :=
  ⟨.of_appended h ho, fun _ _ => by rw [h.loops], Nat.le_of_eq h.labels.symm⟩

/-- An instruction that carries an event out. -/
theorem Generating.append_performed {kind : InstructionKind} {f : Format} {x : ValueId} {e : Event}
    (h : Takes (append kind f) r x r') (hr : r.Led)
    (hq : ∀ q ∈ kind.parameters, r.values.Leader q.value)
    (hc : r.Before R → R.Carries symbols kind e) (hret : ∀ value, kind ≠ .ret value) :
    Performed o R symbols targets path n (Exec.perform e) r r' := by
  have hx := append_appended h
  refine ⟨hx.grown (append_onward h hr hq).1, fun hR => ?_⟩
  rw [hx.kinds, List.length_append]
  exact .perform (hx.getElem? hR) (hc ((append_before h hr hq).trans hR)) hret

/-- A return that carries an event out. -/
theorem Generating.append_returned {value : Option ValueId} {f : Format} {x : ValueId} {e : Event}
    (h : Takes (append (.ret value) f) r x r') (hr : r.Led)
    (hq : ∀ y ∈ value, r.values.Leader y)
    (hc : r.Before R → R.Carries symbols (.ret value) e) :
    Performed o R symbols targets path n (do Exec.perform e; throw .ret : Exec Unit) r r' := by
  have hx := append_appended h
  have hq : ∀ q ∈ (InstructionKind.ret value).parameters, r.values.Leader q.value := by
    intro q hm
    obtain ⟨y, hy, rfl⟩ := List.mem_map.mp hm
    exact hq y (Option.mem_toList.mp hy)
  refine ⟨hx.grown (append_onward h hr hq).1, fun hR => ?_⟩
  exact .ret (hx.getElem? hR) (hc ((append_before h hr hq).trans hR))

theorem Silent.performed {a : α} (h : Silent r r') :
    Performed o R symbols targets path n (pure a) r r' :=
  ⟨h.grown, fun hR => .pure (h.passes hR)⟩

end Codegen
