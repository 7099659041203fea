import Codegen.Proofs.Lowering.Kept

/-!
# What lowering adds to a stream

While a part of a function is lowered the stream gets longer, and lifetimes grow. Each new
instruction names values that were bound to variables, or that are new. What it has to do with the
loops around the part is told by the exits of the part: the round that it may end, and the labels
that its conditional jumps may lead to.

* `Covered`: values are needed where they are named;
* `Round`: **a round of a loop**, from its first instruction to the last one that leads back;
* `Run`: **what lowering adds**, with `Run.trans` for one part after another;
* `Run.append`, `Run.bind`, `Run.prepared`, ...: single steps.
-/

namespace Codegen

open Generating

/-- The values that instructions name are needed where they are named. -/
structure Covered (r : Routine) : Prop where
  isSet : r.values.IsSet
  named : ∀ (i : Nat) k, r.kinds[i]? = some k → ∀ p ∈ k.parameters, r.values.Covers p.value i

/-- The value is bound to a variable, is one of the given ones, or is made later. -/
def Known (actives : List Binding) (r : Routine) (x : ValueId) : Prop :=
  r.values.size ≤ x ∨ (∃ v, (v, x) ∈ r.bindings) ∨ ∃ v, (v, x) ∈ actives

/-! ## Rounds -/

/-- **A round of a loop.** It begins behind its label, and it ends at `close`; conditional jumps to
its label come no later than `last`. Up to there, the values that variables had at its beginning are
needed, and instructions name only those values and new ones. -/
structure Round (r : Routine) (actives : List Binding) (i close last : Nat) (l : Label) :
    Prop where
  label : 0 < i ∧ r.kinds[i - 1]? = some (.label l)
  order : i < close ∧ close ≤ last ∧ last < r.kinds.length
  ends : ∃ pairs, r.kinds[close]? = some (.symmetryEnd i pairs)
  lastEnd : ∀ (j : Nat) pairs, r.kinds[j]? = some (.symmetryEnd i pairs) → j ≤ close
  jumps : ∀ (j : Nat) test, r.kinds[j]? = some (.jump l (some test)) → i < j → j ≤ last
  alive : ∀ v x, (v, x) ∈ actives → ∀ k, i ≤ k → k ≤ last → r.values.Covers x k
  named : ∀ (k : Nat) kind, i < k → k ≤ last → r.kinds[k]? = some kind → ∀ p ∈ kind.parameters,
    (∃ v, (v, p.value) ∈ actives) ∨ ∃ s, r.instructions[i]? = some s ∧ s.result < p.value

/-- The loop that begins its rounds at an instruction has a round, with a label of its own; if the
loop has a condition, a conditional jump leads back behind the end of the round. -/
def Rounded (t : Tree) (low : Label) (r : Routine) (i : Nat) (n : NodeId)
    (actives : List Binding) : Prop :=
  ∃ close last l, (low ≤ l ∧ l < r.labels) ∧ Round r actives i close last l ∧
    ((∃ c, t.kind n = .loop c false) →
      ∃ (j : Nat) (test : JumpTest), close < j ∧ r.kinds[j]? = some (.jump l (some test)))

/-! ## Parts -/

/-- The exits of a part: the values that a loop around it expects, the beginning of the round that
it may end, and the labels before it that its conditional jumps may lead to. A part that begins a
round without leaving it for good says where. -/
structure Exits where
  actives : List Binding
  symmetry? : Option Nat
  labels : List Label
  opened? : Option Nat

/-- The exits lead to what is already there. -/
structure Exits.Old (c : Exits) (r : Routine) : Prop where
  symmetry : ∀ s, c.symmetry? = some s → s < r.kinds.length ∨ c.opened? = some s
  labels : ∀ l ∈ c.labels, l < r.labels

/-- No exits. -/
def Exits.closed : Exits := ⟨[], none, [], none⟩

/-- **What lowering a part adds to a routine.** -/
structure Run (t : Tree) (c : Exits) (r r' : Routine) : Prop where
  covered : Covered r'
  stream : r.instructions.toList <+: r'.instructions.toList
  labels : r.labels ≤ r'.labels
  values : r.values.Grows r'.values
  bound : ∀ v x, (v, x) ∈ r'.bindings → Known c.actives r x
  named : ∀ (i : Nat) k, r.kinds.length ≤ i → r'.kinds[i]? = some k → ∀ p ∈ k.parameters,
    Known c.actives r p.value
  ends : ∀ (i s : Nat) pairs, r.kinds.length ≤ i → r'.kinds[i]? = some (.symmetryEnd s pairs) →
    r.kinds.length ≤ s ∨ c.symmetry? = some s
  jumps : ∀ (i : Nat) l test, r.kinds.length ≤ i → r'.kinds[i]? = some (.jump l (some test)) →
    r.labels ≤ l ∨ l ∈ c.labels
  rounds : ∀ (i : Nat) n actives, r.kinds.length ≤ i → c.opened? ≠ some i →
    r'.kinds[i]? = some (.symmetryStart n actives) → Rounded t r.labels r' i n actives

variable {t : Tree} {c c' : Exits} {r r' r'' r₁ : Routine} {x y z : ValueId} {u : Unit}
variable {v : VariableId} {k : InstructionKind} {f : Format} {l : Label} {actives bs : List Binding}

theorem Run.kinds (h : Run t c r r') : r.kinds <+: r'.kinds := h.stream.map _

theorem Run.kept (h : Run t c r r') {i : Nat} (hi : r.kinds[i]? = some k) :
    r'.kinds[i]? = some k := by
  obtain ⟨rest, hrest⟩ := h.kinds
  rw [← hrest, List.getElem?_append_left (List.getElem?_eq_some_iff.mp hi).1, hi]

theorem Run.split (h : Run t c r r') {i : Nat} (hi : r'.kinds[i]? = some k) :
    r.kinds[i]? = some k ∨ r.kinds.length ≤ i := by
  obtain ⟨rest, hrest⟩ := h.kinds
  rcases Nat.lt_or_ge i r.kinds.length with hlt | hge
  · rw [← hrest, List.getElem?_append_left hlt] at hi
    exact .inl hi
  · exact .inr hge

/-! ## Values that are known -/

theorem Known.of_bound (h : (v, x) ∈ r.bindings) : Known actives r x := .inr (.inl ⟨v, h⟩)

theorem Known.of_lookup (h : r.bindings.lookup v = some x) : Known actives r x := by
  obtain ⟨before, after, hb, -⟩ := List.lookup_eq_some_iff.mp h
  exact .of_bound (v := v) (hb ▸ List.mem_append_right _ List.mem_cons_self)

theorem Known.of_active (h : (v, x) ∈ actives) : Known actives r x := .inr (.inr ⟨v, h⟩)

theorem Run.known (h : Run t c r r') (hx : Known c.actives r' x) : Known c.actives r x := by
  rcases hx with hx | ⟨v, hx⟩ | hx
  · exact .inl (Nat.le_trans h.values.size hx)
  · exact h.bound v x hx
  · exact .inr (.inr hx)

theorem Run.known_pairs (h : Run t c r r')
    (ha : ∀ v x, (v, x) ∈ actives → Known c.actives r x) {p : Parameter}
    (hp : p ∈ InstructionKind.mergeParameters (pairsOf r'.bindings actives)) :
    Known c.actives r p.value := by
  simp only [InstructionKind.mergeParameters, pairsOf, List.mem_flatMap, List.mem_map] at hp
  obtain ⟨_, ⟨⟨v, x⟩, hb, rfl⟩, hp⟩ := hp
  simp only [List.mem_cons, List.not_mem_nil, or_false] at hp
  rcases hp with rfl | rfl
  · exact ha v x hb
  · cases hv : r'.bindings.lookup v with
    | none => exact ha v x hb
    | some y => exact h.known (.of_lookup hv)

theorem known_observed (ha : ∀ v x, (v, x) ∈ actives → Known bs r x) {p : Parameter}
    (hp : p ∈ InstructionKind.observedParameters actives) : Known bs r p.value := by
  obtain ⟨⟨v, x⟩, hb, rfl⟩ := List.mem_map.mp hp
  exact ha v x hb

/-! ## One part after another -/

theorem Rounded.run {low : Label} {i : Nat} {n : NodeId} (h : Rounded t low r i n actives)
    (hr : Run t c r r') (hs : ∀ s, c.symmetry? = some s → s ≠ i)
    (hl : ∀ l ∈ c.labels, l < low) : Rounded t low r' i n actives := by
  obtain ⟨close, last, l, ⟨hlow, hlt⟩, h, hback⟩ := h
  have hlength := hr.kinds.length_le
  obtain ⟨ho1, ho2, ho3⟩ := h.order
  refine ⟨close, last, l, ⟨hlow, Nat.lt_of_lt_of_le hlt hr.labels⟩, ?_, fun hc => ?_⟩
  · constructor
    · exact ⟨h.label.1, hr.kept h.label.2⟩
    · exact ⟨ho1, ho2, by omega⟩
    · exact h.ends.imp fun _ he => hr.kept he
    · intro j pairs hj
      rcases hr.split hj with hj' | hge
      · exact h.lastEnd j pairs hj'
      · rcases hr.ends j i pairs hge hj with hi | hi
        · omega
        · exact absurd rfl (hs i hi)
    · intro j test hj hij
      rcases hr.split hj with hj' | hge
      · exact h.jumps j test hj' hij
      · rcases hr.jumps j l test hge hj with hl' | hl'
        · exact absurd hlt (Nat.not_lt.mpr hl')
        · exact absurd (hl l hl') (Nat.not_lt.mpr hlow)
    · exact fun v x hx k hik hk => hr.values.covers _ _ (h.alive v x hx k hik hk)
    · intro k kind hik hk hkind p hp
      have hkind' : r.kinds[k]? = some kind := (hr.split hkind).resolve_right (by omega)
      refine (h.named k kind hik hk hkind' p hp).imp_right fun ⟨s, hs, hlt⟩ => ⟨s, ?_, hlt⟩
      obtain ⟨rest, hrest⟩ := hr.stream
      rw [← Array.getElem?_toList] at hs ⊢
      rw [← hrest, List.getElem?_append_left (List.getElem?_eq_some_iff.mp hs).1, hs]
  · obtain ⟨j, test, hj, hk⟩ := hback hc
    exact ⟨j, test, hj, hr.kept hk⟩

/-- **One part after another.** -/
theorem Run.trans (h : Run t c r r') (ho : c.Old r) (h' : Run t c r' r'') : Run t c r r'' := by
  have hlength := h.kinds.length_le
  constructor
  · exact h'.covered
  · exact h.stream.trans h'.stream
  · exact Nat.le_trans h.labels h'.labels
  · exact h.values.trans h'.values
  · exact fun v x hx => h.known (h'.bound v x hx)
  · intro i k hi hk p hp
    rcases h'.split hk with hk' | hge
    · exact h.named i k hi hk' p hp
    · exact h.known (h'.named i k hge hk p hp)
  · intro i s pairs hi hk
    rcases h'.split hk with hk' | hge
    · exact h.ends i s pairs hi hk'
    · exact (h'.ends i s pairs hge hk).imp_left fun hs => Nat.le_trans hlength hs
  · intro i l test hi hk
    rcases h'.split hk with hk' | hge
    · exact h.jumps i l test hi hk'
    · exact (h'.jumps i l test hge hk).imp_left fun hs => Nat.le_trans h.labels hs
  · intro i n actives hi hopen hk
    rcases h'.split hk with hk' | hge
    · refine (h.rounds i n actives hi hopen hk').run h' (fun s hs => ?_) ho.labels
      rcases ho.symmetry s hs with hlt | hs
      · omega
      · rintro rfl
        exact hopen hs
    · obtain ⟨close, last, l, ⟨hlow, hlt⟩, hround⟩ := h'.rounds i n actives hge hopen hk
      exact ⟨close, last, l, ⟨Nat.le_trans h.labels hlow, hlt⟩, hround⟩

theorem Exits.Old.run (ho : c.Old r) (h : Run t c' r r') : c.Old r' :=
  ⟨fun s hs => (ho.symmetry s hs).imp_left fun hs => Nat.lt_of_lt_of_le hs h.kinds.length_le,
    fun l hl => Nat.lt_of_lt_of_le (ho.labels l hl) h.labels⟩

theorem Exits.closed_old (r : Routine) : Exits.closed.Old r := ⟨by simp [closed], by simp [closed]⟩

/-- A part that makes less use of its exits. -/
theorem Run.weaken (h : Run t c r r') (ha : ∀ x, Known c.actives r x → Known c'.actives r x)
    (hs : ∀ s, c.symmetry? = some s → r.kinds.length ≤ s ∨ c'.symmetry? = some s)
    (hl : ∀ l ∈ c.labels, r.labels ≤ l ∨ l ∈ c'.labels)
    (ho : ∀ i, c.opened? = some i → c'.opened? = some i) : Run t c' r r' where
  covered := h.covered
  stream := h.stream
  labels := h.labels
  values := h.values
  bound v x hx := ha x (h.bound v x hx)
  named i k hi hk p hp := ha _ (h.named i k hi hk p hp)
  ends i s pairs hi hk := (h.ends i s pairs hi hk).elim .inl (hs s)
  jumps i l test hi hk := (h.jumps i l test hi hk).elim .inl (hl l)
  rounds i n actives hi hopen := h.rounds i n actives hi fun hi => hopen (ho i hi)

theorem Run.rebase (h : Run t c r₁ r') (hi : r₁.instructions = r.instructions)
    (hv : r₁.values = r.values) (hb : r₁.bindings = r.bindings) (hl : r.labels ≤ r₁.labels) :
    Run t c r r' := by
  have hk : r.kinds = r₁.kinds := by rw [Routine.kinds, ← hi, Routine.kinds]
  have known {x} (hx : Known c.actives r₁ x) : Known c.actives r x := by
    rwa [Known, hv, hb] at hx
  constructor
  · exact h.covered
  · exact hi ▸ h.stream
  · exact Nat.le_trans hl h.labels
  · exact hv ▸ h.values
  · exact fun v x hx => known (h.bound v x hx)
  · exact fun i k hi hki p hp => known (h.named i k (hk ▸ hi) hki p hp)
  · exact hk ▸ h.ends
  · exact fun i l test hi hki => (h.jumps i l test (hk ▸ hi) hki).imp_left (Nat.le_trans hl)
  · intro i n actives hi hopen hki
    rw [hk] at hi
    obtain ⟨close, last, l, ⟨hlow, hlt⟩, hround⟩ := h.rounds i n actives hi hopen hki
    exact ⟨close, last, l, ⟨Nat.le_trans hl hlow, hlt⟩, hround⟩

theorem Run.of_closed (h : Run t .closed r r') (c : Exits) : Run t c r r' :=
  h.weaken (fun _ hx => hx.imp_right fun hx => .inl (hx.resolve_right (by simp [Exits.closed])))
    (by simp [Exits.closed]) (by simp [Exits.closed]) (by simp [Exits.closed])

/-- The exits of a part with more values. -/
def Exits.adding (c : Exits) (bs : List Binding) : Exits := { c with actives := bs ++ c.actives }

theorem Run.andThen (h : Run t c r r') (ho : c.Old r) (bs : List Binding)
    (hb : ∀ v x, (v, x) ∈ bs → Known c.actives r x) (h' : Run t (c.adding bs) r' r'') :
    Run t c r r'' := by
  have hadd : Run t (c.adding bs) r r' :=
    h.weaken (fun x hx => hx.imp_right fun hx => hx.imp_right fun ⟨v, hx⟩ =>
      ⟨v, List.mem_append_right _ hx⟩) (fun _ => .inr) (fun _ => .inr) fun _ h => h
  refine (hadd.trans ⟨ho.symmetry, ho.labels⟩ h').weaken (fun x hx => ?_) (fun _ => .inr)
    (fun _ => .inr) fun _ h => h
  rcases hx with hx | hx | ⟨v, hx⟩
  · exact .inl hx
  · exact .inr (.inl hx)
  · rcases List.mem_append.mp hx with hx | hx
    · exact hb v x hx
    · exact .of_active hx

/-! ## Steps without instructions -/

theorem Run.still (hr : Covered r) (hi : r'.instructions = r.instructions)
    (hl : r.labels ≤ r'.labels) (hv : r.values.Grows r'.values)
    (hb : ∀ v x, (v, x) ∈ r'.bindings → Known c.actives r x) : Run t c r r' := by
  have hk : r'.kinds = r.kinds := by rw [Routine.kinds, hi, Routine.kinds]
  have new {i : Nat} {k} {p : Prop} (hi : r.kinds.length ≤ i) (hki : r'.kinds[i]? = some k) : p := by
    rw [hk] at hki
    exact absurd (List.getElem?_eq_some_iff.mp hki).1 (Nat.not_lt.mpr hi)
  refine ⟨⟨hv.isSet, fun i k hki p hp => ?_⟩, hi ▸ List.prefix_rfl, hl, hv, hb,
    fun _ _ hi hk => new hi hk, fun _ _ _ hi hk => new hi hk, fun _ _ _ hi hk => new hi hk,
    fun _ _ _ hi _ hk => new hi hk⟩
  exact hv.covers _ _ (hr.named i k (hk ▸ hki) p hp)

theorem Run.refl (hr : Covered r) : Run t c r r :=
  .still hr rfl (Nat.le_refl _) (.refl hr.isSet) fun _ _ => .of_bound

theorem Run.congr (h : Run t c r r') (hi : r''.instructions = r'.instructions)
    (hv : r''.values = r'.values) (hl : r''.labels = r'.labels)
    (hb : ∀ v x, (v, x) ∈ r''.bindings → Known c.actives r x) : Run t c r r'' := by
  have hk : r''.kinds = r'.kinds := by rw [Routine.kinds, hi, Routine.kinds]
  refine ⟨⟨hv ▸ h.covered.isSet, fun i k hki => ?_⟩, hi ▸ h.stream, hl ▸ h.labels, hv ▸ h.values,
    hb, hk ▸ h.named, hk ▸ h.ends, hk ▸ h.jumps, fun i n actives hi' hopen hki => ?_⟩
  · rw [hv]
    exact h.covered.named i k (hk ▸ hki)
  · obtain ⟨close, last, l, hl', hr, hback⟩ := h.rounds i n actives hi' hopen (hk ▸ hki)
    refine ⟨close, last, l, hl ▸ hl', ?_, hk ▸ hback⟩
    constructor
    · exact hk ▸ hr.label
    · exact hk ▸ hr.order
    · exact hk ▸ hr.ends
    · exact hk ▸ hr.lastEnd
    · exact hk ▸ hr.jumps
    · exact hv ▸ hr.alive
    · rw [hk, hi]
      exact hr.named

theorem Run.appended (hr : Covered r) (ha : Appended k r x r')
    (hp : ∀ p ∈ k.parameters, Known c.actives r p.value)
    (he : ∀ s pairs, k = .symmetryEnd s pairs → c.symmetry? = some s)
    (hj : ∀ l test, k = .jump l (some test) → r.labels ≤ l ∨ l ∈ c.labels)
    (hs : ∀ n actives, k = .symmetryStart n actives → c.opened? = some r.kinds.length) :
    Run t c r r' := by
  have hk := ha.kinds
  obtain ⟨values, rfl, hg⟩ := ha.routine
  obtain ⟨hg, -, hcover⟩ := hg hr.isSet
  have new {i : Nat} {k'} (hi : r.kinds.length ≤ i)
      (hk' : (r.kinds ++ [k])[i]? = some k') : k' = k := by
    rw [List.getElem?_append_right hi, List.getElem?_singleton] at hk'
    grind
  constructor
  · refine ⟨hg.isSet, fun i k' hki q hq => ?_⟩
    rw [hk, List.getElem?_append] at hki
    split at hki
    next => exact hg.covers _ _ (hr.named i k' hki q hq)
    next hge =>
      obtain ⟨hi, rfl⟩ : i = r.kinds.length ∧ k' = k := by
        rw [List.getElem?_singleton] at hki
        grind
      rw [hi]
      simpa [Routine.kinds] using hcover q hq
  · simp
  · exact Nat.le_refl _
  · exact hg
  · exact fun v _ h => .of_bound (v := v) h
  · intro i k' hi hki p hp'
    rw [hk] at hki
    exact hp p (new hi hki ▸ hp')
  · intro i s pairs hi hki
    rw [hk] at hki
    exact .inr (he s pairs (new hi hki).symm)
  · intro i l test hi hki
    rw [hk] at hki
    exact hj l test (new hi hki).symm
  · intro i n actives hi hopen hki
    rw [hk] at hki
    obtain ⟨hlt, -⟩ := List.getElem?_eq_some_iff.mp hki
    obtain rfl : i = r.kinds.length := by
      simp only [List.length_append, List.length_singleton] at hlt
      omega
    exact absurd (hs n actives (new hi hki).symm) hopen

/-- Does an instruction begin or end a round, or may it lead back? -/
def InstructionKind.turns : InstructionKind → Bool
  | jump _ (some _) | symmetryStart .. | symmetryEnd .. => true
  | _ => false

section

variable (h : Run t c r r') (ho : c.Old r)
include h ho

theorem Run.create {kind : Handle} (h' : Takes (create kind f) r' x r'') :
    Run t c r r'' ∧ Known c.actives r x := by
  obtain ⟨rfl, rfl⟩ := takes_create.mp h'
  refine ⟨h.trans ho (.still h.covered rfl (Nat.le_refl _)
    (Arena.create_grows h.covered.isSet _ _).1 fun v _ h => .of_bound (v := v) h), .inl ?_⟩
  exact h.values.size

theorem Run.bind (h' : Takes (bind v x) r' u r'') (hx : Known c.actives r x) :
    Run t c r r'' := by
  obtain ⟨r₁, ⟨values, rfl, hg⟩, rfl⟩ := bind_revalued h'
  refine h.andThen ho [(v, x)] (by simpa using hx)
    (.still h.covered rfl (Nat.le_refl _) (hg h.covered.isSet).1 fun w y hy => ?_)
  rcases mem_put hy with hy | hy
  · exact .of_active (v := w) (by simp [Exits.adding, hy])
  · exact .of_bound hy

/-! ## Instructions -/

/-- An instruction, of which it is known what it has to do with rounds. -/
theorem Run.append (ha : Appended k r' x r'')
    (hp : ∀ p ∈ k.parameters, Known c.actives r p.value)
    (he : ∀ s pairs, k = .symmetryEnd s pairs → c.symmetry? = some s)
    (hj : ∀ l test, k = .jump l (some test) → r'.labels ≤ l ∨ l ∈ c.labels)
    (hs : ∀ n actives, k = .symmetryStart n actives → c.opened? = some r'.kinds.length) :
    Run t c r r'' ∧ Known c.actives r x := by
  refine ⟨?_, .inl (ha.result ▸ h.values.size)⟩
  refine h.andThen ho (k.parameters.map fun p => (0, p.value)) ?_
    (.appended h.covered ha (fun p hp => ?_) he hj hs)
  · simp only [List.mem_map, Prod.mk.injEq]
    rintro v x ⟨p, hpk, -, rfl⟩
    exact hp p hpk
  · exact .of_active (v := 0) (List.mem_append_left _ (List.mem_map_of_mem hp))

theorem Run.plain (ha : Appended k r' x r'') (hk : k.turns = false)
    (hp : ∀ p ∈ k.parameters, Known c.actives r p.value) :
    Run t c r r'' ∧ Known c.actives r x := by
  refine h.append ho ha hp ?_ ?_ ?_
  all_goals
    rintro _ _ rfl
    simp [InstructionKind.turns] at hk

theorem Run.marker {i : Nat} (h' : Takes (appendMarker k) r' i r'')
    (hk : k.turns = false) (hp : ∀ p ∈ k.parameters, Known c.actives r p.value) :
    Run t c r r'' := by
  obtain ⟨-, x, ha⟩ := appendMarker_appended h'
  exact (h.plain ho ha hk hp).1

theorem Run.label (h' : Takes (appendLabel l) r' u r'') : Run t c r r'' := by
  obtain ⟨x, ha⟩ := appendLabel_appended h'
  exact (h.plain ho ha rfl (by simp [InstructionKind.parameters])).1

theorem Run.jump {test : Option JumpTest} (h' : Takes (appendJump l test) r' u r'')
    (hl : test ≠ none → r'.labels ≤ l ∨ l ∈ c.labels) : Run t c r r'' := by
  obtain ⟨x, ha⟩ := appendJump_appended h'
  refine (h.append ho ha (by simp [InstructionKind.parameters]) (by simp) ?_ (by simp)).1
  rintro l test' ⟨⟩
  exact hl (by simp)

/-! ## Around regions -/

omit h ho in
theorem Run.prepared (h : Run t c r r₁) (ho : c.Old r) (h' : Prepared actives r₁ r')
    (hactives : ∀ v x, (v, x) ∈ actives → Known c.actives r x) : Run t c r r' := by
  induction h' with
  | refl => exact h
  | @cache r₁ r₂ vars preserved f x _ hvars ha ih =>
    exact (ih.plain ho (append_appended ha) rfl fun p => known_observed fun v x hb =>
      ih.known (.of_lookup (hvars (v, x) hb))).1
  | @keep r₁ r₂ b f x _ hb ha ih =>
    refine (ih.plain ho (append_appended ha) rfl ?_).1
    simpa [InstructionKind.parameters] using hactives b.1 b.2 hb
  | copy _ hx ha hb ih =>
    obtain ⟨h₂, hy⟩ := ih.plain ho (append_appended ha) rfl
      (by simpa [InstructionKind.parameters] using ih.known (.of_lookup hx))
    exact h₂.bind ho hb hy
  | fresh _ hc hb _ ih =>
    obtain ⟨h₂, hy⟩ := ih.create ho hc
    exact h₂.bind ho hb hy

omit h ho in
theorem Run.bracketed {step : Routine → Routine → Prop} (h : Bracketed step r r')
    (hr : Covered r) : ∃ q q', step q q' ∧ Run t .closed r q ∧ q.loops = r.loops ∧
      r'.loops = q'.loops ∧ q'.kinds <+: r'.kinds ∧
      ∀ c : Exits, c.Old r → Run t c r q' → Run t c r r' := by
  obtain ⟨save, r₁, enter, r₂, r₃, i, r₄, j, hs, he, hf, hm, hj⟩ := h
  have hold := Exits.closed_old r
  have h₁ := (Run.refl hr).marker (t := t) hold hs rfl (by simp [InstructionKind.parameters])
  have h₂ := h₁.marker hold he rfl fun p => known_observed fun v x hb => .of_bound hb
  have hkinds : r₃.kinds <+: r'.kinds := by
    obtain ⟨-, x, hx⟩ := appendMarker_appended hm
    obtain ⟨-, y, hy⟩ := appendMarker_appended hj
    have hx : r₄.kinds = r₃.kinds ++ [_] := hx.kinds
    have hy : r'.kinds = r₄.kinds ++ [_] := hy.kinds
    rw [hy, hx, List.append_assoc]
    exact List.prefix_append _ _
  have hloops : r₂.loops = r.loops := ((Kept.marker hs).trans (.marker he)).loops
  have hloops' : r₄.loops = r₃.loops := (Kept.marker hm).loops
  have h₂' : Run t .closed r { r₂ with regions := ⟨r.bindings, some enter⟩ :: r₂.regions } :=
    h₂.congr rfl rfl rfl h₂.bound
  refine ⟨_, r₃, hf, h₂', hloops, (Kept.marker hj).loops.trans hloops', hkinds,
    fun c ho h₃ => ?_⟩
  have h₃' : Run t c r { r₃ with regions := r₃.regions.tail } := h₃.congr rfl rfl rfl h₃.bound
  have h₄ := h₃'.marker ho hm rfl fun p => h₃.known_pairs fun v x hb => .of_bound hb
  have h₄' : Run t c r { r₄ with bindings := r.bindings } :=
    h₄.congr rfl rfl rfl fun v x hb => .of_bound hb
  exact h₄'.marker ho hj rfl (by simp [InstructionKind.parameters])

/-! ## Values of expressions -/

theorem Run.valueOf (h' : Takes (valueOf v) r' x r'') :
    Run t c r r'' ∧ Known c.actives r x := by
  rcases valueOf_cases h' with ⟨hx, rfl⟩ | h'
  · exact ⟨h, h.known (.of_lookup hx)⟩
  · obtain ⟨r₁, k, h₁, h₂⟩ := takes_bindToSlot h'
    obtain ⟨h₃, hx⟩ := h.create ho h₁
    exact ⟨h₃.bind ho h₂ hx, hx⟩

theorem Run.combined {o : Operator} (h' : Combined o x y r' z r'') (hx : Known c.actives r x)
    (hy : Known c.actives r y) : Run t c r r'' ∧ Known c.actives r z := by
  cases h' with
  | first hz hr => exact ⟨hr ▸ h, hz ▸ hx⟩
  | constant h' => exact h.create ho h'
  | instruction hk h' =>
    refine h.plain ho (append_appended h') ?_ ?_
    · cases isArithmetic_of_arithmetic? hk <;> rfl
    · cases isArithmetic_of_arithmetic? hk <;> simp [InstructionKind.parameters, hx, hy]

theorem Run.copied (h' : Copied x r' y r'') (hx : Known c.actives r x) :
    Run t c r r'' ∧ Known c.actives r y := by
  rcases h' with ⟨rfl, rfl⟩ | ⟨f, h'⟩
  · exact ⟨h, hx⟩
  · exact h.plain ho (append_appended h') rfl (by simpa [InstructionKind.parameters] using hx)

end

end Codegen
