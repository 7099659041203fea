import Codegen.Proofs.Straight.Selection

/-!
# The build of straight-line code

The instructions of a function are built in order. Before each of them the operations that were
built so far have taken the machine to a state in which all values that are still needed are at
home; at the end the word of the returned value is in the register of results.

* `releaseExpired_spec`: registers are freed without loss;
* `Computes`: what the plan says of an instruction;
* `Reached`: **where a build stands between two instructions**;
* `buildParameters_spec`, `buildAt_spec`: the first instruction, and any other one.
-/

namespace Codegen.Straight

open Generating

variable {m : Machine} {K : Plan} {live : ValueId → Prop} {n p : Nat}
variable {r r' : Routine} {s s₀ : Machine.State} {u v x : ValueId} {q : Register}

/-! ## Freeing registers -/

theorem Sound.unlocked (h : Sound m K live 0 r s) (q : Register) :
    r.registers.locked.contains q = false := by
  obtain ⟨⟨L, hL, hmem⟩, -⟩ := h.locks
  by_contra hq
  have := hmem q (by simpa using hq)
  simp [List.length_eq_zero_iff.mp (Nat.le_zero.mp hL)] at this

theorem releaseExpired_spec (h : Sound m K (K.Needed r.position) 0 r s) :
    Runs releaseExpired r fun _ r' => ∃ g, r' = { r with registers := g } ∧
      Sound m K (K.Needed r.position) 0 r' s ∧
      ∀ q, g.used.contains q = true → r.registers.used.contains q = true := by
  unfold releaseExpired
  refine .step (a := r) rfl ?_
  refine (Runs.forM (fun rest r' => (∃ g, r' = { r with registers := g } ∧
      Sound m K (K.Needed r.position) 0 r' s ∧
      (∀ q, g.used.contains q = true → r.registers.used.contains q = true) ∧
      ∀ q v, (q, v) ∈ rest → g.InRange q ∧ g.owner? q = some v) ∧ (rest.map Prod.fst).Nodup)
    ?_ ?_).mono fun _ r' ⟨⟨g, hg, hsound, hused, _⟩, _⟩ => ⟨g, hg, hsound, hused⟩
  · exact ⟨⟨r.registers, rfl, h, fun _ => id,
      fun q v hq => (RegisterFile.mem_occupants h.file).mp hq⟩, RegisterFile.nodup_occupants⟩
  · rintro ⟨q, v⟩ rest - ⟨⟨g, rfl, hg, hused, howners⟩, hnodup⟩
    simp only [List.map_cons, List.nodup_cons, List.mem_map, not_exists, not_and] at hnodup
    obtain ⟨hrange, ho⟩ := howners q v List.mem_cons_self
    obtain ⟨c, hc, hd, hh⟩ := hg.cell (hg.owners q v hrange ho).1
    refine .step (handleOf_eq hc) (.step (a := { r with registers := g }) rfl
      (.step (isValid_eq hc _) ?_))
    split
    next hfree =>
      obtain ⟨g', hg', hsound, -, howner, -⟩ := hg.released (hg.file.used_of_owner hrange ho)
        (hg.unlocked q) fun w hw hwo hwq => by
          obtain rfl : w = v := by simpa [ho] using hwo.symm
          have hcovers := hw.covers
          rw [← hd.lifetime] at hcovers
          simp [← hh, hwq, Handle.register?, hcovers] at hfree
      have hrange' (y : Register) : g'.InRange y ↔ g.InRange y :=
        hsound.shape.inRange.trans hg.shape.inRange.symm
      refine .of_eq (changeRegisters_eq g' hg')
        ⟨⟨g', rfl, hsound, fun y hy => ?_, fun y w hy => ?_⟩, hnodup.2⟩
      · obtain ⟨hy, w, hw⟩ := (hsound.file.used_iff y).mp hy
        rw [howner y ((hrange' y).mp hy)] at hw
        refine hused y (hg.file.used_of_owner ((hrange' y).mp hy) (v := w) ?_)
        by_cases hyq : y = q
        · simp [hyq] at hw
        · rwa [if_neg hyq] at hw
      · obtain ⟨hy', ho'⟩ := howners y w (List.mem_cons_of_mem _ hy)
        have hyq : y ≠ q := hnodup.1 (y, w) hy
        exact ⟨(hrange' y).mpr hy', by rw [howner y hy', if_neg hyq, ho']⟩
    next =>
      exact .pure ⟨⟨g, rfl, hg, hused, fun y w hy => howners y w (List.mem_cons_of_mem _ hy)⟩, hnodup.2⟩

/-- Behind an instruction all locks are dropped, and what it made is needed like all else. -/
theorem Sound.next (h : Sound m K (K.Later r.position) lockLimit r s)
    (hnew : ∀ v, K.Needed (r.position + 1) v → (K.lifetime v).start = r.position →
      Holds r s v (K.word v)) (instructions : Array Instruction) :
    Sound m K (K.Needed (r.position + 1)) 0
      { r with
        registers := r.registers.unlockAll, instructions, operations := [],
        position := r.position + 1 } s := by
  obtain ⟨hw, hs, ho, hc⟩ := RegisterFile.unlockAll_spec h.file
  have home (v : ValueId) (hv : K.Needed (r.position + 1) v) : Holds r s v (K.word v) := by
    by_cases hstart : (K.lifetime v).start = r.position
    · exact hnew v hv hstart
    · have h1 := hv.start_lt
      have h2 := hv.le_stop
      push_cast at h1 h2
      exact h.homes v ⟨⟨hv.lt_size, hv.not_constant, hv.start_nonneg, by omega, by omega⟩, h2⟩
  exact {
    architecture := h.architecture
    file := hw
    shape := h.shape.trans hs
    owners := fun q v hq hv => h.owners q v (hs.inRange.mp hq) (by rwa [ho] at hv)
    size := h.size
    cells := h.cells
    needed := fun v hv => hv
    homes := fun v hv => by
      rcases home v hv with ⟨q, h1, h2, h3, h4⟩ | hk
      · exact .inl ⟨q, h1, hs.inRange.mpr h2, (congrFun ho q).trans h3, h4⟩
      · exact .inr hk
    locks := ⟨⟨[], Nat.le_refl 0, fun q hq => by simp [RegisterFile.unlockAll] at hq⟩,
      fun q _ => Nat.le_of_eq (hc q)⟩ }

/-! ## Parameters -/

theorem place_spec (h : Sound m K (K.Later r.position) n r s) (hx : Fresh K r.position x)
    (hq : IsGeneral m.architecture q) (hu : r.registers.used.contains q = false) :
    ∃ g, place x q r = .ok () { r with
        registers := g, values := r.values.withHandle x (.register q) } ∧
      Sound m K (K.Later r.position) n
        { r with registers := g, values := r.values.withHandle x (.register q) } s ∧
      ∀ y, r.registers.InRange y → g.owner? y = if y = q then some x else r.registers.owner? y := by
  obtain ⟨g, hg, hsound, ho, -⟩ := h.assigned hq hu hx.lt_size
  obtain ⟨c, hc, hd, -⟩ := h.cell hx.lt_size
  refine ⟨g, ?_, ?_, ho⟩
  · unfold place
    rw [bind_of_ok (changeRegisters_eq g hg), setHandle_eq (by exact hc) hd.edges]
  · exact hsound.withHandle hx.lt_size hx.not_constant _ (fun _ hw _ => hw)
      fun hlive => absurd hlive.1 hx.not_needed

/-- The incoming parameters are at home in the registers of the calling convention. -/
theorem buildParameters_spec {xs : List ValueId} (hr : r.position = 0)
    (h : Sound m K (K.Later r.position) 0 r s) (hxs : ∀ x ∈ xs, Fresh K 0 x) (hnodup : xs.Nodup)
    (hlen : xs.length ≤ m.architecture.target.parameters.length)
    (hunused : ∀ q, r.registers.used.contains q = false)
    (hargs : ∀ x q, (x, q) ∈ xs.zip m.architecture.target.parameters →
      s.registers q = K.word x) :
    Emits m (buildParameters xs) r s fun _ r' s' => s' = s ∧
      Sound m K (K.Later r'.position) 0 r' s ∧ ∀ x ∈ xs, Holds r' s x (K.word x) := by
  have hformats : xs.mapM formatOf r = .ok (xs.map fun _ => Format.i64) r := by
    refine mapM_eq fun x hx => ?_
    obtain ⟨c, hc, hd, -⟩ := h.cell (hxs x hx).lt_size
    rw [formatOf_eq hc, hd.format]
  have hregisters : r.target.argumentRegisters (xs.map fun _ => Format.i64) =
      .ok (m.architecture.target.parameters.take xs.length) := by
    have htarget : r.target = m.architecture.target := congrArg _ h.architecture
    rw [htarget, Target.argumentRegisters_integers _ (by simp [Format.isDecimal]),
      List.length_map, if_pos hlen]
  have hzip : xs.zip (m.architecture.target.parameters.take xs.length) =
      xs.zip m.architecture.target.parameters := by
    rw [@List.zip_eq_zip_take_min _ _ xs m.architecture.target.parameters, Nat.min_eq_left hlen,
      List.take_length]
  unfold buildParameters
  refine .step (a := r) rfl (.step hformats ?_)
  simp only [hregisters, hzip]
  generalize hall : xs.zip m.architecture.target.parameters = all at hargs
  have hfst : (all.map Prod.fst).Nodup := by
    rw [← hall, List.map_fst_zip hlen]
    exact hnodup
  obtain ⟨hparams, hgen⟩ := parameters_general m.architecture
  have hsnd : (all.map Prod.snd).Nodup := by
    rw [← hall, ← hzip, List.map_snd_zip (List.length_take_le ..)]
    exact hparams.sublist (List.take_sublist ..)
  have hmem : ∀ a ∈ all, a.1 ∈ xs ∧ a.2 ∈ m.architecture.target.parameters := fun a ha => by
    rw [← hall] at ha
    exact List.of_mem_zip ha
  refine (Emits.forM (fun rest r' s' => s' = s ∧ r'.position = 0 ∧
    Sound m K (K.Later r'.position) 0 r' s ∧ rest <:+ all ∧
    (∀ a ∈ rest, r'.registers.used.contains a.2 = false) ∧
    ∀ a ∈ all, a ∈ rest ∨
      r'.values.handleAt a.1 = .register a.2 ∧ r'.registers.owner? a.2 = some a.1)
    ⟨rfl, hr, h, List.suffix_refl all, fun a _ => hunused a.2, fun a ha => .inl ha⟩ ?_).mono ?_
  · rintro ⟨x, q⟩ rest r₁ _ ⟨rfl, hr, h, hsuffix, hunused, hplaced⟩
    have hx := hsuffix.mem List.mem_cons_self
    have hfresh : Fresh K r₁.position x := by
      rw [hr]
      exact hxs x (hmem _ hx).1
    have hsize : x < r₁.values.size := by
      rw [h.size]
      exact hfresh.lt_size
    obtain ⟨g, hg, hsound, howner⟩ :=
      place_spec h hfresh (hgen _ (hmem _ hx).2) (hunused _ List.mem_cons_self)
    have hrange (a : ValueId × Register) (ha : a ∈ all) : r₁.registers.InRange a.2 :=
      h.inRange_of_general (hgen _ (hmem a ha).2)
    have hsuffix' := (List.suffix_cons (x, q) rest).trans hsuffix
    refine .silent hg rfl rfl rfl rfl rfl ⟨rfl, hr, hsound, hsuffix', fun a ha => ?_,
      fun a ha => ?_⟩
    · have hne : a.2 ≠ q := fun he => by
        have hrest := (List.nodup_cons.mp ((hsuffix.sublist.map Prod.snd).nodup hsnd)).1
        exact hrest (List.mem_map.mpr ⟨a, ha, he⟩)
      have ha' := hrange a (hsuffix'.mem ha)
      exact hsound.file.unused_of_owner (by
        rw [howner _ ha', if_neg hne,
          h.file.owner?_eq_none ha' (hunused a (List.mem_cons_of_mem _ ha))])
    · by_cases hax : a = (x, q)
      · subst hax
        refine .inr ⟨?_, by rw [howner _ (hrange _ hx), if_pos rfl]⟩
        rw [Arena.handleAt_withHandle hsize, if_pos rfl]
      · rcases hplaced a ha with hrest | ⟨h1, h2⟩
        · exact .inl (List.mem_of_ne_of_mem hax hrest)
        · have hfst' : a.1 ≠ x := fun he => hax (List.inj_on_of_nodup_map hfst ha hx he)
          have hsnd' : a.2 ≠ q := fun he => hax (List.inj_on_of_nodup_map hsnd ha hx he)
          refine .inr ⟨?_, by rw [howner _ (hrange a ha), if_neg hsnd', h2]⟩
          rw [Arena.handleAt_withHandle hsize, if_neg hfst', h1]
  · rintro - r' _ ⟨rfl, -, h', -, -, hplaced⟩
    refine ⟨rfl, h', fun x hx => ?_⟩
    rw [← List.map_fst_zip hlen, hall] at hx
    obtain ⟨⟨x, q⟩, ha, rfl⟩ := List.mem_map.mp hx
    obtain ⟨h1, h2⟩ := (hplaced _ ha).resolve_left List.not_mem_nil
    exact .inl ⟨q, h1, h'.inRange_of_general (hgen _ (hmem _ ha).2), h2, hargs x q ha⟩

/-! ## Instructions -/

/-- The instruction computes the word of its result from values that are there. Of the operands of
a product at most the second is a literal. -/
inductive Computes (K : Plan) (p : Nat) (x : ValueId) : InstructionKind → Prop
  | duplicate {v : ValueId} (hv : Usable K (K.Needed p) v) (hword : K.word x = K.word v) :
      Computes K p x (.duplicate v)
  | addition {u v : ValueId} (hu : Usable K (K.Needed p) u) (hv : Usable K (K.Needed p) v)
      (hword : K.word x = K.word u + K.word v) : Computes K p x (.addition u v)
  | subtraction {u v : ValueId} (hu : Usable K (K.Needed p) u) (hv : Usable K (K.Needed p) v)
      (hword : K.word x = K.word u - K.word v) : Computes K p x (.subtraction u v)
  | multiplication {u v : ValueId} (hu : Usable K (K.Needed p) u) (hk : K.isConstant u = false)
      (hv : Usable K (K.Needed p) v) (hword : K.word x = K.word u * K.word v) :
      Computes K p x (.multiplication u v)

theorem buildInstruction_spec {kind : InstructionKind}
    (h : Sound m K (K.Needed r.position) 0 r s) (hx : Fresh K r.position x)
    (hc : Computes K r.position x kind) (p : Nat) :
    Emits m (buildInstruction p x kind) r s fun _ r' s' => Made m K x r' s' := by
  cases hc with
  | duplicate hv hword => exact buildDuplicate_spec h hx hv hword
  | addition hu hv hword => exact buildAdditive_spec h hx hu hv (.inl rfl) rfl hword
  | subtraction hu hv hword => exact buildAdditive_spec h hx hu hv (.inr rfl) rfl hword
  | multiplication hu hk hv hword => exact buildMultiplication_spec h hx hu hk hv hword

/-- **Where a build stands before the instruction at a position**: the operations of the earlier
instructions take the machine from its first state to one in which all that is needed is at home. -/
structure Reached (m : Machine) (K : Plan) (c : Config) (is : List Instruction) (p : Nat)
    (s₀ : Machine.State) (r : Routine) (s : Machine.State) : Prop where
  config : r.config = c
  sound : Sound m K (K.Needed p) 0 { r with position := p } s
  operations : r.operations = []
  instructions : ∃ done, done.length = p ∧ r.instructions.toList = done ++ is.drop p ∧
    m.execute (done.flatMap (·.operations)) s₀ = some s ∧
    (∀ o ∈ done.flatMap (·.operations), o.IsPlain m.architecture r.temporaries) ∧
    Spills (done.flatMap (·.operations)) 0 r.temporaries

variable {c : Config} {is : List Instruction} {i : Instruction}

theorem toList_modify {done rest : List Instruction} {a : Array Instruction}
    (ha : a.toList = done ++ i :: rest) (f : Instruction → Instruction) :
    (a.modify done.length f).toList = done ++ f i :: rest := by
  rw [Array.toList_modify, ha, List.modify_eq_take_cons_drop (by simp)]
  simp

/-- One instruction that leaves what it makes at home. -/
theorem buildAt_spec (h : Reached m K c is p s₀ r s) (hi : is[p]? = some i)
    (hbuild : ∀ r', r'.position = p → Sound m K (K.Needed r'.position) 0 r' s →
      (∀ q, r'.registers.used.contains q = true → r.registers.used.contains q = true) →
      Emits m (buildInstruction p i.result i.kind) r' s fun _ r'' s'' =>
        Sound m K (K.Later r''.position) lockLimit r'' s'' ∧
        ∀ v, K.Needed (p + 1) v → (K.lifetime v).start = p → Holds r'' s'' v (K.word v)) :
    Runs (buildAt p i) r fun _ r' =>
      r.temporaries ≤ r'.temporaries ∧ ∃ s', Reached m K c is (p + 1) s₀ r' s' := by
  obtain ⟨done, hlen, his, hexec, hplain, hspills⟩ := h.instructions
  unfold buildAt
  refine .step (a := ()) rfl ?_
  refine .bind (releaseExpired_spec h.sound) ?_
  rintro - _ ⟨g, rfl, hg, hused⟩
  obtain ⟨_, r', s', hrun, hemit, hsound, hnew⟩ :=
    hbuild { r with position := p, registers := g } rfl hg hused
  have hpos : r'.position = p := hemit.position
  obtain ⟨ops, hops, hexec', hplain', hspills'⟩ := hemit.operations
  rw [h.operations, List.nil_append] at hops
  refine .step hrun (.of_eq rfl ⟨hemit.temporaries, s', ?_⟩)
  have hnext := hsound.next (by rw [hpos]; exact hnew)
    (r'.instructions.modify p ({ · with operations := r'.operations }))
  rw [hpos] at hnext
  refine ⟨hemit.config.trans h.config, hnext, rfl, done ++ [{ i with operations := ops }],
    by simp [hlen], ?_, ?_, ?_, ?_⟩
  · have hdrop : is.drop p = i :: is.drop (p + 1) := by
      obtain ⟨hp, rfl⟩ := List.getElem?_eq_some_iff.mp hi
      exact List.drop_eq_getElem_cons hp
    have hlist : r'.instructions.toList = done ++ i :: is.drop (p + 1) := by
      rw [hemit.instructions, ← hdrop]
      exact his
    rw [← hlen, toList_modify hlist, hlen, hops]
    simp
  · simp only [List.flatMap_append, List.flatMap_singleton]
    rw [Machine.execute_append hexec, hexec']
  · simp only [List.flatMap_append, List.flatMap_singleton, List.mem_append]
    rintro o (ho | ho)
    · exact (hplain o ho).mono hemit.temporaries
    · exact hplain' o ho
  · simp only [List.flatMap_append, List.flatMap_singleton]
    exact hspills.append hspills'

end Codegen.Straight
