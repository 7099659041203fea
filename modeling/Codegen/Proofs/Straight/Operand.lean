import Codegen.Proofs.Straight.Placement

/-!
# Operands and destinations of straight-line code

What an instruction reads is brought into a form that it accepts, and stays readable while the
other operands and the destination are found: it is a constant, a locked register or a spill slot.
The destination is the register of an operand that nothing needs any more, or a fresh one.

* `Readable`: an operand with a word that does not go away;
* `load_spec`, `operand_spec`: operands;
* `Ready`: a register that the result may be written to;
* `reusableDestination_spec`, `loadForWrite_spec`: destinations.
-/

namespace Codegen.Straight

open Generating

variable {m : Machine} {K : Plan} {live : ValueId → Prop} {n : Nat}
variable {r r' : Routine} {s s' : Machine.State} {v x : ValueId} {q d : Register} {w : Word}

/-! ## Readable operands -/

/-- The operand has a word, and keeps it as long as locked registers and slots are left alone. -/
inductive Readable (r : Routine) (s : Machine.State) (w : Word) : Operand → Prop
  | register {q : Register} (hq : r.registers.locked.contains q = true)
      (hw : s.registers q = w) : Readable r s w (.register q)
  | immediate : Readable r s w (.immediate w)
  | slot {k : Nat} (hk : k < r.temporaries) (hw : s.slots (.temporary k) = w) :
      Readable r s w (.memory (.displaced (.slot (.temporary k)) 0))

theorem Readable.steady {y : Operand} (h : Readable r s w y) (hs : Steady r s r' s') :
    Readable r' s' w y := by
  cases h with
  | register hq hw =>
    obtain ⟨h1, h2⟩ := hs.locked _ hq
    exact .register h1 (h2.trans hw)
  | immediate => exact .immediate
  | slot hk hw => exact .slot (Nat.lt_of_lt_of_le hk hs.temporaries) ((hs.slots _ hk).trans hw)

theorem Readable.read {y : Operand} (h : Readable r s w y) : m.read s y = some w := by
  cases h with
  | register hq hw => simp [Machine.read, hw]
  | immediate => rfl
  | slot hk hw =>
    change some (s.slots _) = some w
    rw [hw]

theorem Readable.isSimple {y : Operand} (h : Readable r s w y) : y.IsSimple r.temporaries := by
  cases h with
  | register => trivial
  | immediate => trivial
  | slot hk => exact ⟨_, hk, rfl⟩

/-- The value is a literal, or live. -/
def Usable (K : Plan) (live : ValueId → Prop) (v : ValueId) : Prop :=
  v < K.size ∧ (K.isConstant v = true ∨ live v)

/-- The place holds the word. -/
inductive Source (s : Machine.State) (w : Word) : Handle → Prop
  | constant : Source s w (.constant (.integer w))
  | register {q : Register} (h : s.registers q = w) : Source s w (.register q)
  | slot {k : Nat} {z : Size} (h : s.slots (.temporary k) = w) :
      Source s w (.temporarySlot k z)

theorem Source.steady {h : Handle} (hs : Source s w h)
    (hk : ∀ k z, h = .temporarySlot k z → k < r.temporaries)
    (hr : s'.registers = s.registers) (hst : Steady r s r' s') : Source s' w h := by
  cases hs with
  | constant => exact .constant
  | register hw => exact .register (by rw [hr, hw])
  | slot hw => exact .slot ((hst.slots _ (hk _ _ rfl)).trans hw)

/-- A value that can be used is in a register that it owns, in a slot, or a literal. -/
theorem Sound.source (h : Sound m K live n r s) (hv : Usable K live v) :
    Source s (K.word v) (r.values.handleAt v) ∧
      (∀ q, r.values.handleAt v = .register q →
        live v ∧ r.registers.InRange q ∧ r.registers.owner? q = some v) ∧
      (∀ k z, r.values.handleAt v = .temporarySlot k z → k < r.temporaries) ∧
      ∀ c, r.values.handleAt v = .constant c → K.isConstant v = true := by
  obtain ⟨hlt, hconst | hlive⟩ := hv
  · obtain ⟨c, hc, hd, hh⟩ := h.cell hlt
    rw [hh, hd.constant hconst]
    exact ⟨.constant, by simp, by simp, fun _ _ => hconst⟩
  · rcases h.homes v hlive with ⟨q, h1, h2, h3, h4⟩ | ⟨k, z, h1, h2, h3⟩
    · rw [h1]
      refine ⟨.register h4, fun x hx => ?_, by simp, by simp⟩
      obtain rfl : q = x := by simpa using hx
      exact ⟨hlive, h2, h3⟩
    · rw [h1]
      refine ⟨.slot h3, by simp, fun j y hj => ?_, by simp⟩
      simp only [Handle.temporarySlot.injEq] at hj
      omega

theorem Sound.write (h : Sound m K live n r s) (ho : r.registers.owner? q = some v)
    (hw : live v → w = K.word v) (flags? : Option (Word × Word)) :
    Sound m K live n r { s.set q w with flags? } := by
  refine { h with homes := fun u hu => ?_ }
  rcases h.homes u hu with ⟨y, h1, h2, h3, h4⟩ | hk
  · refine .inl ⟨y, h1, h2, h3, ?_⟩
    by_cases hyq : y = q
    · subst hyq
      obtain rfl : v = u := by simpa [ho] using h3
      exact (Machine.State.set_registers_self ..).trans (hw hu)
    · exact (Machine.State.set_registers_of_ne hyq).trans h4
  · exact .inr hk

theorem set_eq_self (h : s.registers q = w) : s.set q w = s := by
  unfold Machine.State.set
  rw [← h, Function.update_eq_self]

theorem Steady.slot {h : Handle} (hst : Steady r s r' s')
    (hk : ∀ k z, h = .temporarySlot k z → k < r.temporaries) :
    ∀ k z, h = .temporarySlot k z → k < r'.temporaries :=
  fun k z hkz => Nat.lt_of_lt_of_le (hk k z hkz) hst.temporaries

/-- A place is copied to a register. -/
theorem transferInto_spec {h : Handle} (hs : Source s w h)
    (hk : ∀ k z, h = .temporarySlot k z → k < r.temporaries) (hq : IsGeneral m.architecture q)
    (load : Loading) :
    Emits m (transferInto load q h .i64) r s fun _ r' s' =>
      s' = s.set q w ∧ ∃ ops, r' = { r with operations := ops } := by
  cases hs with
  | constant =>
    have hmedia : q.isMedia = false := by
      simp [Register.isMedia, hq.bank, Register.mediaBank]
    simp only [transferInto, transferConstant, hmedia, Bool.false_eq_true, if_false]
    exact .emit (t := s.set q w) rfl (.move hq.allocatable trivial) ⟨rfl, _, rfl⟩
  | @register y hy =>
    by_cases hyq : y = q
    · subst hyq
      simp only [transferInto, ne_eq, not_true_eq_false, if_false]
      exact .pure ⟨(set_eq_self hy).symm, r.operations, rfl⟩
    · simp only [transferInto, ne_eq, hyq, not_false_eq_true, if_true]
      refine .emit (t := s.set q w) ?_ (.move hq.allocatable trivial) ⟨rfl, _, rfl⟩
      rw [← hy]
      rfl
  | slot hw =>
    simp only [transferInto]
    refine .step (r := r) rfl (.emit (t := s.set q w) ?_
      (.move hq.allocatable ⟨_, hk _ _ rfl, rfl⟩) ⟨rfl, _, rfl⟩)
    rw [← hw]
    rfl

/-! ## Loading -/

theorem lockUsed_spec (h : Sound m K live n r s) (hn : n < lockLimit)
    (hu : r.registers.used.contains q = true) :
    Emits m (lockUsed q) r s fun _ r' s' => Sound m K live (n + 1) r' s' ∧
      r'.registers.locked.contains q = true ∧ s' = s ∧ Steady r s r' s' := by
  obtain ⟨g, hg, hsound, -, hlocked, hmono⟩ := h.lock_eq hn hu
  unfold lockUsed
  refine .step (a := true) (by rw [← hu]; rfl) ?_
  exact .silent hg rfl rfl rfl rfl rfl
    ⟨hsound, hlocked, rfl, rfl, fun y hy => ⟨hmono y hy, rfl⟩, Nat.le_refl _, fun _ _ => rfl⟩

theorem Steady.write (h : Steady r s r' s') (hl : r.registers.locked.contains q = false)
    (w : Word) (flags? : Option (Word × Word)) (ops : List Operation) :
    Steady r s { r' with operations := ops } { s'.set q w with flags? } where
  position := h.position
  locked y hy := by
    obtain ⟨h1, h2⟩ := h.locked y hy
    have hyq : y ≠ q := by
      rintro rfl
      simp [hl] at hy
    exact ⟨h1, (Machine.State.set_registers_of_ne hyq).trans h2⟩
  temporaries := h.temporaries
  slots := h.slots

theorem load_spec (h : Sound m K live n r s) (hn : n + 1 < lockLimit) (hv : Usable K live v) :
    Emits m (load v) r s fun q r' s' => Sound m K live (n + 2) r' s' ∧
      Readable r' s' (K.word v) (.register q) ∧ Steady r s r' s' := by
  obtain ⟨c, hc, hd, hh⟩ := h.cell hv.1
  obtain ⟨hsrc, hreg, hslot, -⟩ := h.source hv
  rw [hh] at hsrc hreg hslot
  unfold load
  refine .step (a := r) rfl ?_
  unfold loadWithin loadStep
  refine .step (handleOf_eq hc) ?_
  -- a value that is in no register is copied to a new one
  have copy (hh : ∀ q, c.handle ≠ .register q) :
      Emits m (do
        let f ← formatOf v
        let q ← allocate f.bank v
        transferInto (loadWithin r.values.size) q c.handle f
        return q) r s fun q r' s' => Sound m K live (n + 2) r' s' ∧
          Readable r' s' (K.word v) (.register q) ∧ Steady r s r' s' := by
    refine .step (formatOf_eq hc) ?_
    rw [hd.format]
    refine .bind (allocate_spec h hn hv.1) ?_
    rintro q r₁ s₁ ⟨h₁, hg, hl, hs, hst⟩
    have hsrc₁ := hsrc.steady hslot hs hst
    refine .bind (transferInto_spec hsrc₁ (hst.slot hslot) hg.general _) ?_
    rintro - r₂ s₂ ⟨rfl, ops, rfl⟩
    refine .pure ⟨?_, .register hg.locked (by simp), hst.write hl _ s₁.flags? ops⟩
    exact (h₁.write hg.owner (fun _ => rfl) s₁.flags?).congr rfl rfl rfl rfl rfl
  cases hcase : c.handle with
  | register q =>
    obtain ⟨-, hrange, ho⟩ := hreg q hcase
    refine .bind (lockUsed_spec h (Nat.lt_of_succ_lt hn) (h.file.used_of_owner hrange ho)) ?_
    rintro - r₁ s₁ ⟨h₁, hl, rfl, hst⟩
    rw [hcase] at hsrc
    cases hsrc with
    | register hw => exact .pure ⟨h₁.relax (Nat.le_succ _), .register hl hw, hst⟩
  | _ =>
    rw [hcase] at copy
    exact copy (by simp)

/-- What an instruction gets for a value. -/
structure Accepted (m : Machine) (K : Plan) (access : Access) (v : ValueId) (y : Operand) : Prop where
  /-- Memory is only there for those who accept it, on the architecture that has such operands. -/
  memory : ∀ o, y = .memory o → access = .any ∧ m.architecture.isX64 = true
  immediate : ∀ i, y = .immediate i → K.isConstant v = true

/-- A value in a form that is accepted. -/
theorem operand_spec (h : Sound m K live n r s) (hn : n + 1 < lockLimit) (hv : Usable K live v)
    (access : Access) :
    Emits m (operand v access) r s fun y r' s' => Sound m K live (n + 2) r' s' ∧
      Readable r' s' (K.word v) y ∧ Accepted m K access v y ∧ Steady r s r' s' := by
  obtain ⟨c, hc, hd, hh⟩ := h.cell hv.1
  obtain ⟨hsrc, hreg, hslot, hconst⟩ := h.source hv
  rw [hh] at hsrc hreg hslot hconst
  have loaded : Emits m (do return Operand.register (← load v)) r s fun y r' s' =>
      Sound m K live (n + 2) r' s' ∧ Readable r' s' (K.word v) y ∧ Accepted m K access v y ∧
        Steady r s r' s' := by
    refine .bind (load_spec h hn hv) ?_
    rintro q r₁ s₁ ⟨h₁, hr, hst⟩
    exact .pure ⟨h₁, hr, ⟨by simp, by simp⟩, hst⟩
  unfold operand
  refine .step (handleOf_eq hc) (.step (formatOf_eq hc) (.step (a := r) rfl ?_))
  cases hcase : c.handle with
  | register q =>
    obtain ⟨-, hrange, ho⟩ := hreg q hcase
    refine .bind (lockUsed_spec h (Nat.lt_of_succ_lt hn) (h.file.used_of_owner hrange ho)) ?_
    rintro - r₁ s₁ ⟨h₁, hl, rfl, hst⟩
    rw [hcase] at hsrc
    cases hsrc with
    | register hw => exact .pure ⟨h₁.relax (Nat.le_succ _), .register hl hw, ⟨by simp, by simp⟩, hst⟩
  | constant number =>
    have hk := hconst _ hcase
    rw [hcase] at hsrc
    cases hsrc with
    | constant =>
      simp only []
      split
      · exact .pure ⟨h.relax (Nat.le_add_right n 2), .immediate, ⟨by simp, fun _ _ => hk⟩, .refl⟩
      · exact loaded
  | temporarySlot k z =>
    rw [hcase] at hsrc
    cases hsrc with
    | slot hw =>
      simp only []
      split
      next hmem =>
        refine .step (r := r) (a := .displaced (.slot (.temporary k)) 0) rfl (.pure
          ⟨h.relax (Nat.le_add_right n 2), .slot (hslot k z hcase) hw, ⟨fun _ _ => ⟨hmem.1.1, ?_⟩, by simp⟩,
            .refl⟩)
        rw [← h.architecture]
        exact hmem.1.2
      · exact loaded
  | _ =>
    rw [hcase] at hsrc
    cases hsrc

/-! ## Destinations -/

/-- The value is made by the present instruction. -/
structure Fresh (K : Plan) (p : Nat) (x : ValueId) : Prop where
  lt_size : x < K.size
  not_constant : K.isConstant x = false
  start_eq : (K.lifetime x).start = p

theorem Fresh.not_needed {p : Nat} (hx : Fresh K p x) : ¬ K.Needed p x := fun h => by
  have := h.start_lt
  rw [hx.start_eq] at this
  omega

/-- The register is the home of the result, and nothing that is needed later lives there. -/
structure Ready (m : Machine) (K : Plan) (n : Nat) (x : ValueId) (d : Register) (r : Routine)
    (s : Machine.State) : Prop where
  sound : Sound m K (K.Later r.position) n r s
  within : n ≤ lockLimit
  fresh : Fresh K r.position x
  general : IsGeneral m.architecture d
  inRange : r.registers.InRange d
  owner : r.registers.owner? d = some x
  handle : r.values.handleAt x = .register d

/-- The result has its word, and so has everything that is needed later. -/
structure Made (m : Machine) (K : Plan) (x : ValueId) (r : Routine) (s : Machine.State) :
    Prop where
  sound : Sound m K (K.Later r.position) lockLimit r s
  holds : Holds r s x (K.word x)

theorem Ready.write (h : Ready m K n x d r s) (w : Word) (flags? : Option (Word × Word))
    (ops : List Operation) :
    Ready m K n x d { r with operations := ops } { s.set d w with flags? } :=
  { h with
    sound := (h.sound.write h.owner (fun hlive => absurd hlive.1 h.fresh.not_needed)
      flags?).congr rfl rfl rfl rfl rfl }

theorem Ready.made (h : Ready m K n x d r s) (flags? : Option (Word × Word))
    (ops : List Operation) :
    Made m K x { r with operations := ops } { s.set d (K.word x) with flags? } where
  sound := ((h.sound.write h.owner (fun _ => rfl) flags?).relax h.within).congr rfl rfl rfl rfl rfl
  holds := .inl ⟨d, h.handle, h.inRange, h.owner, by simp⟩

/-- A result gets the register of a value that nothing needs any more. -/
theorem takeOver_spec (h : Sound m K (K.Needed r.position) n r s) (hn : n + 1 < lockLimit)
    (hx : Fresh K r.position x) (hq : r.registers.InRange q)
    (ho : r.registers.owner? q = some v) (hv : ¬ K.Later r.position v) :
    Emits m (takeOver x q) r s fun d r' s' => d = q ∧ Ready m K (n + 2) x d r' s' ∧ s' = s ∧
      Steady r s r' s' := by
  obtain ⟨-, hgen⟩ := h.owners q v hq ho
  obtain ⟨g, hg, hgw, hgs, hgo, hgc⟩ := RegisterFile.assign_spec h.file hq x
  have hlocked := RegisterFile.locked_congr h.file hgw hgs fun y _ => hgc y
  have h₁ : Sound m K (K.Later r.position) n { r with registers := g } s := by
    refine (h.weaken fun _ hl => hl.1).withRegisters hgw hgs (fun y u hy hu => ?_)
      (fun y u hu _ hy hyo => ?_) (h.locks.congr h.file hgw hgs fun y _ => hgc y)
    · rw [hgo y hy] at hu
      by_cases hyq : y = q
      · rw [if_pos hyq] at hu
        obtain rfl := Option.some.inj hu
        rw [hyq]
        exact ⟨hx.lt_size, hgen⟩
      · rw [if_neg hyq] at hu
        exact h.owners y u hy hu
    · rw [hgo y hy, if_neg, hyo]
      rintro rfl
      obtain rfl : v = u := by simpa [ho] using hyo
      exact hv hu
  obtain ⟨c, hc, hd, -⟩ := h₁.cell hx.lt_size
  have h₂ : Sound m K (K.Later r.position) _ _ s :=
    h₁.withHandle hx.lt_size hx.not_constant (.register q)
      (fun _ hw _ => hw) fun hlive => absurd hlive.1 hx.not_needed
  have hgused : g.used.contains q = true :=
    hgw.used_of_owner (hgs.inRange.mpr hq) (by rw [hgo q hq, if_pos rfl])
  obtain ⟨g', hg', h₃, hgo', hlocked', hmono⟩ := h₂.lock_eq (Nat.lt_of_succ_lt hn) hgused
  unfold takeOver place
  refine .bind (Q := fun _ r' s' => r' = { r with
      registers := g, values := r.values.withHandle x (.register q) } ∧ s' = s) ?_ ?_
  · exact .change (changeRegisters_eq g hg) rfl rfl rfl rfl rfl
      (.silent (setHandle_eq hc hd.edges _) rfl rfl rfl rfl rfl ⟨rfl, rfl⟩)
  · rintro - _ _ ⟨rfl, rfl⟩
    refine .change hg' rfl rfl rfl rfl rfl (.pure ⟨rfl,
      ⟨h₃.relax (Nat.le_succ _), hn, hx, hgen, h₃.inRange_of_general hgen, ?_, ?_⟩, rfl, rfl,
      fun y hy => ⟨hmono y ((hlocked y).trans hy), rfl⟩, Nat.le_refl _, fun _ _ => rfl⟩)
    · change g'.owner? q = some x
      rw [hgo']
      change g.owner? q = some x
      rw [hgo q hq, if_pos rfl]
    · change (r.values.withHandle x (.register q)).handleAt x = .register q
      rw [Arena.handleAt_withHandle (by rw [h.size]; exact hx.lt_size), if_pos rfl]

/-- A result gets a register that was not locked. -/
theorem allocateResult_spec (h : Sound m K (K.Needed r.position) n r s) (hn : n + 1 < lockLimit)
    (hx : Fresh K r.position x) :
    Emits m (allocateResult x) r s fun d r' s' => Ready m K (n + 2) x d r' s' ∧
      r.registers.locked.contains d = false ∧ s'.registers = s.registers ∧ Steady r s r' s' := by
  obtain ⟨c, hc, hd, -⟩ := h.cell hx.lt_size
  unfold allocateResult
  refine .step (formatOf_eq hc) ?_
  rw [hd.format]
  refine .bind (allocate_spec h hn hx.lt_size) ?_
  rintro d r₁ s₁ ⟨h₁, hg, hl, hs, hst⟩
  rw [← hst.position] at h₁ hx
  obtain ⟨c, hc, hd, -⟩ := h₁.cell hx.lt_size
  have hlater : Sound m K (K.Later r₁.position) _ r₁ s₁ := h₁.weaken fun _ hl => hl.1
  have h₂ : Sound m K (K.Later r₁.position) _ _ s₁ :=
    hlater.withHandle hx.lt_size hx.not_constant (.register d)
      (fun _ hw _ => hw) fun hlive => absurd hlive.1 hx.not_needed
  refine .change (setHandle_eq hc hd.edges _) rfl rfl rfl rfl rfl
    (.pure ⟨⟨h₂, hn, hx, hg.general, hg.inRange, hg.owner, ?_⟩, hl, hs, hst.position, hst.locked,
      hst.temporaries, hst.slots⟩)
  change (Arena.withHandle _ x (.register d)).handleAt x = .register d
  rw [Arena.handleAt_withHandle (by rw [h₁.size]; exact hx.lt_size), if_pos rfl]

theorem isExpiring_iff (h : Sound m K (K.Needed r.position) n r s) (hv : K.Needed r.position v) :
    ∃ b, isExpiring v r = .ok b r ∧ (b = true ↔ ¬ K.Later r.position v) := by
  obtain ⟨c, hc, hd, -⟩ := h.cell hv.lt_size
  refine ⟨_, isExpiring_eq hc, ?_⟩
  have h1 := hv.start_nonneg
  have h2 := hv.start_lt
  rw [hd.lifetime]
  simp only [Plan.Later, hv, true_and, Lifetime.covers, Lifetime.isActive, Bool.not_eq_true',
    Bool.and_eq_false_iff, decide_eq_false_iff_not, bne_eq_false_iff_eq]
  omega

/-- The register of an operand that nothing needs any more. -/
theorem reusable?_spec (h : Sound m K (K.Needed r.position) n r s)
    (hv : Usable K (K.Needed r.position) v) :
    ∃ found, reusable? v .i64 r = .ok found r ∧ ∀ q, found = some q →
      r.values.handleAt v = .register q ∧ r.registers.InRange q ∧
        r.registers.owner? q = some v ∧ ¬ K.Later r.position v := by
  obtain ⟨c, hc, hd, hh⟩ := h.cell hv.1
  obtain ⟨-, hreg, -, -⟩ := h.source hv
  rw [hh] at hreg ⊢
  unfold reusable?
  rw [bind_of_ok (handleOf_eq hc)]
  cases hcase : c.handle with
  | register q =>
    obtain ⟨hlive, hrange, ho⟩ := hreg q hcase
    obtain ⟨b, hb, hb'⟩ := isExpiring_iff h hlive
    simp only []
    rw [bind_of_ok (owner?_eq q r), bind_of_ok hb]
    refine ⟨_, rfl, fun y hy => ?_⟩
    split at hy
    next hcond =>
      obtain rfl := Option.some.inj hy
      exact ⟨rfl, hrange, ho, hb'.mp hcond.2.2⟩
    next => simp at hy
  | _ => exact ⟨none, rfl, by simp⟩

/-- **A register for a result**: that of its first operand if nothing needs the operand any more,
or one that was not locked. -/
theorem reusableDestination_spec (h : Sound m K (K.Needed r.position) n r s) (hn : n + 1 < lockLimit)
    (hx : Fresh K r.position x) (hv : Usable K (K.Needed r.position) v) :
    Emits m (reusableDestination v x) r s fun d r' s' => Ready m K (n + 2) x d r' s' ∧
      Steady r s r' s' := by
  obtain ⟨c, hc, hd, -⟩ := h.cell hx.lt_size
  obtain ⟨found, hfound, hsome⟩ := reusable?_spec h hv
  unfold reusableDestination
  refine .step (formatOf_eq hc) ?_
  rw [hd.format]
  refine .step hfound ?_
  cases found with
  | some q =>
    obtain ⟨-, hrange, ho, hexp⟩ := hsome q rfl
    exact (takeOver_spec h hn hx hrange ho hexp).mono fun _ _ _ ⟨_, h1, _, h2⟩ => ⟨h1, h2⟩
  | none => exact (allocateResult_spec h hn hx).mono fun _ _ _ ⟨h1, _, _, h2⟩ => ⟨h1, h2⟩

theorem sourceAs_eq {c : Cell} (hc : r.values.cell? v = some c) (hf : c.format = .i64) :
    sourceAs v .i64 r = .ok c.handle r := by
  unfold sourceAs
  rw [bind_of_ok (formatOf_eq hc), hf]
  exact handleOf_eq hc

/-- **A register for a result that has the word of the first operand in it.** -/
theorem loadForWrite_spec (h : Sound m K (K.Needed r.position) n r s) (hn : n + 1 < lockLimit)
    (hx : Fresh K r.position x) (hv : Usable K (K.Needed r.position) v) :
    Emits m (loadForWrite v x) r s fun d r' s' => Ready m K (n + 2) x d r' s' ∧
      s'.registers d = K.word v ∧ ∀ w y, Readable r s w y → Readable r' s' w y := by
  obtain ⟨c, hc, hd, -⟩ := h.cell hx.lt_size
  obtain ⟨c', hc', hd', hh'⟩ := h.cell hv.1
  obtain ⟨hsrc, hreg, hslot, -⟩ := h.source hv
  rw [hh'] at hsrc hreg hslot
  -- a copy in a new register
  have copy : Emits m (do
      let source ← sourceAs v .i64
      let d ← allocateResult x
      transferToRegister d source .i64
      return d) r s fun d r' s' => Ready m K (n + 2) x d r' s' ∧
        s'.registers d = K.word v ∧ ∀ w y, Readable r s w y → Readable r' s' w y := by
    refine .step (sourceAs_eq hc' hd'.format) (.bind (allocateResult_spec h hn hx) ?_)
    rintro d r₁ s₁ ⟨hready, hl, hs, hst⟩
    have hsrc₁ := hsrc.steady hslot hs hst
    unfold transferToRegister
    refine .bind (transferInto_spec hsrc₁ (hst.slot hslot) hready.general _) ?_
    rintro - _ _ ⟨rfl, ops, rfl⟩
    exact .pure ⟨hready.write _ s₁.flags? ops, by simp,
      fun w y hy => hy.steady (hst.write hl _ s₁.flags? ops)⟩
  unfold loadForWrite
  refine .step (formatOf_eq hc) (.step (formatOf_eq hc') ?_)
  rw [hd.format, hd'.format]
  simp only [beq_self_eq_true, if_true]
  refine .step (handleOf_eq hc') ?_
  cases hcase : c'.handle with
  | register q =>
    obtain ⟨hlive, hrange, ho⟩ := hreg q hcase
    obtain ⟨b, hb, hb'⟩ := isExpiring_iff h hlive
    simp only []
    refine .step (owner?_eq q r) (.step hb ?_)
    simp only [ho, true_and]
    by_cases hb1 : b = true
    · simp only [hb1, if_true]
      refine (takeOver_spec h hn hx hrange ho (hb'.mp hb1)).mono ?_
      rintro d r₁ s₁ ⟨rfl, hready, rfl, hst⟩
      rw [hcase] at hsrc
      cases hsrc with
      | register hw => exact ⟨hready, hw, fun w y hy => hy.steady hst⟩
    · simp only [hb1]
      exact copy
  | _ => exact copy

end Codegen.Straight
