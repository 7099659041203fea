import Codegen.Proofs.Placement.Transfer

/-!
# Parallel moves

Assignments to homes that are apart from each other are made one by one: one whose destination
nothing else reads can go first. If there is none, all of them are cycles of registers, since each
destination is read and there are no more sources than destinations. Then two registers exchange
their words, or a word is kept in the scratch register, which nothing overwrites before it is read.
Each step makes an assignment or breaks a cycle, which sets one free, so that twice as many steps as
there are assignments are enough.

* `Target.IsHome`, `Assignment.Planned`: assignments that can be made as if at once;
* `Assignment.Made`: what it means to make them;
* `Assignment.Planned.stuck`: **where no assignment is free, sources and destinations are the same
  registers**;
* `Assignment.Planned.exchanged`, `Planned.redirected`: what is left when a cycle is broken;
* `Assignment.Made.free`, `Made.exchanged`, `Made.redirected`: one step, and the rest;
* `Generating.exchange_carried`, `breakCycle_carried`: how cycles are broken;
* `Generating.assignAll_carried`: **all assignments are made, as if at once**.
-/

namespace Codegen

/-- Where a value of a format can live: in a slot, or in a register of its class that is not used
for other purposes. -/
def Target.IsHome (t : Target) (f : Format) : Home → Prop
  | .register d => d.isMedia = f.isDecimal ∧ d ≠ t.stackPointer ∧ ¬ t.IsReserved d
  | .slot _ => True

namespace Assignment

open Machine

variable {t : Target} {pending rest before after : List Assignment} {a b c : Assignment}
variable {i : Nat} {d e x : Register} {p : Home} {m : Machine} {r : Routine} {s s₁ s' : State}

/-- **Assignments that can be made as if at once.** Only the scratch register may be a source
without being a home; as long as it is one, no transfer between slots gets in between. -/
structure Planned (t : Target) (pending : List Assignment) : Prop where
  home : ∀ a ∈ pending, ∃ p, a.destination.home? = some p ∧ t.IsHome a.format p
  source : ∀ a ∈ pending, a.source.IsSource a.format
  class_eq : ∀ a ∈ pending, ∀ d, a.source = .register d → d.isMedia = a.format.isDecimal
  distinct : (pending.map fun a => a.destination.home?).Nodup
  apart : ∀ a ∈ pending, ∀ b ∈ pending, a ≠ b → ∀ k, a.destination.home? = some (.slot k) →
    b.source.home? ≠ some (.slot k)
  scratch : ∀ a ∈ pending, ∀ d, a.source = .register d → t.IsReserved d →
    ∀ b ∈ pending, ∃ d, b.destination = .register d

/-- **The assignments were made**: each destination has the word that its source had, and of all
other homes only the scratch register may have another word. -/
def Made (t : Target) (pending : List Assignment) (m : Machine) (s s' : State) : Prop :=
  (∀ a ∈ pending, ∀ p, a.destination.home? = some p →
    s'.valueAt p = m.sourceWord s a.format a.source) ∧
  ∀ q, (∀ a ∈ pending, a.destination.home? ≠ some q) → (∀ d, q = .register d → ¬ t.IsReserved d) →
    s'.valueAt q = s.valueAt q

/-! ## The first free assignment -/

theorem isFree_iff : isFree pending i a = true ↔
    ∀ (j : Nat) b, pending[j]? = some b → j ≠ i → b.source ≠ a.destination := by
  simp only [isFree, List.all_eq_true, Prod.forall, List.mem_zipIdx_iff_getElem?, Bool.or_eq_true,
    beq_iff_eq, bne_iff_ne]
  exact ⟨fun h j b hb hj => (h b j hb).resolve_left hj,
    fun h b j hb => or_iff_not_imp_left.mpr fun hj => h j b hb hj⟩

theorem exists_of_firstFree? (h : firstFree? pending = some i) :
    ∃ before a after, pending = before ++ a :: after ∧ i = before.length ∧
      ∀ b ∈ before ++ after, b.source ≠ a.destination := by
  obtain ⟨hi, hfree, -⟩ := List.findIdx?_eq_some_iff_getElem.mp h
  rw [List.length_zipIdx] at hi
  rw [List.getElem_zipIdx, Nat.zero_add, isFree_iff] at hfree
  refine ⟨pending.take i, pending[i], pending.drop (i + 1), by simp, by simp; omega, ?_⟩
  intro b hb
  rcases List.mem_append.mp hb with hb | hb
  · obtain ⟨j, hj⟩ := List.mem_iff_getElem?.mp hb
    have hlt : j < i := by
      have := (List.getElem?_eq_some_iff.mp hj).1
      rw [List.length_take] at this
      omega
    rw [List.getElem?_take_of_lt hlt] at hj
    exact hfree j b hj (Nat.ne_of_lt hlt)
  · obtain ⟨j, hj⟩ := List.mem_iff_getElem?.mp hb
    rw [List.getElem?_drop] at hj
    exact hfree _ b hj (by omega)

theorem exists_reader (h : firstFree? pending = none) (hn : pending.Nodup) (ha : a ∈ pending) :
    ∃ b ∈ pending, b ≠ a ∧ b.source = a.destination := by
  obtain ⟨i, hi, rfl⟩ := List.mem_iff_getElem.mp ha
  have hbusy := List.findIdx?_eq_none_iff.mp h (pending[i], i)
    (List.mem_zipIdx_iff_getElem?.mpr (List.getElem?_eq_getElem hi))
  rw [← Bool.not_eq_true, isFree_iff] at hbusy
  push Not at hbusy
  obtain ⟨j, b, hb, hj, hread⟩ := hbusy
  obtain ⟨hlt, rfl⟩ := List.getElem?_eq_some_iff.mp hb
  exact ⟨_, List.getElem_mem hlt, fun he => hj ((hn.getElem_inj_iff).mp he), hread⟩

theorem firstFree?_ne_none (ha : a ∈ pending) (h : ∀ b ∈ pending, b.source ≠ a.destination) :
    firstFree? pending ≠ none := by
  intro hnone
  obtain ⟨i, hi, rfl⟩ := List.mem_iff_getElem.mp ha
  have hbusy := List.findIdx?_eq_none_iff.mp hnone (pending[i], i)
    (List.mem_zipIdx_iff_getElem?.mpr (List.getElem?_eq_getElem hi))
  rw [← Bool.not_eq_true, isFree_iff] at hbusy
  exact hbusy fun j b hb _ => h b (List.mem_of_getElem? hb)

/-! ## Plans -/

theorem Planned.nodup (h : Planned t pending) : pending.Nodup := h.distinct.of_map

theorem Planned.eq_of_home (h : Planned t pending) (ha : a ∈ pending) (hb : b ∈ pending)
    (he : a.destination.home? = b.destination.home?) : a = b :=
  List.inj_on_of_nodup_map h.distinct ha hb he

theorem Planned.isHome (h : Planned t pending) (ha : a ∈ pending)
    (hp : a.destination.home? = some p) : t.IsHome a.format p := by
  obtain ⟨q, hq, hhome⟩ := h.home a ha
  obtain rfl := Option.some.inj (hp.symm.trans hq)
  exact hhome

theorem Planned.sublist (h : Planned t pending) (hs : rest.Sublist pending) : Planned t rest where
  home a ha := h.home a (hs.subset ha)
  source a ha := h.source a (hs.subset ha)
  class_eq a ha := h.class_eq a (hs.subset ha)
  distinct := (hs.map _).nodup h.distinct
  apart a ha b hb := h.apart a (hs.subset ha) b (hs.subset hb)
  scratch a ha d hd hr b hb := h.scratch a (hs.subset ha) d hd hr b (hs.subset hb)

/-- **Where no assignment is free**, all destinations are registers, and the sources are the same
ones: each destination is a source, and there are no more sources than destinations. -/
theorem Planned.stuck (h : Planned t pending) (hfree : firstFree? pending = none) :
    (∀ a ∈ pending, ∃ d, a.destination = .register d) ∧
      ∀ a ∈ pending, ∃ b ∈ pending, b.destination = a.source := by
  constructor
  · intro a ha
    obtain ⟨b, hb, hne, hread⟩ := exists_reader hfree h.nodup ha
    obtain ⟨p, hp, -⟩ := h.home a ha
    cases p with
    | slot k => exact absurd (hread ▸ hp) (h.apart a ha b hb hne.symm k hp)
    | register d => exact ⟨d, Handle.home?_eq_register.mp hp⟩
  · have hdestinations : (pending.map (·.destination)).Nodup := by
      refine List.Nodup.of_map Handle.home? ?_
      rw [List.map_map]
      exact h.distinct
    have hsubset : pending.map (·.destination) ⊆ pending.map (·.source) := by
      intro g hg
      obtain ⟨a, ha, rfl⟩ := List.mem_map.mp hg
      obtain ⟨b, hb, -, hread⟩ := exists_reader hfree h.nodup ha
      exact List.mem_map.mpr ⟨b, hb, hread⟩
    have hperm := (List.subperm_of_subset hdestinations hsubset).perm_of_length_le (by simp)
    intro a ha
    exact List.mem_map.mp (hperm.mem_iff.mpr (List.mem_map_of_mem ha))

/-- Assignments between registers, reading other registers for the same destinations. -/
theorem Planned.renamed (h : Planned t pending)
    (hregisters : ∀ a ∈ pending, ∃ d, a.destination = .register d)
    (hsublist : (rest.map (·.destination)).Sublist (pending.map (·.destination)))
    (hrest : ∀ b ∈ rest, ∃ c ∈ pending, b.destination = c.destination ∧ b.format = c.format ∧
      ∃ d, b.source = .register d ∧ d.isMedia = c.format.isDecimal) : Planned t rest where
  home b hb := by
    obtain ⟨c, hc, hdestination, hformat, -⟩ := hrest b hb
    rw [hdestination, hformat]
    exact h.home c hc
  source b hb := by
    obtain ⟨c, -, -, -, d, hd, -⟩ := hrest b hb
    rw [hd]
    rfl
  class_eq b hb d hd := by
    obtain ⟨c, -, -, hformat, e, he, hclass⟩ := hrest b hb
    obtain rfl : e = d := Handle.register.inj (he.symm.trans hd)
    rw [hformat, hclass]
  distinct := by
    have hmap := hsublist.map Handle.home?
    rw [List.map_map, List.map_map] at hmap
    exact hmap.nodup h.distinct
  apart b hb _ _ _ k hk := by
    obtain ⟨c, hc, hdestination, -⟩ := hrest b hb
    obtain ⟨d, hd⟩ := hregisters c hc
    rw [hdestination, hd] at hk
    cases hk
  scratch _ _ _ _ _ b hb := by
    obtain ⟨c, hc, hdestination, -⟩ := hrest b hb
    rw [hdestination]
    exact hregisters c hc

/-! ## A free assignment -/

theorem mem_middle : b ∈ before ++ a :: after ↔ b = a ∨ b ∈ before ++ after :=
  List.perm_middle.mem_iff.trans List.mem_cons

/-- A free assignment is made, then the others. -/
theorem Made.free (hP : Planned t (before ++ a :: after))
    (hfree : ∀ b ∈ before ++ after, b.source ≠ a.destination) (hs : m.Serves r s)
    (hk : Kept m s s₁) (hp : a.destination.home? = some p)
    (hw : Writes p (t.Spoils a.format p) (fun m s => m.sourceWord s a.format a.source) m s s₁)
    (h : Made t (before ++ after) m s₁ s') : Made t (before ++ a :: after) m s s' := by
  have ha : a ∈ before ++ a :: after := mem_middle.mpr (.inl rfl)
  have hrest {b : Assignment} (hb : b ∈ before ++ after) : b ∈ before ++ a :: after ∧ b ≠ a := by
    have hnodup := (List.perm_middle.nodup_iff.mp hP.nodup)
    exact ⟨mem_middle.mpr (.inr hb), fun he => (List.nodup_cons.mp hnodup).1 (he ▸ hb)⟩
  constructor
  · intro b hb q hq
    rcases mem_middle.mp hb with rfl | hb
    · obtain rfl := Option.some.inj (hp.symm.trans hq)
      have hhome := hP.isHome ha hp
      refine (h.2 p (fun c hc he => ?_) fun d hd hr => ?_).trans hw.1
      · exact (hrest hc).2 (hP.eq_of_home (hrest hc).1 ha (he.trans hp.symm))
      · subst hd
        exact hhome.2.2 hr
    · rw [h.1 b hb q hq]
      refine sourceWord_eq hs hk fun p' hp' => hw.2 p' ?_ ?_
      · -- nothing else reads the destination
        rintro rfl
        cases p' with
        | register d =>
          exact hfree b hb ((Handle.home?_eq_register.mp hp').trans
            (Handle.home?_eq_register.mp hp).symm)
        | slot k => exact hP.apart a ha b (hrest hb).1 (hrest hb).2.symm k hp hp'
      · -- the scratch register is not a source while a slot is a destination
        rintro ⟨k, x, rfl, rfl, hx⟩
        obtain ⟨d, hd⟩ := hP.scratch b (hrest hb).1 x (Handle.home?_eq_register.mp hp')
          ⟨_, hx⟩ a ha
        rw [hd] at hp
        cases hp
  · intro q hq hr
    rw [h.2 q (fun b hb => hq b (hrest hb).1) hr]
    refine hw.2 q (fun he => hq a ha (he ▸ hp)) ?_
    rintro ⟨k, x, -, rfl, hx⟩
    exact hr x rfl ⟨_, hx⟩

/-! ## Cycles of registers -/

theorem mem_afterExchange {x y : Handle} : b ∈ afterExchange x y rest ↔
    ∃ c ∈ rest, b = { c with source := Equiv.swap x y c.source } ∧ b.destination ≠ b.source := by
  have hswap (c : Assignment) : (if c.source = x then { c with source := y }
      else if c.source = y then { c with source := x } else c) =
        { c with source := Equiv.swap x y c.source } := by
    rw [Equiv.swap_apply_def]
    split
    · rfl
    · split <;> rfl
  simp only [afterExchange, List.mem_filter, List.mem_map, hswap, bne_iff_ne]
  constructor
  · rintro ⟨⟨c, hc, rfl⟩, hne⟩
    exact ⟨c, hc, rfl, hne⟩
  · rintro ⟨c, hc, rfl, hne⟩
    exact ⟨⟨c, hc, rfl⟩, hne⟩

theorem map_destination {f : Assignment → Assignment}
    (hf : ∀ a, (f a).destination = a.destination) (pending : List Assignment) :
    (pending.map f).map (·.destination) = pending.map (·.destination) := by
  rw [List.map_map]
  exact List.map_congr_left fun a _ => hf a

theorem redirect_destinations (x y : Handle) (pending : List Assignment) :
    (redirect x y pending).map (·.destination) = pending.map (·.destination) :=
  map_destination (fun a => by split <;> rfl) pending

theorem afterExchange_sublist (x y : Handle) (rest : List Assignment) :
    ((afterExchange x y rest).map (·.destination)).Sublist (rest.map (·.destination)) := by
  refine (List.filter_sublist.map _).trans ?_
  rw [map_destination fun a => ?_]
  split
  · rfl
  · split <;> rfl

theorem swap_register (d e q : Register) :
    Equiv.swap (Handle.register d) (.register e) (.register q) =
      .register (Equiv.swap d e q) := by
  simp only [Equiv.swap_apply_def, Handle.register.injEq]
  split
  · rfl
  · split <;> rfl

theorem swap_home (d e q : Register) :
    Equiv.swap (Home.register d) (.register e) (.register q) = .register (Equiv.swap d e q) := by
  simp only [Equiv.swap_apply_def, Home.register.injEq]
  split
  · rfl
  · split <;> rfl

section Stuck

variable (hP : Planned t pending) (hfree : firstFree? pending = none)
include hP hfree

theorem Planned.exists_register (hb : b ∈ pending) :
    ∃ q, b.source = .register q ∧ q.isMedia = b.format.isDecimal ∧ q ≠ t.stackPointer ∧
      ¬ t.IsReserved q ∧ ∃ c ∈ pending, c.destination = .register q := by
  obtain ⟨hregisters, hsources⟩ := hP.stuck hfree
  obtain ⟨c, hc, hread⟩ := hsources b hb
  obtain ⟨q, hq⟩ := hregisters c hc
  have hhome : t.IsHome c.format (.register q) := hP.isHome hc (by rw [hq]; rfl)
  exact ⟨q, hread.symm.trans hq, hP.class_eq b hb q (hread.symm.trans hq), hhome.2.1, hhome.2.2, c,
    hc, hq⟩

theorem Planned.exchanged (ha : pending = a :: rest) (hd : a.destination = .register d)
    (he : a.source = .register e) :
    Planned t (afterExchange a.destination a.source rest) := by
  subst ha
  have hfirst : a ∈ a :: rest := List.mem_cons_self
  have hhome : t.IsHome a.format (.register d) := hP.isHome hfirst (by rw [hd]; rfl)
  have hdmedia : d.isMedia = a.format.isDecimal := hhome.1
  have hemedia := hP.class_eq a hfirst e he
  refine hP.renamed (hP.stuck hfree).1
    ((afterExchange_sublist ..).trans ((List.sublist_cons_self _ _).map _)) fun b hb => ?_
  obtain ⟨c, hc, rfl, -⟩ := mem_afterExchange.mp hb
  refine ⟨c, List.mem_cons_of_mem _ hc, rfl, rfl, ?_⟩
  obtain ⟨q, hq, hclass, -⟩ := hP.exists_register hfree (List.mem_cons_of_mem _ hc)
  refine ⟨Equiv.swap d e q, by rw [hd, he, hq, swap_register], ?_⟩
  -- both registers are of one class
  rw [← hclass, Equiv.swap_apply_def]
  split
  next hqd => rw [hqd, hemedia, hdmedia]
  next =>
    split
    next hqe => rw [hqe, hemedia, hdmedia]
    next => rfl

/-- With a word in the scratch register, the assignments can be made as if at once, and nothing
reads the destination that the word was in. -/
theorem Planned.redirected (ha : a ∈ pending) (hd : a.destination = .register d)
    (hx : t.IsReserved x) (hmedia : x.isMedia = a.format.isDecimal) :
    Planned t (redirect (.register d) (.register x) pending) ∧
      firstFree? (redirect (.register d) (.register x) pending) ≠ none := by
  have hhome : t.IsHome a.format (.register d) := hP.isHome ha (by rw [hd]; rfl)
  constructor
  · refine hP.renamed (hP.stuck hfree).1 (by rw [redirect_destinations]) fun b hb => ?_
    obtain ⟨c, hc, rfl⟩ := List.mem_map.mp hb
    obtain ⟨q, hq, hclass, -⟩ := hP.exists_register hfree hc
    split
    next hcd =>
      obtain rfl : q = d := Handle.register.inj (hq.symm.trans hcd)
      exact ⟨c, hc, rfl, rfl, x, rfl, by rw [hmedia, ← hhome.1, hclass]⟩
    next => exact ⟨c, hc, rfl, rfl, q, hq, hclass⟩
  · refine firstFree?_ne_none (List.mem_map_of_mem ha) fun b hb => ?_
    obtain ⟨c, hc, rfl⟩ := List.mem_map.mp hb
    have hdest : (if a.source = .register d then { a with source := .register x }
        else a).destination = .register d := by
      split <;> exact hd
    rw [hdest]
    split
    next =>
      rintro ⟨⟩
      exact hhome.2.2 hx
    next hcd => exact hcd

/-- Two registers exchange their words, then the others are assigned. -/
theorem Made.exchanged (ha : pending = a :: rest) (hd : a.destination = .register d)
    (he : a.source = .register e)
    (hs : ∀ q, s₁.valueAt q = s.valueAt (Equiv.swap (.register d) (.register e) q))
    (h : Made t (afterExchange a.destination a.source rest) m s₁ s') : Made t pending m s s' := by
  subst ha
  rw [hd, he] at h
  have hfirst : a ∈ a :: rest := List.mem_cons_self
  -- what an assignment reads after the exchange is what it was to read
  have hread {b : Assignment} (hb : b ∈ a :: rest) (q : Home)
      (hq : (Equiv.swap (.register d) (.register e) b.source).home? = some q) :
      s₁.valueAt q = m.sourceWord s b.format b.source := by
    obtain ⟨x, hx, -⟩ := hP.exists_register hfree hb
    rw [hx, swap_register] at hq
    obtain rfl := Option.some.inj hq
    rw [hs, swap_home, Equiv.swap_apply_self, hx]
    rfl
  have hnot {b : Assignment} (hb : b ∈ a :: rest) {p : Home} (hp : b.destination.home? = some p)
      (hdone : ∀ c ∈ rest, c = b → b.destination =
        Equiv.swap (.register d) (.register e) b.source) : s'.valueAt p = s₁.valueAt p := by
    have hhome := hP.isHome hb hp
    refine h.2 p (fun c hc hcp => ?_) fun x hx hr => ?_
    · obtain ⟨b', hb', rfl, hne⟩ := mem_afterExchange.mp hc
      obtain rfl := hP.eq_of_home (List.mem_cons_of_mem _ hb') hb (hcp.trans hp.symm)
      exact hne (hdone b' hb' rfl)
    · subst hx
      exact hhome.2.2 hr
  constructor
  · intro b hb p hp
    by_cases hdone : ∀ c ∈ rest, c = b → b.destination =
        Equiv.swap (.register d) (.register e) b.source
    · rw [hnot hb hp hdone]
      rcases List.mem_cons.mp hb with rfl | hrest
      · refine hread hb p ?_
        rw [he, Equiv.swap_apply_right, ← hd, hp]
      · exact hread hb p (hdone b hrest rfl ▸ hp)
    · push Not at hdone
      obtain ⟨c, hc, rfl, hne⟩ := hdone
      rw [h.1 _ (mem_afterExchange.mpr ⟨c, hc, rfl, hne⟩) p hp]
      obtain ⟨x, hx, -⟩ := hP.exists_register hfree hb
      rw [← hread hb (.register (Equiv.swap d e x)) (by rw [hx, swap_register]; rfl)]
      rw [hx, swap_register]
      rfl
  · intro q hq hr
    have hout {x : Register} (hx : ∃ c ∈ a :: rest, c.destination = .register x) :
        q ≠ .register x := by
      rintro rfl
      obtain ⟨c, hc, hcx⟩ := hx
      exact hq c hc (by rw [hcx]; rfl)
    obtain ⟨x, hx, -, -, -, hdest⟩ := hP.exists_register hfree hfirst
    obtain rfl : e = x := Handle.register.inj (he.symm.trans hx)
    rw [h.2 q (fun c hc => ?_) hr, hs,
      Equiv.swap_apply_of_ne_of_ne (hout ⟨a, hfirst, hd⟩) (hout hdest)]
    obtain ⟨b, hb, rfl, -⟩ := mem_afterExchange.mp hc
    exact hq b (List.mem_cons_of_mem _ hb)

theorem Made.redirected (hx : t.IsReserved x)
    (hs : s₁.valueAt (.register x) = s.registers d ∧
      ∀ q, q ≠ .register x → s₁.valueAt q = s.valueAt q)
    (h : Made t (redirect (.register d) (.register x) pending) m s₁ s') :
    Made t pending m s s' := by
  constructor
  · intro b hb p hp
    obtain ⟨q, hq, -, -, hr, -⟩ := hP.exists_register hfree hb
    have hmem : (if b.source = .register d then { b with source := .register x } else b) ∈
        redirect (.register d) (.register x) pending := List.mem_map_of_mem hb
    split at hmem
    next he =>
      rw [h.1 _ hmem p hp, he]
      exact hs.1
    next he =>
      rw [h.1 _ hmem p hp, hq]
      exact hs.2 (.register q) fun heq => hr (Home.register.inj heq ▸ hx)
  · intro q hq hr
    rw [h.2 q (fun c hc => ?_) hr]
    · exact hs.2 q fun heq => hr x heq hx
    · obtain ⟨b, hb, rfl⟩ := List.mem_map.mp hc
      split
      next => exact hq b hb
      next => exact hq b hb

end Stuck

end Assignment

namespace Generating

open Machine Assignment

variable {t : Target} {pending rest : List Assignment} {a : Assignment} {d e x : Register}
variable {r r' : Routine}

/-! ## Cycles -/

/-- Two registers exchange their words. -/
theorem exchange_carried (hx : r.isX64 = true) (hd : d ≠ r.target.stackPointer)
    (he : e ≠ r.target.stackPointer) :
    Runs (emit .exchange [.register d, .register e]) r fun _ r' =>
      Carried r r' fun _ s t => ∀ q,
        t.valueAt q = s.valueAt (Equiv.swap (.register d) (.register e) q) := by
  refine emit_carried fun m s hs => ?_
  have hx' : m.architecture.isX64 = true := (isX64_of_serves hs).trans hx
  have hsp : m.architecture.target.stackPointer = r.target.stackPointer := by
    rw [hs.architecture]
    rfl
  refine ⟨(s.set d (s.registers e)).set e (s.registers d), by simp [perform, exchange, hx'],
    (kept_set (hsp ▸ hd)).trans (kept_set (hsp ▸ he)), fun q => ?_⟩
  simp only [valueAt_set, Equiv.swap_apply_def]
  by_cases hqe : q = .register e
  · subst hqe
    by_cases hde : e = d
    · simp [hde, State.valueAt]
    · simp [hde, State.valueAt]
  · by_cases hqd : q = .register d
    · simp [hqd, State.valueAt]
      intro h
      simp [h]
    · simp [hqd, hqe]

theorem length_afterExchange_le (x y : Handle) (rest : List Assignment) :
    (afterExchange x y rest).length ≤ rest.length := by
  simpa using (afterExchange_sublist x y rest).length_le

/-- What breaking a cycle leaves to do: fewer assignments, or as many with a free one. -/
def Shortened (pending next : List Assignment) : Prop :=
  next.length < pending.length ∨ next.length = pending.length ∧ firstFree? next ≠ none

/-- **A cycle is broken**, and what is left can be made as if at once. -/
theorem breakCycle_carried (hP : Planned r.target (a :: rest))
    (hfree : firstFree? (a :: rest) = none) :
    Runs (breakCycle a rest) r fun next r₁ =>
      Planned r.target next ∧ Shortened (a :: rest) next ∧
        ∃ R, Carried r r₁ R ∧ ∀ m s s₁ s', R m s s₁ → Made r.target next m s₁ s' →
          Made r.target (a :: rest) m s s' := by
  have ha : a ∈ a :: rest := List.mem_cons_self
  obtain ⟨d, hd⟩ := (hP.stuck hfree).1 a ha
  obtain ⟨e, he, -, hesp, -⟩ := hP.exists_register hfree ha
  have hhome : r.target.IsHome a.format (.register d) := hP.isHome ha (by rw [hd]; rfl)
  refine .step (a := r) rfl ?_
  split
  next hx =>
    -- the two registers exchange their words
    have hx64 : r.isX64 = true := by
      rw [isExchangeable, Bool.and_eq_true, Bool.and_eq_true] at hx
      exact hx.1.1
    rw [hd, he]
    refine .step (a := .register d) rfl (.step (a := .register e) rfl ?_)
    refine .bind (exchange_carried hx64 hhome.2.1 hesp) fun _ r₁ h₁ => .pure
      ⟨hd ▸ he ▸ hP.exchanged hfree rfl hd he, .inl ?_, _, h₁, ?_⟩
    · exact Nat.lt_succ_of_le (length_afterExchange_le ..)
    · exact fun m s s₁ s' hs hmade => .exchanged hP hfree rfl hd he hs (by rwa [hd, he])
  next hx =>
    -- the word of the destination is kept in the scratch register
    have hwords : (r.architecture.isX64 && !a.format.isDecimal) = false := by
      rw [isExchangeable, hd] at hx
      simpa [Routine.isX64, Handle.register?] using hx
    obtain ⟨x, hscratch, hmedia, hsp⟩ := Architecture.exists_scratch hwords
    have heq : reservedScratch a.format .memoryCycle r = .ok x r := by
      change (required _ (r.target.scratchFor? a.format)) r = _
      rw [show r.target.scratchFor? a.format = some x from hscratch]
      rfl
    have hreserved : r.target.IsReserved x := ⟨_, hscratch⟩
    obtain ⟨hplanned, hfirst⟩ := hP.redirected hfree ha hd hreserved hmedia
    rw [hd]
    refine .step heq (.bind (transfer_carried (p := .register x) (h := .register d) rfl ?_ rfl)
      fun _ r₁ h₁ => .pure ⟨hplanned, .inr ⟨List.length_map .., hfirst⟩, _, h₁, ?_⟩)
    · rintro _ ⟨⟩
      exact ⟨hmedia, hsp⟩
    · intro m s s₁ s' hs hmade
      refine .redirected hP hfree hreserved ⟨hs.1, fun q hq => hs.2 q hq ?_⟩ hmade
      rintro ⟨k, y, hk, -⟩
      cases hk

/-! ## The loop -/

/-- **All assignments are made, as if at once.** -/
theorem assignAll_carried {fuel : Nat} (hP : Planned r.target pending)
    (hfuel : 2 * pending.length ≤ fuel ∨
      2 * pending.length ≤ fuel + 1 ∧ firstFree? pending ≠ none) :
    Runs (assignAll fuel pending) r fun _ r' => Carried r r' (Made r.target pending) := by
  induction fuel generalizing pending r with
  | zero =>
    cases pending with
    | nil =>
      exact .of_eq rfl ((Carried.refl r).mono fun m s t _ _ ht =>
        ⟨by simp, fun q _ _ => ht ▸ rfl⟩)
    | cons a rest =>
      rw [List.length_cons] at hfuel
      omega
  | succ fuel ih =>
    cases pending with
    | nil =>
      exact .of_eq rfl ((Carried.refl r).mono fun m s t _ _ ht =>
        ⟨by simp, fun q _ _ => ht ▸ rfl⟩)
    | cons a rest =>
      rw [assignAll]
      cases hfree : firstFree? (a :: rest) with
      | some i =>
        obtain ⟨before, b, after, heq, rfl, hread⟩ := exists_of_firstFree? hfree
        have hget : (a :: rest)[before.length]? = some b := by simp [heq]
        have herase : (a :: rest).eraseIdx before.length = before ++ after := by
          simp [heq, List.eraseIdx_append_of_length_le]
        have hb : b ∈ a :: rest := List.mem_of_getElem? hget
        obtain ⟨p, hp, hhome⟩ := hP.home b hb
        simp only [hget, herase]
        refine .bind (transfer_carried hp ?_ (hP.source b hb)) fun _ r₁ h₁ => ?_
        · rintro d rfl
          exact ⟨hhome.1, hhome.2.1⟩
        have hlength : (a :: rest).length = (before ++ after).length + 1 := by
          simp [heq]
          omega
        rw [heq] at hP ⊢
        refine .mono (ih (h₁.target ▸ hP.sublist ?_) (.inl (by omega))) fun _ r₂ h₂ => ?_
        · exact (List.sublist_cons_self b after).append_left before
        refine (h₁.trans h₂).mono fun m s s' _ _ => ?_
        rintro ⟨s₁, ⟨hs, hk⟩, hw, hmade⟩
        exact .free hP hread hs hk hp hw (h₁.target ▸ hmade)
      | none =>
        dsimp only
        refine .bind (breakCycle_carried hP hfree) fun next r₁ => ?_
        rintro ⟨hnext, hshort, R, h₁, hmade⟩
        refine .mono (ih (h₁.target ▸ hnext) ?_) fun _ r₂ h₂ => ?_
        · rcases hfuel with hfuel | ⟨-, hne⟩
          · rcases hshort with hshort | ⟨hlength, hne⟩
            · exact .inl (by omega)
            · exact .inr ⟨by omega, hne⟩
          · exact absurd hfree hne
        refine (h₁.trans h₂).mono fun m s s' _ _ => ?_
        rintro ⟨s₁, -, hR, hrest⟩
        exact hmade m s s₁ s' hR (h₁.target ▸ hrest)

end Generating

end Codegen
