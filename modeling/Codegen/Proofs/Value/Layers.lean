import Codegen.Proofs.Generating
import Codegen.Proofs.Value.Systems

/-!
# Addresses refer to older values

An address is computed from values that are older than it. A join keeps it so: the fresh value gets
the place of one that is older, and the other members of that system have this place already. Hence
what an address reaches is found in finitely many steps, and a use reaches all of it.

* `Arena.Refers`, `Reaches`: **the values that an address is computed from**, directly or not;
* `Arena.handleAt_create`, `handleAt_setHandle`, ...: where values are behind a change;
* `Arena.Marked`: changes of lifetimes and metadata;
* `Arena.Layered`: **systems have one place each, and addresses refer to older values**;
* `Layered.exists_useAt`: a use comes to an end and covers its position in all that is reached;
* `Layered.create`, `Layered.exists_join`: new values.
-/

namespace Codegen

theorem Handle.length_inner_le (h : Handle) : h.inner.length ≤ 2 := by
  cases h with
  | expression multiplicand multiplier addition constant => cases addition <;> simp [inner]
  | _ => simp [inner]

namespace Arena

/-! ## What an address is computed from -/

/-- The place of the value is an address that is computed from the other value. -/
def Refers (a : Arena) (v w : ValueId) : Prop := w ∈ (a.handleAt v).inner

/-- **The place of the value is computed from the other value**, or it is the same value. -/
def Reaches (a : Arena) : ValueId → ValueId → Prop := Relation.ReflTransGen a.Refers

variable {a b : Arena} {u v w x : ValueId} {vs : List ValueId} {f : Cell → Cell} {p : Int}
  {n fuel : Nat}

theorem Reaches.mono (h : b.Reaches v w) (hab : ∀ u x, b.Refers u x → a.Refers u x) :
    a.Reaches v w :=
  Relation.ReflTransGen.mono hab _ _ h

theorem exists_update (hv : v < a.size) (f : Cell → Cell) : ∃ b, a.update v f = .ok b :=
  ⟨_, if_pos hv⟩

/-! ## Places behind changes -/

theorem handleAt_update (h : a.update v f = .ok b) (hf : ∀ c, (f c).handle = c.handle)
    (w : ValueId) : b.handleAt w = a.handleAt w := by
  obtain ⟨-, rfl⟩ := update_eq_ok.mp h
  rw [handleAt, cell?_modify, handleAt]
  cases a.cell? w with
  | none => rfl
  | some c =>
    simp only [Option.map_some, Option.getD_some]
    split
    · exact hf c
    · rfl

theorem handleAt_updateAll (h : a.updateAll vs f = .ok b) (hf : ∀ c, (f c).handle = c.handle) :
    ∀ w, b.handleAt w = a.handleAt w :=
  foldlM_keeps (fun b => ∀ w, b.handleAt w = a.handleAt w)
    (fun _ _ _ _ hb hc w => (handleAt_update hc hf w).trans (hb w)) (fun _ => rfl) h

theorem handleAt_connectAll {ws : List ValueId} {send receive : Bool}
    (h : a.connectAll vs ws send receive = .ok b) : ∀ w, b.handleAt w = a.handleAt w := by
  rw [connectAll_eq] at h
  refine foldlM_keeps (fun b => ∀ w, b.handleAt w = a.handleAt w) ?_ (fun _ => rfl) h
  intro b c l _ hb hc w
  rw [connect_eq] at hc
  rw [handleAt_update hc (fun _ => rfl), hb]

theorem handleAt_create (h : Handle) (k : Format) (v : ValueId) :
    (a.create h k).2.handleAt v = if v = a.size then h else a.handleAt v := by
  have hcell : (a.create h k).2.cell? v = if v = a.size then _ else a.cell? v :=
    Array.getElem?_push
  rw [handleAt, hcell]
  split <;> rfl

theorem handleAt_setHandle {h : Handle} {force : Bool} (hb : a.setHandle v h force = .ok b)
    (w : ValueId) : b.handleAt w = h ∨ b.handleAt w = a.handleAt w := by
  refine foldlM_keeps (fun b => b.handleAt w = h ∨ b.handleAt w = a.handleAt w) ?_ (.inr rfl) hb
  rintro b c u - hb hc
  obtain ⟨hu, rfl⟩ := update_eq_ok.mp hc
  change (b.withHandle u h).handleAt w = h ∨ (b.withHandle u h).handleAt w = _
  rw [handleAt_withHandle hu]
  split
  · exact .inl rfl
  · exact hb

theorem Systems.handleAt_setHandle {R : ValueId → ValueId → Prop} (hR : a.Systems R) {h : Handle}
    {force : Bool} (hv : v < a.size) (hb : a.setHandle v h force = .ok b) (w : ValueId) :
    b.handleAt w = if w ∈ a.audience v force then h else a.handleAt w := by
  obtain ⟨b', hb', hcells⟩ := hR.exists_updateAll hv force fun c => { c with handle := h }
  obtain rfl : b' = b := Except.ok.inj (hb'.symm.trans hb)
  rw [handleAt, hcells]
  by_cases hw : w ∈ a.audience v force
  · have hlt : w < a.cells.size := hR.lt_size_of_mem_audience hv hw
    have hcell : a.cell? w = some a.cells[w] := Array.getElem?_eq_getElem hlt
    simp [hw, hcell]
  · simp [hw, handleAt]

theorem getElem?_handles (a : Arena) (v : ValueId) :
    a.handles[v]? = (a.cell? v).map Cell.handle := by
  rw [handles, Array.getElem?_map]
  rfl

theorem cell?_restoreHandles (hs : Array Handle) (keep : ValueId → Bool) (v : ValueId) :
    (a.restoreHandles hs keep).cell? v = (a.cell? v).map fun c =>
      match hs[v]? with
      | some h => if keep v then c else { c with handle := h }
      | none => c :=
  Array.getElem?_mapIdx

theorem handleAt_restoreHandles (hs : Array Handle) (v : ValueId) :
    (a.restoreHandles hs fun _ => false).handleAt v = a.handleAt v ∨
      hs[v]? = some ((a.restoreHandles hs fun _ => false).handleAt v) := by
  rw [handleAt, cell?_restoreHandles, handleAt]
  cases a.cell? v with
  | none => exact .inl rfl
  | some c => cases hs[v]? <;> simp

/-! ## Changes of lifetimes and metadata -/

/-- **Lifetimes grow, and places and edges stay.** -/
structure Marked (a b : Arena) : Prop where
  grows : a.Grows b
  size : b.size = a.size
  edges : a.SameEdges b
  handles : ∀ v, b.handleAt v = a.handleAt v

namespace Marked

variable {c : Arena}

theorem refl (h : a.IsSet) : a.Marked a := ⟨.refl h, rfl, .refl a, fun _ => rfl⟩

theorem trans (h : a.Marked b) (h' : b.Marked c) : a.Marked c :=
  ⟨h.grows.trans h'.grows, h'.size.trans h.size, h.edges.trans h'.edges,
    fun v => (h'.handles v).trans (h.handles v)⟩

theorem reaches (h : a.Marked b) : b.Reaches v w ↔ a.Reaches v w := by
  have heq : b.Refers = a.Refers := by
    funext u x
    rw [Refers, Refers, h.handles]
  rw [Reaches, Reaches, heq]

end Marked

theorem update_marked (hs : a.IsSet) (h : a.update v f = .ok b)
    (he : ∀ c, (f c).edges = c.edges) (hh : ∀ c, (f c).handle = c.handle)
    (hl : ∀ c : Cell, c.lifetime.IsSet → c.lifetime.Grows (f c).lifetime) : a.Marked b := by
  obtain ⟨hg, hn⟩ := update_grows hs h hl
  exact ⟨hg, hn, update_sameEdges h he, handleAt_update h hh⟩

theorem updateAll_marked (hs : a.IsSet) (h : a.updateAll vs f = .ok b)
    (he : ∀ c, (f c).edges = c.edges) (hh : ∀ c, (f c).handle = c.handle)
    (hl : ∀ c : Cell, c.lifetime.IsSet → c.lifetime.Grows (f c).lifetime) : a.Marked b :=
  foldlM_keeps a.Marked (fun _ _ _ _ hb hc => hb.trans (update_marked hb.grows.isSet hc he hh hl))
    (.refl hs) h

theorem setMetadata_marked (hs : a.IsSet) {m : Metadata} {force : Bool}
    (h : a.setMetadata v m force = .ok b) : a.Marked b :=
  updateAll_marked hs h (fun _ => rfl) (fun _ => rfl) fun _ hc => .refl hc

theorem setInstruction_marked (hs : a.IsSet) {i : Nat} (h : a.setInstruction v i = .ok b) :
    a.Marked b :=
  update_marked hs h (fun _ => rfl) (fun _ => rfl) fun _ hc => .refl hc

theorem useAll_marked (hs : a.IsSet) (hp : 0 ≤ p) (h : useAll p fuel vs a = .ok b) :
    a.Marked b := by
  obtain ⟨⟨hg, hn⟩, -⟩ := useAll_grows hp hs h
  refine ⟨hg, hn, ?_, ?_⟩
  · exact useAll_keeps (P := a.SameEdges)
      (fun _ _ _ _ hb hc => hb.trans (update_sameEdges hc fun _ => rfl)) (.refl a) h
  · exact useAll_keeps (P := fun b => ∀ w, b.handleAt w = a.handleAt w)
      (fun _ _ _ _ hb hc w => (handleAt_update hc (fun _ => rfl) w).trans (hb w)) (fun _ => rfl) h

/-- **A use covers its position in all that the values reach.** -/
theorem useAll_covers (hs : a.IsSet) (hp : 0 ≤ p) (h : useAll p fuel vs a = .ok b) (hv : v ∈ vs)
    (hw : a.Reaches v w) : b.Covers w p := by
  induction fuel generalizing vs v a b with
  | zero => simp [useAll] at h
  | succ fuel ih =>
    cases vs with
    | nil => simp at hv
    | cons u rest =>
      have hfirst := (useAll_grows hp hs h).2 u List.mem_cons_self
      simp only [useAll, bind_eq_ok, cell_eq_ok] at h
      obtain ⟨a₁, h₁, c₁, hc₁, a₂, h₂, c₂, hc₂, a₃, h₃, h₄⟩ := h
      have m₁ := update_marked hs h₁ (fun _ => rfl) (fun _ => rfl) fun c hc =>
        Lifetime.extend_grows hc hp
      have m₂ := useAll_marked m₁.grows.isSet hp h₂
      have m₃ := updateAll_marked m₂.grows.isSet h₃ (fun _ => rfl) (fun _ => rfl) fun c hc =>
        Lifetime.union_grows hc (m₂.grows.isSet u c₂ hc₂)
      have m₄ := useAll_marked m₃.grows.isSet hp h₄
      rcases List.mem_cons.mp hv with rfl | hv
      · -- what the first value reaches beyond itself, its place refers to
        rcases Relation.ReflTransGen.cases_head hw with rfl | ⟨x, hx, hw⟩
        · exact hfirst
        · rw [Refers, ← m₁.handles, handleAt_eq hc₁] at hx
          exact (m₃.trans m₄).grows.covers w p
            (ih m₁.grows.isSet h₂ hx (m₁.reaches.mpr hw))
      · exact ih m₃.grows.isSet h₄ hv ((m₁.trans (m₂.trans m₃)).reaches.mpr hw)

/-! ## Layers -/

/-- **The members of a system are at one place, and addresses refer to older values.** -/
structure Layered (a : Arena) : Prop where
  systems : ∃ R, a.Systems R
  alike : ∀ {v w}, w ∈ a.neighbours v → a.handleAt w = a.handleAt v
  older : ∀ {v w}, a.Refers v w → w < v

namespace Layered

theorem empty : empty.Layered where
  systems := ⟨_, Systems.empty⟩
  alike {v w} h := by simp [neighbours, cell?, Arena.empty] at h
  older {v w} h := by simp [Refers, handleAt, cell?, Arena.empty, Handle.inner] at h

theorem congr (ha : a.Layered) (hs : a.SameEdges b) (hh : ∀ v, b.handleAt v = a.handleAt v) :
    b.Layered where
  systems := ha.systems.imp fun _ h => h.congr hs
  alike h := by rw [hh, hh, ha.alike (hs.neighbours _ ▸ h)]
  older h := ha.older (by rwa [Refers, ← hh])

theorem marked (ha : a.Layered) (h : a.Marked b) : b.Layered := ha.congr h.edges h.handles

theorem reaches_le (ha : a.Layered) (h : a.Reaches v w) : w ≤ v := by
  induction h with
  | refl => exact Nat.le_refl v
  | tail _ hx ih => exact Nat.le_trans (Nat.le_of_lt (ha.older hx)) ih

theorem reaches_of_handles (ha : a.Layered) (hb : ∀ u < n, b.handleAt u = a.handleAt u) (hv : v < n)
    (h : b.Reaches v w) : a.Reaches v w := by
  induction h with
  | refl => exact .refl
  | @tail u x _ hx ih =>
    have hu : u < n := Nat.lt_of_le_of_lt (ha.reaches_le ih) hv
    exact ih.tail (by rwa [Refers, ← hb u hu])

/-! ## Uses -/

/-- **Uses come to an end**, since each step leads to older values. -/
theorem exists_useAll (ha : a.Layered) (hs : a.IsSet) (hp : 0 ≤ p) (hv : ∀ v ∈ vs, v < n)
    (hn : n ≤ a.size) (hf : 2 * n + vs.length < fuel) : ∃ b, useAll p fuel vs a = .ok b := by
  induction fuel generalizing a vs n with
  | zero => omega
  | succ fuel ih =>
    cases vs with
    | nil => exact ⟨a, rfl⟩
    | cons v rest =>
      obtain ⟨hvn, hrest⟩ := List.forall_mem_cons.mp hv
      rw [List.length_cons] at hf
      have cell {a' : Arena} (h : a.Marked a') : ∃ c, a'.cell? v = some c :=
        ⟨_, Array.getElem?_eq_getElem (Nat.lt_of_lt_of_le hvn (Nat.le_trans hn h.grows.size))⟩
      obtain ⟨a₁, h₁⟩ := exists_update (Nat.lt_of_lt_of_le hvn hn) fun c : Cell =>
        { c with lifetime := c.lifetime.extend p }
      have m₁ := update_marked hs h₁ (fun _ => rfl) (fun _ => rfl) fun c hc =>
        Lifetime.extend_grows hc hp
      obtain ⟨c₁, hc₁⟩ := cell m₁
      have hinner : ∀ w ∈ c₁.handle.inner, w < v := fun w hw =>
        ha.older (by rwa [Refers, ← m₁.handles, handleAt_eq hc₁])
      have hlength := c₁.handle.length_inner_le
      obtain ⟨a₂, h₂⟩ := ih (ha.marked m₁) m₁.grows.isSet hinner
        (Nat.le_of_lt (Nat.lt_of_lt_of_le hvn (m₁.size ▸ hn)))
        (by have := Nat.mul_le_mul_left 2 hvn; omega)
      have m₂ := m₁.trans (useAll_marked m₁.grows.isSet hp h₂)
      obtain ⟨c₂, hc₂⟩ := cell m₂
      obtain ⟨R, hR⟩ := (ha.marked m₂).systems
      obtain ⟨a₃, h₃, -⟩ := Arena.exists_updateAll (f := fun c : Cell =>
        { c with lifetime := c.lifetime.union c₂.lifetime }) (nodup_receivers hR.oneEach v)
        fun w hw => hR.lt_size (Array.getElem?_eq_some_iff.mp hc₂).1
          (hR.mem_neighbours.mp (receivers_subset _ _ hw)).2
      have m₃ := m₂.trans (updateAll_marked m₂.grows.isSet h₃ (fun _ => rfl) (fun _ => rfl)
        fun c hc => Lifetime.union_grows hc (m₂.grows.isSet v c₂ hc₂))
      obtain ⟨b, hb⟩ := ih (ha.marked m₃) m₃.grows.isSet hrest (m₃.size ▸ hn) (by omega)
      refine ⟨b, ?_⟩
      simp only [useAll, bind_eq_ok, cell_eq_ok]
      exact ⟨a₁, h₁, c₁, hc₁, a₂, h₂, c₂, hc₂, a₃, h₃, hb⟩

/-- **A use of a value covers its position in all that the value reaches.** -/
theorem exists_useAt (ha : a.Layered) (hs : a.IsSet) (hp : 0 ≤ p) (hv : v < a.size) :
    ∃ b, a.useAt v p = .ok b ∧ a.Marked b ∧ ∀ w, a.Reaches v w → b.Covers w p := by
  have hone : ∀ w ∈ [v], w < a.size := by simpa using hv
  have hfuel : 2 * a.size + [v].length < 3 * a.size + 4 := by
    rw [List.length_singleton]
    omega
  obtain ⟨b, hb⟩ := ha.exists_useAll hs hp hone (Nat.le_refl _) hfuel
  exact ⟨b, hb, useAll_marked hs hp hb, fun w => useAll_covers hs hp hb List.mem_cons_self⟩

/-! ## New values -/

theorem create (ha : a.Layered) {h : Handle} (k : Format) (hh : ∀ w ∈ h.inner, w < a.size) :
    (a.create h k).2.Layered := by
  have hedges := create_sameEdges a h k
  obtain ⟨R, hR⟩ := ha.systems
  refine ⟨⟨R, hR.congr hedges⟩, fun {v w} hw => ?_, fun {v w} hw => ?_⟩
  · rw [hedges.neighbours] at hw
    have hv := lt_size_of_mem_neighbours hw
    have hw' := hR.lt_size hv (hR.mem_neighbours.mp hw).2
    rw [handleAt_create, if_neg (Nat.ne_of_lt hw'), handleAt_create, if_neg (Nat.ne_of_lt hv),
      ha.alike hw]
  · rw [Refers, handleAt_create] at hw
    split at hw
    next hv => exact hv ▸ hh w hw
    next => exact ha.older hw

/-- **A new value can take the place of an older one**, and nothing else moves. -/
theorem exists_join (ha : a.Layered) (hs : a.IsSet) {child parent : ValueId} {mode : JoinMode}
    (hc : child < a.size) (hp : parent < child) (hnew : a.neighbours child = [])
    (hmode : mode ≠ .noReceive) :
    ∃ b, a.join child parent mode = .ok b ∧ b.Layered ∧ a.Grows b ∧ b.size = a.size ∧
      ∀ v ≠ child, b.handleAt v = a.handleAt v := by
  obtain ⟨R, hR⟩ := ha.systems
  have hparent := Nat.lt_trans hp hc
  obtain ⟨b, hb⟩ := hR.exists_join hc hparent mode
  obtain ⟨hg, hn⟩ := join_grows hs hb
  have halone (w : ValueId) : R child w ↔ w = child := by
    rw [← hR.mem_cons_neighbours, hnew, List.mem_singleton]
  have hsame {v w : ValueId} (hw : R v w) : a.handleAt w = a.handleAt v := by
    rcases List.mem_cons.mp (hR.mem_cons_neighbours.mpr hw) with rfl | hw
    · rfl
    · exact ha.alike hw
  have hhandles (w : ValueId) :
      b.handleAt w = a.handleAt (if w = child then parent else w) := by
    have hjoin := hb
    simp only [Arena.join, bind_eq_ok, cell_eq_ok] at hjoin
    obtain ⟨-, -, -, -, a₁, h₁, c₁, hc₁, a₂, h₂, a₃, h₃, c₂, -, h₄⟩ := hjoin
    have hR₁ := hR.connectAll h₁
    have e₁ := handleAt_connectAll h₁
    rw [handleAt_updateAll h₄ (fun _ => rfl), handleAt_updateAll h₃ (fun _ => rfl),
      hR₁.handleAt_setHandle (cell?_lt hc₁) h₂, ← handleAt_eq hc₁, e₁, e₁]
    by_cases hw : w = child
    · -- the edge to the new value sends
      subst hw
      have hdisjoint : (a.system w).Disjoint (a.system parent) := fun u hu hu' => by
        obtain rfl := (halone u).mp (hR.mem_system.mp hu)
        have := (halone parent).mp (hR.equivalence.symm (hR.mem_system.mp hu'))
        exact absurd this (Nat.ne_of_lt hp)
      have hedge := (connectAll_crossing h₁ hdisjoint (hR.mem_system.mpr (hR.equivalence.refl w))
        (hR.mem_system.mpr (hR.equivalence.refl parent))).2
      have hmem : w ∈ a₁.receivers parent :=
        (mem_receivers_iff hR₁.oneEach).mpr (hedge.trans (congrArg some (bne_iff_ne.mpr hmode)))
      rw [if_pos rfl, if_pos (by simp [audience, hmem])]
    · rw [if_neg hw]
      split
      next hmem =>
        have hin : Unite R child parent parent w :=
          hR₁.mem_cons_neighbours.mp (by
            rw [audience, if_neg (by simp)] at hmem
            exact List.cons_subset_cons _ (receivers_subset _ _) hmem)
        rcases hin with h | ⟨-, h⟩ | ⟨-, h⟩
        · exact (hsame h).symm
        · exact (hsame h).symm
        · exact absurd ((halone w).mp h) hw
      next => rfl
  refine ⟨b, hb, ⟨⟨_, hR.join hb⟩, fun {v w} hw => ?_, fun {v w} hw => ?_⟩, hg, hn,
    fun v hv => by rw [hhandles, if_neg hv]⟩
  · -- in the arena ahead of the join, the new value is where its parent is
    have hother {u : ValueId} (hu : R parent u) : u ≠ child := by
      rintro rfl
      exact Nat.ne_of_lt hp ((halone parent).mp (hR.equivalence.symm hu))
    rw [hhandles, hhandles]
    rcases ((hR.join hb).mem_neighbours.mp hw).2 with h | ⟨hv, hw⟩ | ⟨hv, hw⟩
    · by_cases hv : v = child
      · rw [hv, (halone w).mp (hv ▸ h)]
      · have hw : w ≠ child := fun hw => hv ((halone v).mp (hR.equivalence.symm (hw ▸ h)))
        rw [if_neg hv, if_neg hw, hsame h]
    · rw [(halone v).mp (hR.equivalence.symm hv), if_pos rfl, if_neg (hother hw), hsame hw]
    · have hv := hR.equivalence.symm hv
      rw [(halone w).mp hw, if_pos rfl, if_neg (hother hv), hsame hv]
  · rw [Refers, hhandles] at hw
    split at hw
    next hv => exact hv ▸ Nat.lt_trans (ha.older hw) hp
    next => exact ha.older hw

end Layered

end Arena

end Codegen
