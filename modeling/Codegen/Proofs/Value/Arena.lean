import Codegen.Value.Arena

/-!
# Lifetimes in an arena never shrink

Appending an instruction marks values as needed where it stands, joins cells, and gives cells
handles and metadata. None of this takes a position from a lifetime.

* `Lifetime.IsSet`, `Lifetime.Grows`: bounds that were set, and lifetimes that only get longer;
* `Arena.Grows`: **what every change of an arena keeps**;
* `Arena.useAt_grows`: a use covers its position;
* `Arena.join_grows`, `setMetadata_grows`, ...: the other changes.
-/

namespace Codegen

namespace Lifetime

/-- Either no bound is set, or both are. -/
def IsSet (l : Lifetime) : Prop := l = unused ∨ 0 ≤ l.start ∧ l.start ≤ l.stop

/-- The second lifetime is set, and it covers what the first one covers. -/
def Grows (l m : Lifetime) : Prop := m.IsSet ∧ ∀ p, l.covers p = true → m.covers p = true

variable {l m : Lifetime} {p q : Int}

theorem covers_iff : l.covers p = true ↔ l.start ≠ -1 ∧ l.start ≤ p ∧ p ≤ l.stop := by
  simp [covers, isActive, and_assoc]

theorem isSet_unused : unused.IsSet := .inl rfl

theorem extend_grows (h : l.IsSet) (hq : 0 ≤ q) : l.Grows (l.extend q) := by
  refine ⟨.inr ?_, fun p hp => ?_⟩
  · rcases h with rfl | h
    · simp [extend, unused, hq]
    · simp only [extend]
      split <;> split <;> omega
  · rw [covers_iff] at hp ⊢
    simp only [extend]
    split <;> split <;> omega

theorem extend_covers (h : l.IsSet) (hq : 0 ≤ q) : (l.extend q).covers q = true := by
  rw [covers_iff]
  rcases h with rfl | h
  · simp only [extend, unused, true_or, if_true]
    omega
  · simp only [extend]
    split <;> split <;> omega

theorem Grows.refl (h : l.IsSet) : l.Grows l := ⟨h, fun _ => id⟩

theorem Grows.trans {k : Lifetime} (h : l.Grows m) (h' : m.Grows k) : l.Grows k :=
  ⟨h'.1, fun p hp => h'.2 p (h.2 p hp)⟩

theorem union_grows (h : l.IsSet) (hm : m.IsSet) : l.Grows (l.union m) := by
  unfold union
  split
  next hactive =>
    obtain ⟨h1, h2⟩ : 0 ≤ m.start ∧ m.start ≤ m.stop := by
      rcases hm with rfl | hm
      · simp [unused, isActive] at hactive
      · exact hm
    have hstart := extend_grows h h1
    exact hstart.trans (extend_grows hstart.1 (by omega))
  next => exact .refl h

end Lifetime

namespace Arena

/-- All bounds of lifetimes are set in pairs. -/
def IsSet (a : Arena) : Prop := ∀ v c, a.cell? v = some c → c.lifetime.IsSet

/-- The value is needed at the position. -/
def Covers (a : Arena) (v : ValueId) (p : Int) : Prop :=
  ∃ c, a.cell? v = some c ∧ c.lifetime.covers p = true

/-- **The second arena has the cells of the first one**, and their lifetimes cover at least as
much. -/
structure Grows (a b : Arena) : Prop where
  isSet : b.IsSet
  size : a.size ≤ b.size
  covers : ∀ v p, a.Covers v p → b.Covers v p

variable {a b c : Arena} {v w : ValueId} {p : Int}

theorem Grows.refl (h : a.IsSet) : a.Grows a := ⟨h, Nat.le_refl _, fun _ _ => id⟩

theorem Grows.trans (h : a.Grows b) (h' : b.Grows c) : a.Grows c :=
  ⟨h'.isSet, Nat.le_trans h.size h'.size, fun v p hv => h'.covers v p (h.covers v p hv)⟩

theorem isSet_empty : empty.IsSet := by
  intro v c h
  simp [cell?, empty] at h

theorem Covers.between {q k : Int} (hp : a.Covers v p) (hq : a.Covers v q) (h : p ≤ k)
    (h' : k ≤ q) : a.Covers v k := by
  obtain ⟨c, hc, hp⟩ := hp
  obtain ⟨c', hc', hq⟩ := hq
  obtain rfl := Option.some.inj (hc.symm.trans hc')
  rw [Lifetime.covers_iff] at hp hq
  exact ⟨c, hc, Lifetime.covers_iff.mpr ⟨hp.1, by omega, by omega⟩⟩

/-! ## Outcomes -/

theorem bind_eq_ok {ε α β : Type} {x : Except ε α} {f : α → Except ε β} {b : β} :
    (x >>= f) = .ok b ↔ ∃ a, x = .ok a ∧ f a = .ok b := by
  cases x <;> simp [bind, Except.bind]

theorem pure_eq_ok {ε α : Type} {x y : α} : (pure x : Except ε α) = .ok y ↔ x = y := by
  simp [pure, Except.pure]

theorem cell_eq_ok {c : Cell} : a.cell v = .ok c ↔ a.cell? v = some c := by
  unfold cell Fault.expect
  cases a.cell? v <;> simp

theorem update_eq_ok {f : Cell → Cell} :
    a.update v f = .ok b ↔ v < a.size ∧ ⟨a.cells.modify v f⟩ = b := by
  unfold update
  split
  next h => simp [h]
  next h => simp [h]

theorem foldlM_keeps {γ : Type} {xs : List γ} {k : Arena → γ → Except Fault Arena}
    (P : Arena → Prop) (hk : ∀ a b, ∀ x ∈ xs, P a → k a x = .ok b → P b) (ha : P a)
    (h : xs.foldlM k a = .ok b) : P b := by
  induction xs generalizing a with
  | nil =>
    rw [List.foldlM_nil, pure_eq_ok] at h
    exact h ▸ ha
  | cons x xs ih =>
    rw [List.foldlM_cons, bind_eq_ok] at h
    obtain ⟨a', h1, h2⟩ := h
    exact ih (fun a b y hy => hk a b y (List.mem_cons_of_mem _ hy))
      (hk a a' x List.mem_cons_self ha h1) h2

/-! ## Changes of cells -/

theorem cell?_modify (f : Cell → Cell) (w : ValueId) :
    (⟨a.cells.modify v f⟩ : Arena).cell? w = (a.cell? w).map fun c => if w = v then f c else c := by
  simp only [cell?, Array.getElem?_modify]
  by_cases hw : v = w
  · subst hw
    simp
  · simp [hw, Ne.symm hw]

theorem update_grows (hs : a.IsSet) {f : Cell → Cell} (h : a.update v f = .ok b)
    (hf : ∀ c : Cell, c.lifetime.IsSet → c.lifetime.Grows (f c).lifetime) :
    a.Grows b ∧ b.size = a.size := by
  obtain ⟨-, rfl⟩ := update_eq_ok.mp h
  have hsize : (⟨a.cells.modify v f⟩ : Arena).size = a.size := by simp [size]
  have hgrows (w : ValueId) (c : Cell) (hc : a.cell? w = some c) :
      c.lifetime.Grows (if w = v then f c else c).lifetime := by
    split
    · exact hf c (hs w c hc)
    · exact .refl (hs w c hc)
  refine ⟨⟨fun w c hc => ?_, Nat.le_of_eq hsize.symm, fun w p => ?_⟩, hsize⟩
  · rw [cell?_modify, Option.map_eq_some_iff] at hc
    obtain ⟨c', hc', rfl⟩ := hc
    exact (hgrows w c' hc').1
  · rintro ⟨c, hc, hp⟩
    exact ⟨_, by rw [cell?_modify, hc]; rfl, (hgrows w c hc).2 p hp⟩

theorem updateAll_grows (hs : a.IsSet) {vs : List ValueId} {f : Cell → Cell}
    (h : a.updateAll vs f = .ok b)
    (hf : ∀ c : Cell, c.lifetime.IsSet → c.lifetime.Grows (f c).lifetime) :
    a.Grows b ∧ b.size = a.size := by
  refine foldlM_keeps (fun b => a.Grows b ∧ b.size = a.size) ?_ ⟨.refl hs, rfl⟩ h
  rintro b c v - ⟨hb, hsize⟩ hc
  obtain ⟨h1, h2⟩ := update_grows hb.isSet hc hf
  exact ⟨hb.trans h1, h2.trans hsize⟩

theorem setHandle_grows (hs : a.IsSet) {h : Handle} {force : Bool}
    (hb : a.setHandle v h force = .ok b) : a.Grows b ∧ b.size = a.size :=
  updateAll_grows hs hb fun _ hc => .refl hc

theorem setMetadata_grows (hs : a.IsSet) {m : Metadata} {force : Bool}
    (hb : a.setMetadata v m force = .ok b) : a.Grows b ∧ b.size = a.size :=
  updateAll_grows hs hb fun _ hc => .refl hc

theorem setInstruction_grows (hs : a.IsSet) {i : Nat} (hb : a.setInstruction v i = .ok b) :
    a.Grows b ∧ b.size = a.size :=
  update_grows hs hb fun _ hc => .refl hc

theorem create_grows (hs : a.IsSet) (h : Handle) (f : Format) :
    a.Grows (a.create h f).2 ∧ (a.create h f).2.size = a.size + 1 := by
  have hsize : (a.create h f).2.size = a.size + 1 := by simp [create, size]
  refine ⟨⟨fun v c hc => ?_, by omega, fun v p => ?_⟩, hsize⟩
  · simp only [create, cell?, Array.getElem?_push] at hc
    split at hc
    · obtain rfl := Option.some.inj hc
      exact Lifetime.isSet_unused
    · exact hs v c hc
  · rintro ⟨c, hc, hp⟩
    refine ⟨c, ?_, hp⟩
    have hv : v < a.cells.size := (Array.getElem?_eq_some_iff.mp hc).1
    simp only [create, cell?, Array.getElem?_push, Nat.ne_of_lt hv, if_false]
    exact hc

theorem restoreHandles_grows (ha : a.IsSet) (hs : Array Handle) (keep : ValueId → Bool) :
    a.Grows (a.restoreHandles hs keep) := by
  have hlifetime (v : ValueId) : ((a.restoreHandles hs keep).cell? v).map Cell.lifetime =
      (a.cell? v).map Cell.lifetime := by
    simp only [cell?, restoreHandles, Array.getElem?_mapIdx, Option.map_map]
    congr 1
    funext c
    simp only [Function.comp]
    split
    · split <;> rfl
    · rfl
  refine ⟨fun v c hc => ?_, by simp [size, restoreHandles], fun v p ⟨c, hc, hp⟩ => ?_⟩
  · have h := hlifetime v
    rw [hc, Option.map_some, eq_comm, Option.map_eq_some_iff] at h
    obtain ⟨c', hc', h⟩ := h
    exact h ▸ ha v c' hc'
  · have h := hlifetime v
    rw [hc, Option.map_some, Option.map_eq_some_iff] at h
    obtain ⟨c', hc', h⟩ := h
    exact ⟨c', hc', h ▸ hp⟩

/-! ## Uses -/

theorem useAll_keeps {P : Arena → Prop}
    (hP : ∀ a b v (g : Lifetime → Lifetime), P a →
      a.update v (fun c => { c with lifetime := g c.lifetime }) = .ok b → P b)
    {fuel : Nat} {vs : List ValueId} (ha : P a) (h : useAll p fuel vs a = .ok b) : P b := by
  induction fuel generalizing vs a b with
  | zero => simp [useAll] at h
  | succ fuel ih =>
    cases vs with
    | nil =>
      obtain rfl : a = b := by simpa [useAll] using h
      exact ha
    | cons v rest =>
      simp only [useAll, bind_eq_ok] at h
      obtain ⟨a₁, h₁, c₁, -, a₂, h₂, c₂, -, a₃, h₃, h₄⟩ := h
      have ha₂ : P a₂ := ih (hP a a₁ v (·.extend p) ha h₁) h₂
      have ha₃ : P a₃ := foldlM_keeps P (fun a b w _ => hP a b w (·.union c₂.lifetime)) ha₂ h₃
      exact ih ha₃ h₄

theorem useAll_grows (hp : 0 ≤ p) {fuel : Nat} {vs : List ValueId} (hs : a.IsSet)
    (h : useAll p fuel vs a = .ok b) :
    (a.Grows b ∧ b.size = a.size) ∧ ∀ v ∈ vs, b.Covers v p := by
  induction fuel generalizing vs a b with
  | zero => simp [useAll] at h
  | succ fuel ih =>
    cases vs with
    | nil =>
      obtain rfl : a = b := by simpa [useAll] using h
      exact ⟨⟨.refl hs, rfl⟩, by simp⟩
    | cons v rest =>
      simp only [useAll, bind_eq_ok, cell_eq_ok] at h
      obtain ⟨a₁, h₁, c₁, -, a₂, h₂, c₂, hc₂, a₃, h₃, h₄⟩ := h
      obtain ⟨g₁, n₁⟩ := update_grows hs h₁ fun c hc => Lifetime.extend_grows hc hp
      obtain ⟨⟨g₂, n₂⟩, -⟩ := ih g₁.isSet h₂
      obtain ⟨g₃, n₃⟩ := updateAll_grows g₂.isSet h₃ fun c hc =>
        Lifetime.union_grows hc (g₂.isSet v c₂ hc₂)
      obtain ⟨⟨g₄, n₄⟩, hrest⟩ := ih g₃.isSet h₄
      have hv : b.Covers v p := by
        refine (g₂.trans (g₃.trans g₄)).covers v p ?_
        obtain ⟨hlt, rfl⟩ := update_eq_ok.mp h₁
        have hc : a.cell? v = some a.cells[v] := Array.getElem?_eq_getElem hlt
        exact ⟨_, by rw [cell?_modify, hc]; rfl,
          by simpa using Lifetime.extend_covers (hs v _ hc) hp⟩
      refine ⟨⟨g₁.trans (g₂.trans (g₃.trans g₄)), by omega⟩, ?_⟩
      simpa using ⟨hv, hrest⟩

theorem useAt_grows (hs : a.IsSet) (hp : 0 ≤ p) (h : a.useAt v p = .ok b) :
    (a.Grows b ∧ b.size = a.size) ∧ b.Covers v p := by
  obtain ⟨hg, hv⟩ := useAll_grows hp hs h
  exact ⟨hg, hv v List.mem_cons_self⟩

/-! ## Joins -/

theorem connect_grows (hs : a.IsSet) {sending : Bool} (h : a.connect v w sending = .ok b) :
    a.Grows b ∧ b.size = a.size :=
  update_grows hs h fun _ hc => .refl hc

theorem connectAll_grows (hs : a.IsSet) {vs ws : List ValueId} {send receive : Bool}
    (h : a.connectAll vs ws send receive = .ok b) : a.Grows b ∧ b.size = a.size := by
  refine foldlM_keeps (fun b => a.Grows b ∧ b.size = a.size) ?_ ⟨.refl hs, rfl⟩ h
  rintro b c v - hb hc
  refine foldlM_keeps (fun b => a.Grows b ∧ b.size = a.size) ?_ hb hc
  rintro b c w - ⟨hb, hsize⟩ hc
  split at hc
  · obtain rfl : b = c := by simpa using hc
    exact ⟨hb, hsize⟩
  · obtain ⟨d, hd, hc⟩ := bind_eq_ok.mp hc
    obtain ⟨g₁, n₁⟩ := connect_grows hb.isSet hd
    obtain ⟨g₂, n₂⟩ := connect_grows g₁.isSet hc
    exact ⟨hb.trans (g₁.trans g₂), by omega⟩

theorem join_grows (hs : a.IsSet) {mode : JoinMode} (h : a.join v w mode = .ok b) :
    a.Grows b ∧ b.size = a.size := by
  simp only [join, bind_eq_ok, cell_eq_ok] at h
  obtain ⟨-, -, -, -, a₁, h₁, c₁, -, a₂, h₂, a₃, h₃, c₂, hc₂, h₄⟩ := h
  obtain ⟨g₁, n₁⟩ := connectAll_grows hs h₁
  obtain ⟨g₂, n₂⟩ := setHandle_grows g₁.isSet h₂
  obtain ⟨g₃, n₃⟩ := setMetadata_grows g₂.isSet h₃
  obtain ⟨g₄, n₄⟩ := updateAll_grows g₃.isSet h₄ fun c hc =>
    Lifetime.union_grows hc (g₃.isSet w c₂ hc₂)
  exact ⟨g₁.trans (g₂.trans (g₃.trans g₄)), by omega⟩

end Arena

end Codegen
