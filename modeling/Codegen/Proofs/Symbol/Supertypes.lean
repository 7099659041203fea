import Codegen.Symbol.Table
import Mathlib

/-!
# All supertypes of a type

The supertypes of a type are searched breadth first. The supertypes of types may be any graph: two
ways may lead to one type, and a type may be above itself. The search goes level by level: what is
pending is first the rest of a level and then what the found types of that level have above them.

* `SymbolTable.direct`, `Super`: the direct supertypes of a type;
* `SymbolTable.Above`, `distance`: steps up from a type to another one, and the fewest of them;
* `SymbolTable.Level`: **what is found and what is pending while a level is searched**;
* `SymbolTable.Level.closure`: the search ends and finds all that is above;
* `SymbolTable.supertypes_closure`: **all supertypes, each once, the nearest first**.
-/

namespace Codegen

namespace SymbolTable

open Relation

variable {t : SymbolTable} {i j k : TypeId} {n fuel : Nat} {found near far js pending : List TypeId}

/-! ## Steps up -/

/-- The direct supertypes of a type, in the order of their declaration. -/
def direct (t : SymbolTable) (i : TypeId) : List TypeId := t.types[i]?.elim [] (·.supertypes)

/-- The second type is a direct supertype of the first. -/
def Super (t : SymbolTable) (i j : TypeId) : Prop := j ∈ t.direct i

/-- That many steps lead up from the first type to the second. -/
def Above (t : SymbolTable) : Nat → TypeId → TypeId → Prop
  | 0, i, j => i = j
  | n + 1, i, j => ∃ k, t.Above n i k ∧ t.Super k j

/-- The fewest steps, one or more, that lead up from a type to another one. -/
noncomputable def distance (t : SymbolTable) (i j : TypeId) : Nat :=
  sInf {n | 0 < n ∧ t.Above n i j}

theorem typeInfo_of_lt (h : i < t.types.size) :
    ∃ x, t.typeInfo i = .ok x ∧ x.supertypes = t.direct i := by
  have hx : t.types[i]? = some t.types[i] := Array.getElem?_eq_getElem h
  refine ⟨t.types[i], ?_, ?_⟩
  · rw [typeInfo, hx]
    rfl
  · rw [direct, hx]
    rfl

theorem transGen_super_iff : TransGen t.Super i j ↔ ∃ n, 0 < n ∧ t.Above n i j := by
  constructor
  · intro h
    induction h with
    | single h => exact ⟨1, Nat.one_pos, i, rfl, h⟩
    | tail _ h ih =>
      obtain ⟨n, -, hn⟩ := ih
      exact ⟨n + 1, Nat.succ_pos n, _, hn, h⟩
  · rintro ⟨n, hpos, hn⟩
    induction n generalizing j with
    | zero => exact absurd hpos (Nat.lt_irrefl 0)
    | succ n ih =>
      obtain ⟨k, hk, hkj⟩ := hn
      cases n with
      | zero =>
        cases hk
        exact .single hkj
      | succ n => exact (ih n.succ_pos hk).tail hkj

theorem distance_le (hpos : 0 < n) (h : t.Above n i j) : t.distance i j ≤ n :=
  Nat.sInf_le ⟨hpos, h⟩

/-- Fewer steps than a number do not lead there, so the distance is that number at least. -/
theorem le_distance (hpos : 0 < n) (h : t.Above n i j)
    (hleast : ∀ m, 0 < m → m < n → ¬ t.Above m i j) : n ≤ t.distance i j := by
  obtain ⟨hp, ha⟩ := Nat.sInf_mem (s := {n | 0 < n ∧ t.Above n i j}) ⟨n, hpos, h⟩
  by_contra hlt
  exact hleast _ hp (Nat.lt_of_not_le hlt) ha

/-! ## The search -/

/-- **The search on a level**, that many steps above a type: what is found, what is pending on the
level, and what is pending on the next one. -/
structure Level (t : SymbolTable) (i : TypeId) (n : Nat) (found near far : List TypeId) :
    Prop where
  pos : 0 < n
  nodup : found.Nodup
  sorted : found.Pairwise fun a b => t.distance i a ≤ t.distance i b
  found_above : ∀ j ∈ found, ∃ m, 0 < m ∧ m ≤ n ∧ t.Above m i j
  near_above : ∀ j ∈ near, t.Above n i j
  far_above : ∀ j ∈ far, t.Above (n + 1) i j
  /-- The lower levels are found. -/
  lower : ∀ m j, 0 < m → m < n → t.Above m i j → j ∈ found
  level : ∀ j, t.Above n i j → j ∈ found ∨ j ∈ near
  /-- Nothing above a found type is forgotten. -/
  pending : ∀ j ∈ found, ∀ k, t.Super j k → k ∈ found ∨ k ∈ near ∨ k ∈ far

namespace Level

theorem start : t.Level i 1 [] (t.direct i) [] where
  pos := Nat.one_pos
  nodup := .nil
  sorted := .nil
  found_above := by simp
  near_above j hj := ⟨i, rfl, hj⟩
  far_above := by simp
  lower m j hpos hlt := by omega
  level := by
    rintro j ⟨_, rfl, hj⟩
    exact .inr hj
  pending := by simp

/-- **When nothing of a level is pending, the search is on the next level.** -/
theorem turn (h : t.Level i n found [] far) : t.Level i (n + 1) found far [] where
  pos := n.succ_pos
  nodup := h.nodup
  sorted := h.sorted
  found_above j hj := by
    obtain ⟨m, hpos, hle, hm⟩ := h.found_above j hj
    exact ⟨m, hpos, by omega, hm⟩
  near_above := h.far_above
  far_above := by simp
  lower m j hpos hlt hm := by
    by_cases hmn : m < n
    · exact h.lower m j hpos hmn hm
    · obtain rfl : m = n := by omega
      simpa using h.level j hm
  level := by
    rintro j ⟨k, hk, hkj⟩
    have hfound : k ∈ found := by simpa using h.level k hk
    simpa using h.pending k hfound j hkj
  pending j hj k hk := by simpa using h.pending j hj k hk

theorem skip (h : t.Level i n found (j :: near) far) (hj : j ∈ found) :
    t.Level i n found near far where
  pos := h.pos
  nodup := h.nodup
  sorted := h.sorted
  found_above := h.found_above
  near_above k hk := h.near_above k (.tail j hk)
  far_above := h.far_above
  lower := h.lower
  level k hk := by
    rcases h.level k hk with hf | hn
    · exact .inl hf
    · rcases List.mem_cons.mp hn with rfl | hn
      · exact .inl hj
      · exact .inr hn
  pending a ha k hk := by
    rcases h.pending a ha k hk with hf | hn | hr
    · exact .inl hf
    · rcases List.mem_cons.mp hn with rfl | hn
      · exact .inl hj
      · exact .inr (.inl hn)
    · exact .inr (.inr hr)

theorem distance_eq (h : t.Level i n found (j :: near) far) (hj : j ∉ found) :
    t.distance i j = n := by
  have ha := h.near_above j List.mem_cons_self
  exact Nat.le_antisymm (distance_le h.pos ha)
    (le_distance h.pos ha fun m hpos hlt hm => hj (h.lower m j hpos hlt hm))

/-- **A type that is not found yet is taken**, and what is above it becomes pending. -/
theorem take (h : t.Level i n found (j :: near) far) (hj : j ∉ found) :
    t.Level i n (found ++ [j]) near (far ++ t.direct j) where
  pos := h.pos
  nodup := by
    rw [List.nodup_append]
    refine ⟨h.nodup, List.nodup_singleton j, fun a ha b hb => ?_⟩
    obtain rfl := List.mem_singleton.mp hb
    rintro rfl
    exact hj ha
  sorted := by
    rw [List.pairwise_append]
    refine ⟨h.sorted, List.pairwise_singleton _ j, fun a ha b hb => ?_⟩
    obtain rfl := List.mem_singleton.mp hb
    obtain ⟨m, hpos, hle, hm⟩ := h.found_above a ha
    calc
      t.distance i a ≤ m := distance_le hpos hm
      _ ≤ n := hle
      _ = t.distance i b := (h.distance_eq hj).symm
  found_above a ha := by
    rcases List.mem_append.mp ha with ha | ha
    · exact h.found_above a ha
    · obtain rfl := List.mem_singleton.mp ha
      exact ⟨n, h.pos, le_rfl, h.near_above a List.mem_cons_self⟩
  near_above k hk := h.near_above k (.tail j hk)
  far_above k hk := by
    rcases List.mem_append.mp hk with hk | hk
    · exact h.far_above k hk
    · exact ⟨j, h.near_above j List.mem_cons_self, hk⟩
  lower m a hpos hlt hm := List.mem_append_left _ (h.lower m a hpos hlt hm)
  level k hk := by
    rcases h.level k hk with hf | hn
    · exact .inl (List.mem_append_left _ hf)
    · rcases List.mem_cons.mp hn with rfl | hn
      · exact .inl (by simp)
      · exact .inr hn
  pending a ha k hk := by
    rcases List.mem_append.mp ha with ha | ha
    · rcases h.pending a ha k hk with hf | hn | hr
      · exact .inl (List.mem_append_left _ hf)
      · rcases List.mem_cons.mp hn with rfl | hn
        · exact .inl (by simp)
        · exact .inr (.inl hn)
      · exact .inr (.inr (List.mem_append_left _ hr))
    · obtain rfl := List.mem_singleton.mp ha
      exact .inr (.inr (List.mem_append_right _ hk))

/-- **When nothing is pending, all that is above is found.** -/
theorem mem_iff (h : t.Level i n found [] []) (j : TypeId) :
    j ∈ found ↔ TransGen t.Super i j := by
  rw [transGen_super_iff]
  constructor
  · intro hj
    obtain ⟨m, hpos, -, hm⟩ := h.found_above j hj
    exact ⟨m, hpos, hm⟩
  · rintro ⟨m, hpos, hm⟩
    induction m generalizing j with
    | zero => exact absurd hpos (Nat.lt_irrefl 0)
    | succ m ih =>
      rcases lt_trichotomy (m + 1) n with hlt | heq | hgt
      · exact h.lower _ j hpos hlt hm
      · simpa using h.level j (heq ▸ hm)
      · obtain ⟨k, hk, hkj⟩ := hm
        have hfound := ih k (lt_of_lt_of_le h.pos (Nat.le_of_lt_succ hgt)) hk
        simpa using h.pending k hfound j hkj

end Level

/-! ## The length of the search -/

/-- The number of direct supertypes of the types that are not found yet. -/
def unread (t : SymbolTable) (found : List TypeId) : Nat :=
  ∑ j ∈ Finset.range t.types.size with j ∉ found, (t.direct j).length

theorem unread_append (hj : j ∉ found) (hlt : j < t.types.size) :
    (t.direct j).length + t.unread (found ++ [j]) = t.unread found := by
  have hrest : {k ∈ Finset.range t.types.size | k ∉ found ++ [j]} =
      {k ∈ Finset.range t.types.size | k ∉ found}.erase j := by
    ext k
    simp only [Finset.mem_filter, Finset.mem_erase, List.mem_append, List.mem_singleton]
    tauto
  rw [unread, unread, hrest]
  exact Finset.add_sum_erase _ (fun k => (t.direct k).length) (by simp [hj, hlt])

theorem supertypeCount_eq :
    t.supertypeCount = ∑ j ∈ Finset.range t.types.size, (t.direct j).length := by
  have hfold (xs : List TypeInfo) (n : Nat) :
      xs.foldl (fun n x => n + x.supertypes.length) n =
        n + (xs.map (·.supertypes.length)).sum := by
    induction xs generalizing n with
    | nil => rfl
    | cons x xs ih => rw [List.foldl_cons, ih, List.map_cons, List.sum_cons, Nat.add_assoc]
  rw [supertypeCount, ← Array.foldl_toList, hfold, Nat.zero_add, ← Fin.sum_univ_fun_getElem,
    Finset.sum_range]
  refine Finset.sum_congr rfl fun j _ => ?_
  rw [direct, Array.getElem?_eq_getElem j.isLt]
  rfl

theorem length_direct_le (i : TypeId) : (t.direct i).length ≤ t.supertypeCount := by
  rw [supertypeCount_eq]
  by_cases hi : i < t.types.size
  · exact Finset.single_le_sum (f := fun j => (t.direct j).length) (fun _ _ => Nat.zero_le _)
      (Finset.mem_range.mpr hi)
  · rw [direct, Array.getElem?_eq_none (Nat.le_of_not_lt hi)]
    exact Nat.zero_le _

/-! ## All supertypes -/

theorem eraseDups_removeAll (hj : j ∉ found) :
    ((j :: pending).removeAll found).eraseDups =
      j :: (pending.removeAll (found ++ [j])).eraseDups := by
  have hhead : (j :: pending).removeAll found = j :: pending.removeAll found := by
    simp [List.removeAll, hj]
  rw [hhead, List.eraseDups_cons]
  simp only [List.removeAll, List.filter_filter, List.elem_eq_mem, List.mem_append,
    List.mem_singleton]
  congr 2
  refine List.filter_congr fun k _ => ?_
  by_cases hk : k = j <;> simp [hk]

theorem eraseDups_prefix (found pending more : List TypeId) :
    (pending.removeAll found).eraseDups <+: ((pending ++ more).removeAll found).eraseDups := by
  have happend : (pending ++ more).removeAll found =
      pending.removeAll found ++ more.removeAll found := List.filter_append _ _
  rw [happend, List.eraseDups_append]
  exact List.prefix_append _ _

theorem closure_cons (h : j < t.types.size) : t.closure (fuel + 1) found (j :: pending) =
    if j ∈ found then t.closure fuel found pending
    else t.closure fuel (found ++ [j]) (pending ++ t.direct j) := by
  obtain ⟨x, hx, hsuper⟩ := typeInfo_of_lt h
  rw [closure]
  simp only [List.contains_iff_mem, hx, ← hsuper]
  rfl

/-- **The search ends before the bound on its length is reached, with all that is above**, and what
is pending is found in its order behind what is found. -/
theorem Level.closure (hdirect : ∀ k, ∀ j ∈ t.direct k, j < t.types.size)
    (h : t.Level i n found near far) (hpending : near ++ far = pending)
    (hbound : ∀ j ∈ pending, j < t.types.size)
    (hfuel : pending.length + t.unread found ≤ fuel) :
    ∃ js m, t.closure fuel found pending = .ok js ∧ t.Level i m js [] [] ∧
      found ++ (pending.removeAll found).eraseDups <+: js := by
  induction fuel generalizing n found near far pending with
  | zero =>
    obtain rfl : pending = [] := List.length_eq_zero_iff.mp (by omega)
    obtain ⟨rfl, rfl⟩ := List.append_eq_nil_iff.mp hpending
    exact ⟨found, n, rfl, h, by simp [List.removeAll]⟩
  | succ fuel ih =>
    cases pending with
    | nil =>
      obtain ⟨rfl, rfl⟩ := List.append_eq_nil_iff.mp hpending
      exact ⟨found, n, rfl, h, by simp [List.removeAll]⟩
    | cons j pending =>
      -- A level of which nothing is pending is left, so that the head is on the level.
      obtain ⟨n, near, far, h, rfl⟩ : ∃ n near far, t.Level i n found (j :: near) far ∧
          near ++ far = pending := by
        cases near with
        | nil => exact ⟨n + 1, pending, [], hpending ▸ h.turn, List.append_nil _⟩
        | cons k near =>
          obtain ⟨rfl, rfl⟩ := List.cons_eq_cons.mp hpending
          exact ⟨n, near, far, h, rfl⟩
      have hj : j < t.types.size := hbound j List.mem_cons_self
      have hrest : ∀ k ∈ near ++ far, k < t.types.size := fun k hk => hbound k (.tail j hk)
      rw [List.length_cons] at hfuel
      rw [closure_cons hj]
      by_cases hmem : j ∈ found
      · obtain ⟨js, m, hjs, hl, hpre⟩ := ih (h.skip hmem) rfl hrest (by omega)
        refine ⟨js, m, by rw [if_pos hmem, hjs], hl, ?_⟩
        rwa [List.removeAll, List.filter_cons_of_neg (by simpa using hmem)]
      · obtain ⟨js, m, hjs, hl, hpre⟩ := ih (h.take hmem) (List.append_assoc near far _).symm
          (fun k hk => (List.mem_append.mp hk).elim (hrest k) (hdirect j k))
          (by rw [List.length_append]; have := unread_append hmem hj; omega)
        refine ⟨js, m, by rw [if_neg hmem, hjs], hl, .trans ?_ hpre⟩
        rw [eraseDups_removeAll hmem, List.append_assoc, List.singleton_append,
          List.prefix_append_right_inj, List.prefix_cons_inj]
        exact eraseDups_prefix _ _ _

/-- All supertypes of a type are found, whatever the graph of supertypes is. -/
theorem supertypes_found (hdirect : ∀ k, ∀ j ∈ t.direct k, j < t.types.size)
    (hi : i < t.types.size) :
    ∃ js n, t.supertypes i = .ok js ∧ t.Level i n js [] [] ∧ (t.direct i).eraseDups <+: js := by
  obtain ⟨x, hx, hsuper⟩ := typeInfo_of_lt hi
  have hunread : t.unread [] = t.supertypeCount := by
    rw [supertypeCount_eq, unread]
    simp
  have hlength := length_direct_le (t := t) i
  have hfuel : (t.direct i).length + t.unread [] ≤ 2 * t.supertypeCount + 1 := by omega
  have hstart : t.Level i 1 [] (t.direct i) [] := .start
  obtain ⟨js, n, hjs, hl, hpre⟩ :=
    hstart.closure hdirect (List.append_nil _) (hdirect i) hfuel
  refine ⟨js, n, ?_, hl, ?_⟩
  · rw [supertypes, hx, ← hjs, ← hsuper]
    rfl
  · simpa [List.removeAll] using hpre

theorem inherits_eq_true_iff (hdirect : ∀ k, ∀ j ∈ t.direct k, j < t.types.size)
    (hi : i < t.types.size) : t.inherits i j = .ok true ↔ TransGen t.Super i j := by
  obtain ⟨js, n, hjs, hl, -⟩ := supertypes_found hdirect hi
  rw [inherits, hjs, ← hl.mem_iff j, ← List.contains_iff_mem]
  exact ⟨fun h => Except.ok.inj h, fun h => congrArg Except.ok h⟩

/-- **All supertypes of a type are the types that steps lead up to**, in every graph of supertypes
that are types: each is listed once, one with a longer way up never comes before one with a shorter
way, and the direct supertypes come first and in the order of their declaration. So inheritance is
transitive. -/
theorem supertypes_closure (hdirect : ∀ k, ∀ j ∈ t.direct k, j < t.types.size)
    (hi : i < t.types.size) :
    (∃ js, t.supertypes i = .ok js ∧ (∀ j, j ∈ js ↔ TransGen t.Super i j) ∧ js.Nodup ∧
      js.Pairwise (fun a b => t.distance i a ≤ t.distance i b) ∧
      (t.direct i).eraseDups <+: js) ∧
    ∀ j k, t.inherits i j = .ok true → t.inherits j k = .ok true →
      t.inherits i k = .ok true := by
  constructor
  · obtain ⟨js, n, hjs, hl, hpre⟩ := supertypes_found hdirect hi
    exact ⟨js, hjs, hl.mem_iff, hl.nodup, hl.sorted, hpre⟩
  · intro j k hij hjk
    have habove := (inherits_eq_true_iff hdirect hi).mp hij
    obtain ⟨m, -, hm⟩ := TransGen.tail'_iff.mp habove
    have hj : j < t.types.size := hdirect m j hm
    exact (inherits_eq_true_iff hdirect hi).mpr
      (habove.trans ((inherits_eq_true_iff hdirect hj).mp hjk))

/-- A table of types with these direct supertypes. -/
def ofSupertypes (direct : List (List TypeId)) : SymbolTable where
  contexts := #[]
  types := (direct.map fun s => ⟨"", .user, globalContext, s⟩).toArray
  functions := #[]
  vars := #[]
  labels := #[]

/-- Two ways lead from the first type to the fourth, and from there on in a circle. -/
def crossed : SymbolTable := ofSupertypes [[1, 2], [3], [3, 1], [4], [3, 2]]

theorem supertypes_crossed : (∀ k, ∀ j ∈ crossed.direct k, j < crossed.types.size) ∧
    ∃ js, crossed.supertypes 0 = .ok js ∧ js = [1, 2, 3, 4] ∧ js.Nodup ∧
      ∀ j, j ∈ js ↔ TransGen crossed.Super 0 j := by
  have hdirect : ∀ k, ∀ j ∈ crossed.direct k, j < crossed.types.size := by
    intro k
    by_cases hk : k < crossed.types.size
    · exact (by decide : ∀ k < crossed.types.size, ∀ j ∈ crossed.direct k,
        j < crossed.types.size) k hk
    · rw [direct, Array.getElem?_eq_none (Nat.le_of_not_lt hk)]
      exact fun j hj => nomatch hj
  obtain ⟨⟨js, hjs, hmem, hnodup, -⟩, -⟩ := supertypes_closure (i := 0) hdirect (by decide)
  have hlist : crossed.supertypes 0 = .ok [1, 2, 3, 4] := by decide
  exact ⟨hdirect, js, hjs, Except.ok.inj (hjs.symm.trans hlist), hnodup, hmem⟩

end SymbolTable

end Codegen
