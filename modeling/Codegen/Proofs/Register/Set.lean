import Mathlib.Data.Set.Card
import Codegen.Register.Set

/-!
# Membership in sets of registers

A set of registers is what `RegisterSet.contains` says of it. Every operation on the masks is
described by its effect on membership, so that no later proof looks at a mask.

* `RegisterSet.contains_insert`, `contains_erase`: single registers;
* `RegisterSet.contains_union`, `contains_inter`, `contains_diff`: two sets;
* `RegisterSet.bits_eq`: **the lowest bit is cleared until all bits of a mask are found**;
* `RegisterSet.first?_eq_some_iff`, `first?_eq_none_iff`: the lowest member that is not excluded;
* `RegisterSet.Made`: **the sets that the operations make**, and the sets they stand for;
* `RegisterSet.Made.represents`: **every operation and every search is that of a finite set**.
-/

namespace Codegen

/-- A register comes before those of later banks, and before the higher ones of its bank. -/
def Register.Before (a b : Register) : Prop := a.bank < b.bank ∨ a.bank = b.bank ∧ a.id < b.id

namespace RegisterSet

/-! ## Masks -/

theorem isStorable_iff {r : Register} : r.isStorable = true ↔ r.bank < 4 ∧ r.id < 64 := by
  rw [Register.isStorable, Bool.and_eq_true, decide_eq_true_iff, decide_eq_true_iff]
  rfl

theorem mask_eq (s : RegisterSet) (b : Nat) :
    s.mask b = if h : b < 4 then s.masks[b] else 0 := by
  unfold mask Vector.getD
  split
  next h => simp [Array.getD, h]
  next h => simp [Array.getD, h]

@[simp]
theorem mask_empty (b : Nat) : empty.mask b = 0 := by
  rw [mask_eq]
  split <;> simp [empty]

theorem getLsbD_bit {i j : Nat} : (bit i).getLsbD j = (decide (j < 64) && decide (j = i)) := by
  unfold bit
  rw [BitVec.getLsbD_shiftLeft]
  by_cases hj : j < 64
  · by_cases hi : j = i
    · subst hi
      simp [hj]
    · by_cases hlt : j < i
      · simp [hlt, hi]
      · have : j - i ≠ 0 := by omega
        simp [hj, hi, hlt, this]
  · simp [hj]

theorem mask_setIfInBounds {s : RegisterSet} {b c : Nat} {m : BitVec 64} (hb : b < 4) :
    (RegisterSet.mk (s.masks.setIfInBounds b m)).mask c = if c = b then m else s.mask c := by
  rw [mask_eq, mask_eq]
  by_cases hc : c < 4
  · simp only [hc, dite_true, Vector.getElem_setIfInBounds]
    simp [eq_comm]
  · have : c ≠ b := by omega
    simp [hc, this]

@[simp]
theorem contains_empty (r : Register) : empty.contains r = false := by
  simp [contains]

@[simp]
theorem contains_clear (s : RegisterSet) (r : Register) : s.clear.contains r = false :=
  contains_empty r

theorem isStorable_of_contains {s : RegisterSet} {r : Register} (h : s.contains r = true) :
    r.isStorable = true := by
  simp only [contains, Bool.and_eq_true] at h
  exact h.1

/-! ## Single registers -/

theorem contains_insert (s : RegisterSet) (r q : Register) :
    (s.insert r).contains q = (s.contains q || (decide (q = r) && r.isStorable)) := by
  obtain ⟨b, i⟩ := r
  obtain ⟨c, j⟩ := q
  unfold insert
  split
  next hr =>
    have hb := isStorable_iff.mp hr
    simp only [contains, mask_setIfInBounds hb.1, hr, Register.mk.injEq, Bool.and_true]
    by_cases hcb : c = b
    · subst hcb
      by_cases hji : j = i
      · subst hji
        simp [hr, getLsbD_bit, hb.2]
      · simp [getLsbD_bit, hji]
    · simp [hcb]
  next hr => simp [hr]

theorem contains_erase (s : RegisterSet) (r q : Register) :
    (s.erase r).contains q = (s.contains q && decide (q ≠ r)) := by
  obtain ⟨b, i⟩ := r
  obtain ⟨c, j⟩ := q
  unfold erase
  split
  next hr =>
    have hb := isStorable_iff.mp hr
    simp only [contains, mask_setIfInBounds hb.1, ne_eq, Register.mk.injEq]
    by_cases hcb : c = b
    · subst hcb
      by_cases hj : j < 64
      · simp only [if_true, BitVec.getLsbD_and, BitVec.getLsbD_not, getLsbD_bit, hj]
        by_cases hji : j = i <;> simp [hji]
      · simp [Register.isStorable, Register.bankSize, hj]
    · simp [hcb]
  next hr =>
    by_cases hq : Register.mk c j = ⟨b, i⟩
    · rw [hq]
      simp [contains, hr]
    · simp [hq]

@[simp]
theorem contains_insert_self {s : RegisterSet} {r : Register} (h : r.isStorable = true) :
    (s.insert r).contains r = true := by
  simp [contains_insert, h]

@[simp]
theorem contains_erase_self (s : RegisterSet) (r : Register) :
    (s.erase r).contains r = false := by
  simp [contains_erase]

theorem contains_erase_of_ne {s : RegisterSet} {r q : Register} (h : q ≠ r) :
    (s.erase r).contains q = s.contains q := by
  simp [contains_erase, h]

theorem contains_ofList (rs : List Register) (q : Register) :
    (ofList rs).contains q = (decide (q ∈ rs) && q.isStorable) := by
  have key : ∀ (rs : List Register) (s : RegisterSet),
      (rs.foldl insert s).contains q = (s.contains q || (decide (q ∈ rs) && q.isStorable)) := by
    intro rs
    induction rs with
    | nil => simp
    | cons r rs ih =>
      intro s
      rw [List.foldl_cons, ih, contains_insert]
      by_cases hq : q = r
      · subst hq
        cases q.isStorable <;> simp
      · simp [hq]
  simpa [ofList] using key rs empty

/-! ## Two sets -/

section Algebra

variable (s t : RegisterSet) (r : Register)

theorem mask_zipWith (f : BitVec 64 → BitVec 64 → BitVec 64) (h : f 0 0 = 0) (b : Nat) :
    (RegisterSet.mk (s.masks.zipWith f t.masks)).mask b = f (s.mask b) (t.mask b) := by
  rw [mask_eq, mask_eq, mask_eq]
  split
  · simp
  · exact h.symm

theorem contains_union : (s.union t).contains r = (s.contains r || t.contains r) := by
  have h : (s.union t).mask r.bank = s.mask r.bank ||| t.mask r.bank :=
    mask_zipWith s t _ (by simp) _
  simp [contains, h, Bool.and_or_distrib_left]

theorem contains_inter : (s.inter t).contains r = (s.contains r && t.contains r) := by
  have h : (s.inter t).mask r.bank = s.mask r.bank &&& t.mask r.bank :=
    mask_zipWith s t _ (by simp) _
  simp only [contains, h, BitVec.getLsbD_and]
  cases r.isStorable <;> simp

theorem contains_diff : (s.diff t).contains r = (s.contains r && !t.contains r) := by
  have h : (s.diff t).mask r.bank = s.mask r.bank &&& ~~~ t.mask r.bank :=
    mask_zipWith s t _ (by simp) _
  cases hr : r.isStorable
  · simp [contains, hr]
  · have := (isStorable_iff.mp hr).2
    simp [contains, h, hr, this]

end Algebra

theorem contains_firstOfBank {b n : Nat} {w : RegisterSet} (h : firstOfBank? b n = some w)
    (r : Register) :
    w.contains r = (r.isStorable && decide (r.bank = b) && decide (r.id < n)) := by
  unfold firstOfBank? at h
  split at h
  next hb =>
    obtain rfl := Option.some.inj h
    unfold contains
    rw [mask_setIfInBounds hb]
    cases hr : r.isStorable
    · simp
    · have hi := (isStorable_iff.mp hr).2
      by_cases hrb : r.bank = b
      · have key : ∀ m : Nat, m < 64 → (bit m - 1#64).getLsbD r.id = decide (r.id < m) := by
          intro m hm
          have hp : 2 ^ m < 2 ^ 64 := Nat.pow_lt_pow_right (by omega) hm
          have hbit : (bit m - 1#64) = BitVec.ofNat 64 (2 ^ m - 1) := by
            apply BitVec.eq_of_toNat_eq
            have hpos : 0 < 2 ^ m := Nat.two_pow_pos m
            simp only [bit, BitVec.toNat_sub, BitVec.toNat_shiftLeft, BitVec.toNat_ofNat,
              Nat.shiftLeft_eq]
            omega
          rw [hbit, BitVec.getLsbD_ofNat, Nat.testBit_two_pow_sub_one]
          simp [hi]
        simp only [hrb, if_true, Bool.true_and, decide_true]
        split
        next hn => exact key n hn
        next hn =>
          have : r.id < n := by omega
          rw [BitVec.getLsbD_allOnes]
          simp [hi, this]
      · simp [hrb]
  next => simp at h

/-! ## The bits of a mask -/

section Bits

variable {m : BitVec 64} {fuel : Nat}

theorem exists_above (h : m ≠ 0) :
    ∃ q, m.toNat = 2 ^ (m.ctz.toNat + 1) * q + 2 ^ m.ctz.toNat := by
  have hlow : m.toNat % 2 ^ (m.ctz.toNat + 1) = 2 ^ m.ctz.toNat := by
    refine Nat.eq_of_testBit_eq fun i => ?_
    rw [Nat.testBit_mod_two_pow, Nat.testBit_two_pow, BitVec.testBit_toNat]
    rcases Nat.lt_trichotomy i m.ctz.toNat with hi | rfl | hi
    · simp [BitVec.getLsbD_false_of_lt_ctz hi, Nat.ne_of_gt hi]
    · simp [BitVec.getLsbD_true_ctz_of_ne_zero h]
    · simp [Nat.not_lt.mpr hi, Nat.ne_of_lt hi]
  exact ⟨m.toNat / 2 ^ (m.ctz.toNat + 1), by rw [← hlow, Nat.div_add_mod]⟩

/-- **What a mask has in common with the number before it** is all but its lowest bit. -/
theorem getLsbD_and_sub_one (h : m ≠ 0) (i : Nat) :
    (m &&& (m - 1#64)).getLsbD i = (m.getLsbD i && decide (i ≠ m.ctz.toNat)) := by
  obtain ⟨q, hq⟩ := exists_above h
  have hpos : 0 < 2 ^ m.ctz.toNat := Nat.two_pow_pos _
  have hlt : 2 ^ m.ctz.toNat < 2 ^ (m.ctz.toNat + 1) := Nat.pow_lt_pow_right (by omega) (by omega)
  have hsub : (m - 1#64).toNat = 2 ^ (m.ctz.toNat + 1) * q + (2 ^ m.ctz.toNat - 1) := by
    rw [BitVec.toNat_sub_of_le (by rw [BitVec.le_def]; simp; omega), BitVec.toNat_ofNat]
    omega
  rw [BitVec.getLsbD_and, ← BitVec.testBit_toNat, ← BitVec.testBit_toNat, hsub,
    Nat.testBit_two_pow_mul_add q (by omega)]
  rcases Nat.lt_trichotomy i m.ctz.toNat with hi | rfl | hi
  · rw [BitVec.testBit_toNat, BitVec.getLsbD_false_of_lt_ctz hi]
    simp
  · simp [Nat.testBit_two_pow_sub_one]
  · have hi' : ¬ i < m.ctz.toNat + 1 := Nat.not_lt.mpr hi
    rw [hq, Nat.testBit_two_pow_mul_add q hlt, if_neg hi', if_neg hi']
    simp [Nat.ne_of_gt hi]

/-- The places at which a mask has a bit. -/
def places (m : BitVec 64) : List Nat := (List.range 64).filter (m.getLsbD ·)

theorem length_places_le (m : BitVec 64) : (places m).length ≤ 64 :=
  Nat.le_trans (List.length_filter_le ..) (Nat.le_of_eq List.length_range)

theorem places_eq_cons (h : m ≠ 0) : places m = m.ctz.toNat :: places (m &&& (m - 1#64)) := by
  have hbit := BitVec.getLsbD_true_ctz_of_ne_zero h
  have hlt : m.ctz.toNat < 64 := BitVec.lt_of_getLsbD hbit
  have hsplit : List.range 64 = List.range m.ctz.toNat ++
      m.ctz.toNat :: List.range' (m.ctz.toNat + 1) (63 - m.ctz.toNat) := by
    have hadd : 64 = m.ctz.toNat + (63 - m.ctz.toNat + 1) := by omega
    have happend := List.range'_append_1 (s := 0) (m := m.ctz.toNat) (n := 63 - m.ctz.toNat + 1)
    rw [Nat.zero_add, ← hadd] at happend
    rw [← List.range'_succ, List.range_eq_range', List.range_eq_range', happend]
  have hlow (m' : BitVec 64) (hm : ∀ i < m.ctz.toNat, m'.getLsbD i = false) :
      (List.range m.ctz.toNat).filter (m'.getLsbD ·) = [] := by
    simpa using hm
  rw [places, places, hsplit, List.filter_append, List.filter_append,
    hlow m fun i => BitVec.getLsbD_false_of_lt_ctz,
    hlow _ fun i hi => by rw [getLsbD_and_sub_one h, BitVec.getLsbD_false_of_lt_ctz hi]; rfl,
    List.filter_cons_of_pos hbit, List.filter_cons_of_neg (by simp [getLsbD_and_sub_one h])]
  simp only [List.nil_append]
  congr 1
  refine List.filter_congr fun i hi => ?_
  have hne : i ≠ m.ctz.toNat := Nat.ne_of_gt (List.mem_range'_1.mp hi).1
  simp [getLsbD_and_sub_one h, hne]

/-- **The bits of a mask are found in order**, each once. -/
theorem bits_eq (hf : (places m).length ≤ fuel) : bits fuel m = places m := by
  induction fuel generalizing m with
  | zero => rw [bits, List.length_eq_zero_iff.mp (Nat.le_zero.mp hf)]
  | succ fuel ih =>
    rw [bits]
    split
    next h => simp [h, places]
    next h =>
      rw [places_eq_cons h, List.length_cons] at hf
      rw [places_eq_cons h, ih (Nat.le_of_succ_le_succ hf)]

theorem toNat_cpop (m : BitVec 64) : m.cpop.toNat = (places m).length := by
  have hcount (n : Nat) : m.cpopNatRec n 0 = ((List.range n).filter (m.getLsbD ·)).length := by
    induction n with
    | zero => rfl
    | succ n ih =>
      rw [BitVec.cpopNatRec_succ, BitVec.cpopNatRec_add, ih, List.range_succ, List.filter_append,
        List.length_append]
      cases h : m.getLsbD n <;> simp [h]
  rw [BitVec.toNat_cpop, hcount, places]

end Bits

/-! ## Search -/

theorem ids_eq (s : RegisterSet) (b : Nat) : s.ids b = places (s.mask b) :=
  bits_eq (length_places_le _)

theorem count_eq (s : RegisterSet) (b : Nat) : s.count b = (s.ids b).length := by
  rw [count, toNat_cpop, ids_eq]

theorem first?_eq (s ex : RegisterSet) (b : Nat) : s.first? b ex = ((s.diff ex).ids b).head? := by
  have hmask : (s.diff ex).mask b = s.mask b &&& ~~~ ex.mask b :=
    mask_zipWith s ex _ (by simp) b
  rw [first?, ids, hmask, Register.bankSize, bits]
  split <;> rfl

theorem mem_ids {s : RegisterSet} {b i : Nat} : i ∈ s.ids b ↔ s.contains ⟨b, i⟩ = true := by
  rw [ids_eq, places, List.mem_filter, List.mem_range, contains, Bool.and_eq_true, isStorable_iff]
  by_cases hb : b < 4
  · simp [hb]
  · simp [mask_eq, hb]

theorem first?_eq_some_iff {s ex : RegisterSet} {b i : Nat} :
    s.first? b ex = some i ↔
      (s.contains ⟨b, i⟩ = true ∧ ex.contains ⟨b, i⟩ = false) ∧
        ∀ j < i, s.contains ⟨b, j⟩ = true → ex.contains ⟨b, j⟩ = true := by
  have member (j : Nat) : j < 64 → (((s.diff ex).mask b).getLsbD j = true ↔
      s.contains ⟨b, j⟩ = true ∧ ex.contains ⟨b, j⟩ = false) := by
    intro hj
    have h := mem_ids (s := s.diff ex) (b := b) (i := j)
    rw [ids_eq, places, List.mem_filter, contains_diff] at h
    simpa [hj] using h
  rw [first?_eq, ids_eq, places, List.head?_filter, List.find?_range_eq_some]
  constructor
  · rintro ⟨hi, hlt, hleast⟩
    have hi64 : i < 64 := List.mem_range.mp hlt
    refine ⟨(member i hi64).mp hi, fun j hj hsj => ?_⟩
    by_contra hex
    have := hleast j hj
    simp [(member j (by omega)).mpr ⟨hsj, by simpa using hex⟩] at this
  · rintro ⟨⟨hi, hex⟩, hleast⟩
    have hi64 : i < 64 := (isStorable_iff.mp (isStorable_of_contains hi)).2
    refine ⟨(member i hi64).mpr ⟨hi, hex⟩, List.mem_range.mpr hi64, fun j hj => ?_⟩
    by_contra hj'
    obtain ⟨h1, h2⟩ := (member j (by omega)).mp (by simpa using hj')
    simp [hleast j hj h1] at h2

theorem first?_eq_none_iff {s ex : RegisterSet} {b : Nat} :
    s.first? b ex = none ↔ ∀ i, s.contains ⟨b, i⟩ = true → ex.contains ⟨b, i⟩ = true := by
  rw [first?_eq, List.head?_eq_none_iff, List.eq_nil_iff_forall_not_mem]
  simp only [mem_ids, contains_diff]
  simp

variable {s t : RegisterSet} {A B : Set Register} {r : Register} {b i : Nat}

/-! ## Members as a list -/

theorem ids_pairwise (s : RegisterSet) (b : Nat) : (s.ids b).Pairwise (· < ·) := by
  rw [ids_eq]
  exact List.pairwise_lt_range.filter _

theorem mem_toList : r ∈ s.toList ↔ s.contains r = true := by
  rw [toList, List.mem_flatMap]
  constructor
  · rintro ⟨b, -, hr⟩
    obtain ⟨i, hi, rfl⟩ := List.mem_map.mp hr
    exact mem_ids.mp hi
  · intro hr
    have hb := (isStorable_iff.mp (isStorable_of_contains hr)).1
    exact ⟨r.bank, List.mem_range.mpr hb, List.mem_map.mpr ⟨r.id, mem_ids.mpr hr, rfl⟩⟩

/-- **The members are listed in ascending order**, each once. -/
theorem toList_pairwise (s : RegisterSet) : s.toList.Pairwise Register.Before := by
  rw [toList, List.pairwise_flatMap]
  constructor
  · intro b _
    exact List.pairwise_map.mpr ((s.ids_pairwise b).imp fun h => .inr ⟨rfl, h⟩)
  · refine List.pairwise_lt_range.imp fun {b c} hbc x hx y hy => ?_
    obtain ⟨i, -, rfl⟩ := List.mem_map.mp hx
    obtain ⟨j, -, rfl⟩ := List.mem_map.mp hy
    exact .inl hbc

/-! ## Equal sets -/

/-- **Sets of registers with the same members are equal.** -/
theorem ext_contains (h : ∀ r, s.contains r = t.contains r) : s = t := by
  obtain ⟨ms⟩ := s
  obtain ⟨mt⟩ := t
  congr 1
  refine Vector.ext fun b hb => BitVec.eq_of_getLsbD_eq fun i hi => ?_
  have hr : (Register.mk b i).isStorable = true := isStorable_iff.mpr ⟨hb, hi⟩
  simpa [contains, hr, mask_eq, hb] using h ⟨b, i⟩

theorem ofList_toList (s : RegisterSet) : ofList s.toList = s := by
  refine ext_contains fun r => ?_
  rw [contains_ofList, Bool.eq_iff_iff, Bool.and_eq_true, decide_eq_true_iff, mem_toList]
  exact and_iff_left_of_imp isStorable_of_contains

/-- **The count of a bank is the number of its members.** -/
theorem count_eq_ncard (s : RegisterSet) (b : Nat) :
    s.count b = {r | s.contains r = true ∧ r.bank = b}.ncard := by
  have hmembers : {r | s.contains r = true ∧ r.bank = b} =
      ((s.ids b).map (Register.mk b)).toFinset := by
    ext ⟨c, i⟩
    simp only [Set.mem_ofPred_eq, List.coe_toFinset, List.mem_map, mem_ids, Register.mk.injEq]
    constructor
    · rintro ⟨h, rfl⟩
      exact ⟨i, h, rfl, rfl⟩
    · rintro ⟨j, h, rfl, rfl⟩
      exact ⟨h, rfl⟩
  have hnodup : ((s.ids b).map (Register.mk b)).Nodup :=
    List.Nodup.map (fun _ _ h => (Register.mk.inj h).2) ((s.ids_pairwise b).imp Nat.ne_of_lt)
  rw [hmembers, Set.ncard_coe_finset, List.toFinset_card_of_nodup hnodup, List.length_map, count_eq]

/-! ## Sets of registers as sets -/

/-- The registers that a set can hold. -/
def storable : Set Register := {r | r.bank < 4 ∧ r.id < 64}

/-- **Operations on sets of registers**, and the same operations on sets. A register that no set
can hold is ignored; what is cleared is empty again. -/
inductive Made : RegisterSet → Set Register → Prop
  | empty : Made .empty ∅
  | clear {s : RegisterSet} {A : Set Register} (h : Made s A) : Made s.clear ∅
  | insert {s : RegisterSet} {A : Set Register} (h : Made s A) (r : Register) :
    Made (s.insert r) (A ∪ {r} ∩ storable)
  | erase {s : RegisterSet} {A : Set Register} (h : Made s A) (r : Register) :
    Made (s.erase r) (A \ {r})
  | union {s t : RegisterSet} {A B : Set Register} (h : Made s A) (h' : Made t B) :
    Made (s.union t) (A ∪ B)
  | inter {s t : RegisterSet} {A B : Set Register} (h : Made s A) (h' : Made t B) :
    Made (s.inter t) (A ∩ B)
  | firstOfBank {s : RegisterSet} {b n : Nat} (h : firstOfBank? b n = some s) :
    Made s {r ∈ storable | r.bank = b ∧ r.id < n}

/-- **Every operation does to the members what it does to the set.** -/
theorem Made.contains_iff (h : Made s A) : s.contains r = true ↔ r ∈ A := by
  induction h with
  | empty => simp
  | clear => simp
  | @insert s A _ q ih =>
    rw [contains_insert, Bool.or_eq_true, ih, Bool.and_eq_true, decide_eq_true_iff]
    constructor
    · rintro (h | ⟨rfl, h⟩)
      · exact .inl h
      · exact .inr ⟨rfl, isStorable_iff.mp h⟩
    · rintro (h | ⟨rfl, h⟩)
      · exact .inl h
      · exact .inr ⟨rfl, isStorable_iff.mpr h⟩
  | erase _ q ih => simp [contains_erase, ih]
  | union _ _ ih ih' => simp [contains_union, ih, ih']
  | inter _ _ ih ih' => simp [contains_inter, ih, ih']
  | firstOfBank h =>
    rw [contains_firstOfBank h, Bool.and_eq_true, Bool.and_eq_true, decide_eq_true_iff,
      decide_eq_true_iff, and_assoc]
    exact and_congr_left fun _ => isStorable_iff

theorem exists_firstOfBank (hb : b < 4) (n : Nat) : ∃ s, firstOfBank? b n = some s :=
  ⟨_, if_pos hb⟩

theorem Made.subset_storable (h : Made s A) : A ⊆ storable := fun _ hr =>
  isStorable_iff.mp (isStorable_of_contains (h.contains_iff.mpr hr))

theorem Made.first?_eq_some_iff {ex : RegisterSet} (h : Made s A) (hex : Made ex B) :
    s.first? b ex = some i ↔ IsLeast {j | ⟨b, j⟩ ∈ A \ B} i := by
  have excluded (j : Nat) : ex.contains ⟨b, j⟩ = false ↔ ⟨b, j⟩ ∉ B := by
    rw [← hex.contains_iff, Bool.not_eq_true]
  rw [RegisterSet.first?_eq_some_iff, h.contains_iff, excluded]
  refine and_congr_right fun _ => ⟨fun hleast j hj => ?_, fun hleast j hj hs => ?_⟩
  · by_contra hji
    exact hj.2 (hex.contains_iff.mp (hleast j (Nat.lt_of_not_le hji) (h.contains_iff.mpr hj.1)))
  · by_contra hjx
    exact Nat.not_le.mpr hj
      (hleast ⟨h.contains_iff.mp hs, (excluded j).mp (Bool.not_eq_true _ ▸ hjx)⟩)

theorem Made.first?_eq_none_iff {ex : RegisterSet} (h : Made s A) (hex : Made ex B) :
    s.first? b ex = none ↔ ∀ j, ⟨b, j⟩ ∉ A \ B := by
  rw [RegisterSet.first?_eq_none_iff]
  simp [h.contains_iff, hex.contains_iff]

/-- **A set of registers is a finite set.** Whatever operations made it, its members are those of
the set that the same operations make; it lists them once each, in ascending order, counts those of
a bank, is made again from its list, and finds the lowest of a bank that another set does not have.
The first registers of any bank below the fourth can be had. -/
theorem Made.represents (h : Made s A) :
    ((∀ r, s.contains r = true ↔ r ∈ A) ∧ A ⊆ storable) ∧
      (s.toList.Pairwise Register.Before ∧ ∀ r, r ∈ s.toList ↔ r ∈ A) ∧
      (∀ b, s.count b = {r ∈ A | r.bank = b}.ncard) ∧
      ofList s.toList = s ∧
      (∀ (b : Nat) (ex : RegisterSet) (B : Set Register), Made ex B →
        (∀ i, s.first? b ex = some i ↔ IsLeast {j | ⟨b, j⟩ ∈ A \ B} i) ∧
          (s.first? b ex = none ↔ ∀ j, ⟨b, j⟩ ∉ A \ B)) ∧
      ∀ b < 4, ∀ n, ∃ w, firstOfBank? b n = some w := by
  refine ⟨⟨fun _ => h.contains_iff, h.subset_storable⟩,
    ⟨s.toList_pairwise, fun _ => mem_toList.trans h.contains_iff⟩, fun b => ?_, s.ofList_toList,
    fun b ex B hex => ⟨fun _ => h.first?_eq_some_iff hex, h.first?_eq_none_iff hex⟩,
    fun b hb n => exists_firstOfBank hb n⟩
  rw [count_eq_ncard]
  simp only [h.contains_iff]

/-- The first three registers of the second bank and two more, one of which no set can hold,
without the second one of them: the lowest besides the first is the third. -/
theorem made_of_bank :
    ∃ s, Made s (({r ∈ storable | r.bank = 1 ∧ r.id < 3} ∪ {⟨0, 63⟩} ∩ storable ∪
        {⟨0, 64⟩} ∩ storable) \ {⟨1, 1⟩}) ∧
      s.toList = [⟨0, 63⟩, ⟨1, 0⟩, ⟨1, 2⟩] ∧ s.contains ⟨0, 64⟩ = false ∧ s.count 1 = 2 ∧
      s.first? 1 (.ofList [⟨1, 0⟩]) = some 2 ∧ ofList s.toList = s := by
  obtain ⟨w, hw⟩ := exists_firstOfBank (b := 1) (by decide) 3
  have hmade := (((Made.firstOfBank hw).insert ⟨0, 63⟩).insert ⟨0, 64⟩).erase ⟨1, 1⟩
  obtain rfl : _ = w := Option.some.inj hw
  exact ⟨_, hmade, by decide +kernel, by decide +kernel, by decide +kernel, by decide +kernel,
    (Made.represents hmade).2.2.2.1⟩

end RegisterSet

end Codegen
