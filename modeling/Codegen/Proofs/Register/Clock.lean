import Codegen.Proofs.Register.Apart
import Mathlib.Data.List.Nodup
import Mathlib.Data.List.Perm.Basic
import Mathlib.Data.List.Rotate
import Mathlib.Data.Nat.Find
import Mathlib.Data.Nat.ModEq

/-!
# The clock goes round

The registers of a bank stand in a ring, and the clock of the bank points at one of them. A search
takes the first one from the clock on that may be evicted, and leaves the clock right behind it. So
the registers that may be evicted wait in a queue: the first one is found and goes to the end.

* `RegisterFile.fromClock`, `RegisterFile.IsNext`: the ring, seen from the clock;
* `sweep_eq_of_first`, `sweep_eq_of_none`: where a sweep stops;
* `evictable?_cases`: **what a search finds, and what it changes**;
* `RegisterFile.queue`, `queue_evictable?`: a search turns the queue by one place;
* `RegisterFile.evictions`, `evictions_eq_take`: **the queue is found from its head on**;
* `ClocksInside`, `ClocksInside.run`: behind every run of requests, the clocks point into the ring;
* `evictions_fair`: **each register that may be evicted is found once in a turn**.
-/

namespace Codegen.RegisterFile

/-! ## The ring -/

/-- The register that stands that many places behind the clock of the bank. -/
def fromClock (f : RegisterFile) (b k : Nat) : Register := ⟨b, (f.clocks.getD b 0 + k) % f.width⟩

/-- From the clock on, the register is the first one of its bank that may be evicted. -/
def IsNext (f : RegisterFile) (b : Nat) (ex : RegisterSet) (r : Register) : Prop :=
  ∃ k < f.width, r = f.fromClock b k ∧ f.isEvictable ex r = true ∧
    ∀ j < k, f.isEvictable ex (f.fromClock b j) = false

/-- The clock of every bank points at a register of the bank. -/
def ClocksInside (f : RegisterFile) : Prop := 0 < f.width → ∀ b < 4, f.clocks.getD b 0 < f.width

/-- The registers of a bank, as the clock meets them. -/
def ring (f : RegisterFile) (b : Nat) : List Register := (List.range f.width).map (f.fromClock b)

/-- The registers of a bank that may be evicted, as the clock meets them. -/
def queue (f : RegisterFile) (b : Nat) (ex : RegisterSet) : List Register :=
  (f.ring b).filter (f.isEvictable ex)

/-- The registers of a bank that may be evicted, the lowest one first. -/
def candidates (f : RegisterFile) (b : Nat) (ex : RegisterSet) : List Register :=
  ((List.range f.width).map (Register.mk b)).filter (f.isEvictable ex)

/-- What that many searches find, one after the other. -/
def evictions (f : RegisterFile) (b : Nat) (ex : RegisterSet) : Nat → List (Option Register)
  | 0 => []
  | n + 1 => (f.evictable? b ex).1 :: (f.evictable? b ex).2.evictions b ex n

variable {f g : RegisterFile} {r : Register} {v : ValueId} {b n k c w : Nat} {ex : RegisterSet}

theorem succ_mod_add (c j w : Nat) : ((c + 1) % w + j) % w = (c + (j + 1)) % w := by
  rw [Nat.mod_add_mod, Nat.add_assoc, Nat.add_comm 1 j]

theorem bank_lt_of_isEvictable (h : f.isEvictable ex r = true) : r.bank < 4 := by
  simp only [isEvictable, Bool.and_eq_true] at h
  exact (RegisterSet.isStorable_iff.mp (RegisterSet.isStorable_of_contains h.1.1.1)).1

@[simp] theorem length_ring : (f.ring b).length = f.width := by simp [ring]

theorem mem_ring : r ∈ f.ring b ↔ r.bank = b ∧ r.id < f.width := by
  simp only [ring, List.mem_map, List.mem_range, fromClock]
  constructor
  · rintro ⟨k, hk, rfl⟩
    exact ⟨rfl, Nat.mod_lt _ (by omega)⟩
  · rintro ⟨rfl, hr⟩
    obtain ⟨k, hk, hi⟩ := exists_clock_step (c := f.clocks.getD r.bank 0) hr
    exact ⟨k, hk, by rw [hi]⟩

theorem nodup_ring : (f.ring b).Nodup := by
  refine List.Nodup.map_on (fun i hi j hj h => ?_) List.nodup_range
  have hmod : i % f.width = j % f.width :=
    Nat.ModEq.add_left_cancel' (f.clocks.getD b 0) (congrArg Register.id h)
  rwa [Nat.mod_eq_of_lt (List.mem_range.mp hi), Nat.mod_eq_of_lt (List.mem_range.mp hj)] at hmod

theorem mem_candidates :
    r ∈ f.candidates b ex ↔ r.bank = b ∧ r.id < f.width ∧ f.isEvictable ex r = true := by
  simp only [candidates, List.mem_filter, List.mem_map, List.mem_range]
  constructor
  · rintro ⟨⟨i, hi, rfl⟩, hev⟩
    exact ⟨rfl, hi, hev⟩
  · rintro ⟨rfl, hi, hev⟩
    exact ⟨⟨_, hi, rfl⟩, hev⟩

theorem nodup_candidates : (f.candidates b ex).Nodup := by
  refine List.Nodup.filter _ (List.Nodup.map_on (fun i _ j _ h => ?_) List.nodup_range)
  exact congrArg Register.id h

theorem queue_perm : (f.queue b ex).Perm (f.candidates b ex) := by
  refine (List.perm_ext_iff_of_nodup (nodup_ring.filter _) nodup_candidates).mpr fun r => ?_
  rw [List.mem_filter, mem_ring, mem_candidates, and_assoc]

/-! ## A sweep -/

theorem sweep_eq_of_first (hk : k < n) (hc : c < f.width)
    (hev : f.isEvictable ex ⟨b, (c + k) % f.width⟩ = true)
    (hleast : ∀ j < k, f.isEvictable ex ⟨b, (c + j) % f.width⟩ = false) :
    f.sweep b ex n c = (some ⟨b, (c + k) % f.width⟩, (c + k + 1) % f.width) := by
  induction n generalizing c k with
  | zero => omega
  | succ n ih =>
    rw [sweep]
    cases k with
    | zero =>
      have hhere : (c + 0) % f.width = c := Nat.mod_eq_of_lt hc
      rw [hhere] at hev ⊢
      exact if_pos hev
    | succ k =>
      have hhead := hleast 0 (by omega)
      rw [Nat.add_zero, Nat.mod_eq_of_lt hc] at hhead
      have hrest := ih (c := (c + 1) % f.width) (k := k) (by omega) (Nat.mod_lt _ (by omega))
        (by rwa [succ_mod_add]) fun j hj => by
          rw [succ_mod_add]
          exact hleast (j + 1) (by omega)
      rw [if_neg (by simp [hhead]), hrest, Nat.add_assoc, succ_mod_add, succ_mod_add]
      rfl

theorem sweep_eq_of_none (hc : c < f.width)
    (hnone : ∀ j < n, f.isEvictable ex ⟨b, (c + j) % f.width⟩ = false) :
    f.sweep b ex n c = (none, (c + n) % f.width) := by
  induction n generalizing c with
  | zero => rw [sweep, Nat.add_zero, Nat.mod_eq_of_lt hc]
  | succ n ih =>
    have hhead := hnone 0 (by omega)
    rw [Nat.add_zero, Nat.mod_eq_of_lt hc] at hhead
    have hrest := ih (c := (c + 1) % f.width) (Nat.mod_lt _ (by omega)) fun j hj => by
      rw [succ_mod_add]
      exact hnone (j + 1) (by omega)
    rw [sweep, if_neg (by simp [hhead]), hrest, succ_mod_add]

/-! ## A search -/

/-- The file with the clock of a bank on that register. -/
def withClock (f : RegisterFile) (b c : Nat) : RegisterFile :=
  { f with clocks := f.clocks.setIfInBounds b c }

theorem clocks_withClock (hb : b < 4) (c b' : Nat) :
    (f.withClock b c).clocks.getD b' 0 = if b' = b then c else f.clocks.getD b' 0 := by
  have := @getD_setIfInBounds Nat f.clocks.toArray b (by simpa using hb) b' c 0
  simpa [withClock, Vector.getD] using this

/-- **A search finds the first register from the clock on that may be evicted** and moves the clock
right behind it, or there is none and nothing changes. -/
theorem evictable?_cases (hf : f.ClocksInside) (b : Nat) (ex : RegisterSet) :
    (∃ k < f.width, b < 4 ∧ f.isEvictable ex (f.fromClock b k) = true ∧
      (∀ j < k, f.isEvictable ex (f.fromClock b j) = false) ∧
      f.evictable? b ex =
        (some (f.fromClock b k), f.withClock b ((f.clocks.getD b 0 + k + 1) % f.width))) ∨
    (∀ j < f.width, f.isEvictable ex (f.fromClock b j) = false) ∧
      f.evictable? b ex = (none, f) := by
  by_cases h : ∃ k, k < f.width ∧ f.isEvictable ex (f.fromClock b k) = true
  · classical
    obtain ⟨hk, hev⟩ := Nat.find_spec h
    have hleast (j : Nat) (hj : j < Nat.find h) : f.isEvictable ex (f.fromClock b j) = false :=
      Bool.eq_false_iff.mpr fun he => Nat.find_min h hj ⟨by omega, he⟩
    have hb : b < 4 := bank_lt_of_isEvictable hev
    refine .inl ⟨_, hk, hb, hev, hleast, ?_⟩
    rw [evictable?_eq hb, sweep_eq_of_first hk (hf (by omega) b hb) hev hleast]
    rfl
  · have hnone (j : Nat) (hj : j < f.width) : f.isEvictable ex (f.fromClock b j) = false :=
      Bool.eq_false_iff.mpr fun he => h ⟨j, hj, he⟩
    refine .inr ⟨hnone, ?_⟩
    by_cases hb : b < 4
    · have hclock : (f.sweep b ex f.width (f.clocks.getD b 0)) = (none, f.clocks.getD b 0) := by
        rcases Nat.eq_zero_or_pos f.width with hw | hw
        · rw [hw, sweep]
        · have hc := hf hw b hb
          rw [sweep_eq_of_none hc hnone, Nat.add_mod_right, Nat.mod_eq_of_lt hc]
      rw [evictable?_eq hb, hclock]
      have hsame : f.clocks.setIfInBounds b (f.clocks.getD b 0) = f.clocks := by
        refine Vector.ext fun i hi => ?_
        rw [Vector.getElem_setIfInBounds]
        split
        next hib =>
          subst hib
          simp [Vector.getD, hi]
        next => rfl
      rw [hsame]
    · exact if_neg hb

theorem evictable?_eq_some_iff (hf : f.ClocksInside) :
    (f.evictable? b ex).1 = some r ↔ f.IsNext b ex r := by
  rcases evictable?_cases hf b ex with ⟨k, hk, -, hev, hleast, h⟩ | ⟨hnone, h⟩
  · rw [h]
    constructor
    · intro h
      obtain rfl := Option.some.inj h
      exact ⟨k, hk, rfl, hev, hleast⟩
    · rintro ⟨i, -, rfl, hev', hleast'⟩
      obtain rfl : i = k := by
        rcases Nat.lt_trichotomy i k with h | h | h
        · exact absurd hev' (by simp [hleast i h])
        · exact h
        · exact absurd hev (by simp [hleast' k h])
      rfl
  · rw [h]
    constructor
    · intro h
      cases h
    · rintro ⟨k, hk, rfl, hev, -⟩
      exact absurd hev (by simp [hnone k hk])

theorem evictable?_eq_none_iff (hf : f.ClocksInside) : (f.evictable? b ex).1 = none ↔
    ∀ r : Register, r.bank = b → r.id < f.width → f.isEvictable ex r = false := by
  rcases evictable?_cases hf b ex with ⟨k, hk, -, hev, -, h⟩ | ⟨hnone, h⟩
  · rw [h]
    refine ⟨fun h => (by cases h), fun h => ?_⟩
    exact absurd hev (by simp [h (f.fromClock b k) rfl (Nat.mod_lt _ (by omega))])
  · refine ⟨fun _ r hb hr => ?_, fun _ => by rw [h]⟩
    obtain ⟨k, hk, rfl⟩ := List.mem_map.mp (mem_ring.mpr ⟨hb, hr⟩)
    exact hnone k (List.mem_range.mp hk)

theorem ClocksInside.evictable? (hf : f.ClocksInside) (b : Nat) (ex : RegisterSet) :
    (f.evictable? b ex).2.ClocksInside := by
  rcases evictable?_cases hf b ex with ⟨k, hk, hb, -, -, h⟩ | ⟨-, h⟩
  · intro hw b' hb'
    rw [h, clocks_withClock hb]
    split
    · exact Nat.mod_lt _ (by omega)
    · exact hf (by omega) b' hb'
  · rwa [h]

/-! ## The queue -/

theorem ring_withClock (hb : b < 4) (k : Nat) :
    (f.withClock b ((f.clocks.getD b 0 + k) % f.width)).ring b = (f.ring b).rotate k := by
  refine List.ext_getElem (by simp [withClock]) fun i hi _ => ?_
  rw [List.getElem_rotate]
  simp only [ring, List.getElem_map, List.getElem_range, List.length_map, List.length_range,
    fromClock, clocks_withClock hb, if_true, Register.mk.injEq, true_and]
  change ((f.clocks.getD b 0 + k) % f.width + i) % f.width = _
  rw [Nat.mod_add_mod, Nat.add_mod_mod, Nat.add_assoc, Nat.add_comm k i]

/-- **A search takes the head of the queue** and puts it to the end. -/
theorem queue_evictable? (hf : f.ClocksInside) {rs : List Register} (hq : f.queue b ex = r :: rs) :
    (f.evictable? b ex).1 = some r ∧ (f.evictable? b ex).2.queue b ex = rs ++ [r] := by
  rcases evictable?_cases hf b ex with ⟨k, hk, hb, hev, hleast, h⟩ | ⟨hnone, -⟩
  · have hlen : k < (f.ring b).length := by simpa using hk
    have hat : (f.ring b)[k] = f.fromClock b k := by simp [ring]
    have hfront : ((f.ring b).take k).filter (f.isEvictable ex) = [] := by
      refine List.filter_eq_nil_iff.mpr fun q hmem => ?_
      obtain ⟨j, hj, rfl⟩ := List.mem_iff_getElem.mp hmem
      rw [List.length_take] at hj
      simp [ring, hleast j (by omega)]
    have hhead : ((f.ring b).take (k + 1)).filter (f.isEvictable ex) = [f.fromClock b k] := by
      rw [← List.take_append_getElem hlen, List.filter_append, hfront, hat]
      simp [hev]
    have hqueue : f.queue b ex =
        f.fromClock b k :: ((f.ring b).drop (k + 1)).filter (f.isEvictable ex) := by
      rw [queue, ← List.take_append_drop (k + 1) (f.ring b), List.filter_append, hhead]
      simp
    obtain ⟨rfl, rfl⟩ := List.cons.inj (hqueue.symm.trans hq)
    rw [h]
    refine ⟨rfl, ?_⟩
    change List.filter (f.isEvictable ex)
      ((f.withClock b ((f.clocks.getD b 0 + (k + 1)) % f.width)).ring b) = _
    rw [ring_withClock hb, List.rotate_eq_drop_append_take (by omega), List.filter_append, hhead]
  · obtain ⟨hmem, hev⟩ := List.mem_filter.mp (hq ▸ List.mem_cons_self : r ∈ f.queue b ex)
    obtain ⟨k, hk, rfl⟩ := List.mem_map.mp hmem
    exact absurd hev (by simp [hnone k (List.mem_range.mp hk)])

/-- **As many searches as there are candidates, or fewer, find the queue** from its head on. -/
theorem evictions_eq_take (hf : f.ClocksInside) (hn : n ≤ (f.queue b ex).length) :
    f.evictions b ex n = ((f.queue b ex).take n).map some := by
  induction n generalizing f with
  | zero => rfl
  | succ n ih =>
    obtain ⟨r, rs, hq⟩ := List.exists_cons_of_length_pos (l := f.queue b ex) (by omega)
    obtain ⟨hfound, hnext⟩ := queue_evictable? hf hq
    rw [hq, List.length_cons] at hn
    rw [evictions, hfound, ih (hf.evictable? b ex) (by simp [hnext]; omega), hnext, hq,
      List.take_append_of_le_length (by omega)]
    rfl

/-- **In one turn each candidate is found once.** -/
theorem evictions_perm (hf : f.ClocksInside) :
    (f.evictions b ex (f.candidates b ex).length).Perm ((f.candidates b ex).map some) := by
  rw [← queue_perm.length_eq, evictions_eq_take hf (Nat.le_refl _), List.take_length]
  exact queue_perm.map some

/-! ## Clocks behind requests -/

section

variable {s t : State} {q : Request} {width banks : Nat} {allocatable volatile : RegisterSet}

theorem ClocksInside.congr (hf : f.ClocksInside) (hw : g.width = f.width)
    (hc : g.clocks = f.clocks) : g.ClocksInside := by
  unfold ClocksInside
  rw [hw, hc]
  exact hf

theorem clocks_assign (h : f.assign r v = .ok g) : g.clocks = f.clocks := by
  unfold assign at h
  split at h <;> cases h
  rfl

theorem clocks_release (h : f.release r = .ok g) : g.clocks = f.clocks := by
  unfold release at h
  split at h
  · cases h
  · split at h <;> cases h
    rfl

theorem clocks_lock (h : f.lock r = .ok g) : g.clocks = f.clocks := by
  unfold lock at h
  split at h
  · cases h
  · split at h
    · cases h
    · dsimp only at h
      split at h <;> cases h
      rfl

theorem clocks_unlock (h : f.unlock r = .ok g) : g.clocks = f.clocks := by
  unfold unlock at h
  split at h
  · cases h
  · split at h <;> cases h
    rfl

theorem clocksInside_reset : f.reset.ClocksInside := by
  intro hw b hb
  simpa [reset, Vector.getD, hb] using hw

/-- Only a search moves a clock, and only a reset puts them back. -/
theorem ClocksInside.perform (hs : s.file.ClocksInside) (h : s.perform q = .ok t) :
    t.file.ClocksInside := by
  have served {x : Except RegisterError RegisterFile}
      (hx : ∀ g, x = .ok g → g.width = s.file.width ∧ g.clocks = s.file.clocks)
      (h : x.map s.withFile = .ok t) : t.file.ClocksInside := by
    cases x with
    | error => cases h
    | ok g =>
      cases h
      exact hs.congr (hx g rfl).1 (hx g rfl).2
  cases q with
  | assign => exact served (fun g hg => ⟨(assign_apart hg).shape.width, clocks_assign hg⟩) h
  | release => exact served (fun g hg => ⟨(release_apart hg).shape.width, clocks_release hg⟩) h
  | lock => exact served (fun g hg => ⟨(lock_apart hg).shape.width, clocks_lock hg⟩) h
  | unlock => exact served (fun g hg => ⟨(unlock_apart hg).shape.width, clocks_unlock hg⟩) h
  | unlockAll | clobber | save =>
    cases h
    exact hs
  | evict b ex =>
    cases h
    exact hs.evictable? b ex
  | restore k =>
    rw [State.perform] at h
    split at h <;> cases h <;> exact hs
  | reset =>
    cases h
    exact clocksInside_reset

theorem ClocksInside.run (hs : s.file.ClocksInside) (qs : List Request) :
    (s.run qs).file.ClocksInside := by
  induction qs generalizing s with
  | nil => exact hs
  | cons q qs ih =>
    refine ih (s := s.step q) ?_
    unfold State.step
    cases h : s.perform q with
    | ok t => exact hs.perform h
    | error => exact hs

end

/-- **The clock misses no register and prefers none.** Behind every run of requests, whatever
registers they name, a search of a bank finds the first register from the clock on that is
allocatable, used, not locked and not excluded, and finds nothing exactly if the bank has no such
register. It moves the clock of its bank right behind what it found, and changes nothing else. As
many searches, one after the other, as there are such registers find each of them once. -/
theorem evictions_fair {width banks : Nat} {allocatable volatile : RegisterSet} {s : RegisterFile}
    (hf : ofShape? width banks allocatable volatile = some f) (qs : List Request)
    (hs : (State.run ⟨f, []⟩ qs).file = s) (b : Nat) (ex : RegisterSet) :
    s.width = width ∧
    (∀ r, (s.evictable? b ex).1 = some r ↔ s.IsNext b ex r) ∧
    ((s.evictable? b ex).1 = none ↔
      ∀ r : Register, r.bank = b → r.id < width → s.isEvictable ex r = false) ∧
    (∀ r, (s.evictable? b ex).1 = some r →
      (s.evictable? b ex).2 = s.withClock b ((r.id + 1) % width)) ∧
    ((s.evictable? b ex).1 = none → (s.evictable? b ex).2 = s) ∧
    (∀ r, r ∈ s.candidates b ex ↔ r.bank = b ∧ r.id < width ∧ s.isEvictable ex r = true) ∧
    (s.candidates b ex).Nodup ∧
    (s.evictions b ex (s.candidates b ex).length).Perm ((s.candidates b ex).map some) := by
  obtain rfl : ofShape width banks allocatable volatile = f := by
    unfold ofShape? at hf
    split at hf
    · exact Option.some.inj hf
    · cases hf
  have hwidth : s.width = width := hs ▸ (Sized.start.run qs).shape.width
  have hc : s.ClocksInside := by
    rw [← hs]
    exact ClocksInside.run
      (clocksInside_reset (f := ofShape width banks allocatable volatile)) qs
  subst hwidth
  refine ⟨rfl, fun _ => evictable?_eq_some_iff hc, evictable?_eq_none_iff hc, fun r hr => ?_,
    fun hn => ?_, fun _ => mem_candidates, nodup_candidates, evictions_perm hc⟩
  · rcases evictable?_cases hc b ex with ⟨k, -, -, -, -, h⟩ | ⟨-, h⟩
    · rw [h] at hr ⊢
      obtain rfl := Option.some.inj hr
      rw [fromClock, Nat.mod_add_mod]
    · rw [h] at hr
      cases hr
  · rcases evictable?_cases hc b ex with ⟨k, -, -, -, -, h⟩ | ⟨-, h⟩
    · rw [h] at hn
      cases hn
    · rw [h]

/-- Four values get a register each, one of them is locked, and the clock has gone past another. -/
def crowd : List Request :=
  [.assign ⟨0, 0⟩ 5, .assign ⟨0, 1⟩ 6, .assign ⟨0, 2⟩ 7, .assign ⟨0, 3⟩ 8, .lock ⟨0, 1⟩,
    .evict 0 .empty]

theorem evictions_of_crowd :
    ∃ f, ofShape? 4 2 (.ofList [⟨0, 0⟩, ⟨0, 1⟩, ⟨0, 2⟩, ⟨0, 3⟩]) .empty = some f ∧
      (State.run ⟨f, []⟩ crowd).file.candidates 0 .empty = [⟨0, 0⟩, ⟨0, 2⟩, ⟨0, 3⟩] ∧
      ((State.run ⟨f, []⟩ crowd).file.evictions 0 .empty 3).Perm
        [some ⟨0, 0⟩, some ⟨0, 2⟩, some ⟨0, 3⟩] := by
  refine ⟨_, rfl, by decide +kernel, ?_⟩
  have hf : ofShape? 4 2 (.ofList [⟨0, 0⟩, ⟨0, 1⟩, ⟨0, 2⟩, ⟨0, 3⟩]) .empty = some _ := rfl
  obtain ⟨-, -, -, -, -, -, -, h⟩ := evictions_fair hf crowd rfl 0 .empty
  rwa [show RegisterFile.candidates _ 0 .empty = [⟨0, 0⟩, ⟨0, 2⟩, ⟨0, 3⟩] by decide +kernel] at h

end Codegen.RegisterFile
