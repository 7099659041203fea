import Mathlib
import Codegen.Listing.Arm64
import Codegen.Proofs.Machine.Basic

/-!
# Immediates of arm64

A word is four parts of sixteen bits, and a move with an immediate holds one of them: `movz` writes
the lowest part and clears the others, `movk` replaces one part and keeps the others. A small word
is written with its sign, by `mov`. The lines that build a word are read back as such moves, which
then run on registers that go by their names.

* `Word.eq_of_parts`, `Word.part_withPart`: **a word is its parts**, and they are replaced one by
  one;
* `WideMove`, `WideMove.result?`: the moves, and the words that they write;
* `WideMove.ofLine?`, `WideMove.ofLine?_text`: **the move of a line**;
* `runLines?`: lines that are read as moves, one after the other;
* `WideMove.exists_run_keeping`: parts that are replaced one after the other;
* `immediateLines_exact`: **the lines of an immediate leave exactly that word in the register**.
-/

namespace Codegen

/-! ## The parts of a word -/

namespace Word

variable {a b w : Word} {j k p : Nat}

/-- The places at which the parts of a word begin. -/
def places : List Nat := [0, 16, 32, 48]

theorem mem_places : k ∈ places ↔ 16 ∣ k ∧ k < 64 := by
  simp only [places, List.mem_cons, List.not_mem_nil, or_false]
  omega

/-- The word with a part at the lowest place and nothing above it. -/
def ofPart (p : Nat) : Word := .ofBitVec (.ofNat 64 p)

/-- The word with another part at a place. -/
def withPart (w : Word) (k p : Nat) : Word :=
  .ofBitVec (w.toBitVec &&& ~~~(65535#64 <<< k) ||| BitVec.ofNat 64 p <<< k)

theorem part_lt (w : Word) (k : Nat) : part w k < 65536 :=
  Nat.mod_lt _ (Nat.zero_lt_succ 65535)

theorem testBit_part (w : Word) (k i : Nat) :
    (part w k).testBit i = (decide (i < 16) && w.toBitVec.getLsbD (k + i)) := by
  have hbits : w.pattern = w.toBitVec.toNat := rfl
  rw [part, hbits, show 65536 = 2 ^ 16 from rfl, Nat.testBit_mod_two_pow, Nat.testBit_shiftRight,
    BitVec.testBit_toNat]

/-- **A word is its parts.** -/
theorem eq_of_parts (h : ∀ k ∈ places, part a k = part b k) : a = b := by
  refine Int64.toBitVec_inj.mp (BitVec.eq_of_getLsbD_eq fun i hi => ?_)
  have hpart := h (i / 16 * 16) (mem_places.mpr ⟨Nat.dvd_mul_left .., by omega⟩)
  have hbit := congrArg (·.testBit (i % 16)) hpart
  have hlow : i % 16 < 16 := Nat.mod_lt _ (by decide)
  simpa only [testBit_part, Nat.div_add_mod', hlow, decide_true, Bool.true_and] using hbit

theorem testBit_of_ge (hp : p < 65536) {i : Nat} (hi : 16 ≤ i) : p.testBit i = false :=
  Nat.testBit_lt_two_pow (Nat.lt_of_lt_of_le hp (Nat.pow_le_pow_right Nat.zero_lt_two hi))

theorem part_ofPart (hp : p < 65536) (hj : j ∈ places) :
    part (ofPart p) j = if j = 0 then p else 0 := by
  obtain ⟨hdvd, hlt⟩ := mem_places.mp hj
  refine Nat.eq_of_testBit_eq fun i => ?_
  rw [testBit_part, ofPart, Int64.toBitVec_ofBitVec, BitVec.getLsbD_ofNat]
  split
  next h =>
    subst h
    by_cases hi : i < 16
    · simp [hi, Nat.lt_trans hi]
    · simp [hi, testBit_of_ge hp (Nat.le_of_not_lt hi)]
  next h => simp [testBit_of_ge hp (show 16 ≤ j + i by omega)]

/-- The bits of a word with another part at a place: those of the part, and around it the old
ones. -/
theorem getLsbD_withPart (w : Word) (hp : p < 65536) {i : Nat} (hi : i < 64) :
    (withPart w k p).toBitVec.getLsbD i =
      if k ≤ i ∧ i < k + 16 then p.testBit (i - k) else w.toBitVec.getLsbD i := by
  have hmask : (65535#64).getLsbD (i - k) = decide (i - k < 16) := by
    rw [BitVec.getLsbD_ofNat, show 65535 = 2 ^ 16 - 1 from rfl, Nat.testBit_two_pow_sub_one]
    simp only [show i - k < 64 by omega, decide_true, Bool.true_and]
  simp only [withPart, Int64.toBitVec_ofBitVec, BitVec.getLsbD_or, BitVec.getLsbD_and,
    BitVec.getLsbD_not, BitVec.getLsbD_shiftLeft, hmask, BitVec.getLsbD_ofNat, hi,
    show i - k < 64 by omega, decide_true, Bool.true_and]
  rcases Nat.lt_or_ge i k with hlow | hlow
  · simp [hlow, Nat.not_le.mpr hlow]
  · rcases Nat.lt_or_ge i (k + 16) with hhigh | hhigh
    · simp [hlow, Nat.not_lt.mpr hlow, hhigh, show i - k < 16 by omega]
    · simp [Nat.not_lt.mpr hlow, Nat.not_lt.mpr hhigh, show ¬ i - k < 16 by omega,
        testBit_of_ge hp (show 16 ≤ i - k by omega)]

/-- **A part is replaced, and the others stay.** -/
theorem part_withPart (w : Word) (hp : p < 65536) (hk : k ∈ places) (hj : j ∈ places) :
    part (withPart w k p) j = if j = k then p else part w j := by
  obtain ⟨hkd, hk⟩ := mem_places.mp hk
  obtain ⟨hjd, hj⟩ := mem_places.mp hj
  refine Nat.eq_of_testBit_eq fun i => ?_
  rcases Nat.lt_or_ge i 16 with hi | hi
  · rw [testBit_part, getLsbD_withPart w hp (by omega)]
    by_cases h : j = k
    · simp [h, hi]
    · have hout : ¬ (k ≤ j + i ∧ j + i < k + 16) := by omega
      simp [h, hout, testBit_part]
  · rw [testBit_of_ge (part_lt ..) hi]
    split
    · exact (testBit_of_ge hp hi).symm
    · exact (testBit_of_ge (part_lt ..) hi).symm

end Word

/-! ## Moves with an immediate -/

/-- Words by the names of the registers that hold them. -/
abbrev NamedWords := String → Word

/-- A move with an immediate, to the register of a name. -/
inductive WideMove
  /-- Writes an integer with its sign. -/
  | signed (destination : String) (value : Int)
  /-- Writes the lowest part and clears the others. -/
  | clearing (destination : String) (part : Nat)
  /-- Replaces the part at a place and keeps the others. -/
  | keeping (destination : String) (part place : Nat)
deriving DecidableEq

namespace WideMove

/-- The name of the register that is written. -/
def destination : WideMove → String
  | signed d _ | clearing d _ | keeping d _ _ => d

/-- The part that the move holds, if it holds one. -/
def part? : WideMove → Option Nat
  | signed .. => none
  | clearing _ p | keeping _ p _ => some p

/-- The place of the part that the move replaces, if it replaces one. -/
def place? : WideMove → Option Nat
  | keeping _ _ k => some k
  | signed .. | clearing .. => none

/-- Does the move write an integer with its sign? -/
def isSigned : WideMove → Bool
  | signed .. => true
  | clearing .. | keeping .. => false

/-- The word that the move leaves in a register, if there is such an operation: parts have sixteen
bits, and they begin at their places. -/
def result? (old : Word) : WideMove → Option Word
  | signed _ v => Word.ofInt? v
  | clearing _ p => if p < 65536 then some (Word.ofPart p) else none
  | keeping _ p k =>
    if p < 65536 ∧ k ∈ Word.places then some (Word.withPart old k p) else none

/-- One move: the registers after it. -/
def perform? (m : WideMove) (b : NamedWords) : Option NamedWords :=
  (m.result? (b m.destination)).map (Function.update b m.destination)

/-- Moves one after the other. -/
def run? (ms : List WideMove) (b : NamedWords) : Option NamedWords :=
  ms.foldlM (fun b m => m.perform? b) b

/-! ## Lines -/

/-- The mnemonic of a line and its operands, which commas separate. -/
def fieldsOf (line : String) : String × List String :=
  let (mnemonic, operands) := line.toList.span (· != ' ')
  (.ofList mnemonic, (operands.splitOn ',').map fun o => .ofList (o.dropWhile (· == ' ')))

/-- The name of a register, which is of letters and digits. -/
def nameOf? (operand : String) : Option String :=
  if operand.toList.all Char.isAlphanum then some operand else none

/-- The integer of an immediate. -/
def immediateOf? (operand : String) : Option Int :=
  match operand.toList with
  | '#' :: digits => (String.ofList digits).toInt?
  | _ => none

/-- The number of an immediate that has no sign. -/
def partOf? (operand : String) : Option Nat := (immediateOf? operand).bind Int.toNat?

/-- The move of a line. -/
def ofLine? (line : String) : Option WideMove :=
  match fieldsOf line with
  | ("mov", [d, v]) => do return signed (← nameOf? d) (← immediateOf? v)
  | ("movz", [d, p]) => do return clearing (← nameOf? d) (← partOf? p)
  | ("movk", [d, p, k]) => do return keeping (← nameOf? d) (← partOf? p) (← shiftOf? k)
  | _ => none

/-- The mnemonic of a move. -/
def mnemonic : WideMove → String
  | signed .. => "mov"
  | clearing .. => "movz"
  | keeping .. => "movk"

/-- The operands of a move. -/
def operands : WideMove → List String
  | signed d v => [d, "#" ++ toString v]
  | clearing d p => [d, "#" ++ toString p]
  | keeping d p k => [d, "#" ++ toString p, "lsl #" ++ toString k]

/-- The line of a move. -/
def text (m : WideMove) : String := m.mnemonic ++ " " ++ ", ".intercalate m.operands

variable {m : WideMove} {ms : List WideMove} {d : String} {w : Word}

theorem intercalate_comma_blank {os : List (List Char)} (h : os ≠ []) :
    ' ' :: [',', ' '].intercalate os = [','].intercalate (os.map (' ' :: ·)) := by
  induction os with
  | nil => exact absurd rfl h
  | cons o os ih =>
    cases os with
    | nil => simp
    | cons o' os =>
      have ih := ih (by simp)
      simp only [List.map_cons, List.intercalate_cons_cons, List.cons_append] at ih ⊢
      rw [← ih]
      simp

/-- An operand that can be told from those around it: it has no comma, and no blank ahead. -/
structure Legible (operand : String) : Prop where
  comma : ',' ∉ operand.toList
  blank : operand.toList.head? ≠ some ' '

theorem Legible.ofList_dropWhile {o : String} (h : Legible o) :
    String.ofList ((' ' :: o.toList).dropWhile (· == ' ')) = o := by
  have hdrop : o.toList.dropWhile (· == ' ') = o.toList := by
    have hhead := h.blank
    cases hcs : o.toList with
    | nil => rfl
    | cons c cs =>
      rw [hcs] at hhead
      exact List.dropWhile_cons_of_neg (by simpa using hhead)
  rw [List.dropWhile_cons_of_pos (by decide), hdrop, String.ofList_toList]

/-- **A line is read back** as its mnemonic and its operands. -/
theorem fieldsOf_append {mnemonic : String} {os : List String} (hm : ' ' ∉ mnemonic.toList)
    (hne : os ≠ []) (hos : ∀ o ∈ os, Legible o) :
    fieldsOf (mnemonic ++ " " ++ ", ".intercalate os) = (mnemonic, os) := by
  let fields := (os.map String.toList).map (' ' :: ·)
  have hjoin : ' ' :: [',', ' '].intercalate (os.map String.toList) = [','].intercalate fields :=
    intercalate_comma_blank (by simpa using hne)
  have hline : (mnemonic ++ " " ++ ", ".intercalate os).toList =
      mnemonic.toList ++ ' ' :: [',', ' '].intercalate (os.map String.toList) := by
    rw [String.toList_append, String.toList_append, String.toList_intercalate, List.append_assoc]
    rfl
  have hword : ∀ c ∈ mnemonic.toList, (c != ' ') = true := fun c hc =>
    bne_iff_ne.mpr fun h => hm (h ▸ hc)
  have hspan : (mnemonic ++ " " ++ ", ".intercalate os).toList.span (· != ' ') =
      (mnemonic.toList, [','].intercalate fields) := by
    rw [hline, List.span_eq_takeWhile_dropWhile, List.takeWhile_append_of_pos hword,
      List.dropWhile_append_of_pos hword, ← hjoin]
    simp
  have hsplit : ([','].intercalate fields).splitOn ',' = fields :=
    List.splitOn_intercalate ',' (by simpa [fields] using fun o ho => (hos o ho).comma)
      (by simpa [fields] using hne)
  have htrim : fields.map (fun o => String.ofList (o.dropWhile (· == ' '))) = os := by
    rw [List.map_map, List.map_map]
    exact (List.map_congr_left fun o ho => (hos o ho).ofList_dropWhile).trans (List.map_id os)
  rw [fieldsOf, hspan]
  simp only [String.ofList_toList, hsplit, htrim]

theorem toString_natCast (n : Nat) : toString (n : Int) = toString n := rfl

theorem comma_notMem_toString (v : Int) : ',' ∉ (toString v).toList := by
  have hdigits (n : Nat) : ',' ∉ n.repr.toList := fun h =>
    have h : ',' ∈ Nat.toDigits 10 n := by simpa using h
    absurd (Nat.isDigit_of_mem_toDigits (by decide) (by decide) h) (by decide)
  cases v with
  | ofNat n => exact hdigits n
  | negSucc n =>
    change ',' ∉ ("-" ++ (n + 1).repr).toList
    simpa using hdigits (n + 1)

theorem legible_immediate (v : Int) : Legible ("#" ++ toString v) where
  comma := by simpa using comma_notMem_toString v
  blank := by simp

theorem legible_shift (k : Nat) : Legible ("lsl #" ++ toString k) where
  comma := by
    rw [← toString_natCast, String.toList_append, List.mem_append]
    exact fun h => h.elim (by decide) (comma_notMem_toString k)
  blank := by simp

theorem legible_of_isAlphanum {o : String} (h : o.toList.all Char.isAlphanum) : Legible o where
  comma hc := absurd (List.all_eq_true.mp h _ hc) (by decide)
  blank hb := absurd (List.all_eq_true.mp h _ (List.mem_of_head? hb)) (by decide)

theorem immediateOf?_text (v : Int) : immediateOf? ("#" ++ toString v) = some v := by
  have hchars : ("#" ++ toString v).toList = '#' :: (toString v).toList := by simp
  rw [immediateOf?, hchars]
  simp only [String.ofList_toList]
  exact Int.toInt?_repr v

theorem partOf?_text (p : Nat) : partOf? ("#" ++ toString p) = some p := by
  rw [partOf?, ← toString_natCast, immediateOf?_text]
  rfl

theorem fieldsOf_text (hd : m.destination.toList.all Char.isAlphanum) :
    fieldsOf m.text = (m.mnemonic, m.operands) := by
  have hname := legible_of_isAlphanum hd
  refine fieldsOf_append ?_ ?_ ?_
  · cases m <;> simp [mnemonic]
  · cases m <;> simp [operands]
  · cases m with
    | signed d v => simpa [operands] using ⟨hname, legible_immediate v⟩
    | clearing d p => simpa [operands] using ⟨hname, legible_immediate p⟩
    | keeping d p k => simpa [operands] using ⟨hname, legible_immediate p, legible_shift k⟩

/-- **The move of a line is the one that is written there.** -/
theorem ofLine?_text (hd : m.destination.toList.all Char.isAlphanum)
    (hk : ∀ k ∈ m.place?, k < 64) : ofLine? m.text = some m := by
  rw [ofLine?, fieldsOf_text hd]
  cases m with
  | signed d v =>
    have hname : nameOf? d = some d := if_pos hd
    simp only [mnemonic, operands, hname, immediateOf?_text]
    rfl
  | clearing d p =>
    have hname : nameOf? d = some d := if_pos hd
    simp only [mnemonic, operands, hname, partOf?_text]
    rfl
  | keeping d p k =>
    have hname : nameOf? d = some d := if_pos hd
    have hshift : shiftOf? ("lsl #" ++ toString k) = some k := shiftOf?_text k (hk k rfl)
    simp only [mnemonic, operands, hname, partOf?_text, hshift]
    rfl

/-! ## Runs -/

theorem perform?_signed (b : NamedWords) :
    (signed d w.toInt).perform? b = some (Function.update b d w) := by
  have hw : Word.ofInt? w.toInt = some w := Word.ofInt?_eq_some_iff.mpr rfl
  simp only [perform?, result?, destination, hw, Option.map_some]

theorem perform?_clearing (b : NamedWords) {p : Nat} (hp : p < 65536) :
    (clearing d p).perform? b = some (Function.update b d (Word.ofPart p)) := by
  simp only [perform?, result?, destination, if_pos hp, Option.map_some]

theorem perform?_keeping (b : NamedWords) {p k : Nat} (hp : p < 65536) (hk : k ∈ Word.places) :
    (keeping d p k).perform? b = some (Function.update b d (Word.withPart (b d) k p)) := by
  simp only [perform?, result?, destination, if_pos (And.intro hp hk), Option.map_some]

/-- **Parts of a word that are replaced one after the other**: the register gets them, and keeps
the parts at other places. -/
theorem exists_run_keeping (d : String) (w : Word) {ks : List Nat}
    (hks : ∀ k ∈ ks, k ∈ Word.places) (b : NamedWords) :
    ∃ a, run? (ks.map fun k => keeping d (Word.part w k) k) b = some (Function.update b d a) ∧
      ∀ j ∈ Word.places,
        Word.part a j = if j ∈ ks then Word.part w j else Word.part (b d) j := by
  induction ks generalizing b with
  | nil => exact ⟨b d, by simp [run?], by simp⟩
  | cons k ks ih =>
    obtain ⟨hk, hks⟩ := List.forall_mem_cons.mp hks
    let t := Word.withPart (b d) k (Word.part w k)
    obtain ⟨a, hrun, hparts⟩ := ih hks (Function.update b d t)
    refine ⟨a, ?_, fun j hj => ?_⟩
    · rw [Function.update_idem] at hrun
      rw [List.map_cons, run?, List.foldlM_cons, perform?_keeping b (Word.part_lt w k) hk]
      exact hrun
    · rw [hparts j hj, Function.update_self, Word.part_withPart (b d) (Word.part_lt w k) hk hj]
      by_cases hjk : j = k
      · simp [hjk]
      · simp [hjk]

theorem mapM_text (h : ∀ m ∈ ms, ofLine? m.text = some m) :
    (ms.map text).mapM ofLine? = some ms := by
  induction ms with
  | nil => rfl
  | cons m ms ih =>
    obtain ⟨hm, hms⟩ := List.forall_mem_cons.mp h
    rw [List.map_cons, List.mapM_cons, hm, ih hms]
    rfl

end WideMove

/-- Lines that are read as moves, one after the other. -/
def runLines? (lines : List String) (b : NamedWords) : Option NamedWords :=
  (lines.mapM WideMove.ofLine?).bind (WideMove.run? · b)

/-! ## The lines of an immediate -/

/-- The moves that build a word: one if the word is small, else those of its parts. -/
def immediateMoves (d : String) (w : Word) : List WideMove :=
  if -65536 ≤ w.toInt ∧ w.toInt < 65536 then [.signed d w.toInt]
  else
    .clearing d (Word.part w 0) ::
      ([16, 32, 48].filter fun k => Word.part w k != 0).map fun k => .keeping d (Word.part w k) k

theorem immediateLines_eq (d : String) (w : Word) :
    immediateLines d w = (immediateMoves d w).map WideMove.text := by
  have hsigned : "mov " ++ d ++ s!", #{w.toInt}" = (WideMove.signed d w.toInt).text := by
    rw [← String.toList_inj]
    simp [WideMove.text, WideMove.mnemonic, WideMove.operands, ToString.toString]
  have hclearing : "movz " ++ d ++ s!", #{Word.part w 0}" =
      (WideMove.clearing d (Word.part w 0)).text := by
    rw [← String.toList_inj]
    simp [WideMove.text, WideMove.mnemonic, WideMove.operands, ToString.toString]
  have hkeeping (k : Nat) : "movk " ++ d ++ s!", #{Word.part w k}, lsl #{k}" =
      (WideMove.keeping d (Word.part w k) k).text := by
    rw [← String.toList_inj]
    simp [WideMove.text, WideMove.mnemonic, WideMove.operands, ToString.toString]
  rw [immediateLines, immediateMoves]
  split
  · rw [hsigned]
    rfl
  · rw [hclearing, List.map_cons, List.map_map]
    exact congrArg _ (List.map_congr_left fun k _ => hkeeping k)

theorem isAlphanum_arm64Text (r : Register) : r.arm64Text.toList.all Char.isAlphanum := by
  have hdigits (n : Nat) : ∀ c ∈ Nat.toDigits 10 n, c.isAlphanum = true := fun c hc => by
    rw [Char.isAlphanum, Nat.isDigit_of_mem_toDigits (by decide) (by decide) hc, Bool.or_true]
  cases hm : r.isMedia with
  | true =>
    simp only [Register.arm64Text, Architecture.registerName, hm]
    simpa [ToString.toString] using hdigits r.id
  | false =>
    simp only [Register.arm64Text, Architecture.registerName, hm]
    split
    · decide
    · simpa [ToString.toString] using hdigits r.id

/-- What each of the moves that build a word is like. -/
structure WideMove.Builds (m : WideMove) (d : String) (w : Word) : Prop where
  destination : m.destination = d
  part_lt : ∀ p ∈ m.part?, p < 65536
  place_mem : ∀ k ∈ m.place?, k ∈ [16, 32, 48]
  isSigned_iff : m.isSigned = true ↔ -65536 ≤ w.toInt ∧ w.toInt ≤ 65535

section Moves

variable {d : String} {w : Word} {m : WideMove}

theorem builds_of_mem_immediateMoves (h : m ∈ immediateMoves d w) : m.Builds d w := by
  unfold immediateMoves at h
  split at h
  next hsmall =>
    obtain rfl := List.mem_singleton.mp h
    exact ⟨rfl, nofun, nofun, iff_of_true rfl ⟨hsmall.1, by omega⟩⟩
  next hwide =>
    have hrange : ¬ (-65536 ≤ w.toInt ∧ w.toInt ≤ 65535) := fun h => hwide ⟨h.1, by omega⟩
    rcases List.mem_cons.mp h with rfl | h
    · refine ⟨rfl, ?_, nofun, iff_of_false nofun hrange⟩
      rintro p ⟨⟩
      exact Word.part_lt w 0
    · obtain ⟨k, hk, rfl⟩ := List.mem_map.mp h
      refine ⟨rfl, ?_, ?_, iff_of_false nofun hrange⟩
      · rintro p ⟨⟩
        exact Word.part_lt w k
      · rintro j ⟨⟩
        exact List.mem_of_mem_filter hk

theorem immediateMoves_eq_of_isSigned (h : m ∈ immediateMoves d w) (hm : m.isSigned = true) :
    immediateMoves d w = [m] := by
  have hrange := (builds_of_mem_immediateMoves h).isSigned_iff.mp hm
  rw [immediateMoves, if_pos ⟨hrange.1, Int.lt_add_one_of_le hrange.2⟩] at h ⊢
  rw [List.mem_singleton.mp h]

end Moves

theorem ofLine?_of_mem_immediateMoves {r : Register} {w : Word} {m : WideMove}
    (h : m ∈ immediateMoves r.arm64Text w) : WideMove.ofLine? m.text = some m := by
  have hm := builds_of_mem_immediateMoves h
  refine WideMove.ofLine?_text (hm.destination ▸ isAlphanum_arm64Text r) fun k hk => ?_
  have hk := hm.place_mem k hk
  simp only [List.mem_cons, List.not_mem_nil, or_false] at hk
  omega

theorem run_immediateMoves (d : String) (w : Word) (b : NamedWords) :
    WideMove.run? (immediateMoves d w) b = some (Function.update b d w) := by
  rw [immediateMoves]
  split
  next =>
    rw [WideMove.run?, List.foldlM_cons, WideMove.perform?_signed]
    rfl
  next =>
    let ks := [16, 32, 48].filter fun k => Word.part w k != 0
    let t := Word.ofPart (Word.part w 0)
    have hks : ∀ k ∈ ks, k ∈ Word.places := fun k hk =>
      List.mem_cons_of_mem 0 (List.mem_of_mem_filter hk)
    obtain ⟨a, hrun, hparts⟩ := WideMove.exists_run_keeping d w hks (Function.update b d t)
    -- A part that no move writes is zero in the word, and the first move has cleared it.
    have ha : a = w := by
      refine Word.eq_of_parts fun j hj => ?_
      rw [hparts j hj, Function.update_self, Word.part_ofPart (Word.part_lt w 0) hj]
      split
      next => rfl
      next hout =>
        by_cases h0 : j = 0
        · rw [if_pos h0, h0]
        · have hzero : Word.part w j = 0 := by
            by_contra hne
            have hj := (List.mem_cons.mp hj).resolve_left h0
            exact hout (List.mem_filter.mpr ⟨hj, by simpa using hne⟩)
          rw [if_neg h0, hzero]
    rw [WideMove.run?, List.foldlM_cons, WideMove.perform?_clearing b (Word.part_lt w 0)]
    rw [Function.update_idem, ha] at hrun
    exact hrun

/-- **The lines of an immediate are exact.** Whatever the registers hold, the lines leave the word
in the register they name, and nothing else changes. Each line is a move: the parts have sixteen
bits and go to the places above the lowest, and the move with a sign stands alone, for the words
from -65536 to 65535. -/
theorem immediateLines_exact (r : Register) (w : Word) :
    (∀ b, runLines? (immediateLines r.arm64Text w) b = some (Function.update b r.arm64Text w)) ∧
      ∀ line ∈ immediateLines r.arm64Text w, ∃ m, WideMove.ofLine? line = some m ∧
        (∀ p ∈ m.part?, p < 65536) ∧ (∀ k ∈ m.place?, k ∈ [16, 32, 48]) ∧
        (m.isSigned = true ↔ -65536 ≤ w.toInt ∧ w.toInt ≤ 65535) ∧
        (m.isSigned = true → immediateLines r.arm64Text w = [line]) := by
  rw [immediateLines_eq]
  refine ⟨fun b => ?_, fun line hline => ?_⟩
  · rw [runLines?, WideMove.mapM_text fun m hm => ofLine?_of_mem_immediateMoves hm]
    exact run_immediateMoves r.arm64Text w b
  · obtain ⟨m, hm, rfl⟩ := List.mem_map.mp hline
    have hbuilds := builds_of_mem_immediateMoves hm
    refine ⟨m, ofLine?_of_mem_immediateMoves hm, hbuilds.part_lt, hbuilds.place_mem,
      hbuilds.isSigned_iff, fun hsigned => ?_⟩
    rw [immediateMoves_eq_of_isSigned hm hsigned]
    rfl

example : immediateLines "x0" 4294967297 = ["movz x0, #1", "movk x0, #1, lsl #32"] := by
  decide +kernel

end Codegen
