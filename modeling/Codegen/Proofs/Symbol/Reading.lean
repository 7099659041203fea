import Mathlib
import Codegen.Symbol.Mangle

/-!
# Reading signatures

Symbol names are texts put one behind another. Each part tells where it ends: a name by the number
ahead of it, a reference by its mark, a full spelling by its brackets. Types stand in them as a
letter, as a full spelling, or as a reference to a table that grows as the name does. A reader who
knows the table ahead of a type knows which one it is, and the table behind it.

* `append_inj_of_stops`: two parts of equal kinds of characters, and what follows them, agree;
* `Mangle.nameText_append_inj`: a name behind its length;
* `Definition.text_append_inj`: a reference to the table;
* `Mangle.join_nameText_append_inj`: the names of a nested type;
* `Mangle.Indexed`: the entries of the table know their places;
* `Spelled`: spellings that tell types apart;
* `Mangle.referenceText`, `Refers`: the text of a type behind pointers;
* `Mangle.referenceText_append_inj`: **a type behind pointers**;
* `Mangle.passedText_append_inj`, `addParameters_append_inj`: a type as it is passed, and **all
  parameter types**.
-/

namespace Codegen

/-- A text does not go on with characters of some kind. -/
def Stops (p : Char → Bool) (r : List Char) : Prop := ∀ c ∈ r.head?, p c = false

theorem stops_cons {p : Char → Bool} {c : Char} {r : List Char} (h : p c = false) :
    Stops p (c :: r) := by
  simpa [Stops] using h

/-- **Two parts of characters of some kind agree** if the texts do and the parts end there. -/
theorem append_inj_of_stops {p : Char → Bool} {l l' r r' : List Char} (hl : ∀ c ∈ l, p c)
    (hl' : ∀ c ∈ l', p c) (hr : Stops p r) (hr' : Stops p r') (h : l ++ r = l' ++ r') :
    l = l' ∧ r = r' := by
  induction l generalizing l' with
  | nil =>
    cases l' with
    | nil => exact ⟨rfl, h⟩
    | cons c l' =>
      subst h
      have := hr c rfl
      simp [hl' c List.mem_cons_self] at this
  | cons c l ih =>
    cases l' with
    | nil =>
      subst h
      have := hr' c rfl
      simp [hl c List.mem_cons_self] at this
    | cons c' l' =>
      obtain ⟨rfl, htail⟩ := List.cons.inj h
      obtain ⟨rfl, rfl⟩ := ih (fun d hd => hl d (List.mem_cons_of_mem _ hd))
        (fun d hd => hl' d (List.mem_cons_of_mem _ hd)) htail
      exact ⟨rfl, rfl⟩

/-- A name that can be told from the number ahead of it. -/
def IsName (name : String) : Prop := ∃ c cs, name.toList = c :: cs ∧ c.isDigit = false

instance (name : String) : Decidable (IsName name) :=
  decidable_of_iff (name.toList.head?.any (!·.isDigit)) <| by
    rw [IsName]
    cases name.toList <;> simp

namespace Mangle

theorem toList_nameText (name : String) :
    (nameText name).toList = Nat.toDigits 10 name.utf8ByteSize ++ name.toList := by
  rw [nameText, String.toList_append, Nat.toString_eq_ofList_toDigits, String.toList_ofList]

theorem isDigit_of_mem_toDigits {n : Nat} {c : Char} (h : c ∈ Nat.toDigits 10 n) :
    c.isDigit = true :=
  Nat.isDigit_of_mem_toDigits (by decide) (by decide) h

theorem nameText_head (name : String) :
    ∃ c cs, (nameText name).toList = c :: cs ∧ c.isDigit = true := by
  rw [toList_nameText]
  cases h : Nat.toDigits 10 name.utf8ByteSize with
  | nil => exact absurd h Nat.toDigits_ne_nil
  | cons c cs =>
    exact ⟨c, cs ++ name.toList, rfl, isDigit_of_mem_toDigits (h ▸ List.mem_cons_self)⟩

theorem append_inj_of_size {a b : String} {r s : List Char}
    (hsize : a.utf8ByteSize = b.utf8ByteSize) (h : a.toList ++ r = b.toList ++ s) :
    a = b ∧ r = s := by
  have key {a b : String} {k : List Char} (hsize : a.utf8ByteSize = b.utf8ByteSize)
      (h : b.toList = a.toList ++ k) : k = [] := by
    have hb : b = a ++ String.ofList k := by
      rw [← String.toList_inj, h, String.toList_append, String.toList_ofList]
    rw [hb, String.utf8ByteSize_append] at hsize
    have hk : (String.ofList k).utf8ByteSize = 0 := by omega
    simpa using hk
  rcases List.append_eq_append_iff.mp h with ⟨k, hb, hr⟩ | ⟨k, ha, hs⟩
  · obtain rfl := key hsize hb
    exact ⟨String.toList_inj.mp (by simpa using hb.symm), hr⟩
  · obtain rfl := key hsize.symm ha
    exact ⟨String.toList_inj.mp (by simpa using ha), hs.symm⟩

/-- **A name behind its length** can be read, whatever follows. -/
theorem nameText_append_inj {n n' : String} {r r' : List Char} (hn : IsName n) (hn' : IsName n')
    (h : (nameText n).toList ++ r = (nameText n').toList ++ r') : n = n' ∧ r = r' := by
  rw [toList_nameText, toList_nameText, List.append_assoc, List.append_assoc] at h
  have hstops {n : String} {r : List Char} (hn : IsName n) :
      Stops Char.isDigit (n.toList ++ r) := by
    obtain ⟨c, cs, hc, hd⟩ := hn
    rw [hc]
    exact stops_cons hd
  obtain ⟨hsize, h⟩ := append_inj_of_stops (fun _ => isDigit_of_mem_toDigits)
    (fun _ => isDigit_of_mem_toDigits) (hstops hn) (hstops hn') h
  refine append_inj_of_size ?_ h
  calc n.utf8ByteSize
      = Nat.ofDigitChars 10 (Nat.toDigits 10 n.utf8ByteSize) 0 :=
        Nat.ofDigitChars_ten_toDigits.symm
    _ = Nat.ofDigitChars 10 (Nat.toDigits 10 n'.utf8ByteSize) 0 := by rw [hsize]
    _ = n'.utf8ByteSize := Nat.ofDigitChars_ten_toDigits

theorem toList_join_nameText (n : String) (ns : List String) :
    (String.join ((n :: ns).map nameText)).toList =
      (nameText n).toList ++ (String.join (ns.map nameText)).toList := by
  rw [List.map_cons, String.join_cons, String.toList_append]

/-- **The names of a nested type** can be read up to the bracket behind them. -/
theorem join_nameText_append_inj {ns ns' : List String} {r r' : List Char}
    (hn : ∀ n ∈ ns, IsName n) (hn' : ∀ n ∈ ns', IsName n)
    (h : (String.join (ns.map nameText)).toList ++ 'E' :: r =
      (String.join (ns'.map nameText)).toList ++ 'E' :: r') : ns = ns' ∧ r = r' := by
  have hbracket {n : String} {r r' : List Char} (h : 'E' :: r = (nameText n).toList ++ r') :
      False := by
    obtain ⟨c, cs, hc, hd⟩ := nameText_head n
    rw [hc] at h
    obtain ⟨rfl, -⟩ := List.cons.inj h
    exact absurd hd (by decide)
  induction ns generalizing ns' with
  | nil =>
    cases ns' with
    | nil => exact ⟨rfl, List.cons.inj h |>.2⟩
    | cons n' ns' =>
      rw [toList_join_nameText, List.append_assoc] at h
      exact (hbracket h).elim
  | cons n ns ih =>
    cases ns' with
    | nil =>
      rw [toList_join_nameText, List.append_assoc] at h
      exact (hbracket h.symm).elim
    | cons n' ns' =>
      rw [toList_join_nameText, toList_join_nameText, List.append_assoc, List.append_assoc] at h
      obtain ⟨rfl, htail⟩ := nameText_append_inj (hn n List.mem_cons_self)
        (hn' n' List.mem_cons_self) h
      obtain ⟨rfl, rfl⟩ := ih (fun m hm => hn m (List.mem_cons_of_mem _ hm))
        (fun m hm => hn' m (List.mem_cons_of_mem _ hm)) htail
      exact ⟨rfl, rfl⟩

end Mangle

/-! ## References to the table -/

namespace Definition

/-- The digits of a hexadecimal number in capitals. -/
def hexText (n : Nat) : List Char := (Nat.toDigits 16 n).map Char.toUpper

/-- The value of a hexadecimal digit. -/
def hexValue (c : Char) : Nat := if c.isDigit then c.toNat - 48 else c.toNat - 55

theorem hexValue_toUpper_digitChar {d : Nat} (h : d < 16) :
    hexValue d.digitChar.toUpper = d := by
  revert d
  decide

theorem toUpper_digitChar_ne {d : Nat} (h : d < 16) : d.digitChar.toUpper ≠ '_' := by
  revert d
  decide

theorem hexText_eq (n : Nat) :
    hexText n = (if n < 16 then [] else hexText (n / 16)) ++ [(n % 16).digitChar.toUpper] := by
  rw [hexText, Nat.toDigits_eq_if (by decide)]
  split
  next h => rw [Nat.mod_eq_of_lt h]; rfl
  next => rw [List.map_append]; rfl

theorem foldl_hexText (n : Nat) : (hexText n).foldl (fun a c => 16 * a + hexValue c) 0 = n := by
  induction n using Nat.strong_induction_on with
  | _ n ih =>
    rw [hexText_eq, List.foldl_append]
    have hlast := hexValue_toUpper_digitChar (Nat.mod_lt n (by decide : 0 < 16))
    split
    next h => simp only [List.foldl_nil, List.foldl_cons, hlast]; omega
    next h =>
      rw [ih (n / 16) (by omega)]
      simp only [List.foldl_nil, List.foldl_cons, hlast]
      omega

theorem ne_of_mem_hexText {n : Nat} {c : Char} (h : c ∈ hexText n) : c ≠ '_' := by
  induction n using Nat.strong_induction_on with
  | _ n ih =>
    rw [hexText_eq] at h
    rcases List.mem_append.mp h with h | h
    · split at h
      · cases h
      · exact ih (n / 16) (by omega) h
    · obtain rfl := List.mem_singleton.mp h
      exact toUpper_digitChar_ne (Nat.mod_lt n (by decide))

/-- The number of an entry in a reference to it. -/
def indexText : Nat → List Char
  | 0 => []
  | i + 1 => hexText i

theorem indexText_inj {i j : Nat} (h : indexText i = indexText j) : i = j := by
  have hne (n : Nat) : hexText n ≠ [] := by
    rw [hexText_eq]
    simp
  cases i with
  | zero =>
    cases j with
    | zero => rfl
    | succ j => exact absurd h.symm (hne j)
  | succ i =>
    cases j with
    | zero => exact absurd h (hne i)
    | succ j =>
      have h : hexText i = hexText j := h
      rw [← foldl_hexText i, h, foldl_hexText]

theorem toList_text (d : Definition) : d.text.toList = 'S' :: (indexText d.index ++ ['_']) := by
  rw [text]
  cases d.index with
  | zero => rfl
  | succ i =>
    simp [indexText, hexText, String.toUpper]

/-- **A reference** can be read, whatever follows. -/
theorem text_append_inj {d d' : Definition} {r r' : List Char}
    (h : d.text.toList ++ r = d'.text.toList ++ r') : d.index = d'.index ∧ r = r' := by
  rw [toList_text, toList_text, List.cons_append, List.cons_append, List.append_assoc,
    List.append_assoc] at h
  have hkind (i : Nat) : ∀ c ∈ indexText i, (c != '_') = true := by
    cases i with
    | zero => nofun
    | succ i => exact fun c hc => bne_iff_ne.mpr (ne_of_mem_hexText hc)
  obtain ⟨hi, h⟩ := append_inj_of_stops (hkind _) (hkind _) (stops_cons rfl) (stops_cons rfl)
    (List.cons.inj h).2
  exact ⟨indexText_inj hi, (List.cons.inj h).2⟩

end Definition

/-! ## Types -/

/-- The letters of the built-in types. -/
def typeCodes : List Char := ['a', 'h', 's', 't', 'i', 'j', 'x', 'y', 'd', 'b', 'l']

/-- Can a type begin with that character? -/
def opensType (c : Char) : Bool := c = 'P' || c = 'S' || typeCodes.contains c

/-- **Spellings that tell types apart.** -/
structure Spelled (sp : TypeId → Spelling → Prop) : Prop where
  unique : ∀ {i s s'}, sp i s → sp i s' → s = s'
  injective : ∀ {i j s}, sp i s → sp j s → i = j
  names : ∀ {i names}, sp i (.nested names) → ∀ n ∈ names, IsName n
  code : ∀ {i c}, sp i (.primitive c) → c ∈ typeCodes

namespace Mangle

variable {m : Mangle} {i j : TypeId} {s s' : Spelling} {r r' : List Char} {d d' : Definition}
variable {p q : Nat}
variable {sp : TypeId → Spelling → Prop} {text : String}

@[simp] theorem toList_addText (m : Mangle) (text : String) :
    (m.addText text).value.toList = m.value.toList ++ text.toList :=
  String.toList_append ..

/-! ## The table of definitions -/

/-- **The entries of the table know their places.** -/
def Indexed (m : Mangle) : Prop :=
  ∀ (k : Nat) (d : Definition), m.definitions[k]? = some d → d.index = k

theorem Indexed.start : Mangle.start.Indexed := by
  intro k d h
  simp [Mangle.start] at h

theorem Indexed.addText (h : m.Indexed) (text : String) : (m.addText text).Indexed := h

theorem Indexed.define (h : m.Indexed) (i : TypeId) (levels : List Nat) :
    (m.define i levels).Indexed := by
  intro k d hd
  rw [Mangle.define, List.getElem?_append] at hd
  split at hd
  · exact h k d hd
  next hk =>
    rw [List.getElem?_map, List.getElem?_zipIdx] at hd
    obtain ⟨⟨pointers, n⟩, hx, rfl⟩ := Option.map_eq_some_iff.mp hd
    obtain ⟨_, -, hn⟩ := Option.map_eq_some_iff.mp hx
    obtain rfl := (Prod.mk.inj hn).2
    simp only
    omega

theorem Indexed.add (h : m.Indexed) (i : TypeId) (s : Spelling) (pointers : Nat) :
    (m.add i s pointers).Indexed := by
  rw [Mangle.add]
  split
  · exact h.addText _
  · split
    · exact Indexed.addText (h.define _ _) _
    · exact Indexed.addText (h.define _ _) _

theorem Indexed.addPassed (h : m.Indexed) (i : TypeId) (s : Spelling) :
    (m.addPassed i s).Indexed := h.add i s _

theorem Indexed.getElem? (h : m.Indexed) (hd : d ∈ m.definitions) :
    m.definitions[d.index]? = some d := by
  obtain ⟨k, hk⟩ := List.mem_iff_getElem?.mp hd
  rw [h k d hk, hk]

theorem known_spec (h : m.known? i p = some d) :
    d ∈ m.definitions ∧ d.type = i ∧ d.pointers ≤ p := by
  have hp := List.find?_some h
  have hd := List.mem_of_find?_eq_some h
  simp only [Bool.and_eq_true, beq_iff_eq, decide_eq_true_eq] at hp
  exact ⟨List.mem_reverse.mp hd, hp⟩

/-! ## One type -/

/-- The text of a type behind some levels of pointers. -/
def referenceText (m : Mangle) (i : TypeId) (s : Spelling) (p : Nat) : String :=
  if p = 0 ∧ s.isPrimitive then spellingText s
  else
    match m.known? i p with
    | some d => pointerText (p - d.pointers) ++ d.text
    | none => pointerText p ++ spellingText s

theorem value_add (m : Mangle) (i : TypeId) (s : Spelling) (p : Nat) :
    (m.add i s p).value = m.value ++ m.referenceText i s p := by
  rw [add, referenceText]
  split
  · rfl
  · cases m.known? i p <;> rfl

/-- **What a reference to a type is**: an entry of the table which is some levels of pointers below
it. If there is none, or a letter will do, it is the full spelling. -/
inductive Refers (m : Mangle) (i : TypeId) (s : Spelling) (p : Nat) : String → Prop
  | full (first : p = 0 ∧ s.isPrimitive ∨ ∀ d ∈ m.definitions, d.type = i → p < d.pointers) :
    Refers m i s p (pointerText p ++ spellingText s)
  | back {k : Nat} {d : Definition} (entry : m.definitions[d.index]? = some d) (type : d.type = i)
    (level : d.pointers + k = p) : Refers m i s p (pointerText k ++ d.text)

theorem Indexed.refers (hm : m.Indexed) (i : TypeId) (s : Spelling) (p : Nat) :
    m.Refers i s p (m.referenceText i s p) := by
  rw [referenceText]
  split
  next h =>
    have htext : spellingText s = pointerText p ++ spellingText s := by
      rw [h.1]
      exact String.empty_append.symm
    exact htext ▸ .full (.inl h)
  · cases hd : m.known? i p with
    | none =>
      refine .full (.inr fun d hmem htype => Nat.not_le.mp fun hle => ?_)
      have hnone := List.find?_eq_none.mp hd d (List.mem_reverse.mpr hmem)
      simp [htype, hle] at hnone
    | some d =>
      obtain ⟨hentry, htype, hle⟩ := known_spec hd
      exact .back (hm.getElem? hentry) htype (Nat.add_sub_cancel' hle)

theorem toList_pointerText (k : Nat) : (pointerText k).toList = List.replicate k 'P' :=
  String.toList_ofList

theorem spellingText_head (hsp : Spelled sp) (hi : sp i s) :
    ∃ c cs, (spellingText s).toList = c :: cs ∧ (c = 'N' ∨ c ∈ typeCodes) := by
  cases s with
  | primitive c => exact ⟨c, [], String.toList_singleton c, .inr (hsp.code hi)⟩
  | nested names =>
    refine ⟨'N', (String.join (names.map nameText) ++ "E").toList, ?_, .inl rfl⟩
    rw [spellingText, String.append_assoc, String.toList_append]
    rfl

/-- **A full spelling can be read**, whatever follows. -/
theorem spellingText_append_inj (hsp : Spelled sp) (hi : sp i s) (hj : sp j s')
    (h : (spellingText s).toList ++ r = (spellingText s').toList ++ r') : s = s' ∧ r = r' := by
  have hbracket {c : Char} (hc : c ∈ typeCodes) : c ≠ 'N' := by
    rintro rfl
    revert hc
    decide
  cases s with
  | primitive c =>
    cases s' with
    | primitive c' => simpa [spellingText] using h
    | nested names' =>
      simp only [spellingText, String.toList_singleton, String.toList_append] at h
      exact (hbracket (hsp.code hi) (List.cons.inj h).1).elim
  | nested names =>
    cases s' with
    | primitive c' =>
      simp only [spellingText, String.toList_singleton, String.toList_append] at h
      exact (hbracket (hsp.code hj) (List.cons.inj h).1.symm).elim
    | nested names' =>
      simp only [spellingText, String.toList_append, String.reduceToList, List.cons_append,
        List.append_assoc, List.nil_append, List.cons.injEq, true_and] at h
      obtain ⟨rfl, rfl⟩ := join_nameText_append_inj (hsp.names hi) (hsp.names hj) h
      exact ⟨rfl, rfl⟩

/-- **Marks of pointers can be read**, whatever else follows. -/
theorem pointerText_append_inj {k k' : Nat} (hr : Stops (· == 'P') r) (hr' : Stops (· == 'P') r')
    (h : (pointerText k).toList ++ r = (pointerText k').toList ++ r') : k = k' ∧ r = r' := by
  rw [toList_pointerText, toList_pointerText] at h
  have hmarks (k : Nat) : ∀ c ∈ List.replicate k 'P', (c == 'P') = true := by
    simp +contextual [List.mem_replicate]
  obtain ⟨hk, hr⟩ := append_inj_of_stops (hmarks k) (hmarks k') hr hr' h
  exact ⟨by simpa using congrArg List.length hk, hr⟩

theorem stops_spellingText (hsp : Spelled sp) (hi : sp i s) :
    Stops (· == 'P') ((spellingText s).toList ++ r) := by
  obtain ⟨c, cs, htext, hc⟩ := spellingText_head hsp hi
  rw [htext]
  refine stops_cons ?_
  rw [beq_eq_false_iff_ne]
  rintro rfl
  revert hc
  decide

theorem stops_text (d : Definition) (r : List Char) : Stops (· == 'P') (d.text.toList ++ r) := by
  rw [Definition.toList_text]
  exact stops_cons rfl

theorem spellingText_append_ne (hsp : Spelled sp) (hi : sp i s) (d : Definition) :
    (spellingText s).toList ++ r ≠ d.text.toList ++ r' := by
  obtain ⟨c, cs, htext, hc⟩ := spellingText_head hsp hi
  rw [htext, Definition.toList_text]
  intro h
  obtain rfl := (List.cons.inj h).1
  revert hc
  decide

/-- **A type behind pointers can be read** by those who know the table. -/
theorem referenceText_append_inj (hsp : Spelled sp) (hm : m.Indexed) (hi : sp i s) (hj : sp j s')
    (h : (m.referenceText i s p).toList ++ r = (m.referenceText j s' q).toList ++ r') :
    i = j ∧ p = q ∧ r = r' := by
  have hwritten := hm.refers i s p
  have hwritten' := hm.refers j s' q
  generalize m.referenceText i s p = text at h hwritten
  generalize m.referenceText j s' q = text' at h hwritten'
  cases hwritten <;> cases hwritten' <;>
    simp only [String.toList_append, List.append_assoc] at h
  case full.full =>
    obtain ⟨hpq, hrest⟩ :=
      pointerText_append_inj (stops_spellingText hsp hi) (stops_spellingText hsp hj) h
    obtain ⟨rfl, hr⟩ := spellingText_append_inj hsp hi hj hrest
    exact ⟨hsp.injective hi hj, hpq, hr⟩
  case full.back d' _ _ _ =>
    obtain ⟨-, hrest⟩ := pointerText_append_inj (stops_spellingText hsp hi) (stops_text d' _) h
    exact (spellingText_append_ne hsp hi d' hrest).elim
  case back.full d _ _ _ _ =>
    obtain ⟨-, hrest⟩ := pointerText_append_inj (stops_text d _) (stops_spellingText hsp hj) h
    exact (spellingText_append_ne hsp hj d hrest.symm).elim
  case back.back k d hd htype hlevel k' d' hd' htype' hlevel' =>
    obtain ⟨hk, hrest⟩ := pointerText_append_inj (stops_text d _) (stops_text d' _) h
    obtain ⟨hindex, hr⟩ := Definition.text_append_inj hrest
    have hentry : d = d' := Option.some.inj (hd.symm.trans (hindex ▸ hd'))
    exact ⟨by rw [← htype, ← htype', hentry], by rw [← hlevel, ← hlevel', hentry, hk], hr⟩

theorem referenceText_ne (hsp : Spelled sp) (hm : m.Indexed) (hi : sp i s) :
    (m.referenceText i s p).toList ≠ [] := by
  have hwritten := hm.refers i s p
  generalize m.referenceText i s p = text at hwritten ⊢
  intro h
  cases hwritten with
  | full =>
    obtain ⟨c, cs, htext, -⟩ := spellingText_head hsp hi
    rw [String.toList_append, htext] at h
    cases (List.append_eq_nil_iff.mp h).2
  | back =>
    rw [String.toList_append, Definition.toList_text] at h
    cases (List.append_eq_nil_iff.mp h).2

/-- The text of a type as it is passed. -/
def passedText (m : Mangle) (i : TypeId) (s : Spelling) : List Char :=
  (m.referenceText i s (if s.isPrimitive then 0 else 1)).toList

theorem toList_addPassed (m : Mangle) (i : TypeId) (s : Spelling) :
    (m.addPassed i s).value.toList = m.value.toList ++ m.passedText i s := by
  rw [addPassed, value_add, String.toList_append, passedText]

theorem passedText_head (hsp : Spelled sp) (hm : m.Indexed) (hi : sp i s) :
    ∃ c cs, m.passedText i s = c :: cs ∧ opensType c = true := by
  have hmark (k : Nat) (cs : List Char) :
      ∃ c cs', (pointerText (k + 1)).toList ++ cs = c :: cs' ∧ opensType c = true := by
    rw [toList_pointerText, List.replicate_succ]
    exact ⟨'P', _, List.cons_append, rfl⟩
  have hwritten := hm.refers i s (if s.isPrimitive then 0 else 1)
  rw [passedText]
  generalize m.referenceText i s _ = text at hwritten ⊢
  cases hwritten with
  | full =>
    rw [String.toList_append]
    cases s with
    | primitive c =>
      refine ⟨c, [], ?_, by simp [opensType, hsp.code hi]⟩
      simp [Spelling.isPrimitive, toList_pointerText, spellingText]
    | nested names => exact hmark 0 _
  | @back k d =>
    rw [String.toList_append]
    cases k with
    | zero => exact ⟨'S', _, by rw [toList_pointerText, Definition.toList_text]; rfl, rfl⟩
    | succ k => exact hmark k _

/-- **A type as it is passed can be read** by those who know the table. -/
theorem passedText_append_inj (hsp : Spelled sp) (hm : m.Indexed) (hi : sp i s) (hj : sp j s')
    (h : m.passedText i s ++ r = m.passedText j s' ++ r') : i = j ∧ r = r' := by
  obtain ⟨hij, -, hr⟩ := referenceText_append_inj hsp hm hi hj h
  exact ⟨hij, hr⟩

/-! ## Parameters -/

theorem foldl_addPassed (m : Mangle) (ts : List (TypeId × Spelling)) :
    ∃ text, (ts.foldl (fun m x => m.addPassed x.1 x.2) m).value.toList =
      m.value.toList ++ text := by
  induction ts generalizing m with
  | nil => exact ⟨[], (List.append_nil _).symm⟩
  | cons x ts ih =>
    obtain ⟨text, h⟩ := ih (m.addPassed x.1 x.2)
    exact ⟨_, by rw [List.foldl_cons, h, toList_addPassed, List.append_assoc]⟩

theorem foldl_cons_ne (hsp : Spelled sp) (hm : m.Indexed) {x : TypeId × Spelling}
    (hx : sp x.1 x.2) (ts : List (TypeId × Spelling)) (hr : Stops opensType r) :
    m.value.toList ++ r ≠
      ((x :: ts).foldl (fun m x => m.addPassed x.1 x.2) m).value.toList ++ r' := by
  intro h
  obtain ⟨text, ht⟩ := foldl_addPassed (m.addPassed x.1 x.2) ts
  obtain ⟨c, cs, hc, hopens⟩ := passedText_head hsp hm hx
  rw [List.foldl_cons, ht, toList_addPassed, List.append_assoc, List.append_assoc] at h
  rw [List.append_cancel_left h, hc] at hr
  exact Bool.noConfusion (hopens.symm.trans (hr c rfl))

/-- **Types one behind another** can be read by those who know the table ahead of them. -/
theorem foldl_addPassed_append_inj (hsp : Spelled sp) (hm : m.Indexed)
    {ts ts' : List (TypeId × Spelling)} (hts : ∀ x ∈ ts, sp x.1 x.2) (hts' : ∀ x ∈ ts', sp x.1 x.2)
    (hr : Stops opensType r) (hr' : Stops opensType r')
    (h : (ts.foldl (fun m x => m.addPassed x.1 x.2) m).value.toList ++ r =
      (ts'.foldl (fun m x => m.addPassed x.1 x.2) m).value.toList ++ r') : ts = ts' ∧ r = r' := by
  induction ts generalizing m ts' with
  | nil =>
    cases ts' with
    | nil => exact ⟨rfl, List.append_cancel_left h⟩
    | cons x ts' => exact absurd h (foldl_cons_ne hsp hm (hts' x List.mem_cons_self) ts' hr)
  | cons x ts ih =>
    cases ts' with
    | nil => exact absurd h.symm (foldl_cons_ne hsp hm (hts x List.mem_cons_self) ts hr')
    | cons x' ts' =>
      have hx := hts x List.mem_cons_self
      have hx' := hts' x' List.mem_cons_self
      have hfirst : x = x' := by
        obtain ⟨text, ht⟩ := foldl_addPassed (m.addPassed x.1 x.2) ts
        obtain ⟨text', ht'⟩ := foldl_addPassed (m.addPassed x'.1 x'.2) ts'
        have h := h
        simp only [List.foldl_cons, ht, ht', toList_addPassed, List.append_assoc] at h
        obtain ⟨he, -⟩ := passedText_append_inj hsp hm hx hx' (List.append_cancel_left h)
        exact Prod.ext he (hsp.unique hx (he ▸ hx'))
      subst hfirst
      obtain ⟨rfl, hrest⟩ := ih (hm.addPassed x.1 x.2)
        (fun y hy => hts y (List.mem_cons_of_mem _ hy))
        (fun y hy => hts' y (List.mem_cons_of_mem _ hy)) h
      exact ⟨rfl, hrest⟩

theorem addParameters_cons_ne (hsp : Spelled sp) (hm : m.Indexed) {x : TypeId × Spelling}
    (hx : sp x.1 x.2) (ts : List (TypeId × Spelling)) :
    (m.addParameters []).value.toList ++ r ≠ (m.addParameters (x :: ts)).value.toList ++ r' := by
  change (m.addText "v").value.toList ++ r ≠ _
  rw [toList_addText, List.append_assoc]
  exact foldl_cons_ne (r := 'v' :: r) hsp hm hx ts (stops_cons rfl)

/-- **The parameter types** can be read by those who know the table ahead of them. -/
theorem addParameters_append_inj (hsp : Spelled sp) (hm : m.Indexed)
    {ts ts' : List (TypeId × Spelling)} (hts : ∀ x ∈ ts, sp x.1 x.2) (hts' : ∀ x ∈ ts', sp x.1 x.2)
    (hr : Stops opensType r) (hr' : Stops opensType r')
    (h : (m.addParameters ts).value.toList ++ r = (m.addParameters ts').value.toList ++ r') :
    ts = ts' ∧ r = r' := by
  cases ts with
  | nil =>
    cases ts' with
    | nil => exact ⟨rfl, List.append_cancel_left h⟩
    | cons x ts' => exact absurd h (addParameters_cons_ne hsp hm (hts' x List.mem_cons_self) ts')
  | cons x ts =>
    cases ts' with
    | nil => exact absurd h.symm (addParameters_cons_ne hsp hm (hts x List.mem_cons_self) ts)
    | cons x' ts' => exact foldl_addPassed_append_inj hsp hm hts hts' hr hr' h

theorem addParameters_text (m : Mangle) (ts : List (TypeId × Spelling)) :
    ∃ text, (m.addParameters ts).value.toList = m.value.toList ++ text := by
  rw [addParameters]
  split
  · exact ⟨_, toList_addText m "v"⟩
  · exact foldl_addPassed m ts

theorem Indexed.foldl_addPassed (hm : m.Indexed) (ts : List (TypeId × Spelling)) :
    (ts.foldl (fun m x => m.addPassed x.1 x.2) m).Indexed := by
  induction ts generalizing m with
  | nil => exact hm
  | cons x ts ih => exact ih (hm.addPassed x.1 x.2)

theorem Indexed.addParameters (hm : m.Indexed) (ts : List (TypeId × Spelling)) :
    (m.addParameters ts).Indexed := by
  rw [Mangle.addParameters]
  split
  · exact hm.addText "v"
  · exact hm.foldl_addPassed ts

end Mangle

end Codegen
