import TextTemplate.Proofs.Binary64.Rounding
import TextTemplate.Proofs.Decimal.Positional
import TextTemplate.Proofs.Numeral.Digits
import TextTemplate.Proofs.Path.Walking

/-!
# Reaching items by numerals

The items of a sequence stand at the keys that are the numerals of their indices, without a sign and
without superfluous zeros (`IsNumeralOf`): an item at one key, and nothing at any other
(`lookup_by_numeral`).  The digits of a key are not bounded, and neither is the index they denote.
An index that is an unsigned integer of 64 bits is read by arithmetic that fails beyond them
(`Numeral.read64?`); it fails for the numbers that do not fit, and comes to no other one
(`Numeral.read64?_eq_some_iff`), so no sequence of up to `2 ^ 64` items shows a difference
(`itemAt?_eq_bind_arrayIndex?`).  The count of the items is exact, however many there are.
-/

namespace TextTemplate

/-! ### Checked arithmetic -/

namespace Numeral

/-- The number as an unsigned integer of 64 bits, if it is one. -/
def checked? (n : Nat) : Option UInt64 :=
  if n < UInt64.size then some (UInt64.ofNat n) else none

/-- The number with one more digit behind it.  The multiplication and the addition are checked. -/
def appendDigit? (n : UInt64) (c : Char) : Option UInt64 :=
  (checked? (10 * n.toNat)).bind fun tens => checked? (tens.toNat + (c.toNat - '0'.toNat))

/-- The number that the digits denote, read one by one. -/
def read64? (digits : List Char) : Option UInt64 :=
  digits.foldlM appendDigit? 0

theorem checked?_eq_some_iff {n : Nat} {i : UInt64} : checked? n = some i ↔ n = i.toNat := by
  unfold checked?
  constructor
  · intro h
    split at h
    · next hn =>
      obtain rfl := Option.some.inj h
      exact (UInt64.toNat_ofNat_of_lt' hn).symm
    · cases h
  · rintro rfl
    rw [if_pos i.toNat_lt, UInt64.ofNat_toNat]

theorem exists_toNat_eq {n : Nat} {i : UInt64} (h : n ≤ i.toNat) : ∃ j : UInt64, n = j.toNat :=
  ⟨UInt64.ofNat n, (UInt64.toNat_ofNat_of_lt' (h.trans_lt i.toNat_lt)).symm⟩

theorem appendDigit?_eq_some_iff {n i : UInt64} {c : Char} :
    appendDigit? n c = some i ↔ 10 * n.toNat + (c.toNat - '0'.toNat) = i.toNat := by
  simp only [appendDigit?, Option.bind_eq_some_iff, checked?_eq_some_iff]
  constructor
  · rintro ⟨tens, htens, hi⟩
    rw [htens, hi]
  · intro h
    -- a product that does not fit would not fit with the digit either
    obtain ⟨tens, htens⟩ := exists_toNat_eq (Nat.le.intro h)
    exact ⟨tens, htens, htens ▸ h⟩

/-- The digits are read exactly if the number they denote fits, and as this number. -/
theorem read64?_eq_some_iff {digits : List Char} {i : UInt64} :
    read64? digits = some i ↔ ofDigits digits = i.toNat := by
  induction digits using List.reverseRecOn generalizing i with
  | nil =>
    rw [read64?, List.foldlM_nil]
    exact checked?_eq_some_iff (n := 0)
  | append_singleton digits c ih =>
    have hread : read64? (digits ++ [c]) = (read64? digits).bind (appendDigit? · c) := by
      rw [read64?, List.foldlM_append]
      refine Option.bind_congr fun n _ => ?_
      rw [List.foldlM_cons]
      exact Option.bind_fun_some _
    rw [hread, ofDigits_concat, Option.bind_eq_some_iff]
    simp only [ih, appendDigit?_eq_some_iff]
    constructor
    · rintro ⟨n, hn, hi⟩
      rw [hn, hi]
    · intro h
      have hle : ofDigits digits ≤ i.toNat := by omega
      obtain ⟨n, hn⟩ := exists_toNat_eq hle
      exact ⟨n, hn, hn ▸ h⟩

end Numeral

/-! ### Numerals -/

/-- The key is the numeral of the index: digits, no superfluous zeros in front, nothing else. -/
structure IsNumeralOf (key : String) (i : Nat) : Prop where
  isWhole : IsWhole key.toList
  value : Numeral.ofDigits key.toList = i

/-- The index a key of digits stands for, an unsigned integer of 64 bits. -/
def arrayIndex? (key : String) : Option UInt64 :=
  if !isArgumentKey key || (decide (1 < key.length) && key.toList.head? == some '0') then none
  else Numeral.read64? key.toList

section Numerals

variable {key : String} {i : Nat}

theorem isNumeralOf_iff : IsNumeralOf key i ↔ key.toList = Nat.toDigits 10 i := by
  constructor
  · rintro ⟨⟨hne, hdigits, hfront⟩, rfl⟩
    obtain ⟨zeros, hzeros⟩ := Numeral.denotes_ofDigits hne hdigits
    cases zeros with
    | zero => exact hzeros
    | succ zeros =>
      -- behind a zero there is nothing
      rw [List.replicate_succ, List.cons_append] at hzeros
      rcases hfront with hzero | hhead
      · rw [hzero]
        rfl
      · exact absurd (by rw [hzeros]; rfl) hhead
  · intro h
    refine ⟨?_, ?_⟩
    · rw [h]
      exact isWhole_toDigits i
    · rw [h, Numeral.ofDigits_toDigits]

theorem existsUnique_isNumeralOf (i : Nat) : ∃! key, IsNumeralOf key i := by
  simp only [isNumeralOf_iff]
  refine ⟨String.ofList (Nat.toDigits 10 i), String.toList_ofList, fun key hkey => ?_⟩
  rw [← hkey, String.ofList_toList]

/-- A key stands for the index of which it is the numeral. -/
theorem arrayIndex?_eq_some_iff {i : UInt64} :
    arrayIndex? key = some i ↔ IsNumeralOf key i.toNat := by
  have hargs : isArgumentKey key ↔ key.toList ≠ [] ∧ ∀ c ∈ key.toList, c.isDigit :=
    isArgumentKey_iff_isDigit
  have hfront : (1 < key.length ∧ key.toList.head? = some '0') ↔
      ¬ (key.toList = ['0'] ∨ key.toList.head? ≠ some '0') := by
    rw [← String.length_toList]
    rcases key.toList with _ | ⟨c, _ | ⟨d, rest⟩⟩ <;> simp
  have hrefused : (!isArgumentKey key ||
      (decide (1 < key.length) && key.toList.head? == some '0')) = true ↔ ¬ IsWhole key.toList := by
    rw [Bool.or_eq_true, Bool.not_eq_true', ← Bool.not_eq_true, hargs, Bool.and_eq_true,
      decide_eq_true_iff, beq_iff_eq, hfront, ← not_and_or]
    refine not_congr ⟨fun ⟨⟨hne, hdigits⟩, hhead⟩ => ⟨hne, hdigits, hhead⟩, fun h => ?_⟩
    exact ⟨⟨h.ne_nil, h.isDigit⟩, h.eq_or_head?⟩
  rw [arrayIndex?]
  split
  · next hcond =>
    exact ⟨nofun, fun h => absurd h.isWhole (hrefused.mp hcond)⟩
  · next hcond =>
    have hwhole : IsWhole key.toList := not_not.mp (mt hrefused.mpr hcond)
    rw [Numeral.read64?_eq_some_iff]
    exact ⟨fun h => ⟨hwhole, h⟩, IsNumeralOf.value⟩

-- the first number of 65 bits is not taken for zero
example : arrayIndex? "18446744073709551616" = none := by decide +kernel

end Numerals

/-! ### Items -/

/-- What stands at a key of a sequence, by the indices of which the key is the numeral. -/
structure FoundAtIndex {α : Type} (found : Option α) (items : List α) (key : String) : Prop where
  isSome_iff : found.isSome ↔ ∃ i < items.length, IsNumeralOf key i
  eq_getElem? : ∀ i, IsNumeralOf key i → found = items[i]?
  eq_bind : items.length ≤ UInt64.size →
    found = (arrayIndex? key).bind fun i => items[i.toNat]?

section Items

variable {α β : Type} {items : List α} {key : String}

theorem itemAt?_of_isNumeralOf {i : Nat} (h : IsNumeralOf key i) (items : List α) :
    itemAt? items key = items[i]? := by
  rw [itemAt?, Numeral.index?_eq_some_iff.mpr (isNumeralOf_iff.mp h), Option.bind_some]

theorem itemAt?_map (f : α → β) (items : List α) (key : String) :
    itemAt? (items.map f) key = (itemAt? items key).map f := by
  simp only [itemAt?, Option.map_bind, List.getElem?_map, Function.comp_def]

/-- Up to `2 ^ 64` items can be found by an index of 64 bits. -/
theorem itemAt?_eq_bind_arrayIndex? (h : items.length ≤ UInt64.size) (key : String) :
    itemAt? items key = (arrayIndex? key).bind fun i => items[i.toNat]? := by
  ext item
  rw [itemAt?_eq_some_iff, Option.bind_eq_some_iff]
  constructor
  · rintro ⟨i, hkey, hitem⟩
    have hi : i < UInt64.size := (List.getElem?_eq_some_iff.mp hitem).1.trans_le h
    have hvalue : (UInt64.ofNat i).toNat = i := UInt64.toNat_ofNat_of_lt' hi
    refine ⟨UInt64.ofNat i, arrayIndex?_eq_some_iff.mpr (isNumeralOf_iff.mpr ?_), ?_⟩
    · rw [hvalue, hkey]
    · rw [hvalue, hitem]
  · rintro ⟨i, hkey, hitem⟩
    exact ⟨i.toNat, isNumeralOf_iff.mp (arrayIndex?_eq_some_iff.mp hkey), hitem⟩

theorem foundAtIndex_itemAt? (items : List α) (key : String) :
    FoundAtIndex (itemAt? items key) items key where
  isSome_iff := by
    rw [Option.isSome_iff_exists]
    constructor
    · rintro ⟨item, hitem⟩
      obtain ⟨i, hkey, hi⟩ := itemAt?_eq_some_iff.mp hitem
      exact ⟨i, (List.getElem?_eq_some_iff.mp hi).1, isNumeralOf_iff.mpr hkey⟩
    · rintro ⟨i, hi, hkey⟩
      exact ⟨items[i], (itemAt?_of_isNumeralOf hkey items).trans (List.getElem?_eq_getElem hi)⟩
  eq_getElem? := fun _ hkey => itemAt?_of_isNumeralOf hkey items
  eq_bind := fun h => itemAt?_eq_bind_arrayIndex? h key

end Items

theorem Path.resolve_single {s : Segment} (h : isArgumentKey s.key) (args : List Value) :
    resolve ⟨[s]⟩ args = itemAt? args s.key := by
  rw [resolve_of_isArgumentKey rfl h]
  exact Option.bind_fun_some _

/-! ### Characters -/

namespace Value

theorem step_array {key : String} (h : key ≠ "length") (items : List Value) :
    (array items).step key = itemAt? items key := if_neg h

/-- The characters of a string are found as the items of an array of them would be. -/
theorem step_string {key : String} (h : key ≠ "length") (s : String) :
    (string s).step key = itemAt? ((s.toList.map String.singleton).map string) key := by
  rw [List.map_map, itemAt?_map]
  exact if_neg h

theorem step_string_length (s : String) :
    (string s).step "length" = some (ofCount s.toList.length) := by
  rw [String.length_toList]
  rfl

end Value

theorem join_singletons (s : String) : String.join (s.toList.map String.singleton) = s := by
  rw [← String.toList_inj, String.toList_join, List.flatMap_map]
  simp

/-! ### The lookup -/

/-- A key made of digits finds the argument at the index of which it is the numeral, and any key but
`length` finds the item of an array or the character of a string there; any other key finds nothing.
Read with 64 bits a key stands for the same index, and each index has one key.  The characters of a
string, as many as its length says, are the string again if they are put together, and each of them
is a string that has itself as its only character.  As a number a length is the same up to 53 bits;
what is looked up is the length itself. -/
theorem lookup_by_numeral :
    (∀ (args : List Value) (s : Segment), s.key ≠ "" → (∀ c ∈ s.key.toList, c.isDigit) →
      FoundAtIndex (Path.resolve ⟨[s]⟩ args) args s.key) ∧
    (∀ (items : List Value) (key : String), key ≠ "length" →
      FoundAtIndex ((Value.array items).step key) items key) ∧
    (∀ s : String, ∃ parts : List String,
      parts.length = s.toList.length ∧
      String.join parts = s ∧
      (Found.borrowed (.string s)).lookup? "length" = some (.count parts.length) ∧
      (Found.text s).lookup? "length" = some (.count parts.length) ∧
      (Value.string s).step "length" = some (.ofCount parts.length) ∧
      (∀ key, key ≠ "length" →
        FoundAtIndex ((Value.string s).step key) (parts.map Value.string) key) ∧
      ∀ part ∈ parts, part.toList.length = 1 ∧
        (Found.text part).lookup? "length" = some (.count 1) ∧
        (Found.text part).lookup? "0" = some (.text part) ∧
        (Value.string part).step "length" = some (.ofCount 1) ∧
        (Value.string part).step "0" = some (.string part)) ∧
    (∀ items : List Value,
      (Found.borrowed (.array items)).lookup? "length" = some (.count items.length)) ∧
    (∀ n < 2 ^ 53, ∃ x, Value.ofCount n = .number (.finite x) ∧ x.toRat = n) ∧
    (∀ i, ∃! key, IsNumeralOf key i) ∧
    ∀ (key : String) (i : UInt64), arrayIndex? key = some i ↔ IsNumeralOf key i.toNat := by
  refine ⟨fun args s hne hdigits => ?_, fun items key hkey => ?_, fun s => ?_, fun items => rfl,
    fun n hn => ?_, existsUnique_isNumeralOf, fun key i => arrayIndex?_eq_some_iff⟩
  · have hkey : isArgumentKey s.key := by
      rw [isArgumentKey_iff_isDigit, ne_eq, String.toList_eq_nil_iff]
      exact ⟨hne, hdigits⟩
    rw [Path.resolve_single hkey]
    exact foundAtIndex_itemAt? args s.key
  · rw [Value.step_array hkey]
    exact foundAtIndex_itemAt? items key
  · have hlength : (s.toList.map String.singleton).length = s.toList.length := List.length_map _
    refine ⟨s.toList.map String.singleton, hlength, join_singletons s, ?_, ?_, ?_,
      fun key hkey => ?_, fun part hpart => ?_⟩
    · rw [hlength]
      rfl
    · rw [hlength]
      rfl
    · rw [hlength, Value.step_string_length]
    · rw [Value.step_string hkey]
      exact foundAtIndex_itemAt? _ key
    · obtain ⟨c, -, rfl⟩ := List.mem_map.mp hpart
      rw [String.toList_singleton, Found.step_singleton, Found.step_singleton, Found.lookup?,
        Found.lookup?, Found.stringLookup?_singleton, Found.stringLookup?_singleton]
      exact ⟨rfl, rfl, rfl, rfl, rfl⟩
  · obtain ⟨x, hx, hvalue⟩ := Binary64.exists_ofNat_eq hn
    exact ⟨x, congrArg Value.number hx, hvalue⟩

end TextTemplate
