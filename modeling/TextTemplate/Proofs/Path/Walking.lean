import TextTemplate.Path.Resolve
import TextTemplate.Proofs.Path.RoundTrip

/-!
# Following a path by a loop

What a path leads to is defined by a walk over values.  The loop that looks the keys up one after
the other has to say of each value whether it stands in an argument or was made on the way
(`Found`), and goes into a made value only if that is a string (`Path.follow`).  It keeps a count as
it is, which only its value as a number may round.  Both lead to the same
(`Path.resolve_by_walking`): what is made on the way is a string of one character or a count
(`Found.IsFrom`), and no key goes into a count.
-/

namespace TextTemplate

/-! ### Items -/

section Items

variable {α : Type} {items : List α} {key : String}

theorem itemAt?_eq_some_iff {item : α} :
    itemAt? items key = some item ↔
      ∃ i, key.toList = Nat.toDigits 10 i ∧ items[i]? = some item := by
  simp only [itemAt?, Option.bind_eq_some_iff, Numeral.index?_eq_some_iff]

theorem itemAt?_eq_none (h : ∀ i < items.length, key.toList ≠ Nat.toDigits 10 i) :
    itemAt? items key = none := by
  rw [Option.eq_none_iff_forall_ne_some]
  intro item hitem
  obtain ⟨i, hkey, hi⟩ := itemAt?_eq_some_iff.mp hitem
  exact h i (List.getElem?_eq_some_iff.mp hi).1 hkey

theorem itemAt?_zero (items : List α) : itemAt? items "0" = items.head? := by
  have hindex : Numeral.index? "0".toList = some 0 := Numeral.index?_eq_some_iff.mpr rfl
  rw [itemAt?, hindex, Option.bind_some, List.head?_eq_getElem?]

theorem mem_of_itemAt? {item : α} (h : itemAt? items key = some item) : item ∈ items := by
  obtain ⟨i, -, hi⟩ := itemAt?_eq_some_iff.mp h
  exact List.mem_of_getElem? hi

theorem itemAt?_singleton (item : α) (key : String) :
    itemAt? [item] key = if key = "0" then some item else none := by
  split
  · next hkey => rw [hkey, itemAt?_zero, List.head?_cons]
  · next hkey =>
    refine itemAt?_eq_none fun i hi hdigits => hkey ?_
    obtain rfl : i = 0 := by simpa using hi
    exact String.toList_inj.mp hdigits

end Items

theorem isArgumentKey_iff_isDigit {key : String} :
    isArgumentKey key ↔ key.toList ≠ [] ∧ ∀ c ∈ key.toList, c.isDigit := by
  simp [isArgumentKey, ← Bool.not_eq_true, String.isEmpty_iff]

/-- A key that can be written addresses the argument list if it has digits only. -/
theorem isArgumentKey_iff {key : String} (hkey : IsKey key) :
    isArgumentKey key ↔ ∀ c ∈ key.toList, c.isDigit := by
  rw [isArgumentKey_iff_isDigit, and_iff_right hkey.ne_nil]

/-! ### Values inside of values -/

namespace Value

/-- The value occurs in another one, at any depth. -/
inductive IsIn (v : Value) : Value → Prop
  | refl : IsIn v v
  | item {items : List Value} {w : Value} : w ∈ items → IsIn v w → IsIn v (.array items)
  | field {fields : List (String × Value)} {key : String} {w : Value} :
    (key, w) ∈ fields → IsIn v w → IsIn v (.object fields)

variable {u v w : Value} {keys : List String}

theorem IsIn.trans (h : u.IsIn v) (h' : v.IsIn w) : u.IsIn w := by
  induction h' with
  | refl => exact h
  | item hmem _ ih => exact .item hmem ih
  | field hmem _ ih => exact .field hmem ih

theorem isIn_of_lookup {fields : List (String × Value)} {key : String}
    (h : fields.lookup key = some v) : v.IsIn (.object fields) := by
  obtain ⟨before, after, rfl, -⟩ := List.lookup_eq_some_iff.mp h
  have hmem : (key, v) ∈ before ++ (key, v) :: after := by simp
  exact .field hmem .refl

theorem walk_append (keys others : List String) (v : Value) :
    walk (keys ++ others) v = (walk keys v).bind (walk others) := by
  induction keys generalizing v with
  | nil => rfl
  | cons key keys ih =>
    show (v.step key).bind (walk (keys ++ others)) = ((v.step key).bind (walk keys)).bind _
    rw [Option.bind_assoc]
    exact Option.bind_congr fun w _ => ih w

end Value

/-! ### The loop -/

/-- What was come to: a value that stands in an argument, or a string or a count that was made on
the way. -/
inductive Found where
  | borrowed (v : Value)
  | text (s : String)
  | count (n : Nat)

/-- What a key makes of a string. -/
def stringLookup? (key : String) (s : String) : Option Found :=
  if key = "length" then some (.count s.toList.length)
  else (itemAt? s.toList key).map fun c => .text (String.singleton c)

namespace Found

def value : Found → Value
  | borrowed v => v
  | text s => .string s
  | count n => .ofCount n

/-- What a key leads to.  Of what was made, only a string is gone into. -/
def lookup? (key : String) : Found → Option Found
  | borrowed (.object fields) => (fields.lookup key).map borrowed
  | borrowed (.array items) =>
    if key = "length" then some (count items.length)
    else (itemAt? items key).map borrowed
  | borrowed (.string s) => stringLookup? key s
  | text s => stringLookup? key s
  | _ => none

/-- What can be come to from the arguments. -/
inductive IsFrom (args : List Value) : Found → Prop
  | borrowed {arg v : Value} : arg ∈ args → v.IsIn arg → IsFrom args (.borrowed v)
  | character (c : Char) : IsFrom args (.text (String.singleton c))
  | count (n : Nat) : IsFrom args (.count n)

variable {args : List Value} {found next : Found} {key : String}

theorem map_value_stringLookup? (key s : String) :
    (stringLookup? key s).map value = (Value.string s).step key := by
  rw [stringLookup?, Value.step, String.length_toList]
  split
  · rfl
  · rw [Option.map_map]
    rfl

/-- Two keys lead on from a string of one character, one of them back to it. -/
theorem stringLookup?_singleton (c : Char) (key : String) :
    stringLookup? key (String.singleton c) =
      if key = "length" then some (count 1)
      else if key = "0" then some (text (String.singleton c)) else none := by
  rw [stringLookup?, String.toList_singleton, itemAt?_singleton]
  split
  · rfl
  · split <;> rfl

theorem step_singleton (c : Char) (key : String) :
    (Value.string (String.singleton c)).step key =
      if key = "length" then some (.ofCount 1)
      else if key = "0" then some (.string (String.singleton c)) else none := by
  rw [← map_value_stringLookup?, stringLookup?_singleton]
  split
  · rfl
  · split <;> rfl

/-- A lookup is a step of the walk. -/
theorem IsFrom.map_value_lookup? (h : found.IsFrom args) (key : String) :
    (found.lookup? key).map value = found.value.step key := by
  cases h with
  | @borrowed arg v _ _ =>
    cases v with
    | null | bool | number => rfl
    | string s => exact map_value_stringLookup? key s
    | array items =>
      show (lookup? key (.borrowed (.array items))).map value = (Value.array items).step key
      rw [lookup?, Value.step]
      split
      · rfl
      · rw [Option.map_map]
        exact Option.map_id'
    | object fields =>
      show ((fields.lookup key).map Found.borrowed).map value = fields.lookup key
      rw [Option.map_map]
      exact Option.map_id'
  | character c => exact map_value_stringLookup? key _
  | count n => rfl

theorem isFrom_of_stringLookup? {s : String} (h : stringLookup? key s = some found) :
    found.IsFrom args := by
  rw [stringLookup?] at h
  split at h
  · obtain rfl := Option.some.inj h
    exact .count _
  · obtain ⟨c, -, rfl⟩ := Option.map_eq_some_iff.mp h
    exact .character c

/-- A lookup comes to what can be come to. -/
theorem IsFrom.lookup? (h : found.IsFrom args) (hnext : found.lookup? key = some next) :
    next.IsFrom args := by
  cases h with
  | @borrowed arg v harg hv =>
    cases v with
    | null | bool | number => cases hnext
    | string s => exact isFrom_of_stringLookup? hnext
    | array items =>
      -- an item stays in its argument, the length is made
      rw [Found.lookup?] at hnext
      split at hnext
      · obtain rfl := Option.some.inj hnext
        exact .count _
      · obtain ⟨w, hw, rfl⟩ := Option.map_eq_some_iff.mp hnext
        exact .borrowed harg ((Value.IsIn.item (mem_of_itemAt? hw) .refl).trans hv)
    | object fields =>
      obtain ⟨w, hw, rfl⟩ := Option.map_eq_some_iff.mp hnext
      exact .borrowed harg ((Value.isIn_of_lookup hw).trans hv)
  | character c => exact isFrom_of_stringLookup? hnext
  | count n => cases hnext

/-- The lookup of key after key. -/
def follow (keys : List String) (found : Found) : Option Found :=
  keys.foldlM (fun found key => found.lookup? key) found

theorem follow_cons (key : String) (keys : List String) (found : Found) :
    follow (key :: keys) found = (found.lookup? key).bind (follow keys) :=
  List.foldlM_cons

/-- Looking up key after key is walking. -/
theorem IsFrom.map_value_follow (h : found.IsFrom args) (keys : List String) :
    (found.follow keys).map value = Value.walk keys found.value := by
  induction keys generalizing found with
  | nil => rfl
  | cons key keys ih =>
    -- what the first key leads to can be come to as well, so the rest is walked from there
    rw [follow_cons, Value.walk, ← h.map_value_lookup?, Option.map_bind, Option.bind_map]
    exact Option.bind_congr fun next hnext => ih (h.lookup? hnext)

theorem IsFrom.follow {keys : List String} (h : found.IsFrom args)
    (hlast : found.follow keys = some next) : next.IsFrom args := by
  induction keys generalizing found with
  | nil =>
    obtain rfl := Option.some.inj hlast
    exact h
  | cons key keys ih =>
    rw [follow_cons] at hlast
    obtain ⟨found', hfound, hlast⟩ := Option.bind_eq_some_iff.mp hlast
    exact ih (h.lookup? hfound) hlast

/-- What is come to stands in an argument, is a string of one character or is a count. -/
theorem IsFrom.value_cases (h : found.IsFrom args) :
    (∃ arg ∈ args, found.value.IsIn arg) ∨ (∃ c, found.value = .string (String.singleton c)) ∨
      ∃ n, found.value = .ofCount n := by
  cases h with
  | borrowed harg hv => exact .inl ⟨_, harg, hv⟩
  | character c => exact .inr (.inl ⟨c, rfl⟩)
  | count n => exact .inr (.inr ⟨n, rfl⟩)

end Found

namespace Path

/-- What the first key leads to, which alone may pick an argument. -/
def first? (key : String) (args : List Value) : Option Found :=
  if isArgumentKey key then (itemAt? args key).map .borrowed
  else args.head?.bind fun arg => (Found.borrowed arg).lookup? key

/-- What a path leads to, by looking up key after key. -/
def follow (p : Path) (args : List Value) : Option Found :=
  match p.keys with
  | [] => none
  | key :: keys => (first? key args).bind (Found.follow keys)

variable {p q : Path} {args : List Value} {key : String} {keys : List String}

theorem isFrom_of_first? {found : Found} (h : first? key args = some found) :
    found.IsFrom args := by
  rw [first?] at h
  split at h
  · obtain ⟨arg, harg, rfl⟩ := Option.map_eq_some_iff.mp h
    exact .borrowed (mem_of_itemAt? harg) .refl
  · obtain ⟨arg, harg, hlookup⟩ := Option.bind_eq_some_iff.mp h
    have hfrom : (Found.borrowed arg).IsFrom args := .borrowed (List.mem_of_head? harg) .refl
    exact hfrom.lookup? hlookup

theorem isFrom_of_follow {found : Found} (h : p.follow args = some found) :
    found.IsFrom args := by
  rw [follow] at h
  split at h
  · cases h
  · obtain ⟨next, hfirst, hfollow⟩ := Option.bind_eq_some_iff.mp h
    exact (isFrom_of_first? hfirst).follow hfollow

/-- The walk comes to what the loop comes to. -/
theorem resolve_eq_map_follow (p : Path) (args : List Value) :
    p.resolve args = (p.follow args).map Found.value := by
  rw [resolve, follow]
  cases p.keys with
  | nil => rfl
  | cons key keys =>
    show (if isArgumentKey key then (itemAt? args key).bind (Value.walk keys)
      else args.head?.bind (Value.walk (key :: keys))) = _
    -- either way the walk begins at an argument
    rw [Option.map_bind, first?]
    split
    · rw [Option.bind_map]
      refine Option.bind_congr fun arg harg => ?_
      have hfrom : (Found.borrowed arg).IsFrom args := .borrowed (mem_of_itemAt? harg) .refl
      exact (hfrom.map_value_follow keys).symm
    · rw [Option.bind_assoc]
      refine Option.bind_congr fun arg harg => ?_
      have hfrom : (Found.borrowed arg).IsFrom args := .borrowed (List.mem_of_head? harg) .refl
      have hwalk := hfrom.map_value_follow (key :: keys)
      rw [Found.follow_cons, Option.map_bind] at hwalk
      exact hwalk.symm

/-- A path leads to a value in an argument, to a string of one character or to a count. -/
theorem resolve_cases {v : Value} (h : p.resolve args = some v) :
    (∃ arg ∈ args, v.IsIn arg) ∨ (∃ c, v = .string (String.singleton c)) ∨
      ∃ n, v = .ofCount n := by
  rw [resolve_eq_map_follow] at h
  obtain ⟨found, hfound, rfl⟩ := Option.map_eq_some_iff.mp h
  exact (isFrom_of_follow hfound).value_cases

/-! ### The shape of a path -/

theorem resolve_congr (h : q.keys = p.keys) (args : List Value) :
    q.resolve args = p.resolve args := by
  rw [resolve, resolve, h]

theorem resolve_of_isArgumentKey (hkeys : p.keys = key :: keys) (h : isArgumentKey key)
    (args : List Value) : p.resolve args = (itemAt? args key).bind (Value.walk keys) := by
  rw [resolve, hkeys]
  exact if_pos h

theorem resolve_of_not_isArgumentKey (hkeys : p.keys = key :: keys) (h : ¬ isArgumentKey key)
    (args : List Value) : p.resolve args = args.head?.bind (Value.walk p.keys) := by
  rw [resolve, hkeys]
  exact if_neg h

/-- Behind a zero a path starts inside the first argument. -/
theorem resolve_zero (p : Path) (args : List Value) :
    resolve ⟨.dot "0" :: p.segments⟩ args = args.head?.bind (Value.walk p.keys) := by
  rw [← itemAt?_zero]
  exact resolve_of_isArgumentKey rfl (by decide) args

theorem resolve_append (h : p.segments ≠ []) (q : Path) (args : List Value) :
    resolve ⟨p.segments ++ q.segments⟩ args = (p.resolve args).bind (Value.walk q.keys) := by
  obtain ⟨s, segments, hsegments⟩ := List.exists_cons_of_ne_nil h
  have hkeys : p.keys = s.key :: segments.map Segment.key := by simp [keys, hsegments]
  have hboth : keys ⟨p.segments ++ q.segments⟩ = s.key :: (segments.map Segment.key ++ q.keys) := by
    simp [keys, hsegments]
  by_cases hdigits : isArgumentKey s.key
  · rw [resolve_of_isArgumentKey hboth hdigits, resolve_of_isArgumentKey hkeys hdigits,
      Option.bind_assoc]
    exact Option.bind_congr fun arg _ => Value.walk_append _ _ arg
  · rw [resolve_of_not_isArgumentKey hboth hdigits, resolve_of_not_isArgumentKey hkeys hdigits,
      Option.bind_assoc, hboth, hkeys]
    exact Option.bind_congr fun arg _ => Value.walk_append (s.key :: _) _ arg

theorem resolve_concat (h : p.segments ≠ []) (s : Segment) {v : Value}
    (hv : p.resolve args = some v) : resolve ⟨p.segments ++ [s]⟩ args = v.step s.key := by
  rw [resolve_append h ⟨[s]⟩, hv]
  exact Option.bind_fun_some _

/-! ### The loop and the walk -/

/-- A path that was read leads to what a walk leads to.  A first key of digits picks the argument at
the index of which it is the numeral, or nothing; with any other first key the walk starts at the
first argument, as it does behind a zero.  How a segment is written makes no difference, and more
segments are walked from where the others led to.  That is inside an argument, or it was made on
the way: a string of one character, which has a length and a first character only, or a count, from
which nothing leads on. -/
theorem resolve_by_walking {text : List Char} {p : Path} (h : parse text = .ok p)
    (args : List Value) :
    p.resolve args = (p.follow args).map Found.value ∧
    (∃ key keys, p.keys = key :: keys ∧
      ((∀ c ∈ key.toList, c.isDigit) →
        (∀ i arg, key.toList = Nat.toDigits 10 i → args[i]? = some arg →
          p.resolve args = Value.walk keys arg) ∧
        ((∀ i < args.length, key.toList ≠ Nat.toDigits 10 i) → p.resolve args = none)) ∧
      ((∃ c ∈ key.toList, ¬ c.isDigit) →
        (∀ arg others, args = arg :: others → p.resolve args = Value.walk p.keys arg) ∧
        (args = [] → p.resolve args = none) ∧
        p.resolve args = resolve ⟨.dot "0" :: p.segments⟩ args)) ∧
    (∀ q : Path, q.keys = p.keys → q.resolve args = p.resolve args) ∧
    (∀ q : Path,
      resolve ⟨p.segments ++ q.segments⟩ args = (p.resolve args).bind (Value.walk q.keys)) ∧
    (∀ v, p.resolve args = some v →
      (∃ arg ∈ args, v.IsIn arg) ∨ (∃ c, v = .string (String.singleton c)) ∨
        ∃ n, v = .ofCount n) ∧
    (∀ c s, p.resolve args = some (.string (String.singleton c)) →
      resolve ⟨p.segments ++ [s]⟩ args =
        if s.key = "length" then some (.ofCount 1)
        else if s.key = "0" then some (.string (String.singleton c)) else none) ∧
    ∀ n s, p.resolve args = some (.ofCount n) → resolve ⟨p.segments ++ [s]⟩ args = none := by
  have hwritable := isWritable_of_parse h
  have hne := hwritable.ne_nil
  obtain ⟨s, segments, hsegments⟩ := List.exists_cons_of_ne_nil hne
  have hkeys : p.keys = s.key :: segments.map Segment.key := by simp [keys, hsegments]
  have hkey : IsKey s.key := hwritable.isKey s (by simp [hsegments])
  refine ⟨resolve_eq_map_follow p args, ⟨_, _, hkeys, fun hdigits => ?_, fun hdigits => ?_⟩,
    fun q hq => resolve_congr hq args, fun q => resolve_append hne q args,
    fun v hv => resolve_cases hv, fun c t hc => ?_, fun n t hn => resolve_concat hne t hn⟩
  · -- the first key picks an argument
    have hpicks := resolve_of_isArgumentKey hkeys ((isArgumentKey_iff hkey).mpr hdigits) args
    constructor
    · intro i arg hi harg
      rw [hpicks, itemAt?_eq_some_iff.mpr ⟨i, hi, harg⟩]
      exact Option.bind_some _ _
    · intro hmisses
      rw [hpicks, itemAt?_eq_none hmisses]
      rfl
  · -- the walk starts inside the first argument
    have hother : ¬ isArgumentKey s.key := by
      rw [isArgumentKey_iff hkey]
      obtain ⟨c, hc, hdigit⟩ := hdigits
      exact fun hall => hdigit (hall c hc)
    have hstarts := resolve_of_not_isArgumentKey hkeys hother args
    refine ⟨?_, ?_, hstarts.trans (resolve_zero p args).symm⟩
    · rintro arg others rfl
      exact hstarts
    · rintro rfl
      exact hstarts
  · rw [resolve_concat hne t hc]
    exact Found.step_singleton c t.key

/-- Field, item and character are looked up before the count. -/
theorem resolve_by_walking_items :
    parse "items[1].0.length".toList =
        .ok ⟨[.dot "items", .bracket "1", .dot "0", .dot "length"]⟩ ∧
      (follow ⟨[.dot "items", .bracket "1", .dot "0", .dot "length"]⟩
        [.object [("items", .array [.string "x", .string "yz"])]]).map Found.value =
        some (.ofCount 1) := by
  have hparse : parse "items[1].0.length".toList =
      .ok ⟨[.dot "items", .bracket "1", .dot "0", .dot "length"]⟩ := by decide +kernel
  refine ⟨hparse, ?_⟩
  rw [← (resolve_by_walking hparse _).1]
  rfl

end Path

end TextTemplate
