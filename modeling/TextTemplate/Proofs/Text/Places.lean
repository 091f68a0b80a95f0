import TextTemplate.Proofs.Template.Slice

/-!
# Places in a text

A place is a number of bytes of UTF-8 from the start of a text.  `place?` finds a character,
`byteAt?` looks at a single byte, and `cut?` takes what stands between two places: it fails if they
are out of order, out of bounds, or inside a character.

Where a text is put together from two, the place of the seam can be cut at (`cut?_eq_some`), and the
byte there is an ASCII character exactly if the second text begins with this character
(`byteAt?_eq_some_iff`), since the first byte of any other character is not ASCII.
-/

namespace TextTemplate

/-! ### Byte lengths -/

section ByteLength

variable {text : List Char} {c : Char}

@[simp]
theorem byteLength_nil : byteLength [] = 0 := rfl

theorem byteLength_singleton (c : Char) : byteLength [c] = c.utf8Size :=
  String.utf8ByteSize_singleton

theorem byteLength_cons (c : Char) (text : List Char) :
    byteLength (c :: text) = c.utf8Size + byteLength text := by
  have happend := byteLength_append [c] text
  rwa [List.singleton_append, byteLength_singleton] at happend

theorem byteLength_concat (text : List Char) (c : Char) :
    byteLength (text ++ [c]) = byteLength text + c.utf8Size := by
  rw [byteLength_append, byteLength_singleton]

theorem byteLength_pos (h : text ≠ []) : 0 < byteLength text := by
  obtain ⟨c, text, rfl⟩ := List.exists_cons_of_ne_nil h
  have hc := c.utf8Size_pos
  rw [byteLength_cons]
  omega

theorem byteLength_toList (text : String) : byteLength text.toList = text.utf8ByteSize := by
  rw [byteLength, String.ofList_toList]

/-- A text of characters that take one byte each has as many bytes as characters. -/
theorem byteLength_eq_length (h : ∀ c ∈ text, c.utf8Size = 1) : byteLength text = text.length := by
  induction text with
  | nil => rfl
  | cons c text ih =>
    have hc : c.utf8Size = 1 := h c List.mem_cons_self
    have htext := ih fun d hd => h d (List.mem_cons_of_mem _ hd)
    rw [byteLength_cons, hc, htext, List.length_cons, Nat.add_comm]

theorem byteLength_le_of_sublist {other : List Char} (h : text.Sublist other) :
    byteLength text ≤ byteLength other := by
  induction h with
  | slnil => exact Nat.le_refl _
  | cons c _ ih =>
    rw [byteLength_cons]
    omega
  | cons_cons c _ ih =>
    rw [byteLength_cons, byteLength_cons]
    omega

end ByteLength

/-! ### Cutting -/

/-- The text from byte `start` to byte `stop`, both of which must be ends of characters. -/
def cut? (text : List Char) (start stop : Nat) : Option (List Char) :=
  (slice? (String.ofList text) start stop).map String.toList

theorem cut?_append (before text after : List Char) :
    cut? (before ++ (text ++ after)) (byteLength before) (byteLength before + byteLength text) =
      some text := by
  have hslice := slice?_append (String.ofList before) (String.ofList text) (String.ofList after)
  rw [cut?, String.ofList_append, String.ofList_append, ← String.append_assoc, byteLength,
    byteLength, hslice, Option.map_some, String.toList_ofList]

/-- What stands in a text is cut out of it at its place. -/
theorem cut?_eq_some (before after : List Char) {text part : List Char} {start stop : Nat}
    (htext : text = before ++ (part ++ after)) (hstart : start = byteLength before)
    (hstop : stop = byteLength (before ++ part)) : cut? text start stop = some part := by
  rw [htext, hstart, hstop, byteLength_append]
  exact cut?_append before part after

/-- Everything from a place on. -/
theorem cut?_to_end (before text : List Char) :
    cut? (before ++ text) (byteLength before) (byteLength (before ++ text)) = some text :=
  cut?_eq_some before [] (by rw [List.append_nil]) rfl rfl

/-- Everything up to a place. -/
theorem cut?_from_start (text after : List Char) :
    cut? (text ++ after) 0 (byteLength text) = some text := by
  have hcut := cut?_append [] text after
  rwa [List.nil_append, byteLength_nil, Nat.zero_add] at hcut

/-- Where a text can be cut it is put together from two. -/
theorem exists_append_of_cut? {text part : List Char} {start stop : Nat}
    (h : cut? text start stop = some part) :
    ∃ before after, text = before ++ after ∧ start = byteLength before := by
  rw [cut?, Option.map_eq_some_iff] at h
  obtain ⟨slice, hslice, -⟩ := h
  unfold slice? at hslice
  split at hslice
  · next hvalid =>
    obtain ⟨before, after, hsplit, hstart⟩ := String.Pos.Raw.isValid_iff_exists_append.mp hvalid.1
    refine ⟨before.toList, after.toList, ?_, ?_⟩
    · rw [← String.toList_append, ← hsplit, String.toList_ofList]
    · rw [byteLength_toList]
      exact congrArg String.Pos.Raw.byteIdx hstart
  · cases hslice

/-! ### Single bytes -/

/-- The byte at a place of the text. -/
def byteAt? (text : List Char) (place : Nat) : Option UInt8 :=
  (text.flatMap String.utf8EncodeChar)[place]?

theorem length_flatMap_utf8EncodeChar (text : List Char) :
    (text.flatMap String.utf8EncodeChar).length = byteLength text := by
  induction text with
  | nil => rfl
  | cons c text ih =>
    rw [List.flatMap_cons, List.length_append, ih, String.length_utf8EncodeChar, byteLength_cons]

theorem byteAt?_append (before after : List Char) :
    byteAt? (before ++ after) (byteLength before) =
      (after.flatMap String.utf8EncodeChar).head? := by
  rw [byteAt?, List.flatMap_append, ← length_flatMap_utf8EncodeChar, List.getElem?_append_right
    (Nat.le_refl _), Nat.sub_self, List.head?_eq_getElem?]

/-- A character begins with the byte of an ASCII character only if it is this one. -/
theorem head?_utf8EncodeChar_eq_iff {c d : Char} (hd : d.toNat < 128) :
    (String.utf8EncodeChar c).head? = some d.toUInt8 ↔ c = d := by
  constructor
  · intro h
    have hnat : ∀ n, some (UInt8.ofNat n) = some d.toUInt8 → n % 256 = d.toNat := by
      intro n hn
      have hbyte := congrArg UInt8.toNat (Option.some.inj hn)
      rw [UInt8.toNat_ofNat', Char.toUInt8, UInt32.toNat_toUInt8] at hbyte
      have hd' : d.val.toNat = d.toNat := rfl
      omega
    have hc : c.val.toNat = c.toNat := rfl
    apply Char.toNat_inj.mp
    unfold String.utf8EncodeChar at h
    simp only [hc] at h
    -- one to four bytes, the first of which is below 128 only if it is the only one
    split at h
    · have := hnat _ h
      omega
    · split at h
      · have := hnat _ h
        omega
      · split at h
        · have := hnat _ h
          omega
        · have := hnat _ h
          omega
  · rintro rfl
    have hle : c.val.toNat ≤ 127 := Nat.le_of_lt_succ hd
    rw [String.utf8EncodeChar, if_pos hle]
    rfl

/-- Where a part of the text ends stands the byte of an ASCII character exactly if what follows
begins with it. -/
theorem byteAt?_eq_some_iff (before after : List Char) {d : Char} {text : List Char} {place : Nat}
    (hd : d.toNat < 128) (htext : text = before ++ after) (hplace : place = byteLength before) :
    byteAt? text place = some d.toUInt8 ↔ after.head? = some d := by
  rw [htext, hplace, byteAt?_append]
  cases after with
  | nil => simp
  | cons c after =>
    have hhead : ((c :: after).flatMap String.utf8EncodeChar).head? =
        (String.utf8EncodeChar c).head? := by
      obtain ⟨b, bytes, hbytes⟩ :=
        List.exists_cons_of_ne_nil (String.utf8EncodeChar_ne_nil (c := c))
      rw [List.flatMap_cons, hbytes]
      rfl
    rw [hhead, head?_utf8EncodeChar_eq_iff hd, List.head?_cons, Option.some.injEq]

/-! ### Finding a character -/

/-- The place of the first `d` in the text. -/
def place? (d : Char) (text : List Char) : Option Nat :=
  if d ∈ text then some (byteLength (text.takeWhile (· != d))) else none

theorem place?_of_notMem {d : Char} {text : List Char} (h : d ∉ text) : place? d text = none :=
  if_neg h

/-- The first `d` stands behind the run without it. -/
theorem place?_append {d : Char} {run : List Char} (h : d ∉ run) (rest : List Char) :
    place? d (run ++ d :: rest) = some (byteLength run) := by
  rw [place?, if_pos (by simp), takeWhile_run_append h (.inr rfl)]

/-- What is not in a text is found only behind it. -/
theorem le_of_place?_append {d : Char} {run rest : List Char} {place : Nat} (h : d ∉ run)
    (hplace : place? d (run ++ rest) = some place) : byteLength run ≤ place := by
  unfold place? at hplace
  split at hplace
  · obtain rfl := Option.some.inj hplace
    rw [List.takeWhile_append_of_pos fun c hc => ne_of_mem_of_notMem h hc, byteLength_append]
    exact Nat.le_add_right _ _
  · cases hplace

end TextTemplate
