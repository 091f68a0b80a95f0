import TextTemplate.Proofs.Decimal.Positional
import TextTemplate.Proofs.Numeral.Digits
import TextTemplate.Proofs.Text.Runs
import TextTemplate.Specifier.Format

/-!
# The grammar of specifiers

Every text has exactly one division into flags, a width, a precision and a kind, each of the first
three as long as it can be (`Parts.existsUnique_divides`), and a specifier is read off these parts
(`Parts.Divides.parse_eq`).  Reading undoes writing for just the specifiers that texts can ask for
(`isBounded_iff`), so a specifier that is read and written anew changes no number that is formatted
under it.
-/

namespace TextTemplate.Specifier

/-! ### The parts of a text -/

/-- The parts of a specifier's text.  The digits of a precision stand behind a point, and there is
no point without them. -/
structure Parts where
  flags : List Char
  width : List Char
  precision : List Char
  kind : List Char

namespace Parts

/-- The precision with its point. -/
def point (p : Parts) : List Char := if p.precision = [] then [] else '.' :: p.precision

/-- The parts make up the text.  Flags, width and precision are the longest runs that stand where
they begin, and a point goes to the kind only if no digit follows it. -/
structure Divides (p : Parts) (text : List Char) : Prop where
  text_eq : text = p.flags ++ (p.width ++ (p.point ++ p.kind))
  flags : IsLongestRun Flags.isFlag p.flags text
  width : IsLongestRun Char.isDigit p.width (p.width ++ (p.point ++ p.kind))
  precision : IsLongestRun Char.isDigit p.precision (p.precision ++ p.kind)
  no_point : p.precision = [] → ∀ c rest, p.kind = '.' :: c :: rest → ¬ c.isDigit

/-- The parts that reading finds in a text. -/
def ofText (text : List Char) : Parts :=
  let afterFlags := text.dropWhile Flags.isFlag
  let split := splitPrecision (afterFlags.dropWhile Char.isDigit)
  { flags := text.takeWhile Flags.isFlag
    width := afterFlags.takeWhile Char.isDigit
    precision := split.1
    kind := split.2 }

/-- The specifier that the parts ask for. -/
def specifier (p : Parts) : Specifier where
  flags := Flags.ofChars p.flags
  width := padding? p.width
  precision := padding? p.precision
  kind := Kind.ofCode p.kind

theorem parse_eq_specifier (text : List Char) : parse text = (ofText text).specifier := rfl

/-! ### There is one division -/

section Divide

variable {p : Parts} {text : List Char}

/-- A point is split off with its digits if there are any. -/
theorem splitPrecision_point_append (hdigits : ∀ c ∈ p.precision, c.isDigit)
    (hkind : ∀ c ∈ p.kind.head?, ¬ c.isDigit)
    (hpoint : p.precision = [] → ∀ c rest, p.kind = '.' :: c :: rest → ¬ c.isDigit) :
    splitPrecision (p.point ++ p.kind) = (p.precision, p.kind) := by
  by_cases hnil : p.precision = []
  · rw [point, if_pos hnil, List.nil_append, hnil]
    unfold splitPrecision
    split
    · next rest heq =>
      have htake : rest.takeWhile Char.isDigit = [] := by
        cases rest with
        | nil => rfl
        | cons c rest => exact List.takeWhile_cons_of_neg (hpoint hnil c rest heq)
      rw [htake, heq]
      rfl
    · rfl
  · have htake := takeWhile_append_of_head? hdigits hkind
    have hdrop := dropWhile_append_of_head? hdigits hkind
    rw [point, if_neg hnil, List.cons_append, splitPrecision, htake, hdrop,
      if_neg (by simpa using hnil)]

/-- What a division says about the characters where its parts meet. -/
theorem divides_iff :
    p.Divides text ↔ text = p.flags ++ (p.width ++ (p.point ++ p.kind)) ∧
      ((∀ c ∈ p.flags, Flags.isFlag c) ∧
        ∀ c ∈ (p.width ++ (p.point ++ p.kind)).head?, ¬ Flags.isFlag c) ∧
      ((∀ c ∈ p.width, c.isDigit) ∧ ∀ c ∈ (p.point ++ p.kind).head?, ¬ c.isDigit) ∧
      ((∀ c ∈ p.precision, c.isDigit) ∧ ∀ c ∈ p.kind.head?, ¬ c.isDigit) ∧
      (p.precision = [] → ∀ c rest, p.kind = '.' :: c :: rest → ¬ c.isDigit) := by
  constructor
  · rintro ⟨rfl, hflags, hwidth, hprecision, hpoint⟩
    exact ⟨rfl, isLongestRun_append_iff.mp hflags, isLongestRun_append_iff.mp hwidth,
      isLongestRun_append_iff.mp hprecision, hpoint⟩
  · rintro ⟨rfl, hflags, hwidth, hprecision, hpoint⟩
    exact ⟨rfl, isLongestRun_append_iff.mpr hflags, isLongestRun_append_iff.mpr hwidth,
      isLongestRun_append_iff.mpr hprecision, hpoint⟩

theorem Divides.eq_ofText (h : p.Divides text) : p = ofText text := by
  obtain ⟨rfl, ⟨hflags, hflagless⟩, ⟨hwidth, hdigitless⟩, ⟨hprecision, hkind⟩, hpoint⟩ :=
    divides_iff.mp h
  unfold ofText
  rw [takeWhile_append_of_head? hflags hflagless, dropWhile_append_of_head? hflags hflagless]
  simp only [takeWhile_append_of_head? hwidth hdigitless,
    dropWhile_append_of_head? hwidth hdigitless,
    splitPrecision_point_append hprecision hkind hpoint]

/-- The point is split off exactly if digits follow it, and all of them go with it. -/
theorem splitPrecision_spec {rest digits kind : List Char} (hrest : ∀ c ∈ rest.head?, ¬ c.isDigit)
    (h : splitPrecision rest = (digits, kind)) :
    (if digits = [] then [] else '.' :: digits) ++ kind = rest ∧
      IsLongestRun Char.isDigit digits (digits ++ kind) ∧
      (digits = [] → ∀ c behind, kind = '.' :: c :: behind → ¬ c.isDigit) := by
  have hnone : IsLongestRun Char.isDigit [] ([] ++ rest) :=
    isLongestRun_append_iff.mpr ⟨fun c hc => absurd hc List.not_mem_nil, hrest⟩
  unfold splitPrecision at h
  split at h
  · next cs =>
    split at h
    · next hempty =>
      cases h
      refine ⟨rfl, hnone, fun _ c behind heq hc => ?_⟩
      obtain rfl := (List.cons.inj heq).2
      rw [List.takeWhile_cons_of_pos hc] at hempty
      cases hempty
    · next hempty =>
      cases h
      have hne : cs.takeWhile Char.isDigit ≠ [] := by simpa using hempty
      rw [if_neg hne, List.cons_append, List.takeWhile_append_dropWhile]
      exact ⟨rfl, isLongestRun_takeWhile _ cs, fun hnil => absurd hnil hne⟩
  · next hpoint =>
    cases h
    exact ⟨rfl, hnone, fun _ c behind heq => absurd heq (hpoint _)⟩

theorem divides_ofText (text : List Char) : (ofText text).Divides text := by
  have hdigitless : ∀ c ∈ ((text.dropWhile Flags.isFlag).dropWhile Char.isDigit).head?,
      ¬ c.isDigit := by
    intro c hc
    have h := List.head?_dropWhile_not Char.isDigit (text.dropWhile Flags.isFlag)
    rw [hc] at h
    simpa using h
  have hsplit : splitPrecision ((text.dropWhile Flags.isFlag).dropWhile Char.isDigit) =
      ((ofText text).precision, (ofText text).kind) := rfl
  obtain ⟨hrest, hprecision, hpoint⟩ := splitPrecision_spec hdigitless hsplit
  have hbehind : (ofText text).width ++ ((ofText text).point ++ (ofText text).kind) =
      text.dropWhile Flags.isFlag := by
    have hpointed : (ofText text).point ++ (ofText text).kind =
        (text.dropWhile Flags.isFlag).dropWhile Char.isDigit := hrest
    rw [hpointed]
    exact List.takeWhile_append_dropWhile
  refine ⟨?_, isLongestRun_takeWhile _ text, ?_, hprecision, hpoint⟩
  · rw [hbehind]
    exact List.takeWhile_append_dropWhile.symm
  · rw [hbehind]
    exact isLongestRun_takeWhile _ _

theorem not_isFlag_of_isDigit {c : Char} (h : c.isDigit) (hc : c ≠ '0') : ¬ Flags.isFlag c := by
  intro hflag
  simp only [Flags.isFlag, Bool.or_eq_true, beq_iff_eq] at hflag
  rcases hflag with ((rfl | rfl) | rfl) | rfl
  · exact absurd h (by decide)
  · exact absurd h (by decide)
  · exact absurd h (by decide)
  · exact hc rfl

/-- Flags, digits and a kind that cannot be taken for one another divide what they make up, if the
width does not begin with a flag. -/
theorem divides_append (hflags : ∀ c ∈ p.flags, Flags.isFlag c) (hwidth : ∀ c ∈ p.width, c.isDigit)
    (hzero : p.width.head? ≠ some '0') (hprecision : ∀ c ∈ p.precision, c.isDigit)
    (hkind : ∀ c ∈ p.kind.head?, ¬ Flags.isFlag c ∧ ¬ c.isDigit ∧ c ≠ '.') :
    p.Divides (p.flags ++ (p.width ++ (p.point ++ p.kind))) := by
  have hbehind : ∀ c ∈ (p.point ++ p.kind).head?, ¬ Flags.isFlag c ∧ ¬ c.isDigit := by
    intro c hc
    unfold point at hc
    split at hc
    · exact ⟨(hkind c hc).1, (hkind c hc).2.1⟩
    · obtain rfl : '.' = c := Option.some.inj hc
      decide
  have hflagless : ∀ c ∈ (p.width ++ (p.point ++ p.kind)).head?, ¬ Flags.isFlag c := by
    intro c hc
    cases hw : p.width with
    | nil =>
      rw [hw] at hc
      exact (hbehind c hc).1
    | cons d rest =>
      rw [hw] at hc hzero
      obtain rfl : d = c := Option.some.inj hc
      refine not_isFlag_of_isDigit (hwidth d (hw ▸ List.mem_cons_self)) fun hd => hzero ?_
      rw [hd]
      rfl
  have hpoint : ∀ c rest, p.kind = '.' :: c :: rest → ¬ c.isDigit := by
    intro c rest heq
    have hhead : '.' ∈ p.kind.head? := by rw [heq]; rfl
    exact absurd rfl (hkind '.' hhead).2.2
  rw [divides_iff]
  exact ⟨rfl, ⟨hflags, hflagless⟩, ⟨hwidth, fun c hc => (hbehind c hc).2⟩,
    ⟨hprecision, fun c hc => (hkind c hc).2.1⟩, fun _ => hpoint⟩

theorem existsUnique_divides (text : List Char) : ∃! p : Parts, p.Divides text :=
  ⟨ofText text, divides_ofText text, fun _ h => h.eq_ofText⟩

theorem Divides.parse_eq (h : p.Divides text) : parse text = p.specifier := by
  rw [parse_eq_specifier, ← h.eq_ofText]

end Divide

end Parts

/-! ### What the parts ask for -/

/-- A run of digits asks for the padding it denotes, up to the limit. -/
theorem padding?_eq_some_iff {digits : List Char} (hdigits : ∀ c ∈ digits, c.isDigit) {n : Nat} :
    padding? digits = some n ↔ Numeral.Denotes digits n ∧ n ≤ maxPadding := by
  by_cases hnil : digits = []
  · subst hnil
    constructor
    · intro h
      cases h
    · intro h
      exact absurd rfl h.1.ne_nil
  · have hempty : digits.isEmpty = false := by simpa using hnil
    rw [padding?, hempty, ← Numeral.ofDigits_eq_iff hnil hdigits]
    simp only [Bool.false_eq_true, if_false, Option.filter_eq_some_iff, Option.some.injEq,
      decide_eq_true_eq]

theorem padding?_toDigits {n : Nat} (h : n ≤ maxPadding) :
    padding? (Nat.toDigits 10 n) = some n :=
  (padding?_eq_some_iff fun _ => isDigit_of_mem_toDigits).mpr ⟨Numeral.denotes_toDigits n, h⟩

namespace Kind

/-- The codes that stand for a kind.  `general` has none: every other text stands for it. -/
def codes : Kind → List (List Char)
  | decimal => [['d']]
  | lowerHex => [['x']]
  | upperHex => [['X']]
  | binary => [['b']]
  | octal => [['o']]
  | fixed => [['f'], ['F']]
  | general => []

theorem ofCode_of_mem_codes {code : List Char} {k : Kind} (h : code ∈ k.codes) :
    ofCode code = k := by
  cases k with
  | fixed =>
    have hcases : code = ['f'] ∨ code = ['F'] := by simpa [codes] using h
    rcases hcases with rfl | rfl
    · rfl
    · rfl
  | general => cases h
  | _ => rw [List.mem_singleton.mp h]; rfl

theorem ofCode_of_forall_notMem {code : List Char} (h : ∀ k : Kind, code ∉ k.codes) :
    ofCode code = general := by
  unfold ofCode
  split
  · exact absurd (List.mem_singleton_self _) (h decimal)
  · exact absurd (List.mem_singleton_self _) (h lowerHex)
  · exact absurd (List.mem_singleton_self _) (h upperHex)
  · exact absurd (List.mem_singleton_self _) (h binary)
  · exact absurd (List.mem_singleton_self _) (h octal)
  · exact absurd (by simp [codes]) (h fixed)
  · exact absurd (by simp [codes]) (h fixed)
  · rfl

theorem ofCode_eq_iff {code : List Char} {kind : Kind} :
    ofCode code = kind ↔ code ∈ kind.codes ∨ kind = general ∧ ∀ k : Kind, code ∉ k.codes := by
  constructor
  · rintro rfl
    by_cases h : ∃ k : Kind, code ∈ k.codes
    · obtain ⟨k, hk⟩ := h
      exact .inl (ofCode_of_mem_codes hk ▸ hk)
    · have hnone : ∀ k : Kind, code ∉ k.codes := fun k hk => h ⟨k, hk⟩
      exact .inr ⟨ofCode_of_forall_notMem hnone, hnone⟩
  · rintro (h | ⟨rfl, h⟩)
    · exact ofCode_of_mem_codes h
    · exact ofCode_of_forall_notMem h

theorem head?_code (k : Kind) :
    ∀ c ∈ k.code.head?, ¬ Flags.isFlag c ∧ ¬ c.isDigit ∧ c ≠ '.' := by
  cases k <;> simp [code] <;> decide

end Kind

namespace Flags

theorem isFlag_of_mem_text {f : Flags} {c : Char} (hc : c ∈ f.text) : isFlag c := by
  have hcases : c = '+' ∨ c = '-' ∨ c = '#' ∨ c = '0' := by
    simp only [text, List.mem_append] at hc
    rcases hc with ((hc | hc) | hc) | hc <;> split at hc <;> simp_all
  rcases hcases with rfl | rfl | rfl | rfl <;> rfl

theorem ofChars_text (f : Flags) : ofChars f.text = f := by
  rcases f with ⟨plus, minus, alternate, zero⟩
  cases plus <;> cases minus <;> cases alternate <;> cases zero <;> rfl

end Flags

/-! ### Reading undoes writing -/

/-- The specifiers that texts can ask for: a width is not zero, since a zero in front of it is a
flag, and neither a width nor a precision is above the limit. -/
structure IsBounded (s : Specifier) : Prop where
  width : ∀ n, s.width = some n → 0 < n ∧ n ≤ maxPadding
  precision : ∀ n, s.precision = some n → n ≤ maxPadding

/-- The parts in which a specifier is written. -/
def parts (s : Specifier) : Parts where
  flags := s.flags.text
  width := (s.width.map (Nat.toDigits 10)).getD []
  precision := (s.precision.map (Nat.toDigits 10)).getD []
  kind := s.kind.code

theorem text_eq_parts (s : Specifier) :
    s.text = s.parts.flags ++ (s.parts.width ++ (s.parts.point ++ s.parts.kind)) := by
  have hpoint : s.parts.point = (s.precision.map ('.' :: Nat.toDigits 10 ·)).getD [] := by
    unfold Parts.point parts
    cases s.precision with
    | none => rfl
    | some n => exact if_neg Nat.toDigits_ne_nil
  rw [hpoint, text, List.append_assoc, List.append_assoc]
  rfl

theorem isDigit_of_mem_getD_map {n? : Option Nat} {c : Char}
    (hc : c ∈ (n?.map (Nat.toDigits 10)).getD []) : c.isDigit := by
  cases n? with
  | none => cases hc
  | some n => exact isDigit_of_mem_toDigits hc

theorem IsBounded.divides {s : Specifier} (h : s.IsBounded) : s.parts.Divides s.text := by
  have hzero : s.parts.width.head? ≠ some '0' := by
    unfold parts
    cases hn : s.width with
    | none => simp
    | some n => exact head?_toDigits_ne_zero (h.width n hn).1.ne'
  rw [text_eq_parts]
  exact Parts.divides_append (fun c => Flags.isFlag_of_mem_text)
    (fun c => isDigit_of_mem_getD_map) hzero (fun c => isDigit_of_mem_getD_map) s.kind.head?_code

theorem IsBounded.parse_text {s : Specifier} (h : s.IsBounded) : parse s.text = s := by
  have hwidth : padding? s.parts.width = s.width := by
    unfold parts
    cases hn : s.width with
    | none => rfl
    | some n => exact padding?_toDigits (h.width n hn).2
  have hprecision : padding? s.parts.precision = s.precision := by
    unfold parts
    cases hn : s.precision with
    | none => rfl
    | some n => exact padding?_toDigits (h.precision n hn)
  have hflags : Flags.ofChars s.parts.flags = s.flags := s.flags.ofChars_text
  have hkind : Kind.ofCode s.parts.kind = s.kind := s.kind.ofCode_code
  rw [h.divides.parse_eq, Parts.specifier, hwidth, hprecision, hflags, hkind]

theorem isBounded_parse (text : List Char) : IsBounded (parse text) := by
  obtain ⟨-, ⟨-, hflagless⟩, ⟨hwidth, -⟩, ⟨hprecision, -⟩, -⟩ :=
    Parts.divides_iff.mp (Parts.divides_ofText text)
  constructor
  · intro n hn
    obtain ⟨⟨zeros, hdenotes⟩, hle⟩ := (padding?_eq_some_iff hwidth).mp hn
    refine ⟨Nat.pos_of_ne_zero ?_, hle⟩
    rintro rfl
    -- the digits would be zeros, of which the first is a flag
    have hzero : '0' ∈ ((Parts.ofText text).width ++
        ((Parts.ofText text).point ++ (Parts.ofText text).kind)).head? := by
      rw [hdenotes]
      cases zeros <;> rfl
    exact hflagless '0' hzero rfl
  · intro n hn
    exact ((padding?_eq_some_iff hprecision).mp hn).2

theorem isBounded_iff {s : Specifier} : s.IsBounded ↔ parse s.text = s := by
  constructor
  · exact IsBounded.parse_text
  · intro h
    rw [← h]
    exact isBounded_parse s.text

/-! ### Numbers -/

/-- The specifier of the empty text asks for nothing. -/
theorem apply_default (x : Binary64) : apply {} x = x.text := by
  have hbody : body {} x = x.text := by cases x <;> rfl
  have hsigned : signed {} x = x.text := hbody
  rw [apply, hsigned, pad]
  simp

/-- Every text, the empty one included, formats a number as the specifier it asks for. -/
theorem formatNumber_some (x : Binary64) (text : List Char) :
    formatNumber x (some text) = (parse text).apply x := by
  cases text with
  | nil =>
    have hparse : parse [] = {} := rfl
    rw [hparse, apply_default]
    rfl
  | cons c text => rfl

/-- Every text divides in one way, and reading gives what its parts ask for: the flags that occur
among the flags, a width and a precision as denoted by their digits, unless these are missing or
denote more than the limit, and the kind with the code that is left, `general` if there is none.
Reading undoes writing exactly for the specifiers that are bounded, and all that are read are.  So
numbers are formatted as the specifier of a text asks, also when this is written anew. -/
theorem parse_by_parts :
    (∀ text, ∃! p : Parts, p.Divides text) ∧
    (∀ (text : List Char) (p : Parts), p.Divides text →
      ((parse text).flags.plus = true ↔ '+' ∈ p.flags) ∧
      ((parse text).flags.minus = true ↔ '-' ∈ p.flags) ∧
      ((parse text).flags.alternate = true ↔ '#' ∈ p.flags) ∧
      ((parse text).flags.zero = true ↔ '0' ∈ p.flags) ∧
      (∀ n, (parse text).width = some n ↔ Numeral.Denotes p.width n ∧ n ≤ maxPadding) ∧
      (∀ n, (parse text).precision = some n ↔ Numeral.Denotes p.precision n ∧ n ≤ maxPadding) ∧
      ∀ kind, (parse text).kind = kind ↔
        p.kind ∈ kind.codes ∨ kind = .general ∧ ∀ k : Kind, p.kind ∉ k.codes) ∧
    (∀ s : Specifier, s.IsBounded ↔ parse s.text = s) ∧
    (∀ text, IsBounded (parse text)) ∧
    ∀ (x : Binary64) (text : List Char),
      formatNumber x (some text) = (parse text).apply x ∧
      formatNumber x (some (parse text).text) = formatNumber x (some text) := by
  refine ⟨Parts.existsUnique_divides, fun text p h => ?_, fun s => isBounded_iff,
    isBounded_parse, fun x text => ⟨formatNumber_some x text, ?_⟩⟩
  · obtain ⟨-, -, ⟨hwidth, -⟩, ⟨hprecision, -⟩, -⟩ := Parts.divides_iff.mp h
    rw [h.parse_eq]
    refine ⟨List.contains_iff_mem, List.contains_iff_mem, List.contains_iff_mem,
      List.contains_iff_mem, fun n => padding?_eq_some_iff hwidth,
      fun n => padding?_eq_some_iff hprecision, fun kind => Kind.ofCode_eq_iff⟩
  · have hnormal : parse (parse text).text = parse text := (isBounded_parse text).parse_text
    rw [formatNumber_some, hnormal, formatNumber_some]

example : parse ['0', '-', '0', '7', '.', '0', '2', 'F'] =
    { flags := { minus := true, zero := true }, width := some 7, precision := some 2,
      kind := .fixed } := by decide

end TextTemplate.Specifier
