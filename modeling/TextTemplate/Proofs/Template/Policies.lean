import Mathlib.Data.List.Flatten
import TextTemplate.Proofs.Path.Numbers
import TextTemplate.Proofs.Specifier.Characters
import TextTemplate.Template.Fill

/-!
# The two falsy policies

The policies agree but on zero and on `false`.  A placeholder that leads to one of them is dropped
(`Token.isDropped`): it contributes nothing where falsy values are left blank, and else its text,
which is not empty (`Value.formatted_ne_nil`).  Every other token contributes the same under both
policies (`Token.fill_blank`), also where it leads to `null`, the empty string or an empty array.
-/

namespace TextTemplate

/-! ### Zero and false -/

namespace Value

/-- Whether the value is a zero of either sign, or `false`. -/
def isZeroOrFalse : Value → Bool
  | bool b => !b
  | number x => x.isZero
  | _ => false

variable {v : Value}

theorem isZeroOrFalse_iff : v.isZeroOrFalse ↔
    v = bool false ∨ ∃ x : Binary64.Finite, v = number (.finite x) ∧ x.toRat = 0 := by
  cases v with
  | bool b => cases b <;> simp [isZeroOrFalse]
  | number x => simp [isZeroOrFalse, Binary64.isZero_iff]
  | null | string | array | object => simp [isZeroOrFalse]

theorem formatted_ne_nil (h : v.isZeroOrFalse) (specifier : Option (List Char)) :
    v.formatted specifier ≠ [] := by
  cases v with
  | bool b => cases b <;> simp [formatted, text, boolText]
  | number x => exact formatNumber_ne_nil x specifier
  | null | string | array | object => cases h

end Value

/-! ### What is dropped -/

section Render

variable {v : Value}

/-- A zero or `false` leaves a text behind where only `null` is left blank. -/
theorem render_render_ne_nil (h : v.isZeroOrFalse) (specifier : Option (List Char)) :
    render .render specifier (some v) ≠ [] := by
  have hblank : FalsyPolicy.render.blanks v = false := by
    cases v with
    | null => cases h
    | bool | number | string | array | object => rfl
  rw [render, hblank]
  exact Value.formatted_ne_nil h specifier

/-- A value other than `nan` counts the same under both policies but for zero and `false`. -/
theorem render_blank (hnan : v ≠ .number .nan) (specifier : Option (List Char)) :
    render .blank specifier (some v) =
      if v.isZeroOrFalse then [] else render .render specifier (some v) := by
  cases v with
  | null => rfl
  | bool b => cases b <;> rfl
  | number x =>
    cases x with
    | nan => exact absurd rfl hnan
    | infinity negative => rfl
    -- zero is left blank under the one policy only
    | finite x => rfl
  | string s =>
    -- the empty string is left blank under one policy, and has no characters under the other
    by_cases hs : s = ""
    · subst hs
      rfl
    · have hblank : FalsyPolicy.blank.blanks (.string s) = false := by
        simpa [FalsyPolicy.blanks, Value.isFalsy] using hs
      rw [render, hblank]
      rfl
  | array items => rfl
  | object fields => rfl

end Render

namespace Token

/-- Whether a token is a placeholder that leads to zero or `false`. -/
def isDropped (args : List Value) : Token → Bool
  | placeholder path _ => (path.resolve args).any Value.isZeroOrFalse
  | _ => false

theorem isDropped_iff {args : List Value} {token : Token} :
    token.isDropped args ↔ ∃ path specifier v, token = placeholder path specifier ∧
      path.resolve args = some v ∧
      (v = .bool false ∨ ∃ x : Binary64.Finite, v = .number (.finite x) ∧ x.toRat = 0) := by
  cases token with
  | literal | leftBrace => simp [isDropped]
  | placeholder path specifier =>
    rw [isDropped, Option.any_eq_true]
    constructor
    · rintro ⟨v, hv, hzero⟩
      exact ⟨path, specifier, v, rfl, hv, Value.isZeroOrFalse_iff.mp hzero⟩
    · rintro ⟨_, _, v, htoken, hv, hzero⟩
      cases htoken
      exact ⟨v, hv, Value.isZeroOrFalse_iff.mpr hzero⟩

/-- Leaving falsy values blank deletes the contributions of the dropped tokens, and no others. -/
theorem fill_blank {args : List Value} (hargs : ∀ arg ∈ args, ¬ arg.Holds .nan) (token : Token) :
    token.fill args .blank = if token.isDropped args then [] else token.fill args .render := by
  cases token with
  | literal start text => rfl
  | leftBrace => rfl
  | placeholder path specifier =>
    have hnan := path.resolve_ne_nan hargs
    rw [fill, fill, isDropped]
    cases hv : path.resolve args with
    | none => rfl
    | some v =>
      rw [hv] at hnan
      exact render_blank (fun h => hnan (congrArg some h)) _

/-- What is dropped would have left a text behind. -/
theorem fill_render_ne_nil {args : List Value} {token : Token} (h : token.isDropped args) :
    token.fill args .render ≠ [] := by
  cases token with
  | literal | leftBrace => cases h
  | placeholder path specifier =>
    rw [isDropped] at h
    rw [fill]
    cases hv : path.resolve args with
    | none =>
      rw [hv] at h
      cases h
    | some v =>
      rw [hv] at h
      exact render_render_ne_nil h _

end Token

/-! ### Lists of texts -/

section Deletion

variable {α : Type} {l : List α} {p : α → Bool} {f : α → List Char}

/-- Empty texts in the place of some are as good as none. -/
theorem flatMap_ite_nil (l : List α) (p : α → Bool) (f : α → List Char) :
    (l.flatMap fun a => if p a then [] else f a) = (l.filter (!p ·)).flatMap f := by
  induction l with
  | nil => rfl
  | cons a l ih =>
    rw [List.flatMap_cons, ih, List.filter_cons]
    cases p a <;> simp

theorem length_flatMap_filter_lt {a : α} (ha : a ∈ l) (hp : p a) (hf : f a ≠ []) :
    ((l.filter (!p ·)).flatMap f).length < (l.flatMap f).length := by
  induction l with
  | nil => cases ha
  | cons b l ih =>
    have hle := ((List.filter_sublist (l := l) (p := (!p ·))).flatMap f).length_le
    have hpos := List.length_pos_iff.mpr hf
    rw [List.filter_cons, List.flatMap_cons, List.length_append]
    rcases List.mem_cons.mp ha with rfl | ha
    · -- the first text is the one that goes
      rw [hp]
      simp only [Bool.not_true, Bool.false_eq_true, if_false]
      omega
    · have hlt := ih ha
      split
      · rw [List.flatMap_cons, List.length_append]
        omega
      · omega

end Deletion

theorem fill_blank_eq_filter {args : List Value} (hargs : ∀ arg ∈ args, ¬ arg.Holds .nan)
    (tokens : List Token) :
    fill tokens args .blank = fill (tokens.filter (!·.isDropped args)) args .render := by
  have htokens : Token.fill args .blank = fun token =>
      if token.isDropped args then [] else token.fill args .render :=
    funext (Token.fill_blank hargs)
  rw [fill, fill, htokens, flatMap_ite_nil]

theorem fill_blank_eq_iff {args : List Value} (hargs : ∀ arg ∈ args, ¬ arg.Holds .nan)
    (tokens : List Token) :
    fill tokens args .blank = fill tokens args .render ↔
      ∀ token ∈ tokens, ¬ token.isDropped args := by
  rw [fill_blank_eq_filter hargs]
  constructor
  · intro h token hmem hdropped
    have hlt := length_flatMap_filter_lt hmem hdropped (Token.fill_render_ne_nil hdropped)
    rw [String.ofList_inj.mp h] at hlt
    exact Nat.lt_irrefl _ hlt
  · intro h
    have hfilter : tokens.filter (!·.isDropped args) = tokens :=
      List.filter_eq_self.mpr fun token hmem => by simpa using h token hmem
    rw [hfilter]

/-- The policies differ on zero and `false` only.  Where falsy values are left blank, a template is
filled as under the other policy, but for the placeholders that lead to zero or `false`: their
contributions, none of which is empty, are deleted, and every other token contributes the same.  So
the two texts are equal exactly if nothing is dropped, and the first is never the longer one.

The arguments hold no `nan`, which JSON does not have and which would be left blank too. -/
theorem blank_eq_render_without_dropped {template : String} {tokens : List Token}
    {args : List Value} (hscan : scan template = .ok tokens)
    (hargs : ∀ arg ∈ args, ¬ arg.Holds .nan) :
    format template args = .ok (fill tokens args .blank) ∧
    fill tokens args .blank = fill (tokens.filter (!·.isDropped args)) args .render ∧
    (∀ token ∈ tokens, token.fill args .blank =
      if token.isDropped args then [] else token.fill args .render) ∧
    (∀ token ∈ tokens,
      (token.isDropped args ↔ ∃ path specifier v, token = .placeholder path specifier ∧
        path.resolve args = some v ∧
        (v = .bool false ∨ ∃ x : Binary64.Finite, v = .number (.finite x) ∧ x.toRat = 0)) ∧
      (token.isDropped args → token.fill args .render ≠ [])) ∧
    (∀ n, (Value.ofCount n).isZeroOrFalse ↔ n = 0) ∧
    (fill tokens args .blank = fill tokens args .render ↔
      ∀ token ∈ tokens, ¬ token.isDropped args) ∧
    (fill tokens args .blank).toList.Sublist (fill tokens args .render).toList ∧
    (fill tokens args .blank).length ≤ (fill tokens args .render).length ∧
    (fill tokens args .blank).utf8ByteSize ≤ (fill tokens args .render).utf8ByteSize := by
  have hformat : format template args = .ok (fill tokens args .blank) := by
    rw [format, hscan]
    rfl
  have hsublist : (fill tokens args .blank).toList.Sublist (fill tokens args .render).toList := by
    rw [fill_blank_eq_filter hargs, fill, fill, String.toList_ofList, String.toList_ofList]
    exact List.filter_sublist.flatMap _
  refine ⟨hformat, fill_blank_eq_filter hargs tokens, fun token _ => token.fill_blank hargs,
    fun token _ => ⟨Token.isDropped_iff, Token.fill_render_ne_nil⟩, Binary64.isZero_ofNat_iff,
    fill_blank_eq_iff hargs tokens, hsublist, ?_, ?_⟩
  · rw [← String.length_toList, ← String.length_toList]
    exact hsublist.length_le
  · rw [← byteLength_toList, ← byteLength_toList]
    exact byteLength_le_of_sublist hsublist

theorem blank_drops_zero_and_false :
    let tokens : List Token :=
      [.placeholder ⟨[.dot "0"]⟩ (some (.inline "+05.1")), .placeholder ⟨[.dot "1"]⟩ none,
        .literal 12 "|", .placeholder ⟨[.dot "2", .dot "length"]⟩ none,
        .placeholder ⟨[.dot "3"]⟩ (some (.lookup ⟨[.dot "0"]⟩))]
    let args : List Value := [.number (.finite ⟨true, 0, 0, by decide⟩), .bool false, .array [],
      .string "s"]
    scan "{0:+05.1}{1}|{2.length}{3:{0}}" = .ok tokens ∧
      (∀ arg ∈ args, ¬ arg.Holds .nan) ∧
      fill tokens args .render = "+00.0false|0s" ∧ fill tokens args .blank = "|s" := by
  intro tokens args
  have hscan : scan "{0:+05.1}{1}|{2.length}{3:{0}}" = .ok tokens := by
    decide +kernel
  have hargs : ∀ arg ∈ args, ¬ arg.Holds .nan := by
    intro arg harg hholds
    simp only [args, List.mem_cons, List.not_mem_nil, or_false] at harg
    rcases harg with rfl | rfl | rfl | rfl
    · cases hholds
    · cases hholds
    · cases hholds with
      | item hmem => cases hmem
    · cases hholds
  obtain ⟨-, hfilter, -⟩ := blank_eq_render_without_dropped hscan hargs
  have hrest : fill (tokens.filter (!·.isDropped args)) args .render = "|s" := by decide +kernel
  exact ⟨hscan, hargs, by decide +kernel, hfilter.trans hrest⟩

end TextTemplate
