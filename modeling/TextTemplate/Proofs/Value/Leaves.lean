import Mathlib.Data.List.Basic
import Mathlib.Logic.Relation
import TextTemplate.Value.Text

/-!
# The leaves of a value

Nothing in the text of an array tells how its items are nested: it is the texts of the leaves with
commas between them (`text_eq_intercalate_leaves`).  An empty array is a leaf, and so has its place
between commas as `null` has.  What is changed inside a value changes its text only if the part
itself has another text (`Inside.text_eq`), and grouping items leaves the leaves as they are
(`Groups.leaves_eq`).
-/

namespace TextTemplate.Value

/-! ### Leaves -/

mutual

/-- The leaves of a value from left to right: those of its items, or the value itself if it has
none. -/
def leaves : Value → List Value
  | array (v :: vs) => v.leaves ++ leavesOfItems vs
  | v => [v]

/-- The leaves of the items of an array. -/
def leavesOfItems : List Value → List Value
  | [] => []
  | v :: vs => v.leaves ++ leavesOfItems vs

end

/-- The text of a leaf.  Arrays with items are none. -/
def leafText : Value → List Char
  | null => []
  | bool b => boolText b
  | number x => x.text
  | string s => s.toList
  | array _ => []
  | object _ => objectText

theorem leavesOfItems_eq_flatMap (items : List Value) :
    leavesOfItems items = items.flatMap leaves := by
  induction items with
  | nil => rfl
  | cons v vs ih => rw [leavesOfItems, List.flatMap_cons, ih]

theorem leaves_array {items : List Value} (h : items ≠ []) :
    (array items).leaves = items.flatMap leaves := by
  obtain ⟨v, vs, rfl⟩ := List.exists_cons_of_ne_nil h
  rw [leaves, leavesOfItems_eq_flatMap, List.flatMap_cons]

/-- Whether a value has no leaves but itself. -/
def IsLeaf (v : Value) : Prop := ∀ items, v = array items → items = []

theorem IsLeaf.leaves_eq {v : Value} (h : v.IsLeaf) : v.leaves = [v] := by
  cases v with
  | array items =>
    cases h items rfl
    rfl
  | null | bool | number | string | object => rfl

theorem IsLeaf.text_eq {v : Value} (h : v.IsLeaf) : v.text = v.leafText := by
  cases v with
  | array items =>
    cases h items rfl
    rfl
  | null | bool | number | string | object => rfl

/-- A value is a leaf, or an array with items that are smaller. -/
@[elab_as_elim]
theorem leaves_induction {P : Value → Prop} (leaf : ∀ v : Value, v.IsLeaf → P v)
    (array : ∀ items, items ≠ [] → (∀ v ∈ items, P v) → P (.array items)) (v : Value) : P v := by
  cases v with
  | array items =>
    by_cases h : items = []
    · refine leaf _ fun _ hitems => ?_
      cases hitems
      exact h
    · exact array items h fun v _ => leaves_induction leaf array v
  | null | bool | number | string | object =>
    refine leaf _ fun _ hitems => ?_
    cases hitems
termination_by sizeOf v

theorem leaves_ne_nil (v : Value) : v.leaves ≠ [] := by
  induction v using leaves_induction with
  | leaf v h =>
    rw [h.leaves_eq]
    exact List.cons_ne_nil _ _
  | array items h ih =>
    obtain ⟨v, vs, rfl⟩ := List.exists_cons_of_ne_nil h
    rw [leaves_array h, List.flatMap_cons]
    exact List.append_ne_nil_of_left_ne_nil (ih v List.mem_cons_self) _

theorem isLeaf_of_mem_leaves {v leaf : Value} (h : leaf ∈ v.leaves) : leaf.IsLeaf := by
  induction v using leaves_induction with
  | leaf v hv =>
    rw [hv.leaves_eq, List.mem_singleton] at h
    rwa [h]
  | array items hitems ih =>
    rw [leaves_array hitems, List.mem_flatMap] at h
    obtain ⟨v, hv, hleaf⟩ := h
    exact ih v hv hleaf

/-! ### Texts with commas between them -/

section Joining

variable {α : Type} {sep : List α} {ls ms : List (List α)}

theorem intercalate_append (hl : ls ≠ []) (hm : ms ≠ []) :
    sep.intercalate (ls ++ ms) = sep.intercalate ls ++ sep ++ sep.intercalate ms := by
  induction ls with
  | nil => exact absurd rfl hl
  | cons l ls ih =>
    cases ls with
    | nil =>
      rw [List.singleton_append, List.intercalate_cons_of_ne_nil hm, List.intercalate_singleton]
    | cons l' ls =>
      have hrest := ih (List.cons_ne_nil _ _)
      rw [List.cons_append] at hrest
      rw [List.cons_append, List.cons_append, List.intercalate_cons_cons, hrest,
        List.intercalate_cons_cons]
      simp only [List.append_assoc]

/-- Joining what has been joined from lists that are not empty joins all of it. -/
theorem intercalate_map_intercalate {β : Type} {f : β → List (List α)} (hf : ∀ b, f b ≠ [])
    (bs : List β) :
    sep.intercalate (bs.map fun b => sep.intercalate (f b)) = sep.intercalate (bs.flatMap f) := by
  induction bs with
  | nil => rfl
  | cons b bs ih =>
    cases bs with
    | nil => rw [List.map_singleton, List.intercalate_singleton, List.flatMap_singleton]
    | cons b' bs =>
      have hmap : (b' :: bs).map (fun b => sep.intercalate (f b)) ≠ [] := by simp
      have hrest : (b' :: bs).flatMap f ≠ [] := by
        rw [List.flatMap_cons]
        exact List.append_ne_nil_of_left_ne_nil (hf b') _
      generalize b' :: bs = bs at *
      rw [List.map_cons, List.intercalate_cons_of_ne_nil hmap, ih, List.flatMap_cons,
        intercalate_append (hf b) hrest]

/-- A separator that is in none of the texts stands between them only. -/
theorem count_intercalate [DecidableEq α] {a : α} (hl : ls ≠ []) (ha : ∀ l ∈ ls, a ∉ l) :
    ([a].intercalate ls).count a + 1 = ls.length := by
  induction ls with
  | nil => exact absurd rfl hl
  | cons l ls ih =>
    have hfirst : l.count a = 0 := List.count_eq_zero.mpr (ha l List.mem_cons_self)
    cases ls with
    | nil => rw [List.intercalate_singleton, hfirst, List.length_singleton]
    | cons l' ls =>
      have hrest := ih (List.cons_ne_nil _ _) fun m hm => ha m (List.mem_cons_of_mem _ hm)
      rw [List.intercalate_cons_cons, List.count_append, List.count_append, hfirst,
        List.count_singleton_self]
      simp only [List.length_cons] at hrest ⊢
      omega

end Joining

/-! ### The text of the leaves -/

theorem text_array (items : List Value) :
    (array items).text = [','].intercalate (items.map text) := by
  rw [text, texts_eq_map]

theorem text_eq_intercalate_leaves (v : Value) :
    v.text = [','].intercalate (v.leaves.map leafText) := by
  induction v using leaves_induction with
  | leaf v h => rw [h.leaves_eq, List.map_singleton, List.intercalate_singleton, h.text_eq]
  | array items h ih =>
    have hne : ∀ v : Value, v.leaves.map leafText ≠ [] := fun v => by
      rw [ne_eq, List.map_eq_nil_iff]
      exact v.leaves_ne_nil
    calc (array items).text
      _ = [','].intercalate (items.map text) := text_array items
      _ = [','].intercalate (items.map fun v => [','].intercalate (v.leaves.map leafText)) := by
        rw [List.map_congr_left ih]
      _ = [','].intercalate (items.flatMap fun v => v.leaves.map leafText) :=
        intercalate_map_intercalate hne items
      _ = [','].intercalate ((array items).leaves.map leafText) := by
        rw [leaves_array h, List.map_flatMap]

/-! ### Changes inside a value -/

/-- One value is made of the other by a change `R` to it or to a value inside its arrays. -/
inductive Inside (R : Value → Value → Prop) : Value → Value → Prop
  | here {v w : Value} : R v w → Inside R v w
  | item {v w : Value} (before after : List Value) : Inside R v w →
    Inside R (array (before ++ v :: after)) (array (before ++ w :: after))

/-- Some items of an array, not none, are put into an array of their own. -/
inductive Groups : Value → Value → Prop
  | intro {items : List Value} (before after : List Value) : items ≠ [] →
    Groups (array (before ++ items ++ after)) (array (before ++ array items :: after))

/-- An empty array becomes `null`. -/
inductive Empties : Value → Value → Prop
  | intro : Empties (array []) null

section Changes

variable {R : Value → Value → Prop} {v w : Value}

theorem Groups.leaves_eq (h : Groups v w) : w.leaves = v.leaves := by
  obtain ⟨before, after, hne⟩ := h
  rename_i items
  have hitems : before ++ items ++ after ≠ [] := by simp [hne]
  rw [leaves_array hitems, leaves_array (by simp)]
  simp only [List.flatMap_append, List.flatMap_cons, leaves_array hne, List.append_assoc]

theorem Inside.leaves_eq (hR : ∀ {v w}, R v w → w.leaves = v.leaves) (h : Inside R v w) :
    w.leaves = v.leaves := by
  induction h with
  | here h => exact hR h
  | item before after _ ih =>
    rw [leaves_array (by simp), leaves_array (by simp)]
    simp only [List.flatMap_append, List.flatMap_cons, ih]

/-- The text of an array knows no more of its items than their texts. -/
theorem Inside.text_eq (hR : ∀ {v w}, R v w → w.text = v.text) (h : Inside R v w) :
    w.text = v.text := by
  induction h with
  | here h => exact hR h
  | item before after _ ih =>
    rw [text_array, text_array]
    simp only [List.map_append, List.map_cons, ih]

/-- What each change keeps is kept by any number of changes, done or undone. -/
theorem eq_of_eqvGen {α : Type} {f : Value → α} (hR : ∀ {v w}, R v w → f w = f v)
    (h : Relation.EqvGen R v w) : f w = f v := by
  induction h with
  | rel _ _ h => exact hR h
  | refl _ => rfl
  | symm _ _ _ ih => exact ih.symm
  | trans _ _ _ _ _ ih ih' => exact ih'.trans ih

end Changes

/-- The text of a value is the texts of its leaves with single commas between them.  So it stays the
same however items are grouped into arrays or freed from them, and empty arrays put in the place of
`null` or taken for it; and where no leaf has a comma in its text, there is one less than leaves. -/
theorem text_by_leaves (v : Value) :
    v.text = [','].intercalate (v.leaves.map leafText) ∧
    (∀ leaf ∈ v.leaves, leaf.IsLeaf) ∧
    (∀ w, Relation.EqvGen (Inside Groups) v w → w.leaves = v.leaves ∧ w.text = v.text) ∧
    (∀ w, Relation.EqvGen (Inside fun v w => Groups v w ∨ Empties v w) v w → w.text = v.text) ∧
    ((∀ leaf ∈ v.leaves, ',' ∉ leaf.leafText) → v.text.count ',' + 1 = v.leaves.length) := by
  have htext := text_eq_intercalate_leaves v
  have hgroups : ∀ {v w}, Groups v w → w.text = v.text := by
    intro v w h
    rw [text_eq_intercalate_leaves v, text_eq_intercalate_leaves w, h.leaves_eq]
  refine ⟨htext, fun leaf => isLeaf_of_mem_leaves, fun w h => ⟨?_, ?_⟩, fun w h => ?_, fun h => ?_⟩
  · exact eq_of_eqvGen (Inside.leaves_eq Groups.leaves_eq) h
  · exact eq_of_eqvGen (Inside.text_eq hgroups) h
  · refine eq_of_eqvGen (Inside.text_eq ?_) h
    rintro v w (h | h)
    · exact hgroups h
    · cases h
      rfl
  · rw [htext, count_intercalate, List.length_map]
    · simpa using v.leaves_ne_nil
    · simpa using h

theorem text_by_leaves_of_nested :
    let v : Value := .array [.string "a", .array [], .array [.null, .array [.bool true]]]
    let w : Value := .array [.string "a", .null, .null, .bool true]
    (∀ leaf ∈ v.leaves, ',' ∉ leaf.leafText) ∧ v.text.count ',' + 1 = 4 ∧
      Relation.EqvGen (Inside fun v w => Groups v w ∨ Empties v w) v w ∧ w.text = v.text := by
  intro v w
  have hcomma : ∀ leaf ∈ v.leaves, ',' ∉ leaf.leafText := by decide +kernel
  -- the empty array goes first, then the inner group and the outer one
  have hchanges : Relation.EqvGen (Inside fun v w => Groups v w ∨ Empties v w) v w := by
    refine .trans _ _ _ (.rel _ _ (.item [.string "a"] [.array [.null, .array [.bool true]]]
      (.here (.inr .intro)))) ?_
    refine .trans _ _ _ (.symm _ _ (.rel _ _ (.item [.string "a", .null] []
      (.here (.inl (.intro [.null] [] (List.cons_ne_nil (bool true) []))))))) ?_
    exact .symm _ _ (.rel _ _ (.here (.inl (.intro [.string "a", .null] []
      (List.cons_ne_nil null [bool true])))))
  obtain ⟨-, -, -, hsame, hcount⟩ := text_by_leaves v
  exact ⟨hcomma, hcount hcomma, hchanges, hsame w hchanges⟩

end TextTemplate.Value
