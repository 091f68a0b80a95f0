import Mathlib.Data.List.TakeWhile

/-!
# Runs of characters

Taking characters as long as they satisfy a predicate splits a text that is put together from a run
of such characters and a rest that begins with none (`takeWhile_append_of_head?`,
`dropWhile_append_of_head?`).  A run without `d` in front of `d`, or of the end, is the case used
most (`takeWhile_run_append`).  `IsLongestRun` is the same without a function that takes: no longer
run stands at the head of the text.
-/

namespace TextTemplate

section Runs

variable {p : Char → Bool} {d : Char} {run rest : List Char}

theorem takeWhile_append_of_head? (hrun : ∀ c ∈ run, p c) (hrest : ∀ c ∈ rest.head?, ¬ p c) :
    (run ++ rest).takeWhile p = run := by
  rw [List.takeWhile_append_of_pos hrun]
  cases rest with
  | nil => rw [List.takeWhile_nil, List.append_nil]
  | cons c rest => rw [List.takeWhile_cons_of_neg (hrest c rfl), List.append_nil]

theorem dropWhile_append_of_head? (hrun : ∀ c ∈ run, p c) (hrest : ∀ c ∈ rest.head?, ¬ p c) :
    (run ++ rest).dropWhile p = rest := by
  rw [List.dropWhile_append_of_pos hrun]
  cases rest with
  | nil => rfl
  | cons c rest => rw [List.dropWhile_cons_of_neg (hrest c rfl)]

/-- The text is at its end, or goes on with `d`. -/
def StopsAt (d : Char) (text : List Char) : Prop := text = [] ∨ text.head? = some d

theorem ne_of_mem_of_notMem {c : Char} (h : d ∉ run) (hc : c ∈ run) : (c != d) = true := by
  rw [bne_iff_ne]
  rintro rfl
  exact h hc

theorem StopsAt.not_bne_of_mem_head? (h : StopsAt d rest) : ∀ c ∈ rest.head?, ¬ (c != d) := by
  intro c hc
  rcases h with rfl | h
  · cases hc
  · rw [h] at hc
    cases hc
    simp

/-- A run without `d` is all that is taken up to the next `d`. -/
theorem takeWhile_run_append (h : d ∉ run) (hrest : StopsAt d rest) :
    (run ++ rest).takeWhile (· != d) = run :=
  takeWhile_append_of_head? (fun _ hc => ne_of_mem_of_notMem h hc) hrest.not_bne_of_mem_head?

/-- A run without `d` is all that is dropped up to the next `d`. -/
theorem dropWhile_run_append (h : d ∉ run) (hrest : StopsAt d rest) :
    (run ++ rest).dropWhile (· != d) = rest :=
  dropWhile_append_of_head? (fun _ hc => ne_of_mem_of_notMem h hc) hrest.not_bne_of_mem_head?

theorem notMem_takeWhile_ne (d : Char) (text : List Char) : d ∉ text.takeWhile (· != d) := by
  intro h
  simpa using List.mem_takeWhile_imp h

theorem stopsAt_dropWhile_ne (d : Char) (text : List Char) :
    StopsAt d (text.dropWhile (· != d)) := by
  cases h : text.dropWhile (· != d) with
  | nil => exact .inl rfl
  | cons c rest =>
    have hc := List.head?_dropWhile_not (· != d) text
    rw [h] at hc
    exact .inr (by simpa using hc)

theorem notMem_of_dropWhile_ne_eq_nil {text : List Char} (h : text.dropWhile (· != d) = []) :
    d ∉ text := by
  intro hd
  simpa using List.dropWhile_eq_nil_iff.mp h d hd

end Runs

/-! ### Longest runs -/

section Longest

variable {p : Char → Bool} {run rest text : List Char}

/-- The run is the longest one of characters that satisfy `p` at the head of the text. -/
def IsLongestRun (p : Char → Bool) (run text : List Char) : Prop :=
  run <+: text ∧ (∀ c ∈ run, p c) ∧
    ∀ other, other <+: text → (∀ c ∈ other, p c) → other.length ≤ run.length

theorem isLongestRun_takeWhile (p : Char → Bool) (text : List Char) :
    IsLongestRun p (text.takeWhile p) text := by
  refine ⟨List.takeWhile_prefix p, fun c hc => List.mem_takeWhile_imp hc, ?_⟩
  rintro other ⟨rest, rfl⟩ hother
  rw [List.takeWhile_append_of_pos hother, List.length_append]
  exact Nat.le_add_right _ _

theorem isLongestRun_iff : IsLongestRun p run text ↔ run = text.takeWhile p := by
  constructor
  · rintro ⟨hhead, hrun, hlongest⟩
    obtain ⟨htake, hall, hmost⟩ := isLongestRun_takeWhile p text
    have hle : run.length ≤ (text.takeWhile p).length := hmost run hhead hrun
    have hge : (text.takeWhile p).length ≤ run.length := hlongest _ htake hall
    exact (List.prefix_of_prefix_length_le hhead htake hle).eq_of_length (by omega)
  · rintro rfl
    exact isLongestRun_takeWhile p text

/-- A run is the longest one exactly if no character of its kind follows. -/
theorem isLongestRun_append_iff :
    IsLongestRun p run (run ++ rest) ↔ (∀ c ∈ run, p c) ∧ ∀ c ∈ rest.head?, ¬ p c := by
  constructor
  · intro h
    refine ⟨h.2.1, fun c hc hpc => ?_⟩
    obtain ⟨rest, rfl⟩ := List.head?_eq_some_iff.mp hc
    have hrun : ∀ d ∈ run ++ [c], p d := by
      intro d hd
      rcases List.mem_append.mp hd with hd | hd
      · exact h.2.1 d hd
      · rwa [List.mem_singleton.mp hd]
    have hlonger : (run ++ [c]).length ≤ run.length := h.2.2 _ ⟨rest, by simp⟩ hrun
    rw [List.length_append, List.length_singleton] at hlonger
    omega
  · rintro ⟨hrun, hrest⟩
    rw [isLongestRun_iff, takeWhile_append_of_head? hrun hrest]

end Longest

end TextTemplate
