import Mathlib.Data.List.SplitBy
import TextTemplate.Proofs.Template.Interpolation
import TextTemplate.Proofs.Template.Slice

/-!
# Runs of closing braces

Literal text is collapsed from the left, two closing braces at a time.  Seen from the runs of equal
characters the text consists of, this halves each run of closing braces, rounding up, and leaves the
other runs alone (`collapse_eq_halveRuns`); it changes nothing exactly if no two closing braces are
neighbours (`collapse_eq_self_iff`).  A text without an opening brace is a single literal
(`scan_of_notMem`), and every literal of a template is halved by itself (`fill_append_cons`).
-/

namespace TextTemplate

/-! ### Runs -/

/-- A run of equal characters, of half the length, rounded up, if they are closing braces. -/
def halveRun (run : List Char) : List Char :=
  if run.head? = some '}' then List.replicate ((run.length + 1) / 2) '}' else run

/-- The text with each of its longest runs of closing braces halved. -/
def halveRuns (text : List Char) : List Char := (text.splitBy (· == ·)).flatMap halveRun

section Runs

variable {text rest : List Char}

theorem collapse_append_of_notMem {run : List Char} (h : '}' ∉ run) (rest : List Char) :
    collapse (run ++ rest) = run ++ collapse rest := by
  induction run with
  | nil => rfl
  | cons c run ih =>
    rw [List.mem_cons, not_or] at h
    rw [List.cons_append, collapse_cons_of_ne (Ne.symm h.1), ih h.2, List.cons_append]

/-- The braces of a run are taken in pairs, and one that is left over stays. -/
theorem collapse_replicate_append (hrest : rest.head? ≠ some '}') (k : Nat) :
    collapse (List.replicate k '}' ++ rest) =
      List.replicate ((k + 1) / 2) '}' ++ collapse rest := by
  induction k using Nat.twoStepInduction with
  | zero => rfl
  | one =>
    show collapse ('}' :: rest) = '}' :: collapse rest
    rw [collapse]
    rintro text - rfl
    exact hrest rfl
  | more k ih _ =>
    have hhalf : (k + 2 + 1) / 2 = (k + 1) / 2 + 1 := by omega
    rw [hhalf]
    show collapse ('}' :: '}' :: (List.replicate k '}' ++ rest)) = _
    rw [collapse, ih, List.replicate_succ, List.cons_append]

theorem collapse_run_append {c : Char} (hrest : rest.head? ≠ some c) (k : Nat) :
    collapse (List.replicate (k + 1) c ++ rest) =
      halveRun (List.replicate (k + 1) c) ++ collapse rest := by
  rw [halveRun, List.replicate_succ, List.head?_cons, ← List.replicate_succ]
  split
  · next h =>
    cases h
    rw [collapse_replicate_append hrest, List.length_replicate]
  · next h =>
    refine collapse_append_of_notMem (fun hmem => h ?_) rest
    rw [List.eq_of_mem_replicate hmem]

/-- A run of equal characters that is not empty. -/
theorem exists_eq_replicate {run : List Char} (hne : run ≠ []) (h : run.IsChain (· == ·)) :
    ∃ k c, run = List.replicate (k + 1) c := by
  obtain ⟨c, run, rfl⟩ := List.exists_cons_of_ne_nil hne
  simp only [beq_iff_eq] at h
  refine ⟨run.length, c, ?_⟩
  rw [List.replicate_succ, ← List.isChain_cons_eq_iff_eq_replicate.mp h]

/-- Runs in front of each other are collapsed one by one, since none goes on in the next. -/
theorem collapse_flatten {runs : List (List Char)} (hne : [] ∉ runs)
    (hequal : ∀ run ∈ runs, run.IsChain (· == ·))
    (hdiffer : runs.IsChain fun run next =>
      ∃ (hrun : run ≠ []) (hnext : next ≠ []), (run.getLast hrun == next.head hnext) = false) :
    collapse runs.flatten = runs.flatMap halveRun := by
  induction runs with
  | nil => rfl
  | cons run runs ih =>
    rw [List.mem_cons, not_or] at hne
    rw [List.isChain_cons] at hdiffer
    have hrest := ih hne.2 (fun run h => hequal run (List.mem_cons_of_mem _ h)) hdiffer.2
    obtain ⟨k, c, rfl⟩ := exists_eq_replicate (Ne.symm hne.1) (hequal run List.mem_cons_self)
    have hhead : runs.flatten.head? ≠ some c := by
      cases runs with
      | nil => nofun
      | cons next runs =>
        obtain ⟨hrun, hnext, hne⟩ := hdiffer.1 next rfl
        obtain ⟨d, next, rfl⟩ := List.exists_cons_of_ne_nil hnext
        simp only [List.getLast_replicate, List.head_cons, beq_eq_false_iff_ne] at hne
        simpa using Ne.symm hne
    rw [List.flatten_cons, collapse_run_append hhead, hrest, List.flatMap_cons]

/-- Collapsing from the left halves the runs. -/
theorem collapse_eq_halveRuns (text : List Char) : collapse text = halveRuns text := by
  have h := collapse_flatten (List.nil_notMem_splitBy (· == ·) text)
    (fun run => List.isChain_of_mem_splitBy) (List.isChain_getLast_head_splitBy (· == ·) text)
  rwa [List.flatten_splitBy] at h

example : halveRuns ['a', '}', '}', 'b', '}', 'c', '}', '}', '}'] =
    ['a', '}', 'b', '}', 'c', '}', '}'] := by decide

/-- Nothing is collapsed exactly if no two closing braces are neighbours. -/
theorem collapse_eq_self_iff : collapse text = text ↔ ¬ ['}', '}'] <:+: text := by
  fun_induction collapse text with
  | case1 text ih =>
    have hlength := (collapse_sublist text).length_le
    constructor
    · intro h
      have := congrArg List.length h
      simp only [List.length_cons] at this
      omega
    · intro h
      exact absurd (List.prefix_append ['}', '}'] text).isInfix h
  | case2 c text hpair ih =>
    have hfront : ¬ ['}', '}'] <+: c :: text := by
      rintro ⟨rest, hrest⟩
      rw [List.cons_append, List.cons.injEq] at hrest
      exact hpair rest hrest.1.symm hrest.2.symm
    rw [List.cons.injEq, ih, List.infix_cons_iff, or_iff_right hfront]
    exact and_iff_right rfl
  | case3 => simp

end Runs

/-! ### Literals -/

/-- What literal text stands for. -/
def halved (text : String) : String := String.ofList (halveRuns text.toList)

theorem halved_eq_self {text : String} (h : ¬ ['}', '}'] <:+: text.toList) :
    halved text = text := by
  rw [halved, ← collapse_eq_halveRuns, collapse_eq_self_iff.mpr h, String.ofList_toList]

theorem fill_literal (start : Nat) (text : String) (args : List Value) (policy : FalsyPolicy) :
    fill [.literal start text] args policy = halved text := by
  rw [fill, List.flatMap_singleton, Token.fill, collapse_eq_halveRuns]
  rfl

/-- Tokens are filled without regard to what stands in front of them or behind. -/
theorem fill_append_cons (before : List Token) (token : Token) (after : List Token)
    (args : List Value) (policy : FalsyPolicy) :
    fill (before ++ token :: after) args policy =
      fill before args policy ++ fill [token] args policy ++ fill after args policy := by
  rw [fill, List.flatMap_append, List.flatMap_cons, fill, fill, fill, List.flatMap_singleton,
    String.ofList_append, String.ofList_append, String.append_assoc]

/-- A text without an opening brace is a literal, or has no tokens if it is empty. -/
theorem scan_of_notMem {template : String} (h : '{' ∉ template.toList) :
    ∃ tokens, scan template = .ok tokens ∧
      ∀ args policy, fill tokens args policy = halved template := by
  by_cases hnil : template = ""
  · subst hnil
    refine ⟨[], ?_, fun _ _ => rfl⟩
    show Token.ofPieces 0 (pieces []) = .ok []
    rw [pieces]
    rfl
  · have hne : template.toList ≠ [] := by simpa using hnil
    have hfits : (Piece.literal template.toList).Fits [] := ⟨hne, h, .inl rfl⟩
    have hpieces : pieces template.toList = [.literal template.toList] := by
      have hcut := pieces_source_append hfits
      rwa [Piece.source, List.append_nil, pieces] at hcut
    refine ⟨[.literal 0 template], ?_, fill_literal 0 template⟩
    rw [scan, hpieces, Token.ofPieces, Token.ofPiece, String.ofList_toList]
    rfl

/-- Closing braces are halved run by run.  A template without an opening brace can be scanned and
stands for its text with each longest run of closing braces halved, rounding up, which is the text
itself if no two of them are neighbours.  In any template, each literal is the slice at its place
and contributes this text halved by itself, whatever stands on its two sides. -/
theorem fill_halves_runs :
    (∀ template : String, '{' ∉ template.toList →
      ∃ tokens, scan template = .ok tokens ∧
        (∀ args policy, fill tokens args policy = halved template) ∧
        (∀ args, format template args = .ok (halved template)) ∧
        (¬ ['}', '}'] <:+: template.toList → halved template = template)) ∧
    ∀ (template : String) (tokens before after : List Token) (start : Nat) (text : String),
      scan template = .ok tokens → tokens = before ++ .literal start text :: after →
        slice? template start (start + text.utf8ByteSize) = some text ∧
        ∀ args policy, fill tokens args policy =
          fill before args policy ++ halved text ++ fill after args policy := by
  constructor
  · intro template hopen
    obtain ⟨tokens, hscan, hfill⟩ := scan_of_notMem hopen
    refine ⟨tokens, hscan, hfill, fun args => ?_, halved_eq_self⟩
    rw [format, hscan, ← hfill args .blank]
    rfl
  · rintro template _ before after start text hscan rfl
    refine ⟨slice?_of_scan hscan (by simp), fun args policy => ?_⟩
    rw [fill_append_cons, fill_literal]

theorem fill_halves_runs_beside_placeholder :
    let text := "a\x7d\x7d\x7d\x7d"
    let template := "a\x7d{x}\x7d\x7d\x7d"
    let before : List Token := [.literal 0 "a\x7d", .placeholder ⟨[.dot "x"]⟩ none]
    let tokens := before ++ [.literal 5 "\x7d\x7d\x7d"]
    '{' ∉ text.toList ∧ format text [] = .ok "a\x7d\x7d" ∧ scan template = .ok tokens ∧
      slice? template 5 8 = some "\x7d\x7d\x7d" ∧ fill tokens [] .blank = "a\x7d\x7d\x7d" := by
  intro text template before tokens
  have hopen : '{' ∉ text.toList := by decide +kernel
  have hscan : scan template = .ok tokens := by decide +kernel
  obtain ⟨_, -, -, hformat, -⟩ := fill_halves_runs.1 _ hopen
  obtain ⟨hslice, hfill⟩ := fill_halves_runs.2 _ _ before [] _ _ hscan rfl
  have halone : halved text = "a\x7d\x7d" := by decide +kernel
  refine ⟨hopen, ?_, hscan, hslice, ?_⟩
  · rw [hformat, halone]
  · rw [hfill]
    decide +kernel

end TextTemplate
