import TextTemplate.Proofs.Formatter.CacheContents

/-!
# Shared lists of tokens

A template that is tokenized twice gets the same list of tokens if and only if the formatter keeps
templates and the cache was not cleared in between; different templates never share one
(`scanNumber_eq_iff`).

The scans of a run have a `Ledger`, the list of their templates, so the number of a list tells its
template.  The numbers also tell the time: after the cache has been cleared it holds lists of later
scans only (`KeepsFrom`).
-/

namespace TextTemplate.Formatter

/-! ### The ledger of the scans -/

/-- `log` is the list of the templates scanned so far.  What the cache keeps for a template comes
from a scan of it. -/
structure Ledger (f : Formatter) (log : List String) : Prop where
  length_eq : log.length = f.scans
  getElem?_eq : ∀ template shared, (template, shared) ∈ f.cache →
    log[shared.scanNumber]? = some template

section Ledger

variable {f : Formatter} {log : List String}

theorem getElem?_of_isPrefix {log log' : List String} {n : Nat} {template : String}
    (h : log <+: log') (hn : log[n]? = some template) : log'[n]? = some template := by
  obtain ⟨rest, rfl⟩ := h
  obtain ⟨hlt, -⟩ := List.getElem?_eq_some_iff.mp hn
  rw [List.getElem?_append_left hlt, hn]

/-- A scan is entered at the end of the ledger. -/
theorem Ledger.tokenize (hf : f.Ledger log) (template : String) :
    ∃ log', log <+: log' ∧ (f.tokenize template).2.Ledger log' ∧
      ∀ shared, (f.tokenize template).1 = .ok shared →
        log'[shared.scanNumber]? = some template := by
  obtain ⟨shared, hcached, htokenize⟩ | ⟨e, -, -, htokenize⟩ | ⟨tokens, -, -, htokenize⟩ :=
    f.tokenize_cases template
  · rw [htokenize]
    refine ⟨log, List.prefix_rfl, hf, fun other hother => ?_⟩
    cases hother
    exact hf.getElem?_eq template shared (mem_cache_of_cached? hcached)
  · rw [htokenize]
    refine ⟨log, List.prefix_rfl, hf, fun other hother => ?_⟩
    cases hother
  · have hprefix : log <+: log ++ [template] := List.prefix_append log [template]
    have hnew : (log ++ [template])[f.scans]? = some template := by
      rw [← hf.length_eq, List.getElem?_concat_length]
    rw [htokenize]
    refine ⟨log ++ [template], hprefix, ⟨?_, fun other kept hmem => ?_⟩, fun other hother => ?_⟩
    · rw [List.length_append, hf.length_eq, List.length_singleton]
    · rcases of_mem_cacheWith hmem with heq | hmem
      · cases heq
        exact hnew
      · exact getElem?_of_isPrefix hprefix (hf.getElem?_eq other kept hmem)
    · cases hother
      exact hnew

theorem Ledger.call (hf : f.Ledger log) (c : Call) :
    ∃ log', log <+: log' ∧ (f.call c).2.Ledger log' ∧
      ∀ template shared, c = .tokenize template → (f.tokenize template).1 = .ok shared →
        log'[shared.scanNumber]? = some template := by
  cases c with
  | tokenize template =>
    obtain ⟨log', hprefix, hledger, hanswer⟩ := hf.tokenize template
    refine ⟨log', hprefix, hledger, fun other shared hother => ?_⟩
    cases hother
    exact hanswer shared
  | format template args =>
    obtain ⟨log', hprefix, hledger, -⟩ := hf.tokenize template
    refine ⟨log', hprefix, hledger, fun other shared hother => ?_⟩
    cases hother
  | formatNumber x specifier =>
    refine ⟨log, List.prefix_rfl, hf, fun other shared hother => ?_⟩
    cases hother
  | clearCache =>
    refine ⟨log, List.prefix_rfl, ⟨hf.length_eq, fun template shared hmem => ?_⟩,
      fun other shared hother => ?_⟩
    · cases hmem
    · cases hother

end Ledger

/-! ### Numbers of later scans -/

/-- The cache keeps lists of scan `m` and later ones only. -/
structure KeepsFrom (m : Nat) (f : Formatter) : Prop where
  le_scans : m ≤ f.scans
  le_scanNumber : ∀ template shared, (template, shared) ∈ f.cache → m ≤ shared.scanNumber

section KeepsFrom

variable {f : Formatter} {m : Nat} {template : String} {shared : SharedTokens}

theorem keepsFrom_of_cache_eq_nil (h : f.cache = []) : KeepsFrom f.scans f := by
  refine ⟨le_rfl, fun template shared hmem => ?_⟩
  rw [h] at hmem
  cases hmem

theorem KeepsFrom.tokenize (hf : KeepsFrom m f) (template : String) :
    KeepsFrom m (f.tokenize template).2 := by
  obtain ⟨_, -, htokenize⟩ | ⟨_, -, -, htokenize⟩ | ⟨tokens, -, -, htokenize⟩ :=
    f.tokenize_cases template
  · rwa [htokenize]
  · rwa [htokenize]
  · rw [htokenize]
    refine ⟨Nat.le_succ_of_le hf.le_scans, fun other kept hmem => ?_⟩
    rcases of_mem_cacheWith hmem with heq | hmem
    · cases heq
      exact hf.le_scans
    · exact hf.le_scanNumber other kept hmem

theorem KeepsFrom.call (hf : KeepsFrom m f) (c : Call) : KeepsFrom m (f.call c).2 := by
  cases c with
  | tokenize template => exact hf.tokenize template
  | format template args => exact hf.tokenize template
  | formatNumber x specifier => exact hf
  | clearCache =>
    refine ⟨hf.le_scans, fun template shared hmem => ?_⟩
    cases hmem

theorem KeepsFrom.le_of_tokenize (hf : KeepsFrom m f)
    (h : (f.tokenize template).1 = .ok shared) : m ≤ shared.scanNumber := by
  obtain ⟨kept, hcached, htokenize⟩ | ⟨e, -, -, htokenize⟩ | ⟨tokens, -, -, htokenize⟩ :=
    f.tokenize_cases template <;> rw [htokenize] at h <;> cases h
  · exact hf.le_scanNumber template shared (mem_cache_of_cached? hcached)
  · exact hf.le_scans

/-- What is left when the cache is cleared is at most the list of a new scan. -/
theorem Clears.keepsFrom {c : Call} (hclears : f.Clears c) (h : f.keepsTemplates) :
    KeepsFrom f.scans (f.call c).2 := by
  obtain ⟨-, hcall⟩ | ⟨hnot, -⟩ | ⟨other, tokens, -, -, -, hiff, hcall⟩ := f.call_cases h c
  · rw [hcall]
    exact keepsFrom_of_cache_eq_nil (f := f.clearCache) rfl
  · exact absurd hclears hnot
  · have hfull : f.isFull := isFull_iff.mpr (hiff.mp hclears).ge
    rw [hcall, Formatter.keep, if_pos hfull]
    refine ⟨Nat.le_succ _, fun template shared hmem => ?_⟩
    cases List.mem_singleton.mp hmem
    exact le_rfl

end KeepsFrom

/-! ### What stays in the cache -/

section Kept

variable {f : Formatter} {template : String} {shared : SharedTokens}

/-- The list handed out for a template is the one that is kept for it. -/
theorem cached?_tokenize (h : f.keepsTemplates) (hok : (f.tokenize template).1 = .ok shared) :
    (f.tokenize template).2.cached? template = some shared := by
  obtain ⟨kept, hcached, htokenize⟩ | ⟨e, -, -, htokenize⟩ | ⟨tokens, hcached, hscan, htokenize⟩ :=
    f.tokenize_cases template
  · rw [htokenize] at hok ⊢
    cases hok
    exact hcached
  · rw [htokenize] at hok
    cases hok
  · rw [htokenize] at hok
    cases hok
    have hkeep := tokenize_of_notMem h ((cached?_eq_none_iff h).mp hcached) hscan
    have hkeeps : (f.keep template tokens).keepsTemplates := h
    rw [hkeep, cached?_of_keepsTemplates hkeeps, Formatter.keep, List.lookup_cons_self]

/-- What is kept for a template stays until the cache is cleared. -/
theorem cached?_call_of_not_clears (hf : f.Orderly) (h : f.keepsTemplates)
    (hcached : f.cached? template = some shared) {c : Call} (hclears : ¬ f.Clears c) :
    (f.call c).2.cached? template = some shared := by
  obtain ⟨rfl, -⟩ | ⟨-, hcall, -⟩ | ⟨other, tokens, -, hmem, -, hiff, hcall⟩ := f.call_cases h c
  · exact absurd (.inl rfl) hclears
  · rwa [hcall]
  · have hroom : ¬ f.isFull := fun hfull => hclears (hiff.mpr (hf.isFull_iff_eq.mp hfull))
    have hne : template ≠ other := by
      rintro rfl
      rw [(cached?_eq_none_iff h).mpr hmem] at hcached
      cases hcached
    have hbeq : (template == other) = false := beq_eq_false_iff_ne.mpr hne
    have hkeeps : (f.keep other tokens).keepsTemplates := h
    rw [cached?_of_keepsTemplates h] at hcached
    rw [hcall, cached?_of_keepsTemplates hkeeps, Formatter.keep, if_neg hroom, List.lookup_cons,
      hbeq]
    exact hcached

end Kept

/-! ### A run -/

/-- Call `i` of the run tokenizes the template and is answered with this list. -/
def ReturnsAt (config : FormatterConfig) (calls : List Call) (i : Nat) (template : String)
    (shared : SharedTokens) : Prop :=
  calls[i]? = some (.tokenize template) ∧
    (run { config := config } calls).1[i]? = some (.tokens (.ok shared))

section Run

variable {config : FormatterConfig} {calls : List Call} {i j n : Nat} {template : String}
  {shared shared' : SharedTokens}

theorem ReturnsAt.tokenize_eq (h : ReturnsAt config calls i template shared) :
    ((after config calls i).tokenize template).1 = .ok shared := by
  have hanswer := Option.some.inj ((getElem?_run h.1).symm.trans h.2)
  exact Answer.tokens.inj hanswer

theorem ReturnsAt.after_succ (h : ReturnsAt config calls i template shared) :
    after config calls (i + 1) = ((after config calls i).tokenize template).2 :=
  Formatter.after_succ h.1

/-- The scans of a run have a ledger, in which the lists handed out are found too. -/
theorem exists_ledger (config : FormatterConfig) (calls : List Call) (n : Nat) :
    ∃ log, (after config calls n).Ledger log ∧
      ∀ i < n, ∀ template shared, ReturnsAt config calls i template shared →
        log[shared.scanNumber]? = some template := by
  induction n with
  | zero =>
    refine ⟨[], ⟨rfl, fun template shared hmem => ?_⟩, fun i hi => ?_⟩
    · cases hmem
    · cases hi
  | succ n ih =>
    obtain ⟨log, hledger, hlog⟩ := ih
    cases hc : calls[n]? with
    | some c =>
      obtain ⟨log', hprefix, hledger', hanswer⟩ := hledger.call c
      rw [Formatter.after_succ hc]
      refine ⟨log', hledger', fun i hi template shared hreturns => ?_⟩
      rcases Nat.lt_succ_iff_lt_or_eq.mp hi with hi | rfl
      · exact getElem?_of_isPrefix hprefix (hlog i hi template shared hreturns)
      · refine hanswer template shared ?_ hreturns.tokenize_eq
        exact Option.some.inj (hc.symm.trans hreturns.1)
    | none =>
      rw [after_succ_of_none hc]
      refine ⟨log, hledger, fun i hi template shared hreturns => ?_⟩
      rcases Nat.lt_succ_iff_lt_or_eq.mp hi with hi | rfl
      · exact hlog i hi template shared hreturns
      · cases hc.symm.trans hreturns.1

/-- A list that has been handed out has the number of a scan made before. -/
theorem ReturnsAt.scanNumber_lt (h : ReturnsAt config calls i template shared) :
    shared.scanNumber < (after config calls (i + 1)).scans := by
  obtain ⟨log, hledger, hlog⟩ := exists_ledger config calls (i + 1)
  have hentry := hlog i (Nat.lt_succ_self i) template shared h
  rw [← hledger.length_eq]
  exact (List.getElem?_eq_some_iff.mp hentry).1

theorem KeepsFrom.after {m k : Nat} (hk : KeepsFrom m (after config calls k)) (hkn : k ≤ n) :
    KeepsFrom m (after config calls n) :=
  after_induction hkn hk fun _ c _ _ _ h => h.call c

theorem scans_le_call (f : Formatter) (c : Call) : f.scans ≤ (f.call c).2.scans := by
  have htokenize : ∀ template, f.scans ≤ (f.tokenize template).2.scans := by
    intro template
    obtain ⟨_, -, h⟩ | ⟨_, -, -, h⟩ | ⟨_, -, -, h⟩ := f.tokenize_cases template <;> rw [h]
    exact Nat.le_succ _
  cases c with
  | tokenize template => exact htokenize template
  | format template args => exact htokenize template
  | formatNumber x specifier => exact le_rfl
  | clearCache => exact le_rfl

theorem scans_after_mono {m : Nat} (hmn : m ≤ n) :
    (after config calls m).scans ≤ (after config calls n).scans :=
  after_induction (P := fun f => (after config calls m).scans ≤ f.scans) hmn le_rfl
    fun _ c _ _ _ hk => hk.trans (scans_le_call _ c)

/-- Where no templates are kept, a template is scanned anew each time. -/
theorem scanNumber_lt_of_not_keepsTemplates
    (h : config.cache = false ∨ config.cacheCapacity = 0) (hij : i < j)
    (hi : ReturnsAt config calls i template shared)
    (hj : ReturnsAt config calls j template shared') : shared.scanNumber < shared'.scanNumber := by
  have hempty : KeepsFrom (after config calls (i + 1)).scans (after config calls (i + 1)) :=
    keepsFrom_of_cache_eq_nil (cache_after_eq_nil h (i + 1))
  exact hi.scanNumber_lt.trans_le ((hempty.after hij).le_of_tokenize hj.tokenize_eq)

/-- Behind a clearing of the cache a template is scanned anew. -/
theorem scanNumber_lt_of_clearedAt (hcache : config.cache = true)
    (hcapacity : config.cacheCapacity ≠ 0) {k : Nat} (hik : i < k) (hkj : k ≤ j)
    (hk : ClearedAt config calls k) (hi : ReturnsAt config calls i template shared)
    (hj : ReturnsAt config calls j template shared') : shared.scanNumber < shared'.scanNumber := by
  have hkeeps := fun n => (keepsTemplates_after_iff config calls n).mpr ⟨hcache, hcapacity⟩
  obtain ⟨c, hc, hclears⟩ := hk
  have hcleared : KeepsFrom (after config calls k).scans (after config calls (k + 1)) := by
    rw [Formatter.after_succ hc]
    exact hclears.keepsFrom (hkeeps k)
  -- the list handed out at `j` is in the cache then
  have hkept : (template, shared') ∈ (after config calls (j + 1)).cache := by
    rw [hj.after_succ]
    exact mem_cache_of_cached? (cached?_tokenize (hkeeps j) hj.tokenize_eq)
  calc
    shared.scanNumber < (after config calls (i + 1)).scans := hi.scanNumber_lt
    _ ≤ (after config calls k).scans := scans_after_mono hik
    _ ≤ shared'.scanNumber :=
      (hcleared.after (Nat.succ_le_succ hkj)).le_scanNumber template shared' hkept

/-- Until the cache is cleared a template gets the list it got before. -/
theorem eq_of_not_clearedAt (hcache : config.cache = true) (hcapacity : config.cacheCapacity ≠ 0)
    (hij : i < j) (hclear : ∀ k, i < k → k ≤ j → ¬ ClearedAt config calls k)
    (hi : ReturnsAt config calls i template shared)
    (hj : ReturnsAt config calls j template shared') : shared = shared' := by
  have hkeeps := fun n => (keepsTemplates_after_iff config calls n).mpr ⟨hcache, hcapacity⟩
  have hkept : (after config calls j).cached? template = some shared := by
    refine after_induction (P := fun f => f.cached? template = some shared) hij ?_ ?_
    · rw [hi.after_succ]
      exact cached?_tokenize (hkeeps i) hi.tokenize_eq
    · intro k c hik hkj hc hk
      refine cached?_call_of_not_clears (orderly_after hcache hcapacity calls k) (hkeeps k) hk ?_
      exact fun hclears => hclear k hik hkj.le ⟨c, hc, hclears⟩
  have hanswer := hj.tokenize_eq
  rw [Formatter.tokenize, hkept] at hanswer
  exact Except.ok.inj hanswer

end Run

/-- Two calls that tokenize a template are answered with the same list if and only if the formatter
keeps templates and no call behind the first one, up to the second, has cleared the cache.  Calls
that tokenize different templates never are. -/
theorem scanNumber_eq_iff (config : FormatterConfig) (calls : List Call) :
    (∀ i j template shared shared', i < j →
      ReturnsAt config calls i template shared → ReturnsAt config calls j template shared' →
      (shared.scanNumber = shared'.scanNumber ↔
        config.cache = true ∧ config.cacheCapacity ≠ 0 ∧
          ∀ k, i < k → k ≤ j → ¬ ClearedAt config calls k)) ∧
    ∀ i j template other shared shared', template ≠ other →
      ReturnsAt config calls i template shared → ReturnsAt config calls j other shared' →
      shared.scanNumber ≠ shared'.scanNumber := by
  refine ⟨fun i j template shared shared' hij hi hj => ⟨fun heq => ?_, ?_⟩, ?_⟩
  · by_cases hkeeps : config.cache = true ∧ config.cacheCapacity ≠ 0
    · refine ⟨hkeeps.1, hkeeps.2, fun k hik hkj hk => ?_⟩
      exact (scanNumber_lt_of_clearedAt hkeeps.1 hkeeps.2 hik hkj hk hi hj).ne heq
    · have hnone : config.cache = false ∨ config.cacheCapacity = 0 := by
        rw [not_and_or, Bool.not_eq_true, not_not] at hkeeps
        exact hkeeps
      exact absurd heq (scanNumber_lt_of_not_keepsTemplates hnone hij hi hj).ne
  · rintro ⟨hcache, hcapacity, hclear⟩
    rw [eq_of_not_clearedAt hcache hcapacity hij hclear hi hj]
  · intro i j template other shared shared' hne hi hj heq
    -- the ledger has one template for each number
    obtain ⟨log, -, hlog⟩ := exists_ledger config calls (max i j + 1)
    have htemplate := hlog i (by omega) template shared hi
    have hother := hlog j (by omega) other shared' hj
    rw [heq, hother, Option.some.injEq] at htemplate
    exact hne htemplate.symm

end TextTemplate.Formatter
