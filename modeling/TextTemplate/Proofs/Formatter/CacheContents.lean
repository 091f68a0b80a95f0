import Mathlib.Data.Set.Card
import TextTemplate.Proofs.Formatter.History

/-!
# What the cache holds

The cache of a formatter that keeps templates is told by the history of its calls: it holds the
templates that were answered without an error since it was last cleared, each of them once
(`mem_templates_after_iff`).  A template that clears a full cache is one of them.

One call adds its template, if it is not in error, to what it does not clear
(`mem_templates_call_iff`); the history does the same (`usedSinceClearing_succ`), so the two go
together through a run.
-/

namespace TextTemplate.Formatter

/-! ### One call -/

/-- No template is in the cache twice, and there are no more than the capacity. -/
structure Orderly (f : Formatter) : Prop where
  nodup : f.templates.Nodup
  bounded : f.cachedTemplates ≤ f.config.cacheCapacity.toNat

theorem orderly_of_cache_eq_nil {f : Formatter} (h : f.cache = []) : f.Orderly := by
  constructor
  · rw [templates, h]
    exact List.nodup_nil
  · rw [cachedTemplates, h]
    exact Nat.zero_le _

section Call

variable {f : Formatter} {template : String}

/-- Formatters that keep templates have room for one. -/
theorem capacity_pos (h : f.keepsTemplates) : 0 < f.config.cacheCapacity.toNat := by
  have hne := (keepsTemplates_iff.mp h).2
  exact Nat.pos_of_ne_zero fun hzero => hne (UInt64.toNat_inj.mp hzero)

theorem Orderly.isFull_iff_eq (hf : f.Orderly) :
    f.isFull ↔ f.cachedTemplates = f.config.cacheCapacity.toNat := by
  rw [isFull_iff]
  exact ⟨Nat.le_antisymm hf.bounded, fun heq => heq.ge⟩

/-- A cache takes a template into what is left of it, nothing if it is full. -/
theorem Orderly.cachedTemplates_keep (hf : f.Orderly) (template : String) (tokens : List Token) :
    (f.keep template tokens).cachedTemplates =
      f.cachedTemplates % f.config.cacheCapacity.toNat + 1 := by
  rw [← length_templates, templates_keep, List.length_cons]
  by_cases hfull : f.isFull
  · rw [if_pos hfull, hf.isFull_iff_eq.mp hfull, Nat.mod_self, List.length_nil]
  · have hne := fun heq => hfull (hf.isFull_iff_eq.mpr heq)
    have hlt := Nat.lt_of_le_of_ne hf.bounded hne
    rw [if_neg hfull, length_templates, Nat.mod_eq_of_lt hlt]

theorem Orderly.keep (hf : f.Orderly) (h : f.keepsTemplates) (hmem : template ∉ f.templates)
    (tokens : List Token) : (f.keep template tokens).Orderly := by
  constructor
  · rw [templates_keep]
    split
    · exact List.nodup_singleton template
    · exact List.nodup_cons.mpr ⟨hmem, hf.nodup⟩
  · rw [hf.cachedTemplates_keep]
    exact Nat.mod_lt _ (capacity_pos h)

theorem Orderly.call (hf : f.Orderly) (h : f.keepsTemplates) (c : Call) :
    (f.call c).2.Orderly := by
  obtain ⟨-, hcall⟩ | ⟨-, hcall, -⟩ | ⟨template, tokens, -, hmem, -, -, hcall⟩ := f.call_cases h c
  · rw [hcall]
    exact orderly_of_cache_eq_nil rfl
  · rwa [hcall]
  · rw [hcall]
    exact hf.keep h hmem tokens

/-- After a call the cache holds its template, if it is not in error, and what it does not
clear. -/
theorem Orderly.mem_templates_call_iff (hf : f.Orderly) (h : f.keepsTemplates) (c : Call) :
    template ∈ (f.call c).2.templates ↔
      (c.template? = some template ∧ (f.call c).1.isOk) ∨
        (template ∈ f.templates ∧ ¬ f.Clears c) := by
  obtain ⟨rfl, hcall⟩ | ⟨hclears, hcall, hhit⟩ | ⟨other, tokens, hother, -, hok, hclears, hcall⟩ :=
    f.call_cases h c
  · -- nothing is left
    rw [hcall]
    constructor
    · intro hmem
      cases hmem
    · rintro (⟨htemplate, -⟩ | ⟨-, hclears⟩)
      · cases htemplate
      · exact absurd (.inl rfl) hclears
  · -- nothing changes, and the template of the call is there already
    rw [hcall]
    constructor
    · exact fun hmem => .inr ⟨hmem, hclears⟩
    · rintro (⟨htemplate, hok⟩ | ⟨hmem, -⟩)
      · exact hhit template htemplate hok
      · exact hmem
  · -- the template is kept, and the others unless the cache was full
    have htemplate : c.template? = some template ↔ template = other := by
      rw [hother, Option.some.injEq, eq_comm]
    rw [hcall, templates_keep, List.mem_cons, htemplate, hclears, ← hf.isFull_iff_eq]
    by_cases hfull : f.isFull <;> simp [hfull, hok]

theorem call_of_mem (h : f.keepsTemplates) {c : Call} (hc : c.template? = some template)
    (hmem : template ∈ f.templates) : (f.call c).2 = f := by
  obtain ⟨rfl, -⟩ | ⟨-, hcall, -⟩ | ⟨other, -, hother, hnotMem, -⟩ := f.call_cases h c
  · cases hc
  · exact hcall
  · obtain rfl := Option.some.inj (hother.symm.trans hc)
    exact absurd hmem hnotMem

/-- Different templates that are not in the cache fill it up to its capacity again and again. -/
theorem Orderly.cachedTemplates_run (hf : f.Orderly) (h : f.keepsTemplates)
    {templates : List String} (hnodup : (template :: templates).Nodup)
    (hscan : ∀ t ∈ template :: templates, ∃ tokens, scan t = .ok tokens)
    (hnew : ∀ t ∈ template :: templates, t ∉ f.templates) :
    (f.run ((template :: templates).map .tokenize)).2.cachedTemplates =
      (f.cachedTemplates + templates.length) % f.config.cacheCapacity.toNat + 1 := by
  induction templates generalizing f template with
  | nil =>
    obtain ⟨tokens, hscan⟩ := hscan template List.mem_cons_self
    have hmem := hnew template List.mem_cons_self
    rw [List.map_singleton, run_cons, run, Formatter.call, tokenize_of_notMem h hmem hscan]
    exact hf.cachedTemplates_keep template tokens
  | cons other templates ih =>
    obtain ⟨tokens, htokens⟩ := hscan template List.mem_cons_self
    have hmem := hnew template List.mem_cons_self
    have hcall : (f.call (.tokenize template)).2 = f.keep template tokens := by
      rw [Formatter.call, tokenize_of_notMem h hmem htokens]
    -- the templates to come are not the one that has just been kept
    have hnew' : ∀ t ∈ other :: templates, t ∉ (f.keep template tokens).templates := by
      intro t ht hkept
      rw [templates_keep, List.mem_cons] at hkept
      rcases hkept with rfl | hkept
      · exact (List.nodup_cons.mp hnodup).1 ht
      · split at hkept
        · cases hkept
        · exact hnew t (List.mem_cons_of_mem _ ht) hkept
    have hrest := ih (hf.keep h hmem tokens) h (List.nodup_cons.mp hnodup).2
      (fun t ht => hscan t (List.mem_cons_of_mem _ ht)) hnew'
    rw [List.map_cons, run_cons, hcall, hrest, hf.cachedTemplates_keep, keep_config,
      Nat.add_right_comm, Nat.add_assoc, Nat.mod_add_mod, List.length_cons]

end Call

/-! ### A run -/

section Run

variable {config : FormatterConfig} {calls : List Call} {n : Nat}

/-- The template was answered without an error in the first `n` calls, and none of them behind
that one cleared the cache. -/
def UsedSinceClearing (config : FormatterConfig) (calls : List Call) (n : Nat)
    (template : String) : Prop :=
  ∃ i < n, UsedAt config calls template i ∧ ∀ j, i < j → j < n → ¬ ClearedAt config calls j

theorem usedSinceClearing_succ {template : String} :
    UsedSinceClearing config calls (n + 1) template ↔
      UsedAt config calls template n ∨
        (UsedSinceClearing config calls n template ∧ ¬ ClearedAt config calls n) := by
  constructor
  · rintro ⟨i, hi, hused, hcleared⟩
    rcases Nat.lt_succ_iff_lt_or_eq.mp hi with hi | rfl
    · refine .inr ⟨⟨i, hi, hused, fun j hij hj => ?_⟩, hcleared n hi (Nat.lt_succ_self n)⟩
      exact hcleared j hij (Nat.lt_succ_of_lt hj)
    · exact .inl hused
  · rintro (hused | ⟨⟨i, hi, hused, hcleared⟩, hn⟩)
    · exact ⟨n, Nat.lt_succ_self n, hused, fun j hnj hj => absurd hj (by omega)⟩
    · refine ⟨i, Nat.lt_succ_of_lt hi, hused, fun j hij hj => ?_⟩
      rcases Nat.lt_succ_iff_lt_or_eq.mp hj with hj | rfl
      · exact hcleared j hij hj
      · exact hn

theorem cache_after_eq_nil (h : config.cache = false ∨ config.cacheCapacity = 0) (n : Nat) :
    (after config calls n).cache = [] := by
  have hkeeps : ∀ m, ¬ (after config calls m).keepsTemplates := by
    intro m hkeeps
    obtain ⟨hcache, hcapacity⟩ := (keepsTemplates_after_iff config calls m).mp hkeeps
    rcases h with h | h
    · rw [h] at hcache
      cases hcache
    · exact hcapacity h
  refine after_induction (P := fun f => f.cache = []) (Nat.zero_le n) rfl fun k c _ _ _ hk => ?_
  -- a formatter that keeps no templates never puts one into its cache
  exact cache_call_of_not_keepsTemplates (hkeeps k) hk c

theorem orderly_after (hcache : config.cache = true) (hcapacity : config.cacheCapacity ≠ 0)
    (calls : List Call) (n : Nat) : (after config calls n).Orderly := by
  refine after_induction (P := Orderly) (Nat.zero_le n) (orderly_of_cache_eq_nil rfl) ?_
  intro k c _ _ _ hk
  exact hk.call ((keepsTemplates_after_iff config calls k).mpr ⟨hcache, hcapacity⟩) c

theorem mem_templates_after (hcache : config.cache = true) (hcapacity : config.cacheCapacity ≠ 0)
    (calls : List Call) (n : Nat) (template : String) :
    template ∈ (after config calls n).templates ↔
      UsedSinceClearing config calls n template := by
  induction n with
  | zero =>
    constructor
    · intro hmem
      cases hmem
    · rintro ⟨i, hi, -⟩
      cases hi
  | succ n ih =>
    rw [usedSinceClearing_succ, ← ih]
    cases hc : calls[n]? with
    | some c =>
      have hkeeps := (keepsTemplates_after_iff config calls n).mpr ⟨hcache, hcapacity⟩
      rw [after_succ hc, usedAt_iff hc, clearedAt_iff hc,
        (orderly_after hcache hcapacity calls n).mem_templates_call_iff hkeeps c]
    | none =>
      -- behind the end of the run nothing happens
      have hused : ¬ UsedAt config calls template n := by
        rintro ⟨c, -, hc', -⟩
        rw [hc] at hc'
        cases hc'
      have hcleared : ¬ ClearedAt config calls n := by
        rintro ⟨c, hc', -⟩
        rw [hc] at hc'
        cases hc'
      rw [after_succ_of_none hc]
      simp [hused, hcleared]

end Run

/-- The cache along a run.  It stays empty if it is off or has no room.  Else it holds, after any
number of calls, the templates answered without an error since it was last cleared, each of them
once and never more than its capacity.  A call that is not in error leaves its template in the
cache, one of a template that is there changes nothing, and so does one that is in error, however
full the cache is.  Different templates fill an empty cache up to its capacity again and again. -/
theorem mem_templates_after_iff (config : FormatterConfig) (calls : List Call) (n : Nat) :
    (config.cache = false ∨ config.cacheCapacity = 0 → (after config calls n).cache = []) ∧
    (config.cache = true → config.cacheCapacity ≠ 0 →
      (∀ template, template ∈ (after config calls n).templates ↔
        UsedSinceClearing config calls n template) ∧
      (after config calls n).templates.Nodup ∧
      (after config calls n).cachedTemplates =
        {template | UsedSinceClearing config calls n template}.ncard ∧
      (after config calls n).cachedTemplates ≤ config.cacheCapacity.toNat ∧
      (∀ c template, c.template? = some template →
        (((after config calls n).call c).1.isOk →
          template ∈ ((after config calls n).call c).2.templates) ∧
        (template ∈ (after config calls n).templates →
          ((after config calls n).call c).2 = after config calls n)) ∧
      ∀ templates, templates ≠ [] → templates.Nodup →
        (∀ template ∈ templates, ∃ tokens, scan template = .ok tokens) →
        (after config calls n).cache = [] →
        ((after config calls n).run (templates.map .tokenize)).2.cachedTemplates =
          (templates.length - 1) % config.cacheCapacity.toNat + 1) ∧
    ∀ c, ¬ ((after config calls n).call c).1.isOk →
      ((after config calls n).call c).2 = after config calls n := by
  refine ⟨fun h => cache_after_eq_nil h n, fun hcache hcapacity => ?_, fun c => call_of_not_isOk⟩
  have hkeeps := (keepsTemplates_after_iff config calls n).mpr ⟨hcache, hcapacity⟩
  have horderly := orderly_after hcache hcapacity calls n
  have hmem := mem_templates_after hcache hcapacity calls n
  have hset : {template | UsedSinceClearing config calls n template} =
      ((after config calls n).templates.toFinset : Set String) := by
    ext template
    rw [Set.mem_ofPred_eq, ← hmem, List.coe_toFinset, Set.mem_ofPred_eq]
  refine ⟨hmem, horderly.nodup, ?_, ?_, fun c template hc => ⟨fun hok => ?_, fun htemplate => ?_⟩,
    fun templates hne hnodup hscan hempty => ?_⟩
  · rw [hset, Set.ncard_coe_finset, List.toFinset_card_of_nodup horderly.nodup, length_templates]
  · have hbounded := horderly.bounded
    rwa [after_config] at hbounded
  · exact (horderly.mem_templates_call_iff hkeeps c).mpr (.inl ⟨hc, hok⟩)
  · exact call_of_mem hkeeps hc htemplate
  · obtain ⟨template, templates, rfl⟩ := List.exists_cons_of_ne_nil hne
    have hnone : (after config calls n).templates = [] := by rw [Formatter.templates, hempty]; rfl
    rw [horderly.cachedTemplates_run hkeeps hnodup hscan fun t _ => hnone ▸ List.not_mem_nil,
      after_config, cachedTemplates, hempty, List.length_cons, List.length_nil, Nat.zero_add,
      Nat.add_sub_cancel]

end TextTemplate.Formatter
