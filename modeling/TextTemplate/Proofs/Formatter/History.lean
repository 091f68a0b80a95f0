import TextTemplate.Proofs.Formatter.Transparency

/-!
# The history of a formatter

`after config calls n` is a fresh formatter after the first `n` of the calls: the states a run goes
through, of which `call n` makes the next one (`after_succ`).  What a run keeps is proved of one
call (`after_induction`).

`UsedAt` and `ClearedAt` are the events of a run that its cache depends on: a template is answered
without an error, and the cache is cleared, by `clearCache` or because a template comes to a full
cache.  A formatter that keeps templates does one of three things at a call, which `call_cases`
lists.
-/

namespace TextTemplate.Formatter

/-! ### Calls of a template -/

/-- The template a call is of. -/
def Call.template? : Call → Option String
  | tokenize template => some template
  | format template _ => some template
  | formatNumber _ _ => none
  | clearCache => none

/-- Whether an answer is not an error. -/
def Answer.isOk : Answer → Bool
  | tokens result => result.isOk
  | text result => result.isOk
  | cleared => true

/-- The call clears the cache it finds: it is `clearCache`, or it is answered without an error and
its template is not in the cache, which is full. -/
def Clears (f : Formatter) (c : Call) : Prop :=
  c = .clearCache ∨ ∃ template, c.template? = some template ∧ template ∉ f.templates ∧
    f.cachedTemplates = f.config.cacheCapacity.toNat ∧ (f.call c).1.isOk

/-- The formatter after it has scanned a template and kept its tokens. -/
def keep (f : Formatter) (template : String) (tokens : List Token) : Formatter :=
  { f with
    cache := (template, ⟨f.scans, tokens⟩) :: if f.isFull then [] else f.cache
    scans := f.scans + 1 }

@[simp]
theorem keep_config (f : Formatter) (template : String) (tokens : List Token) :
    (f.keep template tokens).config = f.config := rfl

variable {f : Formatter} {template : String} {c : Call}

/-- A call of a template tokenizes it, and is in error if that is. -/
theorem call_of_template? (f : Formatter) (h : c.template? = some template) :
    (f.call c).2 = (f.tokenize template).2 ∧ (f.call c).1.isOk = (f.tokenize template).1.isOk := by
  cases c with
  | tokenize other =>
    obtain rfl := Option.some.inj h
    exact ⟨rfl, rfl⟩
  | format other args =>
    obtain rfl := Option.some.inj h
    refine ⟨rfl, ?_⟩
    show ((f.tokenize other).1.map fun shared =>
      fill shared.tokens args f.config.falsy).isOk = (f.tokenize other).1.isOk
    cases (f.tokenize other).1 with
    | error e => rfl
    | ok shared => rfl
  | formatNumber x specifier => cases h
  | clearCache => cases h

theorem clears_iff_of_template? (h : c.template? = some template) :
    f.Clears c ↔ template ∉ f.templates ∧
      f.cachedTemplates = f.config.cacheCapacity.toNat ∧ (f.call c).1.isOk := by
  constructor
  · rintro (rfl | ⟨other, hother, hclears⟩)
    · cases h
    · obtain rfl := Option.some.inj (h.symm.trans hother)
      exact hclears
  · exact fun hclears => .inr ⟨template, h, hclears⟩

/-- A call that is in error leaves the formatter as it is. -/
theorem call_of_not_isOk (h : ¬ (f.call c).1.isOk) : (f.call c).2 = f := by
  cases hc : c.template? with
  | some template =>
    obtain ⟨hstate, hok⟩ := f.call_of_template? hc
    rw [hok] at h
    rw [hstate]
    obtain ⟨shared, -, htokenize⟩ | ⟨e, -, -, htokenize⟩ | ⟨tokens, -, -, htokenize⟩ :=
      f.tokenize_cases template
    · rw [htokenize] at h
      exact absurd rfl h
    · rw [htokenize]
    · rw [htokenize] at h
      exact absurd rfl h
  | none =>
    cases c with
    | tokenize template => cases hc
    | format template args => cases hc
    | formatNumber x specifier => rfl
    | clearCache => exact absurd rfl h

/-! ### Formatters that keep templates -/

theorem keepsTemplates_iff :
    f.keepsTemplates ↔ f.config.cache = true ∧ f.config.cacheCapacity ≠ 0 := by
  rw [keepsTemplates, Bool.and_eq_true, bne_iff_ne]

theorem cached?_of_keepsTemplates (h : f.keepsTemplates) (template : String) :
    f.cached? template = f.cache.lookup template := by
  rw [cached?, if_pos (keepsTemplates_iff.mp h).1]

theorem cached?_eq_none_iff (h : f.keepsTemplates) :
    f.cached? template = none ↔ template ∉ f.templates := by
  rw [cached?_of_keepsTemplates h, List.lookup_eq_none_iff, templates, List.mem_map]
  constructor
  · rintro hne ⟨entry, hmem, rfl⟩
    simpa using hne entry hmem
  · intro hmem entry hentry
    rw [bne_iff_ne]
    rintro rfl
    exact hmem ⟨entry, hentry, rfl⟩

theorem isFull_iff : f.isFull ↔ f.config.cacheCapacity.toNat ≤ f.cachedTemplates := by
  rw [isFull, decide_eq_true_iff, cachedTemplates]

theorem templates_keep (f : Formatter) (template : String) (tokens : List Token) :
    (f.keep template tokens).templates =
      template :: if f.isFull then [] else f.templates := by
  rw [templates, keep]
  split <;> rfl

/-- A template that is not in the cache is scanned and kept. -/
theorem tokenize_of_notMem (h : f.keepsTemplates) (hmem : template ∉ f.templates)
    {tokens : List Token} (hscan : scan template = .ok tokens) :
    f.tokenize template = (.ok ⟨f.scans, tokens⟩, f.keep template tokens) := by
  rw [tokenize, (cached?_eq_none_iff h).mpr hmem, hscan, keep]
  simp only [cacheWith, if_pos h]

/-- What a call does to a formatter that keeps templates: it empties the cache; or it changes
nothing, its template being kept, in error or none; or it scans a template and keeps it. -/
theorem call_cases (h : f.keepsTemplates) (c : Call) :
    (c = .clearCache ∧ (f.call c).2 = f.clearCache) ∨
    (¬ f.Clears c ∧ (f.call c).2 = f ∧
      ∀ template, c.template? = some template → (f.call c).1.isOk → template ∈ f.templates) ∨
    (∃ template tokens, c.template? = some template ∧ template ∉ f.templates ∧
      (f.call c).1.isOk ∧ (f.Clears c ↔ f.cachedTemplates = f.config.cacheCapacity.toNat) ∧
      (f.call c).2 = f.keep template tokens) := by
  cases hc : c.template? with
  | some template =>
    obtain ⟨hstate, hok⟩ := f.call_of_template? hc
    rw [clears_iff_of_template? hc, hstate, hok]
    obtain ⟨shared, hcached, htokenize⟩ | ⟨e, -, -, htokenize⟩ | ⟨tokens, hcached, -, htokenize⟩ :=
      f.tokenize_cases template
    · have hmem : template ∈ f.templates := by
        by_contra hmem
        rw [(cached?_eq_none_iff h).mpr hmem] at hcached
        cases hcached
      rw [htokenize]
      refine .inr (.inl ⟨fun hclears => hclears.1 hmem, rfl, fun other hother _ => ?_⟩)
      obtain rfl := Option.some.inj hother
      exact hmem
    · have herror : ¬ (f.tokenize template).1.isOk := by
        rw [htokenize]
        exact Bool.noConfusion
      refine .inr (.inl ⟨fun hclears => herror hclears.2.2, by rw [htokenize], ?_⟩)
      exact fun other _ hok => absurd hok herror
    · have hmem := (cached?_eq_none_iff h).mp hcached
      have hok : (f.tokenize template).1.isOk := by
        rw [htokenize]
        rfl
      refine .inr (.inr ⟨template, tokens, rfl, hmem, hok, ?_, ?_⟩)
      · simp only [hmem, hok, not_false_iff, true_and, and_true]
      · rw [htokenize, cacheWith, if_pos h, keep]
  | none =>
    cases c with
    | tokenize template => cases hc
    | format template args => cases hc
    | formatNumber x specifier =>
      refine .inr (.inl ⟨?_, rfl, fun template htemplate => ?_⟩)
      · rintro (hclear | ⟨template, htemplate, -⟩)
        · cases hclear
        · cases htemplate
      · cases htemplate
    | clearCache => exact .inl ⟨rfl, rfl⟩

/-! ### Formatters that keep none -/

theorem cache_tokenize_of_not_keepsTemplates (h : ¬ f.keepsTemplates) (hcache : f.cache = [])
    (template : String) : (f.tokenize template).2.cache = [] := by
  obtain ⟨_, -, htokenize⟩ | ⟨_, -, -, htokenize⟩ | ⟨tokens, -, -, htokenize⟩ :=
    f.tokenize_cases template
  · rwa [htokenize]
  · rwa [htokenize]
  · rw [htokenize]
    show f.cacheWith template ⟨f.scans, tokens⟩ = []
    rw [cacheWith, if_neg h, hcache]

/-- An empty cache that takes no templates stays empty. -/
theorem cache_call_of_not_keepsTemplates (h : ¬ f.keepsTemplates) (hcache : f.cache = [])
    (c : Call) : (f.call c).2.cache = [] := by
  cases c with
  | tokenize template => exact cache_tokenize_of_not_keepsTemplates h hcache template
  | format template args => exact cache_tokenize_of_not_keepsTemplates h hcache template
  | formatNumber x specifier => exact hcache
  | clearCache => rfl

/-! ### The states of a run -/

theorem run_cons (f : Formatter) (c : Call) (calls : List Call) :
    f.run (c :: calls) =
      ((f.call c).1 :: ((f.call c).2.run calls).1, ((f.call c).2.run calls).2) := rfl

theorem run_append (f : Formatter) (calls calls' : List Call) :
    f.run (calls ++ calls') =
      ((f.run calls).1 ++ ((f.run calls).2.run calls').1, ((f.run calls).2.run calls').2) := by
  induction calls generalizing f with
  | nil => rfl
  | cons c calls ih =>
    rw [List.cons_append, run_cons, run_cons, ih, List.cons_append]

theorem length_run (f : Formatter) (calls : List Call) : (f.run calls).1.length = calls.length := by
  induction calls generalizing f with
  | nil => rfl
  | cons c calls ih =>
    rw [run_cons, List.length_cons, ih, List.length_cons]

/-- A fresh formatter after the first `n` calls. -/
def after (config : FormatterConfig) (calls : List Call) (n : Nat) : Formatter :=
  (run { config := config } (calls.take n)).2

/-- Call `i` of the run is of the template and is not in error. -/
def UsedAt (config : FormatterConfig) (calls : List Call) (template : String) (i : Nat) : Prop :=
  ∃ c answer, calls[i]? = some c ∧ c.template? = some template ∧
    (run { config := config } calls).1[i]? = some answer ∧ answer.isOk

/-- Call `i` of the run clears the cache. -/
def ClearedAt (config : FormatterConfig) (calls : List Call) (i : Nat) : Prop :=
  ∃ c, calls[i]? = some c ∧ (after config calls i).Clears c

section Run

variable {config : FormatterConfig} {calls : List Call} {m n i : Nat}

theorem after_succ (h : calls[n]? = some c) :
    after config calls (n + 1) = ((after config calls n).call c).2 := by
  rw [after, List.take_add_one, h, Option.toList_some, run_append, run_cons]
  rfl

theorem after_succ_of_none (h : calls[n]? = none) :
    after config calls (n + 1) = after config calls n := by
  rw [after, List.take_add_one, h, Option.toList_none, List.append_nil, after]

/-- Call `i` is answered by the formatter after the calls in front of it. -/
theorem getElem?_run (h : calls[i]? = some c) :
    (run { config := config } calls).1[i]? = some ((after config calls i).call c).1 := by
  obtain ⟨hi, rfl⟩ := List.getElem?_eq_some_iff.mp h
  have hsplit : calls = calls.take i ++ calls[i] :: calls.drop (i + 1) := by
    rw [List.getElem_cons_drop, List.take_append_drop]
  have hlength : (run { config := config } (calls.take i)).1.length = i := by
    rw [length_run, List.length_take, Nat.min_eq_left hi.le]
  conv => lhs; rw [hsplit, run_append, run_cons]
  rw [List.getElem?_append_right hlength.le, hlength, Nat.sub_self]
  rfl

/-- What holds after `m` calls, and what each call from there on keeps, holds after `n`. -/
theorem after_induction {P : Formatter → Prop} (hmn : m ≤ n) (hm : P (after config calls m))
    (hcall : ∀ k c, m ≤ k → k < n → calls[k]? = some c → P (after config calls k) →
      P ((after config calls k).call c).2) : P (after config calls n) := by
  induction n, hmn using Nat.le_induction with
  | base => exact hm
  | succ k hmk ih =>
    have hk := ih fun j c hmj hjk => hcall j c hmj (Nat.lt_succ_of_lt hjk)
    cases hc : calls[k]? with
    | some c =>
      rw [after_succ hc]
      exact hcall k c hmk (Nat.lt_succ_self k) hc hk
    | none => rwa [after_succ_of_none hc]

theorem after_config (config : FormatterConfig) (calls : List Call) (n : Nat) :
    (after config calls n).config = config := by
  refine after_induction (P := fun f => f.config = config) (Nat.zero_le n) rfl ?_
  intro k c _ _ _ hk
  rw [call_config, hk]

theorem keepsTemplates_after_iff (config : FormatterConfig) (calls : List Call) (n : Nat) :
    (after config calls n).keepsTemplates ↔ config.cache = true ∧ config.cacheCapacity ≠ 0 := by
  rw [keepsTemplates_iff, after_config]

theorem usedAt_iff (h : calls[i]? = some c) :
    UsedAt config calls template i ↔
      c.template? = some template ∧ ((after config calls i).call c).1.isOk := by
  constructor
  · rintro ⟨c', answer, hc', htemplate, hanswer, hok⟩
    obtain rfl := Option.some.inj (h.symm.trans hc')
    obtain rfl := Option.some.inj ((getElem?_run h).symm.trans hanswer)
    exact ⟨htemplate, hok⟩
  · rintro ⟨htemplate, hok⟩
    exact ⟨c, _, h, htemplate, getElem?_run h, hok⟩

theorem clearedAt_iff (h : calls[i]? = some c) :
    ClearedAt config calls i ↔ (after config calls i).Clears c := by
  constructor
  · rintro ⟨c', hc', hclears⟩
    obtain rfl := Option.some.inj (h.symm.trans hc')
    exact hclears
  · exact fun hclears => ⟨c, h, hclears⟩

end Run

end TextTemplate.Formatter
