import TextTemplate.Formatter
import TextTemplate.Proofs.Template.Slice

/-!
# The cache cannot be seen in the answers

`Call.reply` is what a call answers where nothing is kept between calls.  A formatter answers every
run of calls like this, whatever its cache is set to (`reply_run_eq`), as far as the answers do not
tell one scan of a template from another.

The invariant is `Sound`: what the cache keeps for a template is what scanning it gives.  A call can
do one of three things to the cache, which `tokenize_cases` lists, and each of them keeps it sound.
-/

namespace TextTemplate.Formatter

/-! ### Answers without scan numbers -/

/-- An answer without the number of the scan it comes from. -/
inductive Reply where
  | tokens (result : Except FormatError (List Token))
  | text (result : Except FormatError String)
  | cleared

/-- The answer without its scan number. -/
def Answer.reply : Answer → Reply
  | tokens result => .tokens (result.map SharedTokens.tokens)
  | text result => .text result
  | cleared => .cleared

/-- What a call answers where nothing is kept between calls. -/
def Call.reply (policy : FalsyPolicy) : Call → Reply
  | tokenize template => .tokens (scan template)
  | format template args => .text ((scan template).map (fill · args policy))
  | formatNumber x specifier =>
    .text (.ok (String.ofList (TextTemplate.formatNumber x (specifier.map String.toList))))
  | clearCache => .cleared

/-! ### What a call can do -/

variable {f : Formatter} {template : String}

/-- Tokenizing finds the template in the cache, fails to scan it, or scans it and may keep it. -/
theorem tokenize_cases (f : Formatter) (template : String) :
    (∃ shared, f.cached? template = some shared ∧ f.tokenize template = (.ok shared, f)) ∨
    (∃ e, f.cached? template = none ∧ scan template = .error e ∧
      f.tokenize template = (.error e, f)) ∨
    (∃ tokens, f.cached? template = none ∧ scan template = .ok tokens ∧
      f.tokenize template = (.ok ⟨f.scans, tokens⟩,
        { f with cache := f.cacheWith template ⟨f.scans, tokens⟩, scans := f.scans + 1 })) := by
  unfold tokenize
  cases hcached : f.cached? template with
  | some shared => exact .inl ⟨shared, rfl, rfl⟩
  | none =>
    cases hscan : scan template with
    | error e => exact .inr (.inl ⟨e, rfl, rfl, rfl⟩)
    | ok tokens => exact .inr (.inr ⟨tokens, rfl, rfl, rfl⟩)

theorem tokenize_config (f : Formatter) (template : String) :
    (f.tokenize template).2.config = f.config := by
  obtain ⟨_, -, h⟩ | ⟨_, -, -, h⟩ | ⟨_, -, -, h⟩ := f.tokenize_cases template <;> rw [h]

theorem call_config (f : Formatter) (c : Call) : (f.call c).2.config = f.config := by
  cases c with
  | tokenize template => exact f.tokenize_config template
  | format template args => exact f.tokenize_config template
  | formatNumber x specifier => rfl
  | clearCache => rfl

/-! ### Sound caches -/

/-- What the cache keeps for a template is what scanning it gives. -/
def Sound (f : Formatter) : Prop :=
  ∀ template shared, (template, shared) ∈ f.cache → scan template = .ok shared.tokens

theorem sound_of_cache_eq_nil (h : f.cache = []) : f.Sound := by
  intro template shared hmem
  rw [h] at hmem
  cases hmem

theorem mem_cache_of_cached? {shared : SharedTokens} (h : f.cached? template = some shared) :
    (template, shared) ∈ f.cache := by
  unfold cached? at h
  split at h
  · obtain ⟨before, after, hcache, -⟩ := List.lookup_eq_some_iff.mp h
    rw [hcache]
    exact List.mem_append_right _ List.mem_cons_self
  · cases h

theorem Sound.scan_eq_of_cached? (hf : f.Sound) {shared : SharedTokens}
    (h : f.cached? template = some shared) : scan template = .ok shared.tokens :=
  hf template shared (mem_cache_of_cached? h)

/-- A cache that takes a template has nothing new in it besides, cleared or not. -/
theorem of_mem_cacheWith {shared : SharedTokens} {entry : String × SharedTokens}
    (hmem : entry ∈ f.cacheWith template shared) :
    entry = (template, shared) ∨ entry ∈ f.cache := by
  unfold Formatter.cacheWith at hmem
  split at hmem
  · rcases List.mem_cons.mp hmem with heq | hmem
    · exact .inl heq
    · -- a full cache is emptied first
      split at hmem
      · cases hmem
      · exact .inr hmem
  · exact .inr hmem

theorem Sound.tokenize (hf : f.Sound) (template : String) : (f.tokenize template).2.Sound := by
  obtain ⟨_, -, h⟩ | ⟨_, -, -, h⟩ | ⟨tokens, -, hscan, h⟩ := f.tokenize_cases template
  · rwa [h]
  · rwa [h]
  · rw [h]
    intro other kept hmem
    rcases of_mem_cacheWith hmem with heq | hmem
    · cases heq
      exact hscan
    · exact hf other kept hmem

theorem Sound.call (hf : f.Sound) (c : Call) : (f.call c).2.Sound := by
  cases c with
  | tokenize template => exact hf.tokenize template
  | format template args => exact hf.tokenize template
  | formatNumber x specifier => exact hf
  | clearCache => exact sound_of_cache_eq_nil rfl

/-! ### Answers -/

theorem Sound.tokenize_tokens (hf : f.Sound) (template : String) :
    (f.tokenize template).1.map SharedTokens.tokens = scan template := by
  obtain ⟨shared, hcached, h⟩ | ⟨e, -, hscan, h⟩ | ⟨tokens, -, hscan, h⟩ :=
    f.tokenize_cases template
  · rw [h, hf.scan_eq_of_cached? hcached]
    rfl
  · rw [h, hscan]
    rfl
  · rw [h, hscan]
    rfl

/-- A formatter with a sound cache answers a call as if it kept nothing. -/
theorem Sound.call_reply (hf : f.Sound) (c : Call) :
    (f.call c).1.reply = c.reply f.config.falsy := by
  cases c with
  | tokenize template =>
    show Reply.tokens ((f.tokenize template).1.map SharedTokens.tokens) = _
    rw [hf.tokenize_tokens template]
    rfl
  | format template args =>
    show Reply.text ((f.tokenize template).1.map fun shared =>
      fill shared.tokens args f.config.falsy) = .text ((scan template).map (fill · args _))
    rw [← hf.tokenize_tokens template]
    cases (f.tokenize template).1 with
    | error e => rfl
    | ok shared => rfl
  | formatNumber x specifier => rfl
  | clearCache => rfl

theorem Sound.run_reply (hf : f.Sound) (calls : List Call) :
    (f.run calls).1.map Answer.reply = calls.map (Call.reply f.config.falsy) := by
  induction calls generalizing f with
  | nil => rfl
  | cons c calls ih =>
    -- the rest of the run begins with a sound cache and the same policy
    have hrest := ih (hf.call c)
    rw [f.call_config c] at hrest
    show (f.call c).1.reply :: ((f.call c).2.run calls).1.map Answer.reply = _
    rw [hf.call_reply c, hrest, List.map_cons]

/-- Every call in a run is answered as if nothing were kept, so formatters that differ in the
settings of their caches answer alike, and with blanks for falsy values a template is filled as by
`TextTemplate.format`.  The tokens a template is filled from are those of this very template: the
literals are its slices. -/
theorem reply_run_eq (config : FormatterConfig) (calls : List Call) :
    (run { config := config } calls).1.map Answer.reply = calls.map (Call.reply config.falsy) ∧
    (∀ other : FormatterConfig, other.falsy = config.falsy →
      (run { config := other } calls).1.map Answer.reply =
        (run { config := config } calls).1.map Answer.reply) ∧
    (config.falsy = .blank → ∀ (i : Nat) (template : String) (args : List Value),
      calls[i]? = some (Call.format template args) →
      (run { config := config } calls).1[i]?.map Answer.reply =
        some (.text (TextTemplate.format template args))) ∧
    ∀ template tokens args, scan template = .ok tokens →
      fillBySlices? template tokens args config.falsy = some (fill tokens args config.falsy) := by
  have hfresh : ∀ c : FormatterConfig, Sound { config := c } := fun c => sound_of_cache_eq_nil rfl
  have hrun := (hfresh config).run_reply calls
  refine ⟨hrun, fun other hother => ?_, fun hblank i template args hcall => ?_,
    fun template tokens args hscan => fillBySlices?_eq_some_fill hscan args config.falsy⟩
  · rw [hrun, (hfresh other).run_reply calls, hother]
  · rw [← List.getElem?_map, hrun, List.getElem?_map, hcall, hblank]
    rfl

end TextTemplate.Formatter
