import Hoco.GrammarMatch

/-!
# Runs of the two programs

What a character does to the memory is what it does to the grammar
(`ensures_step`), and from this it follows by induction that after any number of
characters the memory of `tadoc.c` is that of the grammar of the text
(`ensures_tadocBuild`). For `sequitur.cc` this holds as long as no match spends a
rule (`ensures_sequiturBuild`); at the first match that does, a rule is missing
(`ensures_sequiturBuild_spends`).
-/

namespace GrammarHeap

open Triple PairIndex LinkedRing

variable {cfg : Config} {st : Store} {G G' : Grammar} {Gs : List Grammar}

/-! ## Steps -/

/-- A character is appended. -/
theorem Models.ensures_appendChar (h : Models cfg st G) (c : UInt8) :
    Ensures outside (appendChar cfg (cfg.address 0) c) st fun _ st' =>
      Models cfg st' (G.append c) := by
  rw [appendChar, ensures_bind]
  refine (h.ensures_last start_mem).mpr ?_
  rw [ensures_bind]
  refine h.ensures_genSymbol1 c fun hsym huser => ?_
  exact Represents.ensures_append h (fun r hr => by cases hr) (by simp) hsym huser

/-- There are no more symbols than tags. -/
theorem length_start_le {exempt : Grammar.Sym → Prop} (h : G.Inv exempt) :
    G.start.length ≤ G.used := by
  have hnodup : (G.start.map Grammar.Sym.tag).Nodup := by
    have := h.nodup
    rw [Grammar.bodies_eq, List.flatten_cons, List.map_append] at this
    exact (List.nodup_append.mp this).1
  have hsub : G.start.map Grammar.Sym.tag ⊆ List.range G.used := fun n hn => by
    obtain ⟨x, hx, rfl⟩ := List.mem_map.mp hn
    exact List.mem_range.mpr (h.tag_lt (Grammar.mem_flatten_of_mem_start hx))
  simpa using (List.subperm_of_subset hnodup hsub).length_le

/-- The symbol in front of the last one of the start rule. -/
theorem Models.ensures_tail (h : Models cfg st G) {left : List Grammar.Sym} {b : Grammar.Sym}
    (hS : G.start = left.reverse ++ [b]) {α : Type} {f : ℕ → M α} {ok : Stop → Prop}
    {Q : α → Store → Prop} :
    Ensures ok (do
      let l ← last (cfg.address 0)
      let s ← loadSymbol l
      f s.p) st Q
        ↔ Ensures ok (f (before (cfg.address 1) (left.map fun x => cfg.address x.tag))) st Q := by
  have hlast : before (cfg.address 1) (G.start.map fun x => cfg.address x.tag).reverse
      = cfg.address b.tag := by
    simp [hS, before]
  rw [ensures_bind]
  refine (h.ensures_last start_mem).trans ?_
  rw [hlast, ensures_bind, ensures_loadSymbol (h.symbol_eq start_mem hS)]

/-- The call of `check_put` for a character that has been appended, with some bound on
the depth of its recursion. -/
def checkTail (cfg : Config) (depth S : ℕ) : M Bool := do
  let l ← last S
  let s ← loadSymbol l
  checkPut cfg depth s.p

section Tail

variable (hs : Grammar.Settles G Gs G') (hp : G.Pending) (h : Models cfg st G)
  (huse : cfg.program = .sequitur → G.Useful ∧ G.Spare) (hne : G.start ≠ [])

include hs hp h huse hne

/-- **The last pair is checked**, with any bound that is not below the number of
blocks. -/
theorem ensures_checkTail {depth : ℕ} (hdepth : st.used ≤ depth) :
    Ensures (admitted cfg False Gs) (checkTail cfg depth (cfg.address 0)) st fun _ st' =>
      Outcome cfg False G' Gs st' := by
  obtain ⟨l, b, hl⟩ := (List.eq_nil_or_concat' G.start).resolve_left hne
  rw [← List.reverse_reverse l] at hl
  have hlen := length_start_le hp.inv
  rw [hl, List.length_append, List.length_reverse, List.length_singleton, ← h.used_eq] at hlen
  obtain ⟨depth, rfl⟩ : ∃ d, depth = d + 1 := ⟨depth - 1, by omega⟩
  rw [checkTail, h.ensures_tail hl]
  exact (ensures_checkPut hs hp h (fun hprog => Or.inr (huse hprog)) hl (by omega)).mono
    fun _ _ hout => hout.1

/-- The bound that the model gives is such a one. -/
theorem ensures_checkLast :
    Ensures (admitted cfg False Gs) (checkLast cfg (cfg.address 0)) st fun _ st' =>
      Outcome cfg False G' Gs st' := by
  obtain ⟨l, b, hl⟩ := (List.eq_nil_or_concat' G.start).resolve_left hne
  rw [← List.reverse_reverse l] at hl
  have htail := ensures_checkTail hs hp h huse hne (Nat.le_refl st.used)
  rw [checkTail, h.ensures_tail hl] at htail
  rw [checkLast]
  refine (h.ensures_tail hl (f := fun q => do
    let _ ← checkPut cfg (← get).used q
    return ())).mpr ?_
  rw [ensures_bind, ensures_get]
  exact htail.bind fun _ _ hout => hout

end Tail

/-- **A step**: a character is appended, and the last pair is checked. -/
theorem ensures_step (hG : G.Settled) (h : Models cfg st G)
    (huse : cfg.program = .sequitur → G.Useful) (c : UInt8) :
    Ensures (admitted cfg False (G.step c).1) (do
      appendChar cfg (cfg.address 0) c
      checkLast cfg (cfg.address 0)) st fun _ st' =>
        Outcome cfg False (G.step c).2 (G.step c).1 st' := by
  refine ((h.ensures_appendChar c).weaken fun _ he => Or.inl he).bind fun _ st₁ h₁ => ?_
  exact ensures_checkLast (Grammar.settles_step hG c) (hG.append c) h₁
    (fun hprog => (huse hprog).append c) (by simp [Grammar.append])

/-! ## Runs -/

/-- The memory at the start is that of no rings. -/
theorem represents_init (cfg : Config) :
    Represents cfg (Store.init fun _ => 0) 0 [] fun _ => none where
  layout :=
    { nodup := List.nodup_nil
      rule_nodup := List.nodup_nil
      rule := fun hR => by cases hR
      rule_only := fun hX => by cases hX
      cell := fun hx => by cases hx
      cell_only := fun hs => by cases hs
      key := fun hx => by cases hx
      ring := fun hR => by cases hR
      apart := fun hR => by cases hR }
  used_eq := rfl
  numRules_eq := rfl
  closed hx := by cases hx
  table := by
    refine ⟨fun _ => none, ⟨OpenAddressing.holds_empty probing, fun hd => ?_⟩,
      ⟨fun hd => ?_, fun _ _ => rfl, fun hd => ?_⟩⟩
    all_goals cases hd

/-- The start rule is made. -/
theorem ensures_genRule_init (cfg : Config) :
    Ensures outside (genRule cfg) (Store.init fun _ => 0) fun S st => S = cfg.address 0
      ∧ Models cfg st Grammar.init := (represents_init cfg).ensures_newRule

variable {s source : List UInt8}

/-- What a step makes of the grammar of a text. -/
theorem build_step (s : List UInt8) (c : UInt8) :
    (Grammar.build (s ++ [c])).2 = ((Grammar.build s).2.step c).2
      ∧ (Grammar.build (s ++ [c])).1 = (Grammar.build s).1 ++ ((Grammar.build s).2.step c).1 := by
  rw [Grammar.build_concat]
  exact ⟨rfl, rfl⟩

section Tadoc

variable (hprog : cfg.program = .tadoc)

include hprog

theorem ensures_tadocStep (h : Models cfg st (Grammar.build s).2) (c : UInt8) :
    Ensures outside (do
      appendChar cfg (cfg.address 0) c
      checkLast cfg (cfg.address 0)) st fun _ st' =>
        Models cfg st' (Grammar.build (s ++ [c])).2 := by
  have hno : cfg.program ≠ .sequitur := by rw [hprog]; decide
  rw [(build_step s c).1]
  refine ((ensures_step (Grammar.build_settled s) h (fun hseq => absurd hseq hno) c).weaken
    fun _ he => ?_).mono fun _ _ hout => ?_
  · exact he.resolve_right fun hseq => hno hseq.1
  · exact (hout.resolve_right fun hseq => hno hseq.1).1

/-- **The loop of `tadoc_compress`.** -/
theorem ensures_tadocLoop (source : List UInt8) (h : Models cfg st (Grammar.build s).2) :
    Ensures outside (tadocLoop cfg (cfg.address 0) source) st fun _ st' =>
      Models cfg st' (Grammar.build (s ++ source)).2 := by
  induction source generalizing s st with
  | nil =>
    rw [List.append_nil]
    exact h
  | cons c source ih =>
    rw [tadocLoop, ← bind_assoc]
    refine (ensures_tadocStep hprog h c).bind fun _ st' h' => ?_
    rw [← List.singleton_append, ← List.append_assoc]
    exact ih h'

/-- **`tadoc_compress` builds the grammar of the text.** -/
theorem ensures_tadocBuild (hne : source ≠ []) :
    Ensures outside (tadocBuild cfg source) (Store.init fun _ => 0) fun S st =>
      S = cfg.address 0 ∧ Models cfg st (Grammar.build source).2 := by
  obtain ⟨c, source, rfl⟩ := List.exists_cons_of_ne_nil hne
  rw [tadocBuild]
  refine (ensures_genRule_init cfg).bind ?_
  rintro _ st₁ ⟨rfl, h₁⟩
  refine (h₁.ensures_appendChar c).bind fun _ st₂ h₂ => ?_
  have h₂' : Models cfg st₂ (Grammar.build [c]).2 := h₂
  exact (ensures_tadocLoop hprog source h₂').bind fun _ st₃ h₃ => ⟨rfl, h₃⟩

end Tadoc

section Sequitur

variable (hprog : cfg.program = .sequitur)

/-- No match on the way to the grammar of the text spends a rule. -/
def Thrifty (source : List UInt8) : Prop := ∀ H ∈ (Grammar.build source).1, ¬ H.Spends

instance (source : List UInt8) : Decidable (Thrifty source) :=
  inferInstanceAs (Decidable (∀ _ ∈ _, _))

theorem thrifty_step {c : UInt8} :
    Thrifty (s ++ [c])
      ↔ Thrifty s ∧ ∀ H ∈ ((Grammar.build s).2.step c).1, ¬ H.Spends := by
  unfold Thrifty
  rw [(build_step s c).2]
  simp only [List.mem_append, or_imp, forall_and]

theorem Thrifty.of_prefix (h : Thrifty source) (hs : s <+: source) : Thrifty s := by
  obtain ⟨t, rfl⟩ := hs
  induction t using List.reverseRecOn with
  | nil => rwa [List.append_nil] at h
  | append_singleton t c ih =>
    rw [← List.append_assoc] at h
    exact ih (thrifty_step.mp h).1

theorem Thrifty.useful (h : Thrifty s) : (Grammar.build s).2.Useful :=
  (Grammar.useful_iff_not_spends s).mpr h s List.prefix_rfl

/-- A step of `sequitur.cc` that spends no rule. -/
theorem ensures_sequiturStep {c : UInt8} (h : Models cfg st (Grammar.build s).2)
    (hthrifty : Thrifty (s ++ [c])) :
    Ensures outside (do
      appendChar cfg (cfg.address 0) c
      checkLast cfg (cfg.address 0)) st fun _ st' =>
        Models cfg st' (Grammar.build (s ++ [c])).2 := by
  obtain ⟨hs, hc⟩ := thrifty_step.mp hthrifty
  have hno : ¬ (cfg.program = .sequitur
      ∧ (False ∨ ∃ H ∈ ((Grammar.build s).2.step c).1, H.Spends)) := by
    rintro ⟨-, hf | ⟨H, hH, hsp⟩⟩
    · exact hf
    · exact hc H hH hsp
  rw [(build_step s c).1]
  refine ((ensures_step (Grammar.build_settled s) h (fun _ => hs.useful) c).weaken
    fun _ he => he.resolve_right hno).mono fun _ _ hout => ?_
  exact (hout.resolve_right fun hseq => hno ⟨hseq.1, hseq.2.1⟩).1

include hprog in
/-- A step of `sequitur.cc` that spends a rule: it has been dissolved. -/
theorem ensures_sequiturStep_spends {c : UInt8} (h : Models cfg st (Grammar.build s).2)
    (hs : Thrifty s) (hspends : ¬ Thrifty (s ++ [c])) :
    Ensures (fun _ => True) (do
      appendChar cfg (cfg.address 0) c
      checkLast cfg (cfg.address 0)) st fun _ st' =>
        Shrunk cfg st' (Grammar.build (s ++ [c])).2 := by
  rw [(build_step s c).1]
  refine ((ensures_step (Grammar.build_settled s) h (fun _ => hs.useful) c).weaken
    fun _ _ => trivial).mono fun _ _ hout => ?_
  rcases hout with ⟨-, hno⟩ | ⟨-, -, hshrunk⟩
  · exact absurd (thrifty_step.mpr ⟨hs, hno hprog⟩) hspends
  · exact hshrunk

/-- **The read loop of `sequitur.cc`**, on characters that are not the end of the
file. -/
theorem ensures_sequiturLoop (hchars : ∀ c ∈ source, c ≠ 255) (h : Models cfg st (Grammar.build s).2)
    (hthrifty : Thrifty (s ++ source)) :
    Ensures outside (sequiturLoop cfg (cfg.address 0) source) st fun _ st' =>
      Models cfg st' (Grammar.build (s ++ source)).2 := by
  induction source generalizing s st with
  | nil =>
    rw [sequiturLoop, List.append_nil]
    split
    · exact h
    · exact Or.inl rfl
  | cons c source ih =>
    have hc : ¬ (cfg.charSigned = true ∧ c = 255) := fun hc => hchars c List.mem_cons_self hc.2
    rw [← List.singleton_append, ← List.append_assoc] at hthrifty ⊢
    rw [List.singleton_append, sequiturLoop, if_neg hc, ← bind_assoc]
    refine (ensures_sequiturStep h (hthrifty.of_prefix (List.prefix_append ..))).bind
      fun _ st' h' => ?_
    exact ih (fun c hc => hchars c (List.mem_cons_of_mem _ hc)) h' hthrifty

include hprog in
/-- The loop up to the first match that spends a rule. -/
theorem ensures_sequiturLoop_spends {c : UInt8} (hchars : ∀ d ∈ source ++ [c], d ≠ 255)
    (h : Models cfg st (Grammar.build s).2) (hthrifty : Thrifty (s ++ source))
    (hspends : ¬ Thrifty (s ++ source ++ [c])) :
    Ensures (fun _ => True) (sequiturLoop cfg (cfg.address 0) (source ++ [c])) st fun _ st' =>
      Shrunk cfg st' (Grammar.build (s ++ source ++ [c])).2 := by
  induction source generalizing s st with
  | nil =>
    have hc : ¬ (cfg.charSigned = true ∧ c = 255) := fun hc => hchars c (by simp) hc.2
    rw [List.append_nil] at hthrifty hspends ⊢
    rw [List.nil_append, sequiturLoop, if_neg hc, ← bind_assoc]
    refine (ensures_sequiturStep_spends hprog h hthrifty hspends).bind fun _ st' h' => ?_
    rw [sequiturLoop]
    split
    · exact h'
    · exact trivial
  | cons d source ih =>
    have hd : ¬ (cfg.charSigned = true ∧ d = 255) := fun hd => hchars d (by simp) hd.2
    rw [← List.singleton_append, ← List.append_assoc] at hthrifty hspends ⊢
    rw [List.singleton_append, List.cons_append, sequiturLoop, if_neg hd, ← bind_assoc]
    refine ((ensures_sequiturStep h (hthrifty.of_prefix (List.prefix_append ..))).weaken
      fun _ _ => trivial).bind fun _ st' h' => ?_
    exact ih (fun c hc => hchars c (List.mem_cons_of_mem _ hc)) h' hthrifty hspends

/-- **`sequitur.cc` builds the grammar of the text**, if no match spends a rule. -/
theorem ensures_sequiturBuild (hchars : ∀ c ∈ source, c ≠ 255) (hthrifty : Thrifty source) :
    Ensures outside (sequiturBuild cfg source) (Store.init fun _ => 0) fun S st =>
      S = cfg.address 0 ∧ Models cfg st (Grammar.build source).2 := by
  rw [sequiturBuild]
  refine (ensures_genRule_init cfg).bind ?_
  rintro _ st₁ ⟨rfl, h₁⟩
  have h₁' : Models cfg st₁ (Grammar.build []).2 := h₁
  exact (ensures_sequiturLoop hchars h₁' hthrifty).bind fun _ st₂ h₂ => ⟨rfl, h₂⟩

include hprog in
/-- **At the first match that spends a rule** `sequitur.cc` has fewer rules. -/
theorem ensures_sequiturBuild_spends {c : UInt8} (hchars : ∀ d ∈ source ++ [c], d ≠ 255)
    (hthrifty : Thrifty source) (hspends : ¬ Thrifty (source ++ [c])) :
    Ensures (fun _ => True) (sequiturBuild cfg (source ++ [c])) (Store.init fun _ => 0)
      fun _ st => Shrunk cfg st (Grammar.build (source ++ [c])).2 := by
  rw [sequiturBuild]
  refine ((ensures_genRule_init cfg).weaken fun _ _ => trivial).bind ?_
  rintro _ st₁ ⟨rfl, h₁⟩
  have h₁' : Models cfg st₁ (Grammar.build []).2 := h₁
  exact (ensures_sequiturLoop_spends hprog hchars h₁' hthrifty hspends).bind fun _ st₂ h₂ => h₂

end Sequitur

end GrammarHeap
