import Hoco.TadocGrammar

/-!
# `tadoc.c` and `sequitur.cc`

`tadoc.c` is a port of `sequitur.cc`, and both are instances of one program text;
they differ in what the constructor of a rule counts. In `sequitur.cc` the guard of
a rule is no reference to it, in `tadoc.c` it is, and so the test for a rule that
has one reference left succeeds in the one program and never in the other.

Two memories hold the same grammar when there is a renaming of the rules under
which the bodies agree (`SameGrammar`). As long as no match spends a rule both
memories are those of the grammar of the text (`Models`), and the renaming takes a
rule to the rule with the same number. At the first match that does, `sequitur.cc`
has fewer rules.
-/

namespace GrammarHeap

open Triple PairIndex LinkedRing

/-- A key with its rule renamed. -/
def renamed (φ : ℕ → ℕ) : Grammar.Key → Grammar.Key
  | .term c => .term c
  | .rule r => .rule (φ r)

/-- The addresses of the rules. -/
def Store.live (st : Store) : Set ℕ := {r | st.rules r ≠ none}

/-- **Two memories hold the same grammar**, up to a renaming of the rules: the start
rules correspond, and so do the bodies of all rules. -/
def SameGrammar (st : Store) (S : ℕ) (st' : Store) (S' : ℕ) : Prop :=
  ∃ φ : ℕ → ℕ, φ S = S' ∧ Set.BijOn φ st.live st'.live
    ∧ ∀ r ∈ st.live, ∃ body, Body st r body ∧ Body st' (φ r) (body.map (renamed φ))

variable {cfg ct cs : Config} {st st' : Store} {G : Grammar}

/-! ## Two memories of one grammar -/

/-- The rules in memory are those of the grammar. -/
theorem Models.mem_live (h : Models cfg st G) {r : ℕ} :
    r ∈ st.live ↔ ∃ R ∈ G.rings, cfg.address R.rule = r := by
  constructor
  · intro hr
    obtain ⟨X, hX⟩ := Option.ne_none_iff_exists'.mp hr
    obtain ⟨row, hrow, rfl⟩ := h.layout.rule_only hX
    obtain ⟨R, hR, rfl⟩ := List.mem_map.mp hrow
    exact ⟨R, hR, rfl⟩
  · rintro ⟨R, hR, rfl⟩
    exact Option.ne_none_iff_exists'.mpr ⟨_, h.rule_eq hR⟩

theorem Models.rule_injOn (h : Models cfg st G) :
    Set.InjOn (fun R : Grammar.Ring => cfg.address R.rule) {R | R ∈ G.rings} :=
  fun _ hR _ hR' haddr => rule_address_inj h.layout hR hR' haddr

/-- **Two memories of one grammar hold the same grammar.** -/
theorem Models.sameGrammar (h : Models ct st G) (h' : Models cs st' G) :
    SameGrammar st (ct.address 0) st' (cs.address 0) := by
  have : Nonempty Grammar.Ring := ⟨⟨0, 1, G.start⟩⟩
  -- The renaming goes from an address to the rule that is there, and on to its other address.
  let ruleAt : ℕ → Grammar.Ring :=
    Function.invFunOn (fun R : Grammar.Ring => ct.address R.rule) {R | R ∈ G.rings}
  let φ : ℕ → ℕ := fun a => cs.address (ruleAt a).rule
  have hφ : ∀ R ∈ G.rings, φ (ct.address R.rule) = cs.address R.rule := fun R hR => by
    show cs.address (ruleAt (ct.address R.rule)).rule = _
    rw [show ruleAt (ct.address R.rule) = R from h.rule_injOn.leftInvOn_invFunOn hR]
  refine ⟨φ, hφ _ start_mem, ⟨fun r hr => ?_, fun r hr r' hr' heq => ?_, fun r hr => ?_⟩,
    fun r hr => ?_⟩
  · obtain ⟨R, hR, rfl⟩ := h.mem_live.mp hr
    exact h'.mem_live.mpr ⟨R, hR, (hφ R hR).symm⟩
  · obtain ⟨R, hR, rfl⟩ := h.mem_live.mp hr
    obtain ⟨R', hR', rfl⟩ := h.mem_live.mp hr'
    rw [hφ R hR, hφ R' hR'] at heq
    rw [h'.rule_injOn hR hR' heq]
  · obtain ⟨R, hR, rfl⟩ := h'.mem_live.mp hr
    exact ⟨ct.address R.rule, h.mem_live.mpr ⟨R, hR, rfl⟩, hφ R hR⟩
  · obtain ⟨R, hR, rfl⟩ := h.mem_live.mp hr
    have hbody : (R.body.map fun x => ct.named x.key).map (renamed φ)
        = R.body.map fun x => cs.named x.key := by
      rw [List.map_map]
      refine List.map_congr_left fun x hx => ?_
      show renamed φ (ct.named x.key) = _
      cases hk : x.key with
      | term c => rfl
      | rule r =>
        obtain ⟨R', hR', rfl⟩ := h.closed (placed_iff.mpr ⟨R, hR, hx⟩) r hk
        rw [Config.named, renamed, hφ R' hR', Config.named]
    refine ⟨_, h.body hR, ?_⟩
    rw [hφ R hR, hbody]
    exact h'.body hR

/-- **A memory that has lost a rule** does not hold the grammar any more: the others
are too few. -/
theorem Models.not_sameGrammar (h : Models ct st G) (h' : Shrunk cs st' G) (S S' : ℕ) :
    ¬ SameGrammar st S st' S' := by
  rintro ⟨φ, -, hφ, -⟩
  obtain ⟨R, hR, hgone⟩ := h'
  have hR' : R ∈ G.rings := List.mem_cons_of_mem _ hR
  have hlive : ∀ X ∈ G.rings, ct.address X.rule ∈ st.live := fun X hX => h.mem_live.mpr ⟨X, hX, rfl⟩
  have hnodup : (G.rings.map fun X => φ (ct.address X.rule)).Nodup := by
    have hrings : G.rings.Nodup := (h.layout.rule_nodup.of_map _).of_map _
    exact hrings.map_on fun X hX Y hY heq =>
      h.rule_injOn hX hY (hφ.injOn (hlive X hX) (hlive Y hY) heq)
  have hsub : (G.rings.map fun X => φ (ct.address X.rule))
      ⊆ (G.rings.erase R).map fun X => cs.address X.rule := by
    intro a ha
    obtain ⟨X, hX, rfl⟩ := List.mem_map.mp ha
    have hmem := hφ.mapsTo (hlive X hX)
    by_contra hno
    refine hmem (hgone _ ?_)
    by_cases heq : φ (ct.address X.rule) = cs.address R.rule
    · exact Or.inl heq
    · refine Or.inr fun Y hY hYX => hno ?_
      refine List.mem_map.mpr ⟨Y, ?_, hYX⟩
      refine (List.mem_erase_of_ne ?_).mpr hY
      rintro rfl
      exact heq hYX.symm
  have hlen := (List.subperm_of_subset hnodup hsub).length_le
  have hpos := List.length_pos_of_mem hR'
  rw [List.length_map, List.length_map, List.length_erase_of_mem hR'] at hlen
  omega

/-! ## Runs -/

/-- The read loop ends only if the end of the file can be told. -/
theorem ensures_charSigned (S : ℕ) (source : List UInt8) (st : Store) :
    Ensures (fun _ => True) (sequiturLoop cfg S source) st fun _ _ => cfg.charSigned = true := by
  induction source generalizing st with
  | nil =>
    rw [sequiturLoop]
    split
    · assumption
    · trivial
  | cons c source ih =>
    rw [sequiturLoop]
    split
    case isTrue hc => exact hc.1
    case isFalse => exact .bind .trivial fun _ st₁ _ => .bind .trivial fun _ st₂ _ => ih st₂

/-- The read loop over two pieces of the file. -/
theorem sequiturLoop_append (S : ℕ) (hsigned : cfg.charSigned = true) {u : List UInt8}
    (hu : ∀ c ∈ u, c ≠ 255) (v : List UInt8) :
    sequiturLoop cfg S (u ++ v) = (do
      sequiturLoop cfg S u
      sequiturLoop cfg S v) := by
  induction u with
  | nil =>
    rw [List.nil_append, sequiturLoop, if_pos hsigned]
    rfl
  | cons c u ih =>
    have hc : ¬ (cfg.charSigned = true ∧ c = 255) := fun hc => hu c List.mem_cons_self hc.2
    rw [List.cons_append, sequiturLoop, if_neg hc, sequiturLoop, if_neg hc,
      ih fun c hc => hu c (List.mem_cons_of_mem _ hc)]
    simp only [bind_assoc]

/-- A run of `sequitur.cc` that returns has passed every part of the file. -/
theorem sequiturBuild_of_prefix {u source : List UInt8} {S : ℕ}
    (hrun : sequiturBuild cfg source (Store.init fun _ => 0) = .ok (S, st)) (hu : u <+: source)
    (hchars : ∀ c ∈ u, c ≠ 255) :
    ∃ S' st', sequiturBuild cfg u (Store.init fun _ => 0) = .ok (S', st') := by
  obtain ⟨v, rfl⟩ := hu
  obtain ⟨S₁, st₁, hrule, hrun⟩ := exists_of_bind_eq_ok hrun
  obtain ⟨_, st₂, hloop, -⟩ := exists_of_bind_eq_ok hrun
  have hsigned := (ensures_charSigned S₁ (u ++ v) st₁).of_ok hloop
  rw [sequiturLoop_append S₁ hsigned hchars] at hloop
  obtain ⟨_, st₃, hloop, -⟩ := exists_of_bind_eq_ok hloop
  refine ⟨S₁, st₃, ?_⟩
  rw [sequiturBuild, bind_eq_of_ok hrule, bind_eq_of_ok hloop]
  rfl

/-- The first match that spends a rule. -/
theorem exists_first_spends {source : List UInt8} (h : ¬ Thrifty source) :
    ∃ u c, u ++ [c] <+: source ∧ Thrifty u ∧ ¬ Thrifty (u ++ [c]) := by
  induction source using List.reverseRecOn with
  | nil => exact absurd (fun H hH => absurd hH List.not_mem_nil) h
  | append_singleton source c ih =>
    by_cases hs : Thrifty source
    · exact ⟨source, c, List.prefix_rfl, hs, h⟩
    · obtain ⟨u, d, hu, hspends⟩ := ih hs
      exact ⟨u, d, hu.trans (List.prefix_append ..), hspends⟩

section Compare

variable {source : List UInt8} {S S' : ℕ} (ht : ct.program = .tadoc)
  (hrun : tadocBuild ct source (Store.init fun _ => 0) = .ok (S, st))
  (hrun' : sequiturBuild cs source (Store.init fun _ => 0) = .ok (S', st'))
  (hchars : ∀ c ∈ source, c ≠ 255)

include ht hrun hrun' hchars

/-- The two programs agree on a text without a match that spends a rule. -/
theorem sameGrammar_of_thrifty (hne : source ≠ []) (hthrifty : Thrifty source) :
    SameGrammar st S st' S' := by
  obtain ⟨rfl, h⟩ := (ensures_tadocBuild ht hne).of_ok hrun
  obtain ⟨rfl, h'⟩ := (ensures_sequiturBuild hchars hthrifty).of_ok hrun'
  exact h.sameGrammar h'

/-- They do not at the first such match. -/
theorem not_sameGrammar_of_spends (hs : cs.program = .sequitur) {u : List UInt8} {c : UInt8}
    (hsource : source = u ++ [c]) (hthrifty : Thrifty u) (hspends : ¬ Thrifty source) :
    ¬ SameGrammar st S st' S' := by
  subst hsource
  obtain ⟨-, h⟩ := (ensures_tadocBuild ht (by simp)).of_ok hrun
  have h' := (ensures_sequiturBuild_spends hs hchars hthrifty hspends).of_ok hrun'
  exact h.not_sameGrammar h' S S'

end Compare

/-- **The two programs have built the same grammar after every character of a text if
and only if no match on the way spends a rule**, unless one of them is stopped from
outside. -/
theorem sameGrammar_iff_thrifty (address address' : ℕ → ℕ) (charSigned charSigned' : Bool)
    {source : List UInt8} (hne : source ≠ []) (hchars : ∀ c ∈ source, c.toNat < 128)
    (ht : ∀ e, outside e →
      tadocBuild ⟨.tadoc, address, charSigned⟩ source (Store.init fun _ => 0) ≠ .error e)
    (hs : ∀ e, outside e →
      sequiturBuild ⟨.sequitur, address', charSigned'⟩ source (Store.init fun _ => 0) ≠ .error e) :
    (∀ u, u <+: source → u ≠ [] → ∃ S st S' st',
      tadocBuild ⟨.tadoc, address, charSigned⟩ u (Store.init fun _ => 0) = .ok (S, st)
        ∧ sequiturBuild ⟨.sequitur, address', charSigned'⟩ u (Store.init fun _ => 0) = .ok (S', st')
        ∧ SameGrammar st S st' S') ↔ Thrifty source := by
  have hbytes : ∀ {u}, u <+: source → ∀ c ∈ u, c ≠ 255 := by
    rintro u hu c hc rfl
    exact absurd (hchars 255 (hu.subset hc)) (by decide)
  constructor
  · intro hsame
    by_contra hspends
    obtain ⟨u, c, hu, hthrifty, hno⟩ := exists_first_spends hspends
    obtain ⟨S, st, S', st', hrun, hrun', hsame⟩ := hsame _ hu (by simp)
    exact not_sameGrammar_of_spends rfl hrun hrun' (hbytes hu) rfl rfl hthrifty hno hsame
  · intro hthrifty u hu hune
    obtain ⟨S, st, hrun, -⟩ := (ensures_tadocBuild rfl hne).exists_ok ht
    obtain ⟨S', st', hrun', -⟩ :=
      (ensures_sequiturBuild (hbytes List.prefix_rfl) hthrifty).exists_ok hs
    obtain ⟨T, mt, hrun⟩ := tadocBuild_of_prefix hrun hu hune
    obtain ⟨T', mt', hrun'⟩ := sequiturBuild_of_prefix hrun' hu (hbytes hu)
    exact ⟨T, mt, T', mt', hrun, hrun',
      sameGrammar_of_thrifty rfl hrun hrun' (hbytes hu) hune (hthrifty.of_prefix hu)⟩

theorem sameGrammar_abab :
    ∃ S st S' st',
      tadocBuild (.plain .tadoc) [97, 98, 97, 98] (Store.init fun _ => 0) = .ok (S, st)
        ∧ sequiturBuild (.plain .sequitur) [97, 98, 97, 98] (Store.init fun _ => 0) = .ok (S', st')
        ∧ SameGrammar st S st' S' :=
  (sameGrammar_iff_thrifty _ _ true true (by decide) (by simp)
    (fun _ _ => ne_error_of_isOk (by decide +kernel))
    (fun _ _ => ne_error_of_isOk (by decide +kernel))).mpr (by decide) _ List.prefix_rfl (by decide)

/-- On "abcabc" `sequitur.cc` dissolves the rule for "ab", and `tadoc.c` does not. -/
theorem not_sameGrammar_abcabc :
    ∃ S st S' st', tadocBuild (.plain .tadoc) abcabc (Store.init fun _ => 0) = .ok (S, st)
      ∧ sequiturBuild (.plain .sequitur) abcabc (Store.init fun _ => 0) = .ok (S', st')
      ∧ ¬ SameGrammar st S st' S' := by
  obtain ⟨S, st, hrun⟩ := exists_tadocBuild_abcabc
  obtain ⟨S', st', hrun'⟩ : ∃ S' st',
      sequiturBuild (.plain .sequitur) abcabc (Store.init fun _ => 0) = .ok (S', st') :=
    exists_of_isOk (by decide +kernel)
  have hsource : abcabc = [97, 98, 99, 97, 98] ++ [99] := rfl
  exact ⟨S, st, S', st', hrun, hrun',
    not_sameGrammar_of_spends rfl hrun hrun' (by simp [abcabc]) rfl hsource (by decide) (by decide)⟩

end GrammarHeap
