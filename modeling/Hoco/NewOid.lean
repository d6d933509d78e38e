import Hoco.Memory

/-!
# New OIDs

The values of a toast table get their ids from the counter of the cluster
(`getNewObjectId`). What the counter hands out depends on how the server runs. Under a
postmaster it starts at the first normal OID, and wraps around to it; a server that runs by
itself, as the one of `initdb`, may be among the smaller OIDs that are reserved for it, and
comes to the normal ones from there; and during recovery there are no new OIDs at all.

A new OID may be in use. `getNewOidWithIndex` takes one after the other from the counter
until it has one that is not; only in bootstrap mode, where there are no indexes yet, does
it take the first. The search ends when there is an OID to be had among those that the
counter comes to (`exists_getNewOidWithIndex_eq_iff`).
-/

/-- `FirstGenbkiObjectId`. -/
abbrev firstGenbkiObjectId : ℕ := 10000

/-- `FirstNormalObjectId`. -/
abbrev firstNormalObjectId : ℕ := 16384

/-- **How the server runs**, as far as the assignment of OIDs goes. -/
structure OidMode where
  /-- `RecoveryInProgress()` -/
  recoveryInProgress : Bool
  /-- `IsPostmasterEnvironment` -/
  isPostmasterEnvironment : Bool
  /-- `IsBootstrapProcessingMode()` -/
  isBootstrapProcessingMode : Bool
  deriving DecidableEq

namespace OidMode

variable (mode : OidMode)

/-- The check of `GetNewObjectId` for a wraparound: where the counter goes on. -/
def checkedOid (nextOid : ℕ) : ℕ :=
  if nextOid < firstNormalObjectId then
    if mode.isPostmasterEnvironment then firstNormalObjectId
    else if nextOid < firstGenbkiObjectId then firstNormalObjectId
    else nextOid
  else nextOid

/-- **`GetNewObjectId`**: the OID, and the counter after it. -/
def getNewObjectId (nextOid : ℕ) : Run (ℕ × ℕ) :=
  if mode.recoveryInProgress then
    .error (.ereport {
      code := .internalError
      message := "cannot assign OIDs during recovery" })
  else .ok (mode.checkedOid nextOid, (mode.checkedOid nextOid + 1) % 2 ^ 32)

/-- The loop of `GetNewOidWithIndex`, for at most `fuel` candidates. -/
def newOidLoop (used : ℕ → Bool) : ℕ → ℕ → Run (Option (ℕ × ℕ))
  | 0, _ => .ok none
  | fuel + 1, nextOid => do
    let (newOid, nextOid) ← mode.getNewObjectId nextOid
    if used newOid then newOidLoop used fuel nextOid else return some (newOid, nextOid)

/-- **`GetNewOidWithIndex`**, where `used` says which OIDs a scan of the index finds. -/
def getNewOidWithIndex (used : ℕ → Bool) (fuel nextOid : ℕ) : Run (Option (ℕ × ℕ)) :=
  if mode.isBootstrapProcessingMode then some <$> mode.getNewObjectId nextOid
  else mode.newOidLoop used fuel nextOid

/-- The loop of `toast_save_datum` for a new value of a table that is rewritten: an id that
neither the new nor the old toast table has. -/
def newOidInBoth (used usedOld : ℕ → Bool) : ℕ → ℕ → Run (Option (ℕ × ℕ))
  | 0, _ => .ok none
  | fuel + 1, nextOid => do
    let found ← mode.getNewOidWithIndex used (2 ^ 32) nextOid
    found.elim (.ok none) fun found =>
      if usedOld found.1 then newOidInBoth used usedOld fuel found.2 else .ok (some found)

/-- OIDs are assigned, and not without a look at the index. -/
structure Normal : Prop where
  recovery : mode.recoveryInProgress = false
  bootstrap : mode.isBootstrapProcessingMode = false

/-- **The OIDs that the counter comes to**: the normal ones, and of the others those that are
before it. -/
def Reaches (nextOid o : ℕ) : Prop :=
  o < 2 ^ 32 ∧ (firstNormalObjectId ≤ o ∨ mode.checkedOid nextOid ≤ o)

/-- How many candidates the counter has before it comes to `o`. -/
def oidDistance (nextOid o : ℕ) : ℕ :=
  if mode.checkedOid nextOid ≤ o then o - mode.checkedOid nextOid
  else 2 ^ 32 - mode.checkedOid nextOid + (o - firstNormalObjectId)

variable {mode} {used usedOld : ℕ → Bool} {nextOid fuel o : ℕ}

/-! ## The counter -/

theorem reaches_of_normal (ho : firstNormalObjectId ≤ o ∧ o < 2 ^ 32) : mode.Reaches nextOid o :=
  ⟨ho.2, Or.inl ho.1⟩

/-- Zero is no OID. -/
theorem Reaches.ne_zero (h : mode.Reaches nextOid o) : o ≠ 0 := by
  have hpos : 0 < mode.checkedOid nextOid := by
    unfold checkedOid firstNormalObjectId firstGenbkiObjectId
    split
    · split
      · decide
      · split
        · decide
        · omega
    · omega
  rcases h.2 with hle | hle
  · simp only [firstNormalObjectId] at hle
    omega
  · omega

theorem checkedOid_lt (hn : nextOid < 2 ^ 32) : mode.checkedOid nextOid < 2 ^ 32 := by
  unfold checkedOid firstNormalObjectId
  split
  · split
    · decide
    · split
      · decide
      · exact hn
  · exact hn

/-- The counter is at a normal OID, or a server that runs by itself has not come that far. -/
theorem le_checkedOid (nextOid : ℕ) :
    firstNormalObjectId ≤ mode.checkedOid nextOid
      ∨ (mode.isPostmasterEnvironment = false ∧ firstGenbkiObjectId ≤ mode.checkedOid nextOid) := by
  unfold checkedOid
  split
  · split
    · exact Or.inl (Nat.le_refl _)
    · rename_i hmode
      split
      · exact Or.inl (Nat.le_refl _)
      · rename_i hlarge
        exact Or.inr ⟨Bool.not_eq_true _ ▸ hmode, Nat.not_lt.mp hlarge⟩
  · rename_i hnormal
    exact Or.inl (Nat.not_lt.mp hnormal)

/-- **Where the counter goes from an OID**: to the next one, or around. -/
theorem checkedOid_succ (hn : nextOid < 2 ^ 32) :
    mode.checkedOid ((mode.checkedOid nextOid + 1) % 2 ^ 32) = mode.checkedOid nextOid + 1
        ∧ mode.checkedOid nextOid + 1 < 2 ^ 32
      ∨ mode.checkedOid ((mode.checkedOid nextOid + 1) % 2 ^ 32) = firstNormalObjectId
        ∧ mode.checkedOid nextOid + 1 = 2 ^ 32 := by
  have hlt : mode.checkedOid nextOid < 2 ^ 32 := checkedOid_lt hn
  have hle := @le_checkedOid mode nextOid
  generalize mode.checkedOid nextOid = c at hlt hle
  by_cases hlast : c + 1 = 2 ^ 32
  · refine Or.inr ⟨?_, hlast⟩
    rw [hlast, Nat.mod_self, checkedOid, if_pos (by decide)]
    cases mode.isPostmasterEnvironment <;> rfl
  · have hsucc : c + 1 < 2 ^ 32 := by omega
    refine Or.inl ⟨?_, hsucc⟩
    rw [Nat.mod_eq_of_lt hsucc, checkedOid]
    simp only [firstNormalObjectId, firstGenbkiObjectId] at hle ⊢
    rcases hle with hnormal | ⟨hmode, hlarge⟩
    · exact if_neg (by omega)
    · rw [hmode, if_neg Bool.false_ne_true, if_neg (show ¬ c + 1 < 10000 by omega), ite_self]

theorem oidDistance_lt (ho : o < 2 ^ 32) : mode.oidDistance nextOid o < 2 ^ 32 := by
  unfold oidDistance
  split <;> omega

/-- A candidate that is not `o` brings the counter nearer to it. -/
theorem Reaches.succ (hn : nextOid < 2 ^ 32) (ho : mode.Reaches nextOid o)
    (hne : mode.checkedOid nextOid ≠ o) :
    mode.Reaches ((mode.checkedOid nextOid + 1) % 2 ^ 32) o
      ∧ mode.oidDistance ((mode.checkedOid nextOid + 1) % 2 ^ 32) o + 1
        = mode.oidDistance nextOid o := by
  have hlt : mode.checkedOid nextOid < 2 ^ 32 := checkedOid_lt hn
  obtain ⟨hlast, hreach⟩ := ho
  unfold Reaches oidDistance
  simp only [firstNormalObjectId] at hreach ⊢
  rcases @checkedOid_succ mode nextOid hn with ⟨hnext, hsucc⟩ | ⟨hnext, hsucc⟩
  · rw [hnext]
    split <;> split <;> omega
  · rw [hnext]
    simp only [firstNormalObjectId]
    split <;> split <;> omega

/-- What can be reached after a candidate could be reached before. -/
theorem Reaches.of_succ (hn : nextOid < 2 ^ 32)
    (ho : mode.Reaches ((mode.checkedOid nextOid + 1) % 2 ^ 32) o) : mode.Reaches nextOid o := by
  obtain ⟨hlast, hreach⟩ := ho
  refine ⟨hlast, ?_⟩
  rcases hreach with hnormal | hreach
  · exact Or.inl hnormal
  · rcases @checkedOid_succ mode nextOid hn with ⟨hnext, -⟩ | ⟨hnext, -⟩
    · exact Or.inr (by omega)
    · exact Or.inl (hnext ▸ hreach)

theorem next_lt (nextOid : ℕ) : (mode.checkedOid nextOid + 1) % 2 ^ 32 < 2 ^ 32 :=
  Nat.mod_lt _ (by decide)

/-! ## The search -/

theorem getNewObjectId_eq (hrec : mode.recoveryInProgress = false) (nextOid : ℕ) :
    mode.getNewObjectId nextOid
      = .ok (mode.checkedOid nextOid, (mode.checkedOid nextOid + 1) % 2 ^ 32) := by
  rw [getNewObjectId, hrec]
  rfl

theorem newOidLoop_succ (hrec : mode.recoveryInProgress = false) (fuel nextOid : ℕ) :
    mode.newOidLoop used (fuel + 1) nextOid
      = if used (mode.checkedOid nextOid) then
          mode.newOidLoop used fuel ((mode.checkedOid nextOid + 1) % 2 ^ 32)
        else .ok (some (mode.checkedOid nextOid, (mode.checkedOid nextOid + 1) % 2 ^ 32)) := by
  rw [newOidLoop, getNewObjectId_eq hrec]
  rfl

theorem getNewOidWithIndex_eq (h : mode.Normal) (fuel nextOid : ℕ) :
    mode.getNewOidWithIndex used fuel nextOid = mode.newOidLoop used fuel nextOid := by
  rw [getNewOidWithIndex, h.bootstrap]
  rfl

/-- **The search finds an id that is not in use**, at the latest one that is known not to
be; and until then it has come nearer to that. -/
theorem exists_newOidLoop_of_free (hrec : mode.recoveryInProgress = false)
    (hfree : used o = false) (ho : mode.Reaches nextOid o) (hn : nextOid < 2 ^ 32)
    (hfuel : mode.oidDistance nextOid o < fuel) :
    ∃ oid next, mode.newOidLoop used fuel nextOid = .ok (some (oid, next)) ∧ used oid = false
      ∧ mode.Reaches nextOid oid ∧ next < 2 ^ 32
      ∧ (oid = o ∨ mode.Reaches next o
        ∧ mode.oidDistance next o < mode.oidDistance nextOid o) := by
  induction fuel generalizing nextOid with
  | zero => exact absurd hfuel (Nat.not_lt_zero _)
  | succ fuel ih =>
    rw [newOidLoop_succ hrec]
    by_cases hsame : mode.checkedOid nextOid = o
    · rw [hsame, hfree, if_neg Bool.false_ne_true]
      exact ⟨o, _, rfl, hfree, ho, Nat.mod_lt _ (by decide), Or.inl rfl⟩
    · obtain ⟨hreach, hnear⟩ := ho.succ hn hsame
      cases huse : used (mode.checkedOid nextOid) with
      | true =>
        obtain ⟨oid, next, hfound, huse', hrange, hlt, hdist⟩ :=
          ih hreach (next_lt nextOid) (by omega)
        rw [if_pos rfl]
        refine ⟨oid, next, hfound, huse', hrange.of_succ hn, hlt, hdist.imp_right ?_⟩
        exact fun hnearer => ⟨hnearer.1, by omega⟩
      | false =>
        rw [if_neg Bool.false_ne_true]
        exact ⟨_, _, rfl, huse, ⟨checkedOid_lt hn, Or.inr (Nat.le_refl _)⟩, next_lt nextOid,
          Or.inr ⟨hreach, by omega⟩⟩

/-- What an id that was found is like. -/
theorem of_newOidLoop_eq {oid next : ℕ} (hn : nextOid < 2 ^ 32)
    (h : mode.newOidLoop used fuel nextOid = .ok (some (oid, next))) :
    used oid = false ∧ mode.Reaches nextOid oid ∧ next < 2 ^ 32 := by
  have hrec : mode.recoveryInProgress = false := by
    cases hmode : mode.recoveryInProgress with
    | false => rfl
    | true =>
      cases fuel with
      | zero => cases h
      | succ fuel =>
        rw [newOidLoop, getNewObjectId, hmode] at h
        cases h
  induction fuel generalizing nextOid with
  | zero => cases h
  | succ fuel ih =>
    rw [newOidLoop_succ hrec] at h
    split at h
    · obtain ⟨hfree, hreach, hnext⟩ := ih (next_lt nextOid) h
      exact ⟨hfree, hreach.of_succ hn, hnext⟩
    · rename_i hfree
      cases h
      exact ⟨Bool.not_eq_true _ ▸ hfree, ⟨checkedOid_lt hn, Or.inr (Nat.le_refl _)⟩,
        next_lt nextOid⟩

/-- The search of a server in normal mode. -/
theorem exists_getNewOidWithIndex_of_free (hmode : mode.Normal) (hfree : used o = false)
    (ho : firstNormalObjectId ≤ o ∧ o < 2 ^ 32) (hn : nextOid < 2 ^ 32) :
    ∃ oid next, mode.getNewOidWithIndex used (2 ^ 32) nextOid = .ok (some (oid, next))
      ∧ used oid = false ∧ oid < 2 ^ 32 ∧ next < 2 ^ 32
      ∧ (oid = o ∨ mode.oidDistance next o < mode.oidDistance nextOid o) := by
  obtain ⟨oid, next, hfound, huse, hreach, hnext, hdist⟩ := exists_newOidLoop_of_free hmode.recovery
    hfree (reaches_of_normal ho) hn (oidDistance_lt ho.2)
  rw [getNewOidWithIndex_eq hmode]
  exact ⟨oid, next, hfound, huse, hreach.1, hnext, hdist.imp_right And.right⟩

/-- What it has found. -/
theorem of_getNewOidWithIndex_eq (hmode : mode.Normal) {oid next : ℕ} (hn : nextOid < 2 ^ 32)
    (h : mode.getNewOidWithIndex used fuel nextOid = .ok (some (oid, next))) :
    used oid = false ∧ oid < 2 ^ 32 ∧ next < 2 ^ 32 ∧ oid ≠ 0 := by
  rw [getNewOidWithIndex_eq hmode] at h
  obtain ⟨hfree, hreach, hnext⟩ := of_newOidLoop_eq hn h
  exact ⟨hfree, hreach.1, hnext, hreach.ne_zero⟩

/-- The same for an id that two tables do not have. -/
theorem of_newOidInBoth_eq (hmode : mode.Normal) {oid next : ℕ} (hn : nextOid < 2 ^ 32)
    (h : mode.newOidInBoth used usedOld fuel nextOid = .ok (some (oid, next))) :
    used oid = false ∧ usedOld oid = false ∧ oid < 2 ^ 32 ∧ next < 2 ^ 32 := by
  induction fuel generalizing nextOid with
  | zero => cases h
  | succ fuel ih =>
    rw [newOidInBoth] at h
    obtain ⟨found, hfound, h⟩ := Run.bind_eq_ok.mp h
    cases found with
    | none => cases h
    | some found =>
      obtain ⟨oid', next'⟩ := found
      obtain ⟨hfree, hlt, hnext, -⟩ := of_getNewOidWithIndex_eq hmode hn hfound
      rw [Option.elim_some] at h
      cases hold : usedOld oid' with
      | false =>
        rw [hold, if_neg Bool.false_ne_true] at h
        cases h
        exact ⟨hfree, hold, hlt, hnext⟩
      | true =>
        rw [hold, if_pos rfl] at h
        exact ih hnext h

/-- There is one to be found if an ordinary one is free in both. -/
theorem exists_newOidInBoth_of_free (hmode : mode.Normal) (hfree : used o = false)
    (hfreeOld : usedOld o = false) (ho : firstNormalObjectId ≤ o ∧ o < 2 ^ 32)
    (hn : nextOid < 2 ^ 32) (hfuel : mode.oidDistance nextOid o < fuel) :
    ∃ found, mode.newOidInBoth used usedOld fuel nextOid = .ok (some found) := by
  induction fuel generalizing nextOid with
  | zero => exact absurd hfuel (Nat.not_lt_zero _)
  | succ fuel ih =>
    obtain ⟨oid, next, hfound, -, -, hnext, hdist⟩ :=
      exists_getNewOidWithIndex_of_free hmode hfree ho hn
    rw [newOidInBoth, hfound, Run.ok_bind, Option.elim_some]
    cases hold : usedOld oid with
    | false => exact ⟨_, rfl⟩
    | true =>
      rw [if_pos rfl]
      rcases hdist with rfl | hdist
      · rw [hfreeOld] at hold
        cases hold
      · exact ih hnext (Nat.lt_of_lt_of_le hdist (Nat.le_of_lt_succ hfuel))

/-- **`GetNewOidWithIndex` returns exactly when it can**, wherever the counter stands and also
when it wraps around: outside of recovery, and if one of the OIDs that the counter comes to
is not in use, after no more candidates than there are OIDs. In bootstrap mode nothing is
looked up, and it always returns. What it returns is an OID that the counter comes to, and
outside of bootstrap mode one that is not in use. -/
theorem exists_getNewOidWithIndex_eq_iff (hn : nextOid < 2 ^ 32) :
    ((∃ found, mode.getNewOidWithIndex used (2 ^ 32) nextOid = .ok (some found))
        ↔ mode.recoveryInProgress = false ∧ (mode.isBootstrapProcessingMode = true
          ∨ ∃ o, used o = false ∧ mode.Reaches nextOid o))
      ∧ ∀ found, mode.getNewOidWithIndex used (2 ^ 32) nextOid = .ok (some found) →
        mode.Reaches nextOid found.1
          ∧ (mode.isBootstrapProcessingMode = false → used found.1 = false) := by
  cases hrec : mode.recoveryInProgress with
  | true =>
    -- the first candidate is an error already, in both modes
    have herror : ∀ found, mode.getNewOidWithIndex used (2 ^ 32) nextOid ≠ .ok (some found) := by
      intro found h
      have hnew : mode.getNewObjectId nextOid = .error (.ereport {
          code := .internalError
          message := "cannot assign OIDs during recovery" }) := if_pos hrec
      rw [getNewOidWithIndex, show (2 : ℕ) ^ 32 = (2 ^ 32 - 1) + 1 from rfl, newOidLoop, hnew] at h
      cases hboot : mode.isBootstrapProcessingMode <;> rw [hboot] at h <;> cases h
    exact ⟨iff_of_false (fun ⟨found, h⟩ => herror found h) fun h => Bool.noConfusion h.1,
      fun found h => absurd h (herror found)⟩
  | false =>
    cases hboot : mode.isBootstrapProcessingMode with
    | true =>
      have hfirst : mode.getNewOidWithIndex used (2 ^ 32) nextOid
          = .ok (some (mode.checkedOid nextOid, (mode.checkedOid nextOid + 1) % 2 ^ 32)) := by
        rw [getNewOidWithIndex, hboot, if_pos rfl, getNewObjectId_eq hrec]
        rfl
      refine ⟨iff_of_true ⟨_, hfirst⟩ ⟨rfl, Or.inl rfl⟩, fun found h => ?_⟩
      rw [hfirst] at h
      cases h
      exact ⟨⟨checkedOid_lt hn, Or.inr (Nat.le_refl _)⟩, fun h => Bool.noConfusion h⟩
    | false =>
      rw [getNewOidWithIndex_eq ⟨hrec, hboot⟩]
      refine ⟨⟨?_, ?_⟩, ?_⟩
      · rintro ⟨⟨oid, next⟩, hfound⟩
        obtain ⟨hfree, hreach, -⟩ := of_newOidLoop_eq hn hfound
        exact ⟨rfl, Or.inr ⟨oid, hfree, hreach⟩⟩
      · rintro ⟨-, hboot | ⟨o, hfree, ho⟩⟩
        · cases hboot
        · obtain ⟨oid, next, hfound, -⟩ :=
            exists_newOidLoop_of_free hrec hfree ho hn (oidDistance_lt ho.1)
          exact ⟨_, hfound⟩
      · rintro ⟨oid, next⟩ hfound
        obtain ⟨hfree, hreach, -⟩ := of_newOidLoop_eq hn hfound
        exact ⟨hreach, fun _ => hfree⟩

/-- A server under a postmaster. -/
def underPostmaster : OidMode := ⟨false, true, false⟩

theorem underPostmaster_normal : underPostmaster.Normal := ⟨rfl, rfl⟩

/-- A server that runs by itself. -/
def standAlone : OidMode := ⟨false, false, false⟩

/-- The last OID is in use, and the counter stands there; and the counter of a server that
runs by itself is at an OID that is reserved for it. -/
theorem exists_getNewOidWithIndex_eq_iff_wrap :
    (∃ found, underPostmaster.getNewOidWithIndex (fun oid => oid == 2 ^ 32 - 1) (2 ^ 32)
        (2 ^ 32 - 1) = .ok (some found))
      ∧ ∃ found, standAlone.getNewOidWithIndex (fun oid => oid == 12000) (2 ^ 32) 12000
        = .ok (some found) :=
  ⟨(exists_getNewOidWithIndex_eq_iff (by decide)).1.mpr
      ⟨rfl, Or.inr ⟨16384, by decide, by decide, Or.inl (by decide)⟩⟩,
    (exists_getNewOidWithIndex_eq_iff (by decide)).1.mpr
      ⟨rfl, Or.inr ⟨12001, by decide, by decide, Or.inr (by decide)⟩⟩⟩

/-- The one wraps around to the first normal OID, the other goes on. -/
example : underPostmaster.getNewOidWithIndex (fun oid => oid == 2 ^ 32 - 1) (2 ^ 32) (2 ^ 32 - 1)
      = .ok (some (16384, 16385))
    ∧ standAlone.getNewOidWithIndex (fun oid => oid == 12000) (2 ^ 32) 12000
      = .ok (some (12001, 12002)) := by
  decide

end OidMode
