import RepoMesh.StateMachine
import RepoMesh.WatchStep

/-!
# Watches and their histories

The columns of a watch row stand for a history nobody stores: which fingerprints
were observed when, and what was submitted since the watch was last enabled.
`Summary` says what each column knows of it. From it follow the two laws of
automatic submission: what was submitted is not submitted again without a reason
(`submissions_coalesce`), and what was observed is submitted in time
(`change_submitted`).
-/

namespace RepoMesh

/-! ## Reading a history, newest first -/

/-- The fingerprint submitted last since the watch was enabled. -/
def lastSubmitted : List WatchEvent → Option String
  | [] => none
  | .submitted fingerprint _ :: _ => some fingerprint
  | .reenabled :: _ => none
  | _ :: h => lastSubmitted h

/-- The submission that still stands: the last one, unless the index was seen to
differ from it. -/
def standing : List WatchEvent → Option String
  | [] => none
  | .submitted fingerprint _ :: _ => some fingerprint
  | .reenabled :: _ => none
  | .divergent fingerprint :: h => if standing h = some fingerprint then none else standing h
  | .observed _ _ :: h => standing h

/-- The job submitted last. -/
def lastJob : List WatchEvent → Option String
  | [] => none
  | .submitted _ jobId :: _ => some jobId
  | _ :: h => lastJob h

def lastObserved : List WatchEvent → Option String
  | [] => none
  | .observed fingerprint _ :: _ => some fingerprint
  | _ :: h => lastObserved h

/-- When the unbroken run of observations of `fingerprint` began. -/
def runStart (fingerprint : String) : List WatchEvent → Option Time
  | [] => none
  | .observed f instant :: h =>
      if f = fingerprint then some ((runStart fingerprint h).getD instant) else none
  | _ :: h => runStart fingerprint h

/-- The earliest observation since the last submission, since the watch was
enabled, and since `submitted` itself was observed. -/
def windowStart (submitted : Option String) : List WatchEvent → Option Time
  | [] => none
  | .submitted _ _ :: _ => none
  | .reenabled :: _ => none
  | .divergent _ :: h => windowStart submitted h
  | .observed f instant :: h =>
      if some f = submitted then none else some ((windowStart submitted h).getD instant)

/-- Nothing that allows another submission of `fingerprint`. -/
structure Undisturbed (fingerprint : String) (h : List WatchEvent) : Prop where
  submitted : ∀ f j, .submitted f j ∉ h
  reenabled : .reenabled ∉ h
  divergent : .divergent fingerprint ∉ h

theorem Undisturbed.tail {fingerprint : String} {e : WatchEvent} {h : List WatchEvent}
    (hu : Undisturbed fingerprint (e :: h)) : Undisturbed fingerprint h :=
  ⟨fun f j hmem => hu.submitted f j (List.mem_cons_of_mem _ hmem),
    fun hmem => hu.reenabled (List.mem_cons_of_mem _ hmem),
    fun hmem => hu.divergent (List.mem_cons_of_mem _ hmem)⟩

/-- A submission stands until something disturbs it. -/
theorem standing_of_undisturbed {fingerprint jobId : String} {mid older : List WatchEvent}
    (hu : Undisturbed fingerprint mid) :
    standing (mid ++ .submitted fingerprint jobId :: older) = some fingerprint := by
  induction mid with
  | nil => rfl
  | cons e mid ih =>
      have htail := ih hu.tail
      cases e with
      | observed f instant => exact htail
      | divergent f =>
          have hne : f ≠ fingerprint := fun heq => hu.divergent (heq ▸ List.mem_cons_self)
          rw [List.cons_append, standing, htail, if_neg]
          simpa using Ne.symm hne
      | submitted f j => exact absurd List.mem_cons_self (hu.submitted f j)
      | reenabled => exact absurd List.mem_cons_self hu.reenabled

theorem lastJob_of_no_submission {fingerprint jobId : String} {mid older : List WatchEvent}
    (hno : ∀ f j, .submitted f j ∉ mid) :
    lastJob (mid ++ .submitted fingerprint jobId :: older) = some jobId := by
  induction mid with
  | nil => rfl
  | cons e mid ih =>
      have htail := ih fun f j hmem => hno f j (List.mem_cons_of_mem _ hmem)
      cases e with
      | submitted f j => exact absurd List.mem_cons_self (hno f j)
      | observed _ _ | divergent _ | reenabled => exact htail

theorem standing_cases (h : List WatchEvent) :
    standing h = none ∨ standing h = lastSubmitted h := by
  induction h with
  | nil => exact Or.inl rfl
  | cons e h ih =>
      cases e with
      | observed _ _ => exact ih
      | submitted _ _ => exact Or.inr rfl
      | reenabled => exact Or.inl rfl
      | divergent f =>
          by_cases hf : standing h = some f
          · exact Or.inl (by rw [standing, if_pos hf])
          · rw [standing, if_neg hf]
            exact ih

/-- No run of observations of another fingerprint is unbroken. -/
theorem runStart_eq_none {fingerprint : String} {h : List WatchEvent}
    (hne : lastObserved h ≠ some fingerprint) : runStart fingerprint h = none := by
  induction h with
  | nil => rfl
  | cons e h ih =>
      cases e with
      | observed f instant =>
          have hf : f ≠ fingerprint := fun heq => hne (by rw [lastObserved, heq])
          rw [runStart, if_neg hf]
      | divergent _ | submitted _ _ | reenabled => exact ih hne

theorem runStart_isSome {fingerprint : String} {h : List WatchEvent}
    (heq : lastObserved h = some fingerprint) : (runStart fingerprint h).isSome = true := by
  induction h with
  | nil => cases heq
  | cons e h ih =>
      cases e with
      | observed f instant =>
          rw [runStart, if_pos (Option.some.inj heq)]
          rfl
      | divergent _ | submitted _ _ | reenabled => exact ih heq

section

variable {l : Ledger} {fingerprint : String} {indexed : Option String} {w : WatchRow}
  {h : List WatchEvent}

@[simp] theorem lastSubmitted_divergence :
    lastSubmitted (divergence l fingerprint indexed w ++ h) = lastSubmitted h := by
  unfold divergence
  split <;> rfl

@[simp] theorem lastJob_divergence :
    lastJob (divergence l fingerprint indexed w ++ h) = lastJob h := by
  unfold divergence
  split <;> rfl

@[simp] theorem lastObserved_divergence :
    lastObserved (divergence l fingerprint indexed w ++ h) = lastObserved h := by
  unfold divergence
  split <;> rfl

@[simp] theorem runStart_divergence (f : String) :
    runStart f (divergence l fingerprint indexed w ++ h) = runStart f h := by
  unfold divergence
  split <;> rfl

@[simp] theorem windowStart_divergence (submitted : Option String) :
    windowStart submitted (divergence l fingerprint indexed w ++ h) = windowStart submitted h := by
  unfold divergence
  split <;> rfl

/-- The first UPDATE of `observe` withdraws the submission exactly where the
history says that it no longer stands. -/
theorem reconciledRow_submitted (hsub : w.submittedFingerprint = standing h) :
    (reconciledRow l fingerprint indexed w).submittedFingerprint =
      standing (divergence l fingerprint indexed w ++ h) := by
  unfold reconciledRow divergence
  by_cases hdiv : indexed.any (· ≠ fingerprint) ∧ lastJobCompleted l w ∧ ¬ busy l w.repositoryId
  · rw [if_pos hdiv]
    by_cases hs : standing h = some fingerprint
    · rw [if_pos ⟨hdiv.1, hsub.trans hs, hdiv.2⟩]
      simp [standing, hs]
    · rw [if_neg fun hand => hs (hsub ▸ hand.2.1)]
      simp [standing, hs, hsub]
  · rw [if_neg hdiv, if_neg fun hand => hdiv ⟨hand.1, hand.2.2⟩]
    exact hsub

theorem reconciledRow_same (l : Ledger) (fingerprint : String) (indexed : Option String)
    (w : WatchRow) :
    (reconciledRow l fingerprint indexed w).observedFingerprint = w.observedFingerprint ∧
      (reconciledRow l fingerprint indexed w).stableSince = w.stableSince ∧
      (reconciledRow l fingerprint indexed w).pendingSince = w.pendingSince ∧
      (reconciledRow l fingerprint indexed w).lastJobId = w.lastJobId := by
  unfold reconciledRow
  split <;> exact ⟨rfl, rfl, rfl, rfl⟩

end

/-! ## What the columns know -/

/-- What a watch row says about the history of its repository. -/
structure Summary (jobs : Table Job.id) (now : Time) (h : List WatchEvent) (w : WatchRow) :
    Prop where
  observed : w.observedFingerprint = lastObserved h
  submitted : w.submittedFingerprint = standing h
  stable : ∀ f, lastObserved h = some f → w.stableSince = runStart f h
  pending : ∀ t, windowStart (lastSubmitted h) h = some t → ∃ p, w.pendingSince = some p ∧ p ≤ t
  pending_le : ∀ p, w.pendingSince = some p → p ≤ now
  last : ∀ j, lastJob h = some j → ∃ j', w.lastJobId = some j' ∧ Descends jobs j j'

section

variable {cfg : Settings} {now now' : Time} {l : Ledger} {jobs jobs' : Table Job.id}
  {h events : List WatchEvent} {w w' : WatchRow}

theorem Summary.new (repositoryId : String) (enabled : Bool) :
    Summary jobs now [] (.new repositoryId enabled) where
  observed := rfl
  submitted := rfl
  stable := fun _ hf => by cases hf
  pending := fun _ ht => by cases ht
  pending_le := fun _ hp => by cases hp
  last := fun _ hj => by cases hj

/-- Time passes, and jobs are only added. -/
theorem Summary.mono (hs : Summary jobs now h w) (hle : now ≤ now')
    (hjobs : ∀ a b, Parent jobs a b → Parent jobs' a b) : Summary jobs' now' h w where
  observed := hs.observed
  submitted := hs.submitted
  stable := hs.stable
  pending := hs.pending
  pending_le := fun p hp => le_trans (hs.pending_le p hp) hle
  last := fun j hj => by
    obtain ⟨j', hj', hdesc⟩ := hs.last j hj
    exact ⟨j', hj', Relation.ReflTransGen.mono hjobs _ _ hdesc⟩

theorem Summary.same (hs : Summary jobs now h w) (hsame : w.Same w')
    (hlast : ∀ j, lastJob h = some j → ∃ j', w'.lastJobId = some j' ∧ Descends jobs j j') :
    Summary jobs now h w' where
  observed := hsame.observedFingerprint.trans hs.observed
  submitted := hsame.submittedFingerprint.trans hs.submitted
  stable := fun f hf => hsame.stableSince.trans (hs.stable f hf)
  pending := fun t ht => by rw [hsame.pendingSince]; exact hs.pending t ht
  pending_le := fun p hp => hs.pending_le p (hsame.pendingSince ▸ hp)
  last := hlast

/-- Pausing leaves the history alone; enabling a paused watch starts it afresh. -/
theorem Summary.setEnabled (hs : Summary jobs now h w) (enabled : Bool) :
    Summary jobs now ((if enabled && !w.enabled then [.reenabled] else []) ++ h)
      (enabledRow now enabled w) := by
  cases hre : (enabled && !w.enabled)
  · exact ⟨hs.observed, by simpa [enabledRow, hre] using hs.submitted, hs.stable,
      by simpa [enabledRow, hre] using hs.pending, by simpa [enabledRow, hre] using hs.pending_le,
      hs.last⟩
  · refine ⟨hs.observed, by simp [enabledRow, hre, standing], hs.stable, fun t ht => ?_, ?_, hs.last⟩
    · cases ht
    · simp [enabledRow, hre]

/-- The history an observation leaves. -/
theorem Summary.recorded (hs : Summary jobs now h w) (fingerprint : String)
    (indexed : Option String) :
    Summary jobs now (divergence l fingerprint indexed w ++ [.observed fingerprint now] ++ h)
      (observationRow now l fingerprint indexed w) := by
  obtain ⟨hobs, hstable, hpending, hlast⟩ := reconciledRow_same l fingerprint indexed w
  rw [List.append_assoc, List.singleton_append]
  have hsub : (reconciledRow l fingerprint indexed w).submittedFingerprint =
      standing (divergence l fingerprint indexed w ++ .observed fingerprint now :: h) :=
    reconciledRow_submitted hs.submitted
  have hrow : (observationRow now l fingerprint indexed w).pendingSince =
      if (reconciledRow l fingerprint indexed w).submittedFingerprint = some fingerprint then none
      else some (w.pendingSince.getD now) := by
    rw [observationRow, observedRow, hpending]
  refine ⟨by rw [lastObserved_divergence]; rfl, hsub, ?_, ?_, ?_, ?_⟩
  · intro f hf
    rw [lastObserved_divergence] at hf
    obtain rfl : fingerprint = f := Option.some.inj hf
    rw [runStart_divergence, runStart, if_pos rfl]
    show (if (reconciledRow l fingerprint indexed w).observedFingerprint ≠ some fingerprint then
      some now else (reconciledRow l fingerprint indexed w).stableSince) = _
    rw [hobs, hstable, hs.observed]
    by_cases hsame : lastObserved h = some fingerprint
    · obtain ⟨t, ht⟩ := Option.isSome_iff_exists.mp (runStart_isSome hsame)
      rw [if_neg (not_not.mpr hsame), hs.stable fingerprint hsame, ht, Option.getD_some]
    · rw [if_pos hsame, runStart_eq_none hsame, Option.getD_none]
  · intro t ht
    rw [lastSubmitted_divergence, windowStart_divergence, windowStart] at ht
    split at ht
    · cases ht
    rename_i hne
    obtain rfl := Option.some.inj ht
    have hstands : (reconciledRow l fingerprint indexed w).submittedFingerprint ≠
        some fingerprint := by
      intro heq
      rcases standing_cases (divergence l fingerprint indexed w ++ .observed fingerprint now :: h)
        with hnone | hlast
      · rw [hsub, hnone] at heq
        cases heq
      · rw [hsub, hlast, lastSubmitted_divergence] at heq
        exact hne heq.symm
    refine ⟨_, by rw [hrow, if_neg hstands], ?_⟩
    show w.pendingSince.getD now ≤ (windowStart (lastSubmitted h) h).getD now
    cases hw : windowStart (lastSubmitted h) h with
    | none =>
        cases hp : w.pendingSince with
        | none => exact le_rfl
        | some p => exact hs.pending_le p hp
    | some t =>
        obtain ⟨p, hp, hle⟩ := hs.pending t hw
        rw [hp]
        exact hle
  · intro p hp
    rw [hrow] at hp
    split at hp
    · cases hp
    · obtain rfl := Option.some.inj hp
      cases hw : w.pendingSince with
      | none => exact le_rfl
      | some q => exact hs.pending_le q hw
  · intro j hj
    rw [lastJob_divergence] at hj
    show ∃ j', (reconciledRow l fingerprint indexed w).lastJobId = some j' ∧ _
    rw [hlast]
    exact hs.last j hj

theorem Summary.submit (hs : Summary jobs now h w) (fingerprint uuid : String) :
    Summary jobs now (.submitted fingerprint uuid :: h) (submittedWatch fingerprint uuid w) where
  observed := hs.observed
  submitted := rfl
  stable := hs.stable
  pending := fun _ ht => by cases ht
  pending_le := fun _ hp => by cases hp
  last := fun j hj => ⟨uuid, rfl, by obtain rfl := Option.some.inj hj; exact .refl⟩

theorem WatchMove.summary (hmove : WatchMove cfg now l jobs events w w')
    (hs : Summary jobs now h w) : Summary jobs now (events ++ h) w' := by
  cases hmove with
  | quiet hsame hlast => exact hs.same hsame (by rw [hlast]; exact hs.last)
  | @tracked _ old successor hold hparent =>
      refine hs.same ⟨rfl, rfl, rfl, rfl, rfl, rfl⟩ ?_
      intro j hj
      obtain ⟨j', hj', hdesc⟩ := hs.last j hj
      obtain rfl : old = j' := Option.some.inj (hold.symm.trans hj')
      exact ⟨successor, rfl, hdesc.tail hparent⟩
  | setEnabled enabled => exact hs.setEnabled enabled
  | recorded fingerprint indexed _ _ => exact hs.recorded fingerprint indexed
  | submitted fingerprint indexed uuid _ _ => exact (hs.recorded fingerprint indexed).submit fingerprint uuid

end

end RepoMesh
