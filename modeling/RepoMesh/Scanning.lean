import RepoMesh.Watcher

/-!
# Passes of the watchers

What a pass of `run_once` that is not stopped midway has done when it is over (`pass_attends`),
what the log says of all passes together (`log_names_watch_jobs`), and that the lock lets one
watcher in at a time (`elected_alone`).
-/

namespace RepoMesh

namespace Watchers

variable {cfg : Settings} {watchPollSeconds : Time} {i : ℕ} {s t u : Watchers} {r : String}

/-! ## One pass -/

/-- What a turn does in the loop over the repositories. -/
inductive Scans (cfg : Settings) (i : ℕ) (s t : Watchers) (enabled todo : List String)
    (count : ℕ) : Prop where
  | stays (stage : ScanStage) : t.coord = s.coord → t.log = s.log →
      t.phases i = .scanning enabled todo stage count → Scans cfg i s t enabled todo count
  | skips {r : String} {rest : List String} : todo = r :: rest → r ∉ enabled →
      t.coord = s.coord → t.log = s.log → t.phases i = .scanning enabled rest .look count →
      Scans cfg i s t enabled todo count
  | reports {r : String} {rest : List String} {a : Action} (stage : ScanStage) :
      todo = r :: rest → s.coord.Attends cfg r a → Calls cfg s t a → t.log = s.log →
      t.phases i = .scanning enabled rest stage count → Scans cfg i s t enabled todo count
  | writes (line : SubmittedLine) : t.coord = s.coord → t.log = line :: s.log →
      line.watcher = i → t.phases i = .scanning enabled todo .look (count + 1) →
      Scans cfg i s t enabled todo count
  | leaves : t.coord = s.coord → t.log = s.log → t.phases i = .idle →
      Scans cfg i s t enabled todo count

theorem turn_scans {m : WatcherMove} {enabled todo : List String} {stage : ScanStage} {count : ℕ}
    (hphase : s.phases i = .scanning enabled todo stage count)
    (h : s.turn cfg watchPollSeconds i m = some t) : Scans cfg i s t enabled todo count := by
  have hleave : Scans cfg i s (s.leave i) enabled todo count :=
    .leaves rfl rfl (setPhase_self i .idle s)
  unfold turn at h
  rw [hphase] at h
  split at h <;> try cases ‹ScanPhase.scanning _ _ _ _ = _›
  case h_5 =>
    obtain rfl := Option.some.inj h
    split
    · exact .skips rfl ‹_› rfl rfl (setPhase_self ..)
    · split
      · exact .stays _ rfl rfl (setPhase_self ..)
      · exact .stays _ rfl rfl (setPhase_self ..)
  case h_6 =>
    obtain rfl := Option.some.inj h
    split
    · exact .stays _ rfl rfl (setPhase_self ..)
    · exact hleave
  case h_7 =>
    split at h
    · rename_i reply db hans
      obtain rfl := Option.some.inj h
      exact .reports _ rfl (Or.inr ⟨_, _, _, reply, db, rfl, hans⟩) (.observe rfl) rfl
        (setPhase_self ..)
    · obtain rfl := Option.some.inj h
      exact .stays _ rfl rfl (setPhase_self ..)
    · obtain rfl := Option.some.inj h
      exact hleave
  case h_8 =>
    obtain rfl := Option.some.inj h
    exact .writes _ rfl rfl rfl (setPhase_self ..)
  case h_9 =>
    obtain rfl := Option.some.inj h
    exact .reports _ rfl (Or.inl ⟨_, rfl⟩) (.recordError _ _ rfl) rfl (setPhase_self ..)
  case h_10 =>
    obtain rfl := Option.some.inj h
    exact hleave
  case h_11 => cases h

/-- The move pauses or resumes the watch. -/
def Move.sets (r : String) : Move → Bool
  | .client (.setEnabled r' _) => r' = r
  | _ => false

theorem next_step {m : Move} (h : s.next cfg watchPollSeconds m = some t)
    (hset : m.sets r = false) : t.coord = s.coord ∨
      ∃ a, (Coord.system cfg).step s.coord a t.coord ∧ ∀ enabled, a ≠ .setEnabled r enabled := by
  rcases next_coord h with hsame | ⟨a, hstep, hcalls | ⟨rfl, -⟩⟩
  · exact Or.inl hsame
  · exact Or.inr ⟨a, hstep, hcalls.ne_setEnabled⟩
  · refine Or.inr ⟨a, hstep, ?_⟩
    rintro enabled rfl
    simp [Move.sets] at hset

theorem next_watching {m : Move} (h : s.next cfg watchPollSeconds m = some t)
    (hset : m.sets r = false) (hs : s.coord.Watching r) : t.coord.Watching r := by
  rcases next_step h hset with hsame | ⟨a, hstep, hne⟩
  · rw [hsame]
    exact hs
  · exact Coord.step_watching hstep hs hne

theorem next_attended {m : Move} {since : Time} (h : s.next cfg watchPollSeconds m = some t)
    (hset : m.sets r = false) (hnow : since ≤ s.coord.now) (hs : s.coord.Attended r since) :
    t.coord.Attended r since := by
  rcases next_step h hset with hsame | ⟨a, hstep, hne⟩
  · rw [hsame]
    exact hs
  · exact Coord.step_attended hstep hs hnow hne

theorem next_now {m : Move} (hstep : s.next cfg watchPollSeconds m = some t) :
    s.coord.now ≤ t.coord.now := by
  rcases next_coord hstep with hsame | ⟨a, hcoord, -⟩
  · rw [hsame]
  · exact Coord.step_now hcoord

/-- A turn of another process leaves the phase alone; one that is no election leads on in the
loop or ends it. -/
theorem next_scans {m : Move} {enabled todo : List String} {stage : ScanStage} {count : ℕ}
    (h : s.next cfg watchPollSeconds m = some t)
    (hphase : s.phases i = .scanning enabled todo stage count) :
    Scans cfg i s t enabled todo count ∨ t.phases i = s.phases i ∧
      ∃ lines : List SubmittedLine, t.log = lines ++ s.log ∧ ∀ line ∈ lines, line.watcher ≠ i := by
  cases m with
  | client a =>
      rw [next] at h
      split at h
      · obtain rfl := Option.some.inj h
        exact Or.inr ⟨rfl, [], rfl, by simp⟩
      · cases h
  | dropped =>
      obtain rfl := Option.some.inj h
      exact Or.inr ⟨rfl, [], rfl, by simp⟩
  | watcher j m =>
      by_cases hj : i = j
      · subst hj
        exact Or.inl (turn_scans hphase h)
      · refine Or.inr ⟨turn_phases h hj, ?_⟩
        cases turn_lines h with
        | quiet _ hlog => exact ⟨[], hlog, by simp⟩
        | calls _ _ hlog => exact ⟨[], hlog, by simp⟩
        | submits _ _ hlog => exact ⟨[], hlog, by simp⟩
        | writes _ hlog => exact ⟨[⟨j, _, _⟩], hlog, by simpa using Ne.symm hj⟩
        | loses _ hlog => exact ⟨[], hlog, by simp⟩

/-- The pass of watcher `i`, begun when the log was `log`: it is over, or counts the lines it
has written since. -/
def Counts (i : ℕ) (enabled : List String) (log : List SubmittedLine) (s : Watchers) : Prop :=
  s.phases i = .idle ∨ ∃ todo stage count new, s.phases i = .scanning enabled todo stage count ∧
    s.log = new ++ log ∧ count = (new.filter (·.watcher = i)).length

/-- The pass is over, or has the repository before it, or has reported on it. -/
def Covers (i : ℕ) (enabled : List String) (r : String) (since : Time) (s : Watchers) : Prop :=
  since ≤ s.coord.now ∧ (s.phases i = .idle ∨ ∃ todo stage count,
    s.phases i = .scanning enabled todo stage count ∧ s.coord.Watching r ∧
      (r ∈ todo ∨ s.coord.Attended r since))

theorem turn_idle {m : WatcherMove} (h : s.turn cfg watchPollSeconds i m = some t)
    (hm : m ≠ .elect) (hs : s.phases i = .idle) : t.phases i = .idle := by
  unfold turn at h
  rw [hs] at h
  split at h <;> try cases ‹ScanPhase.idle = _›
  · exact absurd rfl hm
  · obtain rfl := Option.some.inj h
    simp [leave]
  · cases h

theorem next_idle {m : Move} (h : s.next cfg watchPollSeconds m = some t)
    (hm : m ≠ .watcher i .elect) (hs : s.phases i = .idle) : t.phases i = .idle := by
  by_cases hmove : m.watcher? = some i
  · cases m with
    | client a => cases hmove
    | dropped => cases hmove
    | watcher j m =>
        obtain rfl := Option.some.inj hmove
        exact turn_idle h (fun heq => hm (heq ▸ rfl)) hs
  · rw [next_phases h hmove, hs]

theorem next_counts {m : Move} {enabled : List String} {log : List SubmittedLine}
    (h : s.next cfg watchPollSeconds m = some t) (hm : m ≠ .watcher i .elect)
    (hs : Counts i enabled log s) : Counts i enabled log t := by
  rcases hs with hidle | ⟨todo, stage, count, new, hphase, hlog, rfl⟩
  · exact Or.inl (next_idle h hm hidle)
  rcases next_scans h hphase with hscans | ⟨hsame, lines, hlines, hothers⟩
  · cases hscans with
    | stays stage' _ hlog' hphase' =>
        exact Or.inr ⟨_, _, _, new, hphase', hlog'.trans hlog, rfl⟩
    | skips _ _ _ hlog' hphase' => exact Or.inr ⟨_, _, _, new, hphase', hlog'.trans hlog, rfl⟩
    | reports stage _ _ _ hlog' hphase' =>
        exact Or.inr ⟨_, _, _, new, hphase', hlog'.trans hlog, rfl⟩
    | writes line _ hlog' hown hphase' =>
        refine Or.inr ⟨_, _, _, line :: new, hphase', by rw [hlog', hlog, List.cons_append], ?_⟩
        simp [hown]
    | leaves _ _ hidle => exact Or.inl hidle
  · refine Or.inr ⟨_, _, _, lines ++ new, hsame.trans hphase,
      by rw [hlines, hlog, List.append_assoc], ?_⟩
    have hnone : lines.filter (·.watcher = i) = [] :=
      List.filter_eq_nil_iff.mpr fun line hline => by simpa using hothers line hline
    rw [List.filter_append, hnone, List.nil_append]

theorem next_covers {m : Move} {enabled : List String} {since : Time}
    (h : s.next cfg watchPollSeconds m = some t) (hm : m ≠ .watcher i .elect)
    (hset : m.sets r = false) (hr : r ∈ enabled) (hs : Covers i enabled r since s) :
    Covers i enabled r since t := by
  obtain ⟨hnow, hs⟩ := hs
  refine ⟨le_trans hnow (next_now h), ?_⟩
  rcases hs with hidle | ⟨todo, stage, count, hphase, hwatching, hcovered⟩
  · exact Or.inl (next_idle h hm hidle)
  have hwatching' := next_watching h hset hwatching
  have hkeep : r ∈ todo ∨ s.coord.Attended r since → r ∈ todo ∨ t.coord.Attended r since :=
    fun hc => hc.imp_right (next_attended h hset hnow)
  rcases next_scans h hphase with hscans | ⟨hsame, -⟩
  · cases hscans with
    | stays stage' _ _ hphase' => exact Or.inr ⟨_, _, _, hphase', hwatching', hkeep hcovered⟩
    | @skips r' rest htodo hskip _ _ hphase' =>
        refine Or.inr ⟨_, _, _, hphase', hwatching', ?_⟩
        rw [htodo] at hkeep hcovered
        rcases hkeep hcovered with hin | hdone
        · rcases List.mem_cons.mp hin with rfl | hin
          · exact absurd hr hskip
          · exact Or.inl hin
        · exact Or.inr hdone
    | @reports r' rest a stage htodo hattends hcalls _ hphase' =>
        refine Or.inr ⟨_, _, _, hphase', hwatching', ?_⟩
        rw [htodo] at hkeep hcovered
        rcases hkeep hcovered with hin | hdone
        · rcases List.mem_cons.mp hin with rfl | hin
          · obtain ⟨w, checked, hw, hon, hchecked, hle⟩ :=
              Coord.step_attends hcalls.step hwatching hattends
            exact Or.inr ⟨w, checked, hw, hon, hchecked, le_trans hnow hle⟩
          · exact Or.inl hin
        · exact Or.inr hdone
    | writes _ _ _ _ hphase' => exact Or.inr ⟨_, _, _, hphase', hwatching', hkeep hcovered⟩
    | leaves _ _ hidle => exact Or.inl hidle
  · exact Or.inr ⟨_, _, _, hsame.trans hphase, hwatching', hkeep hcovered⟩

/-- A repository that the pass is to list has a watch, or gets one first. -/
def Ensured (s : Watchers) : Prop :=
  ∀ i repositories todo, s.phases i = .ensuring repositories todo → ∀ r ∈ repositories,
    r ∈ todo ∨ (s.coord.db.watches.get? r).isSome = true

theorem next_watch_isSome {m : Move} (h : s.next cfg watchPollSeconds m = some t)
    (hs : (s.coord.db.watches.get? r).isSome = true) :
    (t.coord.db.watches.get? r).isSome = true := by
  rcases next_coord h with hsame | ⟨a, hstep, -⟩
  · rw [hsame]
    exact hs
  · obtain ⟨w, hw⟩ := Option.isSome_iff_exists.mp hs
    have hturn := Coord.step_watch hstep r
    generalize watchEvents cfg r s.coord a = events at hturn
    rw [hw] at hturn
    cases hw' : t.coord.db.watches.get? r with
    | some w' => rfl
    | none =>
        rw [hw'] at hturn
        cases hturn

/-- How a pass comes to its list. -/
theorem turn_ensuring {m : WatcherMove} (h : s.turn cfg watchPollSeconds i m = some t)
    {repositories todo : List String} (hphase : t.phases i = .ensuring repositories todo) :
    s.phases i = .ensuring repositories todo ∨ todo = repositories ∨
      ∃ r, s.phases i = .ensuring repositories (r :: todo) ∧
        (t.coord.db.watches.get? r).isSome = true := by
  unfold turn at h
  split at h <;> try cases h
  case h_1 =>
    split at hphase
    · simp at hphase
    · exact Or.inl hphase
  case h_2 =>
    rw [setPhase_phases, if_pos rfl] at hphase
    obtain ⟨rfl, rfl⟩ := ScanPhase.ensuring.inj hphase
    exact Or.inr (Or.inl rfl)
  case h_3 =>
    rename_i r rest hold
    rw [setPhase_phases, if_pos rfl] at hphase
    obtain ⟨rfl, rfl⟩ := ScanPhase.ensuring.inj hphase
    refine Or.inr (Or.inr ⟨r, hold, ?_⟩)
    show ((s.coord.db.watches.insertNew (.new r _)).get? r).isSome = true
    rw [Table.get?_insertNew, if_pos (show (WatchRow.new r _).repositoryId = r from rfl)]
    rfl
  case h_5 =>
    rw [setPhase_phases, if_pos rfl] at hphase
    split at hphase
    · cases hphase
    · split at hphase <;> cases hphase
  case h_6 => split at hphase <;> simp [leave] at hphase
  case h_7 => split at h <;> cases h <;> simp [leave] at hphase
  all_goals simp [leave] at hphase

theorem reachable_ensured (h : (system cfg watchPollSeconds).Reachable s) : s.Ensured := by
  refine h.induct (I := Ensured) ?_ ?_
  · rintro s₀ ⟨-, -, hidle, -⟩ i repositories todo hphase
    rw [hidle] at hphase
    cases hphase
  · intro u m v _ hu hstep i repositories todo hphase r hr
    have hold : u.phases i = .ensuring repositories todo →
        r ∈ todo ∨ (v.coord.db.watches.get? r).isSome = true := fun hsame =>
      (hu i repositories todo hsame r hr).imp_right (next_watch_isSome hstep)
    by_cases hmove : m.watcher? = some i
    · cases m with
      | client a => cases hmove
      | dropped => cases hmove
      | watcher j m =>
          obtain rfl := Option.some.inj hmove
          rcases turn_ensuring hstep hphase with hsame | rfl | ⟨r', hbefore, hgot⟩
          · exact hold hsame
          · exact Or.inl hr
          · rcases hu j repositories (r' :: todo) hbefore r hr with hin | hsome
            · rcases List.mem_cons.mp hin with rfl | hin
              · exact Or.inr hgot
              · exact Or.inl hin
            · exact Or.inr (next_watch_isSome hstep hsome)
    · exact hold (next_phases hstep hmove ▸ hphase)

theorem turn_list (h : s.turn cfg watchPollSeconds i .list = some t) {repositories : List String}
    (hphase : s.phases i = .ensuring repositories []) : t.coord = s.coord ∧ t.log = s.log ∧
      t.phases i = .scanning (enabledIds watchPollSeconds s.coord) repositories .look 0 := by
  unfold turn at h
  rw [hphase] at h
  obtain rfl := Option.some.inj h
  exact ⟨rfl, rfl, by rw [setPhase_phases, if_pos rfl]⟩

theorem mem_enabledIds {c : Coord} {w : WatchRow} (hw : c.db.watches.get? r = some w)
    (hon : w.enabled = true) : r ∈ enabledIds watchPollSeconds c := by
  have hmem : w ∈ sortBy (·.repositoryId) c.db.watches.rows :=
    mem_sortBy.mpr (Table.mem_of_get? hw)
  exact List.mem_map.mpr ⟨watchView watchPollSeconds c.now c.db.toLedger w,
    List.mem_filter.mpr ⟨List.mem_map_of_mem hmem, hon⟩,
    show w.repositoryId = r from Table.key_of_get? hw⟩

theorem run_counts {enabled : List String} {log : List SubmittedLine} {ms : List Move}
    (hrun : ((system cfg watchPollSeconds).restrict (· ≠ .watcher i .elect)).Run s ms t)
    (hs : Counts i enabled log s) : Counts i enabled log t := by
  induction hrun with
  | nil s => exact hs
  | cons hstep _ ih => exact ih (next_counts hstep.1 hstep.2 hs)

theorem run_covers {enabled : List String} {since : Time} {ms : List Move}
    (hrun : ((system cfg watchPollSeconds).restrict (· ≠ .watcher i .elect)).Run s ms t)
    (hset : ∀ m ∈ ms, m.sets r = false) (hr : r ∈ enabled) (hs : Covers i enabled r since s) :
    Covers i enabled r since t := by
  induction hrun with
  | nil s => exact hs
  | cons hstep _ ih =>
      exact ih (fun m hm => hset m (List.mem_cons_of_mem _ hm))
        (next_covers hstep.1 hstep.2 (hset _ List.mem_cons_self) hr hs)

theorem run_attended {since : Time} {ms : List Move}
    (hrun : (system cfg watchPollSeconds).Run s ms t) (hset : ∀ m ∈ ms, m.sets r = false)
    (hnow : since ≤ s.coord.now) (hs : s.coord.Attended r since) : t.coord.Attended r since := by
  induction hrun with
  | nil s => exact hs
  | cons hstep _ ih =>
      exact ih (fun m hm => hset m (List.mem_cons_of_mem _ hm)) (le_trans hnow (next_now hstep))
        (next_attended hstep (hset _ List.mem_cons_self) hnow hs)

/-- A pass over the repositories, from its list of watches to its end, beside anything else:
each repository has a watch; it counts the jobs that it has submitted; and a repository that
stays watched is not shown as unattended for as long as the list allows. -/
theorem pass_attends (h : (system cfg watchPollSeconds).Reachable s) {repositories : List String}
    (hread : s.phases i = .ensuring repositories [])
    (hlist : s.next cfg watchPollSeconds (.watcher i .list) = some t) {ms : List Move}
    (hrun : ((system cfg watchPollSeconds).restrict (· ≠ .watcher i .elect)).Run t ms u)
    {enabled : List String} {count : ℕ} (hend : u.phases i = .scanning enabled [] .look count) :
    (∃ new, u.log = new ++ t.log ∧ count = (new.filter (·.watcher = i)).length) ∧
      ∀ r ∈ repositories, ∃ w, t.coord.db.watches.get? r = some w ∧
        (w.enabled = true → ∀ later v, (system cfg watchPollSeconds).Run u later v →
          (∀ m ∈ ms ++ later, m.sets r = false) →
          v.coord.now - max 30000000 (watchPollSeconds * 3) < t.coord.now →
          ∀ view ∈ listWatches watchPollSeconds v.coord.now v.coord.db, view.repositoryId = r →
            view.watcherOnline = true ∧ view.state ≠ .paused ∧
              view.state ≠ .watcherUnavailable) := by
  obtain ⟨hcoord, hlog, hphase⟩ := turn_list hlist hread
  have hreach := h.step hlist
  have hpass : (system cfg watchPollSeconds).Run t ms u := hrun.of_restrict
  constructor
  · rcases run_counts hrun (Or.inr ⟨_, _, _, [], hphase, rfl, rfl⟩) with
      hidle | ⟨_, _, _, new, hscanning, hnew, rfl⟩
    · rw [hidle] at hend
      cases hend
    · rw [hscanning] at hend
      cases hend
      exact ⟨new, hnew, rfl⟩
  · intro r hr
    obtain ⟨w, hw⟩ := Option.isSome_iff_exists.mp
      ((reachable_ensured h i repositories [] hread r hr).resolve_left (by simp))
    have hw : t.coord.db.watches.get? r = some w := hcoord ▸ hw
    refine ⟨w, hw, fun hon later v hlater hset hlate view hview hrepo => ?_⟩
    have hset₁ : ∀ m ∈ ms, m.sets r = false := fun m hm => hset m (List.mem_append_left _ hm)
    have hset₂ : ∀ m ∈ later, m.sets r = false := fun m hm => hset m (List.mem_append_right _ hm)
    have hlisted : r ∈ enabledIds watchPollSeconds s.coord := mem_enabledIds (hcoord ▸ hw) hon
    obtain ⟨hnow, hcovers⟩ := run_covers hrun hset₁ hlisted
      ⟨le_refl _, Or.inr ⟨_, _, _, hphase, ⟨w, hw, hon⟩, Or.inl hr⟩⟩
    rcases hcovers with hidle | ⟨todo, _, _, hscanning, -, hin | hdone⟩
    · rw [hidle] at hend
      cases hend
    · rw [hscanning] at hend
      cases hend
      cases hin
    · exact Coord.attended_shown (run_attended hlater hset₂ hnow hdone)
        hlate hview hrepo

/-! ## The log -/

/-- The lines that a run leaves unwritten for good. -/
def lostLines (cfg : Settings) (watchPollSeconds : Time) :
    List Move → Watchers → List (String × String)
  | [], _ => []
  | m :: ms, s =>
      s.lost m ++ ((s.next cfg watchPollSeconds m).map (lostLines cfg watchPollSeconds ms)).getD []

/-- A line that is to be written next, or is one of those lost. -/
def Unwritten (lost : List (String × String)) (s : Watchers) (r id : String) : Prop :=
  (∃ i, (s.phases i).line? = some (r, id)) ∨ (r, id) ∈ lost

/-- Every job of a watch has one line in the log, or one that is unwritten. -/
structure Named (lost : List (String × String)) (s : Watchers) : Prop where
  nodup : (s.log.map (·.jobId)).Nodup
  logged : ∀ line ∈ s.log, s.coord.WatchJob line.repositoryId line.jobId
  unwritten : ∀ r id, s.Unwritten lost r id → s.coord.WatchJob r id ∧ id ∉ s.log.map (·.jobId)
  single : ∀ i j r r' id, (s.phases i).line? = some (r, id) →
    (s.phases j).line? = some (r', id) → i = j
  apart : ∀ i r r' id, (s.phases i).line? = some (r, id) → (r', id) ∉ lost
  named : ∀ r id, s.coord.WatchJob r id →
    (∃ line ∈ s.log, line.repositoryId = r ∧ line.jobId = id) ∨ s.Unwritten lost r id

namespace Named

variable {lost : List (String × String)}

/-- A move that neither writes lines nor submits jobs. -/
theorem congr (hs : s.Named lost) (hlog : t.log = s.log)
    (hline : ∀ j, (t.phases j).line? = (s.phases j).line?)
    (hjobs : ∀ r id, t.coord.WatchJob r id ↔ s.coord.WatchJob r id) : t.Named lost where
  nodup := hlog ▸ hs.nodup
  logged := fun line hmem => (hjobs _ _).mpr (hs.logged line (hlog ▸ hmem))
  unwritten := by
    intro r id hun
    simp only [Unwritten, hline] at hun
    rw [hlog, hjobs]
    exact hs.unwritten r id hun
  single := by
    simp only [hline]
    exact hs.single
  apart := by
    simp only [hline]
    exact hs.apart
  named := by
    intro r id hjob
    simp only [Unwritten, hline, hlog]
    exact hs.named r id ((hjobs r id).mp hjob)

/-- The line of a job that was not there before is to be written next. -/
theorem submits {id : String} (hs : s.Named lost) (hlog : t.log = s.log)
    (hothers : ∀ j, j ≠ i → (t.phases j).line? = (s.phases j).line?)
    (hnone : (s.phases i).line? = none) (hline : (t.phases i).line? = some (r, id))
    (hfresh : ∀ r', ¬ s.coord.WatchJob r' id)
    (hjobs : ∀ r' id', t.coord.WatchJob r' id' ↔
      s.coord.WatchJob r' id' ∨ r' = r ∧ id' = id) : t.Named lost := by
  have hlines : ∀ j r' id', (t.phases j).line? = some (r', id') →
      (s.phases j).line? = some (r', id') ∨ j = i ∧ r' = r ∧ id' = id := by
    intro j r' id' hj
    by_cases hji : j = i
    · subst hji
      rw [hline] at hj
      obtain ⟨rfl, rfl⟩ := Prod.mk.inj (Option.some.inj hj)
      exact Or.inr ⟨rfl, rfl, rfl⟩
    · exact Or.inl (hothers j hji ▸ hj)
  have hkept : ∀ j r' id', (s.phases j).line? = some (r', id') →
      (t.phases j).line? = some (r', id') := by
    intro j r' id' hj
    by_cases hji : j = i
    · rw [hji, hnone] at hj
      cases hj
    · rw [hothers j hji, hj]
  have hnew : ∀ j r', (s.phases j).line? ≠ some (r', id) := fun j r' hj =>
    hfresh r' (hs.unwritten r' id (Or.inl ⟨j, hj⟩)).1
  refine ⟨hlog ▸ hs.nodup, ?_, ?_, ?_, ?_, ?_⟩
  · exact fun line hmem => (hjobs _ _).mpr (Or.inl (hs.logged line (hlog ▸ hmem)))
  · intro r' id' hun
    rw [hlog, hjobs]
    rcases hun with ⟨j, hj⟩ | hmem
    · rcases hlines j r' id' hj with hold | ⟨-, rfl, rfl⟩
      · obtain ⟨hjob, hno⟩ := hs.unwritten r' id' (Or.inl ⟨j, hold⟩)
        exact ⟨Or.inl hjob, hno⟩
      · refine ⟨Or.inr ⟨rfl, rfl⟩, fun hmem => ?_⟩
        obtain ⟨line, hin, rfl⟩ := List.mem_map.mp hmem
        exact hfresh _ (hs.logged line hin)
    · obtain ⟨hjob, hno⟩ := hs.unwritten r' id' (Or.inr hmem)
      exact ⟨Or.inl hjob, hno⟩
  · intro j k r₁ r₂ id' hj hk
    rcases hlines j r₁ id' hj with hj | ⟨rfl, rfl, rfl⟩
    · rcases hlines k r₂ id' hk with hk | ⟨rfl, rfl, rfl⟩
      · exact hs.single j k r₁ r₂ id' hj hk
      · exact absurd hj (hnew j r₁)
    · rcases hlines k r₂ id' hk with hk | ⟨rfl, -, -⟩
      · exact absurd hk (hnew k r₂)
      · rfl
  · intro j r₁ r₂ id' hj hmem
    rcases hlines j r₁ id' hj with hj | ⟨rfl, rfl, rfl⟩
    · exact hs.apart j r₁ r₂ id' hj hmem
    · exact hfresh r₂ (hs.unwritten r₂ id' (Or.inr hmem)).1
  · intro r' id' hjob
    rw [hlog]
    rcases (hjobs r' id').mp hjob with hold | ⟨rfl, rfl⟩
    · refine (hs.named r' id' hold).imp_right fun hun => ?_
      exact hun.imp_left fun ⟨j, hj⟩ => ⟨j, hkept j r' id' hj⟩
    · exact Or.inr (Or.inl ⟨i, hline⟩)

section

variable {id : String} (hs : s.Named lost) (hcoord : t.coord = s.coord)
  (hothers : ∀ j, j ≠ i → (t.phases j).line? = (s.phases j).line?)
  (hline : (s.phases i).line? = some (r, id)) (hnone : (t.phases i).line? = none)

include hothers hnone in
theorem line_before {j : ℕ} {p : String × String} (hj : (t.phases j).line? = some p) :
    j ≠ i ∧ (s.phases j).line? = some p := by
  by_cases hji : j = i
  · rw [hji, hnone] at hj
    cases hj
  · exact ⟨hji, hothers j hji ▸ hj⟩

include hs hcoord hothers hline hnone

/-- The line is written. -/
theorem writes (hlog : t.log = ⟨i, r, id⟩ :: s.log) : t.Named lost := by
  have hthis := hs.unwritten r id (Or.inl ⟨i, hline⟩)
  refine ⟨?_, ?_, ?_, ?_, ?_, ?_⟩
  · rw [hlog, List.map_cons, List.nodup_cons]
    exact ⟨hthis.2, hs.nodup⟩
  · rw [hlog, hcoord]
    exact List.forall_mem_cons.mpr ⟨hthis.1, hs.logged⟩
  · intro r' id' hun
    have hbefore : s.Unwritten lost r' id' ∧ id' ≠ id := by
      rcases hun with ⟨j, hj⟩ | hmem
      · obtain ⟨hji, hj⟩ := line_before hothers hnone hj
        refine ⟨Or.inl ⟨j, hj⟩, ?_⟩
        rintro rfl
        exact hji (hs.single j i r' r id' hj hline)
      · refine ⟨Or.inr hmem, ?_⟩
        rintro rfl
        exact hs.apart i r r' id' hline hmem
    obtain ⟨hjob, hno⟩ := hs.unwritten r' id' hbefore.1
    rw [hcoord, hlog, List.map_cons, List.mem_cons, not_or]
    exact ⟨hjob, hbefore.2, hno⟩
  · intro j k r₁ r₂ id' hj hk
    exact hs.single j k r₁ r₂ id' (line_before hothers hnone hj).2 (line_before hothers hnone hk).2
  · exact fun j r₁ r₂ id' hj => hs.apart j r₁ r₂ id' (line_before hothers hnone hj).2
  · intro r' id' hjob
    rw [hcoord] at hjob
    rw [hlog, List.exists_mem_cons_iff]
    rcases hs.named r' id' hjob with hold | ⟨j, hj⟩ | hmem
    · exact Or.inl (Or.inr hold)
    · by_cases hji : j = i
      · rw [hji, hline] at hj
        obtain ⟨rfl, rfl⟩ := Prod.mk.inj (Option.some.inj hj)
        exact Or.inl (Or.inl ⟨rfl, rfl⟩)
      · exact Or.inr (Or.inl ⟨j, (hothers j hji).trans hj⟩)
    · exact Or.inr (Or.inr hmem)

/-- The line is lost. -/
theorem loses (hlog : t.log = s.log) : t.Named (lost ++ [(r, id)]) := by
  have hmem_append : ∀ {p : String × String}, p ∈ lost ++ [(r, id)] → p ∈ lost ∨ p = (r, id) := by
    intro p hp
    simpa using hp
  refine ⟨hlog ▸ hs.nodup, ?_, ?_, ?_, ?_, ?_⟩
  · rw [hlog, hcoord]
    exact hs.logged
  · intro r' id' hun
    rw [hlog, hcoord]
    refine hs.unwritten r' id' ?_
    rcases hun with ⟨j, hj⟩ | hmem
    · exact Or.inl ⟨j, (line_before hothers hnone hj).2⟩
    · rcases hmem_append hmem with hmem | heq
      · exact Or.inr hmem
      · exact Or.inl ⟨i, heq ▸ hline⟩
  · intro j k r₁ r₂ id' hj hk
    exact hs.single j k r₁ r₂ id' (line_before hothers hnone hj).2 (line_before hothers hnone hk).2
  · intro j r₁ r₂ id' hj hmem
    obtain ⟨hji, hj⟩ := line_before hothers hnone hj
    rcases hmem_append hmem with hmem | heq
    · exact hs.apart j r₁ r₂ id' hj hmem
    · obtain ⟨rfl, rfl⟩ := Prod.mk.inj heq
      exact hji (hs.single j i r₁ r₂ id' hj hline)
  · intro r' id' hjob
    rw [hcoord] at hjob
    rw [hlog]
    refine (hs.named r' id' hjob).imp_right ?_
    rintro (⟨j, hj⟩ | hmem)
    · by_cases hji : j = i
      · rw [hji, hline] at hj
        exact Or.inr (List.mem_append_right _ (Option.some.inj hj ▸ List.mem_singleton_self _))
      · exact Or.inl ⟨j, (hothers j hji).trans hj⟩
    · exact Or.inr (List.mem_append_left _ hmem)

end

/-- The step lemma. -/
theorem next {m : Move} (hs : s.Named lost) (hreach : (Coord.system cfg).Reachable s.coord)
    (h : s.next cfg watchPollSeconds m = some t) : t.Named (lost ++ s.lost m) := by
  have hcall : ∀ a, (Coord.system cfg).step s.coord a t.coord →
      (∀ r uuid fingerprint indexed job db, a = .observe uuid r fingerprint indexed →
        s.coord.answer cfg a ≠ .ok (.job job, db)) →
      ∀ r id, t.coord.WatchJob r id ↔ s.coord.WatchJob r id := by
    refine fun a hstep hno r id => ⟨fun ht => ?_, Coord.step_watchJob_mono hreach hstep⟩
    rcases Coord.step_watchJob hreach hstep ht with hold | ⟨_, _, _, _, _, heq, hans, -⟩
    · exact hold
    · exact absurd hans (hno _ _ _ _ _ _ heq)
  cases m with
  | client a =>
      rw [show s.lost (.client a) = [] from rfl, List.append_nil]
      rw [Watchers.next] at h
      split at h
      · rename_i hclient
        obtain rfl := Option.some.inj h
        refine hs.congr rfl (fun _ => rfl) (hcall a ⟨hclient.1, rfl⟩ ?_)
        rintro r uuid fingerprint indexed job db rfl
        cases hclient.2
      · cases h
  | dropped =>
      rw [show s.lost .dropped = [] from rfl, List.append_nil]
      obtain rfl := Option.some.inj h
      exact hs.congr rfl (fun _ => rfl) fun _ _ => Iff.rfl
  | watcher i m =>
      have hothers : ∀ j, j ≠ i → (t.phases j).line? = (s.phases j).line? :=
        fun j hj => congrArg ScanPhase.line? (turn_phases h hj)
      have hall : (t.phases i).line? = (s.phases i).line? →
          ∀ j, (t.phases j).line? = (s.phases j).line? := by
        intro hi j
        by_cases hj : j = i
        · rw [hj, hi]
        · exact hothers j hj
      cases turn_lines h with
      | quiet hcoord hlog hline hlost =>
          rw [hlost, List.append_nil]
          exact hs.congr hlog (hall hline) fun r id => by rw [hcoord]
      | @calls a hcalls hno hlog hline hlost =>
          rw [hlost, List.append_nil]
          exact hs.congr hlog (hall hline) (hcall a hcalls.step fun _ _ _ _ job db _ => hno job db)
      | @submits uuid r fingerprint indexed job db hans hcoord hlog hnone hline hlost =>
          rw [hlost, List.append_nil]
          have hstep : (Coord.system cfg).step s.coord (.observe uuid r fingerprint (some indexed))
              t.coord := ⟨fun _ hjob => (by cases hjob), hcoord⟩
          obtain ⟨hrepo, htrigger, hnew, hget⟩ :=
            Coord.observe_job hreach hans (List.mem_singleton_self job)
          have hthere : t.coord.WatchJob r job.id :=
            ⟨job, by rw [hcoord, Coord.next_of_ok hans]; exact hget, hrepo, htrigger⟩
          refine hs.submits hlog hothers hnone hline ?_ fun r' id' => ⟨fun ht => ?_, ?_⟩
          · rintro r' ⟨row, hrow, -⟩
            rw [hnew] at hrow
            cases hrow
          · rcases Coord.step_watchJob hreach hstep ht with
              hold | ⟨_, _, _, job', db', heq, hans', hid⟩
            · exact Or.inl hold
            · obtain ⟨-, rfl, -⟩ := Action.observe.inj heq
              rw [hans] at hans'
              cases hans'
              exact Or.inr ⟨rfl, hid.symm⟩
          · rintro (hold | ⟨rfl, rfl⟩)
            · exact Coord.step_watchJob_mono hreach hstep hold
            · exact hthere
      | writes hcoord hlog hline hnone hlost =>
          rw [hlost, List.append_nil]
          exact hs.writes hcoord hothers hline hnone hlog
      | loses hcoord hlog hline hnone hlost =>
          rw [hlost]
          exact hs.loses hcoord hothers hline hnone hlog

/-- The run lemma. -/
theorem run {ms : List Move} (hs : s.Named lost)
    (hreach : (system cfg watchPollSeconds).Reachable s)
    (hrun : (system cfg watchPollSeconds).Run s ms t) :
    t.Named (lost ++ lostLines cfg watchPollSeconds ms s) := by
  induction hrun generalizing lost with
  | nil s => rwa [lostLines, List.append_nil]
  | @cons s u t m ms hstep _ ih =>
      have hnext : s.next cfg watchPollSeconds m = some u := hstep
      rw [lostLines, hnext, Option.map_some, Option.getD_some, ← List.append_assoc]
      exact ih (hs.next (reachable_coord hreach) hnext) (hreach.step hstep)

end Named

/-- In any run of any number of watchers, whatever becomes of their sessions and beside anything
else, no job has two lines `watch_job_submitted`, and the lines name just the jobs that a watch
of the repository has submitted, but for those whose watcher is about to write the line or was
stopped before it could. -/
theorem log_names_watch_jobs {ms : List Move} (hinit : (system cfg watchPollSeconds).init s)
    (hrun : (system cfg watchPollSeconds).Run s ms t) :
    (t.log.map (·.jobId)).Nodup ∧
      ∀ r id, (∃ line ∈ t.log, line.repositoryId = r ∧ line.jobId = id) ↔
        (∃ row, t.coord.db.jobs.get? id = some row ∧ row.repositoryId = r ∧
          row.trigger = .watch) ∧
        (∀ i, (t.phases i).line? ≠ some (r, id)) ∧
          (r, id) ∉ lostLines cfg watchPollSeconds ms s := by
  have hempty : s.Named [] := by
    obtain ⟨⟨hdb, -⟩, -, hidle, hlog⟩ := hinit
    have hnone : ∀ r id, ¬ s.coord.WatchJob r id := by
      rintro r id ⟨row, hrow, -⟩
      rw [hdb] at hrow
      cases hrow
    have hline : ∀ i, (s.phases i).line? = none := fun i => by rw [hidle]; rfl
    refine ⟨by rw [hlog]; exact List.nodup_nil, by simp [hlog], ?_, by simp [hline],
      by simp [hline], fun r id hjob => absurd hjob (hnone r id)⟩
    simp [Unwritten, hline]
  have hnamed := hempty.run (.init hinit) hrun
  rw [List.nil_append] at hnamed
  refine ⟨hnamed.nodup, fun r id => ⟨?_, ?_⟩⟩
  · rintro ⟨line, hmem, rfl, rfl⟩
    have hwritten : line.jobId ∈ t.log.map (·.jobId) := List.mem_map_of_mem hmem
    exact ⟨hnamed.logged line hmem,
      fun i hi => (hnamed.unwritten _ _ (Or.inl ⟨i, hi⟩)).2 hwritten,
      fun hlost => (hnamed.unwritten _ _ (Or.inr hlost)).2 hwritten⟩
  · rintro ⟨hjob, hopen, hlost⟩
    rcases hnamed.named r id hjob with hline | ⟨i, hi⟩ | hmem
    · exact hline
    · exact absurd hi (hopen i)
    · exact absurd hmem hlost

/-- The state after a list of moves, if each of them is possible; the list is read every five
seconds. -/
def exec (s : Watchers) : List Move → Option Watchers :=
  System.exec (next .default 5000000) s

def empty : Watchers := ⟨.empty 0, none, fun _ => .idle, []⟩

/-- Watcher `0` finds the repository as the fingerprint says. -/
def reports (fingerprint uuid : String) : List Move :=
  [.watcher 0 (.look (.ok (fingerprint, "indexed"))), .watcher 0 .verify,
    .watcher 0 (.observe uuid)]

def begins : List Move :=
  [.watcher 0 .elect, .watcher 0 (.read ["repo"]), .watcher 0 .ensure]

/-- Five seconds after the list was read the repository is shown as watched. -/
theorem pass_attends_one :
    ∃ s t u v, (system .default 5000000).Run empty begins s ∧
      s.next .default 5000000 (.watcher 0 .list) = some t ∧
      (system .default 5000000).Run t (reports "tree" "job-1") u ∧
      (system .default 5000000).Run u [.client (.advance 5000000)] v ∧
      (listWatches 5000000 v.coord.now v.coord.db).map (·.repositoryId) = ["repo"] ∧
      ∀ view ∈ listWatches 5000000 v.coord.now v.coord.db, view.repositoryId = "repo" →
        view.watcherOnline = true ∧ view.state ≠ .paused ∧ view.state ≠ .watcherUnavailable := by
  have hall : ((empty.exec begins).bind fun s =>
      (s.next .default 5000000 (.watcher 0 .list)).bind fun t =>
        (t.exec (reports "tree" "job-1")).bind fun u =>
          (u.exec [.client (.advance 5000000)]).map fun v =>
            ((s.phases 0, u.phases 0),
              ((t.coord.db.watches.get? "repo").map (·.enabled),
                (listWatches 5000000 v.coord.now v.coord.db).map (·.repositoryId)),
              t.coord.now, v.coord.now)) =
      some ((.ensuring ["repo"] [], .scanning ["repo"] [] .look 0), (some true, ["repo"]), 0,
        5000000) := by decide +kernel
  obtain ⟨s, hs, hall⟩ := Option.bind_eq_some_iff.mp hall
  obtain ⟨t, ht, hall⟩ := Option.bind_eq_some_iff.mp hall
  obtain ⟨u, hu, hall⟩ := Option.bind_eq_some_iff.mp hall
  obtain ⟨v, hv, hall⟩ := Option.map_eq_some_iff.mp hall
  simp only [Prod.mk.injEq] at hall
  obtain ⟨⟨hread, hend⟩, ⟨hon, hids⟩, hstart, hlate⟩ := hall
  have hrun : ∀ {s t : Watchers} {ms : List Move}, s.exec ms = some t →
      (system .default 5000000).Run s ms t :=
    fun h => System.run_exec (M := system .default 5000000) (fun hnext => hnext) h
  have hreach : (system .default 5000000).Reachable s :=
    ⟨empty, begins, ⟨⟨rfl, rfl⟩, rfl, fun _ => rfl, rfl⟩, hrun hs⟩
  refine ⟨s, t, u, v, hrun hs, ht, hrun hu, hrun hv, hids, fun view hview hrepo => ?_⟩
  obtain ⟨w, hw, hshown⟩ := (pass_attends hreach hread ht
    ((hrun hu).restrict fun m hm => by
      rintro rfl
      simp [reports] at hm) hend).2 "repo" (by simp)
  rw [hw] at hon
  exact hshown (Option.some.inj hon) _ v (hrun hv) (by simp [reports, Move.sets])
    (by rw [hstart, hlate]; decide) view hview hrepo

def beginsTwo : List Move :=
  [.watcher 0 .elect, .watcher 0 (.read ["repo", "other"]), .watcher 0 .ensure,
    .watcher 0 .ensure, .watcher 0 .list]

/-- Two trees are seen twice, three seconds apart, and submitted; the watcher is stopped before
it can log the second job. -/
def loggedAndLost : List Move :=
  beginsTwo ++ reports "tree" "job-1" ++ reports "other tree" "job-2" ++
    [.watcher 0 .leave, .client (.advance 3000000)] ++
    beginsTwo ++ reports "tree" "job-1" ++ .watcher 0 .log :: reports "other tree" "job-2" ++
    [.watcher 0 .leave]

/-- One job has its line, and the other has lost it. -/
theorem log_names_watch_jobs_lost :
    ∃ t, empty.exec loggedAndLost = some t ∧
      (∃ line ∈ t.log, line.repositoryId = "repo" ∧ line.jobId = "job-1") ∧
      (t.coord.db.jobs.get? "job-2").map (fun row => (row.repositoryId, row.trigger)) =
        some ("other", .watch) ∧
      ¬ ∃ line ∈ t.log, line.repositoryId = "other" ∧ line.jobId = "job-2" := by
  have hall : ((empty.exec loggedAndLost).map fun t =>
      (((t.coord.db.jobs.get? "job-1").map fun row => (row.repositoryId, row.trigger)),
        ((t.coord.db.jobs.get? "job-2").map fun row => (row.repositoryId, row.trigger)),
        t.phases 0)) =
      some (some ("repo", .watch), some ("other", .watch), .idle) := by decide +kernel
  have hlost : lostLines .default 5000000 loggedAndLost empty = [("other", "job-2")] := by
    decide +kernel
  obtain ⟨t, ht, hall⟩ := Option.map_eq_some_iff.mp hall
  simp only [Prod.mk.injEq] at hall
  obtain ⟨hfirst, hsecond, hidle⟩ := hall
  have hrun := System.run_exec (M := system .default 5000000) (fun hnext => hnext) ht
  have hnames := (log_names_watch_jobs ⟨⟨rfl, rfl⟩, rfl, fun _ => rfl, rfl⟩ hrun).2
  have hmoves : ∀ m ∈ loggedAndLost, m.watcher? = none ∨ m.watcher? = some 0 := by decide
  refine ⟨t, ht, ?_, hsecond, fun hline => ?_⟩
  · obtain ⟨row, hrow, hrow'⟩ := Option.map_eq_some_iff.mp hfirst
    obtain ⟨hrepo, htrigger⟩ := Prod.mk.inj hrow'
    refine (hnames "repo" "job-1").mpr ⟨⟨row, hrow, hrepo, htrigger⟩, fun i => ?_, ?_⟩
    · by_cases hi : i = 0
      · rw [hi, hidle]
        exact fun hline => (by cases hline)
      · rw [run_phases hrun fun m hm heq => ?_]
        · exact fun hline => (by cases hline)
        · rcases hmoves m hm with hnone | hzero
          · rw [hnone] at heq
            cases heq
          · rw [hzero] at heq
            exact hi (Option.some.inj heq).symm
    · rw [hlost]
      decide
  · exact ((hnames "other" "job-2").mp hline).2.2 (hlost ▸ List.mem_singleton_self _)

/-! ## The lock -/

/-- A turn keeps the lock, gets it or gives it back with the end of the pass. -/
theorem turn_elected {m : WatcherMove} (h : s.turn cfg watchPollSeconds i m = some t) :
    t.elected = s.elected ∧ (t.phases i = s.phases i ∨ s.phases i ≠ .idle) ∨
      s.elected = none ∧ t.elected = some i ∨
      t.phases i = .idle ∧ t.elected = if s.elected = some i then none else s.elected := by
  have hleave : (s.leave i).phases i = .idle ∧
      (s.leave i).elected = if s.elected = some i then none else s.elected := by simp [leave]
  unfold turn at h
  split at h <;> try cases h
  case h_1 =>
    split
    · exact Or.inr (Or.inl ⟨‹_›, rfl⟩)
    · exact Or.inl ⟨rfl, Or.inl rfl⟩
  case h_6 hphase =>
    split
    · exact Or.inl ⟨rfl, Or.inr (by rw [hphase]; simp)⟩
    · rename_i hlost
      exact Or.inr (Or.inr ⟨hleave.1, hleave.2.trans (if_neg hlost)⟩)
  case h_7 hphase =>
    split at h <;> cases h
    · exact Or.inl ⟨rfl, Or.inr (by rw [hphase]; simp)⟩
    · exact Or.inl ⟨rfl, Or.inr (by rw [hphase]; simp)⟩
    · exact Or.inr (Or.inr hleave)
  case h_10 => exact Or.inr (Or.inr hleave)
  all_goals exact Or.inl ⟨rfl, Or.inr (by simp [*])⟩

/-- As long as no session is lost, one watcher at a time is in a pass. -/
theorem elected_alone {j : ℕ}
    (h : ((system cfg watchPollSeconds).restrict (· ≠ .dropped)).Reachable s)
    (hi : s.phases i ≠ .idle) (hj : s.phases j ≠ .idle) : i = j := by
  have hholds : ∀ i, s.phases i ≠ .idle → s.elected = some i := by
    refine h.induct (I := fun s => ∀ i, s.phases i ≠ .idle → s.elected = some i) ?_ ?_
    · rintro s₀ ⟨-, -, hidle, -⟩ i hbusy
      exact absurd (hidle i) hbusy
    · rintro u m v - hu ⟨hstep, hm⟩ i hbusy
      cases m with
      | client a =>
          unfold system next at hstep
          dsimp only at hstep
          split at hstep
          · obtain rfl := Option.some.inj hstep
            exact hu i hbusy
          · cases hstep
      | dropped => exact absurd rfl hm
      | watcher k m =>
          have hothers : k ≠ i → u.phases i ≠ .idle := fun hne =>
            turn_phases hstep (Ne.symm hne) ▸ hbusy
          rcases turn_elected hstep with ⟨hsame, hphase⟩ | ⟨hnone, hgot⟩ | ⟨hidle, hback⟩
          · rw [hsame]
            by_cases hk : k = i
            · subst hk
              exact hu k (hphase.elim (fun heq => heq ▸ hbusy) id)
            · exact hu i (hothers hk)
          · by_cases hk : k = i
            · rw [hgot, hk]
            · have hheld := hu i (hothers hk)
              rw [hnone] at hheld
              cases hheld
          · by_cases hk : k = i
            · exact absurd (hk ▸ hidle) hbusy
            · have hheld := hu i (hothers hk)
              rw [hback, hheld, if_neg (by simpa using Ne.symm hk)]
  exact Option.some.inj ((hholds i hi).symm.trans (hholds j hj))

end Watchers

end RepoMesh
