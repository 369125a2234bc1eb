import RepoMesh.Authority
import RepoMesh.FailedFile
import RepoMesh.Store

/-!
# Progress reports

What a pass reports goes up by one with each turn of its loops (`turn_reports`), and the
loops run over the deleted paths and over the dictionary of the files found. The total
is taken from the list of those files, in which a path may occur twice: exactly then it
is never reached (`progress_adds_up_iff`).
-/

namespace RepoMesh

/-- The statistics that an entry reports. -/
def LogEntry.report : LogEntry → Option IndexStats
  | .progressed stats _ _ => some stats
  | _ => none

/-- The reports of a log, oldest first. -/
def reports (log : List LogEntry) : List IndexStats := (log.filterMap LogEntry.report).reverse

theorem reports_append (new log : List LogEntry) :
    reports (new ++ log) = reports log ++ reports new := by
  simp [reports]

theorem reports_cons_of_none {entry : LogEntry} (h : entry.report = none) (log : List LogEntry) :
    reports (entry :: log) = reports log := by
  simp [reports, h]

theorem reports_progressed (stats : IndexStats) (path error : Option String)
    (log : List LogEntry) :
    reports (.progressed stats path error :: log) = reports log ++ [stats] := by
  simp [reports, LogEntry.report]

/-- The log has reported `R`. -/
def Reported (R : List IndexStats) (w : World) : Prop := reports w.log = R

/-- The program reports nothing. -/
def Silent {α : Type} (x : IndexM α) : Prop := ∀ R, Keeps (Reported R) x

namespace Silent

variable {α β : Type}

theorem write {R : List IndexStats} {entry : LogEntry} (h : entry.report = none) (w : World)
    (hw : Reported R w) : Reported R (w.write entry) := by
  rw [Reported, World.write, reports_cons_of_none h]
  exact hw

theorem note {entry : LogEntry} (h : entry.report = none) : Silent (note entry) :=
  fun _ => Keeps.modify (write h)

theorem attempt : Silent attempt := fun _ => attempt_keeps

theorem bind {x : IndexM α} {f : α → IndexM β} (hx : Silent x) (hf : ∀ a, Silent (f a)) :
    Silent (x >>= f) :=
  fun R => Keeps.bind (hx R) fun a => hf a R

theorem pure {a : α} : Silent (pure a : IndexM α) := fun _ => Keeps.pure

theorem raise {e : Exc} : Silent (Prog.raise e : IndexM α) := fun _ => Keeps.raise

theorem catching {x : IndexM α} {handler : Exc → IndexM α} (hx : Silent x)
    (hh : ∀ e, Silent (handler e)) : Silent (x.catching handler) :=
  fun R => Keeps.catching (hx R) fun e => hh e R

theorem ite {c : Prop} [Decidable c] {x y : IndexM α} (hx : Silent x) (hy : Silent y) :
    Silent (if c then x else y) :=
  fun R => Keeps.ite (fun _ => hx R) fun _ => hy R

theorem check : Silent check := bind attempt fun _ => note rfl

theorem sql (m : Mutation) (key : FileKey) (f : IndexDb → IndexDb) : Silent (sql m key f) :=
  bind attempt fun _ _ => Keeps.modify fun w hw => write rfl { w with db := f w.db } hw

theorem vectorCall (m : Mutation) (key : FileKey)
    (f : Option (List Uuid) → Table Point.id → Table Point.id) : Silent (vectorCall m key f) := by
  refine bind (fun R => Keeps.ask) fun fate => ?_
  cases fate with
  | goes => exact fun R => Keeps.modify fun w hw => write rfl { w with points := f none w.points } hw
  | raises e done =>
      refine bind (fun R => Keeps.modify fun w hw => ?_) fun _ => raise
      exact write rfl { w with points := f (some done) w.points } hw

theorem replaceFileChunks (key : FileKey) (sha256 : HexDigest) (commitSha : String)
    (chunks : List CodeChunk) (vectorSynced : Bool) :
    Silent (replaceFileChunks key sha256 commitSha chunks vectorSynced) := by
  refine bind attempt fun _ => bind (fun R => Triple.get fun _ => id) fun w => ?_
  cases w.db.replaceFileChunks key.repositoryId key.path sha256 commitSha chunks
      vectorSynced with
  | error text => exact raise
  | ok db => exact fun R => Keeps.modify fun w hw => write rfl { w with db := db } hw

theorem deferring {x : IndexM α} (hx : Silent x) (message : String) (key : FileKey) (value : α) :
    Silent (x.catching (deferring message key value)) := by
  refine catching hx fun e => ?_
  cases e with
  | providerUnavailable text => exact bind (note rfl) fun _ => pure
  | crash => exact raise
  | leaseLost => exact raise
  | indexCancelled => exact raise
  | other text => exact raise

theorem withGuard {body : IndexM Unit} (h : Silent body) : Silent (withGuard body) := by
  refine bind attempt fun _ => bind (note rfl) fun _ => bind (catching h fun e => ite raise ?_)
    fun _ => bind attempt fun _ => note rfl
  exact bind attempt fun _ => bind (note rfl) fun _ => raise

theorem passRules : PassRules Silent where
  pure _ := pure
  other _ := raise
  bind := bind
  attempt := attempt
  check := check
  sql := sql
  vectorCall := vectorCall
  replaceFileChunks := replaceFileChunks
  deferring := deferring

end Silent

/-! ## One turn -/

/-- A turn counts its path once. -/
def CountedOne (stats stats' : IndexStats) : Prop :=
  stats'.done = stats.done + 1 ∧ stats'.totalFiles = stats.totalFiles

section

variable {h : Hashing} {ix : Indexer} {repositoryId : Uuid} {mode : Mode} {tree : Tree}
  {manifest : List FileRow} {deleted : List String} {R : List IndexStats}

theorem progress_reports (stats : IndexStats) (path error : Option String) :
    Triple (Reported R) (progress stats path error) (fun _ => Reported (R ++ [stats]))
      fun _ => Reported R := by
  refine Triple.bind attempt_keeps fun _ => Triple.modify fun w hw => ?_
  have hreports : reports w.log = R := hw
  rw [Reported, World.write, reports_progressed, hreports]

theorem countError_counts (stats : IndexStats) (e : Exc) :
    Triple (Reported R) (countError stats e)
      (fun r w => CountedOne stats r.1 ∧ Reported R w) fun _ => Reported R := by
  have hcount : CountedOne stats { stats with errorCount := stats.errorCount + 1 } := ⟨rfl, rfl⟩
  cases e with
  | providerUnavailable text => exact Triple.pure fun _ hw => ⟨hcount, hw⟩
  | other text => exact Triple.pure fun _ hw => ⟨hcount, hw⟩
  | crash => exact Triple.raise fun _ => id
  | leaseLost => exact Triple.raise fun _ => id
  | indexCancelled => exact Triple.raise fun _ => id

/-- What both loops do with a path: a part that counts it, or else its error is counted,
and a report. -/
theorem turn_reports {body : IndexM (IndexStats × Option String)} {stats : IndexStats}
    (path : String)
    (hbody : Triple (Reported R) body (fun r w => CountedOne stats r.1 ∧ Reported R w)
      fun _ => Reported R) :
    Triple (Reported R)
      (do
        checkpoint
        let (stats, error) ← body.catching (countError stats)
        progress stats (some path) error
        pure stats)
      (fun stats' w => CountedOne stats stats' ∧ Reported (R ++ [stats']) w)
      fun _ => Reported R := by
  refine Triple.bind attempt_keeps fun _ => ?_
  refine Triple.bind (Triple.catching hbody (countError_counts stats)) fun r => ?_
  refine Triple.of_forall fun w hw => ?_
  refine Triple.pre (P := Reported R) ?_ fun _ hw' => hw' ▸ hw.2
  exact Triple.bind (progress_reports r.1 (some path) r.2) fun _ =>
    Triple.pure fun _ hw' => ⟨hw.1, hw'⟩

theorem deleteOne_reports (stats : IndexStats) (path : String) :
    Triple (Reported R) (deleteOne repositoryId stats path)
      (fun stats' w => CountedOne stats stats' ∧ Reported (R ++ [stats']) w)
      fun _ => Reported R := by
  refine turn_reports path (Triple.bind (Silent.withGuard (Silent.passRules.deleteGuarded _) R)
    fun _ => Triple.pure fun _ hw => ⟨⟨?_, rfl⟩, hw⟩)
  simp only [IndexStats.done]
  omega

theorem indexFile_counts (stats : IndexStats) (path : RelPath) :
    Triple (Reported R) (indexFile h ix repositoryId mode tree manifest deleted stats path)
      (fun stats' w => CountedOne stats stats' ∧ Reported R w) fun _ => Reported R := by
  refine Triple.bind (Silent.passRules.readFile _ R) fun bytes => Triple.ite (fun _ => ?_) fun _ => ?_
  · refine Triple.bind (Silent.withGuard (Silent.bind Silent.check fun _ => Silent.sql _ _ _) R)
      fun _ => Triple.pure fun _ hw => ⟨⟨?_, rfl⟩, hw⟩
    simp only [IndexStats.done]
    omega
  · refine Triple.bind (Silent.passRules.readFile _ R) fun content => ?_
    refine Triple.bind (Silent.passRules.embedFile _ _ _ _ _ R) fun items => ?_
    refine Triple.bind (Silent.withGuard (Silent.passRules.indexGuarded _ _ _ _ _) R)
      fun _ => Triple.pure fun _ hw => ⟨⟨?_, rfl⟩, hw⟩
    simp only [IndexStats.done]
    omega

theorem indexOne_reports (stats : IndexStats) (path : RelPath) :
    Triple (Reported R) (indexOne h ix repositoryId mode tree manifest deleted stats path)
      (fun stats' w => CountedOne stats stats' ∧ Reported (R ++ [stats']) w)
      fun _ => Reported R :=
  turn_reports path.asPosix (Triple.bind (indexFile_counts stats path) fun _ =>
    Triple.pure fun _ => id)

/-! ## A whole pass -/

/-- Reports that count up to `n` turns of `total`. -/
structure Tally (total n : ℕ) (L : List IndexStats) : Prop where
  counts : L.map IndexStats.done = List.range n
  total : ∀ stats ∈ L, stats.totalFiles = total

/-- After `n` turns: the last report is the present state of the statistics. -/
structure TallyAt (total n : ℕ) (stats : IndexStats) (L : List IndexStats) : Prop
    extends Tally total (n + 1) L where
  latest : L.getLast? = some stats

theorem Tally.concat {total n : ℕ} {L : List IndexStats} (hL : Tally total n L) {stats : IndexStats}
    (hdone : stats.done = n) (htotal : stats.totalFiles = total) :
    TallyAt total n stats (L ++ [stats]) where
  counts := by rw [List.map_append, hL.counts, List.map_singleton, hdone, List.range_succ]
  total := by
    intro stats' hstats'
    rcases List.mem_append.mp hstats' with hmem | hmem
    · exact hL.total stats' hmem
    · exact List.mem_singleton.mp hmem ▸ htotal
  latest := by simp

theorem TallyAt.now {total n : ℕ} {stats : IndexStats} {L : List IndexStats}
    (hL : TallyAt total n stats L) : stats.done = n ∧ stats.totalFiles = total := by
  have hdone : (L.map IndexStats.done).getLast? = some stats.done := by
    rw [List.getLast?_map, hL.latest, Option.map_some]
  rw [hL.counts, List.getLast?_range, if_neg (by omega)] at hdone
  refine ⟨?_, hL.total stats (List.mem_of_getLast? hL.latest)⟩
  have := Option.some.inj hdone
  omega

theorem TallyAt.step {total n : ℕ} {stats stats' : IndexStats} {L : List IndexStats}
    (hL : TallyAt total n stats L) (hcount : CountedOne stats stats') :
    TallyAt total (n + 1) stats' (L ++ [stats']) := by
  obtain ⟨hdone, htotal⟩ := hL.now
  exact hL.toTally.concat (by rw [hcount.1, hdone]) (by rw [hcount.2, htotal])

/-- What was reported after `R` satisfies `T`. -/
def ReportedAfter (R : List IndexStats) (T : List IndexStats → Prop) (w : World) : Prop :=
  ∃ L, Reported (R ++ L) w ∧ T L

/-- At most `n` turns were reported. -/
def TallyUpTo (total n : ℕ) (L : List IndexStats) : Prop := ∃ m, m ≤ n ∧ Tally total m L

theorem Silent.keeps_reportedAfter {α : Type} {x : IndexM α} (hx : Silent x)
    (T : List IndexStats → Prop) : Keeps (ReportedAfter R T) x := by
  refine Triple.of_forall fun w hw => ?_
  obtain ⟨L, hreported, hL⟩ := hw
  exact (hx (R ++ L)).conseq (fun _ hw' => hw' ▸ hreported) (fun _ _ hw' => ⟨L, hw', hL⟩)
    fun _ _ hw' => ⟨L, hw', hL⟩

/-- A loop whose turns report once each. -/
theorem loop_reports {β : Type} (items : List β) (bound : ℕ)
    {f : IndexStats → β → IndexM IndexStats}
    (hf : ∀ stats b R, Triple (Reported R) (f stats b)
      (fun stats' w => CountedOne stats stats' ∧ Reported (R ++ [stats']) w) fun _ => Reported R)
    {total n : ℕ} (hbound : n + items.length < bound) (stats : IndexStats) :
    Triple (ReportedAfter R (TallyAt total n stats)) (items.foldlM f stats)
      (fun stats' => ReportedAfter R (TallyAt total (n + items.length) stats'))
      fun _ => ReportedAfter R (TallyUpTo total bound) := by
  refine Triple.foldlM items
    (I := fun done stats' => ReportedAfter R (TallyAt total (n + done.length) stats'))
    (fun done b rest stats' hitems => ?_) stats
  have hlen : done.length < items.length := by
    rw [hitems, List.length_append, List.length_cons]
    omega
  refine Triple.of_forall fun w hw => ?_
  obtain ⟨L, hreported, hL⟩ := hw
  refine Triple.pre (P := Reported (R ++ L)) ?_ fun _ hw' => hw' ▸ hreported
  refine (hf stats' b (R ++ L)).conseq (fun _ => id) (fun stats'' w' hw' => ?_) fun _ w' hw' => ?_
  · obtain ⟨hcount, hreported'⟩ := hw'
    rw [List.append_assoc] at hreported'
    refine ⟨L ++ [stats''], hreported', ?_⟩
    rw [List.length_append, List.length_singleton, ← Nat.add_assoc]
    exact hL.step hcount
  · exact ⟨L, hw', n + done.length + 1, by omega, hL.toTally⟩

/-- The turns of a pass. -/
theorem index_reports (w : World) :
    Triple (fun w' => w' = w) (index h ix repositoryId mode tree)
      (fun stats => ReportedAfter (reports w.log) fun L => ∃ files, tree.found = .ok files ∧
        (w.db.repositories.get? repositoryId).isSome = true ∧
        let deleted := deletedPaths (w.db.fileManifest repositoryId)
          (w.db.pendingDeletions repositoryId) files
        TallyAt (files.length + deleted.length) (deleted.length + (relativeMap files).length)
          stats L)
      fun _ => ReportedAfter (reports w.log) fun L => ∃ total, TallyUpTo total (total + 1) L := by
  let R := reports w.log
  have hnothing : ∀ w', Reported R w' →
      ReportedAfter R (fun L => ∃ total, TallyUpTo total (total + 1) L) w' := fun w' hw' =>
    ⟨[], by rw [List.append_nil]; exact hw', 0, 0, by omega, ⟨rfl, by simp⟩⟩
  refine Triple.bind (R := fun _ w' => w' = w) (attempt_keeps.conseq (fun _ => id) (fun _ _ => id)
    fun _ w' hw' => hnothing w' (hw' ▸ rfl)) fun _ => ?_
  refine Triple.bind (Triple.get (Q := fun s w' => s = w ∧ w' = w) fun w' hw' => ⟨hw', hw'⟩)
    fun s => ?_
  refine Triple.of_forall fun w' hs => ?_
  obtain ⟨rfl, rfl⟩ := hs
  refine Triple.ite (fun _ => Triple.raise fun s hs => hnothing s (hs ▸ rfl)) fun hsome => ?_
  refine Triple.bind (R := fun _ s => s = w') (attempt_keeps.conseq (fun _ => id) (fun _ _ => id)
    fun _ w' hw' => hnothing w' (hw' ▸ rfl)) fun _ => ?_
  cases hfound : tree.found with
  | error e => exact Triple.raise fun w' hw' => hnothing w' (hw' ▸ rfl)
  | ok files =>
      let deleted := deletedPaths (w'.db.fileManifest repositoryId)
        (w'.db.pendingDeletions repositoryId) files
      let total := files.length + deleted.length
      have hlen : (relativeMap files).length ≤ files.length := length_eraseDups_le files
      let turns := deleted.length + (relativeMap files).length
      have hraised : ∀ s, ReportedAfter R (TallyUpTo total (turns + 1)) s →
          ReportedAfter R (fun L => ∃ total, TallyUpTo total (total + 1) L) s := by
        intro s hs
        obtain ⟨L, hreported, m, hm, htally⟩ := hs
        exact ⟨L, hreported, total, m, by omega, htally⟩
      have hfirst : Triple (fun s => s = w')
          (progress { totalFiles := total } none none)
          (fun _ => ReportedAfter R (TallyAt total 0 { totalFiles := total }))
          fun _ => ReportedAfter R fun L => ∃ total, TallyUpTo total (total + 1) L := by
        refine (progress_reports (R := R) _ none none).conseq (fun s hs => hs ▸ rfl)
          (fun _ s hs => ?_) fun _ s hs => hnothing s hs
        have hnone : Tally total 0 [] := ⟨rfl, by simp⟩
        exact ⟨[_], hs, hnone.concat rfl rfl⟩
      refine Triple.bind hfirst fun _ => ?_
      refine Triple.bind ((loop_reports deleted (turns + 1)
        (fun stats path R => deleteOne_reports stats path) (by omega) _).exc
        fun _ => hraised) fun stats => ?_
      refine Triple.bind ((loop_reports (relativeMap files) (turns + 1)
        (fun stats path R => indexOne_reports stats path) (by omega) stats).exc
        fun _ => hraised) fun stats => ?_
      rw [Nat.zero_add]
      have hmark : Silent (withGuard (markIndexed repositoryId tree.commitSha)) := by
        refine Silent.withGuard (Silent.bind Silent.check fun _ => ?_)
        exact Silent.bind Silent.attempt fun _ R => Keeps.modify fun s hs =>
          Silent.write rfl { s with db := _ } hs
      refine Triple.bind ((hmark.keeps_reportedAfter _).exc fun _ s hs => hraised s ?_) fun _ =>
        Triple.pure fun s hs => ?_
      · obtain ⟨L, hreported, hL⟩ := hs
        exact ⟨L, hreported, turns + 1, le_refl _, hL.toTally⟩
      · obtain ⟨L, hreported, hL⟩ := hs
        exact ⟨L, hreported, files, rfl, Option.isSome_iff_ne_none.mpr (by simpa using hsome), hL⟩

end

/-! ## A pass in which every call goes through -/

/-- With all calls going through, the program returns or raises what is counted. -/
def Ends {α : Type} (x : IndexM α) : Prop :=
  ∀ w, ∃ r w', x w [] = ((r, w'), []) ∧ ∀ e, r = .error e → e.counted = true

namespace Ends

variable {α β : Type}

theorem pure (a : α) : Ends (pure a : IndexM α) :=
  fun w => ⟨.ok a, w, rfl, fun _ h => by cases h⟩

theorem raise {e : Exc} (he : e.counted = true) : Ends (Prog.raise e : IndexM α) :=
  fun w => ⟨.error e, w, rfl, fun _ h => by cases h; exact he⟩

theorem attempt : Ends attempt := fun w => ⟨.ok (), w, rfl, fun _ h => by cases h⟩

theorem modify (f : World → World) : Ends (Prog.modify f : IndexM Unit) :=
  fun w => ⟨.ok (), f w, rfl, fun _ h => by cases h⟩

theorem bind {x : IndexM α} {f : α → IndexM β} (hx : Ends x) (hf : ∀ a, Ends (f a)) :
    Ends (x >>= f) := by
  intro w
  obtain ⟨r, w', hrun, hcounted⟩ := hx w
  cases r with
  | error e => exact ⟨.error e, w', by rw [Prog.bind_apply, hrun], fun e' h => by
      cases h; exact hcounted e rfl⟩
  | ok a =>
      obtain ⟨r', w'', hrun', hcounted'⟩ := hf a w'
      exact ⟨r', w'', by rw [Prog.bind_apply, hrun]; exact hrun', hcounted'⟩

theorem ite {c : Prop} [Decidable c] {x y : IndexM α} (hx : Ends x) (hy : Ends y) :
    Ends (if c then x else y) := by
  split
  · exact hx
  · exact hy

theorem catching {x : IndexM α} {handler : Exc → IndexM α} (hx : Ends x)
    (hh : ∀ e, e.counted = true → Ends (handler e)) : Ends (x.catching handler) := by
  intro w
  obtain ⟨r, w', hrun, hcounted⟩ := hx w
  cases r with
  | error e =>
      rw [Prog.catching_of_error handler hrun]
      exact hh e (hcounted e rfl) w'
  | ok a => exact ⟨.ok a, w', by rw [Prog.catching, hrun], fun _ h => by cases h⟩

theorem vectorCall (m : Mutation) (key : FileKey)
    (f : Option (List Uuid) → Table Point.id → Table Point.id) : Ends (vectorCall m key f) :=
  fun _ => ⟨.ok (), _, rfl, fun _ h => by cases h⟩

theorem replaceFileChunks (key : FileKey) (sha256 : HexDigest) (commitSha : String)
    (chunks : List CodeChunk) (vectorSynced : Bool) :
    Ends (replaceFileChunks key sha256 commitSha chunks vectorSynced) := by
  refine bind attempt fun _ => bind (fun w => ⟨.ok w, w, rfl, fun _ h => by cases h⟩) fun w => ?_
  cases w.db.replaceFileChunks key.repositoryId key.path sha256 commitSha chunks
      vectorSynced with
  | error text => exact raise rfl
  | ok db => exact modify _

theorem deferring {x : IndexM α} (hx : Ends x) (message : String) (key : FileKey) (value : α) :
    Ends (x.catching (deferring message key value)) := by
  refine catching hx fun e he => ?_
  cases e with
  | providerUnavailable text => exact bind (modify _) fun _ => pure value
  | other text => exact raise rfl
  | crash => cases he
  | leaseLost => cases he
  | indexCancelled => cases he

theorem passRules : PassRules Ends where
  pure := pure
  other _ := raise rfl
  bind := bind
  attempt := attempt
  check := bind attempt fun _ => modify _
  sql _ _ _ := bind attempt fun _ => modify _
  vectorCall := vectorCall
  replaceFileChunks := replaceFileChunks
  deferring := deferring

theorem withGuard {body : IndexM Unit} (h : Ends body) : Ends (withGuard body) := by
  refine bind attempt fun _ => bind (modify _) fun _ => bind (catching h fun e he => ?_) fun _ =>
    bind attempt fun _ => modify _
  exact ite (raise he) (bind attempt fun _ => bind (modify _) fun _ => raise he)

/-- Whatever the part that counts a path does, the turn returns. -/
theorem turn {body : IndexM (IndexStats × Option String)} (h : Ends body) (stats : IndexStats)
    (path : String) (w : World) :
    ∃ stats' w', (do
        checkpoint
        let (stats, error) ← body.catching (countError stats)
        progress stats (some path) error
        Pure.pure stats : IndexM IndexStats) w [] = ((.ok stats', w'), []) := by
  have hcaught : ∃ out w', body.catching (countError stats) w [] = ((.ok out, w'), []) := by
    obtain ⟨r, w', hrun, hcounted⟩ := h w
    cases r with
    | ok out => exact ⟨out, w', by rw [Prog.catching, hrun]⟩
    | error e =>
        rw [Prog.catching_of_error _ hrun]
        have he := hcounted e rfl
        cases e with
        | providerUnavailable text => exact ⟨_, w', rfl⟩
        | other text => exact ⟨_, w', rfl⟩
        | crash => cases he
        | leaseLost => cases he
        | indexCancelled => cases he
  obtain ⟨out, w', hrun⟩ := hcaught
  refine ⟨out.1, w'.write (.progressed out.1 (some path) out.2), ?_⟩
  have hstart : checkpoint w [] = ((.ok (), w), []) := rfl
  rw [Prog.bind_apply, hstart]
  show (body.catching (countError stats) >>= _) w [] = _
  rw [Prog.bind_apply, hrun]
  rfl

theorem loop {f : IndexStats → β → IndexM IndexStats}
    (hf : ∀ stats b w, ∃ stats' w', f stats b w [] = ((.ok stats', w'), [])) (items : List β)
    (stats : IndexStats) (w : World) :
    ∃ stats' w', items.foldlM f stats w [] = ((.ok stats', w'), []) := by
  induction items generalizing stats w with
  | nil => exact ⟨stats, w, rfl⟩
  | cons b items ih =>
      obtain ⟨stats', w', hone⟩ := hf stats b w
      obtain ⟨stats'', w'', hrest⟩ := ih stats' w'
      exact ⟨stats'', w'', by rw [List.foldlM_cons, Prog.bind_apply, hone]; exact hrest⟩

end Ends

/-- A pass over a registered repository returns when all its calls go through. -/
theorem index_goes (h : Hashing) (ix : Indexer) (repositoryId : Uuid) (mode : Mode) (tree : Tree)
    (w : World) {files : List RelPath} (hfound : tree.found = .ok files)
    (hregistered : (w.db.repositories.get? repositoryId).isSome = true) :
    ∃ stats w', index h ix repositoryId mode tree w [] = ((.ok stats, w'), []) := by
  let manifest := w.db.fileManifest repositoryId
  let deleted := deletedPaths manifest (w.db.pendingDeletions repositoryId) files
  let begun : IndexStats := { totalFiles := files.length + deleted.length }
  have hdelete : ∀ stats path w, ∃ stats' w',
      deleteOne repositoryId stats path w [] = ((.ok stats', w'), []) := by
    intro stats path w
    refine Ends.turn (Ends.bind (Ends.withGuard ?_) fun _ => Ends.pure _) stats path w
    exact Ends.passRules.deleteGuarded _
  have hfile : ∀ stats path w, ∃ stats' w',
      indexOne h ix repositoryId mode tree manifest deleted stats path w [] =
        ((.ok stats', w'), []) := by
    intro stats path w
    refine Ends.turn (Ends.bind (Ends.bind (Ends.passRules.readFile _) fun bytes => ?_) fun _ =>
      Ends.pure _) stats path.asPosix w
    refine Ends.ite ?_ ?_
    · refine Ends.bind (Ends.withGuard ?_) fun _ => Ends.pure _
      exact Ends.bind Ends.passRules.check fun _ => Ends.passRules.sql _ _ _
    · refine Ends.bind (Ends.passRules.readFile _) fun content => ?_
      refine Ends.bind (Ends.passRules.embedFile _ _ _ _ _) fun items => ?_
      exact Ends.bind (Ends.withGuard (Ends.passRules.indexGuarded _ _ _ _ _)) fun _ => Ends.pure _
  obtain ⟨stats₁, w₁, hdeletes⟩ :=
    Ends.loop hdelete deleted begun (w.write (.progressed begun none none))
  obtain ⟨stats₂, w₂, hfiles⟩ := Ends.loop hfile (relativeMap files) stats₁ w₁
  have hnone : (w.db.repositories.get? repositoryId).isNone = false := by
    rw [← Option.not_isSome, hregistered]
    rfl
  have hbegun : index h ix repositoryId mode tree w [] =
      (deleted.foldlM (deleteOne repositoryId) begun >>= fun stats =>
        (relativeMap files).foldlM (indexOne h ix repositoryId mode tree manifest deleted) stats >>=
          fun stats => withGuard (markIndexed repositoryId tree.commitSha) >>= fun _ => pure stats)
        (w.write (.progressed begun none none)) [] := by
    show (if (w.db.repositories.get? repositoryId).isNone = true then _ else _ :
      IndexM IndexStats) w [] = _
    rw [hnone]
    simp only [hfound]
    rfl
  rw [hbegun, Prog.bind_of_ok _ hdeletes, Prog.bind_of_ok _ hfiles]
  exact ⟨stats₂, _, rfl⟩

/-! ## The claim of the progress bar -/

/-- The reports count up one by one within the total, and a pass that returns has
reported that it is done. -/
structure AddsUp (new : List LogEntry) (r : Except Exc IndexStats) : Prop where
  steps : (reports new).map IndexStats.done = List.range (reports new).length
  bounded : ∀ stats ∈ reports new, stats.done ≤ stats.totalFiles
  finished : ∀ stats, r = .ok stats →
    (reports new).getLast? = some stats ∧ stats.done = stats.totalFiles

theorem Tally.steps {total n : ℕ} {L : List IndexStats} (hL : Tally total n L) :
    L.map IndexStats.done = List.range L.length := by
  have hlen : L.length = n := by
    rw [← List.length_map IndexStats.done, hL.counts, List.length_range]
  rw [hlen, hL.counts]

theorem Tally.bounded {total n : ℕ} {L : List IndexStats} (hL : Tally total n L)
    (hn : n ≤ total + 1) : ∀ stats ∈ L, stats.done ≤ stats.totalFiles := by
  intro stats hstats
  have hdone : stats.done ∈ List.range n := hL.counts ▸ List.mem_map_of_mem hstats
  rw [List.mem_range] at hdone
  rw [hL.total stats hstats]
  omega

/-- What a pass reports, in terms of its own part of the log. -/
theorem index_tally (h : Hashing) (ix : Indexer) (repositoryId : Uuid) (mode : Mode) (tree : Tree)
    (w : World) (fates : List Fate) :
    ∃ new, (index h ix repositoryId mode tree w fates).1.2.log = new ++ w.log ∧
      (∃ total, TallyUpTo total (total + 1) (reports new)) ∧
      ∀ stats, (index h ix repositoryId mode tree w fates).1.1 = .ok stats →
        ∃ files, tree.found = .ok files ∧
          (w.db.repositories.get? repositoryId).isSome = true ∧
          let deleted := deletedPaths (w.db.fileManifest repositoryId)
            (w.db.pendingDeletions repositoryId) files
          TallyAt (files.length + deleted.length) (deleted.length + (relativeMap files).length)
            stats (reports new) := by
  have hkeeps : Keeps (Since w.log Authorised) (index h ix repositoryId mode tree) :=
    index_keeps_authorised
  obtain ⟨new, hnew, -⟩ := hkeeps.run ⟨[], rfl, Authorised.nil⟩ fates
  have hreports : ∀ w' : World, w'.log = new ++ w.log → ∀ L, Reported (reports w.log ++ L) w' →
      reports new = L := by
    intro w' hlog L hL
    rw [Reported, hlog, reports_append] at hL
    exact List.append_cancel_left hL
  have hpost := (index_reports w : Triple _ (index h ix repositoryId mode tree) _ _) w fates rfl
  refine ⟨new, hnew, ?_⟩
  revert hnew hpost
  rcases (index h ix repositoryId mode tree w fates).1 with ⟨r, w'⟩
  intro hnew hpost
  cases r with
  | error e =>
      obtain ⟨L, hL, htally⟩ := hpost
      rw [hreports w' hnew L hL]
      exact ⟨htally, fun _ heq => by cases heq⟩
  | ok stats =>
      obtain ⟨L, hL, files, hfound, hregistered, htally⟩ := hpost
      have hlen : (relativeMap files).length ≤ files.length := length_eraseDups_le files
      rw [hreports w' hnew L hL]
      refine ⟨⟨_, _, ?_, htally.toTally⟩, fun stats' heq => ?_⟩
      · omega
      · cases heq
        exact ⟨files, hfound, hregistered, htally⟩

/-- The reports of a pass add up, however it goes, exactly if discovery returns no path
twice. -/
theorem progress_adds_up_iff (h : Hashing) (ix : Indexer) (repositoryId : Uuid) (mode : Mode)
    (tree : Tree) (w : World) :
    (∀ fates, ∃ new, (index h ix repositoryId mode tree w fates).1.2.log = new ++ w.log ∧
      AddsUp new (index h ix repositoryId mode tree w fates).1.1) ↔
    ∀ files, tree.found = .ok files → (w.db.repositories.get? repositoryId).isSome = true →
      files.Nodup := by
  constructor
  · intro hadds files hfound hregistered
    obtain ⟨stats, w', hrun⟩ := index_goes h ix repositoryId mode tree w hfound hregistered
    obtain ⟨new, hnew, hadds⟩ := hadds []
    obtain ⟨new', hnew', -, htally⟩ := index_tally h ix repositoryId mode tree w []
    rw [hrun] at hnew hadds hnew' htally
    obtain ⟨files', hfound', -, htally⟩ := htally stats rfl
    have hfiles : files' = files := Except.ok.inj (hfound'.symm.trans hfound)
    subst hfiles
    obtain ⟨hdone, htotal⟩ := htally.now
    have hfull := (hadds.finished stats rfl).2
    rw [hdone, htotal, relativeMap] at hfull
    exact length_eraseDups_eq_iff.mp (by omega)
  · intro hnodup fates
    obtain ⟨new, hnew, ⟨total, n, hn, hL⟩, hreturned⟩ :=
      index_tally h ix repositoryId mode tree w fates
    refine ⟨new, hnew, hL.steps, hL.bounded hn, fun stats hstats => ?_⟩
    obtain ⟨files, hfound, hregistered, htally⟩ := hreturned stats hstats
    obtain ⟨hdone, htotal⟩ := htally.now
    have hlen := length_eraseDups_eq_iff.mpr (hnodup files hfound hregistered)
    refine ⟨htally.latest, ?_⟩
    rw [hdone, htotal, relativeMap, hlen]
    omega

/-! ### A linked file -/

def aliasFile : RelPath := ⟨["c"], by simp, by decide, by decide⟩

/-- Git lists `a/b` and `c`, a link to it. -/
def aliasCheckout : Checkout where
  head := some "c1"
  lsFiles := .ok [fileAB.encode, aliasFile.encode]
  resolve _ := some fileAB
  read path := if path = fileAB then some "one\n".toUTF8 else none

/-- A full pass over it in which every call goes through. -/
def aliasPass : (Except Exc IndexStats × World) × List Fate :=
  index indexHashing lineIndexer sampleId .full (aliasCheckout.tree 1000000) sampleWorld []

/-- The pass returns with one of two files done. -/
theorem not_addsUp_linked :
    (aliasCheckout.discoverFiles 1000000).toOption = some [fileAB, fileAB] ∧
      aliasPass.1.1 = .ok { totalFiles := 2, indexedFiles := 1, indexedChunks := 1 } ∧
      ¬ ∃ new, aliasPass.1.2.log = new ++ sampleWorld.log ∧ AddsUp new aliasPass.1.1 := by
  have hreturns : aliasPass.1.1 = .ok { totalFiles := 2, indexedFiles := 1, indexedChunks := 1 } := by
    decide +kernel
  refine ⟨by decide +kernel, hreturns, fun hclaim => ?_⟩
  obtain ⟨new, -, hadds⟩ := hclaim
  exact absurd (hadds.finished _ hreturns).2 (by decide)

end RepoMesh
