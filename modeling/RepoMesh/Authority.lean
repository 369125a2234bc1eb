import RepoMesh.IndexKeeps
import RepoMesh.PassRules
import RepoMesh.Skipping

/-!
# Writing only with authority

A pass asks for its authority before each change it makes of the index or of the vector
store (`Authorised`, read off the log), and an exception that says that the authority is
lost goes through all handlers: it leaves `index` as a crash at the same call would, with
nothing written after it (`Stop`).

That a guard is left while an exception passes is a call too. Guards end a PostgreSQL
transaction, whose rollback does not raise in the place of the exception that caused it
(`NextGoes`).
-/

namespace RepoMesh

/-! ## Checks before changes -/

/-- A change of the index or of the vector store, also one made only in part. -/
def LogEntry.changes : LogEntry → Bool
  | .mutated _ _ | .interrupted _ _ | .updatedRepository _ => true
  | _ => false

/-- An entry that the body of a guard makes. -/
def LogEntry.inside : LogEntry → Bool
  | .entered | .left | .progressed _ _ _ => false
  | _ => true

/-- The log ends inside a guard. -/
def Opened (log : List LogEntry) : Prop :=
  ∃ body rest, log = body ++ .entered :: rest ∧ ∀ entry ∈ body, entry.inside = true

/-- Each change comes right after a check that succeeded, in the same guard. -/
def Authorised (log : List LogEntry) : Prop :=
  ∀ newer change older, log = newer ++ change :: older → change.changes = true →
    ∃ rest, older = .checked :: rest ∧ Opened rest

theorem Opened.cons {log : List LogEntry} (h : Opened log) {entry : LogEntry}
    (hinside : entry.inside = true) : Opened (entry :: log) := by
  obtain ⟨body, rest, rfl, hbody⟩ := h
  exact ⟨entry :: body, rest, rfl, by simpa using ⟨hinside, hbody⟩⟩

theorem opened_entered (log : List LogEntry) : Opened (.entered :: log) :=
  ⟨[], log, rfl, by simp⟩

theorem Authorised.nil : Authorised [] := by
  intro newer change older heq
  cases newer <;> cases heq

theorem Authorised.cons {log : List LogEntry} (h : Authorised log) {entry : LogEntry}
    (hentry : entry.changes = true → ∃ rest, log = .checked :: rest ∧ Opened rest) :
    Authorised (entry :: log) := by
  intro newer change older heq hchange
  cases newer with
  | nil =>
      obtain ⟨rfl, rfl⟩ := List.cons.inj heq
      exact hentry hchange
  | cons first newer => exact h newer change older (List.cons.inj heq).2 hchange

/-- An entry that is no change does not matter. -/
theorem Authorised.aside {log : List LogEntry} (h : Authorised log) {entry : LogEntry}
    (hentry : entry.changes = false) : Authorised (entry :: log) :=
  h.cons fun hchange => absurd hchange (by simp [hentry])

/-- In a guard. -/
structure Guarded (log : List LogEntry) : Prop where
  authorised : Authorised log
  opened : Opened log

/-- In a guard, right after a check. -/
def Cleared (log : List LogEntry) : Prop := ∃ rest, log = .checked :: rest ∧ Guarded rest

theorem Guarded.cons {log : List LogEntry} (h : Guarded log) {entry : LogEntry}
    (hinside : entry.inside = true) (hchanges : entry.changes = false) : Guarded (entry :: log) :=
  ⟨h.authorised.aside hchanges, h.opened.cons hinside⟩

theorem Cleared.guarded {log : List LogEntry} (h : Cleared log) : Guarded log := by
  obtain ⟨rest, rfl, hrest⟩ := h
  exact hrest.cons rfl rfl

theorem Cleared.change {log : List LogEntry} (h : Cleared log) {entry : LogEntry}
    (hinside : entry.inside = true) : Guarded (entry :: log) := by
  have hguarded := h.guarded
  obtain ⟨rest, rfl, hrest⟩ := h
  exact ⟨hguarded.authorised.cons fun _ => ⟨rest, rfl, hrest.opened⟩,
    hguarded.opened.cons hinside⟩

/-- What was logged since `log` satisfies `A`. -/
def Since (log : List LogEntry) (A : List LogEntry → Prop) (w : World) : Prop :=
  ∃ new, w.log = new ++ log ∧ A new

section

variable {log : List LogEntry} {A B : List LogEntry → Prop}

theorem Since.mono (h : ∀ new, A new → B new) (w : World) (hw : Since log A w) :
    Since log B w := by
  obtain ⟨new, hnew, hA⟩ := hw
  exact ⟨new, hnew, h new hA⟩

theorem Since.write {entry : LogEntry} (h : ∀ new, A new → B (entry :: new)) (w : World)
    (hw : Since log A w) : Since log B (w.write entry) := by
  obtain ⟨new, hnew, hA⟩ := hw
  exact ⟨entry :: new, by rw [World.write, hnew, List.cons_append], h new hA⟩

theorem note_since {entry : LogEntry} {E : Exc → World → Prop}
    (h : ∀ new, A new → B (entry :: new)) :
    Triple (Since log A) (note entry) (fun _ => Since log B) E :=
  Triple.modify (Since.write h)

theorem check_since :
    Triple (Since log Guarded) check (fun _ => Since log Cleared) fun _ => Since log Guarded :=
  Triple.bind attempt_spec fun _ => note_since fun new hnew => ⟨new, rfl, hnew⟩

theorem sql_since (m : Mutation) (key : FileKey) (f : IndexDb → IndexDb) :
    Triple (Since log Cleared) (sql m key f) (fun _ => Since log Guarded)
      fun _ => Since log Guarded := by
  refine Triple.bind (attempt_spec.exc fun _ => Since.mono fun _ => Cleared.guarded) fun _ => ?_
  exact Triple.modify fun w hw =>
    Since.write (fun _ hnew => Cleared.change hnew rfl) { w with db := f w.db } hw

theorem replaceFileChunks_since (key : FileKey) (sha256 : HexDigest) (commitSha : String)
    (chunks : List CodeChunk) (vectorSynced : Bool) :
    Triple (Since log Cleared) (replaceFileChunks key sha256 commitSha chunks vectorSynced)
      (fun _ => Since log Guarded) fun _ => Since log Guarded := by
  refine Triple.bind (attempt_spec.exc fun _ => Since.mono fun _ => Cleared.guarded) fun _ => ?_
  refine Triple.bind (Triple.get (Q := fun _ => Since log Cleared) fun _ => id) fun w => ?_
  cases w.db.replaceFileChunks key.repositoryId key.path sha256 commitSha chunks
      vectorSynced with
  | error text => exact Triple.raise (Since.mono fun _ => Cleared.guarded)
  | ok db =>
      exact Triple.modify fun w hw =>
        Since.write (fun _ hnew => Cleared.change hnew rfl) { w with db := db } hw

theorem vectorCall_since (m : Mutation) (key : FileKey)
    (f : Option (List Uuid) → Table Point.id → Table Point.id) :
    Triple (Since log Cleared) (vectorCall m key f) (fun _ => Since log Guarded)
      fun _ => Since log Guarded := by
  refine Triple.bind (Triple.ask fun _ _ => id) fun fate => ?_
  cases fate with
  | goes =>
      exact Triple.modify fun w hw =>
        Since.write (fun _ hnew => Cleared.change hnew rfl) { w with points := f none w.points } hw
  | raises e done =>
      refine Triple.bind (R := fun _ => Since log Guarded) (Triple.modify fun w hw => ?_)
        fun _ => Triple.raise fun _ => id
      exact Since.write (fun _ hnew => Cleared.change hnew rfl)
        { w with points := f (some done) w.points } hw

theorem deferring_since {α : Type} (message : String) (key : FileKey) (value : α) (e : Exc) :
    Triple (Since log Guarded) (deferring message key value e) (fun _ => Since log Guarded)
      fun _ => Since log Guarded := by
  cases e with
  | providerUnavailable text =>
      exact Triple.bind (note_since fun _ hnew => hnew.cons rfl rfl) fun _ =>
        Triple.pure fun _ => id
  | crash => exact Triple.raise fun _ => id
  | leaseLost => exact Triple.raise fun _ => id
  | indexCancelled => exact Triple.raise fun _ => id
  | other text => exact Triple.raise fun _ => id

/-- A guard opens the log, and leaving it closes it. -/
theorem withGuard_since {body : IndexM Unit}
    (h : Triple (Since log Guarded) body (fun _ => Since log Guarded)
      fun _ => Since log Guarded) :
    Triple (Since log Authorised) (withGuard body) (fun _ => Since log Authorised)
      fun _ => Since log Authorised := by
  have hclose : ∀ w, Since log Guarded w → Since log Authorised w :=
    Since.mono fun _ => Guarded.authorised
  refine Triple.bind attempt_spec fun _ => ?_
  refine Triple.bind (note_since (B := Guarded) fun new hnew =>
    ⟨hnew.aside rfl, opened_entered new⟩) fun _ => ?_
  refine Triple.bind (Triple.catching h fun e => Triple.ite ?_ ?_) fun _ => ?_
  · exact fun _ => Triple.raise hclose
  · intro _
    refine Triple.bind (attempt_spec.exc fun _ => hclose) fun _ => ?_
    refine Triple.bind (note_since (B := Authorised) fun _ hnew => hnew.authorised.aside rfl)
      fun _ => ?_
    exact Triple.raise fun _ => id
  · refine Triple.bind (attempt_spec.exc fun _ => hclose) fun _ => ?_
    exact note_since fun _ hnew => hnew.authorised.aside rfl

theorem deleteGuarded_since (key : FileKey) :
    Triple (Since log Guarded) (deleteGuarded key) (fun _ => Since log Guarded)
      fun _ => Since log Guarded := by
  refine Triple.bind check_since fun _ => Triple.bind (sql_since _ _ _) fun _ => ?_
  refine Triple.catching ?_ (deferring_since _ key ())
  refine Triple.bind check_since fun _ => Triple.bind (vectorCall_since _ _ _) fun _ => ?_
  exact Triple.bind check_since fun _ => sql_since _ _ _

theorem indexGuarded_since (key : FileKey) (digest : HexDigest) (commitSha : String)
    (chunks : List CodeChunk) (vectors : List String) :
    Triple (Since log Guarded) (indexGuarded key digest commitSha chunks vectors)
      (fun _ => Since log Guarded) fun _ => Since log Guarded := by
  refine Triple.bind check_since fun _ => Triple.bind (sql_since _ _ _) fun _ => ?_
  have hsync : Triple (Since log Guarded)
      ((syncVectors key (List.zipWith CodeChunk.toPoint chunks vectors)).catching
        (deferring "vector sync deferred" key false))
      (fun _ => Since log Guarded) fun _ => Since log Guarded := by
    refine Triple.catching ?_ (deferring_since _ key false)
    refine Triple.bind check_since fun _ => Triple.bind (vectorCall_since _ _ _) fun _ => ?_
    refine Triple.bind check_since fun _ => Triple.bind (vectorCall_since _ _ _) fun _ => ?_
    exact Triple.pure fun _ => id
  refine Triple.bind hsync fun vectorSynced => Triple.bind check_since fun _ => ?_
  refine Triple.bind (replaceFileChunks_since _ _ _ _ _) fun _ => Triple.ite ?_ ?_
  · exact fun _ => Triple.bind check_since fun _ => sql_since _ _ _
  · exact fun _ => Triple.pure fun _ => id

theorem markIndexed_since (repositoryId : Uuid) (commitSha : String) :
    Triple (Since log Guarded) (markIndexed repositoryId commitSha)
      (fun _ => Since log Guarded) fun _ => Since log Guarded := by
  refine Triple.bind check_since fun _ => ?_
  refine Triple.bind (attempt_spec.exc fun _ => Since.mono fun _ => Cleared.guarded) fun _ => ?_
  exact Triple.modify fun w hw => Since.write (fun _ hnew => Cleared.change hnew rfl)
    { w with db := w.db.updateRepository repositoryId commitSha "indexed" } hw

/-! ## The loops -/

theorem progress_keeps_authorised (stats : IndexStats) (path error : Option String) :
    Keeps (Since log Authorised) (progress stats path error) :=
  Keeps.bind attempt_keeps fun _ => note_since fun _ hnew => hnew.aside rfl

theorem readFile_keeps {P : World → Prop} (bytes : Option ByteArray) :
    Keeps P (readFile bytes) :=
  (readFile_spec bytes).conseq (fun _ => id) (fun _ _ hw => hw.2) fun _ _ => id

theorem embedFile_keeps {P : World → Prop} (h : Hashing) (ix : Indexer) (key : FileKey)
    (commitSha content : String) : Keeps P (embedFile h ix key commitSha content) :=
  (embedFile_spec h ix key commitSha content).conseq (fun _ => id) (fun _ _ hw => hw.2)
    fun _ _ => id

theorem deleteOne_keeps_authorised (repositoryId : Uuid) (stats : IndexStats) (path : String) :
    Keeps (Since log Authorised) (deleteOne repositoryId stats path) := by
  refine Keeps.bind attempt_keeps fun _ => ?_
  refine Keeps.bind (Keeps.catching ?_ (countError_keeps stats)) fun r => ?_
  · exact Keeps.bind (withGuard_since (deleteGuarded_since _)) fun _ => Keeps.pure
  · exact Keeps.bind (progress_keeps_authorised r.1 _ r.2) fun _ => Keeps.pure

variable {h : Hashing} {ix : Indexer} {repositoryId : Uuid} {mode : Mode} {tree : Tree}
  {manifest : List FileRow} {deleted : List String}

theorem indexFile_keeps_authorised (stats : IndexStats) (path : RelPath) :
    Keeps (Since log Authorised)
      (indexFile h ix repositoryId mode tree manifest deleted stats path) := by
  refine Keeps.bind (readFile_keeps _) fun bytes => Keeps.ite (fun _ => ?_) fun _ => ?_
  · refine Keeps.bind (withGuard_since ?_) fun _ => Keeps.pure
    exact Triple.bind check_since fun _ => sql_since _ _ _
  · refine Keeps.bind (readFile_keeps _) fun content => ?_
    refine Keeps.bind (embedFile_keeps _ _ _ _ _) fun items => ?_
    exact Keeps.bind (withGuard_since (indexGuarded_since _ _ _ _ _)) fun _ => Keeps.pure

theorem indexOne_keeps_authorised (stats : IndexStats) (path : RelPath) :
    Keeps (Since log Authorised)
      (indexOne h ix repositoryId mode tree manifest deleted stats path) := by
  refine Keeps.bind attempt_keeps fun _ => ?_
  refine Keeps.bind (Keeps.catching ?_ (countError_keeps stats)) fun r => ?_
  · exact Keeps.bind (indexFile_keeps_authorised stats path) fun _ => Keeps.pure
  · exact Keeps.bind (progress_keeps_authorised r.1 _ r.2) fun _ => Keeps.pure

theorem index_keeps_authorised :
    Keeps (Since log Authorised) (index h ix repositoryId mode tree) := by
  refine Keeps.bind attempt_keeps fun _ => Keeps.bind (Triple.get fun _ => id) fun w => ?_
  refine Keeps.ite (fun _ => Keeps.raise) fun _ => Keeps.bind attempt_keeps fun _ => ?_
  cases tree.found with
  | error e => exact Keeps.raise
  | ok files =>
      refine Keeps.bind (progress_keeps_authorised _ none none) fun _ => ?_
      refine Keeps.bind (Keeps.foldlM _ (fun stats path _ =>
        deleteOne_keeps_authorised repositoryId stats path) _) fun stats => ?_
      refine Keeps.bind (Keeps.foldlM _ (fun stats path _ =>
        indexOne_keeps_authorised stats path) _) fun stats => ?_
      exact Keeps.bind (withGuard_since (markIndexed_since _ _)) fun _ => Keeps.pure

end

/-! ## Lost authority -/

/-- `LeaseLost` or `IndexCancelled`. -/
def Exc.lostAuthority : Exc → Bool
  | .leaseLost | .indexCancelled => true
  | _ => false

/-- The next call does not raise. -/
def NextGoes (fates : List Fate) : Prop := ∀ e done rest, fates ≠ .raises e done :: rest

/-- An exception that all handlers let through. -/
def Exc.Passes (e : Exc) : Prop := e = .crash ∨ e.lostAuthority = true

/-- Where a program is once the calls of `before` are made. It has returned or raised; or
it makes one more call, and a crash or lost authority there leaves it at once; or it makes
that call inside a guard, which is left first. `cut` is the world at the call. -/
inductive Stop {α : Type} (guards : Bool) (x : IndexM α) (w : World) (before : List Fate) : Prop
  | returned (r : Except Exc α) (w' : World) (rest : List Fate)
      (h : ∀ after, x w (before ++ after) = ((r, w'), rest ++ after))
  | outside (cut : List Uuid → World)
      (h : ∀ e done after, e.Passes →
        x w (before ++ .raises e done :: after) = ((.error e, cut done), after))
  | inside (hguards : guards = true) (cut : List Uuid → World)
      (hcrash : ∀ done after,
        x w (before ++ .raises .crash done :: after) = ((.error .crash, cut done), after))
      (h : ∀ e done after, e.lostAuthority = true → NextGoes after →
        x w (before ++ .raises e done :: after) =
          ((.error e, (cut done).write .left), after.tail))

/-- The program can be stopped at each of its calls; `guards` if it enters guards. -/
def Stops {α : Type} (guards : Bool) (x : IndexM α) : Prop := ∀ w before, Stop guards x w before

/-- A program that goes on as another one does stops where that one stops. -/
theorem Stop.of_run {α : Type} {guards : Bool} {x y : IndexM α} {w w' : World}
    {before rest : List Fate} (h : Stop guards y w' rest)
    (hrun : ∀ after, x w (before ++ after) = y w' (rest ++ after)) : Stop guards x w before := by
  cases h with
  | returned r w'' rest' h => exact .returned r w'' rest' fun after => by rw [hrun, h]
  | outside cut h => exact .outside cut fun e done after he => by rw [hrun, h e _ _ he]
  | inside hguards cut hcrash h =>
      exact .inside hguards cut (fun done after => by rw [hrun, hcrash])
        fun e done after he hnext => by rw [hrun, h e _ _ he hnext]

namespace Stops

variable {α β : Type} {guards : Bool} {x : IndexM α}

theorem pure {a : α} : Stops guards (pure a : IndexM α) :=
  fun w before => .returned (.ok a) w before fun _ => rfl

theorem raise {e : Exc} : Stops guards (Prog.raise e : IndexM α) :=
  fun w before => .returned (.error e) w before fun _ => rfl

theorem get : Stops guards (Prog.get : IndexM World) :=
  fun w before => .returned (.ok w) w before fun _ => rfl

theorem modify (f : World → World) : Stops guards (Prog.modify f : IndexM Unit) :=
  fun w before => .returned (.ok ()) (f w) before fun _ => rfl

theorem bind {f : α → IndexM β} (hx : Stops guards x) (hf : ∀ a, Stops guards (f a)) :
    Stops guards (x >>= f) := by
  intro w before
  cases hx w before with
  | returned r w' rest h =>
      cases r with
      | error e => exact .returned (.error e) w' rest fun after => by rw [Prog.bind_apply, h]
      | ok a =>
          exact (hf a w' rest).of_run fun after => by rw [Prog.bind_apply, h]
  | outside cut h =>
      exact .outside cut fun e done after he => by rw [Prog.bind_apply, h e _ _ he]
  | inside hguards cut hcrash h =>
      exact .inside hguards cut (fun done after => by rw [Prog.bind_apply, hcrash])
        fun e done after he hnext => by rw [Prog.bind_apply, h e _ _ he hnext]

/-- A handler that raises again what passes. -/
theorem catching {handler : Exc → IndexM α} (hx : Stops guards x)
    (hh : ∀ e, Stops guards (handler e)) (hpass : ∀ e, e.Passes → handler e = Prog.raise e) :
    Stops guards (x.catching handler) := by
  intro w before
  cases hx w before with
  | returned r w' rest h =>
      cases r with
      | ok a => exact .returned (.ok a) w' rest fun after => by rw [Prog.catching, h]
      | error e =>
          exact (hh e w' rest).of_run fun after => Prog.catching_of_error handler (h after)
  | outside cut h =>
      refine .outside cut fun e done after he => ?_
      rw [Prog.catching_of_error handler (h e _ _ he), hpass e he]
      rfl
  | inside hguards cut hcrash h =>
      refine .inside hguards cut (fun done after => ?_) fun e done after he hnext => ?_
      · rw [Prog.catching_of_error handler (hcrash _ _), hpass _ (Or.inl rfl)]
        rfl
      · rw [Prog.catching_of_error handler (h e _ _ he hnext), hpass e (Or.inr he)]
        rfl

theorem ite {c : Prop} [Decidable c] {y : IndexM α} (hx : Stops guards x)
    (hy : Stops guards y) : Stops guards (if c then x else y) := by
  split
  · exact hx
  · exact hy

theorem foldlM (items : List β) {f : α → β → IndexM α} (h : ∀ a b, Stops guards (f a b))
    (a : α) : Stops guards (items.foldlM f a) := by
  induction items generalizing a with
  | nil => exact pure
  | cons b items ih => exact bind (h a b) fun a' => ih a'

/-! ## The calls of a pass -/

theorem attempt : Stops guards attempt := by
  intro w before
  cases before with
  | nil => exact .outside (fun _ => w) fun _ _ _ _ => rfl
  | cons fate before =>
      cases fate with
      | goes => exact .returned (.ok ()) w before fun _ => rfl
      | raises e done => exact .returned (.error e) w before fun _ => rfl

theorem vectorCall (m : Mutation) (key : FileKey)
    (f : Option (List Uuid) → Table Point.id → Table Point.id) :
    Stops guards (vectorCall m key f) := by
  intro w before
  cases before with
  | nil =>
      exact .outside
        (fun done => { w with points := f (some done) w.points }.write (.interrupted m key))
        fun _ _ _ _ => rfl
  | cons fate before =>
      cases fate with
      | goes =>
          exact .returned (.ok ()) ({ w with points := f none w.points }.write (.mutated m key))
            before fun _ => rfl
      | raises e done =>
          exact .returned (.error e)
            ({ w with points := f (some done) w.points }.write (.interrupted m key)) before
            fun _ => rfl

theorem note (entry : LogEntry) : Stops guards (note entry) := modify _

theorem check : Stops guards check := bind attempt fun _ => note _

theorem sql (m : Mutation) (key : FileKey) (f : IndexDb → IndexDb) : Stops guards (sql m key f) :=
  bind attempt fun _ => modify _

theorem replaceFileChunks (key : FileKey) (sha256 : HexDigest) (commitSha : String)
    (chunks : List CodeChunk) (vectorSynced : Bool) :
    Stops guards (replaceFileChunks key sha256 commitSha chunks vectorSynced) := by
  refine bind attempt fun _ => bind get fun w => ?_
  cases w.db.replaceFileChunks key.repositoryId key.path sha256 commitSha chunks
      vectorSynced with
  | error text => exact raise
  | ok db => exact modify _

theorem progress (stats : IndexStats) (path error : Option String) :
    Stops guards (progress stats path error) :=
  bind attempt fun _ => note _

/-- A deferral handles one exception only. -/
theorem deferring {x : IndexM α} (hx : Stops guards x) (message : String) (key : FileKey)
    (value : α) : Stops guards (x.catching (deferring message key value)) := by
  refine catching hx (fun e => ?_) fun e he => ?_
  · cases e with
    | providerUnavailable text => exact bind (note _) fun _ => pure
    | crash => exact raise
    | leaseLost => exact raise
    | indexCancelled => exact raise
    | other text => exact raise
  · cases e with
    | providerUnavailable text => exact absurd he (by simp [Exc.Passes, Exc.lostAuthority])
    | crash => rfl
    | leaseLost => rfl
    | indexCancelled => rfl
    | other text => rfl

/-- The handlers of the loops count ordinary exceptions only. -/
theorem counting {x : IndexM (IndexStats × Option String)} (hx : Stops guards x)
    (stats : IndexStats) : Stops guards (x.catching (countError stats)) := by
  refine catching hx (fun e => ?_) fun e he => ?_
  · cases e with
    | providerUnavailable text => exact pure
    | other text => exact pure
    | crash => exact raise
    | leaseLost => exact raise
    | indexCancelled => exact raise
  · cases e with
    | providerUnavailable text => exact absurd he (by simp [Exc.Passes, Exc.lostAuthority])
    | other text => exact absurd he (by simp [Exc.Passes, Exc.lostAuthority])
    | crash => rfl
    | leaseLost => rfl
    | indexCancelled => rfl

/-- A body without guards, in one. Where the body stops at a crash the guard is not left;
where it stops at lost authority leaving it is the next call. -/
theorem withGuard {body : IndexM Unit} (hbody : Stops false body) :
    Stops true (withGuard body) := by
  refine bind attempt fun _ => bind (note _) fun _ => bind ?_ fun _ => bind attempt fun _ => note _
  intro w before
  cases hbody w before with
  | inside hguards => cases hguards
  | returned r w' rest h =>
      cases r with
      | ok a => exact .returned (.ok a) w' rest fun after => by rw [Prog.catching, h]
      | error e =>
          have hleave : Stops true (if e = .crash then Prog.raise e
              else do
                RepoMesh.attempt
                RepoMesh.note .left
                (Prog.raise e : IndexM Unit)) :=
            ite raise (bind attempt fun _ => bind (note _) fun _ => raise)
          exact (hleave w' rest).of_run fun after => Prog.catching_of_error _ (h after)
  | outside cut h =>
      refine .inside rfl cut (fun done after => ?_) fun e done after he hnext => ?_
      · exact Prog.catching_of_error _ (h .crash done after (Or.inl rfl))
      · have hne : e ≠ .crash := by
          rintro rfl
          cases he
        rw [Prog.catching_of_error _ (h e done after (Or.inr he)), if_neg hne]
        cases after with
        | nil => rfl
        | cons fate after =>
            cases fate with
            | goes => rfl
            | raises e' done' => exact absurd rfl (hnext e' done' after)

/-! ## The pass -/

theorem passRules : PassRules (Stops guards) where
  pure _ := pure
  other _ := raise
  bind := bind
  attempt := attempt
  check := check
  sql := sql
  vectorCall := vectorCall
  replaceFileChunks := replaceFileChunks
  deferring := deferring

theorem deleteOne (repositoryId : Uuid) (stats : IndexStats) (path : String) :
    Stops true (deleteOne repositoryId stats path) := by
  refine bind attempt fun _ => bind (counting ?_ stats) fun r => ?_
  · exact bind (withGuard (passRules.deleteGuarded _)) fun _ => pure
  · exact bind (progress r.1 _ r.2) fun _ => pure

variable {h : Hashing} {ix : Indexer} {repositoryId : Uuid} {mode : Mode} {tree : Tree}
  {manifest : List FileRow} {deleted : List String}

theorem indexFile (stats : IndexStats) (path : RelPath) :
    Stops true (indexFile h ix repositoryId mode tree manifest deleted stats path) := by
  refine bind (passRules.readFile _) fun bytes => ite ?_ ?_
  · exact bind (withGuard (bind check fun _ => sql _ _ _)) fun _ => pure
  · refine bind (passRules.readFile _) fun content => ?_
    refine bind (passRules.embedFile _ _ _ _ _) fun items => ?_
    exact bind (withGuard (passRules.indexGuarded _ _ _ _ _)) fun _ => pure

theorem indexOne (stats : IndexStats) (path : RelPath) :
    Stops true (indexOne h ix repositoryId mode tree manifest deleted stats path) := by
  refine bind attempt fun _ => bind (counting ?_ stats) fun r => ?_
  · exact bind (indexFile stats path) fun _ => pure
  · exact bind (progress r.1 _ r.2) fun _ => pure

theorem index : Stops true (index h ix repositoryId mode tree) := by
  refine bind attempt fun _ => bind get fun w => ite raise (bind attempt fun _ => ?_)
  cases tree.found with
  | error e => exact raise
  | ok files =>
      refine bind (progress _ none none) fun _ => ?_
      refine bind (foldlM _ (fun stats path => deleteOne repositoryId stats path) _) fun stats => ?_
      refine bind (foldlM _ (fun stats path => indexOne stats path) _) fun stats => ?_
      exact bind (withGuard (bind check fun _ => bind attempt fun _ => modify _)) fun _ => pure

end Stops

/-- Every change is made right after a check that succeeded, in the same guard; and where a
call raises lost authority the pass ends with that exception in the world in which a crash
at the call would have left it, but for the guard that it leaves. -/
theorem lost_authority_stops (h : Hashing) (ix : Indexer) (repositoryId : Uuid) (mode : Mode)
    (tree : Tree) (w : World) :
    (∀ fates, ∃ new, (index h ix repositoryId mode tree w fates).1.2.log = new ++ w.log ∧
      Authorised new) ∧
    ∀ before done cut,
      index h ix repositoryId mode tree w (before ++ [.raises .crash done]) =
        ((.error .crash, cut), []) →
      ∀ e, e.lostAuthority = true →
        (∀ after, index h ix repositoryId mode tree w (before ++ .raises e done :: after) =
          ((.error e, cut), after)) ∨
        ∀ after, NextGoes after →
          index h ix repositoryId mode tree w (before ++ .raises e done :: after) =
            ((.error e, cut.write .left), after.tail) := by
  constructor
  · intro fates
    exact index_keeps_authorised.run (s := w) ⟨[], rfl, Authorised.nil⟩ fates
  · intro before done cut hcut e he
    cases (Stops.index : Stops true (RepoMesh.index h ix repositoryId mode tree)) w before with
    | returned r w' rest hret =>
        rw [hret] at hcut
        exact absurd (congrArg Prod.snd hcut) (by simp)
    | outside cut' h' =>
        rw [h' .crash done [] (Or.inl rfl)] at hcut
        obtain rfl : cut' done = cut := congrArg (fun out => out.1.2) hcut
        exact Or.inl fun after => h' e done after (Or.inr he)
    | inside _ cut' hcrash h' =>
        rw [hcrash done []] at hcut
        obtain rfl : cut' done = cut := congrArg (fun out => out.1.2) hcut
        exact Or.inr fun after hnext => h' e done after he hnext

/-- A full pass over one file whose second check ends as given. -/
def stoppedPass (e : Exc) (after : List Fate) : (Except Exc IndexStats × World) × List Fate :=
  index indexHashing lineIndexer sampleId .full (sampleTree "c1" [fileAB]) sampleWorld
    (List.replicate 11 .goes ++ .raises e [] :: after)

theorem lost_authority_stops_one :
    (∀ after, stoppedPass .leaseLost after = ((.error .leaseLost, (stoppedPass .crash []).1.2), after)) ∨
      ∀ after, NextGoes after → stoppedPass .leaseLost after =
        ((.error .leaseLost, (stoppedPass .crash []).1.2.write .left), after.tail) := by
  have hout : (stoppedPass .crash []).1.1 = .error .crash := by rfl
  have hrest : (stoppedPass .crash []).2 = [] := by rfl
  exact (lost_authority_stops indexHashing lineIndexer sampleId .full (sampleTree "c1" [fileAB])
    sampleWorld).2 (List.replicate 11 .goes) [] (stoppedPass .crash []).1.2
    (Prod.ext (Prod.ext hout rfl) hrest) .leaseLost rfl

end RepoMesh
