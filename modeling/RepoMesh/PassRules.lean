import RepoMesh.Indexer

/-!
# Rules for the parts of a pass

A property of programs that the calls of a pass have, and that is kept where they are
put together, holds of what a pass does with one file, inside its guard and before
it.
-/

namespace RepoMesh

/-- What a property of programs needs in order to hold of the parts of a pass. -/
structure PassRules (C : ∀ {α : Type}, IndexM α → Prop) : Prop where
  pure : ∀ {α : Type} (a : α), C (pure a : IndexM α)
  other : ∀ {α : Type} (text : String), C (Prog.raise (.other text) : IndexM α)
  bind : ∀ {α β : Type} {x : IndexM α} {f : α → IndexM β}, C x → (∀ a, C (f a)) → C (x >>= f)
  attempt : C attempt
  check : C check
  sql : ∀ m key f, C (sql m key f)
  vectorCall : ∀ m key f, C (vectorCall m key f)
  replaceFileChunks : ∀ key sha256 commitSha chunks vectorSynced,
    C (replaceFileChunks key sha256 commitSha chunks vectorSynced)
  deferring : ∀ {α : Type} {x : IndexM α}, C x → ∀ message key value,
    C (x.catching (deferring message key value))

namespace PassRules

variable {C : ∀ {α : Type}, IndexM α → Prop} (rules : PassRules C)
include rules

theorem deleteGuarded (key : FileKey) : C (deleteGuarded key) := by
  refine rules.bind rules.check fun _ => rules.bind (rules.sql _ _ _) fun _ => ?_
  refine rules.deferring ?_ _ _ _
  refine rules.bind rules.check fun _ => rules.bind (rules.vectorCall _ _ _) fun _ => ?_
  exact rules.bind rules.check fun _ => rules.sql _ _ _

theorem syncVectors (key : FileKey) (items : List Point) : C (syncVectors key items) := by
  refine rules.bind rules.check fun _ => rules.bind (rules.vectorCall _ _ _) fun _ => ?_
  refine rules.bind rules.check fun _ => rules.bind (rules.vectorCall _ _ _) fun _ => ?_
  exact rules.pure true

theorem indexGuarded (key : FileKey) (digest : HexDigest) (commitSha : String)
    (chunks : List CodeChunk) (vectors : List String) :
    C (indexGuarded key digest commitSha chunks vectors) := by
  refine rules.bind rules.check fun _ => rules.bind (rules.sql _ _ _) fun _ => ?_
  refine rules.bind (rules.deferring (rules.syncVectors key _) _ key false) fun vectorSynced => ?_
  refine rules.bind rules.check fun _ => rules.bind (rules.replaceFileChunks _ _ _ _ _) fun _ => ?_
  split
  · exact rules.bind rules.check fun _ => rules.sql _ _ _
  · exact rules.pure ()

theorem readFile (bytes : Option ByteArray) : C (readFile bytes) := by
  refine rules.bind rules.attempt fun _ => ?_
  cases bytes with
  | none => exact rules.other _
  | some bytes => exact rules.pure bytes

theorem embedFile (h : Hashing) (ix : Indexer) (key : FileKey) (commitSha content : String) :
    C (embedFile h ix key commitSha content) := by
  refine rules.bind rules.attempt fun _ => rules.bind ?_ fun _ => ?_
  · rw [embedCall]
    split
    · exact rules.pure ()
    · exact rules.attempt
  · cases ix.fileItems h key commitSha content with
    | error text => exact rules.other text
    | ok items => exact rules.pure items

end PassRules

end RepoMesh
