import RepoMesh.IndexStore
import RepoMesh.Separated

/-!
# Chunks

How `CodeChunker.chunk` turns a file into rows of `chunks`: it chooses spans of
lines, and `_make_chunk` cuts each span out of the content and names it. The choice
of spans (the parse tree's declarations, or windows of lines) depends on the path and
the content alone and is a parameter here; so is the scan for import lines.

The id of a chunk is the UUID of its repository, its path as given, its lines and
its text; the stored path is normalised.
-/

namespace RepoMesh

/-! ## Text -/

/-- The characters `str.splitlines` ends a line at. -/
def isLineBreak (c : Char) : Bool :=
  c.toNat ∈ [0x0A, 0x0B, 0x0C, 0x0D, 0x1C, 0x1D, 0x1E, 0x85, 0x2028, 0x2029]

/-- `str.isspace` of one character. -/
def isSpace (c : Char) : Bool :=
  let n := c.toNat
  (0x09 ≤ n && n ≤ 0x0D) || (0x1C ≤ n && n ≤ 0x20) || n = 0x85 || n = 0xA0 || n = 0x1680 ||
    (0x2000 ≤ n && n ≤ 0x200A) || n ∈ [0x2028, 0x2029, 0x202F, 0x205F, 0x3000]

/-- `splitlines(keepends=True)`; `line` holds the line begun, reversed. -/
def splitLines (line : List Char) : List Char → List (List Char)
  | [] => if line = [] then [] else [line.reverse]
  | '\r' :: '\n' :: rest => (line.reverse ++ ['\r', '\n']) :: splitLines [] rest
  | c :: rest =>
      if isLineBreak c then (c :: line).reverse :: splitLines [] rest
      else splitLines (c :: line) rest

def rstrip (s : List Char) : List Char := (s.reverse.dropWhile isSpace).reverse

/-- `file_path.replace("\\", "/")`. -/
def slashed (path : String) : String :=
  String.ofList (path.toList.map fun c => if c = '\\' then '/' else c)

theorem slashed_eq_self {path : String} (h : '\\' ∉ path.toList) : slashed path = path := by
  have hmap : (path.toList.map fun c => if c = '\\' then '/' else c) = path.toList := by
    conv_rhs => rw [← List.map_id path.toList]
    refine List.map_congr_left fun c hc => if_neg ?_
    rintro rfl
    exact h hc
  rw [slashed, hmap, String.ofList_toList]

theorem not_mem_slashed (path : String) : '\\' ∉ (slashed path).toList := by
  intro hmem
  rw [slashed, String.toList_ofList] at hmem
  obtain ⟨c, -, hc⟩ := List.mem_map.mp hmem
  split at hc
  · exact absurd hc (by decide)
  · contradiction

/-! ## Cutting a file -/

/-- A span of lines, counted from one and inclusive, with what the chunker says
about it. -/
structure Span where
  start : Nat
  stop : Nat
  name : Option String
  kind : Option String
  strategy : String
  deriving DecidableEq

structure CodeChunker where
  languageFor : String → String
  /-- the spans of a file, from its path and its content -/
  spans : String → String → List Span
  /-- the import lines of a chunk's text, as JSON -/
  importsJson : String → String

/-- `"".join(lines[start - 1 : end]).rstrip()`. -/
def selected (content : String) (span : Span) : String :=
  let lines := splitLines [] content.toList
  String.ofList (rstrip ((lines.take span.stop).drop (span.start - 1)).flatten)

/-- The name `_make_chunk` hashes to the chunk's id. -/
def identity (repositoryId : Uuid) (filePath : String) (span : Span)
    (contentHash : HexDigest) : String :=
  repositoryId.text ++ ":" ++ filePath ++ ":" ++ toString span.start ++ ":" ++
    toString span.stop ++ ":" ++ contentHash.text

def makeChunk (h : Hashing) (chunker : CodeChunker) (repositoryId : Uuid)
    (commitSha filePath content embeddingModel embeddingVersion : String) (span : Span) :
    CodeChunk :=
  let text := selected content span
  let contentHash := h.sha256 text.toUTF8
  { id := h.uuid5 (identity repositoryId filePath span contentHash)
    repositoryId := repositoryId
    commitSha := commitSha
    filePath := slashed filePath
    language := chunker.languageFor filePath
    symbolName := span.name
    symbolKind := span.kind
    startLine := span.start
    endLine := span.stop
    content := text
    contentSha256 := contentHash
    importsJson := chunker.importsJson text
    embeddingModel := embeddingModel
    embeddingVersion := embeddingVersion
    chunkingStrategy := span.strategy
    vectorJson := none }

section

variable {h : Hashing} {chunker : CodeChunker} {repositoryId : Uuid}
  {commitSha filePath content embeddingModel embeddingVersion : String} {span : Span}

@[simp] theorem makeChunk_id :
    (makeChunk h chunker repositoryId commitSha filePath content embeddingModel embeddingVersion
      span).id =
        h.uuid5 (identity repositoryId filePath span
          (h.sha256 (selected content span).toUTF8)) := rfl

@[simp] theorem makeChunk_key :
    (makeChunk h chunker repositoryId commitSha filePath content embeddingModel embeddingVersion
      span).key = ⟨repositoryId, slashed filePath⟩ := rfl

end

def CodeChunker.chunk (chunker : CodeChunker) (h : Hashing) (repositoryId : Uuid)
    (commitSha filePath content embeddingModel embeddingVersion : String) :
    List CodeChunk :=
  (chunker.spans filePath content).map
    (makeChunk h chunker repositoryId commitSha filePath content embeddingModel
      embeddingVersion)

/-! ## Identities -/

theorem colon_not_mem_repr (n : Nat) : ':' ∉ (toString n).toList := by
  intro h
  rw [Nat.toString_eq_ofList_toDigits, String.toList_ofList] at h
  have hdigit : (':' : Char).isDigit :=
    Nat.isDigit_of_mem_toDigits (by decide) (by decide) h
  exact absurd hdigit (by decide)

theorem HexDigest.colon_not_mem (d : HexDigest) : ':' ∉ d.text.toList := fun h =>
  absurd (List.all_eq_true.mp d.hex ':' h) (by decide)

theorem Uuid.colon_not_mem (id : Uuid) : ':' ∉ id.text.toList := fun h =>
  absurd (List.all_eq_true.mp id.hex ':' h) (by decide)

theorem toString_nat_injective {m n : Nat} (h : toString m = toString n) : m = n := by
  have hdigits : Nat.toDigits 10 m = Nat.toDigits 10 n := by
    have := congrArg String.toList h
    simpa [Nat.toString_eq_ofList_toDigits] using this
  rw [← Nat.ofDigitChars_toDigits (b := 10) (n := m) (by decide) (by decide), hdigits,
    Nat.ofDigitChars_toDigits (by decide) (by decide)]

/-- An identity determines all it is made of, whatever characters the path holds. -/
theorem identity_inj {id id' : Uuid} {path path' : String} {span span' : Span}
    {d d' : HexDigest} (h : identity id path span d = identity id' path' span' d') :
    id = id' ∧ path = path' ∧ span.start = span'.start ∧ span.stop = span'.stop := by
  have hlist : ((((id.text.toList ++ ':' :: path.toList) ++ ':' :: (toString span.start).toList) ++
        ':' :: (toString span.stop).toList) ++ ':' :: d.text.toList) =
      ((((id'.text.toList ++ ':' :: path'.toList) ++ ':' :: (toString span'.start).toList) ++
        ':' :: (toString span'.stop).toList) ++ ':' :: d'.text.toList) := by
    have := congrArg String.toList h
    simpa [identity] using this
  obtain ⟨hlist, -⟩ := append_cons_inj_right d.colon_not_mem d'.colon_not_mem hlist
  obtain ⟨hlist, hstop⟩ :=
    append_cons_inj_right (colon_not_mem_repr _) (colon_not_mem_repr _) hlist
  obtain ⟨hlist, hstart⟩ :=
    append_cons_inj_right (colon_not_mem_repr _) (colon_not_mem_repr _) hlist
  obtain ⟨hid, hpath⟩ := append_cons_inj_left id.colon_not_mem id'.colon_not_mem hlist
  exact ⟨Uuid.ext (String.toList_inj.mp hid), String.toList_inj.mp hpath,
    toString_nat_injective (String.toList_inj.mp hstart),
    toString_nat_injective (String.toList_inj.mp hstop)⟩

/-- An identity determines the repository and the path. -/
theorem key_of_identity {id id' : Uuid} {path path' : String} {span span' : Span}
    {d d' : HexDigest} (h : identity id path span d = identity id' path' span' d') :
    id = id' ∧ path = path' :=
  ⟨(identity_inj h).1, (identity_inj h).2.1⟩

end RepoMesh
