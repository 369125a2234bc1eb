import RepoMesh.ChunkIds
import RepoMesh.LineRows

/-!
# The text of chunks

A chunk gives its place as rows, which a parser and an editor count by newlines, and
its text as lines of `str.splitlines`. The two are the same for every chunk of a file
exactly if only newlines end lines in it (`chunk_lines_exact_iff`); otherwise the
chunks behind the first other line end are shifted against their rows.
-/

namespace RepoMesh

/-- The node stands on `text`: by its bytes, and by rows that count newlines. -/
def Node.Covers (node : Node) (content text : String) : Prop :=
  ∃ before after : String, content = before ++ text ++ after ∧
    node.startByte = before.utf8ByteSize ∧ node.endByte = (before ++ text).utf8ByteSize ∧
    node.startRow = before.toList.count '\n' ∧ node.endRow = (before ++ text).toList.count '\n'

namespace Parser

/-- Every node of a tree of `content` stands on a part of it. -/
def Locates (parser : Parser) (content : String) : Prop :=
  ∀ language tree, parser.parse language content = some tree →
    ∀ node ∈ Node.preorders [tree.root], ∃ text, node.Covers content text

/-- The node is a declaration of the tree that a file is cut by. -/
def Declares (parser : Parser) (filePath content : String) (node : Node) : Prop :=
  ∃ symbols tree, symbolNodes.lookup (languageFor filePath) = some symbols ∧
    parser.parse (languageFor filePath) content = some tree ∧
    ¬ (tree.hasError = true ∧ tree.root.namedChildren.isEmpty = true) ∧
    Readable symbols (languageFor filePath) content.toUTF8 [tree.root] ∧
    node ∈ declarations symbols [tree.root]

end Parser

/-- Chunks hold the text of their rows, and each declaration that is not too long has a
chunk with its text. -/
structure ExactLines (limits : ChunkLimits) (parser : Parser) (filePath content : String)
    (chunks : List CodeChunk) : Prop where
  rows : ∀ c ∈ chunks, c.content = rowsText content c.startLine c.endLine
  declared : ∀ node text, parser.Declares filePath content node → node.Covers content text →
    node.endRow + 1 - node.startRow ≤ limits.maxLines →
    ∃ c ∈ chunks, c.startLine = node.startRow + 1 ∧ c.endLine = node.endRow + 1 ∧
      c.chunkingStrategy = "tree-sitter" ∧ rstrip text.toList <:+: c.content.toList

section

variable {h : Hashing} {limits : ChunkLimits} {parser : Parser} {importsJson : String → String}
  {repositoryId : Uuid} {commitSha filePath content embeddingModel embeddingVersion : String}

theorem mem_chunk {chunker : CodeChunker} {c : CodeChunk} :
    c ∈ chunker.chunk h repositoryId commitSha filePath content embeddingModel
        embeddingVersion ↔
      ∃ span ∈ chunker.spans filePath content, makeChunk h chunker repositoryId commitSha
        filePath content embeddingModel embeddingVersion span = c := by
  rw [CodeChunker.chunk, List.mem_map]

/-! ## Exact texts -/

theorem selected_eq_rowsText (hnew : NewlinesOnly content.toList = true) (span : Span) :
    selected content span = rowsText content span.start span.stop :=
  congrArg String.ofList ((agree_of_newlinesOnly [] hnew).spans (span.start - 1) span.stop)

/-- A declaration that is not too long is a span of its own. -/
theorem declared_span {node : Node} (hnode : parser.Declares filePath content node)
    (hshort : node.endRow + 1 - node.startRow ≤ limits.maxLines) :
    ∃ span ∈ limits.spans parser filePath content, span.start = node.startRow + 1 ∧
      span.stop = node.endRow + 1 ∧ span.strategy = "tree-sitter" := by
  obtain ⟨symbols, tree, hsymbols, hparse, husable, hread, hmem⟩ := hnode
  let c := candidateOf symbols (languageFor filePath) content.toUTF8 node
  have hc : c ∈ sortBy (fun c : Candidate => toLex (c.start, c.stop))
      ((declarations symbols [tree.root]).map
        (candidateOf symbols (languageFor filePath) content.toUTF8)) :=
    mem_sortBy.mpr (List.mem_map_of_mem hmem)
  have hspan : ⟨c.start, c.stop, c.name, some c.kind, "tree-sitter"⟩ ∈
      limits.candidateSpans c := by
    have hlines : ¬ limits.maxLines < c.stop + 1 - c.start := by
      show ¬ limits.maxLines < node.endRow + 1 + 1 - (node.startRow + 1)
      omega
    rw [ChunkLimits.candidateSpans, if_neg hlines]
    exact List.mem_singleton_self _
  refine ⟨⟨c.start, c.stop, c.name, some c.kind, "tree-sitter"⟩, ?_, rfl, rfl, rfl⟩
  have hall := List.mem_flatMap.mpr ⟨c, hc, hspan⟩
  obtain ⟨span, rest, hspans⟩ := List.exists_cons_of_ne_nil (List.ne_nil_of_mem hall)
  rw [ChunkLimits.spans_of_tree ((ChunkLimits.treeSpans_eq hsymbols hparse husable hread).trans
    (congrArg some hspans)), ← hspans]
  exact hall

/-- The rows of a node hold its text. -/
theorem Node.Covers.infix {node : Node} {text : String} (hcovers : node.Covers content text) :
    rstrip text.toList <:+:
      (rowsText content (node.startRow + 1) (node.endRow + 1)).toList := by
  obtain ⟨before, after, rfl, -, -, hstart, hend⟩ := hcovers
  obtain ⟨left, right, hrows⟩ := splitRows_part before.toList text.toList after.toList
  rw [rowsText, String.toList_ofList, hstart, hend, Nat.add_sub_cancel]
  simp only [String.toList_append, List.append_assoc]
  rw [hrows]
  exact rstrip_infix left text.toList right

theorem exactLines (hnew : NewlinesOnly content.toList = true) :
    ExactLines limits parser filePath content ((treeChunker limits parser importsJson).chunk h
      repositoryId commitSha filePath content embeddingModel embeddingVersion) where
  rows := by
    intro c hc
    obtain ⟨span, -, rfl⟩ := mem_chunk.mp hc
    exact selected_eq_rowsText hnew span
  declared := by
    intro node text hnode hcovers hshort
    obtain ⟨span, hspan, hstart, hstop, hstrategy⟩ := declared_span hnode hshort
    refine ⟨_, mem_chunk.mpr ⟨span, by rwa [treeChunker_spans], rfl⟩, hstart, hstop,
      hstrategy, ?_⟩
    show rstrip text.toList <:+: (selected content span).toList
    rw [selected_eq_rowsText hnew, hstart, hstop]
    exact hcovers.infix

/-! ## Shifted texts -/

end

/-- A text has a part before each of its newlines, and one behind the last. -/
theorem exists_count_eq {s : List Char} {i : Nat} (hi : i ≤ s.count '\n') :
    ∃ before after, s = before ++ after ∧ before.count '\n' = i := by
  induction s generalizing i with
  | nil => exact ⟨[], [], rfl, (Nat.le_zero.mp hi).symm⟩
  | cons c s ih =>
      cases i with
      | zero => exact ⟨[], c :: s, rfl, rfl⟩
      | succ i =>
          by_cases hc : c = '\n'
          · rw [hc, List.count_cons_self] at hi
            obtain ⟨before, after, rfl, hcount⟩ := ih (Nat.le_of_succ_le_succ hi)
            exact ⟨c :: before, after, rfl, by rw [hc, List.count_cons_self, hcount]⟩
          · rw [List.count_cons_of_ne hc] at hi
            obtain ⟨before, after, rfl, hcount⟩ := ih hi
            exact ⟨c :: before, after, rfl, by rw [List.count_cons_of_ne hc, hcount]⟩

/-- The tree of a module of `size` bytes up to row `last`, with one function, on row
`row`. -/
def oneRowTree (last size row startByte endByte : Nat) : ParseTree where
  root :=
    .mk "module" 0 last 0 size none none
      [.mk "function_definition" row row startByte endByte none none []]
  hasError := false

/-- A text has a tree with a function on any of its rows. -/
theorem exists_oneRowTree {content : String} {i : Nat}
    (hi : i < (splitRows [] content.toList).length) :
    ∃ parser : Parser, parser.Locates content ∧ ∃ node text, node.Covers content text ∧
      parser.Declares "a.py" content node ∧ node.startRow = i ∧ node.endRow = i := by
  rw [splitRows_length] at hi
  obtain ⟨before, after, hcontent, hcount⟩ := exists_count_eq (Nat.le_of_lt_succ hi)
  let text := after.takeWhile (· ≠ '\n')
  have htext : text.count '\n' = 0 := by
    rw [List.count_eq_zero]
    intro hmem
    simpa using List.mem_takeWhile_imp hmem
  have hsplit : content = String.ofList before ++ String.ofList text ++
      String.ofList (after.dropWhile (· ≠ '\n')) := by
    rw [← String.toList_inj, hcontent]
    simp [text]
  have hend : (String.ofList before ++ String.ofList text).toList.count '\n' = i := by
    simp [hcount, htext]
  let node : Node := .mk "function_definition" i i (String.ofList before).utf8ByteSize
    (String.ofList before ++ String.ofList text).utf8ByteSize none none []
  let tree := oneRowTree (content.toList.count '\n') content.utf8ByteSize i
    (String.ofList before).utf8ByteSize
    (String.ofList before ++ String.ofList text).utf8ByteSize
  have hnode : node.Covers content (String.ofList text) :=
    ⟨_, _, hsplit, rfl, rfl, by simpa [node, Node.startRow] using hcount.symm, hend.symm⟩
  have hroot : tree.root.Covers content content :=
    ⟨"", "", by simp, rfl, by simp [tree, oneRowTree, Node.endByte], rfl, by
      simp [tree, oneRowTree, Node.endRow]⟩
  have hdeclarations : declarations [("function_definition", "function"),
      ("class_definition", "class")] [tree.root] = [node] := by
    rfl
  refine ⟨⟨fun _ _ => some tree⟩, ?_, node, String.ofList text, hnode, ?_, rfl, rfl⟩
  · rintro language tree' htree node' hnode'
    obtain rfl := Option.some.inj htree
    have hmem : node' ∈ [tree.root, node] := hnode'
    rcases List.mem_pair.mp hmem with rfl | rfl
    · exact ⟨content, hroot⟩
    · exact ⟨String.ofList text, hnode⟩
  · refine ⟨_, tree, rfl, rfl, ?_, ?_, ?_⟩
    · rintro ⟨herror, -⟩
      cases herror
    · intro node' hnode'
      rw [hdeclarations] at hnode'
      obtain rfl := List.mem_singleton.mp hnode'
      rfl
    · rw [hdeclarations]
      exact List.mem_singleton_self _

/-- The chunks of a text have the text of their rows and hold its declarations, for
every tree of it, iff only newlines end its lines. -/
theorem chunk_lines_exact_iff (h : Hashing) (limits : ChunkLimits)
    (importsJson : String → String) (repositoryId : Uuid)
    (commitSha embeddingModel embeddingVersion content : String) :
    (∀ (parser : Parser) (filePath : String), parser.Locates content →
      ExactLines limits parser filePath content ((treeChunker limits parser importsJson).chunk h
        repositoryId commitSha filePath content embeddingModel embeddingVersion)) ↔
      NewlinesOnly content.toList = true := by
  constructor
  · intro hexact
    refine newlinesOnly_of_rows [] fun i hi => ?_
    obtain ⟨parser, hlocates, node, text, hcovers, hdeclares, hstart, hend⟩ :=
      exists_oneRowTree hi
    have hlines := hexact parser "a.py" hlocates
    have hpos := limits.maxLines_pos
    obtain ⟨c, hc, hfirst, hlast, -, -⟩ :=
      hlines.declared node text hdeclares hcovers (by omega)
    have hrow := hlines.rows c hc
    obtain ⟨span, -, rfl⟩ := mem_chunk.mp hc
    change span.start = _ at hfirst
    change span.stop = _ at hlast
    change selected content span = rowsText content span.start span.stop at hrow
    rw [selected, rowsText, hfirst, hlast, hstart, hend] at hrow
    have hspan := String.ofList_injective hrow
    rw [Nat.add_sub_cancel, flatten_span, flatten_span] at hspan
    exact hspan
  · intro hnew parser filePath _
    exact exactLines hnew

/-! ### A form feed in a comment -/

/-- A comment with a form feed in it above a function. -/
def formFeedText : String := "# a\x0cb\ndef f():\n    return 1\n"

/-- Its tree: the function is on rows 1 and 2. -/
def formFeedTree : ParseTree where
  root :=
    .mk "module" 0 3 0 28 none none
      [.mk "comment" 0 0 0 5 none none [],
        .mk "function_definition" 1 2 6 27 (some (.mk "identifier" 1 1 10 11 none none [])) none
          [.mk "identifier" 1 1 10 11 none none [], .mk "parameters" 1 1 11 13 none none [],
            .mk "block" 2 2 19 27 none none [.mk "return_statement" 2 2 19 27 none none
              [.mk "integer" 2 2 26 27 none none []]]]]
  hasError := false

def formFeedParser : Parser := ⟨fun _ _ => some formFeedTree⟩

theorem formFeedText_spans :
    ChunkLimits.default.spans formFeedParser "a.py" formFeedText =
      [⟨2, 3, some "f", some "function", "tree-sitter"⟩] := by
  decide +kernel

theorem formFeedParser_locates : formFeedParser.Locates formFeedText := by
  rintro language tree htree node hnode
  obtain rfl := Option.some.inj htree
  simp only [formFeedTree, Node.preorders, Node.preorder, List.nil_append, List.cons_append,
    List.append_nil, List.mem_cons, List.not_mem_nil, or_false] at hnode
  rcases hnode with rfl | rfl | rfl | rfl | rfl | rfl | rfl | rfl
  · exact ⟨"# a\x0cb\ndef f():\n    return 1\n", "", "", by decide +kernel⟩
  · exact ⟨"# a\x0cb", "", "\ndef f():\n    return 1\n", by decide +kernel⟩
  · exact ⟨"def f():\n    return 1", "# a\x0cb\n", "\n", by decide +kernel⟩
  · exact ⟨"f", "# a\x0cb\ndef ", "():\n    return 1\n", by decide +kernel⟩
  · exact ⟨"()", "# a\x0cb\ndef f", ":\n    return 1\n", by decide +kernel⟩
  · exact ⟨"return 1", "# a\x0cb\ndef f():\n    ", "\n", by decide +kernel⟩
  · exact ⟨"return 1", "# a\x0cb\ndef f():\n    ", "\n", by decide +kernel⟩
  · exact ⟨"1", "# a\x0cb\ndef f():\n    return ", "\n", by decide +kernel⟩

/-- The chunk of the function has the end of the comment and lacks the body. -/
theorem chunk_lines_shifted_formFeed :
    formFeedParser.Locates formFeedText ∧
    ((treeChunker .default formFeedParser fun _ => "[]").chunk declarationHashing sourceId "c1"
      "a.py" formFeedText "deterministic-hash" "1").map
        (fun c => (c.startLine, c.endLine, c.content)) = [(2, 3, "b\ndef f():")] ∧
    rowsText formFeedText 2 3 = "def f():\n    return 1" ∧
    ¬ ExactLines .default formFeedParser "a.py" formFeedText
      ((treeChunker .default formFeedParser fun _ => "[]").chunk declarationHashing sourceId "c1"
        "a.py" formFeedText "deterministic-hash" "1") := by
  have hchunk : ((treeChunker .default formFeedParser fun _ => "[]").chunk declarationHashing
      sourceId "c1" "a.py" formFeedText "deterministic-hash" "1").map
        (fun c => (c.startLine, c.endLine, c.content)) = [(2, 3, "b\ndef f():")] := by
    have htext : selected formFeedText ⟨2, 3, some "f", some "function", "tree-sitter"⟩ =
        "b\ndef f():" := by
      decide +kernel
    rw [CodeChunker.chunk, List.map_map, treeChunker_spans, formFeedText_spans]
    exact congrArg (fun text => [(2, 3, text)]) htext
  have hrows : rowsText formFeedText 2 3 = "def f():\n    return 1" := by
    decide +kernel
  refine ⟨formFeedParser_locates, hchunk, hrows, fun hexact => ?_⟩
  obtain ⟨c, hc, hline⟩ := List.mem_map.mp (hchunk ▸ List.mem_singleton_self _)
  obtain ⟨hstart, hstop, hcontent⟩ : c.startLine = 2 ∧ c.endLine = 3 ∧
      c.content = "b\ndef f():" := by
    simpa using hline
  have hrow := hexact.rows c hc
  rw [hstart, hstop, hcontent, hrows] at hrow
  exact absurd hrow (by decide)

end RepoMesh
