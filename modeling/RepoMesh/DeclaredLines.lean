import RepoMesh.ChunkSpans

/-!
# Declared lines

Every declaration of a tree, at every depth, is cut into chunks once, and its chunks
cover its lines (`no_declared_line_dropped`): one chunk, or windows that slide over it
until one of them reaches its end. A file without declarations is cut by the same windows.
-/

namespace RepoMesh

/-! ## What tree-sitter says of its trees -/

/-- The bytes of the node are whole characters of the text. -/
def Node.StandsOn (node : Node) (content : String) : Prop :=
  ∃ before text after : String, content = before ++ text ++ after ∧
    node.startByte = before.utf8ByteSize ∧ node.endByte = (before ++ text).utf8ByteSize

theorem Node.StandsOn.decodes {node : Node} {content : String} (h : node.StandsOn content) :
    (String.fromUTF8? (content.toUTF8.extract node.startByte node.endByte)).isSome = true := by
  obtain ⟨before, text, after, rfl, hstart, hend⟩ := h
  have hextract : (before ++ text ++ after).toUTF8.extract node.startByte node.endByte =
      text.toUTF8 := by
    rw [hstart, hend, String.append_assoc, String.utf8ByteSize_append]
    simp only [String.toUTF8_eq_toByteArray, String.toByteArray_append]
    exact (ByteArray.extract_append_size_add' (i := 0) String.size_toByteArray.symm).trans
      (ByteArray.extract_append_eq_left String.size_toByteArray.symm)
  rw [hextract, String.fromUTF8?, dif_pos]
  · rfl
  · exact text.isValidUTF8

/-- A tree of `content`: the nodes that names are read from stand on parts of the text, and
a root with an error and nothing below it is the error, not a declaration. -/
structure ParseTree.WellFormed (tree : ParseTree) (symbols : List (String × String))
    (content : String) : Prop where
  names : ∀ node ∈ declarations symbols [tree.root], ∀ name ∈ node.name, name.StandsOn content
  declarators : ∀ node ∈ declarations symbols [tree.root], ∀ declarator ∈ node.declarator,
    ∀ part ∈ declarator.preorder, part.StandsOn content
  error_root : tree.hasError = true → tree.root.namedChildren.isEmpty = true →
    symbols.lookup tree.root.type = none

/-! ## The walk -/

section

variable {symbols : List (String × String)} {language content : String} {tree : ParseTree}

/-- The names of a well-formed tree decode, so the walk does not raise. -/
theorem ParseTree.WellFormed.readable (h : tree.WellFormed symbols content) :
    Readable symbols language content.toUTF8 [tree.root] := by
  intro node hnode
  have hname : ∀ name : Node, name.StandsOn content →
      ((String.fromUTF8? (content.toUTF8.extract name.startByte name.endByte)).map some).isSome =
        true := by
    intro name hstands
    rw [Option.isSome_map]
    exact hstands.decodes
  unfold declaredName
  cases hfield : node.name with
  | some name => exact hname name (h.names node hnode name hfield)
  | none =>
      simp only
      by_cases hcpp : language = "cpp"
      · rw [if_pos hcpp]
        cases hdeclarator : node.declarator with
        | none => rfl
        | some declarator =>
            rw [Option.bind_some]
            cases hfound : declarator.findIdentifier with
            | none => rfl
            | some name =>
                exact hname name (h.declarators node hnode declarator hdeclarator name
                  (Node.findIdentifier_mem declarator hfound))
      · rw [if_neg hcpp]
        rfl

/-- A root that is read for an error has no declarations. -/
theorem ParseTree.WellFormed.no_declarations (h : tree.WellFormed symbols content)
    (herror : tree.hasError = true ∧ tree.root.namedChildren.isEmpty = true) :
    declarations symbols [tree.root] = [] := by
  rw [declarations_cons, h.error_root herror.1 herror.2, List.isEmpty_iff.mp herror.2]
  rfl

end

/-! ## The chunks of one declaration -/

/-- The lines of a chunk. -/
def CodeChunk.range (c : CodeChunk) : Nat × Nat := (c.startLine, c.endLine)

namespace ChunkLimits

/-- The lines from `first` to `last` are cut into these. -/
structure Cuts (limits : ChunkLimits) (first last : Nat) (ranges : List (Nat × Nat)) : Prop where
  covers : ∀ line, first ≤ line → line ≤ last → ∃ r ∈ ranges, r.1 ≤ line ∧ line ≤ r.2
  inside : ∀ r ∈ ranges, first ≤ r.1 ∧ r.2 ≤ last
  short : ∀ r ∈ ranges, r.2 + 1 - r.1 ≤ max limits.maxLines limits.fallbackLines
  increasing : ranges.Pairwise fun r r' => r.1 < r'.1
  /-- neighbours have these lines in common -/
  overlaps : ranges.IsChain fun r r' => (Finset.Icc r.1 r.2 ∩ Finset.Icc r'.1 r'.2).card =
    min limits.overlap (limits.fallbackLines - 1)
  full : ∀ r ∈ ranges.dropLast, r.2 + 1 - r.1 = limits.fallbackLines ∧ r.2 < last
  ends : ∀ r ∈ ranges.getLast?, r.2 = last

variable {limits : ChunkLimits} {first last : Nat}

theorem overlap_eq : limits.fallbackLines - limits.step =
    min limits.overlap (limits.fallbackLines - 1) := by
  have hpos := limits.fallbackLines_pos
  rw [step]
  omega

theorem Cuts.of_slides {ranges : List (Nat × Nat)}
    (h : Slides limits.fallbackLines limits.step last first ranges) :
    limits.Cuts first last ranges where
  covers _ hfirst hlast := h.covers limits.step_le hfirst hlast
  inside := h.inside
  short r hr := le_trans (h.length_le limits.fallbackLines_pos r hr) (le_max_right _ _)
  increasing := h.increasing limits.step_pos
  overlaps := by
    rw [← overlap_eq]
    exact h.overlaps limits.fallbackLines_pos
  full := h.full limits.fallbackLines_pos
  ends := h.ends

/-- A declaration that is not too long is a chunk of its own. -/
theorem Cuts.whole (h : last + 1 - first ≤ limits.maxLines) :
    limits.Cuts first last [(first, last)] where
  covers line hfirst hlast := ⟨_, List.mem_singleton_self _, hfirst, hlast⟩
  inside r hr := by
    rw [List.mem_singleton.mp hr]
    exact ⟨le_rfl, le_rfl⟩
  short r hr := by
    rw [List.mem_singleton.mp hr]
    exact le_trans h (le_max_left _ _)
  increasing := List.pairwise_singleton _ _
  overlaps := List.IsChain.singleton _
  full r hr := absurd hr List.not_mem_nil
  ends r hr := by
    obtain rfl := Option.mem_some.mp hr
    rfl

theorem cuts_candidateSpans (c : Candidate) :
    limits.Cuts c.start c.stop ((limits.candidateSpans c).map Span.range) := by
  unfold candidateSpans
  split
  · rename_i hlong
    rw [range_lineWindows]
    exact .of_slides (windowsFrom_slides (by omega))
  · rename_i hshort
    exact .whole (Nat.le_of_not_lt hshort)

theorem cuts_fallbackSpans (content : String) :
    limits.Cuts 1 (max 1 (splitLines [] content.toList).length)
      ((limits.fallbackSpans content).map Span.range) := by
  rw [fallbackSpans, range_lineWindows]
  exact .of_slides (windowsFrom_slides (le_max_left _ _))

/-- Windows carry what they are given. -/
theorem mem_lineWindows {name kind : Option String} {strategy : String} {span : Span}
    (h : span ∈ limits.lineWindows first last name kind strategy) :
    span.name = name ∧ span.kind = kind := by
  obtain ⟨w, -, rfl⟩ := List.mem_map.mp h
  exact ⟨rfl, rfl⟩

theorem candidateSpans_carry {c : Candidate} {span : Span} (h : span ∈ limits.candidateSpans c) :
    span.name = c.name ∧ span.kind = some c.kind := by
  unfold candidateSpans at h
  split at h
  · exact mem_lineWindows h
  · rw [List.mem_singleton.mp h]
    exact ⟨rfl, rfl⟩

end ChunkLimits

/-! ## The chunks of a file -/

section

variable (limits : ChunkLimits) (h : Hashing) (parser : Parser) (importsJson : String → String)
  (repositoryId : Uuid) (commitSha filePath content embeddingModel embeddingVersion : String)

namespace ChunkLimits

/-- `_tree_sitter_chunks`, or nothing where it raises. -/
def treeSitterChunks : Option (List CodeChunk) :=
  (limits.treeSpans parser (languageFor filePath) content).map fun spans =>
    spans.map (makeChunk h (treeChunker limits parser importsJson) repositoryId commitSha filePath
      content embeddingModel embeddingVersion)

/-- `_fallback_chunks`. -/
def fallbackChunks : List CodeChunk :=
  (limits.fallbackSpans content).map (makeChunk h (treeChunker limits parser importsJson)
    repositoryId commitSha filePath content embeddingModel embeddingVersion)

/-- The chunks are cut from the declarations below `root`, from each of them once, and carry
its name and kind. -/
def CutsDeclarations (symbols : List (String × String)) (language : String) (source : ByteArray)
    (root : Node) (chunks : List CodeChunk) : Prop :=
  ∃ (nodes : List Node) (cut : Node → List CodeChunk),
    nodes.Perm (declarations symbols [root]) ∧ chunks = nodes.flatMap cut ∧
    ∀ node ∈ nodes,
      limits.Cuts (node.startRow + 1) (node.endRow + 1) ((cut node).map CodeChunk.range) ∧
      ∀ c ∈ cut node, declaredName language source node = some c.symbolName ∧
        symbols.lookup node.type = c.symbolKind

variable {limits h parser importsJson repositoryId commitSha filePath content embeddingModel
  embeddingVersion} {symbols : List (String × String)} {tree : ParseTree}

/-- A chunk has the lines, the name and the kind of its span. -/
theorem cuts_declaration {node : Node} (hnode : node ∈ declarations symbols [tree.root])
    (hread : Readable symbols (languageFor filePath) content.toUTF8 [tree.root])
    {make : Span → CodeChunk} (hrange : ∀ span, (make span).range = span.range)
    (hname : ∀ span, (make span).symbolName = span.name)
    (hkind : ∀ span, (make span).symbolKind = span.kind) :
    limits.Cuts (node.startRow + 1) (node.endRow + 1) (((limits.candidateSpans
        (candidateOf symbols (languageFor filePath) content.toUTF8 node)).map make).map
          CodeChunk.range) ∧
      ∀ c ∈ (limits.candidateSpans
          (candidateOf symbols (languageFor filePath) content.toUTF8 node)).map make,
        declaredName (languageFor filePath) content.toUTF8 node = some c.symbolName ∧
          symbols.lookup node.type = c.symbolKind := by
  constructor
  · rw [List.map_map, funext (f := CodeChunk.range ∘ make) (g := Span.range) hrange]
    exact cuts_candidateSpans (candidateOf symbols (languageFor filePath) content.toUTF8 node)
  · intro c hc
    obtain ⟨span, hspan, rfl⟩ := List.mem_map.mp hc
    obtain ⟨hspanName, hspanKind⟩ := candidateSpans_carry hspan
    obtain ⟨name, hdeclared⟩ := Option.isSome_iff_exists.mp (hread node hnode)
    obtain ⟨kind, hsymbol⟩ := Option.isSome_iff_exists.mp (List.mem_filter.mp hnode).2
    rw [hname, hkind, hspanName, hspanKind, candidateOf, hdeclared, hsymbol]
    exact ⟨rfl, rfl⟩

variable (limits h parser importsJson repositoryId commitSha filePath content embeddingModel
  embeddingVersion) in
/-- Every declaration of a well-formed tree is cut once. -/
theorem treeSitterChunks_cut (hsymbols : symbolNodes.lookup (languageFor filePath) = some symbols)
    (hparse : parser.parse (languageFor filePath) content = some tree)
    (htree : tree.WellFormed symbols content) :
    ∃ chunks, limits.treeSitterChunks h parser importsJson repositoryId commitSha filePath content
        embeddingModel embeddingVersion = some chunks ∧
      limits.CutsDeclarations symbols (languageFor filePath) content.toUTF8 tree.root chunks := by
  have hread : Readable symbols (languageFor filePath) content.toUTF8 [tree.root] :=
    htree.readable
  by_cases hempty : tree.hasError = true ∧ tree.root.namedChildren.isEmpty = true
  · refine ⟨[], ?_, [], fun _ => [], ?_, rfl, fun node hnode => absurd hnode List.not_mem_nil⟩
    · unfold treeSitterChunks treeSpans
      rw [hsymbols]
      simp only [hparse, Option.bind_some]
      rw [if_pos hempty]
      rfl
    · rw [htree.no_declarations hempty]
  · rw [treeSitterChunks, treeSpans_eq hsymbols hparse hempty hread, Option.map_some,
      ← sortBy_map]
    refine ⟨_, rfl, sortBy (fun node => toLex (node.startRow + 1, node.endRow + 1))
      (declarations symbols [tree.root]), fun node => (limits.candidateSpans (candidateOf symbols
        (languageFor filePath) content.toUTF8 node)).map (makeChunk h
          (treeChunker limits parser importsJson) repositoryId commitSha filePath content
          embeddingModel embeddingVersion), sortBy_perm _ _, ?_, ?_⟩
    · rw [List.flatMap_map, List.map_flatMap]
      rfl
    · intro node hnode
      exact cuts_declaration (mem_sortBy.mp hnode) hread (fun _ => rfl) (fun _ => rfl) fun _ => rfl

/-- Each line of a declaration, at whatever depth, is in one of the chunks that are its own. -/
theorem CutsDeclarations.covers {language : String} {source : ByteArray} {root node : Node}
    {chunks : List CodeChunk} (hcut : limits.CutsDeclarations symbols language source root chunks)
    (hbelow : Relation.ReflTransGen Node.IsChild root node)
    (hsymbol : (symbols.lookup node.type).isSome = true) {line : Nat}
    (hfirst : node.startRow + 1 ≤ line) (hlast : line ≤ node.endRow + 1) :
    ∃ c ∈ chunks, c.startLine ≤ line ∧ line ≤ c.endLine ∧
      declaredName language source node = some c.symbolName ∧
      symbols.lookup node.type = c.symbolKind := by
  obtain ⟨nodes, cut, hperm, rfl, hall⟩ := hcut
  have hpreorder : node ∈ Node.preorders [root] := by
    rw [Node.preorders, Node.preorders, List.append_nil]
    exact Node.mem_preorder.mpr hbelow
  have hmem : node ∈ nodes := hperm.mem_iff.mpr (List.mem_filter.mpr ⟨hpreorder, hsymbol⟩)
  obtain ⟨hlines, hcarry⟩ := hall node hmem
  obtain ⟨r, hr, hin⟩ := hlines.covers line hfirst hlast
  obtain ⟨c, hc, rfl⟩ := List.mem_map.mp hr
  exact ⟨c, List.mem_flatMap.mpr ⟨node, hmem, hc⟩, hin.1, hin.2, hcarry c hc⟩

end ChunkLimits

/-- No declared line is dropped. The tree's chunks are cut from its declarations, from each
once, and each line of a declaration is in a chunk with its name and kind; the line fallback
cuts the whole file in the same way. -/
theorem no_declared_line_dropped :
    (∀ symbols tree, symbolNodes.lookup (languageFor filePath) = some symbols →
      parser.parse (languageFor filePath) content = some tree → tree.WellFormed symbols content →
      ∃ chunks, limits.treeSitterChunks h parser importsJson repositoryId commitSha filePath
          content embeddingModel embeddingVersion = some chunks ∧
        limits.CutsDeclarations symbols (languageFor filePath) content.toUTF8 tree.root chunks ∧
        ∀ node, Relation.ReflTransGen Node.IsChild tree.root node →
          (symbols.lookup node.type).isSome = true →
          ∀ line, node.startRow + 1 ≤ line → line ≤ node.endRow + 1 →
          ∃ c ∈ chunks, c.startLine ≤ line ∧ line ≤ c.endLine ∧
            declaredName (languageFor filePath) content.toUTF8 node = some c.symbolName ∧
            symbols.lookup node.type = c.symbolKind) ∧
    limits.Cuts 1 (max 1 (splitLines [] content.toList).length)
      ((limits.fallbackChunks h parser importsJson repositoryId commitSha filePath content
        embeddingModel embeddingVersion).map CodeChunk.range) := by
  constructor
  · intro symbols tree hsymbols hparse htree
    obtain ⟨chunks, hchunks, hcut⟩ := limits.treeSitterChunks_cut h parser importsJson
      repositoryId commitSha filePath content embeddingModel embeddingVersion hsymbols hparse htree
    exact ⟨chunks, hchunks, hcut, fun node hbelow hsymbol line hfirst hlast =>
      hcut.covers hbelow hsymbol hfirst hlast⟩
  · have hcuts := limits.cuts_fallbackSpans content
    rw [ChunkLimits.fallbackChunks, List.map_map]
    exact hcuts

end

/-! ### A method within a class -/

/-- At most two lines a chunk, and windows of two that overlap by more than they have. -/
def narrowLimits : ChunkLimits := ⟨2, 2, 5, by decide, by decide⟩

def nestedText : String := "class A:\n    def f(self):\n        return 1\n"

def nestedMethod : Node :=
  .mk "function_definition" 1 2 13 42 (some (.mk "identifier" 1 1 17 18 none none [])) none
    [.mk "identifier" 1 1 17 18 none none [], .mk "parameters" 1 1 18 24 none none [],
      .mk "block" 2 2 34 42 none none []]

def nestedTree : ParseTree where
  root :=
    .mk "module" 0 3 0 43 none none
      [.mk "class_definition" 0 2 0 42 (some (.mk "identifier" 0 0 6 7 none none [])) none
        [.mk "identifier" 0 0 6 7 none none [], .mk "block" 1 2 13 42 none none [nestedMethod]]]
  hasError := false

/-- The SHA-256 of the texts of the chunks, and the UUIDs of their names. -/
def nestedHashing : Hashing where
  sha256 bytes :=
    if bytes.data = "class A:\n    def f(self):".toUTF8.data then
      ⟨"80449978a09d51bfc02f2c8dd7ae904deb9120421858156a6e884d597045bb24", by decide⟩
    else ⟨"e82c3d110e5d611eafb692eb7582e9a8d09e16ea36f8b042f52b3dff13822d85", by decide⟩
  uuid5 name :=
    if name = "4ec38a97-8ddd-5515-a93b-30efd4b834f4:a.py:1:2:" ++
        "80449978a09d51bfc02f2c8dd7ae904deb9120421858156a6e884d597045bb24" then
      ⟨"2d941070-3b40-51b9-8c1e-9bb1f39bc4c1", by decide⟩
    else ⟨"091ffd86-7087-543c-97a1-2e1e87e4e334", by decide⟩

theorem declarations_nestedTree :
    declarations [("function_definition", "function"), ("class_definition", "class")]
        [nestedTree.root] =
      [.mk "class_definition" 0 2 0 42 (some (.mk "identifier" 0 0 6 7 none none [])) none
        [.mk "identifier" 0 0 6 7 none none [], .mk "block" 1 2 13 42 none none [nestedMethod]],
        nestedMethod] := by
  rfl

theorem nestedTree_wellFormed :
    nestedTree.WellFormed [("function_definition", "function"), ("class_definition", "class")]
      nestedText where
  names := by
    intro node hnode name hname
    rw [declarations_nestedTree] at hnode
    rcases List.mem_pair.mp hnode with rfl | rfl
    · obtain rfl := Option.mem_some.mp hname
      exact ⟨"class ", "A", ":\n    def f(self):\n        return 1\n", by decide +kernel⟩
    · obtain rfl := Option.mem_some.mp hname
      exact ⟨"class A:\n    def ", "f", "(self):\n        return 1\n", by decide +kernel⟩
  declarators := by
    intro node hnode declarator hdeclarator
    rw [declarations_nestedTree] at hnode
    rcases List.mem_pair.mp hnode with rfl | rfl
    · cases hdeclarator
    · cases hdeclarator
  error_root := by
    intro herror
    cases herror

/-- The class is cut into windows, and the last line of its method is in a chunk of the method. -/
theorem no_declared_line_dropped_nested :
    (narrowLimits.treeSpans ⟨fun _ _ => some nestedTree⟩ "python" nestedText).map
        (List.map Span.range) = some [(1, 2), (2, 3), (2, 3)] ∧
    ∃ chunks, narrowLimits.treeSitterChunks nestedHashing ⟨fun _ _ => some nestedTree⟩
        (fun _ => "[]") ⟨"4ec38a97-8ddd-5515-a93b-30efd4b834f4", rfl⟩ "c1" "a.py" nestedText
        "deterministic-hash" "1" = some chunks ∧
      ∃ c ∈ chunks, c.startLine ≤ 3 ∧ 3 ≤ c.endLine ∧ c.symbolName = some "f" ∧
        c.symbolKind = some "function" := by
  refine ⟨by decide +kernel, ?_⟩
  obtain ⟨chunks, hchunks, -, hcovers⟩ := (no_declared_line_dropped narrowLimits nestedHashing
    ⟨fun _ _ => some nestedTree⟩ (fun _ => "[]") ⟨"4ec38a97-8ddd-5515-a93b-30efd4b834f4", rfl⟩ "c1"
    "a.py" nestedText "deterministic-hash" "1").1 _ nestedTree (by decide +kernel) rfl
      nestedTree_wellFormed
  have hbelow : nestedMethod ∈ nestedTree.root.preorder := by
    simp [nestedTree, nestedMethod, Node.preorder, Node.preorders]
  obtain ⟨c, hc, hfirst, hlast, hname, hkind⟩ := hcovers nestedMethod
    (Node.mem_preorder.mp hbelow) (by decide) 3 (by decide) (by decide)
  have hdeclared : declaredName (languageFor "a.py") nestedText.toUTF8 nestedMethod =
      some (some "f") := by decide +kernel
  rw [hdeclared] at hname
  exact ⟨chunks, hchunks, c, hc, hfirst, hlast, (Option.some.inj hname).symm, hkind.symm⟩

end RepoMesh
