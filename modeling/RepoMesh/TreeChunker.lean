import Mathlib.Data.Prod.Lex
import Mathlib.Logic.Relation
import RepoMesh.Chunk
import RepoMesh.Discover

/-!
# The tree-sitter chunker

`CodeChunker` itself: which lines of a file it makes chunks of. The parser is
outside; what it answers is a `ParseTree`, of which the chunker reads types, rows,
named children, and the bytes of the nodes that name a declaration. A file without
a usable tree is cut into overlapping windows of lines.
-/

namespace RepoMesh

/-! ## Parse trees -/

/-- A node of a parse tree with its `name` and `declarator` fields. -/
inductive Node where
  | mk (type : String) (startRow endRow startByte endByte : Nat) (name declarator : Option Node)
      (namedChildren : List Node)

namespace Node

def type : Node → String
  | .mk type _ _ _ _ _ _ _ => type

def startRow : Node → Nat
  | .mk _ startRow _ _ _ _ _ _ => startRow

def endRow : Node → Nat
  | .mk _ _ endRow _ _ _ _ _ => endRow

def startByte : Node → Nat
  | .mk _ _ _ startByte _ _ _ _ => startByte

def endByte : Node → Nat
  | .mk _ _ _ _ endByte _ _ _ => endByte

def name : Node → Option Node
  | .mk _ _ _ _ _ name _ _ => name

def declarator : Node → Option Node
  | .mk _ _ _ _ _ _ declarator _ => declarator

def namedChildren : Node → List Node
  | .mk _ _ _ _ _ _ _ namedChildren => namedChildren

mutual

/-- The nodes below and including a node, in document order. -/
def preorder : Node → List Node
  | .mk type startRow endRow startByte endByte name declarator children =>
      .mk type startRow endRow startByte endByte name declarator children :: preorders children

def preorders : List Node → List Node
  | [] => []
  | node :: nodes => preorder node ++ preorders nodes

end

theorem preorder_eq (node : Node) : node.preorder = node :: preorders node.namedChildren := by
  cases node
  rfl

theorem preorders_append (nodes nodes' : List Node) :
    preorders (nodes ++ nodes') = preorders nodes ++ preorders nodes' := by
  induction nodes with
  | nil => rfl
  | cons node nodes ih => rw [List.cons_append, preorders, preorders, ih, List.append_assoc]

/-- A node that the walk pushes for its parent. -/
def IsChild (parent child : Node) : Prop := child ∈ parent.namedChildren

mutual

theorem reaches_of_mem_preorder : (root : Node) → {node : Node} → node ∈ root.preorder →
    Relation.ReflTransGen IsChild root node
  | .mk type startRow endRow startByte endByte name declarator children, node, h => by
      rw [preorder] at h
      rcases List.mem_cons.mp h with rfl | h
      · exact .refl
      · obtain ⟨child, hchild, hreach⟩ := reaches_of_mem_preorders children h
        exact .head hchild hreach

theorem reaches_of_mem_preorders : (nodes : List Node) → {node : Node} → node ∈ preorders nodes →
    ∃ child ∈ nodes, Relation.ReflTransGen IsChild child node
  | [], node, h => absurd h List.not_mem_nil
  | child :: children, node, h => by
      rw [preorders] at h
      rcases List.mem_append.mp h with h | h
      · exact ⟨child, List.mem_cons_self, reaches_of_mem_preorder child h⟩
      · obtain ⟨other, hother, hreach⟩ := reaches_of_mem_preorders children h
        exact ⟨other, List.mem_cons_of_mem _ hother, hreach⟩

end

theorem preorder_subset {nodes : List Node} {node : Node} (h : node ∈ nodes) :
    node.preorder ⊆ preorders nodes := by
  induction nodes with
  | nil => cases h
  | cons first nodes ih =>
      rw [preorders]
      rcases List.mem_cons.mp h with rfl | h
      · exact List.subset_append_left _ _
      · exact List.subset_append_of_subset_right _ (ih h)

/-- The nodes in document order are those at every depth below the first. -/
theorem mem_preorder {root node : Node} :
    node ∈ root.preorder ↔ Relation.ReflTransGen IsChild root node := by
  constructor
  · exact reaches_of_mem_preorder root
  · intro h
    induction h using Relation.ReflTransGen.head_induction_on with
    | refl =>
        rw [preorder_eq]
        exact List.mem_cons_self
    | head hchild _ ih =>
        rw [preorder_eq]
        exact List.mem_cons_of_mem _ (preorder_subset hchild ih)

mutual

/-- `_find_identifier`, without the recursion limit of the interpreter. -/
def findIdentifier : Node → Option Node
  | .mk type startRow endRow startByte endByte name declarator children =>
      if type ∈ ["identifier", "field_identifier", "qualified_identifier"] then
        some (.mk type startRow endRow startByte endByte name declarator children)
      else findIdentifiers children

def findIdentifiers : List Node → Option Node
  | [] => none
  | child :: children =>
      match findIdentifier child with
      | some found => some found
      | none => findIdentifiers children

end

mutual

theorem findIdentifier_mem : (node : Node) → {found : Node} →
    node.findIdentifier = some found → found ∈ node.preorder
  | .mk type startRow endRow startByte endByte name declarator children, found, h => by
      rw [findIdentifier] at h
      rw [preorder]
      split at h
      · rw [← Option.some.inj h]
        exact List.mem_cons_self
      · exact List.mem_cons_of_mem _ (findIdentifiers_mem children h)

theorem findIdentifiers_mem : (nodes : List Node) → {found : Node} →
    findIdentifiers nodes = some found → found ∈ preorders nodes
  | [], found, h => by
      rw [findIdentifiers] at h
      cases h
  | child :: children, found, h => by
      rw [findIdentifiers] at h
      rw [preorders]
      split at h
      · rename_i hchild
        rw [← Option.some.inj h]
        exact List.mem_append_left _ (findIdentifier_mem child hchild)
      · exact List.mem_append_right _ (findIdentifiers_mem children h)

end

end Node

structure ParseTree where
  root : Node
  hasError : Bool

/-- `get_parser(language).parse(content)`, or nothing when that raises. -/
structure Parser where
  parse : String → String → Option ParseTree

/-! ## Languages -/

def languages : List (String × String) :=
  [(".py", "python"), (".java", "java"), (".js", "javascript"), (".jsx", "javascript"),
    (".mjs", "javascript"), (".ts", "typescript"), (".tsx", "typescript"), (".cpp", "cpp"),
    (".cc", "cpp"), (".cxx", "cpp"), (".hpp", "cpp"), (".h", "cpp"), (".html", "html"),
    (".htm", "html"), (".css", "css"), (".md", "text"), (".toml", "text"), (".yaml", "text"),
    (".yml", "text"), (".json", "text")]

/-- The declarations of each language that a tree is read for, with their kind. -/
def symbolNodes : List (String × List (String × String)) :=
  [("python", [("function_definition", "function"), ("class_definition", "class")]),
    ("java",
      [("class_declaration", "class"), ("interface_declaration", "interface"),
        ("method_declaration", "method"), ("constructor_declaration", "constructor")]),
    ("javascript",
      [("function_declaration", "function"), ("method_definition", "method"),
        ("class_declaration", "class"), ("generator_function_declaration", "function")]),
    ("typescript",
      [("function_declaration", "function"), ("method_definition", "method"),
        ("class_declaration", "class"), ("interface_declaration", "interface"),
        ("type_alias_declaration", "type"), ("enum_declaration", "enum")]),
    ("cpp",
      [("function_definition", "function"), ("class_specifier", "class"),
        ("struct_specifier", "struct"), ("namespace_definition", "namespace")])]

/-- `Path(file_path).suffix`. -/
def pathSuffix (filePath : String) : String :=
  let parts := (filePath.toList.splitOn '/').filter fun part => part ≠ [] ∧ part ≠ ['.']
  let name := parts.getLast?.getD []
  let tail := (name.reverse.takeWhile (· ≠ '.')).reverse
  if tail.length + 1 < name.length ∧ tail ≠ [] then String.ofList ('.' :: tail) else ""

def languageFor (filePath : String) : String :=
  (languages.lookup (lower (pathSuffix filePath))).getD "text"

/-! ## Candidates -/

/-- A declaration with its lines, counted from one. -/
structure Candidate where
  start : Nat
  stop : Nat
  name : Option String
  kind : String
  deriving DecidableEq

/-- The name of a declaration, or `none` where its bytes do not decode. -/
def declaredName (language : String) (source : ByteArray) (node : Node) : Option (Option String) :=
  let nameNode :=
    match node.name with
    | some name => some name
    | none => if language = "cpp" then node.declarator.bind Node.findIdentifier else none
  match nameNode with
  | none => some none
  | some name => (String.fromUTF8? (source.extract name.startByte name.endByte)).map some

/-- What one turn of the loop appends to `candidates`. -/
def visit (symbols : List (String × String)) (language : String) (source : ByteArray)
    (node : Node) : Option (List Candidate) :=
  match symbols.lookup node.type with
  | none => some []
  | some kind =>
      (declaredName language source node).map fun name =>
        [⟨node.startRow + 1, node.endRow + 1, name, kind⟩]

theorem length_preorders_lt (node : Node) (stack : List Node) :
    (Node.preorders (node.namedChildren ++ stack)).length <
      (Node.preorders (node :: stack)).length := by
  rw [Node.preorders_append, Node.preorders, Node.preorder_eq]
  simp

/-- The loop over the stack, whose head is its top. -/
def walk (symbols : List (String × String)) (language : String) (source : ByteArray) :
    List Node → Option (List Candidate)
  | [] => some []
  | node :: stack =>
      match visit symbols language source node with
      | none => none
      | some found =>
          (walk symbols language source (node.namedChildren ++ stack)).map (found ++ ·)
  termination_by stack => (Node.preorders stack).length
  decreasing_by exact length_preorders_lt node stack

/-! ## Lines -/

structure ChunkLimits where
  maxLines : Nat
  fallbackLines : Nat
  overlap : Nat
  maxLines_pos : 1 ≤ maxLines
  fallbackLines_pos : 1 ≤ fallbackLines

/-- `CodeChunker()`. -/
def ChunkLimits.default : ChunkLimits := ⟨180, 80, 10, by decide, by decide⟩

namespace ChunkLimits

variable (limits : ChunkLimits)

def step : Nat := max 1 (limits.fallbackLines - limits.overlap)

theorem step_pos : 1 ≤ limits.step := le_max_left _ _

/-- The loop of `_line_windows` from line `start`. -/
def windowsFrom (last start : Nat) : List (Nat × Nat) :=
  if start ≤ last then
    let stop := min last (start + limits.fallbackLines - 1)
    (start, stop) :: if stop = last then [] else windowsFrom last (start + limits.step)
  else []
  termination_by last + 1 - start
  decreasing_by
    have := limits.step_pos
    omega

/-- `_line_windows`. -/
def lineWindows (first last : Nat) (name kind : Option String) (strategy : String) : List Span :=
  (limits.windowsFrom last first).map fun w => ⟨w.1, w.2, name, kind, strategy⟩

/-- The chunks of one candidate. -/
def candidateSpans (c : Candidate) : List Span :=
  if limits.maxLines < c.stop + 1 - c.start then
    limits.lineWindows c.start c.stop c.name (some c.kind) "tree-sitter-split"
  else [⟨c.start, c.stop, c.name, some c.kind, "tree-sitter"⟩]

/-- `_tree_sitter_chunks`, or nothing where it raises. -/
def treeSpans (parser : Parser) (language content : String) : Option (List Span) :=
  match symbolNodes.lookup language with
  | none => none
  | some symbols =>
      (parser.parse language content).bind fun tree =>
        if tree.hasError ∧ tree.root.namedChildren.isEmpty then some []
        else
          (walk symbols language content.toUTF8 [tree.root]).map fun candidates =>
            (sortBy (fun c : Candidate => toLex (c.start, c.stop)) candidates).flatMap
              limits.candidateSpans

/-- `_fallback_chunks`. -/
def fallbackSpans (content : String) : List Span :=
  limits.lineWindows 1 (max 1 (splitLines [] content.toList).length) none none "line-fallback"

/-- The spans of `CodeChunker.chunk`. -/
def spans (parser : Parser) (filePath content : String) : List Span :=
  match limits.treeSpans parser (languageFor filePath) content with
  | some (span :: rest) => span :: rest
  | _ => limits.fallbackSpans content

/-- The tree's chunks, if it has any. -/
theorem spans_of_tree {limits : ChunkLimits} {parser : Parser} {filePath content : String}
    {span : Span} {rest : List Span}
    (h : limits.treeSpans parser (languageFor filePath) content = some (span :: rest)) :
    limits.spans parser filePath content = span :: rest := by
  unfold spans
  simp only [h]

end ChunkLimits

/-- The chunker of a deployment. -/
def treeChunker (limits : ChunkLimits) (parser : Parser) (importsJson : String → String) :
    CodeChunker where
  languageFor := languageFor
  spans := limits.spans parser
  importsJson := importsJson

@[simp] theorem treeChunker_spans (limits : ChunkLimits) (parser : Parser)
    (importsJson : String → String) :
    (treeChunker limits parser importsJson).spans = limits.spans parser := by
  rw [treeChunker]

end RepoMesh
