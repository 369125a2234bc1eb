import RepoMesh.SlidingWindows
import RepoMesh.TreeChunker

/-!
# What the chunker's spans are

The loops of `TreeChunker` in closed form: a window starts a whole number of steps
behind the first line (`mem_windowsFrom`), the stack is emptied in document order
(`walk_eq`), and a declaration is cut into its `Piece`s.
-/

namespace RepoMesh

namespace ChunkLimits

variable {limits : ChunkLimits}

/-! ## Windows -/

/-- The window `i` steps behind `first`, if the loop gets there. -/
def Window (limits : ChunkLimits) (first last a b : Nat) : Prop :=
  ∃ i, a = first + i * limits.step ∧ a ≤ last ∧ b = min last (a + limits.fallbackLines - 1) ∧
    ∀ j < i, first + j * limits.step + limits.fallbackLines - 1 < last

theorem windowsFrom_of_lt {last start : Nat} (h : last < start) :
    limits.windowsFrom last start = [] := by
  rw [windowsFrom, if_neg (Nat.not_le.mpr h)]

theorem windowsFrom_of_le {last start : Nat} (h : start ≤ last) :
    limits.windowsFrom last start =
      (start, min last (start + limits.fallbackLines - 1)) ::
        if last ≤ start + limits.fallbackLines - 1 then []
        else limits.windowsFrom last (start + limits.step) := by
  rw [windowsFrom, if_pos h]
  simp only [min_eq_left_iff]

theorem window_zero {last start b : Nat} (h : start ≤ last) :
    b = min last (start + limits.fallbackLines - 1) → limits.Window start last start b :=
  fun hb => ⟨0, by simp, h, hb, fun j hj => absurd hj (Nat.not_lt_zero j)⟩

/-- A window behind the first is a window from the next start on. -/
theorem window_succ {last start a b : Nat} (h : start + limits.fallbackLines - 1 < last) :
    limits.Window (start + limits.step) last a b → limits.Window start last a b := by
  rintro ⟨i, ha, hle, hb, hall⟩
  have hshift : ∀ j, start + (j + 1) * limits.step = start + limits.step + j * limits.step :=
    fun j => by rw [Nat.add_mul, Nat.one_mul, Nat.add_assoc, Nat.add_comm limits.step]
  refine ⟨i + 1, by rw [hshift, ha], hle, hb, fun j hj => ?_⟩
  cases j with
  | zero => simpa using h
  | succ j =>
      rw [hshift]
      exact hall j (by omega)

theorem window_cases {last start a b : Nat} (h : limits.Window start last a b) :
    start ≤ last ∧ (a = start ∧ b = min last (start + limits.fallbackLines - 1) ∨
      start + limits.fallbackLines - 1 < last ∧ limits.Window (start + limits.step) last a b) := by
  obtain ⟨i, ha, hle, hb, hall⟩ := h
  have hshift : ∀ j, start + (j + 1) * limits.step = start + limits.step + j * limits.step :=
    fun j => by rw [Nat.add_mul, Nat.one_mul, Nat.add_assoc, Nat.add_comm limits.step]
  refine ⟨?_, ?_⟩
  · rw [ha] at hle
    exact le_trans (Nat.le_add_right start _) hle
  · cases i with
    | zero =>
        have hstart : a = start := by simpa using ha
        exact Or.inl ⟨hstart, hstart ▸ hb⟩
    | succ i =>
        refine Or.inr ⟨by simpa using hall 0 (Nat.succ_pos i), i, by rw [ha, hshift], hle, hb, ?_⟩
        intro j hj
        rw [← hshift]
        exact hall (j + 1) (by omega)

theorem mem_windowsFrom {last start a b : Nat} :
    (a, b) ∈ limits.windowsFrom last start ↔ limits.Window start last a b := by
  induction start using windowsFrom.induct limits last with
  | case1 start hle ih =>
      rw [windowsFrom_of_le hle, List.mem_cons, Prod.mk.injEq]
      constructor
      · rintro (⟨rfl, hb⟩ | hmem)
        · exact window_zero hle hb
        · split at hmem
          · cases hmem
          · rename_i hlt
            exact window_succ (Nat.lt_of_not_le hlt) (ih.mp hmem)
      · intro hwindow
        obtain ⟨-, ⟨ha, hb⟩ | ⟨hlt, hwindow⟩⟩ := window_cases hwindow
        · exact Or.inl ⟨ha, hb⟩
        · right
          rw [if_neg (Nat.not_le.mpr hlt)]
          exact ih.mpr hwindow
  | case2 start hlt =>
      rw [windowsFrom_of_lt (Nat.lt_of_not_le hlt)]
      constructor
      · intro hmem
        cases hmem
      · intro hwindow
        exact absurd (window_cases hwindow).1 hlt

theorem step_le : limits.step ≤ limits.fallbackLines :=
  max_le limits.fallbackLines_pos (Nat.sub_le _ _)

/-- The loop slides by `step` until a window reaches the last line. -/
theorem windowsFrom_slides {last start : Nat} (h : start ≤ last) :
    Slides limits.fallbackLines limits.step last start (limits.windowsFrom last start) := by
  induction start using windowsFrom.induct limits last with
  | case1 start hle ih =>
      rw [windowsFrom_of_le hle]
      split
      · rename_i hend
        rw [min_eq_left hend]
        exact .cut hle hend
      · rename_i hlt
        have hstep := limits.step_le
        rw [min_eq_right (Nat.le_of_not_le hlt)]
        exact .slide (Nat.lt_of_not_le hlt) (ih (by omega))
  | case2 start hlt => exact absurd h hlt

/-- Windows start at increasing lines. -/
theorem windowsFrom_pairwise (last start : Nat) :
    (limits.windowsFrom last start).Pairwise fun w w' => w.1 < w'.1 := by
  by_cases h : start ≤ last
  · exact (windowsFrom_slides h).increasing limits.step_pos
  · rw [windowsFrom_of_lt (Nat.lt_of_not_le h)]
    exact .nil

/-! ## Pieces -/

/-- Lines `a` to `b` are a piece of a declaration on lines `start` to `stop`: the
whole of it, or one of its windows where it is too long. -/
def Piece (limits : ChunkLimits) (start stop a b : Nat) : Prop :=
  if limits.maxLines < stop + 1 - start then limits.Window start stop a b
  else a = start ∧ b = stop

end ChunkLimits

/-- The lines of a span. -/
def Span.range (span : Span) : Nat × Nat := (span.start, span.stop)

namespace ChunkLimits

variable {limits : ChunkLimits}

theorem range_lineWindows (first last : Nat) (name kind : Option String) (strategy : String) :
    (limits.lineWindows first last name kind strategy).map Span.range =
      limits.windowsFrom last first := by
  rw [lineWindows, List.map_map]
  exact List.map_id _

theorem lineWindows_nodup (first last : Nat) (name kind : Option String) (strategy : String) :
    ((limits.lineWindows first last name kind strategy).map Span.range).Nodup := by
  rw [range_lineWindows]
  exact (windowsFrom_pairwise last first).imp fun hlt heq => by
    rw [heq] at hlt
    exact absurd hlt (lt_irrefl _)

theorem mem_candidateSpans {c : Candidate} {a b : Nat} :
    (a, b) ∈ (limits.candidateSpans c).map Span.range ↔ limits.Piece c.start c.stop a b := by
  unfold candidateSpans Piece
  split
  · rw [range_lineWindows]
    exact mem_windowsFrom
  · simp [Span.range]

theorem candidateSpans_nodup (c : Candidate) :
    ((limits.candidateSpans c).map Span.range).Nodup := by
  unfold candidateSpans
  split
  · exact lineWindows_nodup _ _ _ _ _
  · exact List.nodup_singleton _

end ChunkLimits

/-! ## The declarations of a tree -/

/-- The declarations below a node, in document order. -/
def declarations (symbols : List (String × String)) (nodes : List Node) : List Node :=
  (Node.preorders nodes).filter fun node => (symbols.lookup node.type).isSome

/-- The bytes that name the declarations decode, so that the walk does not raise. -/
def Readable (symbols : List (String × String)) (language : String) (source : ByteArray)
    (nodes : List Node) : Prop :=
  ∀ node ∈ declarations symbols nodes, (declaredName language source node).isSome = true

/-- The candidate that a declaration becomes. -/
def candidateOf (symbols : List (String × String)) (language : String) (source : ByteArray)
    (node : Node) : Candidate :=
  ⟨node.startRow + 1, node.endRow + 1, (declaredName language source node).getD none,
    (symbols.lookup node.type).getD ""⟩

theorem declarations_cons {symbols : List (String × String)} (node : Node) (stack : List Node) :
    declarations symbols (node :: stack) =
      (if (symbols.lookup node.type).isSome then [node] else []) ++
        declarations symbols (node.namedChildren ++ stack) := by
  unfold declarations
  rw [Node.preorders, Node.preorder_eq, Node.preorders_append]
  cases h : (symbols.lookup node.type).isSome <;> simp [h]

section

variable (symbols : List (String × String)) (language : String) (source : ByteArray)

/-- A visit appends the node exactly if it is a declaration. -/
theorem visit_cases (node : Node) :
    (visit symbols language source node = none ∧ (symbols.lookup node.type).isSome = true ∧
        (declaredName language source node).isSome = false) ∨
      ∃ found, visit symbols language source node = some found ∧
        ((symbols.lookup node.type).isSome = true →
          (declaredName language source node).isSome = true) ∧
        found = (if (symbols.lookup node.type).isSome then [node] else []).map
          (candidateOf symbols language source) := by
  unfold visit
  cases hs : symbols.lookup node.type with
  | none => exact Or.inr ⟨[], rfl, by simp, rfl⟩
  | some kind =>
      cases hn : declaredName language source node with
      | none => exact Or.inl ⟨rfl, rfl, rfl⟩
      | some name => exact Or.inr ⟨_, rfl, fun _ => rfl, by simp [candidateOf, hs, hn]⟩

/-- The loop visits every declaration once, in document order. -/
theorem walk_cases (stack : List Node) :
    (walk symbols language source stack = none ∧ ¬ Readable symbols language source stack) ∨
      ∃ found, walk symbols language source stack = some found ∧
        Readable symbols language source stack ∧
        found = (declarations symbols stack).map (candidateOf symbols language source) := by
  induction stack using walk.induct symbols language source with
  | case1 => exact Or.inr ⟨[], by rw [walk], fun node hnode => absurd hnode List.not_mem_nil, rfl⟩
  | case2 node stack hvisit =>
      left
      rcases visit_cases symbols language source node with
        ⟨-, hsym, hname⟩ | ⟨found, hfound, -, -⟩
      · refine ⟨by rw [walk, hvisit], fun hread => ?_⟩
        have hmem : node ∈ declarations symbols (node :: stack) := by
          rw [declarations_cons, hsym]
          exact List.mem_cons_self
        rw [hread node hmem] at hname
        cases hname
      · rw [hvisit] at hfound
        cases hfound
  | case3 node stack found hvisit ih =>
      rcases visit_cases symbols language source node with
        ⟨hnone, -, -⟩ | ⟨found', hfound', hname, hcandidate⟩
      · rw [hvisit] at hnone
        cases hnone
      obtain rfl : found = found' := Option.some.inj (hvisit.symm.trans hfound')
      have hread : Readable symbols language source (node :: stack) ↔
          Readable symbols language source (node.namedChildren ++ stack) := by
        unfold Readable
        rw [declarations_cons]
        cases hsym : (symbols.lookup node.type).isSome
        · simp
        · simp [hname hsym]
      rcases ih with ⟨hwalk, hnot⟩ | ⟨rest, hwalk, hok, hrest⟩
      · exact Or.inl ⟨by rw [walk, hvisit, hwalk]; rfl, fun h => hnot (hread.mp h)⟩
      · refine Or.inr ⟨found ++ rest, by rw [walk, hvisit, hwalk]; rfl, hread.mpr hok, ?_⟩
        rw [hcandidate, hrest, declarations_cons, List.map_append]

/-- The rows of the candidates are those of the declarations. -/
theorem ranges_candidates (stack : List Node) :
    ((declarations symbols stack).map (candidateOf symbols language source)).map
        (fun c => (c.start, c.stop)) =
      (declarations symbols stack).map fun node => (node.startRow + 1, node.endRow + 1) := by
  rw [List.map_map]
  rfl

end

/-- The chunks of a readable tree are those of its declarations, sorted by their rows. -/
theorem ChunkLimits.treeSpans_eq {limits : ChunkLimits} {parser : Parser}
    {language content : String} {symbols : List (String × String)} {tree : ParseTree}
    (hsymbols : symbolNodes.lookup language = some symbols)
    (hparse : parser.parse language content = some tree)
    (husable : ¬ (tree.hasError = true ∧ tree.root.namedChildren.isEmpty = true))
    (hread : Readable symbols language content.toUTF8 [tree.root]) :
    limits.treeSpans parser language content =
      some ((sortBy (fun c : Candidate => toLex (c.start, c.stop))
        ((declarations symbols [tree.root]).map
          (candidateOf symbols language content.toUTF8))).flatMap limits.candidateSpans) := by
  rcases walk_cases symbols language content.toUTF8 [tree.root] with
    ⟨-, hnot⟩ | ⟨found, hwalk, -, rfl⟩
  · exact absurd hread hnot
  · unfold treeSpans
    rw [hsymbols]
    simp only [hparse, Option.bind_some]
    rw [if_neg husable, hwalk, Option.map_some]

end RepoMesh
