import RepoMesh.Chunk

/-!
# Search expressions

`lexical_search` makes an FTS5 expression of what the user typed: each word in quotation
marks, with `OR` between them. `ftsTokens` is the lexer that FTS5 reads the expression with.
Whatever was typed, the lexer finds in the expression the words as strings and the `OR`s
between them and nothing else (`ftsTokens_matchQuery`): no word ends its string early, and
none is read as an operator. A NUL ends the text inside a string, and the expression is
refused.
-/

namespace RepoMesh

/-! ## The expression -/

/-- `str.split()`; `word` holds the word begun. -/
def splitWords (word : List Char) : List Char → List (List Char)
  | [] => if word = [] then [] else [word]
  | c :: rest =>
      if isSpace c then
        if word = [] then splitWords [] rest else word :: splitWords [] rest
      else splitWords (word ++ [c]) rest

/-- `token.strip()` is not empty. -/
def strips (token : List Char) : Bool := token.any fun c => !isSpace c

/-- `token.replace('"', "")` -/
def unquoted (token : List Char) : List Char := token.filter (· ≠ '"')

def searchTokens (query : String) : List (List Char) :=
  ((splitWords [] query.toList).filter strips).map unquoted

def quoted (token : List Char) : String := String.ofList ('"' :: token ++ ['"'])

def matchQuery (query : String) : String :=
  " OR ".intercalate ((searchTokens query).map quoted)

/-! ## FTS5's lexer -/

inductive FtsToken where
  | string (text : List Char)
  | or
  | and
  | not
  | symbol (c : Char)
  deriving DecidableEq

/-- Letters, digits, the underscore, everything beyond ASCII, and the substitute
character. -/
def isBareword (c : Char) : Bool :=
  c.isAlphanum || c = '_' || 128 ≤ c.toNat || c.toNat = 26

def bareword (text : List Char) : FtsToken :=
  if text = ['O', 'R'] then .or
  else if text = ['A', 'N', 'D'] then .and
  else if text = ['N', 'O', 'T'] then .not
  else .string text

inductive LexState where
  | between
  /-- inside quotation marks -/
  | string (text : List Char)
  /-- after a quotation mark that may be the first of two -/
  | mark (text : List Char)
  | bareword (text : List Char)

/-- The first character of a token, or one between tokens; `go` reads on. -/
def beginToken (c : Char) (go : LexState → Option (List FtsToken)) : Option (List FtsToken) :=
  if c = '\x00' then some []
  else if c ∈ [' ', '\t', '\n', '\r'] then go .between
  else if c = '"' then go (.string [])
  else if c ∈ ['(', ')', '{', '}', ':', ',', '+', '*', '-', '^'] then
    (go .between).map (.symbol c :: ·)
  else if isBareword c then go (.bareword [c])
  else none

/-- The tokens of an expression, up to a NUL; `none` is a syntax error. -/
def lex : LexState → List Char → Option (List FtsToken)
  | .between, [] => some []
  | .between, c :: rest => beginToken c fun state => lex state rest
  | .string _, [] => none
  | .string text, c :: rest =>
      if c = '"' then lex (.mark text) rest
      else if c = '\x00' then none
      else lex (.string (text ++ [c])) rest
  | .mark text, [] => some [.string text]
  | .mark text, c :: rest =>
      if c = '"' then lex (.string (text ++ ['"'])) rest
      else (beginToken c fun state => lex state rest).map (.string text :: ·)
  | .bareword text, [] => some [bareword text]
  | .bareword text, c :: rest =>
      if isBareword c then lex (.bareword (text ++ [c])) rest
      else (beginToken c fun state => lex state rest).map (bareword text :: ·)

def ftsTokens (expression : String) : Option (List FtsToken) := lex .between expression.toList

/-! ## The words of a query -/

theorem mem_splitWords {s word : List Char} {c : Char} :
    (∃ w ∈ splitWords word s, c ∈ w) ↔ c ∈ word ∨ c ∈ s ∧ isSpace c = false := by
  induction s generalizing word with
  | nil =>
      rw [splitWords]
      by_cases hword : word = []
      · simp [hword]
      · simp [if_neg hword]
  | cons d rest ih =>
      rw [splitWords]
      by_cases hd : isSpace d = true
      · have hrest := @ih []
        have hskip : c ∈ d :: rest ∧ isSpace c = false ↔ c ∈ rest ∧ isSpace c = false := by
          rw [List.mem_cons]
          constructor
          · rintro ⟨rfl | hc, hspace⟩
            · rw [hd] at hspace
              cases hspace
            · exact ⟨hc, hspace⟩
          · exact fun ⟨hc, hspace⟩ => ⟨Or.inr hc, hspace⟩
        rw [if_pos hd, hskip]
        by_cases hword : word = []
        · rw [if_pos hword, hrest, hword]
        · rw [if_neg hword, List.exists_mem_cons_iff, hrest]
          simp
      · have htake : c ∈ d :: rest ∧ isSpace c = false ↔
            c = d ∨ c ∈ rest ∧ isSpace c = false := by
          rw [List.mem_cons, or_and_right]
          refine or_congr_left (and_iff_left_of_imp ?_)
          rintro rfl
          exact Bool.not_eq_true _ ▸ hd
        rw [if_neg hd, ih, htake, List.mem_append, List.mem_singleton, or_assoc]

/-- The words hold no space. -/
theorem not_isSpace_of_mem_splitWords {s w : List Char} {c : Char} (hw : w ∈ splitWords [] s)
    (hc : c ∈ w) : isSpace c = false := by
  have hmem : c ∈ ([] : List Char) ∨ c ∈ s ∧ isSpace c = false :=
    mem_splitWords.mp ⟨w, hw, hc⟩
  exact (hmem.resolve_left List.not_mem_nil).2

theorem ne_nil_of_mem_splitWords {s word w : List Char} (hw : w ∈ splitWords word s) : w ≠ [] := by
  induction s generalizing word with
  | nil =>
      rw [splitWords] at hw
      split at hw
      · cases hw
      · rename_i hword
        exact List.mem_singleton.mp hw ▸ hword
  | cons d rest ih =>
      rw [splitWords] at hw
      split at hw
      · split at hw
        · exact ih hw
        · rename_i hword
          rcases List.mem_cons.mp hw with rfl | hw
          · exact hword
          · exact ih hw
      · exact ih hw

/-- No word is dropped by the test of `strip`. -/
theorem filter_strips (s : List Char) : (splitWords [] s).filter strips = splitWords [] s := by
  refine List.filter_eq_self.mpr fun w hw => ?_
  obtain ⟨c, hc⟩ := List.exists_mem_of_ne_nil w (ne_nil_of_mem_splitWords hw)
  exact List.any_eq_true.mpr ⟨c, hc, by rw [not_isSpace_of_mem_splitWords hw hc]; rfl⟩

theorem mem_searchTokens {query : String} {t : List Char} :
    t ∈ searchTokens query ↔ ∃ w ∈ splitWords [] query.toList, unquoted w = t := by
  rw [searchTokens, filter_strips, List.mem_map]

/-! ## Reading the expression -/

/-- Inside a string the lexer reads on to its end, or to a NUL. -/
theorem lex_string {token : List Char} (hmark : '"' ∉ token) (text rest : List Char) :
    lex (.string text) (token ++ '"' :: rest) =
      if '\x00' ∈ token then none else lex (.mark (text ++ token)) rest := by
  induction token generalizing text with
  | nil => simp [lex]
  | cons c token ih =>
      rw [List.mem_cons, not_or] at hmark
      rw [List.cons_append, lex, if_neg (Ne.symm hmark.1)]
      by_cases hnul : c = '\x00'
      · rw [if_pos hnul, if_pos (hnul ▸ List.mem_cons_self)]
      · rw [if_neg hnul, ih hmark.2, List.append_assoc]
        simp [Ne.symm hnul]

/-- The strings with `OR` between them. -/
def disjunction : List (List Char) → List FtsToken
  | [] => []
  | [token] => [.string token]
  | token :: tokens => .string token :: .or :: disjunction tokens

/-- From a string on the lexer is through with the `OR` before the next one. -/
theorem lex_or (text rest : List Char) :
    lex (.mark text) (" OR ".toList ++ '"' :: rest) =
      (lex (.string []) rest).map fun tokens => .string text :: .or :: tokens := by
  have hor : lex (.bareword ['O', 'R']) (' ' :: '"' :: rest) =
      (lex (.string []) rest).map (.or :: ·) := rfl
  have hmark : lex (.mark text) (" OR ".toList ++ '"' :: rest) =
      (lex (.bareword ['O', 'R']) (' ' :: '"' :: rest)).map (.string text :: ·) := rfl
  rw [hmark, hor, Option.map_map]
  rfl

/-- The expression as characters. -/
def orText (tokens : List (List Char)) : List Char :=
  (" OR ".intercalate (tokens.map quoted)).toList

theorem orText_singleton (token : List Char) : orText [token] = '"' :: (token ++ ['"']) := by
  rw [orText, List.map_singleton, String.intercalate_singleton, quoted, String.toList_ofList]
  rfl

theorem orText_cons {tokens : List (List Char)} (token : List Char) (hne : tokens ≠ []) :
    orText (token :: tokens) = '"' :: (token ++ '"' :: (" OR ".toList ++ orText tokens)) := by
  have hmap : tokens.map quoted ≠ [] := fun h => hne (List.map_eq_nil_iff.mp h)
  rw [orText, List.map_cons, String.intercalate_cons_of_ne_nil hmap, String.toList_append,
    String.toList_append, quoted, String.toList_ofList, orText]
  simp

theorem orText_start {tokens : List (List Char)} (hne : tokens ≠ []) :
    ∃ rest, orText tokens = '"' :: rest := by
  cases tokens with
  | nil => exact absurd rfl hne
  | cons token tokens =>
      by_cases hrest : tokens = []
      · exact ⟨_, hrest ▸ orText_singleton token⟩
      · exact ⟨_, orText_cons token hrest⟩

theorem lex_orText {tokens : List (List Char)} (hmark : ∀ token ∈ tokens, '"' ∉ token) :
    lex .between (orText tokens) =
      if ∃ token ∈ tokens, '\x00' ∈ token then none else some (disjunction tokens) := by
  have hopen : ∀ rest, lex .between ('"' :: rest) = lex (.string []) rest := fun _ => rfl
  induction tokens with
  | nil => rfl
  | cons token tokens ih =>
      have htoken : '"' ∉ token := hmark token List.mem_cons_self
      cases tokens with
      | nil =>
          rw [orText_singleton, hopen, lex_string htoken]
          simp [lex, disjunction]
      | cons next tokens =>
          have hnext : next :: tokens ≠ [] := List.cons_ne_nil _ _
          have hih := ih fun t ht => hmark t (List.mem_cons_of_mem _ ht)
          obtain ⟨rest, hrest⟩ := orText_start hnext
          rw [hrest, hopen] at hih
          rw [orText_cons token hnext, hopen, lex_string htoken, hrest, lex_or, hih]
          by_cases hnul : '\x00' ∈ token
          · rw [if_pos hnul, if_pos ⟨token, List.mem_cons_self, hnul⟩]
          · have hiff : (∃ t ∈ token :: next :: tokens, '\x00' ∈ t) ↔
                ∃ t ∈ next :: tokens, '\x00' ∈ t := by
              rw [List.exists_mem_cons_iff]
              exact or_iff_right hnul
            rw [if_neg hnul]
            by_cases hlater : ∃ t ∈ next :: tokens, '\x00' ∈ t
            · rw [if_pos hlater, if_pos (hiff.mpr hlater)]
              rfl
            · rw [if_neg hlater, if_neg (mt hiff.mp hlater)]
              rfl

theorem mem_unquoted {token : List Char} {c : Char} : c ∈ unquoted token ↔ c ∈ token ∧ c ≠ '"' := by
  simp [unquoted]

theorem matchQuery_eq (query : String) : (matchQuery query).toList = orText (searchTokens query) :=
  rfl

theorem matchQuery_eq_empty_iff {query : String} :
    matchQuery query = "" ↔ searchTokens query = [] := by
  rw [← String.toList_eq_nil_iff, matchQuery_eq]
  constructor
  · intro h
    by_contra hne
    obtain ⟨rest, hrest⟩ := orText_start hne
    rw [hrest] at h
    cases h
  · intro h
    rw [h]
    rfl

theorem matchQuery_eq_empty {query : String} :
    matchQuery query = "" ↔ ∀ c ∈ query.toList, isSpace c = true := by
  have hwords : searchTokens query = [] ↔ splitWords [] query.toList = [] := by
    rw [searchTokens, filter_strips, List.map_eq_nil_iff]
  rw [matchQuery_eq_empty_iff, hwords]
  constructor
  · intro h c hc
    by_contra hspace
    have hmem : ∃ w ∈ splitWords [] query.toList, c ∈ w :=
      mem_splitWords.mpr (Or.inr ⟨hc, by simpa using hspace⟩)
    rw [h] at hmem
    obtain ⟨w, hw, -⟩ := hmem
    cases hw
  · intro h
    refine List.eq_nil_iff_forall_not_mem.mpr fun w hw => ?_
    obtain ⟨c, hc⟩ := List.exists_mem_of_ne_nil w (ne_nil_of_mem_splitWords hw)
    have hmem : c ∈ ([] : List Char) ∨ c ∈ query.toList ∧ isSpace c = false :=
      mem_splitWords.mp ⟨w, hw, hc⟩
    obtain ⟨hin, hnot⟩ := hmem.resolve_left List.not_mem_nil
    rw [h c hin] at hnot
    cases hnot

theorem lex_matchQuery (query : String) :
    ftsTokens (matchQuery query) =
      if '\x00' ∈ query.toList then none
      else some (disjunction ((splitWords [] query.toList).map unquoted)) := by
  have hmark : ∀ token ∈ searchTokens query, '"' ∉ token := by
    intro token htoken hmem
    obtain ⟨w, -, rfl⟩ := mem_searchTokens.mp htoken
    exact (mem_unquoted.mp hmem).2 rfl
  have hnul : (∃ token ∈ searchTokens query, '\x00' ∈ token) ↔ '\x00' ∈ query.toList := by
    constructor
    · rintro ⟨token, htoken, hmem⟩
      obtain ⟨w, hw, rfl⟩ := mem_searchTokens.mp htoken
      have hin : '\x00' ∈ ([] : List Char) ∨ '\x00' ∈ query.toList ∧ isSpace '\x00' = false :=
        mem_splitWords.mp ⟨w, hw, (mem_unquoted.mp hmem).1⟩
      exact (hin.resolve_left List.not_mem_nil).1
    · intro hmem
      obtain ⟨w, hw, hin⟩ : ∃ w ∈ splitWords [] query.toList, '\x00' ∈ w :=
        mem_splitWords.mpr (Or.inr ⟨hmem, by decide⟩)
      exact ⟨unquoted w, mem_searchTokens.mpr ⟨w, hw, rfl⟩, mem_unquoted.mpr ⟨hin, by decide⟩⟩
  have hlex := lex_orText hmark
  simp only [hnul] at hlex
  rw [ftsTokens, matchQuery_eq, hlex, searchTokens, filter_strips]

/-- What FTS5 reads in the expression: the words, without their quotation marks, and the
`OR`s between them. It refuses the expression if there is a NUL in the query, and nothing
is asked of it if there is only space. -/
theorem ftsTokens_matchQuery (query : String) :
    (matchQuery query = "" ↔ ∀ c ∈ query.toList, isSpace c = true) ∧
      ftsTokens (matchQuery query) =
        if '\x00' ∈ query.toList then none
        else some (disjunction ((splitWords [] query.toList).map unquoted)) :=
  ⟨matchQuery_eq_empty, lex_matchQuery query⟩

end RepoMesh
