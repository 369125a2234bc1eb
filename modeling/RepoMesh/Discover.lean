import Mathlib.Data.String.Basic
import RepoMesh.Separated
import RepoMesh.Sorting
import RepoMesh.Utf8

/-!
# File discovery

`discover_files`: the entries that git lists below a repository root, decoded, resolved,
filtered, and sorted as `Path` objects. What git and the file system answer is a
`Checkout`. Git lists file names as bytes, and the decoding replaces what is not UTF-8, so
two entries can become one path (`GitEntry.decode`). Two files are compared part by part by
`Path`, and by the code points of their posix form as strings; `RelPath.key` and
`RelPath.asPosix` are the two.
-/

namespace RepoMesh

def nul : Char := Char.ofNat 0

/-- A path below a repository root, as `Path` keeps it: its parts. -/
structure RelPath where
  parts : List String
  ne_nil : parts ≠ []
  no_slash : ∀ p ∈ parts, '/' ∉ p.toList
  no_nul : ∀ p ∈ parts, nul ∉ p.toList
  deriving DecidableEq

namespace RelPath

def asPosix (path : RelPath) : String := "/".intercalate path.parts

/-- What `Path.__lt__` compares: the parts, each by code point. -/
def key (path : RelPath) : List (List Char) := path.parts.map String.toList

def name (path : RelPath) : String := path.parts.getLast path.ne_nil

/-- `Path.suffix`: the last dot of the name and what follows, unless the dot comes
first or last. -/
def suffix (path : RelPath) : String :=
  let name := path.name.toList
  let tail := (name.reverse.takeWhile (· ≠ '.')).reverse
  if tail.length + 1 < name.length ∧ tail ≠ [] then String.ofList ('.' :: tail) else ""

theorem key_injective : Function.Injective key := by
  intro p q h
  have hparts : p.parts = q.parts :=
    List.map_injective_iff.mpr (fun _ _ => String.toList_inj.mp) h
  cases p
  cases q
  cases hparts
  rfl

theorem key_ne_nil (p : RelPath) : p.key ≠ [] := by
  simp [key, p.ne_nil]

theorem sepFree_key (p : RelPath) : SepFree '/' p.key := by
  intro x hx
  obtain ⟨part, hpart, rfl⟩ := List.mem_map.mp hx
  exact p.no_slash part hpart

@[simp] theorem toList_asPosix (p : RelPath) : p.asPosix.toList = ['/'].intercalate p.key := by
  simp [asPosix, key]

theorem asPosix_injective : Function.Injective asPosix := by
  intro p q h
  have hlist : ['/'].intercalate p.key = ['/'].intercalate q.key := by
    rw [← toList_asPosix, ← toList_asPosix, h]
  exact key_injective
    (p.sepFree_key.intercalate_inj q.sepFree_key p.key_ne_nil q.key_ne_nil hlist)

theorem nul_not_mem_asPosix (p : RelPath) : nul ∉ p.asPosix.toList := by
  rw [toList_asPosix]
  intro h
  rcases mem_intercalate h with ⟨x, hx, hmem⟩ | hslash
  · obtain ⟨part, hpart, rfl⟩ := List.mem_map.mp hx
    exact p.no_nul part hpart hmem
  · exact absurd hslash (by decide)

/-- A file `x` in a directory `d`, and a file `y` at or below a sibling of `d` whose
name prolongs `d`'s by a character that sorts before the slash. -/
def Clash (x y : RelPath) : Prop := RepoMesh.Clash '/' x.key y.key

/-- The two orders agree on `x` and `y` unless they clash. -/
theorem asPosix_lt_iff {x y : RelPath} (h : x.key < y.key) :
    x.asPosix < y.asPosix ↔ ¬ Clash x y := by
  rw [String.lt_iff_toList_lt, toList_asPosix, toList_asPosix]
  exact intercalate_lt_iff y.sepFree_key x.key_ne_nil h

end RelPath

/-! ## What git lists -/

/-- A nonempty entry of `git ls-files -z`: a path below the root, in bytes. -/
structure GitEntry where
  parts : List (List UInt8)
  ne_nil : parts ≠ []
  no_slash : ∀ p ∈ parts, 0x2F ∉ p
  no_nul : ∀ p ∈ parts, 0 ∉ p
  deriving DecidableEq

/-- `Path(part.decode("utf-8", errors="replace"))`. -/
def GitEntry.decode (entry : GitEntry) : RelPath where
  parts := entry.parts.map fun p => String.ofList (Utf8.decode p)
  ne_nil := by simpa using entry.ne_nil
  no_slash := by
    intro part hpart hmem
    obtain ⟨p, hp, rfl⟩ := List.mem_map.mp hpart
    rw [String.toList_ofList] at hmem
    exact entry.no_slash p hp (Utf8.mem_of_decodeFrom hmem (by decide))
  no_nul := by
    intro part hpart hmem
    obtain ⟨p, hp, rfl⟩ := List.mem_map.mp hpart
    rw [String.toList_ofList] at hmem
    exact entry.no_nul p hp (Utf8.mem_of_decodeFrom hmem (by decide))

/-- The entry as git prints it. -/
def GitEntry.bytes (entry : GitEntry) : List UInt8 := [0x2F].intercalate entry.parts

/-- Decoding the parts is decoding what git prints. -/
theorem GitEntry.toList_asPosix_decode (entry : GitEntry) :
    entry.decode.asPosix.toList = Utf8.decode entry.bytes := by
  rw [RelPath.toList_asPosix, bytes, Utf8.decode_intercalate (by decide)]
  simp [RelPath.key, decode, Function.comp_def]

/-- The name of a file in bytes. -/
def RelPath.encode (path : RelPath) : GitEntry where
  parts := path.parts.map fun p => Utf8.encode p.toList
  ne_nil := by simpa using path.ne_nil
  no_slash := by
    intro part hpart hmem
    obtain ⟨p, hp, rfl⟩ := List.mem_map.mp hpart
    exact path.no_slash p hp (Utf8.mem_encode hmem (by decide))
  no_nul := by
    intro part hpart hmem
    obtain ⟨p, hp, rfl⟩ := List.mem_map.mp hpart
    exact path.no_nul p hp (Utf8.mem_encode hmem (by decide))

@[simp] theorem RelPath.decode_encode (path : RelPath) : path.encode.decode = path := by
  obtain ⟨parts, hne, hslash, hnul⟩ := path
  simp [encode, GitEntry.decode, Function.comp_def, Utf8.decode_encode, String.ofList_toList]

/-! ## The filters -/

def defaultIgnoredParts : List String :=
  [".git", ".venv", "venv", "node_modules", "build", "dist", "target", "coverage", ".next",
    "vendor", "__pycache__"]

def secretNames : List String :=
  [".env", ".env.local", ".env.production", "id_rsa", "id_ed25519", "credentials.json",
    "secrets.json", ".npmrc", ".pypirc"]

def binaryExtensions : List String :=
  [".exe", ".dll", ".so", ".dylib", ".bin", ".zip", ".tar", ".gz", ".7z", ".png", ".jpg",
    ".jpeg", ".gif", ".webp", ".ico", ".pdf", ".woff", ".woff2", ".ttf", ".mp3", ".mp4",
    ".mov", ".avi", ".class", ".jar", ".pyc", ".lock"]

def generatedSuffixes : List String :=
  [".min.js", ".min.css", ".map", ".generated.py", ".g.cs"]

/-- `str.lower` as far as the names above can tell: beside `A`..`Z` only the Kelvin
sign has an ASCII lower case of its own. -/
def lower (s : String) : String :=
  String.ofList (s.toList.map fun c => if c = Char.ofNat 0x212A then 'k' else c.toLower)

/-- What git and the file system answer about a repository root. -/
structure Checkout where
  /-- `git rev-parse HEAD`, if it succeeds -/
  head : Option String
  /-- the entries of `git ls-files`, or why it failed -/
  lsFiles : Except String (List GitEntry)
  /-- `(root / relative).resolve()` when that lies below the root; its name is a text -/
  resolve : RelPath → Option RelPath
  /-- the bytes of a regular file that can be read -/
  read : RelPath → Option ByteArray

inductive ScanError where
  | repositoryValidationError (text : String)
  | osError (path : RelPath)
  deriving DecidableEq

def ScanError.text : ScanError → String
  | .repositoryValidationError text => text
  | .osError path => "cannot read " ++ path.asPosix

namespace Checkout

def currentCommit (co : Checkout) : String := co.head.getD "UNCOMMITTED"

/-- The candidate `discover_files` appends for a listed entry, if any. -/
def admitted (co : Checkout) (maxBytes : Nat) (relative : RelPath) : Option RelPath :=
  (co.resolve relative).bind fun candidate =>
    (co.read candidate).bind fun bytes =>
      if relative.parts.any (lower · ∈ defaultIgnoredParts) ∨
          lower relative.name ∈ secretNames then none
      else if lower relative.suffix ∈ binaryExtensions then none
      else if generatedSuffixes.any (·.toList.isSuffixOf (lower relative.name).toList) then none
      else if maxBytes < bytes.size then none
      else if 0 ∈ bytes.data.toList.take 8192 then none
      else some candidate

def discoverFiles (co : Checkout) (maxBytes : Nat) : Except ScanError (List RelPath) :=
  match co.lsFiles with
  | .error e => .error (.repositoryValidationError s!"git file discovery failed: {e}")
  | .ok entries =>
      let relativePaths := entries.map GitEntry.decode
      .ok (sortBy RelPath.key (relativePaths.filterMap (co.admitted maxBytes)))

/-- What `discover_files` returns is in `Path` order. -/
theorem sortBy_discoverFiles {co : Checkout} {maxBytes : Nat} {files : List RelPath}
    (h : co.discoverFiles maxBytes = .ok files) : sortBy RelPath.key files = files := by
  rw [discoverFiles] at h
  cases hls : co.lsFiles with
  | error e => simp [hls] at h
  | ok listed =>
      rw [hls] at h
      obtain rfl := Except.ok.inj h
      exact sortBy_idem _ _

end Checkout

end RepoMesh
