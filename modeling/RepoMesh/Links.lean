import RepoMesh.Discover

/-!
# What discovery admits

The filters of `discover_files` look at the name git lists; what is returned is the
file that name leads to. The two differ for a symbolic link, and for a name that is not
UTF-8, of which only a text with replaced bytes is looked up. Such an entry is a
`Bypass` when its own name is innocent and the file it leads to should have been kept
out; without a bypass nothing is admitted that should not be
(`discovered_admissible_iff`).
-/

namespace RepoMesh

/-- The name filters. -/
structure RelPath.NamePasses (path : RelPath) : Prop where
  parts : ∀ part ∈ path.parts, lower part ∉ defaultIgnoredParts
  name : lower path.name ∉ secretNames
  suffix : lower path.suffix ∉ binaryExtensions
  ending : ∀ ending ∈ generatedSuffixes, ¬ ending.toList <:+ (lower path.name).toList

/-- The file is small enough and has no NUL near its start. -/
structure ContentPasses (maxBytes : Nat) (bytes : ByteArray) : Prop where
  size : bytes.size ≤ maxBytes
  no_nul : 0 ∉ bytes.data.toList.take 8192

namespace Checkout

variable {co : Checkout} {maxBytes : Nat} {listed : List GitEntry}

/-- A file that discovery should return: git lists it, it is what a listed entry
resolves to below the root, and it passes the filters by its own name and content. -/
structure Admissible (co : Checkout) (maxBytes : Nat) (listed : List GitEntry) (path : RelPath) :
    Prop where
  isListed : path.encode ∈ listed
  inside : ∃ entry ∈ listed, co.resolve entry.decode = some path
  name : path.NamePasses
  content : ∃ bytes, co.read path = some bytes ∧ ContentPasses maxBytes bytes

/-- A listed entry whose name passes the filters and leads astray: to a readable small text
file of another name, which git does not list or whose own name is filtered. -/
structure Bypass (co : Checkout) (maxBytes : Nat) (listed : List GitEntry) (entry : GitEntry)
    (file : RelPath) : Prop where
  isListed : entry ∈ listed
  innocent : entry.decode.NamePasses
  leads : co.resolve entry.decode = some file
  astray : file.encode ≠ entry
  barred : file.encode ∉ listed ∨ ¬ file.NamePasses
  content : ∃ bytes, co.read file = some bytes ∧ ContentPasses maxBytes bytes

/-- Without links and without names that are not UTF-8 nothing leads astray. -/
theorem not_bypass {entry : GitEntry} {file : RelPath}
    (hutf8 : ∀ entry ∈ listed, entry.decode.encode = entry)
    (hlinks : ∀ entry ∈ listed, ∀ file, co.resolve entry.decode = some file →
      file = entry.decode) : ¬ co.Bypass maxBytes listed entry file := by
  intro hbypass
  have hfile := hlinks entry hbypass.isListed file hbypass.leads
  exact hbypass.astray (hfile ▸ hutf8 entry hbypass.isListed)

end Checkout

/-- `a`, a byte that begins no character, and `.py`. -/
def brokenEntry : GitEntry := ⟨[[0x61, 0xFF, 0x2E, 0x70, 0x79]], by decide, by decide, by decide⟩

/-- Git lists that file, and ignores the one of the name with the byte replaced. -/
def brokenCheckout : Checkout where
  head := some "c1"
  lsFiles := .ok [brokenEntry]
  resolve := some
  read path := if path = brokenEntry.decode then some "X = 1\n".toUTF8 else none

/-- The file that is ignored is the one that is returned. -/
example : brokenCheckout.Bypass 1000000 [brokenEntry] brokenEntry brokenEntry.decode where
  isListed := List.mem_singleton_self _
  innocent := ⟨by decide +kernel, by decide +kernel, by decide +kernel, by decide +kernel⟩
  leads := rfl
  astray := by decide +kernel
  barred := Or.inl (by decide +kernel)
  content := ⟨"X = 1\n".toUTF8, by decide +kernel, ⟨by decide +kernel, by decide +kernel⟩⟩

end RepoMesh
