import ImDsse.Tables

/-!
The two passes of the setup over the file collection (`DSSE::scanDatabase` and
`DSSE::createKeyword_file_pair`).

A directory is a `Listing`, its entries in the order `readdir` gives them. The
first pass marks every path in `T_F` and every keyword in `T_W`; the second gives
each marked key an index at random and lists the rows of every column. Both go
through the same files in the same order, `Listing.files`, so each pass is one
fold over that list.
-/

namespace ImDsse

open Kit Kit.Bits Kit.Pool

universe u

variable {τ : Type u} [DecidableEq τ]

/-- A directory. A file that cannot be opened has no content; of an invalid entry
`stat` fails. Directories that cannot be opened are left out: `scanDatabase` passes
over them, but `createKeyword_file_pair` deletes a `pEntry` nothing has set. -/
inductive Listing where
  | nil
  | file (name : Str) (content : Option (List Byte)) (rest : Listing)
  | dir (name : Str) (entries : Listing) (rest : Listing)
  | invalid (name : Str) (rest : Listing)

/-- A file of the collection: its name with path, and its content. -/
structure FileEntry where
  path : Str
  content : Option (List Byte)

/-- The keywords of a file. -/
def FileEntry.keywords (f : FileEntry) : List Str := extractKeywords [] f.content

/-- The entries "." and "..", which both passes skip. -/
def isDot (name : Str) : Bool := name ∈ [[0x2e#8], [0x2e#8, 0x2e#8]]

/-- The files below a directory, in the order of the passes. -/
def Listing.files (path : Str) : Listing → List FileEntry
  | .nil => []
  | .file name content rest =>
    (if isDot name then [] else [⟨path ++ name, content⟩]) ++ rest.files path
  | .dir name entries rest =>
    (if isDot name then [] else entries.files (path ++ name ++ [0x2f#8])) ++ rest.files path
  | .invalid _ rest => rest.files path

/-! ### The first pass -/

/-- What `scanDatabase` fills. -/
structure Scan (τ : Type u) where
  rFileNames : List Str
  rKeywordsDictionary : List Str
  tW : Table τ
  tF : Table τ

section Scan

variable (cfg : Config) (td : Trapdoor τ)

/-- One keyword of a file. -/
def scanWord (s : Scan τ) (word : Str) : Scan τ :=
  if 0 < word.length then
    { s with
      rKeywordsDictionary := insertWord word s.rKeywordsDictionary
      tW := s.tW.insert (td.omac word) cfg.keywordNotExist }
  else s

/-- One file. -/
def scanFile (s : Scan τ) (f : FileEntry) : Scan τ :=
  f.keywords.foldl (scanWord cfg td)
    { s with
      tF := s.tF.insert (td.omac f.path) cfg.fileNotExist
      rFileNames := s.rFileNames ++ [cStr f.path] }

/-- `DSSE::scanDatabase` -/
def scanDatabase : Str → Listing → Scan τ → Scan τ
  | _, .nil, s => s
  | path, .file name content rest, s =>
    scanDatabase path rest
      (if isDot name then s else scanFile cfg td s ⟨path ++ name, content⟩)
  | path, .dir name entries rest, s =>
    scanDatabase path rest
      (if isDot name then s else scanDatabase (path ++ name ++ [0x2f#8]) entries s)
  | path, .invalid _ rest, s => scanDatabase path rest s

/-- The first pass is a fold over the files. -/
theorem scanDatabase_eq (path : Str) (db : Listing) (s : Scan τ) :
    scanDatabase cfg td path db s = (db.files path).foldl (scanFile cfg td) s := by
  induction db generalizing path s with
  | nil => rfl
  | file name content rest ih =>
    rw [scanDatabase, ih, Listing.files, List.foldl_append]
    split <;> rfl
  | dir name entries rest ihEntries ih =>
    rw [scanDatabase, ih, Listing.files, List.foldl_append]
    split
    · rfl
    · rw [ihEntries]
  | invalid name rest ih => exact ih path s

end Scan

/-! ### The second pass -/

/-- What `createKeyword_file_pair` works on. -/
structure Pairing (τ : Type u) where
  kwFilePair : Nat → List Nat
  tW : Table τ
  tF : Table τ
  lstFreeKeywordIdx : List Nat
  lstFreeFileIdx : List Nat
  draws : Nat → Nat

section Pair

variable (cfg : Config) (td : Trapdoor τ)

/-- The keywords of the file with path `path`. -/
def pairWords (path : Str) : List Str → Pairing τ → Option (Pairing τ)
  | [], s => some s
  | word :: words, s =>
    if 0 < word.length then
      (assignIndex cfg.keywordNotExist ⟨s.tW, s.lstFreeKeywordIdx, s.draws⟩
          (td.omac word)).bind fun rows =>
        let (row, tW) := index rows.table (td.omac word)
        let (fileIndex, tF) := index s.tF (td.omac path)
        pairWords path words
          { kwFilePair := Function.update s.kwFilePair fileIndex (s.kwFilePair fileIndex ++ [row])
            tW := tW
            tF := tF
            lstFreeKeywordIdx := rows.free
            lstFreeFileIdx := s.lstFreeFileIdx
            draws := rows.draws }
    else pairWords path words s

/-- One file. -/
def pairFile (s : Pairing τ) (f : FileEntry) : Option (Pairing τ) :=
  (assignIndex cfg.fileNotExist ⟨s.tF, s.lstFreeFileIdx, s.draws⟩ (td.omac f.path)).bind
    fun columns =>
      pairWords cfg td f.path f.keywords
        { s with tF := columns.table, lstFreeFileIdx := columns.free, draws := columns.draws }

/-- `DSSE::createKeyword_file_pair` -/
def createKeywordFilePair : Str → Listing → Pairing τ → Option (Pairing τ)
  | _, .nil, s => some s
  | path, .file name content rest, s =>
    (if isDot name then some s else pairFile cfg td s ⟨path ++ name, content⟩).bind fun s =>
      createKeywordFilePair path rest s
  | path, .dir name entries rest, s =>
    (if isDot name then some s
      else createKeywordFilePair (path ++ name ++ [0x2f#8]) entries s).bind fun s =>
      createKeywordFilePair path rest s
  | path, .invalid _ rest, s => createKeywordFilePair path rest s

/-- The second pass is a fold over the files. -/
theorem createKeywordFilePair_eq (path : Str) (db : Listing) (s : Pairing τ) :
    createKeywordFilePair cfg td path db s = (db.files path).foldlM (pairFile cfg td) s := by
  induction db generalizing path s with
  | nil => rfl
  | file name content rest ih =>
    rw [createKeywordFilePair, Listing.files, List.foldlM_append, funext (ih path)]
    split
    · rfl
    · rw [List.foldlM_cons]
      simp only [List.foldlM_nil, Option.bind_eq_bind, Option.pure_def, Option.bind_fun_some]
  | dir name entries rest ihEntries ih =>
    rw [createKeywordFilePair, Listing.files, List.foldlM_append, funext (ih path)]
    split
    · rfl
    · rw [ihEntries]
      rfl
  | invalid name rest ih => exact ih path s

end Pair

end ImDsse
