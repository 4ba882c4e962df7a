import ImDsse.Kit.Bits
import Mathlib.Data.List.DropRight

/-!
The words of a file (`KeywordExtraction::extractKeywords`).

A file is read line by line, each line is trimmed and cut at the characters of
`delimiter`, and the words are lower-cased into a `set<string>`. The set is the
sorted list of its elements, the order in which the callers go through it. A
word may hold any byte that is no delimiter, NUL among them.
-/

namespace ImDsse

open Kit.Bits

/-- `std::string` -/
abbrev Str := List Byte

/-- The white space of the C locale, which `trim` removes. -/
def isSpace (c : Byte) : Bool := c ∈ [0x20#8, 0x09#8, 0x0a#8, 0x0b#8, 0x0c#8, 0x0d#8]

/-- `boost::trim` -/
def trim (s : Str) : Str := (s.dropWhile isSpace).rdropWhile isSpace

/-- `delimiter`: the punctuation of ASCII except the underscore, the white space,
`\b` and `\a`. -/
def delimiter : Str :=
  [0x60#8, 0x2d#8, 0x3d#8, 0x5b#8, 0x5d#8, 0x5c#8, 0x3b#8, 0x27#8, 0x2c#8, 0x2e#8, 0x2f#8,
    0x7e#8, 0x21#8, 0x40#8, 0x23#8, 0x24#8, 0x25#8, 0x5e#8, 0x26#8, 0x2a#8, 0x28#8, 0x29#8,
    0x2b#8, 0x7b#8, 0x7d#8, 0x7c#8, 0x3a#8, 0x22#8, 0x3c#8, 0x3e#8, 0x3f#8, 0x20#8, 0x0a#8,
    0x09#8, 0x0b#8, 0x08#8, 0x0d#8, 0x0c#8, 0x07#8]

/-- `tolower` of a byte in the C locale. -/
def toLower (c : Byte) : Byte := if 0x41#8 ≤ c ∧ c ≤ 0x5a#8 then c + 0x20#8 else c

/-- `std::transform(.., ::tolower)` -/
def lowerCase (s : Str) : Str := s.map toLower

/-- The lines `getline` reads, `line` being read so far. An empty rest of the
file is no line. -/
def getlines (line : Str) : List Byte → List Str
  | [] => if line.isEmpty then [] else [line]
  | c :: rest => if c = 0x0a#8 then line :: getlines [] rest else getlines (line ++ [c]) rest

/-- The pieces of a line between delimiters; `word` is `line.substr(prev, pos - prev)`
at position `pos` and counts when it is not empty. -/
def pieces (word : Str) : Str → List Str
  | [] => if word.isEmpty then [] else [word]
  | c :: rest =>
    if c ∈ delimiter then if word.isEmpty then pieces [] rest else word :: pieces [] rest
    else pieces (word ++ [c]) rest

/-- Order of `std::string`, by unsigned bytes. -/
def strLess : Str → Str → Bool
  | _, [] => false
  | [], _ :: _ => true
  | a :: s, b :: t => if a = b then strLess s t else a < b

/-- `set<string>::insert` -/
def insertWord (word : Str) : List Str → List Str
  | [] => [word]
  | w :: ws =>
    if word = w then w :: ws
    else if strLess word w then word :: w :: ws else w :: insertWord word ws

/-- `KeywordExtraction::extractWords_using_find_first_of`, by lines and pieces; the loop
over positions is `extractWordsUsingFindFirstOf`. -/
def extractWords (dictionary : List Str) (content : List Byte) : List Str :=
  (getlines [] content).foldl (fun dictionary line =>
    (pieces [] (trim line)).foldl (fun dictionary word =>
      insertWord (lowerCase (trim word)) dictionary) dictionary) dictionary

/-- `KeywordExtraction::extractKeywords`; a file that cannot be opened adds nothing. -/
def extractKeywords (dictionary : List Str) : Option (List Byte) → List Str
  | none => dictionary
  | some content => extractWords dictionary content

/-! ### No word is empty -/

theorem mem_insertWord {v word : Str} {ws : List Str} :
    v ∈ insertWord word ws ↔ v = word ∨ v ∈ ws := by
  induction ws with
  | nil => simp [insertWord]
  | cons w ws ih =>
    unfold insertWord
    split
    · next same => subst same; simp
    · split
      · simp
      · rw [List.mem_cons, ih, List.mem_cons]
        tauto

/-- A delimiter ends every piece, and all white space is among the delimiters. -/
theorem space_delimits {c : Byte} (h : isSpace c = true) : c ∈ delimiter := by
  simp only [isSpace, List.mem_cons, List.not_mem_nil, or_false, decide_eq_true_eq] at h
  rcases h with rfl | rfl | rfl | rfl | rfl | rfl <;> decide

/-- The pieces are not empty and hold no delimiter. -/
theorem mem_pieces {word line piece : Str} (clean : ∀ c ∈ word, c ∉ delimiter)
    (h : piece ∈ pieces word line) : piece ≠ [] ∧ ∀ c ∈ piece, c ∉ delimiter := by
  induction line generalizing word with
  | nil =>
    simp only [pieces, List.isEmpty_iff] at h
    split at h
    · cases h
    · next some =>
      obtain rfl := List.mem_singleton.mp h
      exact ⟨some, clean⟩
  | cons c rest ih =>
    have none : ∀ c ∈ ([] : Str), c ∉ delimiter := fun c hc => by cases hc
    simp only [pieces, List.isEmpty_iff] at h
    split at h
    · split at h
      · exact ih none h
      · next some =>
        rcases List.mem_cons.mp h with rfl | h
        · exact ⟨some, clean⟩
        · exact ih none h
    · next inside =>
      refine ih (fun c' hc' => ?_) h
      rcases List.mem_append.mp hc' with hc' | hc'
      · exact clean c' hc'
      · obtain rfl := List.mem_singleton.mp hc'
        exact inside

/-- Nothing is trimmed off a piece. -/
theorem trim_of_clean {s : Str} (clean : ∀ c ∈ s, c ∉ delimiter) : trim s = s := by
  have noSpace : ∀ c ∈ s, isSpace c = false := by
    intro c hc
    by_contra h
    exact clean c hc (space_delimits (by simpa using h))
  have front : s.dropWhile isSpace = s := by
    cases s with
    | nil => rfl
    | cons c s => rw [List.dropWhile_cons_of_neg (by simp [noSpace c List.mem_cons_self])]
  rw [trim, front, List.rdropWhile_eq_self_iff]
  intro ne
  simp [noSpace _ (List.getLast_mem ne)]

/-- What `extractKeywords` adds are words of at least one character. -/
theorem extractKeywords_ne_nil {dictionary : List Str} (h : [] ∉ dictionary)
    (content : Option (List Byte)) : [] ∉ extractKeywords dictionary content := by
  cases content with
  | none => exact h
  | some content =>
    refine List.foldlRecOn (motive := fun d => [] ∉ d) _ _ h fun d hd line _ => ?_
    refine List.foldlRecOn (motive := fun d => [] ∉ d) _ _ hd fun d hd piece mem => ?_
    obtain ⟨ne, clean⟩ := mem_pieces (fun c hc => by cases hc) mem
    intro empty
    rcases mem_insertWord.mp empty with empty | empty
    · rw [trim_of_clean clean] at empty
      exact ne (List.map_eq_nil_iff.mp empty.symm)
    · exact hd empty

end ImDsse
