import ImDsse.Keyword
import ImDsse.Kit.Runs

/-!
What `extractWords_using_find_first_of` puts into the dictionary.

Here the function is followed position by position: `getline` until the file ends, and
in each trimmed line `find_first_of` from `prev` on, with the rest of the line as the
last word. It comes to the words of `extractWords`, and these are, lower-cased, the
maximal runs of the file without a delimiter: an end of line is a delimiter, and only
delimiters are trimmed.
-/

namespace ImDsse

open Kit.Bits Kit.Runs

/-- `line.find_first_of(delimiter, pos)` -/
def findFirstOf (line : Str) (pos : Nat) : Option Nat :=
  ((line.drop pos).findIdx? (· ∈ delimiter)).map (pos + ·)

/-- `line.substr(pos, n)` -/
def substr (line : Str) (pos n : Nat) : Str := (line.drop pos).take n

/-- `getline`: the line, and what is left to read; it fails at the end of the file. -/
def getline (rFin : List Byte) : Option (Str × List Byte) :=
  if rFin.isEmpty then none
  else some (rFin.takeWhile (· ≠ 0x0a#8), (rFin.dropWhile (· ≠ 0x0a#8)).drop 1)

/-- The dictionary and `*pKeywordNum`. -/
structure Extraction where
  rKeywordsDictionary : List Str
  pKeywordNum : Nat

/-- A word is trimmed, lower-cased, inserted and counted. -/
def Extraction.add (s : Extraction) (word : Str) : Extraction where
  rKeywordsDictionary := insertWord (lowerCase (trim word)) s.rKeywordsDictionary
  pKeywordNum := (s.pKeywordNum + 1) % 2 ^ 64

/-- The word from `prev` up to `pos`, when there is one. -/
def Extraction.addPiece (s : Extraction) (line : Str) (prev pos : Nat) : Extraction :=
  if prev < pos then s.add (substr line prev (pos - prev)) else s

/-- A position found is in the line, at `pos` or behind it. -/
theorem findFirstOf_bounds {line : Str} {prev pos : Nat} (h : findFirstOf line prev = some pos) :
    prev ≤ pos ∧ pos < line.length := by
  obtain ⟨i, found, rfl⟩ := Option.map_eq_some_iff.mp h
  have inside := (List.findIdx?_eq_some_iff_getElem.mp found).1
  rw [List.length_drop] at inside
  omega

/-- The inner loop, from `prev` on, and the rest of the line behind it. -/
def scanLine (line : Str) (prev : Nat) (s : Extraction) : Extraction :=
  match _found : findFirstOf line prev with
  | some pos => scanLine line (pos + 1) (s.addPiece line prev pos)
  | none => s.addPiece line prev line.length
termination_by line.length - prev
decreasing_by
  have := findFirstOf_bounds _found
  omega

/-- What `getline` leaves is shorter. -/
theorem getline_length {rFin rest : List Byte} {line : Str} (h : getline rFin = some (line, rest)) :
    rest.length < rFin.length := by
  unfold getline at h
  split at h
  · cases h
  · next some =>
    cases h
    have shorter := List.length_dropWhile_le (p := (· ≠ 0x0a#8)) rFin
    have pos : rFin ≠ [] := by simpa using some
    have := List.length_pos_iff.mpr pos
    rw [List.length_drop]
    omega

/-- `KeywordExtraction::extractWords_using_find_first_of` -/
def extractWordsUsingFindFirstOf (s : Extraction) (rFin : List Byte) : Extraction :=
  match _read : getline rFin with
  | some (line, rest) => extractWordsUsingFindFirstOf (scanLine (trim line) 0 s) rest
  | none => s
termination_by rFin.length
decreasing_by exact getline_length _read

/-! ### The positions of a line -/

/-- What `find_first_of` says about the rest of the line. -/
theorem findFirstOf_some {line : Str} {prev pos : Nat} (h : findFirstOf line prev = some pos) :
    ∃ d ∈ delimiter, line.drop prev = substr line prev (pos - prev) ++ d :: line.drop (pos + 1) ∧
      ∀ c ∈ substr line prev (pos - prev), c ∉ delimiter := by
  obtain ⟨i, found, rfl⟩ := Option.map_eq_some_iff.mp h
  obtain ⟨inside, delimits, before⟩ := List.findIdx?_eq_some_iff_getElem.mp found
  refine ⟨(line.drop prev)[i], of_decide_eq_true delimits, ?_, fun c mem => ?_⟩
  · rw [substr, Nat.add_sub_cancel_left, Nat.add_assoc, ← List.drop_drop,
      ← List.drop_eq_getElem_cons inside, List.take_append_drop]
  · rw [substr, Nat.add_sub_cancel_left] at mem
    obtain ⟨j, hj, rfl⟩ := List.mem_iff_getElem.mp mem
    rw [List.length_take] at hj
    rw [List.getElem_take]
    simpa using before j (by omega)

theorem findFirstOf_none {line : Str} {prev : Nat} (h : findFirstOf line prev = none) :
    ∀ c ∈ line.drop prev, c ∉ delimiter := by
  have none := List.findIdx?_eq_none_iff.mp (Option.map_eq_none_iff.mp h)
  exact fun c mem => of_decide_eq_false (none c mem)

/-- The pieces of a line whose next delimiter is `d`. -/
theorem pieces_append {word front : Str} (clean : ∀ c ∈ front, c ∉ delimiter) {d : Byte}
    (delimits : d ∈ delimiter) (rest : Str) : pieces word (front ++ d :: rest) =
      (if (word ++ front).isEmpty then [] else [word ++ front]) ++ pieces [] rest := by
  induction front generalizing word with
  | nil =>
    rw [List.nil_append, pieces, if_pos delimits, List.append_nil]
    split <;> rfl
  | cons c front ih =>
    rw [List.cons_append, pieces, if_neg (clean c List.mem_cons_self),
      ih fun c' mem => clean c' (List.mem_cons_of_mem c mem), List.append_assoc]
    rfl

theorem pieces_of_clean {word line : Str} (clean : ∀ c ∈ line, c ∉ delimiter) :
    pieces word line = if (word ++ line).isEmpty then [] else [word ++ line] := by
  induction line generalizing word with
  | nil => rw [pieces, List.append_nil]
  | cons c line ih =>
    rw [pieces, if_neg (clean c List.mem_cons_self),
      ih fun c' mem => clean c' (List.mem_cons_of_mem c mem), List.append_assoc]
    rfl

/-- The word up to `pos`, as the pieces of a stretch without delimiters. -/
theorem addPiece_eq (s : Extraction) {line : Str} {prev pos : Nat} (inside : pos ≤ line.length) :
    s.addPiece line prev pos =
      (if (substr line prev (pos - prev)).isEmpty then []
        else [substr line prev (pos - prev)]).foldl Extraction.add s := by
  have length : (substr line prev (pos - prev)).length = pos - prev := by
    rw [substr, List.length_take, List.length_drop]
    omega
  unfold Extraction.addPiece
  by_cases some : prev < pos
  · have nonempty : (substr line prev (pos - prev)).isEmpty = false := by
      rw [List.isEmpty_eq_false_iff, ← List.length_pos_iff, length]
      exact Nat.sub_pos_of_lt some
    rw [if_pos some, nonempty]
    rfl
  · have none : (substr line prev (pos - prev)).isEmpty = true := by
      rw [List.isEmpty_iff, ← List.length_eq_zero_iff, length]
      exact Nat.sub_eq_zero_of_le (Nat.le_of_not_lt some)
    rw [if_neg some, none]
    rfl

/-- The scan adds the pieces of the line from `prev` on. -/
theorem scanLine_eq (line : Str) (prev : Nat) (s : Extraction) :
    scanLine line prev s = (pieces [] (line.drop prev)).foldl Extraction.add s := by
  fun_induction scanLine line prev s with
  | case1 prev s pos found ih =>
    obtain ⟨d, delimits, split, clean⟩ := findFirstOf_some found
    have inside := (findFirstOf_bounds found).2
    rw [ih, addPiece_eq s (Nat.le_of_lt inside), split, pieces_append clean delimits,
      List.nil_append, List.foldl_append]
  | case2 prev s none =>
    have rest : substr line prev (line.length - prev) = line.drop prev := by
      rw [substr, ← List.length_drop, List.take_length]
    rw [addPiece_eq s (Nat.le_refl _), rest, pieces_of_clean (findFirstOf_none none), List.nil_append]

/-! ### The lines of a file -/

theorem getline_none {rFin : List Byte} (h : getline rFin = none) : rFin = [] := by
  unfold getline at h
  split at h
  · next empty => exact List.isEmpty_iff.mp empty
  · cases h

/-- The next line, when the characters `word` of it are read already. -/
theorem getlines_eq {rFin : List Byte} (word : Str) (some : rFin ≠ []) :
    getlines word rFin = (word ++ rFin.takeWhile (· ≠ 0x0a#8)) ::
      getlines [] ((rFin.dropWhile (· ≠ 0x0a#8)).drop 1) := by
  induction rFin generalizing word with
  | nil => exact absurd rfl some
  | cons c rest ih =>
    rw [getlines]
    by_cases newline : c = 0x0a#8
    · subst newline
      simp
    · rw [if_neg newline, List.takeWhile_cons_of_pos (by simpa using newline),
        List.dropWhile_cons_of_pos (by simpa using newline)]
      cases rest with
      | nil => simp [getlines]
      | cons c' rest =>
        rw [ih (word ++ [c]) (List.cons_ne_nil c' rest), List.append_assoc]
        rfl

/-- The loop over the lines adds their pieces. -/
theorem extractWordsUsingFindFirstOf_eq (s : Extraction) (rFin : List Byte) :
    extractWordsUsingFindFirstOf s rFin = (getlines [] rFin).foldl
      (fun s line => (pieces [] (trim line)).foldl Extraction.add s) s := by
  fun_induction extractWordsUsingFindFirstOf s rFin with
  | case1 s rFin line rest read ih =>
    unfold getline at read
    split at read
    · cases read
    · next some =>
      cases read
      have some : rFin ≠ [] := fun empty => some (List.isEmpty_iff.mpr empty)
      have lines := getlines_eq [] some
      rw [ih, scanLine_eq, lines, List.nil_append, List.foldl_cons]
      rfl
  | case2 s rFin eof =>
    rw [getline_none eof]
    rfl

theorem foldl_add_dictionary (words : List Str) (s : Extraction) :
    (words.foldl Extraction.add s).rKeywordsDictionary = words.foldl
      (fun dictionary word => insertWord (lowerCase (trim word)) dictionary) s.rKeywordsDictionary := by
  induction words generalizing s with
  | nil => rfl
  | cons word words ih => exact ih (s.add word)

/-- The dictionary is that of `extractWords`. -/
theorem extractWordsUsingFindFirstOf_dictionary (s : Extraction) (rFin : List Byte) :
    (extractWordsUsingFindFirstOf s rFin).rKeywordsDictionary =
      extractWords s.rKeywordsDictionary rFin := by
  rw [extractWordsUsingFindFirstOf_eq, extractWords]
  induction getlines [] rFin generalizing s with
  | nil => rfl
  | cons line lines ih => rw [List.foldl_cons, ih, foldl_add_dictionary, List.foldl_cons]

/-! ### The words of a file -/

/-- A token of the file: a maximal run of bytes that are no delimiters. -/
def IsToken (content token : List Byte) : Prop := IsRun (· ∈ delimiter) content token

theorem isToken_of_clean {s token : Str} (clean : ∀ c ∈ s, c ∉ delimiter) :
    IsToken s token ↔ token = s ∧ s ≠ [] := isRun_of_clean clean

theorem isToken_cut {c : Byte} (delimits : c ∈ delimiter) {s rest token : Str} :
    IsToken (s ++ c :: rest) token ↔ IsToken s token ∨ IsToken rest token := isRun_cut delimits

/-- The pieces of a line are its tokens. -/
theorem mem_pieces_iff {word line token : Str} (clean : ∀ c ∈ word, c ∉ delimiter) :
    token ∈ pieces word line ↔ IsToken (word ++ line) token := by
  induction line generalizing word with
  | nil =>
    rw [pieces, List.append_nil, isToken_of_clean clean]
    cases word with
    | nil => simp
    | cons c word => simp
  | cons c line ih =>
    rw [pieces]
    by_cases delimits : c ∈ delimiter
    · have rest : token ∈ pieces [] line ↔ IsToken ([] ++ line) token :=
        ih fun c mem => by cases mem
      rw [if_pos delimits, isToken_cut delimits, isToken_of_clean clean]
      cases word with
      | nil => simpa using rest
      | cons d word => simpa using or_congr_right rest
    · rw [if_neg delimits, ih, List.append_assoc]
      · rfl
      · intro c' mem
        rcases List.mem_append.mp mem with mem | mem
        · exact clean c' mem
        · rw [List.mem_singleton.mp mem]
          exact delimits

/-- Trimming takes no token away. -/
theorem isToken_trim {line token : Str} : IsToken (trim line) token ↔ IsToken line token := by
  have spaces : ∀ c, isSpace c = true → c ∈ delimiter := fun _ => space_delimits
  exact (isRun_rdropWhile spaces).trans (isRun_dropWhile spaces)

/-- The tokens of the lines are those of the file. -/
theorem isToken_getlines {word content token : List Byte} :
    (∃ line ∈ getlines word content, IsToken line token) ↔ IsToken (word ++ content) token := by
  induction content generalizing word with
  | nil =>
    rw [getlines, List.append_nil]
    cases word with
    | nil =>
      have none : ¬ IsToken [] token := not_isRun_nil
      simp [none]
    | cons c word => simp
  | cons c content ih =>
    rw [getlines]
    by_cases newline : c = 0x0a#8
    · have delimits : c ∈ delimiter := newline ▸ by decide
      rw [if_pos newline, isToken_cut delimits]
      have rest : (∃ line ∈ getlines [] content, IsToken line token) ↔ IsToken ([] ++ content) token :=
        ih
      simpa using or_congr_right rest
    · rw [if_neg newline, ih, List.append_assoc]
      rfl

theorem mem_foldl_insertWord {w : Str} (words dictionary : List Str) :
    w ∈ words.foldl (fun dictionary word => insertWord (lowerCase (trim word)) dictionary) dictionary ↔
      w ∈ dictionary ∨ ∃ word ∈ words, w = lowerCase (trim word) := by
  induction words generalizing dictionary with
  | nil => simp
  | cons word words ih =>
    rw [List.foldl_cons, ih, mem_insertWord]
    simp only [List.mem_cons, exists_eq_or_imp]
    tauto

/-- The words of a line are its tokens in lower case. -/
theorem mem_extractLine {w line : Str} (dictionary : List Str) :
    w ∈ (pieces [] (trim line)).foldl
        (fun dictionary word => insertWord (lowerCase (trim word)) dictionary) dictionary ↔
      w ∈ dictionary ∨ ∃ token, IsToken line token ∧ w = lowerCase token := by
  rw [mem_foldl_insertWord]
  refine or_congr_right (exists_congr fun token => ?_)
  have empty : ∀ c ∈ ([] : Str), c ∉ delimiter := fun c mem => by cases mem
  rw [mem_pieces_iff empty, List.nil_append, isToken_trim]
  refine and_congr_right fun run => ?_
  rw [trim_of_clean run.clean]

theorem mem_extractWords {w : Str} (dictionary : List Str) (content : List Byte) :
    w ∈ extractWords dictionary content ↔
      w ∈ dictionary ∨ ∃ token, IsToken content token ∧ w = lowerCase token := by
  have lines : ∀ lines : List Str, w ∈ lines.foldl (fun dictionary line =>
      (pieces [] (trim line)).foldl (fun dictionary word =>
        insertWord (lowerCase (trim word)) dictionary) dictionary) dictionary ↔
      w ∈ dictionary ∨ ∃ line ∈ lines, ∃ token, IsToken line token ∧ w = lowerCase token := by
    intro lines
    induction lines generalizing dictionary with
    | nil => simp
    | cons line lines ih =>
      rw [List.foldl_cons, ih, mem_extractLine]
      simp only [List.mem_cons, exists_eq_or_imp]
      exact or_assoc
  rw [extractWords, lines]
  refine or_congr_right ⟨?_, ?_⟩
  · rintro ⟨line, mem, token, run, rfl⟩
    exact ⟨token, isToken_getlines.mp ⟨line, mem, run⟩, rfl⟩
  · rintro ⟨token, run, rfl⟩
    obtain ⟨line, mem, run⟩ := isToken_getlines.mpr (show IsToken ([] ++ content) token from run)
    exact ⟨line, mem, token, run, rfl⟩

/-- The function adds the tokens of the file in lower case, and nothing else. -/
theorem extraction_exact (s : Extraction) (content : List Byte) :
    (∀ w, w ∈ (extractWordsUsingFindFirstOf s content).rKeywordsDictionary ↔
      w ∈ s.rKeywordsDictionary ∨ ∃ token, IsToken content token ∧ w = lowerCase token) ∧
    ([] ∈ (extractWordsUsingFindFirstOf s content).rKeywordsDictionary ↔
      [] ∈ s.rKeywordsDictionary) ∧
    extractKeywords s.rKeywordsDictionary (some content) =
      (extractWordsUsingFindFirstOf s content).rKeywordsDictionary := by
  rw [extractWordsUsingFindFirstOf_dictionary]
  refine ⟨fun w => mem_extractWords _ _, ?_, rfl⟩
  rw [mem_extractWords]
  refine or_iff_left ?_
  rintro ⟨token, run, empty⟩
  exact run.nonempty (List.map_eq_nil_iff.mp empty.symm)

/-- Blanks around a line, a run of delimiters, a line without words, no end of line at
the end. -/
example : extractWords [] [0x20#8, 0x42#8, 0x2c#8, 0x2e#8, 0x61#8, 0x0d#8, 0x0a#8, 0x0a#8, 0x80#8] =
    [[0x61#8], [0x62#8], [0x80#8]] := by
  decide

end ImDsse
