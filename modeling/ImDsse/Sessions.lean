import Mathlib.Data.List.Dedup
import Mathlib.Data.List.Perm.Subperm
import ImDsse.Database
import ImDsse.Remote

/-!
What a session shows its user.

The user's collection is a list of files, and a search counts the files that have the
keyword (`collectionMachine`). The client over a server that behaves as a store counts
the same files, step by step (`Holds.goes_along`): nothing of rows, columns, keys or blocks
is left in what it reports. With the sockets between them it shows the same counts,
however the two sides and the lines take turns (`session_counts`).
-/

namespace ImDsse

open Kit Kit.Bits Kit.Pool

variable {σ : Type} {τ : Type} {Key : Type} [DecidableEq τ]

/-- The paths of the files that have a keyword. -/
def having (fs : List FileEntry) (keyword : Str) : List Str :=
  ((fs.filter fun f => f.keywords.contains keyword).map (·.path)).dedup

/-- The collection on its own. -/
def collectionMachine : Machine (List FileEntry) ClientOp (Option Nat) where
  step fs op := some (filesAfter fs op, match op with
    | .searchKeyword keyword => some (having fs (lowerCase keyword)).length
    | _ => none)

/-- The collection takes every operation. -/
theorem collectionMachine_exec (fs : List FileEntry) (ops : List ClientOp) :
    collectionMachine.exec fs ops = some (ops.foldl filesAfter fs) := by
  induction ops generalizing fs with
  | nil => rfl
  | cons op ops ih => exact ih (filesAfter fs op)

/-- The number an operation shows. -/
def Shown.count : Shown → Option Nat
  | .searched res _ => some res
  | .updated _ _ => none

theorem mem_having {fs : List FileEntry} {keyword path : Str} :
    path ∈ having fs keyword ↔ ∃ f ∈ fs, keyword ∈ f.keywords ∧ f.path = path := by
  simp [having, and_assoc]

section Store

variable {cfg : Config} {cr : Cipher Key} {td : Trapdoor τ}
  {srv : Machine σ (Command Key) (Response Key)} {ref : Refinement cfg cr srv}
  (size : cfg.Sized) (distinct : Function.Injective td.omac)
  {p p' : σ × Client τ Key} {fs : List FileEntry} {op : ClientOp} {report : Report}
include size distinct

/-- A search finds as many columns as files have the keyword. -/
theorem Holds.count {keyword : Str} (h : Holds ref td p fs)
    (reads : ReadsIndices td p.2.tables fs (.searchKeyword keyword))
    (step : (clientMachine cfg cr td srv).step p (.searchKeyword keyword) = some (p', report)) :
    ∃ ids, report = .searched ids ∧ ids.length = (having fs (lowerCase keyword)).length ∧
      ids.length ≤ cfg.maxNumOfFiles := by
  obtain ⟨ids, rfl, increasing, found⟩ := h.search size distinct reads step
  obtain ⟨M, t, -, -, indexed⟩ := h
  have split := indexed.columns
  have each : ids.Nodup := increasing.imp Nat.ne_of_lt
  let column (path : Str) : Nat := (p.2.tables.tF.lookup (td.omac path)).getD 0
  have lookup {path : Str} (present : ∃ f ∈ fs, f.path = path) :
      p.2.tables.tF.lookup (td.omac path) = some (column path) := by
    obtain ⟨f, mem, rfl⟩ := present
    obtain ⟨j, entry⟩ := exists_lookup ((indexed.paths _).mpr ⟨f, mem, rfl⟩)
    rw [entry]
    exact congrArg some (by simp [column, entry])
  have columns : ((having fs (lowerCase keyword)).map column).Nodup := by
    refine (List.nodup_dedup _).map_on fun path has path' has' same => ?_
    obtain ⟨f, mem, -, path_⟩ := mem_having.mp has
    obtain ⟨f', mem', -, path'_⟩ := mem_having.mp has'
    have entry := lookup ⟨f, mem, path_⟩
    have entry' := lookup ⟨f', mem', path'_⟩
    exact distinct (split.injective entry (same ▸ entry') rfl)
  have perm : ids.Perm ((having fs (lowerCase keyword)).map column) := by
    refine (List.perm_ext_iff_of_nodup each columns).mpr fun j => ?_
    rw [found, List.mem_map]
    constructor
    · rintro ⟨f, mem, has, entry⟩
      refine ⟨f.path, mem_having.mpr ⟨f, mem, has, rfl⟩, ?_⟩
      exact Option.some.inj ((lookup ⟨f, mem, rfl⟩).symm.trans entry)
    · rintro ⟨path, has, rfl⟩
      obtain ⟨f, mem, word, rfl⟩ := mem_having.mp has
      exact ⟨f, mem, word, lookup ⟨f, mem, rfl⟩⟩
  refine ⟨ids, rfl, ?_, ?_⟩
  · rw [perm.length_eq, List.length_map]
  · have within : ids ⊆ List.range cfg.maxNumOfFiles := fun j mem => by
      obtain ⟨f, -, -, entry⟩ := (found j).mp mem
      exact split.mem_all (.inl (mem_values_of_lookup entry)) rfl
    have fewer := (each.subperm within).length_le
    rwa [List.length_range] at fewer

/-- A step shows what the collection counts. -/
theorem Holds.counted (bounds : cfg.Addressable) (h : Holds ref td p fs)
    (reads : ReadsIndices td p.2.tables fs op)
    (step : (clientMachine cfg cr td srv).step p op = some (p', report)) :
    collectionMachine.step fs op = some (filesAfter fs op, (report.shown cfg).count) := by
  cases op with
  | searchKeyword keyword =>
    obtain ⟨ids, rfl, count, fits⟩ := h.count size distinct reads step
    have small : ids.length % 2 ^ 64 = ids.length :=
      Nat.mod_eq_of_lt (Nat.lt_of_le_of_lt fits bounds.files)
    rw [Report.shown, Shown.count, small, count]
    rfl
  | addFile path content draws =>
    obtain ⟨j, columns, rows, IBar, e, -, -, -, -, -, rfl⟩ := addFile_cases reads.1 step
    rfl
  | delFile path draws =>
    obtain ⟨j, columns, e, -, -, -, -, rfl⟩ := delFile_cases step
    rfl

/-- A step goes on as the collection does, and shows what the collection counts. -/
theorem Holds.goes_along (bounds : cfg.Addressable) (h : Holds ref td p fs)
    (reads : ReadsIndices td p.2.tables fs op) (enough : Suffices td p.2 op) :
    ∃ p' report, (clientMachine cfg cr td srv).step p op = some (p', report) ∧
      Holds ref td p' (filesAfter fs op) ∧
      collectionMachine.step fs op = some (filesAfter fs op, (report.shown cfg).count) := by
  obtain ⟨⟨p', report⟩, step⟩ := h.goes_on size reads enough
  exact ⟨p', report, step, h.step size distinct reads step,
    h.counted size distinct bounds reads step⟩

/-- A run goes on as the collection does, and shows what the collection counts. -/
theorem Holds.run (bounds : cfg.Addressable) (h : Holds ref td p fs) {ops : List ClientOp}
    (good : ((clientMachine cfg cr td srv).track filesAfter).Along
      (fun p op => ReadsIndices td p.1.2.tables p.2 op ∧ Suffices td p.1.2 op) (p, fs) ops) :
    (∃ p', (clientMachine cfg cr td srv).exec p ops = some p') ∧
      ((clientMachine cfg cr td srv).outputs p ops).map (fun report => (report.shown cfg).count) =
        collectionMachine.outputs fs ops := by
  have agree (q : (σ × Client τ Key) × List FileEntry) (fs : List FileEntry) (op : ClientOp)
      (rel : Holds ref td q.1 q.2 ∧ q.2 = fs)
      (good : ReadsIndices td q.1.2.tables q.2 op ∧ Suffices td q.1.2 op) :
      Machine.Lockstep (fun q fs => Holds ref td q.1 q.2 ∧ q.2 = fs)
        (fun report count => (report.shown cfg).count = count)
        (((clientMachine cfg cr td srv).track filesAfter).step q op)
        (collectionMachine.step fs op) := by
    obtain ⟨p, _⟩ := q
    obtain ⟨holds, rfl⟩ := rel
    obtain ⟨p', report, step, holds', counted⟩ :=
      Holds.goes_along size distinct bounds holds good.1 good.2
    have tracked : ((clientMachine cfg cr td srv).track filesAfter).step (p, _) op =
        some ((p', filesAfter _ op), report) := Machine.track_step.mpr ⟨step, rfl⟩
    rw [tracked, counted]
    exact .some ⟨⟨holds', rfl⟩, rfl⟩
  obtain ⟨counted, together⟩ := Machine.simulation agree ⟨h, rfl⟩ good
  obtain ⟨outputs, forgets⟩ := Machine.track_forgets (clientMachine cfg cr td srv) filesAfter p fs ops
  rw [outputs] at counted
  refine ⟨?_, List.forall₂_eq_eq_eq ▸ List.forall₂_map_left_iff.mpr counted⟩
  rw [collectionMachine_exec] at together
  cases tracked : ((clientMachine cfg cr td srv).track filesAfter).exec (p, fs) ops with
  | none =>
    rw [tracked] at together
    cases together
  | some q =>
    rw [tracked] at forgets
    cases run : (clientMachine cfg cr td srv).exec p ops with
    | none =>
      rw [run] at forgets
      cases forgets
    | some p' => exact ⟨p', rfl⟩

/-! ### Over the sockets -/

end Store

section Sockets

variable {cfg : Config} (size : cfg.Sized) (pieces : cfg.Pieces) (bounds : cfg.Addressable)
  {cr : Cipher BlockKey} {td : Trapdoor τ} (distinct : Function.Injective td.omac)
  {b : Backend σ BlockKey} (tokens : b.token = bufferToken) (ref : Refinement cfg cr b.index)
include size pieces bounds distinct tokens ref

/-- From any setup on, over any server that behaves as a store and any socket that keeps
the order of a request and its reply: a session whose steps read indices as they were
assigned, and have rows and columns left, comes to an end however the two sides and the
lines take turns, and shows for each search how many files of the collection have the
keyword then. -/
theorem session_counts (padding : Nat → Byte) {path : Str} {db : Listing} {dict : List Str}
    {kc bc draws : Nat → Nat} {files : PieceFiles} {out : SetupState τ}
    (setup : setupDataStructure cfg cr td path db dict kc bc draws files = some out) {s : σ}
    (rel : ref.Rel s ((out.server cfg).cells cfg)) (buffer : Buf) {ops : List ClientOp}
    (good : ((clientMachine cfg cr td b.index).track filesAfter).Along
      (fun p op => ReadsIndices td p.1.2.tables p.2 op ∧ Suffices td p.1.2 op)
      ((s, out.client cfg cr), db.files path) ops) :
    ∃ shown c' requests buffer' s' replies,
      Meeting.Settles (Remote.loop b)
        (Remote.start cfg cr td padding b ops (out.client cfg cr) buffer s)
        (Remote.ended b shown c' requests buffer' s' replies) ∧
      shown.map Shown.count = collectionMachine.outputs (db.files path) ops := by
  have setUp := (setupDataStructure_spec size.blockSize pieces cr (sizesPass_of_setup setup)
    kc bc draws files).1 out setup
  obtain ⟨M, consistent, indexed⟩ := setUp.indexed size
  have holds : Holds ref td (s, out.client cfg cr) (db.files path) :=
    ⟨M, _, rel, consistent, indexed⟩
  obtain ⟨⟨⟨s', c'⟩, run⟩, counted⟩ := holds.run size distinct bounds good
  have pass := sizesPass_of_setup setup
  have inRange : (out.client cfg cr).tables.InRange cfg :=
    ⟨Nat.zero_lt_of_lt pass.keywords, Nat.zero_lt_of_lt pass.files, setUp.rows.within,
      setUp.columns.within⟩
  obtain ⟨buffer', requests, replies, settles⟩ := (Remote.session_returns tokens bounds inRange
    run).settles (Remote.loop_waits b) buffer
  refine ⟨_, c', requests, buffer', s', replies, settles, ?_⟩
  rw [List.map_map]
  exact counted

end Sockets

/-! ### A small session -/

instance (td : Trapdoor τ) (c : Client τ Key) (op : ClientOp) : Decidable (Suffices td c op) :=
  match op with
  | .searchKeyword keyword => decidable_of_iff
      (∀ row ∈ c.tables.tW.lookup (td.generate (cStr (lowerCase keyword))),
        c.index.keywordCounterArr row ≠ ulongMax) Iff.rfl
  | .addFile path content _ => inferInstanceAs (Decidable
      ((c.tables.lstFreeColumnIdx ≠ [] ∨ td.omac path ∈ c.tables.tF) ∧
        (extractKeywords [] content).length ≤ c.tables.lstFreeRowIdx.length))
  | .delFile path _ => inferInstanceAs (Decidable
      (c.tables.lstFreeColumnIdx ≠ [] ∨ td.omac path ∈ c.tables.tF))

/-- "A" is searched, a file "h" with the words "a" and "d" added, "f" deleted, and "a"
searched. -/
def smallChoices : List ClientOp := smallOps ++ [.searchKeyword [0x61#8]]

/-- The server behind its loop. -/
def countingBackend : Backend RamServer BlockKey :=
  Remote.indexBackend (ramServer (smallConfig 1 false) Remote.smallBlockCipher)

/-- The small setup with keys of bytes. -/
def countingBuild : Option (SetupState Str) :=
  setupDataStructure (smallConfig 1 false) Remote.smallBlockCipher smallTrapdoor [0x2f#8] smallDb []
    (fun _ => 0) (fun _ => 0) (fun n => 3 * n + 1) fun _ => none

/-- Two files have "a" at first, and two again in the end. -/
theorem session_counts_small : ∃ out shown c' requests buffer' s' replies,
    countingBuild = some out ∧
    Meeting.Settles (Remote.loop countingBackend)
      (Remote.start (smallConfig 1 false) Remote.smallBlockCipher smallTrapdoor (fun _ => 0xaa)
        countingBackend smallChoices (out.client (smallConfig 1 false) Remote.smallBlockCipher) zeroBuf
        (out.server (smallConfig 1 false)))
      (Remote.ended countingBackend shown c' requests buffer' s' replies) ∧
    shown.map Shown.count = [some 2, none, none, some 2] := by
  have evaluated : countingBuild.map (fun out =>
      ((clientMachine (smallConfig 1 false) Remote.smallBlockCipher smallTrapdoor
        countingBackend.index).track filesAfter).check
          (fun p op => decide (ReadsIndices smallTrapdoor p.1.2.tables p.2 op ∧
            Suffices smallTrapdoor p.1.2 op))
          ((out.server (smallConfig 1 false), out.client (smallConfig 1 false)
            Remote.smallBlockCipher), smallDb.files [0x2f#8]) smallChoices) = some true := by
    decide +kernel
  obtain ⟨out, setup, good⟩ := Option.map_eq_some_iff.mp evaluated
  have size := smallConfig_sized false (.inl rfl) (Nat.one_dvd 8)
  have pieces := smallConfig_pieces false (Nat.one_dvd 8)
  obtain ⟨shown, c', requests, buffer', s', replies, settles, counted⟩ :=
    session_counts size pieces ⟨by decide, by decide⟩ Function.injective_id (b := countingBackend) rfl
      (ramRefinement size.tiled Remote.smallBlockCipher) (fun _ => 0xaa) setup rfl zeroBuf
      (Machine.along_of_check (fun _ _ h => of_decide_eq_true h) good)
  refine ⟨out, shown, c', requests, buffer', s', replies, setup, settles, counted.trans ?_⟩
  decide +kernel

end ImDsse
