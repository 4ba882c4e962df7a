import ImDsse.SetupCorrect
import ImDsse.Seu.Outcomes

/-!
Failed calls of the Android client.

`Harmless` says on which input a call that fails leaves counters and tables as they were:
when it fails before it has counted anything, of a file (and, where it gets that far, of
keywords) that the tables already know. Counters are raised and indices taken ahead of
the exchanges, and no error path takes anything back.
-/

namespace ImDsse.Seu

open Kit Kit.Bits Kit.Pool Kit.Text

variable {Key : Type} {σ : Type} {τ : Type}

/-- The keyword counters, the block counters, and the tables with the free lists. -/
def Books.kept (b : Books τ) : (Nat → Nat) × (Nat → Nat) × Tables τ :=
  (b.keywordCounterArr, b.blockCounterArr, b.tables)

variable [DecidableEq τ]

/-- The key has an index, and not the one that is taken for none. -/
def Known (t : Table τ) (key : τ) : Prop := ∃ v ∈ t.lookup key, v ≠ 0

instance (t : Table τ) (key : τ) : Decidable (Known t key) := by
  unfold Known
  infer_instance

/-! ### Lookups that take an index -/

/-- A lookup of a known key changes nothing, any other takes an index. -/
theorem assigned_known_or_taken {s s' : Picks τ} {key : τ} (h : Assigned 0 s key s') :
    Known s.table key ∧ s' = s ∨ ¬ Known s.table key ∧ s'.free.length < s.free.length := by
  cases h with
  | kept v found ne => exact .inl ⟨⟨v, found, ne⟩, rfl⟩
  | picked v free draws unassigned pick =>
    refine .inr ⟨?_, ?_⟩
    · rintro ⟨w, found, ne⟩
      rw [Option.mem_def.mp found] at unassigned
      rcases unassigned with missing | zero
      · cases missing
      · exact ne (Option.some.inj zero)
    · rw [(pickRandomElement_perm pick).length_eq]
      exact Nat.lt_succ_self _

theorem assigned_free_le {s s' : Picks τ} {key : τ} (h : Assigned 0 s key s') :
    s'.free.length ≤ s.free.length := by
  rcases assigned_known_or_taken h with ⟨-, rfl⟩ | ⟨-, taken⟩
  · exact Nat.le_refl _
  · exact Nat.le_of_lt taken

theorem assignedRows_free_le {td : Trapdoor τ} {s s' : Picks τ} {IBar IBar' : Buf}
    {words : List Str} (h : AssignedRows td s IBar words s' IBar') :
    s'.free.length ≤ s.free.length := by
  induction h with
  | nil => exact Nat.le_refl _
  | cons assigned _ _ ih => exact Nat.le_trans ih (assigned_free_le assigned)

/-- The keywords of a file change nothing if all are known, and else take an index. -/
theorem assignedRows_known_or_taken {td : Trapdoor τ} {s s' : Picks τ} {IBar IBar' : Buf}
    {words : List Str} (h : AssignedRows td s IBar words s' IBar') :
    (∀ word ∈ words, Known s.table (td.omac word)) ∧ s' = s ∨
      (¬ ∀ word ∈ words, Known s.table (td.omac word)) ∧ s'.free.length < s.free.length := by
  induction h with
  | nil => exact .inl ⟨List.forall_mem_nil _, rfl⟩
  | cons assigned _ rest ih =>
    rcases assigned_known_or_taken assigned with ⟨known, rfl⟩ | ⟨unknown, taken⟩
    · rw [List.forall_mem_cons]
      rcases ih with ⟨all, same⟩ | ⟨some, taken⟩
      · exact .inl ⟨⟨known, all⟩, same⟩
      · exact .inr ⟨fun all => some all.2, taken⟩
    · rw [List.forall_mem_cons]
      exact .inr ⟨fun all => unknown all.1, Nat.lt_of_le_of_lt (assignedRows_free_le rest) taken⟩

/-! ### The condition -/

/-- A call on this input, if it fails, leaves counters and tables as they are. -/
def Harmless (build : Build) (cfg : Config) (td : Trapdoor τ) (b : Books τ) : Op τ → Prop
  | .searchKeyword keyword _ => b.dataStructureConstructed = false ∨
      ∃ row ∈ b.tables.tW.lookup (td.generate (cStr keyword)), row ≠ 0 ∧
        b.keywordCounterArr row = build.ulongMax
  | .addFile path content _ _ links => Known b.tables.tF (td.omac path) ∧
      if cfg.decryptAtClientSide then build.multiThread = true ∧ (content.isSome = true →
        ∀ word ∈ extractKeywords [] content, Known b.tables.tW (td.omac word))
      else FetchFails build cfg links ∨ content = none
  | .delFile path _ links => b.dataStructureConstructed = false ∨
      ∃ j ∈ b.tables.tF.lookup (td.omac path), j ≠ 0 ∧
        (cfg.numBlocks < j / cfg.encryptBlockSize ∨
          cfg.decryptAtClientSide = false ∧ FetchFails build cfg links)

instance (build : Build) (cfg : Config) (td : Trapdoor τ) (b : Books τ) (op : Op τ) :
    Decidable (Harmless build cfg td b op) :=
  match op with
  | .searchKeyword .. => by unfold Harmless; infer_instance
  | .addFile .. => by unfold Harmless; infer_instance
  | .delFile .. => by unfold Harmless; infer_instance

/-! ### One operation each -/

section Operations

variable {build : Build} {cfg : Config} {td : Trapdoor τ} {path : Str} {draws : Nat → Nat}
  {links : Links} {b b' b₁ b₂ : Books τ} {s : Picks τ} {j : Nat} {e : Err}

omit [DecidableEq τ] in
theorem withFile_kept : b.withFile.kept = b.kept := by
  unfold Books.withFile
  split <;> rfl

/-- The lookup of the file a call is about. -/
theorem withColumns_kept_iff
    (assigned : Assigned 0 ⟨b.tables.tF, b.tables.lstFreeColumnIdx, draws⟩ (td.omac path) s) :
    (b.withColumns s).kept = b.kept ↔ Known b.tables.tF (td.omac path) := by
  rcases assigned_known_or_taken assigned with ⟨known, rfl⟩ | ⟨unknown, taken⟩
  · exact ⟨fun _ => known, fun _ => rfl⟩
  · refine ⟨fun same => ?_, fun known => absurd known unknown⟩
    have free := congrArg (fun p => p.2.2.lstFreeColumnIdx.length) same
    exact absurd free (Nat.ne_of_lt taken)

/-- Where the update is counted ahead, the counters have changed. -/
theorem begun_counted (begun : Begun build cfg td path b draws s j b₁)
    (client : cfg.decryptAtClientSide = true) (thread : build.multiThread = false) :
    b₁.blockCounterArr ≠ b.blockCounterArr := by
  rw [begun.books, Books.countedAhead, client, thread]
  exact counted_ne _ _

/-- Elsewhere the lookup is all that has happened. -/
theorem begun_uncounted (begun : Begun build cfg td path b draws s j b₁)
    (elsewhere : cfg.decryptAtClientSide = false ∨ build.multiThread = true) :
    b₁ = b.withColumns s := by
  rw [begun.books, Books.countedAhead, if_neg]
  rcases elsewhere with server | thread
  · simp [server]
  · simp [thread]

/-- A file with an index keeps it. -/
theorem begun_lookup {v : Nat} (begun : Begun build cfg td path b draws s j b₁)
    (found : v ∈ b.tables.tF.lookup (td.omac path)) (ne : v ≠ 0) : v = j :=
  Option.some.inj ((begun.assigned.lookup_kept found ne).symm.trans begun.found)

theorem search_kept_iff {keyword : Str}
    (ends : SearchEnds build cfg td keyword b (.error e : Except Err (Report Key)) b') :
    b'.kept = b.kept ↔ Harmless build cfg td b (.searchKeyword keyword links) := by
  cases ends with
  | notBuilt _ absent => exact ⟨fun _ => .inl absent, fun _ => rfl⟩
  | limit row _ built found ne max => exact ⟨fun _ => .inr ⟨row, found, ne, max⟩, fun _ => rfl⟩
  | counted row _ built found ne left =>
    constructor
    · intro same
      exact absurd (congrArg Prod.fst same) (counted_ne _ _)
    · rintro (absent | ⟨row', found', -, max⟩)
      · cases absent.symm.trans built
      · cases found.symm.trans found'
        exact absurd max left

/-- A deletion of a file that is in the table meets the condition when it does for the
column the file has. -/
theorem harmless_delFile_iff (built : b.dataStructureConstructed = true)
    (same : ∀ v ∈ b.tables.tF.lookup (td.omac path), v ≠ 0 → v = j) :
    Harmless build cfg td b (.delFile path draws links) ↔ Known b.tables.tF (td.omac path) ∧
      (cfg.numBlocks < j / cfg.encryptBlockSize ∨
        cfg.decryptAtClientSide = false ∧ FetchFails build cfg links) := by
  constructor
  · rintro (absent | ⟨v, found, ne, early⟩)
    · cases absent.symm.trans built
    · rw [same v found ne] at early
      exact ⟨⟨v, found, ne⟩, early⟩
  · rintro ⟨⟨v, found, ne⟩, early⟩
    rw [← same v found ne] at early
    exact .inr ⟨v, found, ne, early⟩

/-- When the file has been taken out, the tables have changed. -/
theorem erased_tables_ne (begun : Begun build cfg td path b draws s j b₁) :
    ({ b₁.tables with tF := b₁.tables.tF.erase (td.omac path) } : Tables τ) ≠ b.tables := by
  intro same
  rcases assigned_known_or_taken begun.assigned with ⟨⟨v, found, -⟩, -⟩ | ⟨-, taken⟩
  · have erased := AList.lookup_erase (td.omac path) b₁.tables.tF
    have unchanged : b₁.tables.tF.erase (td.omac path) = b.tables.tF := congrArg Tables.tF same
    rw [unchanged, Option.mem_def.mp found] at erased
    cases erased
  · have free := congrArg (fun T => T.lstFreeColumnIdx.length) same
    rw [begun.books] at free
    exact absurd free (Nat.ne_of_lt taken)

theorem delFile_kept_iff
    (ends : DelEnds build cfg td path draws links b (.error e : Except Err (Report Key)) b') :
    b'.kept = b.kept ↔ Harmless build cfg td b (.delFile path draws links) := by
  cases ends with
  | notBuilt absent => exact ⟨fun _ => .inl absent, fun _ => rfl⟩
  | noBlock s j assigned found exceeds built =>
    have same : ∀ v ∈ b.tables.tF.lookup (td.omac path), v ≠ 0 → v = j := fun v known ne =>
      Option.some.inj ((assigned.lookup_kept known ne).symm.trans found)
    rw [withColumns_kept_iff assigned, harmless_delFile_iff built same]
    exact ⟨fun known => ⟨known, .inl exceeds⟩, And.left⟩
  | notFetched s j _ begun block fails built =>
    rw [harmless_delFile_iff built fun _ found ne => begun_lookup begun found ne]
    cases client : cfg.decryptAtClientSide with
    | false =>
      rw [begun_uncounted begun (.inl client), withColumns_kept_iff begun.assigned]
      exact ⟨fun known => ⟨known, .inr ⟨rfl, fails⟩⟩, And.left⟩
    | true =>
      have thread : build.multiThread = false := by
        have aside := fails.1
        rwa [fetchesAside, client, Bool.true_and] at aside
      constructor
      · intro same
        exact absurd (congrArg (fun p => p.2.1) same) (begun_counted begun client thread)
      · rintro ⟨-, exceeds | ⟨server, -⟩⟩
        · exact absurd exceeds block
        · cases server
  | erased s j b₁ b₂ _ _ begun block fetched built token rest =>
    rw [harmless_delFile_iff built fun _ found ne => begun_lookup begun found ne]
    cases rest with
    | notSent physical down =>
      constructor
      · intro same
        rw [token] at same
        exact absurd (congrArg (fun p => p.2.2) same) (erased_tables_ne begun)
      · rintro ⟨-, exceeds | ⟨-, fails⟩⟩
        · exact absurd exceeds block
        · exact absurd fails fetched

/-- What `addToken` leaves of counters and tables, of a file whose column was looked up
and whose block was not counted. -/
theorem tokened_kept_iff {content : Option (List Byte)} {buckets : τ → Nat} {ret : Option Err}
    (assigned : Assigned 0 ⟨b.tables.tF, b.tables.lstFreeColumnIdx, draws⟩ (td.omac path) s)
    (token : Tokened build cfg td path content buckets (b.withColumns s) s.draws ret b₂) :
    b₂.kept = b.kept ↔ Known b.tables.tF (td.omac path) ∧ (content.isSome = true →
      cfg.decryptAtClientSide = true ∧
        ∀ word ∈ extractKeywords [] content, Known b.tables.tW (td.omac word)) := by
  -- an unknown file has taken a column by now, whatever comes
  have unknown_ne : ¬ Known b.tables.tF (td.omac path) → b₂.kept ≠ b.kept := by
    intro unknown same
    rcases assigned_known_or_taken assigned with ⟨known, -⟩ | ⟨-, taken⟩
    · exact unknown known
    · have free := congrArg (fun p => p.2.2.lstFreeColumnIdx.length) same
      cases token with
      | unread columns _ again =>
        exact Nat.ne_of_lt (Nat.lt_of_le_of_lt (assigned_free_le again) taken) free
      | read columns _ _ _ _ again =>
        exact Nat.ne_of_lt (Nat.lt_of_le_of_lt (assigned_free_le again) taken) free
  by_cases known : Known b.tables.tF (td.omac path)
  · rcases assigned_known_or_taken assigned with ⟨-, rfl⟩ | ⟨unknown, -⟩
    · cases token with
      | unread columns unread again =>
        rcases assigned_known_or_taken again with ⟨-, rfl⟩ | ⟨unknown, -⟩
        · refine ⟨fun _ => ⟨known, fun read => ?_⟩, fun _ => rfl⟩
          rw [unread] at read
          cases read
        · exact absurd known unknown
      | read columns rows fileIndex IBar read again found words =>
        rcases assigned_known_or_taken again with ⟨-, rfl⟩ | ⟨unknown, -⟩
        · rcases assignedRows_known_or_taken words with ⟨all, rfl⟩ | ⟨some, taken⟩
          · cases client : cfg.decryptAtClientSide with
            | true =>
              refine ⟨fun _ => ⟨known, fun _ => ⟨rfl, all⟩⟩, fun _ => ?_⟩
              simp only [Books.kept, Books.countedAfter, client, if_true]
              rfl
            | false =>
              constructor
              · intro same
                have counters := congrArg (fun p => p.2.1) same
                simp only [Books.kept, Books.countedAfter, client] at counters
                exact absurd counters (counted_ne _ _)
              · intro both
                cases (both.2 read).1
          · constructor
            · intro same
              have free := congrArg (fun p => p.2.2.lstFreeRowIdx.length) same
              exact absurd free (Nat.ne_of_lt taken)
            · exact fun both => absurd (both.2 read).2 some
        · exact absurd known unknown
    · exact absurd known unknown
  · exact ⟨fun same => absurd same (unknown_ne known), fun both => absurd both.1 known⟩

/-- Where the client decrypts, `addToken` counts nothing. -/
theorem tokened_counters {content : Option (List Byte)} {buckets : τ → Nat} {ret : Option Err}
    (token : Tokened build cfg td path content buckets b draws ret b₂)
    (client : cfg.decryptAtClientSide = true) : b₂.blockCounterArr = b.blockCounterArr := by
  cases token with
  | unread => rfl
  | read => exact if_pos client

theorem addFile_kept_iff {content : Option (List Byte)} {buckets : τ → Nat}
    (ends : AddEnds build cfg td path content draws buckets links b
      (.error e : Except Err (Report Key)) b') :
    b'.kept = b.kept ↔ Harmless build cfg td b (.addFile path content draws buckets links) := by
  unfold Harmless
  cases ends with
  | notFetched s j _ begun fails =>
    cases client : cfg.decryptAtClientSide with
    | false =>
      rw [begun_uncounted begun (.inl client), withColumns_kept_iff begun.assigned]
      exact ⟨fun known => ⟨known, .inl fails⟩, And.left⟩
    | true =>
      have thread : build.multiThread = false := by
        have aside := fails.1
        rwa [fetchesAside, client, Bool.true_and] at aside
      constructor
      · intro same
        exact absurd (congrArg (fun p => p.2.1) same) (begun_counted begun client thread)
      · rintro ⟨-, threads, -⟩
        cases thread.symm.trans threads
  | tokened s j b₁ b₂ _ ret _ begun fetched token rest =>
    have last : b'.kept = b₂.kept := by
      cases rest with
      | notStored _ _ _ _ sent =>
        rcases sent with rfl | rfl
        · rfl
        · exact withFile_kept
      | _ => rfl
    rw [last]
    cases client : cfg.decryptAtClientSide with
    | false =>
      have uncounted := begun_uncounted begun (.inl client)
      subst uncounted
      rw [tokened_kept_iff begun.assigned token]
      refine and_congr_right fun _ => ?_
      rw [client]
      cases content with
      | none => exact ⟨fun _ => .inr rfl, fun _ read => by cases read⟩
      | some text =>
        constructor
        · intro both
          cases (both rfl).1
        · rintro (fails | missing)
          · exact absurd fails fetched
          · cases missing
    | true =>
      cases thread : build.multiThread with
      | false =>
        constructor
        · intro same
          have counters := congrArg (fun p => p.2.1) same
          rw [show b₂.kept.2.1 = _ from tokened_counters token client] at counters
          exact absurd counters (begun_counted begun client thread)
        · rintro ⟨-, threads, -⟩
          cases threads
      | true =>
        have uncounted := begun_uncounted begun (.inr thread)
        subst uncounted
        rw [tokened_kept_iff begun.assigned token, client]
        simp only [if_true, true_and]

end Operations

/-! ### Every call, every run -/

section Runs

variable (build : Build) (cfg : Config) (cr : Cipher Key) (td : Trapdoor τ)
  (srv : Machine σ (Command Key) (Response Key))

/-- If the call fails, counters and tables are what they were. -/
def Atomic (w : World σ τ Key) (op : Op τ) : Prop :=
  ∀ w' e, (clientMachine build cfg cr td srv).step w op = some (w', .error e) →
    w'.books.kept = w.books.kept

/-- The call fails. -/
def Fails (w : World σ τ Key) (op : Op τ) : Prop :=
  ∃ w' e, (clientMachine build cfg cr td srv).step w op = some (w', .error e)

variable {build cfg cr td srv} in
theorem failed_kept_iff {w w' : World σ τ Key} {op : Op τ} {e : Err}
    (failed : (clientMachine build cfg cr td srv).step w op = some (w', .error e)) :
    w'.books.kept = w.books.kept ↔ Harmless build cfg td w.books op := by
  cases op with
  | searchKeyword keyword links => exact search_kept_iff (searchKeyword_ends failed)
  | addFile path content draws buckets links => exact addFile_kept_iff (addFile_ends failed)
  | delFile path draws links => exact delFile_kept_iff (delFile_ends failed)

variable {build cfg cr td srv} in
/-- Where the server decrypts, such a search leaves by the exception of its `disconnect`. -/
theorem harmless_search_leaves (server : cfg.decryptAtClientSide = false) {w : World σ τ Key}
    {keyword : Str} {links : Links} (harmless : Harmless build cfg td w.books
      (.searchKeyword keyword links)) :
    searchKeyword build cfg cr td srv keyword links w = .error none w := by
  by_cases built : w.client.dataStructureConstructed = true
  · obtain absent | ⟨row, found, ne, max⟩ := harmless
    · cases built.symm.trans absent
    · have token : searchToken build cr td keyword w = .error (some .counterExceedLimit) w :=
        (searchToken_row found ne).trans (if_pos max)
      exact searchKeyword_leaves server ((searchBegin_built build cr td keyword built).trans token)
  · exact searchKeyword_leaves server (searchBegin_notBuilt (Bool.eq_false_iff.mpr built))

/-- In any state a call that fails leaves counters and tables as they are if and only if
its input is harmless, and so does every failed call of a run whose failed calls have
harmless inputs. Where the server decrypts, a search with a harmless input does not return:
it ends by an exception, with everything as it was. -/
theorem atomic_iff_harmless :
    (∀ (w : World σ τ Key) (op : Op τ), Atomic build cfg cr td srv w op ↔
      (Fails build cfg cr td srv w op → Harmless build cfg td w.books op)) ∧
    (∀ (w : World σ τ Key) (ops : List (Op τ)),
      (clientMachine build cfg cr td srv).Along (fun w op =>
        Fails build cfg cr td srv w op → Harmless build cfg td w.books op) w ops →
      (clientMachine build cfg cr td srv).Along (Atomic build cfg cr td srv) w ops) ∧
    (cfg.decryptAtClientSide = false → ∀ (w : World σ τ Key) (keyword : Str) (links : Links),
      Harmless build cfg td w.books (.searchKeyword keyword links) →
      searchKeyword build cfg cr td srv keyword links w = .error none w) := by
  have each : ∀ (w : World σ τ Key) (op : Op τ), Atomic build cfg cr td srv w op ↔
      (Fails build cfg cr td srv w op → Harmless build cfg td w.books op) := by
    intro w op
    constructor
    · rintro atomic ⟨w', e, failed⟩
      exact (failed_kept_iff failed).mp (atomic w' e failed)
    · intro harmless w' e failed
      exact (failed_kept_iff failed).mpr (harmless ⟨w', e, failed⟩)
  exact ⟨each, fun w ops good => good.imp fun w op => (each w op).mpr,
    fun server w keyword links harmless => harmless_search_leaves server harmless⟩

end Runs

/-! ### A small client -/

/-- The build with AES-NI, without threads and encrypted files. -/
def smallBuild : Build := ⟨false, false, false, true, ulongMax⟩

/-- Keywords "a" and "b" with rows 4 and 2, files "f" and "g" with columns 1 and 4. -/
def smallTables : Tables Str where
  tW := ((∅ : Table Str).insert [0x61#8] 4).insert [0x62#8] 2
  tF := ((∅ : Table Str).insert [0x66#8] 1).insert [0x67#8] 4
  lstFreeColumnIdx := [0, 2, 3, 5, 6, 7]
  lstFreeRowIdx := [0, 1, 3, 5, 6, 7]

/-- All counters 1, no file encrypted. -/
def smallWorld (cfg : Config) (server : RamServer) : World RamServer Str (Option (Nat × Nat)) where
  server := server
  encFiles := fun _ => none
  client := ⟨true, smallTables, ⟨fun _ => 1, fun _ => 1, pregenerateRowKeys cfg smallCipher fun _ => 1⟩,
    zeroBuf, fun _ => false, none⟩

def blankServer : RamServer := ⟨fun _ => zeroBuf, fun _ => zeroBuf, fun _ => 1⟩

/-- Every exchange goes through. -/
def goodLinks : Links := ⟨.up, .up, .up, true, zeroBuf, zeroBuf⟩

/-- File "f" cannot be read when it is added again, and nothing has happened. -/
theorem atomic_small : Atomic smallBuild (smallConfig 1 false) smallCipher smallTrapdoor
    (ramServer (smallConfig 1 false) smallCipher) (smallWorld (smallConfig 1 false) blankServer)
    (.addFile [0x66#8] none (fun _ => 0) List.length goodLinks) :=
  ((atomic_iff_harmless smallBuild (smallConfig 1 false) smallCipher smallTrapdoor
    (ramServer (smallConfig 1 false) smallCipher)).1 _ _).mpr fun _ => by decide

/-- "a" is searched and the token cannot be sent: the search fails and its row is counted,
so that the next token is under a key the server's row is not. -/
theorem search_not_atomic : ¬ Atomic smallBuild (smallConfig 1 false) smallCipher smallTrapdoor
    (ramServer (smallConfig 1 false) smallCipher) (smallWorld (smallConfig 1 false) blankServer)
    (.searchKeyword [0x61#8] { goodLinks with fetch := .down }) := by
  have ran : ((clientMachine smallBuild (smallConfig 1 false) smallCipher smallTrapdoor
      (ramServer (smallConfig 1 false) smallCipher)).step
        (smallWorld (smallConfig 1 false) blankServer)
        (.searchKeyword [0x61#8] { goodLinks with fetch := .down })).map (fun p =>
          (match p.2 with | .ok _ => none | .error e => some e, p.1.books.keywordCounterArr 4)) =
      some (some .clientSearch, 2) := by
    decide +kernel
  intro atomic
  obtain ⟨⟨w', res⟩, step, both⟩ := Option.map_eq_some_iff.mp ran
  cases res with
  | ok report => cases both
  | error e =>
    have kept := congrFun (congrArg Prod.fst (atomic w' e step)) 4
    have raised : w'.books.keywordCounterArr 4 = 2 := congrArg Prod.snd both
    exact absurd (raised.symm.trans kept) (by decide)

end ImDsse.Seu
