import ImDsse.Seu.HashTable

/-!
The Android client with `T_F` in its hash table.

Here `T_F` is the row of buckets itself: `rT_F[..]` searches it, inserts and assigns there,
`erase` marks a bucket and `bucket` gives the position of a key. The map in the state of the
client (`World`) is not looked at, and the other parts of a call are the client's own
(`withRow`).

`Follows` says that a program over the buckets does what a program over the map does, and
leaves buckets that hold the map (`Backs`). Each access does (`readF_run` and the like), so
each call does, with the bucket numbers of its own row.
-/

namespace ImDsse.Seu

open Kit Kit.Bits Kit.Pool Kit.Text Kit.DenseHash Kit.DenseMap

variable {Key : Type} {σ : Type} {τ : Type} {α β : Type} [DecidableEq τ]

/-! ### The client -/

/-- Programs of the client over the row of buckets of `T_F`. -/
abbrev TableCall (σ : Type) (τ : Type) (Key : Type) :=
  EStateM (Option Err) (World σ τ Key × Row τ Nat)

/-- A part of a call that leaves `T_F` alone. -/
def withRow (x : Call σ τ Key α) : TableCall σ τ Key α := fun p =>
  match x p.1 with
  | .ok a w => .ok a (w, p.2)
  | .error e w => .error e (w, p.2)

omit [DecidableEq τ] in
theorem withRow_ok {x : Call σ τ Key α} {w w' : World σ τ Key} {T : Row τ Nat} {a : α}
    (h : x w = .ok a w') : withRow x (w, T) = .ok a (w', T) := by
  simp only [withRow, h]

omit [DecidableEq τ] in
theorem withRow_error {x : Call σ τ Key α} {w w' : World σ τ Key} {T : Row τ Nat} {e : Option Err}
    (h : x w = .error e w') : withRow x (w, T) = .error e (w', T) := by
  simp only [withRow, h]

namespace TableClient

variable (hash : τ → Nat) (build : Build) (cfg : Config) (cr : Cipher Key) (td : Trapdoor τ)
  (srv : Machine σ (Command Key) (Response Key))

/-- `rT_F[key]` -/
def readF (key : τ) : TableCall σ τ Key Nat := fun p =>
  match DenseMap.read (fileTable hash) 0 p.2 key with
  | none => .error none p
  | some (T, v) => .ok v (p.1, T)

/-- `rT_F[key] = value` -/
def assignF (key : τ) (value : Nat) : TableCall σ τ Key Unit := fun p =>
  match DenseMap.assign (fileTable hash) 0 p.2 key value with
  | none => .error none p
  | some T => .ok () (p.1, T)

/-- `rT_F.erase(key)` -/
def eraseF (key : τ) : TableCall σ τ Key Unit := fun p =>
  match DenseMap.erase (fileTable hash) p.2 key with
  | none => .error none p
  | some T => .ok () (p.1, T)

/-- `rT_F.bucket(key)` -/
def bucketF (key : τ) : TableCall σ τ Key Nat := fun p =>
  match DenseHash.bucket (fileTable hash) (layout p.2) key with
  | none => .error none p
  | some b => .ok b p

/-- A column from the free list, and the generator after it. -/
def pickColumn (draws : Nat → Nat) : Call σ τ Key (Nat × (Nat → Nat)) := fun w =>
  match pickRandomElement w.client.tables.lstFreeColumnIdx draws with
  | none => .error none w
  | some (selectedIdx, free, draws) =>
    .ok (selectedIdx, draws) (w.setTables { w.client.tables with lstFreeColumnIdx := free })

/-- The lookup of a file, which is given a column if it has none. -/
def assignColumn (path : Str) (draws : Nat → Nat) : TableCall σ τ Key (Nat → Nat) := do
  let v ← readF hash (td.omac path)
  if v = 0 then
    let (selectedIdx, draws) ← withRow (pickColumn draws)
    assignF hash (td.omac path) selectedIdx
    pure draws
  else pure draws

/-- `DSSE::requestBlock_index` -/
def requestBlockIndex (path : Str) (draws : Nat → Nat) :
    TableCall σ τ Key (Option Err × Nat × (Nat → Nat)) := do
  let draws ← assignColumn hash td path draws
  let fileIndex ← readF hash (td.omac path)
  let blockIndex := fileIndex / cfg.encryptBlockSize
  pure (if cfg.numBlocks < blockIndex then some .maxNumBlockExceeded else none, blockIndex, draws)

/-- The rows of the keywords of a file, and its column of the index. -/
def assignKeywords (content : Option (List Byte)) (draws : Nat → Nat) : Call σ τ Key Buf := fun w =>
  let T := w.client.tables
  match assignRows td ⟨T.tW, T.lstFreeRowIdx, draws⟩ zeroBuf (extractKeywords [] content) with
  | none => .error none w
  | some (rows, IBar) =>
    .ok IBar (w.setTables { T with tW := rows.table, lstFreeRowIdx := rows.free })

/-- The new block, and the archive with the number of the bucket. -/
def encodeFile (path : Str) (content : Option (List Byte)) (keys : BlockKeys Key) (fileIndex : Nat)
    (IBar : Buf) (bucket : Nat) : Call σ τ Key (Option Err × List (Encryption Key)) := fun w =>
  let out := recodeBlock cfg cr w.client keys fileIndex (.add IBar)
  .ok (none, out.2) { w with client := { storeBlock cfg w.client fileIndex out.1 with
    encryptedUpdate := if build.encryptPhysicalFile
      then some ⟨bucket, path, content.getD []⟩ else w.client.encryptedUpdate } }

/-- `DSSE::addToken` -/
def addToken (path : Str) (content : Option (List Byte)) (draws : Nat → Nat) (keys : BlockKeys Key) :
    TableCall σ τ Key (Option Err × List (Encryption Key)) := do
  let draws ← assignColumn hash td path draws
  match content with
  | none => pure (some .extractKeywords, [])
  | some _ =>
    let IBar ← withRow (assignKeywords td content draws)
    let fileIndex ← readF hash (td.omac path)
    let bucket ← if build.encryptPhysicalFile then bucketF hash (td.omac path) else pure 0
    withRow (encodeFile build cfg cr path content keys fileIndex IBar bucket)

/-- The new block without the file. -/
def clearFile (keys : BlockKeys Key) (fileIndex : Nat) :
    Call σ τ Key (Nat × List (Encryption Key)) := fun w =>
  let out := recodeBlock cfg cr w.client keys fileIndex .del
  .ok (fileIndex, out.2) { w with client := storeBlock cfg w.client fileIndex out.1 }

/-- `DSSE::delToken` -/
def delToken (path : Str) (keys : BlockKeys Key) :
    TableCall σ τ Key (Nat × List (Encryption Key)) := do
  let fileIndex ← readF hash (td.omac path)
  eraseF hash (td.omac path)
  withRow (clearFile cfg cr keys fileIndex)

/-- `Client_DSSE::addFile` -/
def addFile (path : Str) (content : Option (List Byte)) (draws : Nat → Nat) (links : Links) :
    TableCall σ τ Key (Report Key) := do
  let (_, blockIndex, draws) ← requestBlockIndex hash cfg td path draws
  let keys ← withRow (blockKeys build cfg cr links (decide (1 < cfg.encryptBlockSize)) blockIndex)
  let fetched ← withRow (requestBlockData cfg srv links.fetch blockIndex)
  withRow (failWith (if fetchesAside build cfg then none else fetched))
  let (ret, encryptions) ← addToken hash build cfg cr td path content draws keys
  withRow (failWith (if cfg.decryptAtClientSide then none else ret))
  let (ret, data) ← withRow (sendBlockData cfg srv links.update blockIndex)
  withRow (failWith ret)
  withRow (physical build (sendFile links.file))
  pure (.added ⟨blockIndex, data, encryptions⟩)

/-- `Client_DSSE::delFile` -/
def delFile (path : Str) (draws : Nat → Nat) (links : Links) : TableCall σ τ Key (Report Key) := do
  let p ← get
  withRow (failWith (notBuilt p.1))
  let (ret, blockIndex, _) ← requestBlockIndex hash cfg td path draws
  withRow (failWith ret)
  let keys ← withRow (blockKeys build cfg cr links
    (decide (1 < cfg.encryptBlockSize) || !build.multiThread) blockIndex)
  let fetched ← withRow (requestBlockData cfg srv links.fetch blockIndex)
  withRow (failWith (if fetchesAside build cfg then none else fetched))
  let (fileIndex, encryptions) ← delToken hash cfg cr td path keys
  let (_, data) ← withRow (sendBlockData cfg srv links.update blockIndex)
  withRow (physical build (sendDeletion links.file fileIndex))
  pure (.deleted fileIndex ⟨blockIndex, data, encryptions⟩)

/-- The program of an operation. The buckets it goes by are its own. -/
def call : Op τ → TableCall σ τ Key (Report Key)
  | .searchKeyword keyword links =>
    withRow (Seu.searchKeyword build cfg cr td srv keyword links)
  | .addFile path content draws _ links => addFile hash build cfg cr td srv path content draws links
  | .delFile path draws links => delFile hash build cfg cr td srv path draws links

/-- One call after the other. -/
def machine : Machine (World σ τ Key × Row τ Nat) (Op τ) (Except Err (Report Key)) where
  step p op := returned (call hash build cfg cr td srv op p)

end TableClient

/-! ### Programs that leave `T_F` alone -/

omit [DecidableEq τ] in
/-- The state with this map for `T_F`. -/
def World.setFiles (w : World σ τ Key) (t : Table τ) : World σ τ Key :=
  w.setTables { w.client.tables with tF := t }

omit [DecidableEq τ] in
/-- The same result, in the state with this map. -/
def underFiles (t : Table τ) : EStateM.Result (Option Err) (World σ τ Key) α →
    EStateM.Result (Option Err) (World σ τ Key) α
  | .ok a w => .ok a (w.setFiles t)
  | .error e w => .error e (w.setFiles t)

omit [DecidableEq τ] in
/-- The program neither reads `T_F` nor writes to it. -/
def Blind (x : Call σ τ Key α) : Prop := ∀ w t, x (w.setFiles t) = underFiles t (x w)

section Blind

variable {build : Build} {cfg : Config} {cr : Cipher Key} {td : Trapdoor τ}
  {srv : Machine σ (Command Key) (Response Key)} {x : Call σ τ Key α} {f : α → Call σ τ Key β}
  {link : Link} {links : Links}

namespace Blind

omit [DecidableEq τ]

theorem pure (a : α) : Blind (Pure.pure a : Call σ τ Key α) := fun _ _ => rfl

theorem throw (e : Option Err) : Blind (throw e : Call σ τ Key α) := fun _ _ => rfl

theorem bind (first : Blind x) (second : ∀ a, Blind (f a)) : Blind (x >>= f) := by
  intro w t
  cases run : x w with
  | ok a w₁ =>
    rw [Prog.bind_ok run, Prog.bind_ok ((first w t).trans (congrArg (underFiles t) run))]
    exact second a w₁ t
  | error e w₁ =>
    rw [Prog.bind_error run, Prog.bind_error ((first w t).trans (congrArg (underFiles t) run))]
    rfl

/-- To look at the rest of the state does no harm. -/
theorem get_bind {f : World σ τ Key → Call σ τ Key β} (same : ∀ w t, f (w.setFiles t) = f w)
    (each : ∀ w, Blind (f w)) : Blind (get >>= f) := by
  intro w t
  show f (w.setFiles t) (w.setFiles t) = _
  rw [same]
  exact each w w t

theorem tryCatch {handle : Option Err → Call σ τ Key α} (first : Blind x)
    (caught : ∀ e, Blind (handle e)) : Blind (tryCatch x handle) := by
  intro w t
  cases run : x w with
  | ok a w₁ =>
    rw [Prog.tryCatch_ok run, Prog.tryCatch_ok ((first w t).trans (congrArg (underFiles t) run))]
    rfl
  | error e w₁ =>
    rw [Prog.tryCatch_error run,
      Prog.tryCatch_error ((first w t).trans (congrArg (underFiles t) run))]
    exact caught e w₁ t

theorem failWith (ret : Option Err) : Blind (failWith ret : Call σ τ Key Unit) := by
  cases ret
  · exact .pure ()
  · exact .throw _

theorem await (a : Option α) : Blind (await a : Call σ τ Key α) := by
  cases a
  · exact .throw none
  · exact .pure _

theorem unconnected (h : Blind x) : Blind (unconnected cfg x) := by
  intro w t
  unfold Seu.unconnected
  split
  · exact h w t
  · rw [h w t]
    cases x w <;> rfl

theorem exchange (command : Command Key) : Blind (exchange srv link command : Call σ τ Key _) := by
  intro w t
  unfold Seu.exchange
  cases link <;> cases step : srv.step w.server command <;>
    simp only [World.setFiles, World.setTables, step, underFiles]

theorem requestBlockData (blockIndex : Nat) :
    Blind (requestBlockData cfg srv link blockIndex : Call σ τ Key _) := by
  unfold Seu.requestBlockData
  split
  · refine .bind (.exchange _) fun reply => ?_
    cases reply with
    | none => exact .pure _
    | some r => exact .bind (.await _) fun msg w t => rfl
  · exact .pure _

theorem sendBlockData (blockIndex : Nat) :
    Blind (sendBlockData cfg srv link blockIndex : Call σ τ Key _) :=
  .get_bind (fun _ _ => rfl) fun _ => .bind (.exchange _) fun _ => .pure _

theorem physical {x : Call σ τ Key Unit} (h : Blind x) : Blind (physical build x) := by
  unfold Seu.physical
  split
  · exact h
  · exact .pure _

theorem sendFile : Blind (sendFile link : Call σ τ Key Unit) := by
  intro w t
  unfold Seu.sendFile
  cases left : w.client.encryptedUpdate with
  | none => simp only [World.setFiles, World.setTables, left, underFiles]
  | some archive =>
    cases link <;> simp only [World.setFiles, World.setTables, left, underFiles]

theorem sendDeletion (fileIndex : Nat) :
    Blind (sendDeletion link fileIndex : Call σ τ Key Unit) := by
  intro w t
  cases link <;> rfl

theorem blockKeys (decrypts : Bool) (blockIndex : Nat) :
    Blind (blockKeys build cfg cr links decrypts blockIndex : Call σ τ Key _) := by
  intro w t
  unfold Seu.blockKeys
  cases cfg.decryptAtClientSide <;> rfl

theorem searchRow (tau : Option (SearchToken Key)) :
    Blind (searchRow build cfg cr srv tau links : Call σ τ Key _) := by
  unfold Seu.searchRow
  cases tau with
  | none => exact .unconnected (.pure _)
  | some tau =>
    dsimp only
    split
    · exact .unconnected (.pure _)
    · split
      · exact .bind (.exchange _) fun _ => .bind (.await _) fun _ =>
          .get_bind (fun _ _ => rfl) fun _ => .pure _
      · refine .bind (.exchange _) fun reply => ?_
        cases reply with
        | none => exact .throw _
        | some r => exact .await _

end Blind

theorem searchToken_blind (keyword : Str) :
    Blind (searchToken build cr td keyword : Call σ τ Key _) := by
  intro w t
  unfold searchToken
  dsimp only [World.setFiles, World.setTables, World.setKeywordCounterArr]
  split
  · split <;> rfl
  · rfl

theorem searchKeyword_blind (keyword : Str) :
    Blind (searchKeyword build cfg cr td srv keyword links) :=
  .bind (.tryCatch (.get_bind (fun _ _ => rfl) fun _ => .bind (.failWith _) fun _ =>
    searchToken_blind keyword) fun _ => .unconnected (.throw _)) fun _ =>
      .bind (.searchRow _) fun _ => .pure _

end Blind

/-! ### Programs over the buckets -/

section Follows

variable (hash : τ → Nat) (P : Row τ Nat → Prop)

/-- The same result over the buckets and over the map they hold, unless the process ends. -/
inductive Alike : EStateM.Result (Option Err) (World σ τ Key × Row τ Nat) α →
    EStateM.Result (Option Err) (World σ τ Key) α → Prop where
  | ok (a : α) (w : World σ τ Key) {T : Row τ Nat} {t : Table τ} (backs : Backs hash T t)
      (row : P T) : Alike (.ok a (w, T)) (.ok a (w.setFiles t))
  | error (e : Err) (w : World σ τ Key) {T : Row τ Nat} {t : Table τ} (backs : Backs hash T t) :
      Alike (.error (some e) (w, T)) (.error (some e) (w.setFiles t))
  | stop (p : World σ τ Key × Row τ Nat) (w : World σ τ Key) :
      Alike (.error none p) (.error none w)

/-- From buckets that hold the map and meet `P`, both programs give the same, and leave
buckets that hold the map. Those they return with meet `P'`. -/
def Follows (P' : Row τ Nat → Prop) (x : TableCall σ τ Key α) (y : Call σ τ Key α) : Prop :=
  ∀ (w : World σ τ Key) (T : Row τ Nat) (t : Table τ), Backs hash T t → P T →
    Alike hash P' (x (w, T)) (y (w.setFiles t))

namespace Follows

variable {hash P} {P' P'' : Row τ Nat → Prop} {x : TableCall σ τ Key α} {y : Call σ τ Key α}
  {f : α → TableCall σ τ Key β} {g : α → Call σ τ Key β}

theorem pure (a : α) : Follows hash P P (Pure.pure a : TableCall σ τ Key α) (Pure.pure a) :=
  fun w _ _ backs row => .ok a w backs row

theorem bind (first : Follows hash P P' x y) (second : ∀ a, Follows hash P' P'' (f a) (g a)) :
    Follows hash P P'' (x >>= f) (y >>= g) := by
  intro w T t backs row
  have here := first w T t backs row
  generalize one : x (w, T) = r at here
  generalize other : y (w.setFiles t) = r' at here
  cases here with
  | ok a w₁ backs₁ row₁ =>
    rw [Prog.bind_ok one, Prog.bind_ok other]
    exact second a w₁ _ _ backs₁ row₁
  | error e w₁ backs₁ =>
    rw [Prog.bind_error one, Prog.bind_error other]
    exact .error e w₁ backs₁
  | stop p w₁ =>
    rw [Prog.bind_error one, Prog.bind_error other]
    exact .stop p w₁

/-- What leaves `T_F` alone goes the same way beside the buckets. -/
theorem withRow (blind : Blind y) : Follows hash P P (withRow y) y := by
  intro w T t backs row
  rw [blind w t]
  unfold Seu.withRow
  cases y w with
  | ok a w₁ => exact .ok a w₁ backs row
  | error e w₁ =>
    cases e with
    | none => exact .stop _ _
    | some e => exact .error e w₁ backs

/-- To look at the state is to look at the rest of it. -/
theorem get_bind {f : World σ τ Key × Row τ Nat → TableCall σ τ Key α}
    {g : World σ τ Key → Call σ τ Key α}
    (each : ∀ w T t, Follows hash P P' (f (w, T)) (g (w.setFiles t))) :
    Follows hash P P' (get >>= f) (get >>= g) :=
  fun w T t backs row => each w T t w T t backs row

end Follows

end Follows

/-! ### Accesses -/

section Accesses

variable {hash : τ → Nat} {T : Row τ Nat} {t : Table τ} {w : World σ τ Key} {key : τ} {L : Layout τ}

/-- `rT_F[key]` over the buckets is `operator[]` of the map. It moves the keys once. -/
theorem readF_run (backs : Backs hash T t)
    (moved : DenseHash.findOrInsert (fileTable hash) (layout T) key = some L) :
    ∃ T', TableClient.readF hash key (w, T) = .ok (index t key).1 (w, T') ∧
      Backs hash T' (index t key).2 ∧ layout T' = L := by
  have read : tableMachine.step t (.read key) = some ((index t key).2, some (index t key).1) := rfl
  obtain ⟨T', o, step, backs', rfl⟩ := (backs.step (.read key)).of_right read
  obtain ⟨⟨T₁, v⟩, done, same⟩ := Option.map_eq_some_iff.mp step
  cases same
  refine ⟨T', ?_, backs', ?_⟩
  · unfold TableClient.readF
    dsimp only
    rw [done]
  · obtain ⟨⟨T₂, b⟩, inserted, done⟩ := Option.bind_eq_some_iff.mp done
    obtain ⟨v', -, same⟩ := Option.bind_eq_some_iff.mp done
    cases same
    rw [← layout_findOrInsert 0, inserted] at moved
    exact Option.some.inj moved

theorem assignF_run (backs : Backs hash T t) (value : Nat)
    (moved : DenseHash.findOrInsert (fileTable hash) (layout T) key = some L) :
    ∃ T', TableClient.assignF hash key value (w, T) = .ok () (w, T') ∧
      Backs hash T' (t.insert key value) ∧ layout T' = L := by
  have assigned : tableMachine.step t (.assign key value) = some (t.insert key value, none) := rfl
  obtain ⟨T', o, step, backs', rfl⟩ := (backs.step (.assign key value)).of_right assigned
  obtain ⟨T₁, done, same⟩ := Option.map_eq_some_iff.mp step
  cases same
  refine ⟨T', ?_, backs', ?_⟩
  · unfold TableClient.assignF
    dsimp only
    rw [done]
  · obtain ⟨⟨T₂, b⟩, inserted, done⟩ := Option.bind_eq_some_iff.mp done
    cases done
    obtain ⟨_, keeps, -⟩ := backs
    rw [layout_write (keeps.holds.findOrInsert inserted).1]
    rw [← layout_findOrInsert 0, inserted] at moved
    exact Option.some.inj moved

variable (key) in
theorem eraseF_run (backs : Backs hash T t) :
    ∃ T', TableClient.eraseF hash key (w, T) = .ok () (w, T') ∧ Backs hash T' (t.erase key) := by
  have erased : tableMachine.step t (.erase key) = some (t.erase key, none) := rfl
  obtain ⟨T', o, step, backs', rfl⟩ := (backs.step (.erase key)).of_right erased
  obtain ⟨T₁, done, same⟩ := Option.map_eq_some_iff.mp step
  cases same
  refine ⟨T', ?_, backs'⟩
  unfold TableClient.eraseF
  dsimp only
  rw [done]

/-- A key that was looked up is in its place. -/
theorem Backs.moved (backs : Backs hash T t) (key : τ) :
    ∃ L, DenseHash.findOrInsert (fileTable hash) (layout T) key = some L ∧
      DenseHash.findOrInsert (fileTable hash) L key = some L ∧
      DenseHash.bucket (fileTable hash) L key = some (buckets (fileTable hash) L key) := by
  obtain ⟨_, keeps, -⟩ := backs
  obtain ⟨L, inserted, -⟩ := keeps.halfEmpty.findOrInsert (fileTable_roomy hash) key
  obtain ⟨sound, keys⟩ := keeps.holds.sound.findOrInsert inserted
  have mem : key ∈ DenseHash.keys L := (keys key).mpr (.inl rfl)
  obtain ⟨b, bucket, here⟩ := sound.bucket mem
  refine ⟨L, inserted, ?_, ?_⟩
  · rw [DenseHash.findOrInsert, sound.found here]
    rfl
  · rw [buckets, bucket]
    rfl

end Accesses

/-! ### One call -/

section Calls

variable {hash : τ → Nat} {build : Build} {cfg : Config} {cr : Cipher Key} {td : Trapdoor τ}
  {srv : Machine σ (Command Key) (Response Key)} {path : Str} {content : Option (List Byte)}
  {draws : Nat → Nat} {links : Links} {keys : BlockKeys Key} {L : Layout τ}

/-- The lookup of a file does to the buckets what it does to the map, and moves the keys once. -/
theorem assignColumn_run (draws : Nat → Nat) (w : World σ τ Key) {T : Row τ Nat} {t : Table τ}
    (backs : Backs hash T t)
    (moved : DenseHash.findOrInsert (fileTable hash) (layout T) (td.omac path) = some L)
    (placed : DenseHash.findOrInsert (fileTable hash) L (td.omac path) = some L) :
    match assignIndex 0 ⟨t, w.client.tables.lstFreeColumnIdx, draws⟩ (td.omac path) with
    | none => ∃ p, TableClient.assignColumn hash td path draws (w, T) = .error none p
    | some s => ∃ T', TableClient.assignColumn hash td path draws (w, T) = .ok s.draws
        (w.setTables { w.client.tables with lstFreeColumnIdx := s.free }, T') ∧
        Backs hash T' s.table ∧ layout T' = L := by
  obtain ⟨T₁, read, backs₁, layout₁⟩ := readF_run (w := w) backs moved
  unfold assignIndex TableClient.assignColumn
  dsimp only
  rw [Prog.bind_ok read]
  by_cases absent : (index t (td.omac path)).1 = 0
  · rw [if_pos absent, if_pos absent]
    cases pick : pickRandomElement w.client.tables.lstFreeColumnIdx draws with
    | none =>
      have stops : TableClient.pickColumn draws w = .error none w := by
        simp only [TableClient.pickColumn, pick]
      exact ⟨_, Prog.bind_error (withRow_error stops)⟩
    | some out =>
      obtain ⟨j, free, draws'⟩ := out
      have picks : TableClient.pickColumn draws w = .ok (j, draws')
          (w.setTables { w.client.tables with lstFreeColumnIdx := free }) := by
        simp only [TableClient.pickColumn, pick]
      obtain ⟨T₂, assigned, backs₂, layout₂⟩ := assignF_run
        (w := w.setTables { w.client.tables with lstFreeColumnIdx := free }) backs₁ j
        (layout₁ ▸ placed)
      refine ⟨T₂, ?_, backs₂, layout₂.trans layout₁⟩
      rw [Prog.bind_ok (withRow_ok picks)]
      dsimp only
      rw [Prog.bind_ok assigned]
      rfl
  · rw [if_neg absent, if_neg absent]
    exact ⟨T₁, rfl, backs₁, layout₁⟩

theorem requestBlockIndex_follows
    (placed : DenseHash.findOrInsert (fileTable hash) L (td.omac path) = some L) :
    Follows hash (fun T => DenseHash.findOrInsert (fileTable hash) (layout T) (td.omac path) = some L)
      (fun T => layout T = L)
      (TableClient.requestBlockIndex hash cfg td path draws : TableCall σ τ Key _)
      (requestBlockIndex cfg td path draws) := by
  intro w T t backs moved
  have run := assignColumn_run draws w backs moved placed
  unfold requestBlockIndex TableClient.requestBlockIndex
  dsimp only [World.setFiles, World.setTables]
  cases assign : assignIndex 0 ⟨t, w.client.tables.lstFreeColumnIdx, draws⟩ (td.omac path) with
  | none =>
    rw [assign] at run
    obtain ⟨p, stops⟩ := run
    rw [Prog.bind_error stops]
    exact .stop _ _
  | some s =>
    rw [assign] at run
    obtain ⟨T₁, assigned, backs₁, layout₁⟩ := run
    rw [Prog.bind_ok assigned]
    obtain ⟨T₂, read, backs₂, layout₂⟩ := readF_run
      (w := w.setTables { w.client.tables with lstFreeColumnIdx := s.free }) backs₁
      (layout₁ ▸ placed)
    rw [Prog.bind_ok read]
    exact .ok _ (w.setTables { w.client.tables with lstFreeColumnIdx := s.free }) backs₂
      (layout₂.trans layout₁)

/-- The second half of `addToken`, from the tables with the column and the rows of the file. -/
theorem encodeFile_alike (w : World σ τ Key) {T : Row τ Nat} {t : Table τ} {IBar : Buf}
    (text : List Byte) (backs : Backs hash T t) (held : layout T = L)
    (placed : DenseHash.findOrInsert (fileTable hash) L (td.omac path) = some L)
    (bucket : DenseHash.bucket (fileTable hash) L (td.omac path) =
      some (buckets (fileTable hash) L (td.omac path))) :
    let (fileIndex, tF) := index t (td.omac path)
    let out := recodeBlock cfg cr w.client keys fileIndex (.add IBar)
    Alike hash (fun T => layout T = L)
      ((do
        let fileIndex ← TableClient.readF hash (td.omac path)
        let bucket ← if build.encryptPhysicalFile then TableClient.bucketF hash (td.omac path)
          else pure 0
        withRow (TableClient.encodeFile build cfg cr path (some text) keys fileIndex IBar bucket)
          : TableCall σ τ Key _) (w, T))
      (.ok (none, out.2) { w with client := { storeBlock cfg w.client fileIndex out.1 with
        tables := { w.client.tables with tF := tF }
        encryptedUpdate := if build.encryptPhysicalFile
          then some (encryptFileUsingCcm td (buckets (fileTable hash) L) path (some text))
          else w.client.encryptedUpdate } }) := by
  obtain ⟨T', read, backs', layout'⟩ := readF_run (w := w) backs (held.symm ▸ placed)
  rw [Prog.bind_ok read]
  cases physical : build.encryptPhysicalFile with
  | true =>
    have numbered : TableClient.bucketF hash (td.omac path) (w, T') =
        .ok (buckets (fileTable hash) L (td.omac path)) (w, T') := by
      unfold TableClient.bucketF
      dsimp only
      rw [layout', held, bucket]
    rw [if_pos rfl, Prog.bind_ok numbered, if_pos rfl]
    unfold withRow TableClient.encodeFile
    dsimp only
    rw [if_pos physical]
    exact .ok _ _ backs' (layout'.trans held)
  | false =>
    have none : (pure 0 : TableCall σ τ Key Nat) (w, T') = .ok 0 (w, T') := rfl
    rw [if_neg Bool.false_ne_true, Prog.bind_ok none, if_neg Bool.false_ne_true]
    unfold withRow TableClient.encodeFile
    dsimp only
    rw [if_neg (physical ▸ Bool.false_ne_true)]
    exact .ok _ _ backs' (layout'.trans held)

theorem addToken_follows
    (placed : DenseHash.findOrInsert (fileTable hash) L (td.omac path) = some L)
    (bucket : DenseHash.bucket (fileTable hash) L (td.omac path) =
      some (buckets (fileTable hash) L (td.omac path))) :
    Follows hash (fun T => layout T = L) (fun T => layout T = L)
      (TableClient.addToken hash build cfg cr td path content draws keys : TableCall σ τ Key _)
      (addToken build cfg cr td path content draws (buckets (fileTable hash) L) keys) := by
  rintro w T t backs rfl
  have run := assignColumn_run draws w backs placed placed
  unfold addToken TableClient.addToken addTokenIndex
  dsimp only [World.setFiles, World.setTables]
  cases assign : assignIndex 0 ⟨t, w.client.tables.lstFreeColumnIdx, draws⟩ (td.omac path) with
  | none =>
    rw [assign] at run
    obtain ⟨p, stops⟩ := run
    rw [Prog.bind_error stops]
    exact .stop _ _
  | some s =>
    rw [assign] at run
    obtain ⟨T₁, assigned, backs₁, layout₁⟩ := run
    rw [Prog.bind_ok assigned, Option.bind_some]
    let w₁ := w.setTables { w.client.tables with lstFreeColumnIdx := s.free }
    cases content with
    | none => exact .ok _ w₁ backs₁ layout₁
    | some text =>
      dsimp only
      cases words : assignRows td ⟨w.client.tables.tW, w.client.tables.lstFreeRowIdx, s.draws⟩
          zeroBuf (extractKeywords [] (some text)) with
      | none =>
        have stops : TableClient.assignKeywords td (some text) s.draws w₁ = .error none w₁ := by
          simp only [TableClient.assignKeywords, World.setTables, words, w₁]
        rw [Prog.bind_error (withRow_error stops)]
        exact .stop _ _
      | some out =>
        obtain ⟨rows, IBar⟩ := out
        have runs : TableClient.assignKeywords td (some text) s.draws w₁ = .ok IBar (w.setTables
            { w.client.tables with
              lstFreeColumnIdx := s.free, tW := rows.table, lstFreeRowIdx := rows.free }) := by
          simp only [TableClient.assignKeywords, World.setTables, words, w₁]
        rw [Prog.bind_ok (withRow_ok runs), Option.map_some]
        exact encodeFile_alike _ text backs₁ layout₁ placed bucket

theorem delToken_follows
    (placed : DenseHash.findOrInsert (fileTable hash) L (td.omac path) = some L) :
    Follows hash (fun T => layout T = L) (fun _ => True)
      (TableClient.delToken hash cfg cr td path keys : TableCall σ τ Key _)
      (delToken cfg cr td path keys) := by
  rintro w T t backs rfl
  obtain ⟨T₁, read, backs₁, -⟩ := readF_run (w := w) backs placed
  obtain ⟨T₂, erased, backs₂⟩ := eraseF_run (td.omac path) (w := w) backs₁
  unfold TableClient.delToken
  rw [Prog.bind_ok read, Prog.bind_ok erased]
  exact .ok _ _ backs₂ trivial

theorem addFile_follows
    (placed : DenseHash.findOrInsert (fileTable hash) L (td.omac path) = some L)
    (bucket : DenseHash.bucket (fileTable hash) L (td.omac path) =
      some (buckets (fileTable hash) L (td.omac path))) :
    Follows hash (fun T => DenseHash.findOrInsert (fileTable hash) (layout T) (td.omac path) = some L)
      (fun T => layout T = L)
      (TableClient.addFile hash build cfg cr td srv path content draws links)
      (addFile build cfg cr td srv path content draws (buckets (fileTable hash) L) links) :=
  .bind (requestBlockIndex_follows placed) fun _ =>
  .bind (.withRow (.blockKeys _ _)) fun _ =>
  .bind (.withRow (.requestBlockData _)) fun _ =>
  .bind (.withRow (.failWith _)) fun _ =>
  .bind (addToken_follows placed bucket) fun _ =>
  .bind (.withRow (.failWith _)) fun _ =>
  .bind (.withRow (.sendBlockData _)) fun _ =>
  .bind (.withRow (.failWith _)) fun _ =>
  .bind (.withRow (.physical .sendFile)) fun _ =>
  .pure _

theorem delFile_follows
    (placed : DenseHash.findOrInsert (fileTable hash) L (td.omac path) = some L) :
    Follows hash (fun T => DenseHash.findOrInsert (fileTable hash) (layout T) (td.omac path) = some L)
      (fun _ => True) (TableClient.delFile hash build cfg cr td srv path draws links)
      (delFile build cfg cr td srv path draws links) :=
  .get_bind fun _ _ _ =>
  .bind (.withRow (.failWith _)) fun _ =>
  .bind (requestBlockIndex_follows placed) fun _ =>
  .bind (.withRow (.failWith _)) fun _ =>
  .bind (.withRow (.blockKeys _ _)) fun _ =>
  .bind (.withRow (.requestBlockData _)) fun _ =>
  .bind (.withRow (.failWith _)) fun _ =>
  .bind (delToken_follows placed) fun _ =>
  .bind (.withRow (.sendBlockData _)) fun _ =>
  .bind (.withRow (.physical (.sendDeletion _))) fun _ =>
  .pure _

/-- The call with the bucket numbers of the row it finds, with its file in it by then. -/
def callOver (hash : τ → Nat) (td : Trapdoor τ) (p : World σ τ Key × Row τ Nat) (op : Op τ) : Op τ :=
  match tableInCall (fileTable hash) td p.1.books (layout p.2) op with
  | none => op
  | some L => op.withBuckets (buckets (fileTable hash) L)

theorem Alike.imp {P P' : Row τ Nat → Prop} {r : EStateM.Result _ _ α}
    {r' : EStateM.Result (Option Err) (World σ τ Key) α} (h : Alike hash P r r')
    (weaker : ∀ T, P T → P' T) : Alike hash P' r r' := by
  cases h with
  | ok a w backs row => exact .ok a w backs (weaker _ row)
  | error e w backs => exact .error e w backs
  | stop p w => exact .stop p w

theorem call_follows {op : Op τ} {w : World σ τ Key} {T : Row τ Nat} {t : Table τ}
    (backs : Backs hash T t) :
    Alike hash (fun _ => True) (TableClient.call hash build cfg cr td srv op (w, T))
      (call build cfg cr td srv (callOver hash td (w, T) op) (w.setFiles t)) := by
  cases op with
  | searchKeyword keyword links =>
    exact Follows.withRow (searchKeyword_blind keyword) w T t backs trivial
  | addFile path content draws other links =>
    obtain ⟨L, moved, placed, bucket⟩ := backs.moved (td.omac path)
    have same : callOver hash td (w, T) (.addFile path content draws other links) =
        .addFile path content draws (buckets (fileTable hash) L) links := by
      simp only [callOver, tableInCall, moved]
      rfl
    rw [same]
    exact (addFile_follows placed bucket w T t backs moved).imp fun _ _ => trivial
  | delFile path draws links =>
    obtain ⟨L, moved, placed, -⟩ := backs.moved (td.omac path)
    have same : callOver hash td (w, T) (.delFile path draws links) =
        .delFile path draws links := by
      unfold callOver
      split <;> rfl
    rw [same]
    exact delFile_follows placed w T t backs moved

end Calls

/-! ### Runs -/

/-- The state over the map that the buckets hold. -/
def Carries (hash : τ → Nat) (p : World σ τ Key × Row τ Nat) (w : World σ τ Key) : Prop :=
  ∃ t, Backs hash p.2 t ∧ w = p.1.setFiles t

section Runs

variable {hash : τ → Nat} {build : Build} {cfg : Config} {cr : Cipher Key} {td : Trapdoor τ}
  {srv : Machine σ (Command Key) (Response Key)} {p : World σ τ Key × Row τ Nat}
  {w : World σ τ Key} {op : Op τ}

theorem call_step (h : Carries hash p w) :
    Machine.Lockstep (Carries hash) Eq ((TableClient.machine hash build cfg cr td srv).step p op)
      ((clientMachine build cfg cr td srv).step w (callOver hash td p op)) := by
  obtain ⟨t, backs, rfl⟩ := h
  have alike : Alike hash (fun _ => True) (TableClient.call hash build cfg cr td srv op p)
      (call build cfg cr td srv (callOver hash td p op) (p.1.setFiles t)) := call_follows backs
  change Machine.Lockstep _ _ (returned (TableClient.call hash build cfg cr td srv op p))
    (returned (call build cfg cr td srv (callOver hash td p op) (p.1.setFiles t)))
  generalize TableClient.call hash build cfg cr td srv op p = r at alike ⊢
  generalize call build cfg cr td srv (callOver hash td p op) (p.1.setFiles t) = r' at alike ⊢
  cases alike with
  | ok a w' backs' _ => exact .some ⟨⟨_, backs', rfl⟩, rfl⟩
  | error e w' backs' => exact .some ⟨⟨_, backs', rfl⟩, rfl⟩
  | stop p' w' => exact .none

/-- The keys are in their places when a call reads the number of a bucket. -/
theorem Backs.placed {T : Row τ Nat} {t : Table τ} (backs : Backs hash T t) (b : Books τ)
    (op : Op τ) : ∃ L, tableInCall (fileTable hash) td b (layout T) op = some L ∧
      ∀ key ∈ DenseHash.keys L, ∃ b, DenseHash.bucket (fileTable hash) L key = some b ∧
        L[b]? = some (.full key) := by
  have sound : Sound (fileTable hash) (layout T) := by
    obtain ⟨_, keeps, -⟩ := backs
    exact keeps.holds.sound
  have inserted : ∀ path, ∃ L, DenseHash.findOrInsert (fileTable hash) (layout T) (td.omac path) =
      some L ∧ Sound (fileTable hash) L := fun path => by
    obtain ⟨L, moved, -, -⟩ := backs.moved (td.omac path)
    exact ⟨L, moved, (sound.findOrInsert moved).1⟩
  have ends : ∃ L, tableInCall (fileTable hash) td b (layout T) op = some L ∧
      Sound (fileTable hash) L := by
    unfold tableInCall
    split
    · exact ⟨_, rfl, sound⟩
    · exact inserted _
    · split
      · exact inserted _
      · exact ⟨_, rfl, sound⟩
  obtain ⟨L, done, sound'⟩ := ends
  exact ⟨L, done, fun key mem => sound'.bucket mem⟩

/-- Over the buckets that a history of accesses leaves, every run of the client goes as it does
over the map: the same reports, the same states with the map read off the buckets, and it stops
where that run stops. The bucket numbers of a call are those of its own row, where every key is
found. -/
theorem client_with_table (hash : τ → Nat) (build : Build) (cfg : Config) (cr : Cipher Key)
    (td : Trapdoor τ) (srv : Machine σ (Command Key) (Response Key)) (n : Nat)
    (accesses : List (Access τ Nat)) (w : World σ τ Key) {T : Row τ Nat} {t : Table τ}
    (row : (rowMachine (fileTable hash) 0).exec (List.replicate (2 ^ n) .empty) accesses = some T)
    (table : tableMachine.exec ∅ accesses = some t) (ops : List (Op τ)) :
    let client := TableClient.machine hash build cfg cr td srv
    let calls := client.seen (callOver hash td) (w, T) ops
    client.outputs (w, T) ops = (clientMachine build cfg cr td srv).outputs (w.setFiles t) calls ∧
    Option.Rel (fun p w' => w' = p.1.setFiles w'.client.tables.tF ∧ ∀ key v,
        w'.client.tables.tF.lookup key = some v ↔
          ∃ b, DenseHash.bucket (fileTable hash) (layout p.2) key = some b ∧
            p.2[b]? = some (.full (key, v)))
      (client.exec (w, T) ops) ((clientMachine build cfg cr td srv).exec (w.setFiles t) calls) ∧
    client.Along (fun p op => ∃ L,
      tableInCall (fileTable hash) td p.1.books (layout p.2) op = some L ∧
        ∀ key ∈ DenseHash.keys L, ∃ b, DenseHash.bucket (fileTable hash) L key = some b ∧
          L[b]? = some (.full key)) (w, T) ops := by
  intro client calls
  have backs : Backs hash T t := by
    have ends := ((backs_empty hash n).agree accesses).2
    rw [row, table] at ends
    cases ends with
    | some backs => exact backs
  obtain ⟨outs, states⟩ : _ ∧ Option.Rel (Carries hash) (client.exec (w, T) ops)
      ((clientMachine build cfg cr td srv).exec (w.setFiles t) calls) :=
    Machine.simulation_seen (callOver hash td) (fun _ _ _ h => call_step h) ops ⟨t, backs, rfl⟩
  refine ⟨outs, ?_, ?_⟩
  · generalize client.exec (w, T) ops = ended at states ⊢
    generalize (clientMachine build cfg cr td srv).exec (w.setFiles t) calls = ended' at states ⊢
    cases states with
    | none => exact .none
    | some carries =>
      obtain ⟨t', backs', rfl⟩ := carries
      exact .some ⟨rfl, fun key v => backs'.lookup_iff⟩
  · have always : client.Along (fun _ _ => True) (w, T) ops :=
      Machine.along_of_forall (fun _ _ => trivial) _ ops
    refine always.of_invariant (fun p => ∃ t, Backs hash p.2 t) ?_ ?_ ⟨t, backs⟩
    · rintro p op p' res ⟨t, backs⟩ - step
      obtain ⟨w', -, -, ⟨t', backs', -⟩, -⟩ := (call_step ⟨t, backs, rfl⟩).of_left step
      exact ⟨t', backs'⟩
    · rintro p op ⟨t, backs⟩ -
      exact backs.placed _ op

end Runs

/-! ### A small run -/

/-- "f" and "g" in four buckets. -/
def smallRow : Row Str Nat := [.empty, .empty, .full ([0x66#8], 1), .full ([0x67#8], 4)]

/-- Keys by their first byte. -/
def smallHash (key : Str) : Nat := (key.headD 0).toNat

/-- The small client over its buckets. -/
def smallClient : Machine (World RamServer Str (Option (Nat × Nat)) × Row Str Nat) (Op Str)
    (Except Err (Report (Option (Nat × Nat)))) :=
  TableClient.machine smallHash smallPhysical (smallConfig 1 false) smallCipher smallTrapdoor
    (ramServer (smallConfig 1 false) smallCipher)

/-- "j" is added and deleted. -/
def smallOps : List (Op Str) := [smallAddOf [0x6a#8], .delFile [0x6a#8] (fun _ => 0) goodLinks]

theorem client_with_table_small :
    smallClient.outputs (smallStart.1, smallRow) smallOps =
      (clientMachine smallPhysical (smallConfig 1 false) smallCipher smallTrapdoor
        (ramServer (smallConfig 1 false) smallCipher)).outputs
        (smallStart.1.setFiles smallTables.tF)
        (smallClient.seen (callOver smallHash smallTrapdoor) (smallStart.1, smallRow) smallOps) :=
  (client_with_table smallHash smallPhysical (smallConfig 1 false) smallCipher smallTrapdoor
    (ramServer (smallConfig 1 false) smallCipher) 2 [.assign [0x66#8] 1, .assign [0x67#8] 4]
    smallStart.1 (show _ = some smallRow by decide +kernel) (show _ = some smallTables.tF from rfl)
    smallOps).1

end ImDsse.Seu
