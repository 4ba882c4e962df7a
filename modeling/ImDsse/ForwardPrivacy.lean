import ImDsse.Freshness

/-!
Forward privacy of updates where the server decrypts.

The server learns row keys from search tokens alone. `Revealed` ties the keys it
has seen to the client's keyword counters: of each row exactly the keys before
the current one. An update is encrypted under current keys, so no token sent
before it reads it, and a cell that has not been updated since its row was last
searched is under a key the server has.
-/

namespace ImDsse

open Kit Kit.Loop Kit.Bits

/-- The keys in the search token of an event. -/
def Event.tokenKeys {Key : Type} : Event Key → List Key
  | .searched _ (some tau) _ => [tau.rowKey, tau.rowOldKey]
  | _ => []

/-- The keys the server has been sent. -/
def revealedKeys {Key : Type} (past : List (Event Key)) : List Key :=
  past.flatMap Event.tokenKeys

/-- Of every row the server has the keys before the current one. -/
def Revealed (cfg : Config) (past : List (Event KeyTerm)) (c : IndexClient KeyTerm) : Prop :=
  ∀ r k, r < cfg.matrixRowSize →
    (some (r, k) ∈ revealedKeys past ↔ 1 ≤ k ∧ k < c.keywordCounterArr r)

section Step

variable {cfg : Config} {F : KeyTerm → Nat → Nat → Buf} {M : Plain} {s : CellStore}
  {c : IndexClient KeyTerm} {past : List (Event KeyTerm)}

/-- The keys of a token: the current key of the row and, once there is one, the
key before it. -/
theorem mem_tokenKeys_freshToken (ids : List Nat) (es : List (Encryption KeyTerm)) (row r k : Nat)
    (kc : Nat → Nat) :
    some (r, k) ∈ (Event.searched ids (some (freshToken (termCipher F) kc row)) es).tokenKeys ↔
      r = row ∧ (k = kc row ∨ 1 < kc row ∧ k = kc row - 1) := by
  unfold Event.tokenKeys
  rw [List.mem_pair, freshToken_rowKey]
  by_cases h : 1 < kc row
  · rw [freshToken_rowOldKey _ _ _ h]
    simp only [termCipher, Option.some.injEq, Prod.mk.injEq, h, true_and]
    constructor
    · rintro (⟨hr, hk⟩ | ⟨hr, hk⟩)
      · exact ⟨hr, Or.inl hk⟩
      · exact ⟨hr, Or.inr hk⟩
    · rintro ⟨hr, hk | hk⟩
      · exact Or.inl ⟨hr, hk⟩
      · exact Or.inr ⟨hr, hk⟩
  · have zero : (freshToken (termCipher F) kc row).rowOldKey = none := by
      unfold freshToken
      rw [if_neg h]
      rfl
    rw [zero]
    simp only [termCipher, Option.some.injEq, Prod.mk.injEq, reduceCtorEq, or_false, h, false_and]

/-- A step reveals the current key of the row it searches, and moves it on. -/
theorem Stepped.revealed {i : IndexStep} {p' : CellStore × IndexClient KeyTerm}
    {e : Event KeyTerm} (server : cfg.decryptAtClientSide = false)
    (step : Stepped cfg (termCipher F) M s c i p' e) (h : Consistent cfg (termCipher F) M s c)
    (rev : Revealed cfg past c) : Revealed cfg (past ++ [e]) p'.2 := by
  intro r k hr
  have events : some (r, k) ∈ revealedKeys (past ++ [e]) ↔
      (1 ≤ k ∧ k < c.keywordCounterArr r) ∨ some (r, k) ∈ e.tokenKeys := by
    rw [← rev r k hr]
    simp [revealedKeys]
  rw [events]
  cases step with
  | searchedAtServer row _ limit =>
    obtain ⟨one, max⟩ := h.searched r hr
    rw [mem_tokenKeys_freshToken]
    by_cases hrow : r = row
    · subst hrow
      rw [c.countSearch_self, nextCounter_of_lt (Nat.lt_of_le_of_ne max limit)]
      constructor
      · rintro (⟨lo, hi⟩ | ⟨-, rfl | ⟨hlt, rfl⟩⟩) <;> constructor <;> omega
      · rintro ⟨lo, hi⟩
        rcases Nat.lt_or_ge k (c.keywordCounterArr r) with hlt | hge
        · exact Or.inl ⟨lo, hlt⟩
        · exact Or.inr ⟨rfl, Or.inl (by omega)⟩
    · rw [c.countSearch_of_ne row hrow]
      simp only [hrow, false_and, or_false]
  | searchedAtClient row client limit => cases server.symm.trans client
  | updated j u IPrime st fetched => simp [Event.tokenKeys]

end Step

/-! ### At every moment of a run -/

/-- Block `b` of row `r` is the plaintext under the row key of counter `k`. -/
def UnderKey (cfg : Config) (F : KeyTerm → Nat → Nat → Buf) (M : Plain) (I : Matrix)
    (c : IndexClient KeyTerm) (r b k : Nat) : Prop :=
  ∀ j, j < cfg.maxNumOfFiles → j / cfg.encryptBlockSize = b → bit (I r) j =
    (M r j ^^ (termCipher F).ks (some (r, k)) b (c.blockCounterArr b) (j % cfg.encryptBlockSize))

/-- Forward privacy after some steps. `sent` are the keys of the tokens so far. -/
structure ForwardPrivate (cfg : Config) (F : KeyTerm → Nat → Nat → Buf) (sent : List KeyTerm)
    (M : Plain) (s : RamServer) (c : IndexClient KeyTerm) : Prop where
  /-- Of every row the server has the keys before the current one. -/
  revealed : ∀ r k, r < cfg.matrixRowSize →
    (some (r, k) ∈ sent ↔ 1 ≤ k ∧ k < c.keywordCounterArr r)
  /-- The next update uploads every row of its block under the current key of the
  row, which the server does not have. -/
  uploads : ∀ j u, j < cfg.maxNumOfFiles → ∃ s' c',
    (indexMachine cfg (termCipher F) (ramServer cfg (termCipher F))).step (s, c) (.update j u) =
      some ((s', c'), .updated (j / cfg.encryptBlockSize)
        (updateEncryptions cfg (termCipher F) c (j / cfg.encryptBlockSize))) ∧
    ∀ r, r < cfg.matrixRowSize → some (r, c.keywordCounterArr r) ∉ sent ∧
      UnderKey cfg F (M.setColumn j u.newCol) s'.I c' r (j / cfg.encryptBlockSize)
        (c.keywordCounterArr r)
  /-- A block not updated since its row was last searched is under a key the
  server has. -/
  readable : ∀ r b, r < cfg.matrixRowSize → b < cfg.numBlocks →
    bit (s.blockStateMat r) b = false → 1 < c.keywordCounterArr r →
    some (r, c.keywordCounterArr r - 1) ∈ sent ∧
      UnderKey cfg F M s.I c r b (c.keywordCounterArr r - 1)

section Run

variable {cfg : Config} (size : cfg.Sized) {F : KeyTerm → Nat → Nat → Buf} {M : Plain}

/-- The cells of the server are under the key their row counter and state bit name. -/
theorem Consistent.underKey {s : RamServer} {c : IndexClient KeyTerm}
    (h : Consistent cfg (termCipher F) M (s.cells cfg) c) {r b k : Nat}
    (hr : r < cfg.matrixRowSize)
    (key : fetchedCounter c.keywordCounterArr (fun r => (s.cells cfg).state r b) r = k) :
    UnderKey cfg F M s.I c r b k := by
  intro j hj hb
  have cell := h.cells r j hr hj
  rw [RamServer.cells, cellsOf_cell hr hj] at cell
  rw [cell, ← key, ← hb]
  rfl

include size

/-- The invariant gives forward privacy. -/
theorem forwardPrivate_of_invariant (server : cfg.decryptAtClientSide = false)
    {past : List (Event KeyTerm)} {s : RamServer} {c : IndexClient KeyTerm}
    (h : Consistent cfg (termCipher F) M (s.cells cfg) c) (rev : Revealed cfg past c) :
    ForwardPrivate cfg F (revealedKeys past) M s c where
  revealed := rev
  uploads j u hj := by
    obtain ⟨IPrime, st, fetched, eq⟩ := updateColumn_store size h u (j := j)
    have store : (indexMachine cfg (termCipher F) (cellStore cfg (termCipher F))).step
        (s.cells cfg, c) (.update j u) = _ := eq
    obtain ⟨⟨s', c'⟩, e, step, ⟨cells, counters⟩, rfl⟩ :=
      ((ramRefinement size.tiled (termCipher F)).indexMachine_lockstep size.tiled
        (p := (s, c)) (q := (s.cells cfg, c)) (i := .update j u) ⟨rfl, rfl⟩ hj).of_right store
    dsimp only at cells counters
    subst counters
    have h' := h.update size u fetched
    rw [← cells] at h'
    refine ⟨s', _, step, fun r hr => ⟨fun sent => ?_, h'.underKey hr ?_⟩⟩
    · exact absurd ((rev r _ hr).mp sent).2 (Nat.lt_irrefl _)
    · refine fetchedCounter_updated ?_
      rw [cells, CellStore.update_state, if_pos ⟨server, hr, rfl⟩]
  readable r b hr hb clear searched := by
    have state : (s.cells cfg).state r b = false := by
      rw [RamServer.cells, cellsOf_state hr hb]
      exact clear
    refine ⟨(rev r _ hr).mpr ⟨by omega, by omega⟩, h.underKey hr ?_⟩
    exact fetchedCounter_searched state (by omega) (by omega)

/-- After a run from the setup on, the keys the server has been sent are those
before the current ones. -/
theorem revealed_run (server : cfg.decryptAtClientSide = false) {I : Matrix}
    (encrypted : Encrypted cfg (termCipher F) (fun _ => 1) (fun _ => 1) M I)
    {steps : List IndexStep} (valid : ∀ i ∈ steps, i.Valid cfg) {s : RamServer}
    {c : IndexClient KeyTerm}
    (run : (indexMachine cfg (termCipher F) (ramServer cfg (termCipher F))).exec
      (builtServer I, builtClient cfg (termCipher F)) steps = some (s, c)) :
    Revealed cfg ((indexMachine cfg (termCipher F) (ramServer cfg (termCipher F))).outputs
      (builtServer I, builtClient cfg (termCipher F)) steps) c := by
  have inv := (ramRefinement size.tiled (termCipher F)).run_invariant size (G := fun _ _ => True)
    (fun past t c => ∃ M', Consistent cfg (termCipher F) M' t c ∧ Revealed cfg past c)
    (fun past t c i p' e inv _ valid step => ?_) (s := builtServer I) rfl
    ⟨M, consistent_built encrypted, ?_⟩ valid
    (Machine.along_of_forall (fun _ _ => trivial) _ _) run
  · obtain ⟨t, -, -, -, rev⟩ := inv
    exact rev
  · obtain ⟨M', h, rev⟩ := inv
    have stepped := stepped_of_step size h valid step
    obtain ⟨M'', -, h'⟩ := stepped.agrees size h valid
    exact ⟨M'', h', stepped.revealed server h rev⟩
  · intro r k hr
    simp only [revealedKeys, List.flatMap_nil, List.not_mem_nil, builtClient, false_iff]
    omega

/-- After every run of searches and updates from the setup on: the server has been
sent exactly the keys before the current one of every row; the next update, of any
column, is under keys that have not been sent; and a block that was not updated
since its row was last searched is under a key that has been sent. -/
theorem forward_private (server : cfg.decryptAtClientSide = false) {I : Matrix}
    (encrypted : Encrypted cfg (termCipher F) (fun _ => 1) (fun _ => 1) M I)
    {steps : List IndexStep} (valid : ∀ i ∈ steps, i.Valid cfg)
    {s : RamServer} {c : IndexClient KeyTerm}
    (run : (indexMachine cfg (termCipher F) (ramServer cfg (termCipher F))).exec
      (builtServer I, builtClient cfg (termCipher F)) steps = some (s, c)) :
    ∃ M', (plainMachine cfg).exec M steps = some M' ∧
      ForwardPrivate cfg F (revealedKeys ((indexMachine cfg (termCipher F)
        (ramServer cfg (termCipher F))).outputs (builtServer I, builtClient cfg (termCipher F))
          steps)) M' s c := by
  have start := consistent_built encrypted
  have rev := revealed_run size server encrypted valid run
  obtain ⟨-, states⟩ := (ramRefinement size.tiled (termCipher F)).indexMachine_outputs size.tiled
    (s := builtServer I) (t := (builtServer I).cells cfg) rfl
    (builtClient cfg (termCipher F)) valid
  rw [run] at states
  cases hstore : (indexMachine cfg (termCipher F) (cellStore cfg (termCipher F))).exec
      ((builtServer I).cells cfg, builtClient cfg (termCipher F)) steps with
  | none => rw [hstore] at states; cases states
  | some q =>
    rw [hstore] at states
    obtain ⟨t, c'⟩ := q
    cases states with
    | some both =>
      obtain ⟨cells, same⟩ := both
      dsimp only at cells same
      subst same
      obtain ⟨-, M', plain, h⟩ := (run_agrees size start valid).2 _ hstore
      rw [← show s.cells cfg = t from cells] at h
      exact ⟨M', plain, forwardPrivate_of_invariant size server h rev⟩

end Run

theorem forward_private_small :
    ∃ I log s c, createEncryptedMatrix (wideConfig 4 false) smallCipher smallPairs (fun _ => 1)
        (fun _ => 1) = some (I, log) ∧
      (indexMachine (wideConfig 4 false) smallCipher
        (ramServer (wideConfig 4 false) smallCipher)).exec (builtServer I,
          builtClient (wideConfig 4 false) smallCipher) smallSteps = some (s, c) ∧
      ∃ M', (plainMachine (wideConfig 4 false)).exec (plainOf smallPairs) smallSteps = some M' ∧
        ForwardPrivate (wideConfig 4 false) smallKeystream
          (revealedKeys ((indexMachine (wideConfig 4 false) smallCipher
            (ramServer (wideConfig 4 false) smallCipher)).outputs (builtServer I,
              builtClient (wideConfig 4 false) smallCipher) smallSteps)) M' s c := by
  have size := wideConfig_sized (B := 4) false (by decide) (by decide)
  have pieces := wideConfig_pieces (B := 4) false (by decide)
  obtain ⟨I, log, created, encrypted⟩ :=
    createEncryptedMatrix_encrypted size pieces smallCipher smallPairs (fun _ => 1) (fun _ => 1)
  have valid := smallSteps_valid_wide 4 false
  have few : ∀ r, (builtClient (wideConfig 4 false) smallCipher).keywordCounterArr r +
      smallSteps.countP (IndexStep.searches r) ≤ ulongMax := fun r =>
    Nat.le_trans (Nat.add_le_add_left List.countP_le_length 1) (by decide)
  obtain ⟨⟨s, c⟩, run⟩ := (ramRefinement size.tiled smallCipher).run_goes_on size
    (s := builtServer I) rfl (consistent_built encrypted) valid few
  exact ⟨I, log, s, c, created, run, forward_private size rfl encrypted valid run⟩

end ImDsse
