import ImDsse.Encrypt

/-!
Every search of a run answers as the plaintext index.

`searches_exact` and `client_searches_exact` share their proof: `Consistent` holds
of the index the setup encrypts, each step preserves it and answers as
`plainMachine` does, and the run over the server in memory is the run over the
store. They differ in who decrypts. Where the server does, keyword counters
advance, and a client whose counter has reached its limit stops; where the
client does, no run stops.
-/

namespace ImDsse

open Kit Kit.Loop Kit.Bits

variable {Key : Type}

/-- The step searches row `r`. -/
def IndexStep.searches (r : Nat) : IndexStep → Bool
  | .search row => row = r
  | .update .. => false

/-! ### One step -/

/-- What a step of client and store can be, with all it changes and answers. -/
inductive Stepped (cfg : Config) (cr : Cipher Key) (M : Plain) (s : CellStore)
    (c : IndexClient Key) : IndexStep → CellStore × IndexClient Key → Event Key → Prop where
  | searchedAtServer (row : Nat) (server : cfg.decryptAtClientSide = false)
      (limit : c.keywordCounterArr row ≠ ulongMax) :
      Stepped cfg cr M s c (.search row)
        (s.search cfg cr (freshToken cr c.keywordCounterArr row), c.countSearch row)
        (.searched (M.searchRow cfg row) (some (freshToken cr c.keywordCounterArr row))
          (s.searchEncryptions cfg (freshToken cr c.keywordCounterArr row)))
  | searchedAtClient (row : Nat) (client : cfg.decryptAtClientSide = true)
      (limit : c.keywordCounterArr row ≠ ulongMax) :
      Stepped cfg cr M s c (.search row) (s, c) (.searched (M.searchRow cfg row) none [])
  | updated (j : Nat) (u : ColumnUpdate) (IPrime : Buf) (st : Nat → Bool)
      (fetched : Fetched cfg s (j / cfg.encryptBlockSize) IPrime st) :
      Stepped cfg cr M s c (.update j u)
        (s.update cfg (j / cfg.encryptBlockSize) (toBytes
          (recodeBlock cfg cr c (j / cfg.encryptBlockSize) j u IPrime st).1 cfg.blockBytes),
          c.countUpdate (j / cfg.encryptBlockSize))
        (.updated (j / cfg.encryptBlockSize)
          (updateEncryptions cfg cr c (j / cfg.encryptBlockSize)))

section Step

variable {cfg : Config} {cr : Cipher Key} (size : cfg.Sized) {M : Plain} {s : CellStore}
  {c : IndexClient Key} {i : IndexStep} {p' : CellStore × IndexClient Key} {e : Event Key}
include size

theorem stepped_of_step (h : Consistent cfg cr M s c) (valid : i.Valid cfg)
    (step : (indexMachine cfg cr (cellStore cfg cr)).step (s, c) i = some (p', e)) :
    Stepped cfg cr M s c i p' e := by
  cases i with
  | search row =>
    have limit : c.keywordCounterArr row ≠ ulongMax := by
      intro limit
      cases (searchRow_limit limit).symm.trans step
    cases hd : cfg.decryptAtClientSide with
    | false =>
      cases (searchRow_server hd limit).symm.trans step
      rw [h.found_eq size valid hd]
      exact .searchedAtServer row hd limit
    | true =>
      cases (searchRow_client hd limit).symm.trans step
      rw [h.decryptRow_eq size valid hd]
      exact .searchedAtClient row hd limit
  | update j u =>
    obtain ⟨IPrime, st, fetched, eq⟩ := updateColumn_store size h u (j := j)
    cases eq.symm.trans step
    exact .updated j u IPrime st fetched

/-- A step goes on unless it searches a row whose counter is at its limit. -/
theorem step_goes_on (h : Consistent cfg cr M s c)
    (limit : ∀ r, i.searches r = true → c.keywordCounterArr r ≠ ulongMax) :
    ∃ p', (indexMachine cfg cr (cellStore cfg cr)).step (s, c) i = some p' := by
  cases i with
  | search row =>
    have limit := limit row (by simp [IndexStep.searches])
    cases hd : cfg.decryptAtClientSide with
    | false => exact ⟨_, searchRow_server hd limit⟩
    | true => exact ⟨_, searchRow_client hd limit⟩
  | update j u =>
    obtain ⟨_, _, -, eq⟩ := updateColumn_store size h u (j := j)
    exact ⟨_, eq⟩

/-- A step answers as the plaintext and stays consistent with it. -/
theorem Stepped.agrees (step : Stepped cfg cr M s c i p' e) (h : Consistent cfg cr M s c)
    (valid : i.Valid cfg) :
    ∃ M', (plainMachine cfg).step M i = some (M', e.result) ∧ Consistent cfg cr M' p'.1 p'.2 := by
  cases step with
  | searchedAtServer row server limit => exact ⟨M, rfl, h.search size valid server limit⟩
  | searchedAtClient row client limit => exact ⟨M, rfl, h⟩
  | updated j u IPrime st fetched => exact ⟨_, rfl, h.update size u fetched⟩

omit size in
/-- A step raises a keyword counter by at most one, and only by searching its row. -/
theorem Stepped.counter_le (step : Stepped cfg cr M s c i p' e) (r : Nat) :
    p'.2.keywordCounterArr r ≤ c.keywordCounterArr r + if i.searches r then 1 else 0 := by
  cases step with
  | searchedAtServer row server limit =>
    by_cases hr : r = row
    · subst hr
      rw [c.countSearch_self]
      simpa [IndexStep.searches, nextCounter] using Nat.mod_le _ _
    · rw [c.countSearch_of_ne row hr]
      exact Nat.le_add_right _ _
  | searchedAtClient row client limit => exact Nat.le_add_right _ _
  | updated j u IPrime st fetched => exact Nat.le_add_right _ _

end Step

/-! ### Whole runs -/

section Run

variable {cfg : Config} {cr : Cipher Key} (size : cfg.Sized)
include size

/-- A run over the store answers as the plaintext for as long as it goes on. -/
theorem run_agrees {M : Plain} {s : CellStore} {c : IndexClient Key}
    (h : Consistent cfg cr M s c) {steps : List IndexStep} (valid : ∀ i ∈ steps, i.Valid cfg) :
    ((indexMachine cfg cr (cellStore cfg cr)).outputs (s, c) steps).map Event.result <+:
        (plainMachine cfg).outputs M steps ∧
      ∀ p', (indexMachine cfg cr (cellStore cfg cr)).exec (s, c) steps = some p' →
        ((indexMachine cfg cr (cellStore cfg cr)).outputs (s, c) steps).map Event.result =
          (plainMachine cfg).outputs M steps ∧
        ∃ M', (plainMachine cfg).exec M steps = some M' ∧ Consistent cfg cr M' p'.1 p'.2 :=
  Machine.simulation_prefix (fun (p : CellStore × IndexClient Key) M => Consistent cfg cr M p.1 p.2)
    Event.result
    (fun _ _ _ _ _ h valid step => (stepped_of_step size h valid step).agrees size h valid) h
    (Machine.along_of_inputs valid _)

/-- A run goes on to its end when no row is searched up to its counter's limit. -/
theorem run_goes_on {M : Plain} {s : CellStore} {c : IndexClient Key}
    (h : Consistent cfg cr M s c) {steps : List IndexStep} (valid : ∀ i ∈ steps, i.Valid cfg)
    (few : ∀ r, c.keywordCounterArr r + steps.countP (IndexStep.searches r) ≤ ulongMax) :
    ∃ p', (indexMachine cfg cr (cellStore cfg cr)).exec (s, c) steps = some p' := by
  induction steps generalizing M s c with
  | nil => exact ⟨(s, c), rfl⟩
  | cons i steps ih =>
    have here : i.Valid cfg := valid i List.mem_cons_self
    obtain ⟨⟨p', e⟩, step⟩ := step_goes_on (i := i) size h fun r hr hlimit => by
      have := few r
      rw [List.countP_cons_of_pos hr, hlimit] at this
      omega
    have stepped := stepped_of_step size h here step
    obtain ⟨M', -, h'⟩ := stepped.agrees size h here
    rw [Machine.exec_cons_of_step steps step]
    refine ih h' (fun j hj => valid j (List.mem_cons_of_mem i hj)) fun r => ?_
    have hle := stepped.counter_le r
    have := few r
    rw [List.countP_cons] at this
    omega

/-- Where the client decrypts, every run goes on to its end. -/
theorem run_goes_on_client (client : cfg.decryptAtClientSide = true) {M : Plain} {s : CellStore}
    {c : IndexClient Key} (h : Consistent cfg cr M s c) {steps : List IndexStep}
    (valid : ∀ i ∈ steps, i.Valid cfg) :
    ∃ p', (indexMachine cfg cr (cellStore cfg cr)).exec (s, c) steps = some p' := by
  induction steps generalizing M s c with
  | nil => exact ⟨(s, c), rfl⟩
  | cons i steps ih =>
    have here : i.Valid cfg := valid i List.mem_cons_self
    obtain ⟨⟨p', e⟩, step⟩ := step_goes_on (i := i) size h fun r hr => by
      cases i with
      | search row =>
        obtain rfl : row = r := by simpa [IndexStep.searches] using hr
        rw [(h.pinned client row here).1]
        decide
      | update j u => simp [IndexStep.searches] at hr
    obtain ⟨M', -, h'⟩ := (stepped_of_step size h here step).agrees size h here
    rw [Machine.exec_cons_of_step steps step]
    exact ih h' fun j hj => valid j (List.mem_cons_of_mem i hj)

/-- The same over any server that behaves as a store. -/
theorem Refinement.run_agrees {σ : Type} {srv : Machine σ (Command Key) (Response Key)}
    (ref : Refinement cfg cr srv) {M : Plain} {s : σ} {t : CellStore} {c : IndexClient Key}
    (rel : ref.Rel s t) (h : Consistent cfg cr M t c) {steps : List IndexStep}
    (valid : ∀ i ∈ steps, i.Valid cfg) :
    ((indexMachine cfg cr srv).outputs (s, c) steps).map Event.result <+:
        (plainMachine cfg).outputs M steps ∧
      ((∀ r, c.keywordCounterArr r + steps.countP (IndexStep.searches r) ≤ ulongMax) →
        ((indexMachine cfg cr srv).outputs (s, c) steps).map Event.result =
          (plainMachine cfg).outputs M steps) := by
  obtain ⟨same, -⟩ := ref.indexMachine_outputs size.tiled rel c valid
  obtain ⟨pre, whole⟩ := ImDsse.run_agrees size h valid
  rw [same]
  refine ⟨pre, fun few => ?_⟩
  obtain ⟨p', exec⟩ := run_goes_on size h valid few
  exact (whole p' exec).1

theorem Refinement.run_goes_on {σ : Type} {srv : Machine σ (Command Key) (Response Key)}
    (ref : Refinement cfg cr srv) {M : Plain} {s : σ} {t : CellStore} {c : IndexClient Key}
    (rel : ref.Rel s t) (h : Consistent cfg cr M t c) {steps : List IndexStep}
    (valid : ∀ i ∈ steps, i.Valid cfg)
    (few : ∀ r, c.keywordCounterArr r + steps.countP (IndexStep.searches r) ≤ ulongMax) :
    ∃ p', (indexMachine cfg cr srv).exec (s, c) steps = some p' := by
  obtain ⟨q, store⟩ := ImDsse.run_goes_on size h valid few
  obtain ⟨-, states⟩ := ref.indexMachine_outputs size.tiled rel c valid
  rw [store] at states
  cases run : (indexMachine cfg cr srv).exec (s, c) steps with
  | none => rw [run] at states; cases states
  | some p' => exact ⟨p', rfl⟩

/-- What every step over the store preserves, of the events so far and of client
and store, holds at the end of every run over a server that behaves as a store.
`G` guards the steps by the client's counters. -/
theorem Refinement.run_invariant {σ : Type} {srv : Machine σ (Command Key) (Response Key)}
    (ref : Refinement cfg cr srv) {G : IndexClient Key → IndexStep → Prop}
    (Inv : List (Event Key) → CellStore → IndexClient Key → Prop)
    (preserve : ∀ past t c i p' e, Inv past t c → G c i → i.Valid cfg →
      (indexMachine cfg cr (cellStore cfg cr)).step (t, c) i = some (p', e) →
      Inv (past ++ [e]) p'.1 p'.2)
    {s s' : σ} {t : CellStore} {c c' : IndexClient Key} (rel : ref.Rel s t) (start : Inv [] t c)
    {steps : List IndexStep} (valid : ∀ i ∈ steps, i.Valid cfg)
    (good : (indexMachine cfg cr srv).Along (fun p i => G p.2 i) (s, c) steps)
    (run : (indexMachine cfg cr srv).exec (s, c) steps = some (s', c')) :
    ∃ t', ref.Rel s' t' ∧ Inv ((indexMachine cfg cr srv).outputs (s, c) steps) t' c' := by
  have inv := Machine.invariant_history
    (fun past (p : σ × IndexClient Key) => ∃ t, ref.Rel p.1 t ∧ Inv past t p.2)
    (fun past p i p' e h good step => ?_) [] ⟨t, rel, start⟩
    (good.and (Machine.along_of_inputs valid _)) run
  · exact inv
  · obtain ⟨t, rel, h⟩ := h
    have agree := ref.indexMachine_lockstep size.tiled (p := p) (q := (t, p.2)) ⟨rel, rfl⟩ good.2
    obtain ⟨q, e', store, ⟨rel', same⟩, rfl⟩ := agree.of_left step
    refine ⟨q.1, rel', ?_⟩
    rw [same]
    exact preserve past t p.2 i q e h good.1 good.2 store

end Run

/-! ### From the setup on -/

/-- The server after the setup: the encrypted matrix, no state bit set, every
block counter 1. -/
def builtServer (I : Matrix) : RamServer := ⟨I, fun _ => zeroBuf, fun _ => 1⟩

/-- The client after the setup. The row keys are used where the client decrypts. -/
def builtClient (cfg : Config) (cr : Cipher Key) : IndexClient Key :=
  ⟨fun _ => 1, fun _ => 1, pregenerateRowKeys cfg cr fun _ => 1⟩

/-- What the searches of a run return, from an encrypted matrix on. -/
def runResults (cfg : Config) (cr : Cipher Key) (I : Matrix) (steps : List IndexStep) :
    List (Option (List Nat)) :=
  ((indexMachine cfg cr (ramServer cfg cr)).outputs (builtServer I, builtClient cfg cr) steps).map
    Event.result

/-- What they return without encryption. -/
def plainResults (cfg : Config) (M : Plain) (steps : List IndexStep) : List (Option (List Nat)) :=
  (plainMachine cfg).outputs M steps

section Built

variable {cfg : Config} (size : cfg.Sized)

/-- The index of the setup is consistent with its plaintext. -/
theorem consistent_built {cr : Cipher Key} {M : Plain} {I : Matrix}
    (encrypted : Encrypted cfg cr (fun _ => 1) (fun _ => 1) M I) :
    Consistent cfg cr M ((builtServer I).cells cfg) (builtClient cfg cr) where
  cells r j hr hj := by
    rw [RamServer.cells, cellsOf_cell hr hj, fetchedCounter_one _ rfl]
    exact encrypted r j hr hj
  counters _ b hb := cellsOf_counter hb
  searched _ _ := ⟨Nat.le_refl 1, show 1 ≤ ulongMax by decide⟩
  pinned _ r hr := ⟨rfl, pregenerateRowKeys_apply cfg cr _ hr⟩

include size

/-- Every search of every run of searches and updates returns the columns whose
current plaintext bit is set. A run ends early only when a row has been searched
up to the limit of its counter. The matrix the setup creates is a plaintext
encrypted with all counters 1. -/
theorem searches_exact (cr : Cipher Key) :
    (∀ (M : Plain) (I : Matrix), Encrypted cfg cr (fun _ => 1) (fun _ => 1) M I →
      ∀ steps : List IndexStep, (∀ i ∈ steps, i.Valid cfg) →
        runResults cfg cr I steps <+: plainResults cfg M steps ∧
          ((∀ r, steps.countP (IndexStep.searches r) < ulongMax) →
            runResults cfg cr I steps = plainResults cfg M steps)) ∧
    (cfg.Pieces → ∀ kwFilePair : Nat → List Nat, ∃ I encryptions,
      createEncryptedMatrix cfg cr kwFilePair (fun _ => 1) (fun _ => 1) = some (I, encryptions) ∧
        Encrypted cfg cr (fun _ => 1) (fun _ => 1) (plainOf kwFilePair) I) := by
  refine ⟨?_, fun pieces kwFilePair =>
    createEncryptedMatrix_encrypted size pieces cr kwFilePair _ _⟩
  intro M I encrypted steps valid
  obtain ⟨pre, whole⟩ := (ramRefinement size.tiled cr).run_agrees size (s := builtServer I) rfl
    (consistent_built encrypted) valid
  refine ⟨pre, fun few => whole fun r => ?_⟩
  have := few r
  simp only [builtClient]
  omega

/-- Where the client decrypts, every search of every run of searches and updates
returns the columns whose current plaintext bit is set, and no run ends early. -/
theorem client_searches_exact (cr : Cipher Key) (client : cfg.decryptAtClientSide = true) :
    (∀ (M : Plain) (I : Matrix), Encrypted cfg cr (fun _ => 1) (fun _ => 1) M I →
      ∀ steps : List IndexStep, (∀ i ∈ steps, i.Valid cfg) →
        runResults cfg cr I steps = plainResults cfg M steps) ∧
    (cfg.Pieces → ∀ kwFilePair : Nat → List Nat, ∃ I encryptions,
      createEncryptedMatrix cfg cr kwFilePair (fun _ => 1) (fun _ => 1) = some (I, encryptions) ∧
        Encrypted cfg cr (fun _ => 1) (fun _ => 1) (plainOf kwFilePair) I) := by
  refine ⟨?_, fun pieces kwFilePair =>
    createEncryptedMatrix_encrypted size pieces cr kwFilePair _ _⟩
  intro M I encrypted steps valid
  have start := consistent_built encrypted
  obtain ⟨same, -⟩ :=
    (ramRefinement size.tiled cr).indexMachine_outputs size.tiled (s := builtServer I) rfl _ valid
  obtain ⟨p', exec⟩ := run_goes_on_client size client start valid
  rw [runResults, same]
  exact ((run_agrees size start valid).2 p' exec).1

end Built

/-! ### On the small index -/

theorem smallConfig_sized {B : Nat} (client : Bool) (hB : BlockSize B) (h8 : B ∣ 8) :
    (smallConfig B client).Sized :=
  ⟨hB, h8, Nat.dvd_refl 8, Nat.dvd_refl 8⟩

theorem smallConfig_pieces {B : Nat} (client : Bool) (h8 : B ∣ 8) :
    (smallConfig B client).Pieces :=
  ⟨Nat.one_pos, Nat.one_dvd _, h8⟩

theorem wideConfig_sized {B : Nat} (client : Bool) (hB : BlockSize B) (h32 : B ∣ 32) :
    (wideConfig B client).Sized :=
  ⟨hB, h32, ⟨4, rfl⟩, Nat.dvd_refl 8⟩

theorem wideConfig_pieces {B : Nat} (client : Bool) (h8 : B ∣ 8) : (wideConfig B client).Pieces :=
  ⟨Nat.one_pos, Nat.one_dvd _, h8⟩

/-- Rows 0 and 3 in column 2, row 3 in column 5. -/
def smallPairs (j : Nat) : List Nat := if j = 2 then [0, 3] else if j = 5 then [3] else []

/-- Row 3 is searched, loses column 2, is searched again, is given column 7, is
searched a third time. -/
def smallSteps : List IndexStep :=
  [.search 3, .update 2 .del, .search 3, .update 7 (.add (packBuf (· == 3))), .search 3]

theorem smallSteps_valid (B : Nat) (client : Bool) :
    ∀ i ∈ smallSteps, i.Valid (smallConfig B client) := by
  simp [smallSteps, IndexStep.Valid, smallConfig, Config.matrixRowSize]

theorem smallSteps_valid_wide (B : Nat) (client : Bool) :
    ∀ i ∈ smallSteps, i.Valid (wideConfig B client) := by
  simp [smallSteps, IndexStep.Valid, wideConfig, smallConfig, Config.matrixRowSize]

theorem searches_exact_small :
    (createEncryptedMatrix (wideConfig 4 false) smallCipher smallPairs (fun _ => 1)
      (fun _ => 1)).map (fun p => runResults (wideConfig 4 false) smallCipher p.1 smallSteps) =
    some [some [2, 5], none, some [5], none, some [5, 7]] := by
  have size := wideConfig_sized (B := 4) false (by decide) (by decide)
  obtain ⟨exact, setup⟩ := searches_exact size smallCipher
  obtain ⟨I, _, created, encrypted⟩ :=
    setup (wideConfig_pieces false (by decide)) smallPairs
  have few : ∀ r, smallSteps.countP (IndexStep.searches r) < ulongMax := fun r =>
    Nat.lt_of_le_of_lt List.countP_le_length (by decide)
  have run := (exact _ I encrypted smallSteps (smallSteps_valid_wide 4 false)).2 few
  rw [created, Option.map_some, run]
  decide

theorem client_searches_exact_small :
    (createEncryptedMatrix (smallConfig 8 true) smallCipher smallPairs (fun _ => 1)
      (fun _ => 1)).map (fun p => runResults (smallConfig 8 true) smallCipher p.1 smallSteps) =
    some [some [2, 5], none, some [5], none, some [5, 7]] := by
  have size := smallConfig_sized (B := 8) true (by decide) (by decide)
  obtain ⟨exact, setup⟩ := client_searches_exact size smallCipher rfl
  obtain ⟨I, _, created, encrypted⟩ :=
    setup (smallConfig_pieces true (by decide)) smallPairs
  rw [created, Option.map_some, exact _ I encrypted smallSteps (smallSteps_valid 8 true)]
  decide

end ImDsse
