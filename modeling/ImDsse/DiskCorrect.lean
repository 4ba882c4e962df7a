import ImDsse.DiskRefines
import ImDsse.SearchCorrect

/-!
Runs of the server on disk, under any order of requests.

When an update directly follows the request of its block, as `addFile` and
`delFile` send them, the run is that of the server in memory. Under other orders
it still is for as long as the buffers are current at every update, and an update
that does not find them so overwrites bits of other blocks.
-/

namespace ImDsse

open Kit Kit.Loop Kit.Bits Kit.Files

variable {Key : Type}

/-- Every update directly follows a request of its block. `last` is the block
requested just before. -/
def UpdatesFetched (last : Option Nat) : List (Command Key) → Prop
  | [] => True
  | .updateBlockData b _ :: cs => last = some b ∧ UpdatesFetched none cs
  | .requestBlockData b :: cs => UpdatesFetched (some b) cs
  | .searchOperation _ :: cs => UpdatesFetched none cs
  | .requestSearchData _ :: cs => UpdatesFetched none cs

/-- An update finds what it needs in the buffers, or reads it again. -/
def UpdateReady (cfg : Config) (s : DiskServer) (c : Command Key) : Prop :=
  ∀ b data, c = .updateBlockData b data → cfg.encryptBlockSize = 1 ∨ s.Current cfg b

theorem SameIndex.refl (cfg : Config) (s : RamServer) : SameIndex cfg s s :=
  ⟨fun _ _ _ _ => rfl, fun _ _ _ _ _ => rfl, fun _ _ _ => rfl⟩

section Runs

variable {cfg : Config} (h : cfg.OnDisk) (cr : Cipher Key)
include h

/-- No request damages the files, whatever the buffers hold. -/
theorem diskServer_formed {s : DiskServer} (formed : s.Formed cfg) {c : Command Key}
    (valid : c.Valid cfg) {p : DiskServer × Response Key}
    (step : (diskServer cfg cr).step s c = some p) : p.1.Formed cfg := by
  have rel : OnFiles cfg s (s.index cfg) := ⟨formed, SameIndex.refl cfg _⟩
  cases c with
  | searchOperation tau =>
    simp only [diskServer] at step
    split at step
    · cases step
    · next server =>
      cases step
      exact (searchKeyword_onFiles h rel cr tau (Bool.eq_false_iff.mpr server) valid).1.formed
  | requestSearchData row => cases step; exact ⟨formed.matrix, formed.state⟩
  | requestBlockData b => cases step; exact ⟨formed.matrix, formed.state⟩
  | updateBlockData b data => cases step; exact updateBlockData_formed h formed valid data

/-- Requests from any clients in any order keep the files whole. -/
theorem diskServer_reachable {s₀ s : DiskServer} (formed : s₀.Formed cfg)
    {commands : List (Command Key)} (valid : ∀ c ∈ commands, c.Valid cfg)
    (run : (diskServer cfg cr).exec s₀ commands = some s) : s.Formed cfg :=
  Machine.invariant (DiskServer.Formed cfg)
    (fun _ _ _ _ formed valid step => diskServer_formed h cr formed valid step) formed
    (Machine.along_of_inputs valid _) run

/-- A run whose updates are fetched finds the buffers ready at each of them. -/
theorem ready_of_fetched {s : DiskServer} (formed : s.Formed cfg) {last : Option Nat}
    (loaded : ∀ b, last = some b → s.Current cfg b) {commands : List (Command Key)}
    (valid : ∀ c ∈ commands, c.Valid cfg) (fetched : UpdatesFetched last commands) :
    (diskServer cfg cr).Along (UpdateReady cfg) s commands := by
  induction commands generalizing s last with
  | nil => trivial
  | cons c cs ih =>
    have here : c.Valid cfg := valid c List.mem_cons_self
    have rest : ∀ c ∈ cs, c.Valid cfg := fun c mem => valid c (List.mem_cons_of_mem _ mem)
    have next : ∀ s' o, (diskServer cfg cr).step s c = some (s', o) → s'.Formed cfg :=
      fun s' o step => diskServer_formed h cr formed here step
    cases c with
    | searchOperation tau =>
      exact ⟨nofun, fun s' o step => ih (next s' o step) (fun _ => by rintro ⟨⟩) rest fetched⟩
    | requestSearchData row =>
      exact ⟨nofun, fun s' o step => ih (next s' o step) (fun _ => by rintro ⟨⟩) rest fetched⟩
    | requestBlockData b =>
      refine ⟨nofun, fun s' o step => ih (next s' o step) ?_ rest fetched⟩
      rintro _ ⟨⟩
      cases step
      exact current_loaded h formed here
    | updateBlockData b data =>
      refine ⟨?_, fun s' o step => ih (next s' o step) (fun _ => by rintro ⟨⟩) rest fetched.2⟩
      rintro _ _ ⟨⟩
      exact Or.inr (loaded b fetched.1)

/-- A run whose updates find the buffers ready is the run in memory. -/
theorem diskServer_run {s : DiskServer} {t : RamServer} (start : OnFiles cfg s t)
    {commands : List (Command Key)} (valid : ∀ c ∈ commands, c.Valid cfg)
    (ready : (diskServer cfg cr).Along (UpdateReady cfg) s commands) :
    (diskServer cfg cr).outputs s commands = (ramServer cfg cr).outputs t commands ∧
      Option.Rel (OnFiles cfg) ((diskServer cfg cr).exec s commands)
        ((ramServer cfg cr).exec t commands) :=
  Machine.simulation_eq
    (fun _ _ _ rel good => diskServer_lockstep h rel cr good.1 good.2) start
    ((Machine.along_of_inputs valid _).and ready)

/-- The disk server gives the replies of the server in memory, and its files hold
the same index after every request, as long as every update directly follows the
request of its block. Blocks of one column need no request. -/
theorem disk_refines_ram {s : DiskServer} {t : RamServer} (start : OnFiles cfg s t)
    {commands : List (Command Key)} (valid : ∀ c ∈ commands, c.Valid cfg)
    (fetched : 1 < cfg.encryptBlockSize → UpdatesFetched none commands) :
    (diskServer cfg cr).outputs s commands = (ramServer cfg cr).outputs t commands ∧
      Option.Rel (OnFiles cfg) ((diskServer cfg cr).exec s commands)
        ((ramServer cfg cr).exec t commands) := by
  refine diskServer_run h cr start valid ?_
  by_cases h1 : cfg.encryptBlockSize = 1
  · exact Machine.along_of_forall (fun _ _ _ _ _ => Or.inl h1) _ _
  · have pos := h.blockSize.pos
    exact ready_of_fetched h cr start.formed (fun _ => by rintro ⟨⟩) valid (fetched (by omega))

end Runs

/-! ### A small directory -/

/-- Sixteen files in two pieces, eight blocks. -/
def diskConfig : Config := { smallConfig 2 false with maxNumOfFiles := 16 }

theorem diskConfig_onDisk : diskConfig.OnDisk := ⟨by decide, by decide, by decide, by decide⟩

/-- The files of an empty index. -/
def blankFiles : PieceFiles
  | .matrix 0 0 => some ⟨8, zeroBuf⟩
  | .matrix 0 1 => some ⟨8, zeroBuf⟩
  | .state 0 0 => some ⟨8, zeroBuf⟩
  | _ => none

def blankDisk : DiskServer :=
  ⟨blankFiles, fun _ => zeroBuf, fun _ => zeroBuf, fun _ => zeroBuf, fun _ => zeroBuf, fun _ => 1⟩

def blankRam : RamServer := ⟨fun _ => zeroBuf, fun _ => zeroBuf, fun _ => 1⟩

/-- Every byte in the files is zero. -/
theorem blankFiles_matrix (g : Grid) (r c : Nat) : g.matrix blankFiles r c = 0 := by
  unfold Grid.matrix
  split
  · next f file =>
    unfold blankFiles at file
    split at file <;> cases file <;> rfl
  · rfl

theorem blankDisk_onFiles : OnFiles diskConfig blankDisk blankRam where
  formed := by
    refine ⟨fun k l hk hl => ?_, fun _ k l hk hl => ?_⟩
    · obtain rfl : k = 0 := Nat.lt_one_iff.mp (Nat.lt_of_mul_lt_mul_right hk)
      obtain rfl | rfl : l = 0 ∨ l = 1 := by
        have : l < 2 := Nat.lt_of_mul_lt_mul_right (a := 1) hl
        omega
      · exact ⟨_, rfl, rfl⟩
      · exact ⟨_, rfl, rfl⟩
    · obtain rfl : k = 0 := Nat.lt_one_iff.mp (Nat.lt_of_mul_lt_mul_right hk)
      obtain rfl : l = 0 := Nat.lt_one_iff.mp (Nat.lt_of_mul_lt_mul_right (a := 1) hl)
      exact ⟨_, rfl, rfl⟩
  same := ⟨fun r j _ _ => blankFiles_matrix _ r j, fun _ r j _ _ => blankFiles_matrix _ r j,
    fun _ _ _ => rfl⟩

/-- A column is updated, its block read and a row searched. -/
def diskCommands : List (Command (Option (Nat × Nat))) :=
  [.requestBlockData 1, .updateBlockData 1 [3, 5], .requestSearchData 0, .requestBlockData 7,
    .updateBlockData 7 [255, 1], .searchOperation (freshToken smallCipher (fun _ => 1) 3),
    .requestBlockData 1]

theorem disk_refines_ram_small :
    (diskServer diskConfig smallCipher).outputs blankDisk diskCommands =
      (ramServer diskConfig smallCipher).outputs blankRam diskCommands := by
  refine (disk_refines_ram diskConfig_onDisk smallCipher blankDisk_onFiles ?_ fun _ => ?_).1
  · simp [diskCommands, Command.Valid, diskConfig, smallConfig, Config.matrixRowSize,
      Config.numBlocks]
  · exact ⟨rfl, rfl, trivial⟩

/-! ### Any order of requests -/

/-- Every update in memory is isolated. On disk, in every state that any requests in
any order lead to, an update is isolated exactly when blocks are single columns or
the buffers are current; and a run whose updates all find them so is seen by every
later request as the run in memory. -/
theorem updates_isolated {cfg : Config} (hB : BlockSize cfg.encryptBlockSize)
    (cr : Cipher Key) :
    (∀ (t : RamServer) (b : Nat) (data : List Byte),
      Isolated cfg b (ofBytes data cfg.blockBytes zeroBuf) t (t.updateBlockData cfg b data)) ∧
    (cfg.OnDisk → ∀ (s₀ s : DiskServer) (commands : List (Command Key)), s₀.Formed cfg →
      (∀ c ∈ commands, c.Valid cfg) → (diskServer cfg cr).exec s₀ commands = some s →
      ∀ (b : Nat) (data : List Byte), b < cfg.numBlocks →
        (Isolated cfg b (ofBytes data cfg.blockBytes zeroBuf) (s.index cfg)
          ((s.updateBlockData cfg b data).index cfg) ↔
            cfg.encryptBlockSize = 1 ∨ s.Current cfg b)) ∧
    (cfg.OnDisk → ∀ (s : DiskServer) (t : RamServer) (commands : List (Command Key)),
      OnFiles cfg s t → (∀ c ∈ commands, c.Valid cfg) →
      (diskServer cfg cr).Along (UpdateReady cfg) s commands →
        (diskServer cfg cr).outputs s commands = (ramServer cfg cr).outputs t commands ∧
          Option.Rel (OnFiles cfg) ((diskServer cfg cr).exec s commands)
            ((ramServer cfg cr).exec t commands)) := by
  refine ⟨fun t b data => updateBlockData_isolated hB t b data, fun h => ?_, fun h => ?_⟩
  · intro s₀ s commands formed valid run b data hb
    exact updateBlockData_isolated_iff h (diskServer_reachable h cr formed valid run) hb data
  · intro s t commands start valid ready
    exact diskServer_run h cr start valid ready

/-- An update that follows the request of its block. -/
theorem updates_isolated_small : ∃ s,
    (diskServer diskConfig smallCipher).exec blankDisk [.requestBlockData 1] = some s ∧
      Isolated diskConfig 1 (ofBytes [3, 5] diskConfig.blockBytes zeroBuf) (s.index diskConfig)
        ((s.updateBlockData diskConfig 1 [3, 5]).index diskConfig) := by
  obtain ⟨-, disk, -⟩ := updates_isolated diskConfig_onDisk.blockSize smallCipher
  refine ⟨_, rfl, (disk diskConfig_onDisk blankDisk _ [.requestBlockData 1]
    blankDisk_onFiles.formed ?_ rfl 1 [3, 5] (by decide)).mpr (Or.inr ?_)⟩
  · simp [Command.Valid, diskConfig, smallConfig, Config.numBlocks]
  · exact current_loaded diskConfig_onDisk blankDisk_onFiles.formed (by decide)

/-- Block 0 is requested, and before it is sent back a search of row 0 clears a
state bit that the buffer still has. -/
def staleCommands : List (Command (Option (Nat × Nat))) :=
  [.requestBlockData 1, .updateBlockData 1 [3, 5], .requestBlockData 0,
    .searchOperation (freshToken smallCipher (fun _ => 1) 0)]

/-- Sending block 0 back then sets the state bit of block 1 again. -/
theorem update_not_isolated :
    ∃ s, (diskServer diskConfig smallCipher).exec blankDisk staleCommands = some s ∧
      ¬ Isolated diskConfig 0 (ofBytes [0, 0] diskConfig.blockBytes zeroBuf) (s.index diskConfig)
        ((s.updateBlockData diskConfig 0 [0, 0]).index diskConfig) := by
  have bits : ((diskServer diskConfig smallCipher).exec blankDisk staleCommands).map (fun s =>
      (bit (s.blockStateMatUpdate 0) 1, bit (s.blockStateMat diskConfig 0) 1)) =
        some (true, false) := by
    decide +kernel
  obtain ⟨s, run, both⟩ := Option.map_eq_some_iff.mp bits
  obtain ⟨buffer, file⟩ := Prod.mk.inj both
  have valid : ∀ c ∈ staleCommands, c.Valid diskConfig := by
    simp [staleCommands, Command.Valid, diskConfig, smallConfig, Config.matrixRowSize,
      Config.numBlocks]
  have formed := diskServer_reachable diskConfig_onDisk smallCipher blankDisk_onFiles.formed
    valid run
  refine ⟨s, run, fun isolated => ?_⟩
  rcases (updateBlockData_isolated_iff diskConfig_onDisk formed (b := 0) (by decide) _).mp isolated
    with one | current
  · exact absurd one (by decide)
  · have stale := current.states rfl 0 1 (by decide) rfl (by decide)
    rw [file] at stale
    exact absurd (buffer.symm.trans stale) (by decide)

/-- Single columns are loaded as they are updated. -/
theorem DiskServer.ready_of_single {cfg : Config} (one : cfg.encryptBlockSize = 1) (b : Nat)
    (s : DiskServer) : cfg.encryptBlockSize = 1 ∨ s.Current cfg b :=
  .inl one

/-- The disk server behaves as a store towards a client that fetches a block before
it sends it back. -/
def diskRefinement {cfg : Config} (h : cfg.OnDisk) (size : cfg.Sized) (cr : Cipher Key) :
    Refinement cfg cr (diskServer cfg cr) where
  Rel s u := ∃ t, OnFiles cfg s t ∧ t.cells cfg = u
  Ready b s := cfg.encryptBlockSize = 1 ∨ s.Current cfg b
  step := by
    rintro s _ c ⟨t, rel, rfl⟩ valid ready
    exact (diskServer_lockstep h rel cr valid ready).trans (ramServer_refines size.tiled cr t valid)
  fetched := by
    rintro s _ b s' o ⟨t, rel, rfl⟩ hb step
    cases step
    exact Or.inr (current_loaded h rel.formed hb)
  single := DiskServer.ready_of_single

end ImDsse
