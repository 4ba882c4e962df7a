import ImDsse.Derivation
import ImDsse.ForwardPrivacy

/-!
No keystream is used twice, under the keys the code derives.

`Fresh` takes keys as terms. The code has tags for keys, and what it encrypts under is
named by terms, call by call (`Stepped.named`): the call log of a run is the image of a log
of terms without repetitions. Terms in range name different keys (`Cipher.Apart`), and the
block and its counter fill one input of AES, so that the images are different too.

A token carries the keys of its row. What is encrypted later is under another key
(`encrypts_under_unsent_keys`), the all-zero key apart, which a token has in the place of an
older key.
-/

namespace ImDsse

open Kit Kit.Loop Kit.Bits Kit.Cmac

variable {Key : Type}

/-! ### Terms for keys -/

/-- The key of a term. -/
def Cipher.named (cr : Cipher Key) : KeyTerm → Key
  | none => cr.zeroKey
  | some (r, k) => cr.genRowKey r k

/-- Terms have the keystreams of their keys. -/
def Cipher.terms (cr : Cipher Key) : Cipher KeyTerm := termCipher fun t => cr.keystream (cr.named t)

/-- The client with terms for row keys. -/
def IndexClient.terms (c : IndexClient Key) : IndexClient KeyTerm where
  keywordCounterArr := c.keywordCounterArr
  blockCounterArr := c.blockCounterArr
  rowKeys r := some (r, 1)

/-- The encryption under the key that a term names. -/
def Cipher.encryption (cr : Cipher Key) (e : Encryption KeyTerm) : Encryption Key :=
  ⟨cr.named e.key, e.blockIdx, e.counter⟩

/-- Rows with different counters have different keys, and so have different rows. -/
def Cipher.Apart (cr : Cipher Key) : Prop :=
  ∀ r k r' k', r < 2 ^ 64 → k < 2 ^ 64 → r' < 2 ^ 64 → k' < 2 ^ 64 →
    cr.genRowKey r k = cr.genRowKey r' k' → r = r' ∧ k = k'

/-- Under one key, blocks with their counters have different keystreams. -/
def Cipher.Streams (cr : Cipher Key) : Prop :=
  ∀ key b c b' c', b < 2 ^ 64 → c < 2 ^ 64 → b' < 2 ^ 64 → c' < 2 ^ 64 →
    cr.keystream key b c = cr.keystream key b' c' → b = b' ∧ c = c'

/-- Every number of an encryption fits its word. -/
structure Encryption.InWords (e : Encryption KeyTerm) : Prop where
  key : ∃ r k, e.key = some (r, k) ∧ r < 2 ^ 64 ∧ k < 2 ^ 64
  blockIdx : e.blockIdx < 2 ^ 64
  counter : e.counter < 2 ^ 64

/-- The numbers of rows and blocks fit their words. -/
structure Config.Words (cfg : Config) : Prop where
  row : ∀ r, r < cfg.matrixRowSize → r < 2 ^ 64
  block : ∀ b, b < cfg.numBlocks → b < 2 ^ 64

theorem Config.Addressable.words {cfg : Config} (h : cfg.Addressable) : cfg.Words where
  row _ inside := Nat.lt_trans inside h.keywords
  block _ inside := Nat.lt_of_lt_of_le (Nat.lt_of_lt_of_le inside (Nat.div_le_self _ _))
    (Nat.le_of_lt h.files)

theorem lt_of_le_ulongMax {n : Nat} (h : n ≤ ulongMax) : n < 2 ^ 64 := Nat.lt_succ_of_le h

section Terms

variable {cfg : Config} {cr : Cipher Key} {M : Plain} {s s' : CellStore} {c : IndexClient Key}
  {log : List (Encryption KeyTerm)}

/-- The store is consistent with the terms as it is with the keys. -/
theorem Consistent.terms (h : Consistent cfg cr M s c) : Consistent cfg cr.terms M s c.terms where
  cells := h.cells
  counters := h.counters
  searched := h.searched
  pinned client r hr := ⟨(h.pinned client r hr).1, rfl⟩

/-- Of the store only the states matter. -/
theorem Fresh.of_states {c : IndexClient KeyTerm} (fresh : Fresh cfg log s c)
    (same : s'.state = s.state) : Fresh cfg log s' c where
  nodup := fresh.nodup
  below e mem := by
    have below := fresh.below e mem
    unfold Below at below ⊢
    rwa [same]
  bounded := fresh.bounded

theorem searchEncryptions_named (row : Nat) :
    s.searchEncryptions cfg (freshToken cr c.keywordCounterArr row) =
      (s.searchEncryptions cfg (freshToken cr.terms c.keywordCounterArr row)).map cr.encryption := by
  unfold CellStore.searchEncryptions CellStore.newest
  rw [List.map_map]
  simp only [freshToken_hasRowKey, freshToken_rowIndex, freshToken_rowKey]
  rfl

theorem updateEncryptions_named (b : Nat) :
    updateEncryptions cfg cr c b = (updateEncryptions cfg cr.terms c.terms b).map cr.encryption := by
  unfold updateEncryptions
  rw [List.map_map]
  rfl

/-- The encryptions of a step are those of terms, and these stay fresh. -/
theorem Stepped.named (size : cfg.Sized) (words : cfg.Words) {i : IndexStep}
    {p' : CellStore × IndexClient Key} {e : Event Key} (step : Stepped cfg cr M s c i p' e)
    (h : Consistent cfg cr M s c) (valid : i.Valid cfg) (left : CounterLeft cfg c.terms i)
    (fresh : Fresh cfg log s c.terms) :
    ∃ new, e.encryptions = new.map cr.encryption ∧ (∀ x ∈ new, x.InWords) ∧
      Fresh cfg (log ++ new) p'.1 p'.2.terms := by
  have keywords : ∀ r, r < cfg.matrixRowSize → c.keywordCounterArr r < 2 ^ 64 := fun r hr =>
    lt_of_le_ulongMax (h.searched r hr).2
  cases step with
  | searchedAtServer row server limit =>
    refine ⟨_, searchEncryptions_named row, ?_, ?_⟩
    · intro x mem
      obtain ⟨key, inside, counter, -⟩ := mem_searchEncryptions (c := c.terms) mem
      refine ⟨⟨row, _, key, words.row row valid, keywords row valid⟩, words.block _ inside, ?_⟩
      rw [counter, h.counters server _ inside]
      exact lt_of_le_ulongMax (fresh.bounded _ inside)
    · refine (fresh.search h.terms valid server limit).of_states ?_
      funext r b
      rw [CellStore.search_state, CellStore.search_state, freshToken_rowIndex, freshToken_rowIndex]
  | searchedAtClient row client limit =>
    refine ⟨[], rfl, fun x mem => absurd mem List.not_mem_nil, ?_⟩
    rw [List.append_nil]
    exact fresh
  | updated j u IPrime st fetched =>
    have inside := size.tiled.block_lt valid
    refine ⟨_, updateEncryptions_named _, ?_, fresh.update h.terms inside left _⟩
    intro x mem
    obtain ⟨r, hr, rfl⟩ := List.mem_map.mp mem
    have hr := List.mem_range.mp hr
    exact ⟨⟨r, _, rfl, words.row r hr, keywords r hr⟩, words.block _ inside,
      Nat.mod_lt _ (by decide)⟩

/-- Terms with the same key and keystream are the same. -/
theorem encryption_injective (apart : cr.Apart) (streams : cr.Streams) {x y : Encryption KeyTerm}
    (hx : x.InWords) (hy : y.InWords) (sameKey : (cr.encryption x).key = (cr.encryption y).key)
    (sameStream : cr.keystream (cr.encryption x).key x.blockIdx x.counter =
      cr.keystream (cr.encryption y).key y.blockIdx y.counter) : x = y := by
  obtain ⟨key, block, counter⟩ := x
  obtain ⟨key', block', counter'⟩ := y
  obtain ⟨⟨r, k, rfl, hr, hk⟩, hb, hc⟩ := hx
  obtain ⟨⟨r', k', rfl, hr', hk'⟩, hb', hc'⟩ := hy
  obtain ⟨rfl, rfl⟩ := apart r k r' k' hr hk hr' hk' sameKey
  obtain ⟨rfl, rfl⟩ := streams _ block counter block' counter' hb hc hb' hc' sameStream
  rfl

end Terms

/-! ### The log of a run -/

section Run

variable {σ : Type} {cfg : Config} {cr : Cipher Key} (size : cfg.Sized) (pieces : cfg.Pieces)
include size pieces

theorem setupEncryptions_inWords (words : cfg.Words) {e : Encryption KeyTerm}
    (mem : e ∈ setupEncryptions cfg) : e.InWords := by
  obtain ⟨r, b, hr, hb, rfl⟩ := mem_setupEncryptions size pieces mem
  exact ⟨⟨r, 1, rfl, words.row r hr, by decide⟩, words.block b hb, show 1 < 2 ^ 64 by decide⟩

/-- The encryptions of the setup are those of terms. -/
theorem createEncryptedMatrix_named {kwFilePair : Nat → List Nat} {I : Matrix}
    {log : List (Encryption Key)}
    (created : createEncryptedMatrix cfg cr kwFilePair (fun _ => 1) (fun _ => 1) = some (I, log)) :
    log = (setupEncryptions cfg).map cr.encryption := by
  obtain ⟨piece, -, eq⟩ := createEncryptedMatrix_eq size cr kwFilePair (fun _ => 1) (fun _ => 1)
  cases eq.symm.trans created
  unfold setupEncryptions
  rw [List.map_flatMap]
  refine congrArg (List.flatMap · _) (funext fun i => ?_)
  rw [encryptPiece_encryptions size.blockSize pieces, Nat.mul_comm cfg.matrixPieceColSize 8,
    List.map_flatMap]
  simp only [List.map_map]
  rfl

variable (words : cfg.Words) {srv : Machine σ (Command Key) (Response Key)}
  (ref : Refinement cfg cr srv)
include words ref

/-- The encryptions of a run from a setup on are those of terms, of which none comes twice. -/
theorem encryptions_named {kwFilePair : Nat → List Nat} {I : Matrix} {log : List (Encryption Key)}
    (created : createEncryptedMatrix cfg cr kwFilePair (fun _ => 1) (fun _ => 1) = some (I, log))
    {s : σ} (rel : ref.Rel s ((builtServer I).cells cfg)) {steps : List IndexStep}
    (valid : ∀ i ∈ steps, i.Valid cfg)
    (left : (indexMachine cfg cr srv).Along (fun p i => CounterLeft cfg p.2.terms i)
      (s, builtClient cfg cr) steps) :
    ∃ terms : List (Encryption KeyTerm), terms.Nodup ∧ (∀ x ∈ terms, x.InWords) ∧
      log ++ ((indexMachine cfg cr srv).outputs (s, builtClient cfg cr) steps).flatMap
        Event.encryptions = terms.map cr.encryption := by
  obtain ⟨I', log', created', encrypted⟩ :=
    createEncryptedMatrix_encrypted size pieces cr kwFilePair (fun _ => 1) (fun _ => 1)
  cases created'.symm.trans created
  obtain ⟨ran, ⟨s', c'⟩, pre, along, run, outs⟩ := Machine.executed_prefix left
  have inv := ref.run_invariant size (G := fun c i => CounterLeft cfg c.terms i)
    (fun past t c => ∃ M terms, Consistent cfg cr M t c ∧ Fresh cfg terms t c.terms ∧
      (∀ x ∈ terms, x.InWords) ∧
      log ++ past.flatMap Event.encryptions = terms.map cr.encryption)
    ?step rel ?start (fun i mem => valid i (pre.subset mem)) along run
  · obtain ⟨t, -, M, terms, -, fresh, inWords, named⟩ := inv
    rw [← outs]
    exact ⟨terms, fresh.nodup, inWords, named⟩
  case start =>
    have fresh := fresh_built size pieces (fun t => cr.keystream (cr.named t)) I
    refine ⟨_, setupEncryptions cfg, consistent_built encrypted,
      ⟨fresh.nodup, fresh.below, fresh.bounded⟩, fun x mem =>
        setupEncryptions_inWords size pieces words mem, ?_⟩
    rw [List.flatMap_nil, List.append_nil]
    exact createEncryptedMatrix_named size pieces created
  case step =>
    rintro past t c i p' e ⟨M, terms, h, fresh, inWords, named⟩ good valid step
    have stepped := stepped_of_step size h valid step
    obtain ⟨M', -, h'⟩ := stepped.agrees size h valid
    obtain ⟨new, encryptions, newInWords, fresh'⟩ := stepped.named size words h valid good fresh
    refine ⟨M', terms ++ new, h', fresh', ?_, ?_⟩
    · intro x mem
      exact (List.mem_append.mp mem).elim (inWords x) (newInWords x)
    · rw [List.flatMap_append, List.flatMap_singleton, ← List.append_assoc, named, encryptions,
        List.map_append]

end Run

/-! ### Keys that were sent -/

/-- Of its rows the server has been sent keys before the current ones. -/
def Sent (cfg : Config) (cr : Cipher Key) (past : List (Event Key)) (c : IndexClient Key) : Prop :=
  ∀ key ∈ revealedKeys past, key = cr.zeroKey ∨
    ∃ r k, r < cfg.matrixRowSize ∧ k < c.keywordCounterArr r ∧ key = cr.genRowKey r k

/-- No call encrypts under a key sent before it, unless the key is the one that stands for
none. -/
def Unsent (cr : Cipher Key) (past : List (Event Key)) : Prop :=
  ∀ before e, before ++ [e] <+: past → ∀ x ∈ e.encryptions, x.key ∈ revealedKeys before →
    x.key = cr.zeroKey

section Sent

variable {cfg : Config} {cr : Cipher Key} {M : Plain} {s : CellStore} {c : IndexClient Key}
  {i : IndexStep} {p' : CellStore × IndexClient Key} {e : Event Key} {past : List (Event Key)}

theorem mem_revealedKeys_concat {key : Key} :
    key ∈ revealedKeys (past ++ [e]) ↔ key ∈ revealedKeys past ∨ key ∈ e.tokenKeys := by
  simp [revealedKeys]

/-- The keys of a token. -/
theorem mem_tokenKeys_fresh {ids : List Nat} {es : List (Encryption Key)} {kc : Nat → Nat}
    {row : Nat} {key : Key}
    (mem : key ∈ (Event.searched ids (some (freshToken cr kc row)) es).tokenKeys) :
    key = cr.zeroKey ∨ ∃ k ≤ kc row, key = cr.genRowKey row k := by
  unfold Event.tokenKeys freshToken at mem
  rw [List.mem_pair] at mem
  rcases mem with rfl | rfl
  · right
    refine ⟨kc row, Nat.le_refl _, ?_⟩
    dsimp only
    split <;> rfl
  · dsimp only
    split
    · exact .inr ⟨kc row - 1, Nat.sub_le _ _, rfl⟩
    · exact .inl rfl

/-- A step sends the keys of its row and moves the row on. -/
theorem Stepped.sent (step : Stepped cfg cr M s c i p' e) (h : Consistent cfg cr M s c)
    (valid : i.Valid cfg) (sent : Sent cfg cr past c) : Sent cfg cr (past ++ [e]) p'.2 := by
  intro key mem
  rw [mem_revealedKeys_concat] at mem
  cases step with
  | searchedAtServer row server limit =>
    have next : (c.countSearch row).keywordCounterArr row = c.keywordCounterArr row + 1 := by
      rw [c.countSearch_self,
        nextCounter_of_lt (Nat.lt_of_le_of_ne (h.searched row valid).2 limit)]
    rcases mem with old | new
    · refine (sent key old).imp_right ?_
      rintro ⟨r, k, hr, hk, rfl⟩
      refine ⟨r, k, hr, ?_, rfl⟩
      by_cases same : r = row
      · subst same
        exact next ▸ Nat.lt_succ_of_lt hk
      · exact (c.countSearch_of_ne row same).symm ▸ hk
    · refine (mem_tokenKeys_fresh new).imp_right ?_
      rintro ⟨k, hk, rfl⟩
      exact ⟨row, k, valid, next ▸ Nat.lt_succ_of_le hk, rfl⟩
  | searchedAtClient row client limit =>
    exact sent key (mem.elim id fun new => absurd new List.not_mem_nil)
  | updated j u IPrime st fetched =>
    exact sent key (mem.elim id fun new => absurd new List.not_mem_nil)

/-- A step encrypts under the current keys of rows. -/
theorem Stepped.current (step : Stepped cfg cr M s c i p' e) (valid : i.Valid cfg)
    {x : Encryption Key} (mem : x ∈ e.encryptions) :
    ∃ r, r < cfg.matrixRowSize ∧ x.key = cr.genRowKey r (c.keywordCounterArr r) := by
  cases step with
  | searchedAtServer row server limit =>
    obtain ⟨b, -, rfl⟩ := List.mem_map.mp mem
    exact ⟨row, valid, freshToken_rowKey cr c.keywordCounterArr row⟩
  | searchedAtClient row client limit => cases mem
  | updated j u IPrime st fetched =>
    obtain ⟨r, hr, rfl⟩ := List.mem_map.mp mem
    exact ⟨r, List.mem_range.mp hr, rfl⟩

/-- So that it encrypts under no key sent before. -/
theorem Stepped.unsent (words : cfg.Words) (apart : cr.Apart) (step : Stepped cfg cr M s c i p' e)
    (h : Consistent cfg cr M s c) (valid : i.Valid cfg) (sent : Sent cfg cr past c)
    (unsent : Unsent cr past) : Unsent cr (past ++ [e]) := by
  intro before e' pre x mem revealed
  rcases List.prefix_concat_iff.mp pre with last | earlier
  · obtain ⟨rfl, same⟩ := List.append_inj' last rfl
    cases same
    obtain ⟨r, hr, key⟩ := step.current valid mem
    rcases sent x.key revealed with zero | ⟨r', k, hr', hk, key'⟩
    · exact zero
    · have top (r : Nat) (hr : r < cfg.matrixRowSize) : c.keywordCounterArr r < 2 ^ 64 :=
        lt_of_le_ulongMax (h.searched r hr).2
      obtain ⟨rfl, rfl⟩ := apart r _ r' k (words.row r hr) (top r hr) (words.row r' hr')
        (Nat.lt_trans hk (top r' hr')) (key.symm.trans key')
      exact absurd hk (Nat.lt_irrefl _)
  · exact unsent before e' earlier x mem revealed

/-- In a run from a setup on, no call encrypts under a key sent before it. -/
theorem unsent_run {σ : Type} (size : cfg.Sized) (words : cfg.Words) (apart : cr.Apart)
    {srv : Machine σ (Command Key) (Response Key)} (ref : Refinement cfg cr srv) {I : Matrix}
    (encrypted : Encrypted cfg cr (fun _ => 1) (fun _ => 1) M I) {s : σ}
    (rel : ref.Rel s ((builtServer I).cells cfg)) {steps : List IndexStep}
    (valid : ∀ i ∈ steps, i.Valid cfg) :
    Unsent cr ((indexMachine cfg cr srv).outputs (s, builtClient cfg cr) steps) := by
  have always : (indexMachine cfg cr srv).Along (fun _ _ => True) (s, builtClient cfg cr) steps :=
    Machine.along_of_forall (fun _ _ => trivial) _ _
  obtain ⟨ran, ⟨s', c'⟩, pre, along, run, outs⟩ := Machine.executed_prefix always
  have inv := ref.run_invariant size (G := fun _ _ => True)
    (fun past t c => ∃ M', Consistent cfg cr M' t c ∧ Sent cfg cr past c ∧ Unsent cr past)
    ?step rel ?start (fun i mem => valid i (pre.subset mem)) along run
  · obtain ⟨t, -, M', -, -, unsent⟩ := inv
    rw [← outs]
    exact unsent
  case start =>
    refine ⟨M, consistent_built encrypted, fun key mem => absurd mem List.not_mem_nil, ?_⟩
    intro before e pre
    have none := List.prefix_nil.mp pre
    exact absurd none (List.append_ne_nil_of_right_ne_nil before (List.cons_ne_nil e []))
  case step =>
    rintro past t c i p' e ⟨M', h, sent, unsent⟩ - valid step
    have stepped := stepped_of_step size h valid step
    obtain ⟨M'', -, h'⟩ := stepped.agrees size h valid
    exact ⟨M'', h', stepped.sent h valid sent, stepped.unsent words apart h valid sent unsent⟩

end Sent

/-! ### The keys of the code -/

/-- A master key leaves the keystreams as they are. -/
theorem keystream_cipherOf {τ : Type} (prim : Primitives τ Key) (masterKey : MasterKey) :
    (prim.cipherOf masterKey).keystream = prim.cipher.keystream := rfl

section Derived

variable {σ : Type} {cfg : Config} (size : cfg.Sized) (pieces : cfg.Pieces)
  (addressable : cfg.Addressable) {build : OmacBuild} (next : Block → Block)
  (permutes : ∀ key, Function.Injective (build.aes key)) (masterKey : MasterKey)

include permutes in
theorem apart_primitives : ((build.primitives next).cipherOf masterKey).Apart :=
  fun _ _ _ _ hr hk hr' hk' same =>
    OmacBuild.genRowKey_injective next permutes hr hk hr' hk' same

include permutes in
theorem streams_primitives : ((build.primitives next).cipherOf masterKey).Streams := by
  intro key b c b' c' hb hc hb' hc' same
  rw [keystream_cipherOf] at same
  exact OmacBuild.keystream_injective next permutes hb hc hb' hc' same

variable {srv : Machine σ (Command BlockKey) (Response BlockKey)}
  (ref : Refinement cfg ((build.primitives next).cipherOf masterKey) srv)
  {kwFilePair : Nat → List Nat} {I : Matrix} {log : List (Encryption BlockKey)}
  (created : createEncryptedMatrix cfg ((build.primitives next).cipherOf masterKey) kwFilePair
    (fun _ => 1) (fun _ => 1) = some (I, log))
  {s : σ} (rel : ref.Rel s ((builtServer I).cells cfg)) {steps : List IndexStep}
  (valid : ∀ i ∈ steps, i.Valid cfg)
include size pieces addressable permutes created rel valid

/-- In a run from a setup on, no two blocks are encrypted with the same keystream under the
same row key, as long as no block is updated at the limit of its counter: over any server
that behaves as the store, and with the keys that the code derives. -/
theorem keystreams_distinct
    (left : (indexMachine cfg ((build.primitives next).cipherOf masterKey) srv).Along
      (fun p i => CounterLeft cfg p.2.terms i)
      (s, builtClient cfg ((build.primitives next).cipherOf masterKey)) steps) :
    (log ++ ((indexMachine cfg ((build.primitives next).cipherOf masterKey) srv).outputs
        (s, builtClient cfg ((build.primitives next).cipherOf masterKey)) steps).flatMap
          Event.encryptions).Pairwise fun x y => x.key = y.key →
      ((build.primitives next).cipherOf masterKey).keystream x.key x.blockIdx x.counter ≠
        ((build.primitives next).cipherOf masterKey).keystream y.key y.blockIdx y.counter := by
  obtain ⟨terms, nodup, inWords, named⟩ :=
    encryptions_named size pieces addressable.words ref created rel valid left
  rw [named, List.pairwise_map]
  refine List.Pairwise.imp_of_mem (fun {x y} hx hy different sameKey sameStream => ?_) nodup
  exact different (encryption_injective (apart_primitives next permutes masterKey)
    (streams_primitives next permutes masterKey) (inWords x hx) (inWords y hy) sameKey sameStream)

/-- In such a run, no call encrypts under a key that a token sent before it carries, the
all-zero key apart: what the server was sent does not decrypt what is encrypted later. -/
theorem encrypts_under_unsent_keys :
    ∀ before e, before ++ [e] <+:
        (indexMachine cfg ((build.primitives next).cipherOf masterKey) srv).outputs
          (s, builtClient cfg ((build.primitives next).cipherOf masterKey)) steps →
      ∀ x ∈ e.encryptions, x.key ∈ revealedKeys before → x.key = fun _ => 0 := by
  obtain ⟨I', log', created', encrypted⟩ := createEncryptedMatrix_encrypted size pieces
    ((build.primitives next).cipherOf masterKey) kwFilePair (fun _ => 1) (fun _ => 1)
  cases created'.symm.trans created
  exact unsent_run size addressable.words (apart_primitives next permutes masterKey) ref encrypted rel
    valid

end Derived

/-! ### A small run -/

/-- The cipher that adds its key, under a master key of it. -/
def smallDerived : Cipher BlockKey :=
  (smallOmac.primitives id).cipherOf (OmacBuild.soleKey fun _ => 7)

theorem wideConfig_inWords (B : Nat) (client : Bool) : (wideConfig B client).Addressable where
  files := show 32 < 2 ^ 64 by decide
  keywords := show 8 < 2 ^ 64 by decide

theorem keystreams_distinct_small :
    ∃ I log, createEncryptedMatrix (wideConfig 4 false) smallDerived smallPairs (fun _ => 1)
        (fun _ => 1) = some (I, log) ∧
      (log ++ ((indexMachine (wideConfig 4 false) smallDerived
        (ramServer (wideConfig 4 false) smallDerived)).outputs (builtServer I,
          builtClient (wideConfig 4 false) smallDerived) smallSteps).flatMap
            Event.encryptions).Pairwise fun x y => x.key = y.key →
        smallDerived.keystream x.key x.blockIdx x.counter ≠
          smallDerived.keystream y.key y.blockIdx y.counter := by
  have size := wideConfig_sized (B := 4) false (by decide) (by decide)
  have pieces := wideConfig_pieces (B := 4) false (by decide)
  obtain ⟨I, log, created, -⟩ :=
    createEncryptedMatrix_encrypted size pieces smallDerived smallPairs (fun _ => 1) (fun _ => 1)
  refine ⟨I, log, created, keystreams_distinct size pieces (wideConfig_inWords 4 false) id
    smallOmac_permutes (OmacBuild.soleKey fun _ => 7) (ramRefinement size.tiled smallDerived) created
    rfl (smallSteps_valid_wide 4 false) ?_⟩
  have few (b : Nat) : 1 + smallSteps.countP (IndexStep.updates (wideConfig 4 false) b) ≤ ulongMax :=
    Nat.le_trans (Nat.add_le_add_left List.countP_le_length 1) (by decide)
  refine (along_below_limit few).imp fun p i left => ?_
  cases i with
  | search row => trivial
  | update j u => exact left j u rfl

theorem encrypts_under_unsent_keys_small :
    ∃ I log, createEncryptedMatrix (wideConfig 4 false) smallDerived smallPairs (fun _ => 1)
        (fun _ => 1) = some (I, log) ∧
      ∀ before e, before ++ [e] <+: (indexMachine (wideConfig 4 false) smallDerived
          (ramServer (wideConfig 4 false) smallDerived)).outputs (builtServer I,
            builtClient (wideConfig 4 false) smallDerived) smallSteps →
        ∀ x ∈ e.encryptions, x.key ∈ revealedKeys before → x.key = fun _ => 0 := by
  have size := wideConfig_sized (B := 4) false (by decide) (by decide)
  have pieces := wideConfig_pieces (B := 4) false (by decide)
  obtain ⟨I, log, created, -⟩ :=
    createEncryptedMatrix_encrypted size pieces smallDerived smallPairs (fun _ => 1) (fun _ => 1)
  exact ⟨I, log, created, encrypts_under_unsent_keys size pieces (wideConfig_inWords 4 false) id
    smallOmac_permutes (OmacBuild.soleKey fun _ => 7) (ramRefinement size.tiled smallDerived) created
    rfl (smallSteps_valid_wide 4 false)⟩

end ImDsse
