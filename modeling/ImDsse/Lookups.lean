import ImDsse.Client

/-!
Tables with the same lookups.

A hash table keeps its entries in no order that an operation can see. `SameTable` says
that two tables give every key the same value, and a client whose tables are replaced
by such tables does the same from then on: it sends the same requests and reports the
same (`clientMachine_same`).
-/

namespace ImDsse

open Kit Kit.Bits Kit.Pool

variable {Key : Type} {σ : Type} {τ : Type} [DecidableEq τ]

/-- Every key has the same value in both tables. -/
def SameTable (t t' : Table τ) : Prop := ∀ key, t.lookup key = t'.lookup key

namespace SameTable

variable {t t' : Table τ} (same : SameTable t t') (key : τ)
include same

theorem insert (v : Nat) : SameTable (t.insert key v) (t'.insert key v) := by
  intro key'
  by_cases here : key' = key
  · rw [here, AList.lookup_insert, AList.lookup_insert]
  · rw [AList.lookup_insert_ne here, AList.lookup_insert_ne here]
    exact same key'

theorem erase : SameTable (t.erase key) (t'.erase key) := by
  intro key'
  by_cases here : key' = key
  · rw [here, AList.lookup_erase, AList.lookup_erase]
  · rw [AList.lookup_erase_ne here, AList.lookup_erase_ne here]
    exact same key'

theorem index : (ImDsse.index t key).1 = (ImDsse.index t' key).1 ∧
    SameTable (ImDsse.index t key).2 (ImDsse.index t' key).2 := by
  have here := same key
  cases found : t.lookup key with
  | none =>
    rw [found] at here
    rw [index_of_absent found, index_of_absent here.symm]
    exact ⟨rfl, same.insert key 0⟩
  | some v =>
    rw [found] at here
    rw [index_of_lookup found, index_of_lookup here.symm]
    exact ⟨rfl, same⟩

end SameTable

/-- The same lookups, the same free list and the same generator. -/
structure Picks.Same (s s' : Picks τ) : Prop where
  table : SameTable s.table s'.table
  free : s.free = s'.free
  draws : s.draws = s'.draws

/-- The same lookups and the same free lists. -/
structure Tables.Same (T T' : Tables τ) : Prop where
  tW : SameTable T.tW T'.tW
  tF : SameTable T.tF T'.tF
  lstFreeColumnIdx : T.lstFreeColumnIdx = T'.lstFreeColumnIdx
  lstFreeRowIdx : T.lstFreeRowIdx = T'.lstFreeRowIdx

/-- Clients that differ in the order of their tables at most. -/
structure Client.Same (c c' : Client τ Key) : Prop where
  tables : c.tables.Same c'.tables
  index : c.index = c'.index

theorem Client.Same.refl (c : Client τ Key) : c.Same c :=
  ⟨⟨fun _ => rfl, fun _ => rfl, rfl, rfl⟩, rfl⟩

/-! ### The lookups of the operations -/

/-- Related values that may both be missing, and what is computed from them. -/
theorem relBind {α β γ δ : Type} {R : α → β → Prop} {S : γ → δ → Prop} {x : Option α}
    {y : Option β} {f : α → Option γ} {g : β → Option δ} (h : Option.Rel R x y)
    (next : ∀ a b, R a b → Option.Rel S (f a) (g b)) : Option.Rel S (x.bind f) (y.bind g) := by
  cases h with
  | none => exact .none
  | some both => exact next _ _ both

theorem Picks.Same.assignIndex {s s' : Picks τ} (same : s.Same s') (absent : Nat) (key : τ) :
    Option.Rel Picks.Same (assignIndex absent s key) (assignIndex absent s' key) := by
  obtain ⟨t, free, draws⟩ := s
  obtain ⟨t', _, _⟩ := s'
  obtain ⟨table, rfl, rfl⟩ := same
  obtain ⟨value, after⟩ := table.index key
  dsimp only [ImDsse.assignIndex]
  rw [← value]
  split
  · cases pickRandomElement free draws with
    | none => exact .none
    | some pick => exact .some ⟨after.insert key pick.1, rfl, rfl⟩
  · exact .some ⟨after, rfl, rfl⟩

/-- Indices and bits are the same, and the tables go on giving the same. -/
theorem Picks.Same.assignRows {s s' : Picks τ} (same : s.Same s') (td : Trapdoor τ) (IBar : Buf)
    (words : List Str) : Option.Rel (fun p q => p.1.Same q.1 ∧ p.2 = q.2)
      (assignRows td s IBar words) (assignRows td s' IBar words) := by
  induction words generalizing s s' IBar with
  | nil => exact .some ⟨same, rfl⟩
  | cons word words ih =>
    simp only [ImDsse.assignRows]
    refine relBind (same.assignIndex 0 (td.omac word)) fun s₁ s₁' same₁ => ?_
    obtain ⟨value, after⟩ := same₁.table.index (td.omac word)
    have looked : Picks.Same { s₁ with table := (index s₁.table (td.omac word)).2 }
        { s₁' with table := (index s₁'.table (td.omac word)).2 } :=
      ⟨after, same₁.free, same₁.draws⟩
    rw [← value]
    exact ih looked _

namespace Tables.Same

variable {T T' : Tables τ} (same : T.Same T') (cfg : Config) (td : Trapdoor τ)
include same

theorem requestBlockIndex (path : Str) (draws : Nat → Nat) :
    Option.Rel (fun p q => p.1 = q.1 ∧ p.2.1.Same q.2.1 ∧ p.2.2 = q.2.2)
      (requestBlockIndex cfg td path T draws) (requestBlockIndex cfg td path T' draws) := by
  have start : Picks.Same ⟨T.tF, T.lstFreeColumnIdx, draws⟩ ⟨T'.tF, T'.lstFreeColumnIdx, draws⟩ :=
    ⟨same.tF, same.lstFreeColumnIdx, rfl⟩
  refine relBind (start.assignIndex 0 (td.omac path)) fun s s' picked => ?_
  obtain ⟨value, after⟩ := picked.table.index (td.omac path)
  dsimp only
  rw [← value]
  split
  · exact .none
  · exact .some ⟨rfl, ⟨same.tW, after, picked.free, same.lstFreeRowIdx⟩, picked.draws⟩

theorem addTokenIndex (path : Str) (content : Option (List Byte)) (draws : Nat → Nat) :
    Option.Rel (fun p q => p.1 = q.1 ∧ p.2.1 = q.2.1 ∧ p.2.2.Same q.2.2)
      (addTokenIndex td path content T draws) (addTokenIndex td path content T' draws) := by
  have start : Picks.Same ⟨T.tF, T.lstFreeColumnIdx, draws⟩ ⟨T'.tF, T'.lstFreeColumnIdx, draws⟩ :=
    ⟨same.tF, same.lstFreeColumnIdx, rfl⟩
  refine relBind (start.assignIndex 0 (td.omac path)) fun columns columns' picked => ?_
  have rows : Picks.Same ⟨T.tW, T.lstFreeRowIdx, columns.draws⟩
      ⟨T'.tW, T'.lstFreeRowIdx, columns'.draws⟩ := ⟨same.tW, same.lstFreeRowIdx, picked.draws⟩
  refine relBind (rows.assignRows td zeroBuf _) fun rows rows' assigned => ?_
  obtain ⟨value, after⟩ := picked.table.index (td.omac path)
  exact .some ⟨value, assigned.2, assigned.1.table, after, picked.free, assigned.1.free⟩

theorem delTokenIndex (path : Str) : (delTokenIndex td path T).1 = (delTokenIndex td path T').1 ∧
    (delTokenIndex td path T).2.Same (delTokenIndex td path T').2 := by
  obtain ⟨value, after⟩ := same.tF.index (td.omac path)
  refine ⟨value, same.tW, after.erase _, ?_, same.lstFreeRowIdx⟩
  simp only [ImDsse.delTokenIndex, value, same.lstFreeColumnIdx]

theorem searchTokenRow (keyword : Str) :
    (searchTokenRow cfg td T.tW keyword).1 = (searchTokenRow cfg td T'.tW keyword).1 ∧
      SameTable (searchTokenRow cfg td T.tW keyword).2 (searchTokenRow cfg td T'.tW keyword).2 := by
  obtain ⟨value, after⟩ := same.tW.index (td.generate (cStr keyword))
  exact ⟨by simp only [ImDsse.searchTokenRow, value], after⟩

end Tables.Same

/-! ### The operations -/

/-- Clients with the same lookups do the same over a server. -/
theorem clientMachine_same (cfg : Config) (cr : Cipher Key) (td : Trapdoor τ)
    (srv : Machine σ (Command Key) (Response Key)) (s : σ) {c c' : Client τ Key} (same : c.Same c')
    (op : ClientOp) : Machine.Lockstep (fun p q => p.1 = q.1 ∧ p.2.Same q.2) Eq
      ((clientMachine cfg cr td srv).step (s, c) op)
      ((clientMachine cfg cr td srv).step (s, c') op) := by
  obtain ⟨T, index⟩ := c
  obtain ⟨T', _⟩ := c'
  obtain ⟨tables, rfl⟩ := same
  have updated : ∀ {T₁ T₁' : Tables τ} (b f : Nat) (u : ColumnUpdate), T₁.Same T₁' →
      Machine.Lockstep (fun (p q : σ × Client τ Key) => p.1 = q.1 ∧ p.2.Same q.2) Eq
        ((updateColumn cfg cr srv s index b f u).map fun p =>
          ((p.1.1, ⟨T₁, p.1.2⟩), Report.updated b f))
        ((updateColumn cfg cr srv s index b f u).map fun p =>
          ((p.1.1, ⟨T₁', p.1.2⟩), Report.updated b f)) := by
    intro T₁ T₁' b f u same₁
    cases updateColumn cfg cr srv s index b f u with
    | none => exact .none
    | some p => exact .some ⟨⟨rfl, same₁, rfl⟩, rfl⟩
  cases op with
  | searchKeyword keyword =>
    obtain ⟨row, tW⟩ := tables.searchTokenRow cfg td (lowerCase keyword)
    have after : Tables.Same { T with tW := (searchTokenRow cfg td T.tW (lowerCase keyword)).2 }
        { T' with tW := (searchTokenRow cfg td T'.tW (lowerCase keyword)).2 } :=
      ⟨tW, tables.tF, tables.lstFreeColumnIdx, tables.lstFreeRowIdx⟩
    simp only [clientMachine, searchKeyword]
    rw [← row]
    split
    · exact .some ⟨⟨rfl, after, rfl⟩, rfl⟩
    · cases searchRow cfg cr srv s index (searchTokenRow cfg td T.tW (lowerCase keyword)).1 with
      | none => exact .none
      | some p => exact .some ⟨⟨rfl, after, rfl⟩, rfl⟩
  | addFile path content draws =>
    simp only [clientMachine, addFile]
    refine relBind (tables.requestBlockIndex cfg td path draws) ?_
    rintro ⟨b, T₁, draws₁⟩ ⟨_, T₁', _⟩ ⟨rfl, same₁, rfl⟩
    refine relBind (same₁.addTokenIndex td path content draws₁) ?_
    rintro ⟨j, IBar, T₂⟩ ⟨_, _, T₂'⟩ ⟨rfl, rfl, same₂⟩
    exact updated b j (.add IBar) same₂
  | delFile path draws =>
    simp only [clientMachine, delFile]
    refine relBind (tables.requestBlockIndex cfg td path draws) ?_
    rintro ⟨b, T₁, draws₁⟩ ⟨_, T₁', _⟩ ⟨rfl, same₁, rfl⟩
    obtain ⟨column, after⟩ := same₁.delTokenIndex td path
    rw [← column]
    exact updated b _ .del after

end ImDsse
