import Mathlib.Data.List.Chain
import Mathlib.Data.List.Nodup
import ChainIngest.Proofs.Derivation
import ChainIngest.Proofs.Histories
/-!
# The canonical chain

Four things in an importer's hands speak of the canonical chain: the flags of the
stored blocks, those of the import rows, the cursor, and the head.  They never
fall apart.  The canonical blocks stand one on the other from the first height
on, and cursor and head name the topmost of them.
-/

namespace ChainIngest.Importer

/-! ## Stacks of blocks -/

/-- Blocks one above the other from a height on, each with the one below as its parent. -/
structure Stacked (start : Nat) (blocks : List Block) : Prop where
  heights : blocks.map Block.number = List.range' start blocks.length
  linked : blocks.IsChain fun lower upper => upper.parentHash = lower.hash

namespace Stacked

variable {start : Nat} {blocks : List Block}

theorem nil (start : Nat) : Stacked start [] := ⟨rfl, .nil⟩

theorem number_getElem (h : Stacked start blocks) (i : Nat) (hi : i < blocks.length) :
    blocks[i].number = start + i := by
  have hget : (blocks.map Block.number)[i]? = (List.range' start blocks.length)[i]? := by
    rw [h.heights]
  rw [List.getElem?_map, List.getElem?_eq_getElem hi, List.getElem?_range' hi] at hget
  simpa using hget

theorem append {b : Block} (h : Stacked start blocks) (hnumber : b.number = start + blocks.length)
    (hparent : ∀ last, blocks.getLast? = some last → b.parentHash = last.hash) :
    Stacked start (blocks ++ [b]) := by
  constructor
  · rw [List.map_append, h.heights, List.length_append, List.length_singleton,
      List.range'_concat, Nat.one_mul]
    simp [hnumber]
  · rw [List.isChain_append]
    refine ⟨h.linked, List.isChain_singleton b, ?_⟩
    intro last hlast upper hupper
    obtain rfl : upper = b := by simpa using hupper.symm
    exact hparent last hlast

theorem take (h : Stacked start blocks) (k : Nat) : Stacked start (blocks.take k) := by
  constructor
  · rw [List.map_take, h.heights, List.length_take]
    rcases Nat.le_total k blocks.length with hk | hk
    · rw [Nat.min_eq_left hk, List.take_range'_of_length_ge hk]
    · rw [Nat.min_eq_right hk, List.take_range'_of_length_le hk]
  · exact h.linked.take k

theorem getElem_of_mem {b : Block} (h : Stacked start blocks) (hb : b ∈ blocks) :
    ∃ i, ∃ hi : i < blocks.length, blocks[i] = b ∧ b.number = start + i := by
  obtain ⟨i, hi, rfl⟩ := List.getElem_of_mem hb
  exact ⟨i, hi, rfl, h.number_getElem i hi⟩

theorem number_lt {b : Block} (h : Stacked start blocks) (hb : b ∈ blocks) :
    start ≤ b.number ∧ b.number < start + blocks.length := by
  obtain ⟨i, hi, _, hnumber⟩ := h.getElem_of_mem hb
  omega

theorem eq_of_number {a b : Block} (h : Stacked start blocks) (ha : a ∈ blocks) (hb : b ∈ blocks)
    (hab : a.number = b.number) : a = b := by
  obtain ⟨i, hi, hai, hnumber⟩ := h.getElem_of_mem ha
  obtain ⟨j, hj, hbj, hnumber'⟩ := h.getElem_of_mem hb
  obtain rfl : i = j := by omega
  exact hai.symm.trans hbj

theorem exists_of_number {number : Nat} (h : Stacked start blocks) (hlow : start ≤ number)
    (hhigh : number < start + blocks.length) : ∃ b ∈ blocks, b.number = number := by
  have hi : number - start < blocks.length := by omega
  refine ⟨blocks[number - start], List.getElem_mem hi, ?_⟩
  rw [h.number_getElem _ hi]
  omega

theorem nodup (h : Stacked start blocks) : blocks.Nodup := by
  have hnodup : (blocks.map Block.number).Nodup := by
    rw [h.heights]
    exact List.nodup_range'
  exact List.Nodup.of_map _ hnodup

theorem mem_take {b : Block} (h : Stacked start blocks) (k : Nat) :
    b ∈ blocks.take k ↔ b ∈ blocks ∧ b.number < start + k := by
  constructor
  · intro hb
    have hlt := ((h.take k).number_lt hb).2
    rw [List.length_take] at hlt
    exact ⟨List.mem_of_mem_take hb, by omega⟩
  · rintro ⟨hb, hlt⟩
    obtain ⟨i, hi, rfl, hnumber⟩ := h.getElem_of_mem hb
    rw [List.mem_take_iff_getElem]
    exact ⟨i, by omega, rfl⟩

theorem number_getLast {last : Block} (h : Stacked start blocks)
    (hlast : blocks.getLast? = some last) : last.number + 1 = start + blocks.length := by
  rw [List.getLast?_eq_getElem?] at hlast
  obtain ⟨hi, rfl⟩ := List.getElem?_eq_some_iff.mp hlast
  rw [h.number_getElem _ hi]
  omega

theorem number_lt_of_append {a b : Block} (h : Stacked start (blocks ++ [b])) (ha : a ∈ blocks) :
    a.number < b.number := by
  have hbelow : Stacked start blocks := by
    have htake := h.take blocks.length
    rwa [List.take_left] at htake
  have hlt := (hbelow.number_lt ha).2
  have hlast : b.number + 1 = start + (blocks ++ [b]).length := h.number_getLast (by simp)
  rw [List.length_append, List.length_singleton] at hlast
  omega

end Stacked

/-! ## Reading the chain off the store -/

theorem mem_of_foldl_eq_some {α : Type} {f : Option α → α → Option α} {a : α}
    (hf : ∀ best x, f best x = best ∨ f best x = some x) (xs : List α) (best : Option α)
    (h : xs.foldl f best = some a) : best = some a ∨ a ∈ xs := by
  induction xs generalizing best with
  | nil => exact .inl h
  | cons x xs ih =>
      rcases ih _ h with hbest | hmem
      · rcases hf best x with hkept | hreplaced
        · exact .inl (hkept.symm.trans hbest)
        · obtain rfl := Option.some.inj (hreplaced.symm.trans hbest)
          exact .inr List.mem_cons_self
      · exact .inr (List.mem_cons_of_mem x hmem)

theorem foremost_mem {entries : List ImportEntry} {e : ImportEntry}
    (h : Store.foremost entries = some e) : e ∈ entries := by
  refine (mem_of_foldl_eq_some (fun best x => ?_) entries none h).resolve_left (by simp)
  cases best with
  | none => exact .inr rfl
  | some b =>
      dsimp only
      split
      · exact .inr rfl
      · exact .inl rfl

theorem filed_of_importStatus {s : Store} {number : Nat} {e : ImportEntry}
    (h : s.importStatus? number = some e) : ∃ hash, s.queue.get? (number, hash) = some e := by
  have hmem : e ∈ (s.queue.entries.filter fun e => e.1.1 = number).map Prod.snd := foremost_mem h
  obtain ⟨⟨⟨n, hash⟩, row⟩, hfiltered, rfl⟩ := List.mem_map.mp hmem
  obtain ⟨hentry, hnumber⟩ := List.mem_filter.mp hfiltered
  obtain rfl : n = number := by simpa using hnumber
  exact ⟨hash, Store.Table.mem_entries_iff.mp hentry⟩

theorem get?_blocks_commit_self (s : Store) (rows : BlockRows) :
    (s.commit rows).blocks.get? rows.block.hash = some ⟨rows.block, true⟩ :=
  Store.Table.get?_insert_self _ _ _

theorem get?_blocks_commit_of_ne (s : Store) {rows : BlockRows} {hash : Hash}
    (h : rows.block.hash ≠ hash) :
    (s.commit rows).blocks.get? hash = (s.blocks.get? hash).map fun row =>
      if row.block.number = rows.block.number ∧ row.block.hash ≠ rows.block.hash then
        { row with canonical := false }
      else row :=
  (Store.Table.get?_insert_of_ne _ _ h).trans (Store.Table.get?_map _ _ _)

theorem get?_blocks_markReorg (s : Store) (ancestor : BlockId) (chain : Nat) (now : Int)
    (hash : Hash) :
    (s.markReorg ancestor chain now).blocks.get? hash = (s.blocks.get? hash).map fun row =>
      if Store.isOrphaned ancestor row then { row with canonical := false } else row :=
  Store.Table.get?_map _ _ _

theorem stored_of_commit {s : Store} {rows : BlockRows} {hash : Hash} {row : StoredBlock}
    (h : (s.commit rows).blocks.get? hash = some row) :
    (rows.block.hash = hash ∧ row.block = rows.block) ∨
      ∃ old, s.blocks.get? hash = some old ∧ row.block = old.block := by
  by_cases hhash : rows.block.hash = hash
  · subst hhash
    rw [get?_blocks_commit_self] at h
    cases h
    exact .inl ⟨rfl, rfl⟩
  · rw [get?_blocks_commit_of_ne s hhash] at h
    obtain ⟨old, hold, rfl⟩ := Option.map_eq_some_iff.mp h
    refine .inr ⟨old, hold, ?_⟩
    split
    · rfl
    · rfl

theorem stored_of_markReorg {s : Store} {ancestor : BlockId} {chain : Nat} {now : Int} {hash : Hash}
    {row : StoredBlock} (h : (s.markReorg ancestor chain now).blocks.get? hash = some row) :
    ∃ old, s.blocks.get? hash = some old ∧ row.block = old.block := by
  rw [get?_blocks_markReorg] at h
  obtain ⟨old, hold, rfl⟩ := Option.map_eq_some_iff.mp h
  refine ⟨old, hold, ?_⟩
  split
  · rfl
  · rfl

/-- Tables in which every stored block is one of the tree, under its own hash. -/
def Filed (tree : BlockTree) (s : Store) : Prop :=
  ∀ hash row, s.blocks.get? hash = some row → row.block.hash = hash ∧ tree.Holds row.block

theorem mem_canonicalBlocks_iff {s : Store} {b : Block} :
    b ∈ s.canonicalBlocks ↔ ∃ hash, s.blocks.get? hash = some ⟨b, true⟩ := by
  unfold Store.canonicalBlocks
  rw [List.mem_map]
  constructor
  · rintro ⟨row, hrow, rfl⟩
    obtain ⟨hrow, hcanonical⟩ := List.mem_filter.mp hrow
    obtain ⟨hash, hget⟩ := Store.Table.mem_rows_iff.mp hrow
    exact ⟨hash, by rw [hget, ← hcanonical]⟩
  · rintro ⟨hash, hget⟩
    exact ⟨⟨b, true⟩, List.mem_filter.mpr ⟨Store.Table.mem_rows_iff.mpr ⟨_, hget⟩, rfl⟩, rfl⟩

theorem Filed.mem_canonicalBlocks {tree : BlockTree} {s : Store} (h : Filed tree s) {b : Block} :
    b ∈ s.canonicalBlocks ↔ s.blocks.get? b.hash = some ⟨b, true⟩ := by
  rw [mem_canonicalBlocks_iff]
  constructor
  · rintro ⟨hash, hget⟩
    obtain ⟨rfl, _⟩ := h hash _ hget
    exact hget
  · exact fun hget => ⟨b.hash, hget⟩

theorem Stacked.canonicalChain_eq {start : Nat} {blocks : List Block} {s : Store}
    (h : Stacked start blocks) (hblocks : s.canonicalBlocks.Perm blocks) :
    s.canonicalChain = blocks.map Block.id := by
  let le : BlockId → BlockId → Bool := fun a b => a.number ≤ b.number
  have hperm : s.canonicalChain.Perm (blocks.map Block.id) :=
    (List.mergeSort_perm _ _).trans (hblocks.map _)
  have htrans : ∀ a b c, le a b → le b c → le a c := by
    intro a b c hab hbc
    simp only [le, decide_eq_true_eq] at *
    omega
  have htotal : ∀ a b, le a b || le b a := by
    intro a b
    simp only [le, Bool.or_eq_true, decide_eq_true_eq]
    omega
  have hsorted : s.canonicalChain.Pairwise fun a b => le a b :=
    List.pairwise_mergeSort htrans htotal _
  have hascending : (blocks.map Block.id).Pairwise fun a b => le a b := by
    have hnumbers : (blocks.map Block.number).Pairwise (· < ·) := by
      rw [h.heights]
      exact List.pairwise_lt_range'
    rw [List.pairwise_map] at hnumbers ⊢
    exact hnumbers.imp fun hlt => decide_eq_true (Nat.le_of_lt hlt)
  apply List.Perm.eq_of_pairwise _ hsorted hascending hperm
  intro a b ha hb hab hba
  obtain ⟨x, hx, rfl⟩ := List.mem_map.mp (hperm.mem_iff.mp ha)
  obtain ⟨y, hy, rfl⟩ := List.mem_map.mp hb
  simp only [le, decide_eq_true_eq] at hab hba
  rw [h.eq_of_number hx hy (Nat.le_antisymm hab hba)]

theorem mem_canonicalChain {s : Store} {id : BlockId} :
    id ∈ s.canonicalChain ↔ ∃ b ∈ s.canonicalBlocks, b.id = id := by
  rw [Store.canonicalChain, List.mem_mergeSort, List.mem_map]

theorem Stacked.canonicalBlock?_eq_some {start : Nat} {blocks : List Block} {s : Store}
    (h : Stacked start blocks) (hblocks : s.canonicalBlocks.Perm blocks) {number : Nat}
    {id : BlockId} :
    s.canonicalBlock? number = some id ↔ ∃ b ∈ blocks, b.number = number ∧ b.id = id := by
  unfold Store.canonicalBlock?
  rw [Option.map_eq_some_iff]
  constructor
  · rintro ⟨b, hfind, hid⟩
    have hnumber := List.find?_some hfind
    exact ⟨b, hblocks.mem_iff.mp (List.mem_of_find?_eq_some hfind), by simpa using hnumber, hid⟩
  · rintro ⟨b, hb, hnumber, hid⟩
    cases hfind : s.canonicalBlocks.find? fun b => b.number = number with
    | none =>
        have hnone := List.find?_eq_none.mp hfind b (hblocks.mem_iff.mpr hb)
        simp [hnumber] at hnone
    | some b' =>
        have hnumber' := List.find?_some hfind
        have hb' := hblocks.mem_iff.mp (List.mem_of_find?_eq_some hfind)
        have hsame : b' = b := h.eq_of_number hb' hb (by simp_all)
        exact ⟨b', rfl, hsame ▸ hid⟩

theorem canonicalBlocks_markReorg (s : Store) (ancestor : BlockId) (chain : Nat) (now : Int) :
    (s.markReorg ancestor chain now).canonicalBlocks =
      s.canonicalBlocks.filter fun b => b.number ≤ ancestor.number := by
  let demote (row : StoredBlock) : StoredBlock :=
    if Store.isOrphaned ancestor row then { row with canonical := false } else row
  have hblock : StoredBlock.block ∘ demote = StoredBlock.block := by
    funext row
    simp only [demote, Function.comp_apply]
    split <;> rfl
  have hcanonical : StoredBlock.canonical ∘ demote =
      fun row => row.canonical && decide (row.block.number ≤ ancestor.number) := by
    funext row
    obtain ⟨block, canonical⟩ := row
    simp only [demote, Store.isOrphaned, Function.comp_apply]
    rcases Nat.lt_or_ge ancestor.number block.number with hlt | hge
    · cases canonical <;> simp [hlt]
    · simp [hge, Nat.not_lt.mpr hge]
  have hrows : (s.markReorg ancestor chain now).blocks.rows = s.blocks.rows.map demote :=
    Store.Table.rows_map _ _
  rw [Store.canonicalBlocks, hrows, List.filter_map, List.map_map, hblock, hcanonical,
    Store.canonicalBlocks, List.filter_map, List.filter_filter]
  simp only [Function.comp_apply, Bool.and_comm]

theorem mem_canonicalBlocks_markReorg {s : Store} {ancestor : BlockId} {chain : Nat} {now : Int}
    {b : Block} : b ∈ (s.markReorg ancestor chain now).canonicalBlocks ↔
      b ∈ s.canonicalBlocks ∧ b.number ≤ ancestor.number := by
  rw [canonicalBlocks_markReorg, List.mem_filter, decide_eq_true_eq]

/-- A reorg makes no block canonical. -/
theorem mem_canonicalBlocks_of_markReorg {s : Store} {ancestor : BlockId} {chain : Nat} {now : Int}
    {b : Block} (h : b ∈ (s.markReorg ancestor chain now).canonicalBlocks) :
    b ∈ s.canonicalBlocks :=
  (mem_canonicalBlocks_markReorg.mp h).1

/-- A commit makes its own block canonical, and no other. -/
theorem mem_canonicalBlocks_of_commit {s : Store} {rows : BlockRows} {b : Block}
    (h : b ∈ (s.commit rows).canonicalBlocks) : b = rows.block ∨ b ∈ s.canonicalBlocks := by
  obtain ⟨hash, hget⟩ := mem_canonicalBlocks_iff.mp h
  by_cases hhash : rows.block.hash = hash
  · subst hhash
    rw [get?_blocks_commit_self] at hget
    cases hget
    exact .inl rfl
  · rw [get?_blocks_commit_of_ne s hhash] at hget
    obtain ⟨old, hold, hrow⟩ := Option.map_eq_some_iff.mp hget
    split at hrow
    · cases hrow
    · subst hrow
      exact .inr (mem_canonicalBlocks_iff.mpr ⟨hash, hold⟩)

theorem Filed.nodup_canonicalBlocks {tree : BlockTree} {s : Store} (h : Filed tree s) :
    s.canonicalBlocks.Nodup := by
  refine Store.Table.nodup_map_filter_rows fun {hash hash' row row'} hget hget' _ _ hblock => ?_
  obtain ⟨rfl, _⟩ := h _ _ hget
  obtain ⟨rfl, _⟩ := h _ _ hget'
  rw [hblock]

theorem Filed.of_touched {tree : BlockTree} {id : BlockId} {s s' : Store} (h : Filed tree s)
    (htouched : Touched id s s') : Filed tree s' := by
  intro hash row hrow
  rw [htouched.blocks] at hrow
  exact h hash row hrow

theorem Filed.commit {tree : BlockTree} {s : Store} {rows : BlockRows} (h : Filed tree s)
    (hheld : tree.Holds rows.block) : Filed tree (s.commit rows) := by
  intro hash row hrow
  rcases stored_of_commit hrow with ⟨hhash, hblock⟩ | ⟨old, hold, hblock⟩
  · rw [hblock]
    exact ⟨hhash, hheld⟩
  · rw [hblock]
    exact h hash old hold

/-- A commit puts its block in the place of the canonical one of its height. -/
theorem Filed.mem_canonicalBlocks_commit {tree : BlockTree} {s : Store} {rows : BlockRows}
    (h : Filed tree s) (hheld : tree.Holds rows.block) {b : Block} :
    b ∈ (s.commit rows).canonicalBlocks ↔
      b = rows.block ∨ (b ∈ s.canonicalBlocks ∧ b.number ≠ rows.block.number) := by
  rw [(h.commit hheld).mem_canonicalBlocks, h.mem_canonicalBlocks]
  by_cases hhash : rows.block.hash = b.hash
  · rw [← hhash, get?_blocks_commit_self]
    constructor
    · intro hb
      cases hb
      exact .inl rfl
    · rintro (rfl | ⟨hb, hnumber⟩)
      · rfl
      · obtain rfl := tree.unique hheld (h _ _ hb).2 hhash
        exact absurd rfl hnumber
  · have hother : b ≠ rows.block := fun hb => hhash (congrArg Block.hash hb.symm)
    rw [get?_blocks_commit_of_ne s hhash, or_iff_right hother]
    constructor
    · intro hb
      obtain ⟨row, hrow, hdemoted⟩ := Option.map_eq_some_iff.mp hb
      split at hdemoted
      · cases hdemoted
      · next hkept =>
        subst hdemoted
        exact ⟨hrow, fun hnumber => hkept ⟨hnumber, fun heq => hhash heq.symm⟩⟩
    · rintro ⟨hb, hnumber⟩
      rw [hb, Option.map_some, if_neg]
      exact fun hdemoted => hnumber hdemoted.1

theorem Filed.markReorg {tree : BlockTree} {s : Store} (h : Filed tree s) (ancestor : BlockId)
    (chain : Nat) (now : Int) : Filed tree (s.markReorg ancestor chain now) := by
  intro hash row hrow
  obtain ⟨old, hold, hblock⟩ := stored_of_markReorg hrow
  rw [hblock]
  exact h hash old hold

/-- A block that the tree names, by itself or as the parent of one of its blocks. -/
def BlockTree.Names (tree : BlockTree) (id : BlockId) : Prop :=
  ∃ b, tree.Holds b ∧ (b.id = id ∨ b.number = id.number + 1 ∧ b.parentHash = id.hash)

/-- What a cursor or a head names above a stack of blocks: the topmost, or where there is none a
block just below the first height. -/
def Tops (tree : BlockTree) (start : Nat) (blocks : List Block) : Option BlockId → Prop
  | none => blocks = []
  | some id => id.number + 1 = start + blocks.length ∧ tree.Names id ∧
      ∀ last, blocks.getLast? = some last → last.id = id

/-- Whether a block was committed under a name and is taken for canonical in the queue. -/
def Queued (s : Store) (number : Nat) (hash : Hash) : Prop :=
  ∃ e, s.queue.get? (number, hash) = some e ∧ e.canonical = true ∧ e.status = .committed

/-- Tables in which blocks, queue and cursor agree on the canonical chain. -/
structure Standing (tree : BlockTree) (start chain : Nat) (s : Store) (blocks : List Block) :
    Prop where
  /-- The canonical blocks stand one on the other. -/
  stacked : Stacked start blocks
  /-- Every stored block is one of the tree, under its own hash. -/
  filed : ∀ {hash row}, s.blocks.get? hash = some row → row.block.hash = hash ∧ tree.Holds row.block
  /-- Exactly the blocks of the stack bear the flag. -/
  flagged : ∀ b, s.blocks.get? b.hash = some ⟨b, true⟩ ↔ b ∈ blocks
  /-- In the queue it is the same blocks. -/
  queued : ∀ number hash, Queued s number hash ↔ ∃ b ∈ blocks, b.id = ⟨number, hash⟩
  /-- No other chain has a cursor. -/
  alone : ∀ id, id ≠ chain → s.cursor? id = none
  /-- The cursor names the topmost block. -/
  topped : Tops tree start blocks ((s.cursor? chain).map Cursor.head)

namespace Standing

variable {tree : BlockTree} {start chain : Nat} {s : Store} {blocks : List Block}

theorem empty (tree : BlockTree) (start chain : Nat) : Standing tree start chain .empty [] where
  stacked := Stacked.nil start
  filed h := by cases h
  flagged b := by
    constructor
    · intro h
      cases h
    · intro h
      cases h
  queued number hash := by
    constructor
    · rintro ⟨e, h, _⟩
      cases h
    · rintro ⟨b, h, _⟩
      cases h
  alone _ _ := rfl
  topped := rfl

theorem holds (h : Standing tree start chain s blocks) {b : Block} (hb : b ∈ blocks) :
    tree.Holds b :=
  (h.filed ((h.flagged b).mpr hb)).2

theorem mem_canonicalBlocks (h : Standing tree start chain s blocks) {b : Block} :
    b ∈ s.canonicalBlocks ↔ b ∈ blocks :=
  (Filed.mem_canonicalBlocks fun _ _ => h.filed).trans (h.flagged b)

theorem canonicalBlocks_perm (h : Standing tree start chain s blocks) :
    s.canonicalBlocks.Perm blocks := by
  have hnodup := Filed.nodup_canonicalBlocks fun _ _ => h.filed
  rw [List.perm_ext_iff_of_nodup hnodup h.stacked.nodup]
  exact fun b => h.mem_canonicalBlocks

theorem canonicalBlock?_eq_some (h : Standing tree start chain s blocks) {number : Nat}
    {id : BlockId} :
    s.canonicalBlock? number = some id ↔ ∃ b ∈ blocks, b.number = number ∧ b.id = id :=
  h.stacked.canonicalBlock?_eq_some h.canonicalBlocks_perm

theorem canonicalChain_eq (h : Standing tree start chain s blocks) :
    s.canonicalChain = blocks.map Block.id :=
  h.stacked.canonicalChain_eq h.canonicalBlocks_perm

theorem nextNumber_eq {c : Config} {head : Option BlockId} (htops : Tops tree start blocks head)
    (hstart : head = none → c.startBlock = start) : nextNumber c head = start + blocks.length := by
  cases head with
  | none =>
      obtain rfl : blocks = [] := htops
      exact hstart rfl
  | some id => exact htops.1

/-! ### Touched rows -/

/-- A block above the stack is not in it, so its import row is free to change. -/
theorem of_touched {id : BlockId} {s' : Store} (h : Standing tree start chain s blocks)
    (hnumber : start + blocks.length ≤ id.number) (htouched : Touched id s s') :
    Standing tree start chain s' blocks := by
  rcases htouched with rfl | ⟨e, rfl, _, hstatus, rfl⟩
  · exact h
  refine ⟨h.stacked, h.filed, h.flagged, fun number hash => ?_, h.alone, h.topped⟩
  rw [← h.queued]
  by_cases hkey : (e.number, e.hash) = (number, hash)
  · cases hkey
    constructor
    · rintro ⟨e', he', _, hcommitted⟩
      rw [Store.recordStatus, Store.Table.get?_insert_self] at he'
      cases he'
      exact absurd hcommitted hstatus
    · rw [h.queued]
      rintro ⟨b, hb, hid⟩
      have hlt := (h.stacked.number_lt hb).2
      have heq : b.number = e.number := congrArg BlockId.number hid
      have hle : start + blocks.length ≤ e.number := hnumber
      omega
  · rw [Queued, Queued, Store.recordStatus, Store.Table.get?_insert_of_ne _ _ hkey]

/-! ### Commits -/

theorem flagged_commit {rows : BlockRows} (h : Standing tree start chain s blocks)
    (hheld : tree.Holds rows.block) (hnumber : rows.block.number = start + blocks.length)
    (b : Block) :
    (s.commit rows).blocks.get? b.hash = some ⟨b, true⟩ ↔ b ∈ blocks ++ [rows.block] := by
  rw [List.mem_append, List.mem_singleton]
  -- the new block is higher than the stack, so it neither is in it nor demotes any of it
  have hnew : rows.block ∉ blocks := by
    intro hmem
    have hlt := (h.stacked.number_lt hmem).2
    omega
  by_cases hhash : rows.block.hash = b.hash
  · rw [← hhash, get?_blocks_commit_self]
    constructor
    · intro hb
      cases hb
      exact .inr rfl
    · rintro (hb | rfl)
      · obtain rfl := tree.unique hheld (h.holds hb) hhash
        exact absurd hb hnew
      · rfl
  · rw [get?_blocks_commit_of_ne s hhash, ← h.flagged]
    have hne : b ≠ rows.block := fun hb => hhash (congrArg Block.hash hb.symm)
    rw [or_iff_left hne]
    constructor
    · intro hb
      obtain ⟨row, hrow, hdemoted⟩ := Option.map_eq_some_iff.mp hb
      split at hdemoted
      · cases hdemoted
      · rw [hrow, hdemoted]
    · intro hb
      have hlt := (h.stacked.number_lt ((h.flagged b).mp hb)).2
      rw [hb, Option.map_some, if_neg]
      rintro ⟨heq, _⟩
      have heq : b.number = rows.block.number := heq
      omega

theorem queued_commit {rows : BlockRows} (h : Standing tree start chain s blocks)
    (hnumber : rows.block.number = start + blocks.length) (hid : rows.entry.id = rows.block.id)
    (hcanonical : rows.entry.canonical = true) (hstatus : rows.entry.status = .committed)
    (number : Nat) (hash : Hash) :
    Queued (s.commit rows) number hash ↔ ∃ b ∈ blocks ++ [rows.block], b.id = ⟨number, hash⟩ := by
  have hnew : ∀ b ∈ blocks, b.number ≠ rows.block.number := by
    intro b hb
    have hlt := (h.stacked.number_lt hb).2
    omega
  by_cases hkey : (rows.entry.number, rows.entry.hash) = (number, hash)
  · cases hkey
    constructor
    · intro _
      exact ⟨rows.block, by simp, hid.symm⟩
    · intro _
      exact ⟨rows.entry, Store.Table.get?_insert_self _ _ _, hcanonical, hstatus⟩
  · have hget : (s.commit rows).queue.get? (number, hash) =
        (Store.demoteEntries s.queue rows.block.id).get? (number, hash) :=
      Store.Table.get?_insert_of_ne _ _ hkey
    -- the row is filed under the block's own name, so every other name keeps its old row
    have hother : rows.block.id ≠ ⟨number, hash⟩ := by
      intro heq
      rw [← hid] at heq
      cases heq
      exact hkey rfl
    have hsplit : (∃ b ∈ blocks ++ [rows.block], b.id = ⟨number, hash⟩) ↔
        ∃ b ∈ blocks, b.id = ⟨number, hash⟩ := by
      constructor
      · rintro ⟨b, hb, hb'⟩
        rcases List.mem_append.mp hb with hb | hb
        · exact ⟨b, hb, hb'⟩
        · rw [List.mem_singleton.mp hb] at hb'
          exact absurd hb' hother
      · rintro ⟨b, hb, hb'⟩
        exact ⟨b, List.mem_append_left _ hb, hb'⟩
    rw [hsplit, Queued, hget, Store.demoteEntries, Store.Table.get?_map, ← h.queued]
    constructor
    · rintro ⟨e, he, hc, hcommitted⟩
      obtain ⟨old, hold, hdemoted⟩ := Option.map_eq_some_iff.mp he
      split at hdemoted
      · subst hdemoted
        cases hc
      · subst hdemoted
        exact ⟨old, hold, hc, hcommitted⟩
    · intro hqueued
      obtain ⟨b, hb, hb'⟩ := (h.queued number hash).mp hqueued
      obtain ⟨e, he, hc, hcommitted⟩ := hqueued
      refine ⟨e, ?_, hc, hcommitted⟩
      rw [he, Option.map_some, if_neg]
      rintro ⟨heq, _⟩
      exact hnew b hb ((congrArg BlockId.number hb').trans heq)

/-- A commit of a block that stands on the stack puts it there. -/
theorem commit {rows : BlockRows} {now : Int} (h : Standing tree start chain s blocks)
    (hheld : tree.Holds rows.block) (hnumber : rows.block.number = start + blocks.length)
    (hparent : ∀ last, blocks.getLast? = some last → rows.block.parentHash = last.hash)
    (hid : rows.entry.id = rows.block.id) (hcanonical : rows.entry.canonical = true)
    (hstatus : rows.entry.status = .committed)
    (hcursor : rows.cursor = ⟨chain, rows.block.number, rows.block.hash, now⟩) :
    Standing tree start chain (s.commit rows) (blocks ++ [rows.block]) where
  stacked := h.stacked.append hnumber hparent
  filed := (Filed.commit (fun _ _ => h.filed) hheld) _ _
  flagged := h.flagged_commit hheld hnumber
  queued := h.queued_commit hnumber hid hcanonical hstatus
  alone id hne := by
    rw [Store.cursor?, Store.commit, hcursor]
    exact (Store.Table.get?_insert_of_ne _ _ (Ne.symm hne)).trans (h.alone id hne)
  topped := by
    have hget : (s.commit rows).cursor? chain = some rows.cursor := by
      rw [Store.cursor?, Store.commit, hcursor]
      exact Store.Table.get?_insert_self _ _ _
    rw [hget, hcursor]
    refine ⟨?_, ⟨rows.block, hheld, .inl rfl⟩, ?_⟩
    · rw [List.length_append, List.length_singleton, ← Nat.add_assoc, ← hnumber]
      rfl
    · intro last hlast
      rw [List.getLast?_concat] at hlast
      cases hlast
      rfl

/-! ### Reorgs -/

/-- Going back to a block of the stack, or to below all of it, cuts the stack off above. -/
theorem markReorg {ancestor : BlockId} (h : Standing tree start chain s blocks) (now : Int)
    (hnamed : tree.Names ancestor) (hlow : start ≤ ancestor.number + 1)
    (hhigh : ancestor.number + 1 ≤ start + blocks.length)
    (hstored : start ≤ ancestor.number → ∃ b ∈ blocks, b.id = ancestor) :
    Standing tree start chain (s.markReorg ancestor chain now)
      (blocks.take (ancestor.number + 1 - start)) where
  stacked := h.stacked.take _
  filed := (Filed.markReorg (fun _ _ => h.filed) ancestor chain now) _ _
  flagged b := by
    rw [h.stacked.mem_take, ← h.flagged, get?_blocks_markReorg]
    constructor
    · intro hb
      obtain ⟨row, hrow, hmarked⟩ := Option.map_eq_some_iff.mp hb
      split at hmarked
      · cases hmarked
      · next horphan =>
        subst hmarked
        have hnot : ¬ ancestor.number < b.number := by simpa [Store.isOrphaned] using horphan
        exact ⟨hrow, by omega⟩
    · rintro ⟨hb, hlt⟩
      rw [hb, Option.map_some, if_neg]
      have hnot : ¬ ancestor.number < b.number := by omega
      simpa [Store.isOrphaned] using hnot
  queued number hash := by
    -- the rows of the lower part of the stack are those not above the ancestor
    have hkept : (∃ b ∈ blocks.take (ancestor.number + 1 - start), b.id = ⟨number, hash⟩) ↔
        (∃ b ∈ blocks, b.id = ⟨number, hash⟩) ∧ number ≤ ancestor.number := by
      constructor
      · rintro ⟨b, hb, hid⟩
        obtain ⟨hb, hlt⟩ := (h.stacked.mem_take _).mp hb
        have heq : b.number = number := congrArg BlockId.number hid
        exact ⟨⟨b, hb, hid⟩, by omega⟩
      · rintro ⟨⟨b, hb, hid⟩, hle⟩
        have heq : b.number = number := congrArg BlockId.number hid
        exact ⟨b, (h.stacked.mem_take _).mpr ⟨hb, by omega⟩, hid⟩
    rw [hkept, ← h.queued, Queued, Store.markReorg, Store.Table.get?_map]
    constructor
    · rintro ⟨e, he, hc, hcommitted⟩
      obtain ⟨old, hold, hmarked⟩ := Option.map_eq_some_iff.mp he
      split at hmarked
      · subst hmarked
        cases hc
      · next hhigh =>
        subst hmarked
        exact ⟨⟨old, hold, hc, hcommitted⟩, by simpa using hhigh⟩
    · rintro ⟨⟨e, he, hc, hcommitted⟩, hle⟩
      refine ⟨e, ?_, hc, hcommitted⟩
      rw [he, Option.map_some, if_neg]
      simpa using hle
  alone id hne := (Store.Table.get?_insert_of_ne _ _ (Ne.symm hne)).trans (h.alone id hne)
  topped := by
    have hget : (s.markReorg ancestor chain now).cursor? chain =
        some ⟨chain, ancestor.number, ancestor.hash, now⟩ := Store.Table.get?_insert_self _ _ _
    rw [hget]
    have hlength : (blocks.take (ancestor.number + 1 - start)).length =
        ancestor.number + 1 - start := by
      rw [List.length_take]
      omega
    refine ⟨?_, hnamed, ?_⟩
    · rw [hlength]
      show ancestor.number + 1 = start + (ancestor.number + 1 - start)
      omega
    · intro last hlast
      have htop := (h.stacked.take _).number_getLast hlast
      have hlast := (h.stacked.mem_take _).mp (List.mem_of_getLast? hlast)
      have hlow := (h.stacked.number_lt hlast.1).1
      rw [hlength] at htop
      obtain ⟨b, hb, rfl⟩ := hstored (by omega)
      have hnumber : last.number = b.number := by
        show last.number = b.id.number
        omega
      rw [h.stacked.eq_of_number hlast.1 hb hnumber]
      rfl

/-- The way down from a block no higher than the stack ends on it, or just below it. -/
theorem names_of_descent {node : Conduct} {id ancestor : BlockId}
    (h : Standing tree start chain s blocks) (hnode : tree.Admits node)
    (hdescent : Descent node s id ancestor) (hnamed : tree.Names id)
    (hlow : start ≤ id.number + 1) (hhigh : id.number + 1 ≤ start + blocks.length) :
    tree.Names ancestor ∧ start ≤ ancestor.number + 1 ∧ ancestor.number ≤ id.number ∧
      (start ≤ ancestor.number → ∃ b ∈ blocks, b.id = ancestor) := by
  induction hdescent with
  | @here id hstored =>
      refine ⟨hnamed, hlow, Nat.le_refl _, fun hstart => ?_⟩
      obtain ⟨b, hb, hnumber⟩ := h.stacked.exists_of_number hstart hhigh
      have hhash := hstored b.id (h.canonicalBlock?_eq_some.mpr ⟨b, hb, hnumber, rfl⟩)
      refine ⟨b, hb, ?_⟩
      cases id
      cases hnumber
      cases hhash
      rfl
  | @down number hash block stored ancestor hstored hne hgiven _ ih =>
      obtain ⟨hheld, hhash⟩ := hnode.holds_of_hash hgiven
      obtain ⟨b, hb, hbnumber, _⟩ := h.canonicalBlock?_eq_some.mp hstored
      have hbelow : start ≤ number + 1 := hbnumber ▸ (h.stacked.number_lt hb).1
      -- the named block is the given one or its child, and tells its height
      have hnumber : block.number = number + 1 := by
        obtain ⟨named, hnamed, hid | ⟨hchild, hparent⟩⟩ := hnamed
        · obtain rfl := tree.unique hheld hnamed (hhash.trans (congrArg BlockId.hash hid).symm)
          exact congrArg BlockId.number hid
        · have habove := tree.parent hheld hnamed (hparent.trans hhash.symm)
          have hchild : named.number = number + 1 + 1 := hchild
          omega
      obtain ⟨hnames, hlow', hle, hon⟩ := ih ⟨block, hheld, .inr ⟨hnumber, rfl⟩⟩
        hbelow (Nat.le_of_succ_le hhigh)
      exact ⟨hnames, hlow', Nat.le_trans hle (Nat.le_succ number), hon⟩

theorem names_of_rival {node : Conduct} {head rival : BlockId}
    (h : Standing tree start chain s blocks) (hnode : tree.Admits node)
    (htops : Tops tree start blocks (some head)) (hrival : Rival node s head rival) :
    tree.Names rival ∧ start ≤ rival.number + 1 ∧ rival.number ≤ head.number := by
  have hhead : head.number + 1 = start + blocks.length := htops.1
  cases hrival with
  | parent hgiven _ =>
      obtain ⟨hheld, hnumber⟩ := hnode.holds_of_number hgiven
      exact ⟨⟨_, hheld, .inr ⟨hnumber, rfl⟩⟩, by show start ≤ head.number + 1; omega, Nat.le_refl _⟩
  | @sibling block _ _ _ hgiven _ =>
      obtain ⟨hheld, hnumber⟩ := hnode.holds_of_number hgiven
      refine ⟨⟨_, hheld, .inl rfl⟩, ?_, Nat.le_of_eq hnumber⟩
      show start ≤ block.number + 1
      omega
  | @lower block latest stored _ hlt hgiven hstored _ =>
      obtain ⟨hheld, hnumber⟩ := hnode.holds_of_number hgiven
      obtain ⟨b, hb, hbnumber, _⟩ := h.canonicalBlock?_eq_some.mp hstored
      have hstart := (h.stacked.number_lt hb).1
      refine ⟨⟨_, hheld, .inl rfl⟩, ?_, ?_⟩
      · show start ≤ block.number + 1
        omega
      · show block.number ≤ head.number
        omega

end Standing

/-! ## Every run -/

variable {tree : BlockTree} {start chain : Nat} {blocks : List Block} {node : Conduct} {c : Config}
  {w w' : World}

def Config.On (start chain : Nat) (c : Config) : Prop := c.startBlock = start ∧ c.chainId = chain

theorem Tops.eq_of_getLast {head : Option BlockId} {last : Block} (h : Tops tree start blocks head)
    (hlast : blocks.getLast? = some last) : head = some last.id := by
  cases head with
  | none =>
      obtain rfl : blocks = [] := h
      cases hlast
  | some id => rw [h.2.2 last hlast]

theorem Offered.fits {block : Block} {head : Option BlockId} (hoffer : Offered node c head block)
    (hnode : tree.Admits node) (hstart : head = none → c.startBlock = start)
    (htops : Tops tree start blocks head) :
    tree.Holds block ∧ block.number = start + blocks.length ∧
      ∀ last, blocks.getLast? = some last → block.parentHash = last.hash := by
  obtain ⟨hheld, hnumber⟩ := hnode.holds_of_number hoffer.served
  refine ⟨hheld, hnumber.trans (Standing.nextNumber_eq htops hstart), fun last hlast => ?_⟩
  exact hoffer.extends_head last.id (htops.eq_of_getLast hlast)

theorem Standing.rebase {s : Store} (h : Standing tree start chain s blocks)
    (hcursor : s.cursor? chain = none) (start' : Nat) : Standing tree start' chain s blocks := by
  have htopped := h.topped
  rw [hcursor] at htopped
  obtain rfl : blocks = [] := htopped
  refine ⟨Stacked.nil start', h.filed, h.flagged, h.queued, h.alone, ?_⟩
  rw [hcursor]
  rfl

/-- To an importer that has no head the first height is its own: nothing is committed yet. -/
theorem Standing.for_work (h : Standing tree start chain w.store blocks)
    (hhead : w.head = (w.store.cursor? chain).map Cursor.head) (c : Config) :
    ∃ start, Standing tree start chain w.store blocks ∧ (w.head = none → c.startBlock = start) := by
  cases hcursor : w.store.cursor? chain with
  | none => exact ⟨c.startBlock, h.rebase hcursor c.startBlock, fun _ => rfl⟩
  | some cursor => exact ⟨start, h, fun hnone => by simp [hhead, hcursor] at hnone⟩

theorem Standing.of_commit {block : Block} {s s' : Store} {head : Option BlockId}
    (h : Standing tree start chain s blocks) (hnode : tree.Admits node)
    (hstart : head = none → c.startBlock = start) (hchain : c.chainId = chain)
    (htops : Tops tree start blocks head) (hoffer : Offered node c head block)
    (hcommit : CommitOf node c block s s') :
    Standing tree start chain s' (blocks ++ [block]) := by
  obtain ⟨hheld, hnumber, hparent⟩ := hoffer.fits hnode hstart htops
  obtain ⟨entry, rows, w₁, w₂, htouched, hid, hcanonical, hrows, rfl⟩ := hcommit
  obtain ⟨rfl, hid', hcanonical', hstatus, now, hcursor⟩ := (derived_of_normalize hrows).marks
  rw [hchain] at hcursor
  exact (h.of_touched (Nat.le_of_eq hnumber.symm) htouched).commit hheld hnumber hparent
    (hid'.trans hid) (hcanonical'.trans hcanonical) hstatus hcursor

theorem Standing.of_reorg {head rival ancestor : BlockId} {s : Store} (now : Int)
    (h : Standing tree start chain s blocks) (hnode : tree.Admits node)
    (htops : Tops tree start blocks (some head)) (hrival : Rival node s head rival)
    (hdescent : Descent node s rival ancestor) :
    Standing tree start chain (s.markReorg ancestor chain now)
      (blocks.take (ancestor.number + 1 - start)) := by
  have hhead : head.number + 1 = start + blocks.length := htops.1
  obtain ⟨hnamed, hlow, hle⟩ := h.names_of_rival hnode htops hrival
  obtain ⟨hnamed', hlow', hle', hon⟩ := h.names_of_descent hnode hdescent hnamed hlow (by omega)
  exact h.markReorg now hnamed' hlow' (by omega) hon

/-- In a run that began with the cursor no block above the head was committed before. -/
theorem Standing.not_skipped {block : Block} {e : ImportEntry} {s : Store}
    {head : Option BlockId} (h : Standing tree start chain s blocks) (hnode : tree.Admits node)
    (hstart : head = none → c.startBlock = start) (htops : Tops tree start blocks head)
    (hoffer : Offered node c head block) (he : s.importStatus? block.number = some e)
    (hcanonical : e.canonical = true) (hstatus : e.status = .committed) : False := by
  obtain ⟨_, hnumber, _⟩ := hoffer.fits hnode hstart htops
  obtain ⟨hash, hget⟩ := filed_of_importStatus he
  obtain ⟨b, hb, hid⟩ := (h.queued block.number hash).mp ⟨e, hget, hcanonical, hstatus⟩
  have hlt := (h.stacked.number_lt hb).2
  have heq : b.number = block.number := congrArg BlockId.number hid
  omega

/-- Whatever a step does, the tables agree on a chain afterwards, and unless the step was broken
off the head is where the cursor is. -/
theorem Standing.of_step {out : Option (Except IngestError Outcome)}
    (h : Standing tree start chain w.store blocks) (hnode : tree.Admits node)
    (hstart : w.head = none → c.startBlock = start) (hchain : c.chainId = chain)
    (hhead : w.head = (w.store.cursor? chain).map Cursor.head)
    (heffect : StepEffect node c w out w') :
    ∃ blocks', Standing tree start chain w'.store blocks' ∧
      (out.isSome → w'.head = (w'.store.cursor? chain).map Cursor.head) := by
  have htops : Tops tree start blocks w.head := hhead ▸ h.topped
  -- a step that set the head ends well, and one that did not was broken off
  have hmoved : ∀ {id result}, HeadMoves w id result out w' →
      (w'.store.cursor? chain).map Cursor.head = some id →
      out.isSome → w'.head = (w'.store.cursor? chain).map Cursor.head := by
    rintro id result (⟨_, rfl⟩ | ⟨hhead', _⟩) hcursor hsome
    · cases hsome
    · rw [hhead', hcursor]
  cases heffect with
  | nothing _ hsame => exact ⟨blocks, hsame.1 ▸ h, fun _ => by rw [hsame.1, hsame.2, hhead]⟩
  | idle _ hsame => exact ⟨blocks, hsame.1 ▸ h, fun _ => by rw [hsame.1, hsame.2, hhead]⟩
  | skipped hoffer he _ hcanonical hstatus _ _ =>
      exact (h.not_skipped hnode hstart htops hoffer he hcanonical hstatus).elim
  | touched hoffer _ htouched hhead' =>
      obtain ⟨_, hnumber, _⟩ := hoffer.fits hnode hstart htops
      refine ⟨blocks, h.of_touched (Nat.le_of_eq hnumber.symm) htouched, fun _ => ?_⟩
      rw [hhead', hhead]
      rcases htouched with hsame | ⟨e, _, _, _, hwritten⟩
      · rw [hsame]
      · rw [hwritten]
        rfl
  | @committed block _ _ hoffer hcommit hmoves =>
      have h' := h.of_commit hnode hstart hchain htops hoffer hcommit
      exact ⟨_, h', hmoved hmoves (h'.topped.eq_of_getLast List.getLast?_concat)⟩
  | @reorged head rival ancestor now _ _ hhead' hrival hdescent _ hstore hmoves =>
      rw [hchain] at hstore
      rw [hhead'] at htops
      refine ⟨_, hstore ▸ h.of_reorg now hnode htops hrival hdescent, hmoved hmoves ?_⟩
      rw [hstore, Store.cursor?, Store.markReorg, Store.Table.get?_insert_self]
      rfl

theorem standing_of_reach {at_work : Option Config} (hnode : tree.Admits node)
    (h : Reach node (Config.On start chain) at_work w) :
    ∃ blocks, Standing tree start chain w.store blocks ∧
      (at_work.isSome → w.head = (w.store.cursor? chain).map Cursor.head) := by
  induction h with
  | start => exact ⟨[], Standing.empty tree start chain, fun hwork => by cases hwork⟩
  | enter _ hc hrestore ih =>
      obtain ⟨blocks, hstanding, _⟩ := ih
      obtain ⟨hstore, hhead⟩ := runs_restoreHead hrestore rfl
      rw [hstore, hhead, hc.2]
      exact ⟨blocks, hstanding, fun _ => rfl⟩
  | @step c out w w' hreach hstep ih =>
      obtain ⟨blocks, hstanding, hhead⟩ := ih
      obtain ⟨blocks', hstanding', hhead'⟩ := hstanding.of_step hnode (fun _ => hreach.kind.1)
        hreach.kind.2 (hhead rfl) (effect_of_importNext hstep)
      refine ⟨blocks', hstanding', fun hwork => hhead' ?_⟩
      cases out with
      | none => cases hwork
      | some result => rfl

/-- Importers of one chain may differ in the first height: it is that of the one which committed
first. -/
theorem standing_of_chain {at_work : Option Config} (hnode : tree.Admits node)
    (h : Reach node (fun c => c.chainId = chain) at_work w) :
    ∃ start blocks, Standing tree start chain w.store blocks ∧
      (at_work.isSome → w.head = (w.store.cursor? chain).map Cursor.head) := by
  induction h with
  | start => exact ⟨0, [], Standing.empty tree 0 chain, fun hwork => by cases hwork⟩
  | enter _ hc hrestore ih =>
      obtain ⟨start, blocks, hstanding, _⟩ := ih
      obtain ⟨hstore, hhead⟩ := runs_restoreHead hrestore rfl
      rw [hstore, hhead, hc]
      exact ⟨start, blocks, hstanding, fun _ => rfl⟩
  | @step c out w w' hreach hstep ih =>
      obtain ⟨start, blocks, hstanding, hhead⟩ := ih
      obtain ⟨start, hstanding, hstart⟩ := hstanding.for_work (hhead rfl) c
      obtain ⟨blocks', hstanding', hhead'⟩ := hstanding.of_step hnode hstart hreach.kind (hhead rfl)
        (effect_of_importNext hstep)
      refine ⟨start, blocks', hstanding', fun hwork => hhead' ?_⟩
      cases out with
      | none => cases hwork
      | some result => rfl

/-- Whatever branches a consistent node showed, whatever failed and wherever steps were broken off:
the canonical blocks fill the heights from the first one on, each the parent of the next; the
cursor names the topmost, or a block just below the first height if there is none; the same blocks
count as canonical and committed in the queue; and between steps the head is the cursor's. -/
theorem canonical_chain_of_reach {at_work : Option Config} (hnode : tree.Admits node)
    (h : Reach node (Config.On start chain) at_work w) :
    ∃ blocks : List Block,
      w.store.canonicalBlocks.Perm blocks ∧
      blocks.map Block.number = List.range' start blocks.length ∧
      (blocks.IsChain fun lower upper => upper.parentHash = lower.hash) ∧
      (∀ cursor, w.store.cursor? chain = some cursor →
        (∀ top, blocks.getLast? = some top → cursor.head = top.id) ∧
        (blocks = [] → cursor.lastBlock + 1 = start ∧ tree.Names cursor.head)) ∧
      (w.store.cursor? chain = none → blocks = []) ∧
      (∀ id, id ≠ chain → w.store.cursor? id = none) ∧
      (∀ number hash, Queued w.store number hash ↔ ∃ b ∈ blocks, b.id = ⟨number, hash⟩) ∧
      (at_work.isSome → w.head = (w.store.cursor? chain).map Cursor.head) := by
  obtain ⟨blocks, hstanding, hhead⟩ := standing_of_reach hnode h
  refine ⟨blocks, hstanding.canonicalBlocks_perm, hstanding.stacked.heights,
    hstanding.stacked.linked, ?_, ?_, hstanding.alone, hstanding.queued, hhead⟩
  · intro cursor hcursor
    have htops := hstanding.topped
    rw [hcursor] at htops
    obtain ⟨hnumber, hnamed, htop⟩ := htops
    refine ⟨fun top hlast => (htop top hlast).symm, ?_⟩
    rintro rfl
    exact ⟨hnumber, hnamed⟩
  · intro hcursor
    have htops := hstanding.topped
    rw [hcursor] at htops
    exact htops

/-! A node shows one branch, then a sibling of its last block in the block's place. -/

def oldBranch : List Block := [plainBlock 0 ⟨1⟩ ⟨0⟩, plainBlock 1 ⟨2⟩ ⟨1⟩]

def newBranch : List Block := [plainBlock 0 ⟨1⟩ ⟨0⟩, plainBlock 1 ⟨3⟩ ⟨1⟩]

def forkedTree : BlockTree where
  Holds b := b ∈ oldBranch ++ newBranch
  receipts _ := []
  trace _ _ := default
  unique {a b} ha hb hash := by
    have h : ∀ a ∈ oldBranch ++ newBranch, ∀ b ∈ oldBranch ++ newBranch, a.hash = b.hash → a = b := by
      decide
    exact h a ha b hb hash
  parent {a b} ha hb hparent := by
    have h : ∀ a ∈ oldBranch ++ newBranch, ∀ b ∈ oldBranch ++ newBranch, b.parentHash = a.hash →
        b.number = a.number + 1 := by
      decide
    exact h a ha b hb hparent

def forkedNode : Conduct := fun focus call reply =>
  plainConduct oldBranch focus call reply ∨ plainConduct newBranch focus call reply

def evenSettings : Config := { Config.standard with schedule := ⟨[⟨0, 5⟩]⟩ }

theorem admits_forkedNode : forkedTree.Admits forkedNode := by
  rintro focus call a (ha | ha)
  · exact BlockTree.admits_plain (fun b hb => List.mem_append_left _ hb) (fun _ => rfl) focus call a ha
  · exact BlockTree.admits_plain (fun b hb => List.mem_append_right _ hb) (fun _ => rfl) focus call a ha

theorem canonical_chain_of_reach_fork : ∃ w blocks,
    Reach forkedNode (Config.On 0 1) (some evenSettings) w ∧ w.store.canonicalBlocks = newBranch ∧
      w.store.canonicalBlocks.Perm blocks ∧
      blocks.map Block.number = List.range' 0 blocks.length ∧
      (blocks.IsChain fun lower upper => upper.parentHash = lower.hash) ∧
      w.head = (w.store.cursor? 1).map Cursor.head := by
  have hshown : ∀ blocks ∈ [oldBranch, oldBranch, newBranch, newBranch], ∀ focus call reply,
      plainConduct blocks focus call reply → forkedNode focus call reply := by
    intro blocks hblocks focus call reply hreply
    simp only [List.mem_cons, List.not_mem_nil, or_false] at hblocks
    rcases hblocks with rfl | rfl | rfl | rfl
    · exact .inl hreply
    · exact .inl hreply
    · exact .inr hreply
    · exact .inr hreply
  have hstart : Reach forkedNode (Config.On 0 1) (some evenSettings)
      ((Session.start .empty evenSettings 0).world id none) := reach_start ⟨rfl, rfl⟩
  obtain ⟨focus, hreach⟩ := reach_play hshown hstart
  obtain ⟨blocks, hperm, hheights, hlinked, _, _, _, _, hhead⟩ :=
    canonical_chain_of_reach admits_forkedNode hreach
  have hends : (play evenSettings [oldBranch, oldBranch, newBranch, newBranch]
      (.start .empty evenSettings 0)).2.outside.canonicalBlocks = newBranch := by
    decide +kernel
  exact ⟨_, blocks, hreach, hends, hperm, hheights, hlinked, hhead rfl⟩

end ChainIngest.Importer
