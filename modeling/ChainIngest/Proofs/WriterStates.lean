import Mathlib.Data.List.Find
import ChainIngest.Proofs.ActiveEntries
import ChainIngest.Proofs.CommittedRows
/-!
# Whatever is asked of a store

Nothing makes the callers of a store keep an order: siblings come in turn, a block
is committed twice, a hash even at two heights, and reorgs go wherever they like.  A
height still has one canonical block at most, so it does not matter in which order
the blocks are looked through for it.  The queue is as strict only if its rows are
marked as committed by commits alone, each of its own block.
-/

namespace ChainIngest.Store

open Importer (StoreTask Marked marked_twice_of_commit marked_of_recordStatus marked_of_markReorg
  mem_canonicalBlocks_iff mem_canonicalBlocks_of_commit mem_canonicalBlocks_of_markReorg plainBlock)

/-! ## Tasks one after the other -/

def performAll (s : Store) (tasks : List (StoreTask × Int)) : Store :=
  tasks.foldl (fun s task => (s.perform task.1 task.2).2) s

theorem performAll_append (s : Store) (tasks later : List (StoreTask × Int)) :
    s.performAll (tasks ++ later) = (s.performAll tasks).performAll later :=
  List.foldl_append

/-- What a task can do to the tables. -/
theorem perform_cases (task : StoreTask) (now : Int) (s : Store) :
    (s.perform task now).2 = s ∨
      (∃ rows, task = .commit rows ∧ (s.perform task now).2 = s.commit rows) ∨
      (∃ entry, task = .recordStatus entry ∧ (s.perform task now).2 = s.recordStatus entry) ∨
      ∃ ancestor chainId, task = .markReorg ancestor chainId ∧
        (s.perform task now).2 = s.markReorg ancestor chainId now := by
  cases task with
  | commit rows => exact .inr (.inl ⟨rows, rfl, rfl⟩)
  | recordStatus entry => exact .inr (.inr (.inl ⟨entry, rfl, rfl⟩))
  | markReorg ancestor chainId => exact .inr (.inr (.inr ⟨ancestor, chainId, rfl, rfl⟩))
  | importStatus number => exact .inl rfl
  | canonicalBlock number => exact .inl rfl
  | cursor chainId => exact .inl rfl
  | anyCursor => exact .inl rfl
  | capabilities contract => exact .inl rfl

theorem performAll_induction {P : Store → Prop} {s : Store} {tasks : List (StoreTask × Int)}
    (hstart : P s)
    (hstep : ∀ s task now, (task, now) ∈ tasks → P s → P (s.perform task now).2) :
    P (s.performAll tasks) := by
  induction tasks generalizing s with
  | nil => exact hstart
  | cons task tasks ih =>
      refine ih (hstep _ _ _ List.mem_cons_self hstart) ?_
      intro s task now htask
      exact hstep s task now (List.mem_cons_of_mem _ htask)

theorem Written.perform {s : Store} (h : s.Written) (task : StoreTask) (now : Int) :
    (s.perform task now).2.Written := by
  rcases perform_cases task now s with hsame | ⟨rows, _, hs⟩ | ⟨entry, _, hs⟩ | ⟨a, chain, _, hs⟩
  · rw [hsame]
    exact h
  · exact hs ▸ h.commit rows
  · exact hs ▸ h.recordStatus entry
  · exact hs ▸ h.markReorg a chain now

theorem written_performAll (tasks : List (StoreTask × Int)) : (empty.performAll tasks).Written :=
  performAll_induction .empty fun _ task now _ h => h.perform task now

/-! ## Canonical blocks -/

/-- No height has two canonical blocks. -/
theorem Written.eq_of_number {s : Store} (h : s.Written) {b b' : Block}
    (hb : b ∈ s.canonicalBlocks) (hb' : b' ∈ s.canonicalBlocks) (hnumber : b.number = b'.number) :
    b = b' := by
  induction h with
  | empty => cases hb
  | @commit s rows hs ih =>
      rcases mem_canonicalBlocks_of_commit hb with rfl | hold
      · exact (hs.eq_of_canonical hb' hnumber.symm).symm
      · rcases mem_canonicalBlocks_of_commit hb' with rfl | hold'
        · exact hs.eq_of_canonical hb hnumber
        · exact ih hold hold'
  | recordStatus _ _ ih => exact ih hb hb'
  | markReorg _ _ _ _ ih =>
      exact ih (mem_canonicalBlocks_of_markReorg hb) (mem_canonicalBlocks_of_markReorg hb')

theorem Written.eq_of_rows {s : Store} (h : s.Written) {hash hash' : Hash}
    {row row' : StoredBlock} (hget : s.blocks.get? hash = some row)
    (hget' : s.blocks.get? hash' = some row') (hcanonical : row.canonical = true)
    (hcanonical' : row'.canonical = true) (hnumber : row.block.number = row'.block.number) :
    row = row' := by
  obtain ⟨b, canonical⟩ := row
  obtain ⟨b', canonical'⟩ := row'
  obtain rfl : canonical = true := hcanonical
  obtain rfl : canonical' = true := hcanonical'
  obtain rfl : b = b' := h.eq_of_number (mem_canonicalBlocks_iff.mpr ⟨hash, hget⟩)
    (mem_canonicalBlocks_iff.mpr ⟨hash', hget'⟩) hnumber
  rfl

theorem Written.nodup_number {s : Store} (h : s.Written) :
    (s.canonicalBlocks.map Block.number).Nodup := by
  unfold canonicalBlocks
  rw [List.map_map]
  refine Table.nodup_map_filter_rows fun {hash hash' row row'} hget hget' hc hc' hnumber => ?_
  obtain rfl := h.eq_of_rows hget hget' hc hc' hnumber
  exact (h.hash_eq hget).symm.trans (h.hash_eq hget')

/-- The canonical block of a height is found in whatever order the blocks are looked through. -/
theorem Written.find?_of_perm {s : Store} (h : s.Written) {order : List StoredBlock}
    (horder : order.Perm s.blocks.rows) (number : Nat) :
    (order.find? fun row => row.canonical && decide (row.block.number = number)).map
      (fun row => row.block.id) = s.canonicalBlock? number := by
  have hcanonical : s.canonicalBlock? number =
      (s.blocks.rows.find? fun row => row.canonical && decide (row.block.number = number)).map
        (fun row => row.block.id) := by
    rw [canonicalBlock?, canonicalBlocks, List.find?_map, List.find?_filter, Option.map_map]
    simp only [Function.comp_apply, Bool.decide_and, Bool.decide_eq_true]
    rfl
  rw [hcanonical]
  congr 1
  apply List.find?_eq_find?_of_perm horder
  rintro row ⟨hmem, hrow⟩ row' ⟨hmem', hrow'⟩
  simp only [Bool.and_eq_true, decide_eq_true_eq] at hrow hrow'
  obtain ⟨hash, hget⟩ := Table.mem_rows_iff.mp (horder.mem_iff.mp hmem)
  obtain ⟨hash', hget'⟩ := Table.mem_rows_iff.mp (horder.mem_iff.mp hmem')
  exact h.eq_of_rows hget hget' hrow.1 hrow'.1 (hrow.2.trans hrow'.2.symm)

/-! ## Committed import rows -/

def committedEntries (s : Store) : List ImportEntry :=
  s.queue.rows.filter fun e => e.canonical && decide (e.status = .committed)

/-- Whether a task marks import rows as committed by a commit alone, and then that of the block. -/
def Orderly : StoreTask → Prop
  | .commit rows => rows.entry.id = rows.block.id
  | .recordStatus entry => entry.status ≠ .committed
  | _ => True

instance : DecidablePred Orderly
  | .commit rows => inferInstanceAs (Decidable (rows.entry.id = rows.block.id))
  | .recordStatus entry => inferInstanceAs (Decidable (entry.status ≠ .committed))
  | .importStatus _ => .isTrue trivial
  | .markReorg _ _ => .isTrue trivial
  | .canonicalBlock _ => .isTrue trivial
  | .cursor _ => .isTrue trivial
  | .anyCursor => .isTrue trivial
  | .capabilities _ => .isTrue trivial

def NamesFiled (t : Table (Nat × Hash) ImportEntry) : Prop :=
  ∀ number hash e, t.get? (number, hash) = some e → e.id = ⟨number, hash⟩

theorem NamesFiled.insert {t : Table (Nat × Hash) ImportEntry} (h : NamesFiled t)
    (entry : ImportEntry) : NamesFiled (t.insert (entry.number, entry.hash) entry) := by
  intro number hash e he
  by_cases hkey : (entry.number, entry.hash) = (number, hash)
  · obtain ⟨rfl, rfl⟩ := Prod.mk.inj hkey
    rw [Table.get?_insert_self] at he
    cases he
    rfl
  · rw [Table.get?_insert_of_ne _ _ hkey] at he
    exact h number hash e he

theorem NamesFiled.map {t : Table (Nat × Hash) ImportEntry} (h : NamesFiled t)
    {f : Nat × Hash → ImportEntry → ImportEntry} (hf : ∀ key e, (f key e).id = e.id) :
    NamesFiled (t.map f) := by
  intro number hash e he
  rw [Table.get?_map] at he
  obtain ⟨old, hold, rfl⟩ := Option.map_eq_some_iff.mp he
  exact (hf _ old).trans (h number hash old hold)

theorem Written.namesFiled {s : Store} (h : s.Written) : NamesFiled s.queue := by
  induction h with
  | empty =>
      intro number hash e he
      cases he
  | commit rows _ ih =>
      refine (ih.map fun key e => ?_).insert rows.entry
      split
      · rfl
      · rfl
  | recordStatus entry _ ih => exact ih.insert entry
  | markReorg ancestor chainId now _ ih =>
      refine ih.map fun key e => ?_
      split
      · rfl
      · rfl

def OneQueued (s : Store) : Prop :=
  ∀ number hash hash', Marked s (· = .committed) number hash →
    Marked s (· = .committed) number hash' → hash = hash'

theorem OneQueued.perform {s : Store} (h : s.OneQueued) {task : StoreTask} (htask : Orderly task)
    (now : Int) : (s.perform task now).2.OneQueued := by
  rcases perform_cases task now s with hsame | ⟨rows, rfl, hs⟩ | ⟨entry, rfl, hs⟩ | ⟨a, chain, rfl, hs⟩
  · rw [hsame]
    exact h
  · rw [hs]
    intro number hash hash' hmarked hmarked'
    rcases marked_twice_of_commit htask hmarked hmarked' with hsame | ⟨hbefore, hbefore'⟩
    · exact hsame.symm
    · exact h _ _ _ hbefore hbefore'
  · rw [hs]
    intro number hash hash' hmarked hmarked'
    have hbefore := (marked_of_recordStatus hmarked).resolve_left fun hopen => htask hopen.2
    have hbefore' := (marked_of_recordStatus hmarked').resolve_left fun hopen => htask hopen.2
    exact h _ _ _ hbefore hbefore'
  · rw [hs]
    intro number hash hash' hmarked hmarked'
    exact h _ _ _ (marked_of_markReorg hmarked) (marked_of_markReorg hmarked')

theorem oneQueued_performAll {tasks : List (StoreTask × Int)}
    (htasks : ∀ task ∈ tasks, Orderly task.1) : (empty.performAll tasks).OneQueued := by
  refine performAll_induction ?_ fun s task now htask h => h.perform (htasks _ htask) now
  rintro number hash hash' ⟨e, he, _⟩
  cases he

theorem nodup_committedEntries {s : Store} (h : s.Written) (hone : s.OneQueued) :
    (s.committedEntries.map ImportEntry.number).Nodup := by
  refine Table.nodup_map_filter_rows fun {key key' e e'} hget hget' hc hc' hnumber => ?_
  obtain ⟨number, hash⟩ := key
  obtain ⟨number', hash'⟩ := key'
  have hid := h.namesFiled _ _ _ hget
  have hid' := h.namesFiled _ _ _ hget'
  obtain rfl : number = number' :=
    (congrArg BlockId.number hid).symm.trans (hnumber.trans (congrArg BlockId.number hid'))
  simp only [Bool.and_eq_true, decide_eq_true_eq] at hc hc'
  rw [hone number hash hash' ⟨e, hget, hc⟩ ⟨e', hget', hc'⟩]

/-! ## Every height has one -/

/-- Whatever was asked of a store, in whatever order: blocks are filed under their own hashes, and
no height has two canonical ones, so that the canonical block of a height does not depend on the
order in which the blocks are looked through.  If only commits mark import rows as committed, each
that of its own block, no height has two rows that count as canonical and committed either. -/
theorem one_canonical_block_per_height (tasks : List (StoreTask × Int)) :
    let s := empty.performAll tasks
    (∀ hash row, s.blocks.get? hash = some row → row.block.hash = hash) ∧
      (s.canonicalBlocks.map Block.number).Nodup ∧
      (∀ order : List StoredBlock, order.Perm s.blocks.rows → ∀ number,
        (order.find? fun row => row.canonical && decide (row.block.number = number)).map
          (fun row => row.block.id) = s.canonicalBlock? number) ∧
      (∀ number hash e, s.queue.get? (number, hash) = some e → e.id = ⟨number, hash⟩) ∧
      ((∀ task ∈ tasks, Orderly task.1) → (s.committedEntries.map ImportEntry.number).Nodup) := by
  have hs := written_performAll tasks
  exact ⟨fun _ _ hget => hs.hash_eq hget, hs.nodup_number, fun _ => hs.find?_of_perm, hs.namesFiled,
    fun htasks => nodup_committedEntries hs (oneQueued_performAll htasks)⟩

/-! Two siblings take turns, a hash comes back at another height, and a reorg takes it off again. -/

def bareRows (block : Block) : BlockRows where
  block := block
  receipts := []
  internal := []
  created := []
  destroyed := []
  classified := []
  transfers := []
  events := []
  rewards := []
  deltas := []
  accounts := []
  entry := { ImportEntry.pending block.id 0 with status := .committed }
  cursor := ⟨1, block.number, block.hash, 0⟩

def siblingTasks : List (StoreTask × Int) :=
  [(.commit (bareRows (plainBlock 1 ⟨1⟩ ⟨0⟩)), 1),
    (.recordStatus (.pending ⟨1, ⟨2⟩⟩ 2), 2),
    (.commit (bareRows (plainBlock 1 ⟨2⟩ ⟨0⟩)), 3),
    (.commit (bareRows (plainBlock 2 ⟨1⟩ ⟨2⟩)), 4),
    (.markReorg ⟨1, ⟨2⟩⟩ 1, 5),
    (.commit (bareRows (plainBlock 2 ⟨3⟩ ⟨2⟩)), 6),
    (.commit (bareRows (plainBlock 1 ⟨1⟩ ⟨0⟩)), 7)]

theorem one_canonical_block_after_siblings :
    (∀ task ∈ siblingTasks, Orderly task.1) ∧
      (empty.performAll siblingTasks).canonicalBlock? 1 = some ⟨1, ⟨1⟩⟩ ∧
      ((empty.performAll siblingTasks).blocks.rows.reverse.find? fun row =>
        row.canonical && decide (row.block.number = 1)).map (fun row => row.block.id) =
          some ⟨1, ⟨1⟩⟩ ∧
      ((empty.performAll siblingTasks).committedEntries.map ImportEntry.number).Nodup := by
  obtain ⟨_, _, horder, _, hqueue⟩ := one_canonical_block_per_height siblingTasks
  have htasks : ∀ task ∈ siblingTasks, Orderly task.1 := by decide +kernel
  have hblock : (empty.performAll siblingTasks).canonicalBlock? 1 = some ⟨1, ⟨1⟩⟩ := by
    decide +kernel
  exact ⟨htasks, hblock, (horder _ (List.reverse_perm _) 1).trans hblock, hqueue htasks⟩

end ChainIngest.Store
