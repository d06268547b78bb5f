import ChainIngest.Proofs.Recommit
import ChainIngest.Proofs.WriterStates
/-!
# What a store never loses

Tables give up rows only where the rows of a transaction are written anew.  All
others only grow: a row is replaced under its key at most, and a reward or a balance
change not even that.  Of an account the lowest height is kept at which any block,
canonical or not, has told of it, so that the order of the commits leaves no trace
in it.
-/

namespace ChainIngest.Store

open Importer (StoreTask plainBlock)

/-- What relates a value to itself and goes through every step relates it to the end. -/
theorem rel_foldl {α β : Type} {R : α → α → Prop} (hrefl : ∀ a, R a a)
    (htrans : ∀ {a b c}, R a b → R b c → R a c) {f : α → β → α} (hstep : ∀ a x, R a (f a x))
    (xs : List β) (a : α) : R a (xs.foldl f a) := by
  induction xs generalizing a with
  | nil => exact hrefl a
  | cons x xs ih => exact htrans (hstep a x) (ih (f a x))

/-! ## Tables that only grow -/

namespace Table

variable {κ ν : Type} [Key κ] {t t' t'' : Table κ ν}

def KeepsKeys (t t' : Table κ ν) : Prop := ∀ key, (t.get? key).isSome → (t'.get? key).isSome

def KeepsRows (t t' : Table κ ν) : Prop := ∀ key row, t.get? key = some row → t'.get? key = some row

theorem KeepsKeys.refl (t : Table κ ν) : t.KeepsKeys t := fun _ h => h

theorem KeepsKeys.trans (h : t.KeepsKeys t') (h' : t'.KeepsKeys t'') : t.KeepsKeys t'' :=
  fun key hkey => h' key (h key hkey)

theorem KeepsRows.refl (t : Table κ ν) : t.KeepsRows t := fun _ _ h => h

theorem KeepsRows.trans (h : t.KeepsRows t') (h' : t'.KeepsRows t'') : t.KeepsRows t'' :=
  fun key row hrow => h' key row (h key row hrow)

theorem keepsKeys_map (t : Table κ ν) (f : κ → ν → ν) : t.KeepsKeys (t.map f) := by
  intro key hkey
  rw [get?_map, Option.isSome_map]
  exact hkey

theorem keepsKeys_alter [DecidableEq κ] (t : Table κ ν) (key : κ) (f : Option ν → ν) :
    t.KeepsKeys (t.alter key f) := by
  intro q hq
  by_cases hkey : key = q
  · subst hkey
    rw [get?_alter_self]
    rfl
  · rw [get?_alter_of_ne _ _ hkey]
    exact hq

theorem keepsKeys_foldl_alter [DecidableEq κ] {α : Type} (key : α → κ) (row : α → Option ν → ν)
    (xs : List α) (t : Table κ ν) :
    t.KeepsKeys (xs.foldl (fun t x => t.alter (key x) (row x)) t) :=
  rel_foldl KeepsKeys.refl KeepsKeys.trans (fun t x => keepsKeys_alter t (key x) (row x)) xs t

theorem keepsRows_insertNew [DecidableEq κ] (t : Table κ ν) (key : κ) (row : ν) :
    t.KeepsRows (t.insertNew key row) := by
  intro q old hold
  by_cases hkey : key = q
  · subst hkey
    rw [get?_insertNew_self, hold, Option.getD_some]
  · rw [get?_insertNew_of_ne _ _ hkey]
    exact hold

theorem keepsRows_foldl_insertNew [DecidableEq κ] {α : Type} (key : α → κ) (row : α → ν)
    (xs : List α) (t : Table κ ν) :
    t.KeepsRows (xs.foldl (fun t x => t.insertNew (key x) (row x)) t) :=
  rel_foldl KeepsRows.refl KeepsRows.trans (fun t x => keepsRows_insertNew t (key x) (row x)) xs t

end Table

/-! ## Stores that only grow -/

/-- Nothing of a store's history is missing from another. -/
structure Extends (s s' : Store) : Prop where
  blocks : s.blocks.KeepsKeys s'.blocks
  transactions : s.transactions.KeepsKeys s'.transactions
  receipts : s.receipts.KeepsKeys s'.receipts
  accounts : s.accounts.KeepsKeys s'.accounts
  contracts : s.contracts.KeepsKeys s'.contracts
  archives : s.archives.KeepsKeys s'.archives
  rewards : s.rewards.KeepsRows s'.rewards
  deltas : s.deltas.KeepsRows s'.deltas
  queue : s.queue.KeepsKeys s'.queue

namespace Extends

variable {s s' s'' : Store}

theorem refl (s : Store) : s.Extends s where
  blocks := .refl _
  transactions := .refl _
  receipts := .refl _
  accounts := .refl _
  contracts := .refl _
  archives := .refl _
  rewards := .refl _
  deltas := .refl _
  queue := .refl _

theorem trans (h : s.Extends s') (h' : s'.Extends s'') : s.Extends s'' where
  blocks := h.blocks.trans h'.blocks
  transactions := h.transactions.trans h'.transactions
  receipts := h.receipts.trans h'.receipts
  accounts := h.accounts.trans h'.accounts
  contracts := h.contracts.trans h'.contracts
  archives := h.archives.trans h'.archives
  rewards := h.rewards.trans h'.rewards
  deltas := h.deltas.trans h'.deltas
  queue := h.queue.trans h'.queue

end Extends

theorem extends_commit (s : Store) (rows : BlockRows) : s.Extends (s.commit rows) where
  blocks := (Table.keepsKeys_map _ _).trans (Table.keepsKeys_alter _ _ _)
  transactions := Table.keepsKeys_foldl_alter id (fun _ _ => rows.block.id.hash) _ _
  receipts := Table.keepsKeys_foldl_alter Receipt.txHash (fun r _ => r) _ _
  accounts := Table.keepsKeys_foldl_alter Account.address mergeAccount _ _
  contracts :=
    (Table.keepsKeys_foldl_alter ContractCreated.address (fun c _ => contractOfCreated c) _ _).trans
      (Table.keepsKeys_foldl_alter ClassifiedContract.address
        (fun c old => old.getD (contractOfClassified c)) _ _)
  archives := Table.keepsKeys_alter _ _ _
  rewards := Table.keepsRows_foldl_insertNew (fun r : Reward => (r.blockHash, r.hash)) id _ _
  deltas := Table.keepsRows_foldl_insertNew (fun d : BalanceDelta => (d.blockHash, d.index)) id _ _
  queue := (Table.keepsKeys_map _ _).trans (Table.keepsKeys_alter _ _ _)

theorem extends_recordStatus (s : Store) (entry : ImportEntry) : s.Extends (s.recordStatus entry) :=
  { Extends.refl s with queue := Table.keepsKeys_alter _ _ _ }

theorem extends_markReorg (s : Store) (ancestor : BlockId) (chainId : Nat) (now : Int) :
    s.Extends (s.markReorg ancestor chainId now) :=
  { Extends.refl s with
    blocks := Table.keepsKeys_map _ _
    queue := Table.keepsKeys_map _ _ }

theorem extends_perform (s : Store) (task : StoreTask) (now : Int) :
    s.Extends (s.perform task now).2 := by
  rcases perform_cases task now s with hsame | ⟨rows, _, hs⟩ | ⟨entry, _, hs⟩ | ⟨a, chain, _, hs⟩
  · rw [hsame]
    exact .refl s
  · exact hs ▸ extends_commit s rows
  · exact hs ▸ extends_recordStatus s entry
  · exact hs ▸ extends_markReorg s a chain now

theorem extends_performAll (s : Store) (tasks : List (StoreTask × Int)) :
    s.Extends (s.performAll tasks) := by
  refine rel_foldl (R := Extends) Extends.refl Extends.trans (fun s task => ?_) tasks s
  exact extends_perform s task.1 task.2

/-! ## First sightings -/

theorem min?_append_min? (xs ys : List Nat) : (xs.min?.toList ++ ys).min? = (xs ++ ys).min? := by
  cases xs with
  | nil => rfl
  | cons x xs =>
      change some (ys.foldl min (xs.foldl min x)) = some ((xs ++ ys).foldl min x)
      rw [List.foldl_append]

theorem min?_of_perm {xs ys : List Nat} (h : xs.Perm ys) : xs.min? = ys.min? := by
  apply Option.ext
  intro a
  simp only [List.min?_eq_some_iff, h.mem_iff]

def firstSeen? (s : Store) (address : Address) : Option Nat :=
  (s.accounts.get? address).map Account.firstSeenBlock

theorem firstSeenBlock_foldl_merge (seen : List Account) (old : Option Account) :
    (seen.foldl (fun old a => some (mergeAccount a old)) old).map Account.firstSeenBlock =
      ((old.map Account.firstSeenBlock).toList ++ seen.map Account.firstSeenBlock).min? := by
  induction seen generalizing old with
  | nil => cases old <;> rfl
  | cons a seen ih =>
      rw [List.foldl_cons, ih]
      cases old <;> rfl

/-- The heights at which the account rows of an address say it was seen. -/
def sightings (rows : List Account) (address : Address) : List Nat :=
  (rows.filter fun a => a.address = address).map Account.firstSeenBlock

theorem firstSeen?_commit (s : Store) (rows : BlockRows) (address : Address) :
    (s.commit rows).firstSeen? address =
      ((s.firstSeen? address).toList ++ sightings rows.accounts address).min? := by
  have hrow := Table.rowwise_foldl_alter Account.address mergeAccount rows.accounts s.accounts address
  have hget : (s.commit rows).accounts.get? address = _ := hrow
  rw [firstSeen?, hget, firstSeenBlock_foldl_merge]
  rfl

def committedRows (tasks : List (StoreTask × Int)) : List BlockRows :=
  tasks.filterMap fun task =>
    match task.1 with
    | .commit rows => some rows
    | _ => none

def committedAccounts (tasks : List (StoreTask × Int)) : List Account :=
  (committedRows tasks).flatMap BlockRows.accounts

theorem firstSeen?_perform (s : Store) (task : StoreTask × Int) (address : Address) :
    (s.perform task.1 task.2).2.firstSeen? address =
      ((s.firstSeen? address).toList ++ sightings (committedAccounts [task]) address).min? := by
  have hkept : s.firstSeen? address = ((s.firstSeen? address).toList ++ []).min? := by
    cases s.firstSeen? address <;> rfl
  obtain ⟨task, now⟩ := task
  cases task with
  | commit rows =>
      have hrows : committedAccounts [(.commit rows, now)] = rows.accounts := List.append_nil _
      rw [hrows]
      exact firstSeen?_commit s rows address
  | _ => exact hkept

theorem committedAccounts_append (tasks later : List (StoreTask × Int)) :
    committedAccounts (tasks ++ later) = committedAccounts tasks ++ committedAccounts later := by
  simp only [committedAccounts, committedRows, List.filterMap_append, List.flatMap_append]

theorem sightings_append (rows rows' : List Account) (address : Address) :
    sightings (rows ++ rows') address = sightings rows address ++ sightings rows' address := by
  simp only [sightings, List.filter_append, List.map_append]

theorem firstSeen?_performAll (tasks : List (StoreTask × Int)) (address : Address) :
    (empty.performAll tasks).firstSeen? address =
      (sightings (committedAccounts tasks) address).min? := by
  induction tasks using List.reverseRecOn with
  | nil => rfl
  | append_singleton tasks last ih =>
      rw [performAll_append, committedAccounts_append, sightings_append, ← min?_append_min?, ← ih]
      exact firstSeen?_perform _ last address

/-! ## The whole history -/

/-- Whatever is asked of a store, nothing of its history goes: the keys of blocks, transactions,
receipts, accounts, contracts, archives, rewards, changes and import rows stay in use, and rewards
and changes stay as they were written.  An account's first height is the lowest that any committed
block, on whatever branch, gave for it, in whatever order the blocks were committed. -/
theorem append_only_performAll (tasks later : List (StoreTask × Int)) :
    let s := empty.performAll tasks
    s.Extends (s.performAll later) ∧
      (∀ address, s.firstSeen? address = (sightings (committedAccounts tasks) address).min?) ∧
      ∀ reordered, (committedRows reordered).Perm (committedRows tasks) →
        ∀ address, (empty.performAll reordered).firstSeen? address = s.firstSeen? address := by
  refine ⟨extends_performAll _ later, firstSeen?_performAll tasks, ?_⟩
  intro reordered hperm address
  rw [firstSeen?_performAll, firstSeen?_performAll]
  exact min?_of_perm (((hperm.flatMap_right _).filter _).map _)

/-! Two branches tell of an account, the one that stays of the higher height only. -/

def seenAt (number : Nat) (hash parentHash : Hash) : BlockRows :=
  { bareRows (plainBlock number hash parentHash) with accounts := [⟨⟨7⟩, number, none⟩] }

def branchTasks : List (StoreTask × Int) :=
  [(.commit (seenAt 1 ⟨1⟩ ⟨0⟩), 1), (.commit (seenAt 2 ⟨2⟩ ⟨1⟩), 2)]

def switchTasks : List (StoreTask × Int) :=
  [(.markReorg ⟨0, ⟨0⟩⟩ 1, 3), (.commit (bareRows (plainBlock 1 ⟨3⟩ ⟨0⟩)), 4),
    (.commit (seenAt 2 ⟨4⟩ ⟨3⟩), 5)]

theorem append_only_performAll_switch :
    (committedRows branchTasks.reverse).Perm (committedRows branchTasks) ∧
      (empty.performAll branchTasks.reverse).firstSeen? ⟨7⟩ = some 1 ∧
      (empty.performAll (branchTasks ++ switchTasks)).firstSeen? ⟨7⟩ = some 1 ∧
      ((empty.performAll branchTasks).performAll switchTasks).isCanonical? ⟨1⟩ = some false ∧
      (empty.performAll branchTasks).blocks.KeepsKeys
        ((empty.performAll branchTasks).performAll switchTasks).blocks := by
  have hperm : (committedRows branchTasks.reverse).Perm (committedRows branchTasks) :=
    (List.reverse_perm branchTasks).filterMap _
  obtain ⟨hextends, hfirst, hreordered⟩ := append_only_performAll branchTasks switchTasks
  obtain ⟨_, hswitched, _⟩ := append_only_performAll (branchTasks ++ switchTasks) []
  have hone : (sightings (committedAccounts branchTasks) ⟨7⟩).min? = some 1 := by decide +kernel
  have hone' : (sightings (committedAccounts (branchTasks ++ switchTasks)) ⟨7⟩).min? = some 1 := by
    decide +kernel
  refine ⟨hperm, ?_, (hswitched _).trans hone', by decide +kernel, hextends.blocks⟩
  exact (hreordered _ hperm _).trans ((hfirst _).trans hone)

end ChainIngest.Store
