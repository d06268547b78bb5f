import Mathlib.Data.List.Induction
import Mathlib.Tactic.SplitIfs
import ChainIngest.Proofs.Tables
import ChainIngest.Store.Write
/-!
# Committing again

What a commit leaves under a key depends on the key and on the row that was there,
whatever else the table holds.  A row that a commit has settled it settles the same way
again, so a commit that is repeated because its answer got lost changes nothing.
-/

namespace ChainIngest.Store

/-! ## Changes row by row -/

namespace Table

variable {κ ν : Type} [Key κ] {f f' : Table κ ν → Table κ ν} {g g' : κ → Option ν → Option ν}

/-- The row of a key is settled by the key and by the row that was there. -/
def Rowwise (f : Table κ ν → Table κ ν) (g : κ → Option ν → Option ν) : Prop :=
  ∀ t q, (f t).get? q = g q (t.get? q)

theorem Rowwise.comp (hf : Rowwise f g) (hf' : Rowwise f' g') :
    Rowwise (fun t => f' (f t)) (fun q old => g' q (g q old)) := by
  intro t q
  rw [hf', hf]

theorem Rowwise.apply_apply (hf : Rowwise f g) (hg : ∀ q old, g q (g q old) = g q old)
    (t : Table κ ν) : f (f t) = f t := by
  apply ext_get?
  intro q
  rw [hf, hf, hg]

theorem rowwise_map (h : κ → ν → ν) :
    Rowwise (fun t : Table κ ν => t.map h) (fun q old => old.map (h q)) :=
  fun t q => get?_map t h q

theorem rowwise_filterKeys (keep : κ → Bool) :
    Rowwise (fun t : Table κ ν => t.filterKeys keep) (fun q old => if keep q then old else none) :=
  fun t q => get?_filterKeys t keep q

theorem rowwise_insert [DecidableEq κ] (key : κ) (row : ν) :
    Rowwise (fun t : Table κ ν => t.insert key row)
      (fun q old => if key = q then some row else old) := by
  intro t q
  by_cases hq : key = q
  · subst hq
    simp
  · simp only [get?_insert_of_ne _ _ hq, if_neg hq]

theorem rowwise_foldl_insert [DecidableEq κ] {α : Type} (key : α → κ) (row : α → ν)
    (xs : List α) :
    Rowwise (fun t : Table κ ν => xs.foldl (fun t x => t.insert (key x) (row x)) t)
      (fun q old => ((lastUnder key xs q).map row).or old) :=
  fun t q => get?_foldl_insert key row xs t q

theorem rowwise_foldl_insertNew [DecidableEq κ] {α : Type} (key : α → κ) (row : α → ν)
    (xs : List α) :
    Rowwise (fun t : Table κ ν => xs.foldl (fun t x => t.insertNew (key x) (row x)) t)
      (fun q old => old.or ((xs.find? fun x => key x = q).map row)) :=
  fun t q => get?_foldl_insertNew key row xs t q

/-- Rows written one after the other into what is there: those of one key in their order. -/
theorem rowwise_foldl_alter [DecidableEq κ] {α : Type} (key : α → κ) (row : α → Option ν → ν)
    (xs : List α) :
    Rowwise (fun t : Table κ ν => xs.foldl (fun t x => t.alter (key x) (row x)) t)
      (fun q old => (xs.filter fun x => key x = q).foldl (fun old x => some (row x old)) old) := by
  intro t q
  induction xs generalizing t with
  | nil => rfl
  | cons x xs ih =>
      have hrest := ih (t.alter (key x) (row x))
      by_cases hq : key x = q
      · subst hq
        simpa using hrest
      · simpa [hq, get?_alter_of_ne _ _ hq] using hrest

end Table

/-! ## Writes that override themselves -/

section Override

variable {α β : Type} {f : β → α → β}

/-- A step that comes again later need not have been taken before. -/
theorem foldl_override (hself : ∀ b x, f (f b x) x = f b x)
    (hlast : ∀ b x y, f (f (f b x) y) x = f (f b y) x) (xs : List α) (b : β) (x : α) :
    f (xs.foldl f (f b x)) x = f (xs.foldl f b) x := by
  induction xs generalizing b with
  | nil => exact hself b x
  | cons y xs ih =>
      calc f (xs.foldl f (f (f b x) y)) x
          = f (xs.foldl f (f (f (f b x) y) x)) x := (ih _).symm
        _ = f (xs.foldl f (f (f b y) x)) x := by rw [hlast]
        _ = f (xs.foldl f (f b y)) x := ih _

theorem foldl_foldl (hself : ∀ b x, f (f b x) x = f b x)
    (hlast : ∀ b x y, f (f (f b x) y) x = f (f b y) x) (xs : List α) (b : β) :
    xs.foldl f (xs.foldl f b) = xs.foldl f b := by
  induction xs using List.reverseRecOn generalizing b with
  | nil => rfl
  | append_singleton xs x ih =>
      simp only [List.foldl_append, List.foldl_cons, List.foldl_nil]
      rw [foldl_override hself hlast, ih]

end Override

/-! ## Accounts -/

theorem mergeAccount_self (a : Account) : mergeAccount a (some a) = a := by
  cases a
  simp [mergeAccount]

theorem mergeAccount_again (seen : Account) (stored : Account) :
    mergeAccount seen (some (mergeAccount seen (some stored))) =
      mergeAccount seen (some stored) := by
  cases hdestroyed : seen.destroyedBlock <;> simp [mergeAccount, hdestroyed]

theorem mergeAccount_last (seen between stored : Account) :
    mergeAccount seen (some (mergeAccount between (some (mergeAccount seen (some stored))))) =
      mergeAccount seen (some (mergeAccount between (some stored))) := by
  have hlower := Nat.min_comm seen.firstSeenBlock between.firstSeenBlock
  cases hdestroyed : seen.destroyedBlock <;> simp [mergeAccount, hdestroyed, hlower]

/-- Accounts taken in twice are taken in once. -/
theorem foldl_mergeAccount_foldl (seen : List Account) (stored : Option Account) :
    let merge := fun (old : Option Account) a => some (mergeAccount a old)
    seen.foldl merge (seen.foldl merge stored) = seen.foldl merge stored := by
  intro merge
  have hsome : ∀ (xs : List Account) a,
      xs.foldl merge (some a) = some (xs.foldl (fun b x => mergeAccount x (some b)) a) := by
    intro xs a
    exact List.foldl_hom some (fun _ _ => rfl)
  have hstored : ∀ (xs : List Account) a,
      xs.foldl merge (xs.foldl merge (some a)) = xs.foldl merge (some a) := by
    intro xs a
    rw [hsome, hsome, foldl_foldl (fun b x => mergeAccount_again x b)
      (fun b x y => mergeAccount_last x y b)]
  cases stored with
  | some a => exact hstored seen a
  | none =>
      cases seen with
      | nil => rfl
      | cons a rest =>
          -- the first row of a new account could as well have been there before
          have hfirst : (a :: rest).foldl merge none = (a :: rest).foldl merge (some a) := by
            simp only [List.foldl_cons, merge, mergeAccount_self]
            rfl
          rw [hfirst, hstored]

/-! ## Tables of a commit -/

theorem demoteBlocks_insert_again (t : Table Hash StoredBlock) (block : BlockId)
    (row : StoredBlock) :
    let write := fun t => (demoteBlocks t block).insert block.hash row
    write (write t) = write t := by
  refine ((Table.rowwise_map _).comp (Table.rowwise_insert block.hash row)).apply_apply ?_ t
  intro q old
  by_cases hq : block.hash = q
  · simp only [if_pos hq]
  · simp only [if_neg hq, Option.map_map]
    congr 1
    funext stored
    simp only [Function.comp_apply]
    split_ifs <;> simp_all

theorem demoteEntries_insert_again (t : Table (Nat × Hash) ImportEntry) (block : BlockId)
    (entry : ImportEntry) :
    let write := fun t => (demoteEntries t block).insert (entry.number, entry.hash) entry
    write (write t) = write t := by
  refine ((Table.rowwise_map _).comp
    (Table.rowwise_insert (entry.number, entry.hash) entry)).apply_apply ?_ t
  intro q old
  by_cases hq : (entry.number, entry.hash) = q
  · simp only [if_pos hq]
  · simp only [if_neg hq, Option.map_map]
    congr 1
    funext stored
    simp only [Function.comp_apply]
    split_ifs <;> rfl

theorem foldl_insert_again {κ ν α : Type} [Key κ] [DecidableEq κ] (key : α → κ) (row : α → ν)
    (xs : List α) (t : Table κ ν) :
    let write := fun t : Table κ ν => xs.foldl (fun t x => t.insert (key x) (row x)) t
    write (write t) = write t := by
  refine (Table.rowwise_foldl_insert key row xs).apply_apply ?_ t
  intro q old
  rw [← Option.or_assoc, Option.or_self]

theorem foldl_insertNew_again {κ ν α : Type} [Key κ] [DecidableEq κ] (key : α → κ)
    (row : α → ν) (xs : List α) (t : Table κ ν) :
    let write := fun t : Table κ ν => xs.foldl (fun t x => t.insertNew (key x) (row x)) t
    write (write t) = write t := by
  refine (Table.rowwise_foldl_insertNew key row xs).apply_apply ?_ t
  intro q old
  rw [Option.or_assoc, Option.or_self]

theorem foldl_accounts_again (seen : List Account) (t : Table Address Account) :
    let write := fun t : Table Address Account =>
      seen.foldl (fun t a => t.alter a.address (mergeAccount a)) t
    write (write t) = write t := by
  refine (Table.rowwise_foldl_alter Account.address mergeAccount seen).apply_apply ?_ t
  intro q old
  exact foldl_mergeAccount_foldl _ old

/-- Created contracts replace what is there, and only then do classified ones fill the gaps. -/
theorem contracts_again (created : List ContractCreated) (classified : List ClassifiedContract)
    (t : Table Address StoredContract) :
    let write := fun t : Table Address StoredContract =>
      classified.foldl (fun t c => t.insertNew c.address (contractOfClassified c))
        (created.foldl (fun t c => t.insert c.address (contractOfCreated c)) t)
    write (write t) = write t := by
  refine ((Table.rowwise_foldl_insert ContractCreated.address contractOfCreated created).comp
    (Table.rowwise_foldl_insertNew ClassifiedContract.address contractOfClassified
      classified)).apply_apply ?_ t
  intro q old
  rw [← Option.or_assoc, ← Option.or_assoc, Option.or_self, Option.or_assoc, Option.or_self]

theorem refile_again {ν : Type} (txs : List Hash) (key : ν → Hash × UInt32) (rows : List ν)
    (t : Table (Hash × UInt32) ν) :
    refile (refile t txs key rows) txs key rows = refile t txs key rows := by
  refine ((Table.rowwise_filterKeys _).comp
    (Table.rowwise_foldl_insert key id rows)).apply_apply ?_ t
  intro q old
  cases Table.lastUnder key rows q with
  | some row => rfl
  | none =>
      simp only [Option.map_none, Option.none_or]
      split_ifs <;> rfl

/-! ## A whole commit -/

/-- A block that is committed again leaves the store as the first commit left it. -/
theorem commit_commit (s : Store) (rows : BlockRows) :
    (s.commit rows).commit rows = s.commit rows := by
  unfold commit
  simp only [Store.mk.injEq]
  refine ⟨demoteBlocks_insert_again .., foldl_insert_again .., foldl_insert_again ..,
    foldl_accounts_again .., refile_again .., contracts_again .., refile_again .., ?_,
    refile_again .., refile_again .., foldl_insertNew_again .., foldl_insertNew_again ..,
    demoteEntries_insert_again .., ?_⟩
  · exact Table.insert_insert ..
  · exact Table.insert_insert ..

end ChainIngest.Store
