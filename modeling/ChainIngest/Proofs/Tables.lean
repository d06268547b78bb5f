import Mathlib.Data.List.Nodup
import ChainIngest.Store.Table
/-!
# Tables through their look-ups

A table is determined by what it answers to each key, so every operation is
described by the look-ups of its result.  Nothing below this interface needs to
know how entries are kept.
-/

namespace ChainIngest.Store

variable {κ ν : Type} [Key κ]

namespace Entries

theorem mem_iff_get? {es : Entries κ ν} (h : es.Ordered) (key : κ) (row : ν) :
    (key, row) ∈ es ↔ es.get? key = some row := by
  induction es with
  | nil => simp [get?]
  | cons x rest ih =>
      obtain ⟨k, v⟩ := x
      obtain ⟨hhead, htail⟩ := List.pairwise_cons.mp h
      simp only [List.mem_cons, Prod.mk.injEq, get?]
      by_cases hk : Key.rank k = Key.rank key
      · obtain rfl := Key.rank_inj hk
        have habsent : (k, row) ∉ rest := by
          intro hmem
          have hlt := hhead (k, row) hmem
          exact Nat.lt_irrefl _ hlt
        rw [if_pos rfl]
        simp [habsent, eq_comm]
      · have hne : key ≠ k := fun hkey => hk (by rw [hkey])
        rw [if_neg hk, ← ih htail]
        simp [hne]

theorem get?_map (es : Entries κ ν) (f : κ → ν → ν) (key : κ) :
    get? (List.map (fun e : κ × ν => (e.1, f e.1 e.2)) es) key = (es.get? key).map (f key) := by
  induction es with
  | nil => rfl
  | cons x rest ih =>
      obtain ⟨k, v⟩ := x
      simp only [List.map_cons, get?, ih]
      split
      · next hk => rw [Key.rank_inj hk, Option.map_some]
      · rfl

theorem get?_filter {es : Entries κ ν} (h : es.Ordered) (keep : κ → Bool) (key : κ) :
    get? (es.filter fun e => keep e.1) key = if keep key then es.get? key else none := by
  have hordered : Ordered (es.filter fun e => keep e.1) := List.Pairwise.filter _ h
  apply Option.ext
  intro row
  rw [← mem_iff_get? hordered, List.mem_filter]
  split
  · next hkeep => simp [hkeep, mem_iff_get? h]
  · next hkeep => simp [hkeep]

theorem nodup_of_ordered {es : Entries κ ν} (h : es.Ordered) : List.Nodup es := by
  apply List.Pairwise.imp _ h
  intro a b hlt heq
  rw [heq] at hlt
  exact Nat.lt_irrefl _ hlt

theorem ext_get? {es fs : Entries κ ν} (he : es.Ordered) (hf : fs.Ordered)
    (h : ∀ key, es.get? key = fs.get? key) : es = fs := by
  have hperm : es.Perm fs := by
    apply (List.perm_ext_iff_of_nodup (nodup_of_ordered he) (nodup_of_ordered hf)).mpr
    intro e
    rw [mem_iff_get? he e.1 e.2, mem_iff_get? hf e.1 e.2, h]
  apply hperm.eq_of_pairwise _ he hf
  intro a b _ _ hab hba
  exact absurd hab (Nat.lt_asymm hba)

end Entries

namespace Table

/-! ## Look-ups -/

theorem mem_entries_iff {t : Table κ ν} {key : κ} {row : ν} :
    (key, row) ∈ t.entries ↔ t.get? key = some row :=
  Entries.mem_iff_get? t.ordered key row

theorem mem_rows_iff {t : Table κ ν} {row : ν} :
    row ∈ t.rows ↔ ∃ key, t.get? key = some row := by
  simp only [rows, List.mem_map, Prod.exists, exists_eq_right, mem_entries_iff]

theorem rows_map (t : Table κ ν) (f : ν → ν) : (t.map fun _ => f).rows = t.rows.map f := by
  rw [rows, rows, map, List.map_map, List.map_map]
  rfl

theorem nodup_map_filter_rows {β : Type} {t : Table κ ν} {wanted : ν → Bool} {f : ν → β}
    (h : ∀ {key key' row row'}, t.get? key = some row → t.get? key' = some row' →
      wanted row = true → wanted row' = true → f row = f row' → key = key') :
    ((t.rows.filter wanted).map f).Nodup := by
  unfold rows
  rw [List.filter_map, List.map_map]
  refine List.Nodup.map_on ?_ ((Entries.nodup_of_ordered t.ordered).filter _)
  rintro ⟨key, row⟩ hentry ⟨key', row'⟩ hentry' hsame
  obtain ⟨hentry, hwanted⟩ := List.mem_filter.mp hentry
  obtain ⟨hentry', hwanted'⟩ := List.mem_filter.mp hentry'
  have hget := mem_entries_iff.mp hentry
  have hget' := mem_entries_iff.mp hentry'
  obtain rfl := h hget hget' hwanted hwanted' hsame
  obtain rfl := Option.some.inj (hget.symm.trans hget')
  rfl

theorem ext_get? {t u : Table κ ν} (h : ∀ key, t.get? key = u.get? key) : t = u := by
  obtain ⟨es, he⟩ := t
  obtain ⟨fs, hf⟩ := u
  obtain rfl := Entries.ext_get? he hf h
  rfl

@[simp] theorem get?_alter_self (t : Table κ ν) (key : κ) (f : Option ν → ν) :
    (t.alter key f).get? key = some (f (t.get? key)) := by
  rw [get?_alter, if_pos rfl]

theorem get?_alter_of_ne (t : Table κ ν) {key q : κ} (f : Option ν → ν) (h : key ≠ q) :
    (t.alter key f).get? q = t.get? q := by
  rw [get?_alter, if_neg fun hrank => h (Key.rank_inj hrank)]

@[simp] theorem get?_insert_self (t : Table κ ν) (key : κ) (row : ν) :
    (t.insert key row).get? key = some row :=
  get?_alter_self t key _

theorem get?_insert_of_ne (t : Table κ ν) {key q : κ} (row : ν) (h : key ≠ q) :
    (t.insert key row).get? q = t.get? q :=
  get?_alter_of_ne t _ h

@[simp] theorem get?_insertNew_self (t : Table κ ν) (key : κ) (row : ν) :
    (t.insertNew key row).get? key = some ((t.get? key).getD row) :=
  get?_alter_self t key _

theorem get?_insertNew_of_ne (t : Table κ ν) {key q : κ} (row : ν) (h : key ≠ q) :
    (t.insertNew key row).get? q = t.get? q :=
  get?_alter_of_ne t _ h

@[simp] theorem get?_map (t : Table κ ν) (f : κ → ν → ν) (key : κ) :
    (t.map f).get? key = (t.get? key).map (f key) :=
  Entries.get?_map t.entries f key

theorem get?_filterKeys (t : Table κ ν) (keep : κ → Bool) (key : κ) :
    (t.filterKeys keep).get? key = if keep key then t.get? key else none :=
  Entries.get?_filter t.ordered keep key

theorem insert_insert (t : Table κ ν) (key : κ) (first last : ν) :
    (t.insert key first).insert key last = t.insert key last := by
  apply ext_get?
  intro q
  by_cases hq : key = q
  · subst hq
    simp
  · simp only [get?_insert_of_ne _ _ hq]

theorem get?_foldl_insertNew [DecidableEq κ] {α : Type} (key : α → κ) (row : α → ν) (xs : List α)
    (t : Table κ ν) (q : κ) :
    (xs.foldl (fun t x => t.insertNew (key x) (row x)) t).get? q =
      (t.get? q).or ((xs.find? fun x => key x = q).map row) := by
  induction xs generalizing t with
  | nil => simp
  | cons x xs ih =>
      rw [List.foldl_cons, ih]
      by_cases hq : key x = q
      · subst hq
        rw [get?_insertNew_self, List.find?_cons_of_pos (by simp)]
        cases t.get? (key x) <;> rfl
      · rw [get?_insertNew_of_ne _ _ hq, List.find?_cons_of_neg (by simpa using hq)]

def lastUnder {α : Type} [DecidableEq κ] (key : α → κ) (rows : List α) (q : κ) : Option α :=
  rows.reverse.find? fun row => key row = q

omit [Key κ] in
theorem lastUnder_cons {α : Type} [DecidableEq κ] (key : α → κ) (row : α) (rows : List α) (q : κ) :
    lastUnder key (row :: rows) q =
      (lastUnder key rows q).or (if key row = q then some row else none) := by
  rw [lastUnder, List.reverse_cons, List.find?_append]
  by_cases hq : key row = q
  · rw [if_pos hq, List.find?_cons_of_pos (by simpa using hq)]
    rfl
  · rw [if_neg hq, List.find?_cons_of_neg (by simpa using hq)]
    rfl

omit [Key κ] in
theorem lastUnder_eq_none_iff {α : Type} [DecidableEq κ] {key : α → κ} {rows : List α} {q : κ} :
    lastUnder key rows q = none ↔ ∀ row ∈ rows, key row ≠ q := by
  simp [lastUnder]

omit [Key κ] in
theorem of_lastUnder {α : Type} [DecidableEq κ] {key : α → κ} {rows : List α} {q : κ} {row : α}
    (h : lastUnder key rows q = some row) : row ∈ rows ∧ key row = q :=
  ⟨List.mem_reverse.mp (List.mem_of_find?_eq_some h), by simpa using List.find?_some h⟩

omit [Key κ] in
theorem exists_lastUnder {α : Type} [DecidableEq κ] (key : α → κ) {rows : List α} {q : κ}
    (h : ∃ row ∈ rows, key row = q) : ∃ row, lastUnder key rows q = some row := by
  obtain ⟨row, hrow, hq⟩ := h
  rw [← Option.isSome_iff_exists, lastUnder, List.find?_isSome]
  exact ⟨row, List.mem_reverse.mpr hrow, decide_eq_true hq⟩

/-- Rows written over what is there: of those under one key the last stays. -/
theorem get?_foldl_insert [DecidableEq κ] {α : Type} (key : α → κ) (row : α → ν) (xs : List α)
    (t : Table κ ν) (q : κ) :
    (xs.foldl (fun t x => t.insert (key x) (row x)) t).get? q =
      ((lastUnder key xs q).map row).or (t.get? q) := by
  induction xs generalizing t with
  | nil => rfl
  | cons x xs ih =>
      rw [List.foldl_cons, ih, lastUnder_cons]
      by_cases hq : key x = q
      · subst hq
        rw [get?_insert_self, if_pos rfl]
        cases lastUnder key xs (key x) <;> rfl
      · rw [get?_insert_of_ne _ _ hq, if_neg hq, Option.or_none]

end Table

end ChainIngest.Store
