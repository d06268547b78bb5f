import Mathlib.Data.Finset.Card
import ChainIngest.Proofs.Resolution
/-!
# The codes used last

The memory of detections keeps the codes that were used last, however hits, misses and
evictions followed each other.  So what it holds, and which call it answers by itself, is a
matter of the calls alone: between two uses of a code it must not have met as many other
codes as it has room for.
-/

namespace ChainIngest

namespace Metrics

/-! ## Counts -/

def count (c : Metrics) (m : Metric) : Nat := (c.get? m).getD 0

theorem count_add (c : Metrics) (m q : Metric) (amount : Nat) :
    (c.add m amount).count q = c.count q + if m = q then amount else 0 := by
  obtain ⟨counts⟩ := c
  unfold count get? add
  induction counts with
  | nil => by_cases hq : m = q <;> simp [addTo, hq]
  | cons entry rest ih =>
      obtain ⟨k, n⟩ := entry
      by_cases hk : k = m
      · subst hk
        by_cases hq : k = q <;> simp [addTo, hq]
      · by_cases hq : k = q
        · subst hq
          simp [addTo, hk, Ne.symm hk]
        · simpa [addTo, hk, hq] using ih

theorem count_addLookup (c : Metrics) (hit : Bool) :
    (c.addLookup hit).count .cacheHits = c.count .cacheHits + hit.toNat ∧
      (c.addLookup hit).count .cacheMisses = c.count .cacheMisses + (!hit).toNat := by
  rw [addLookup, count_add, count_add]
  cases hit <;> exact ⟨rfl, rfl⟩

end Metrics

namespace Capability

/-! ## Orders of use -/

section Recency

variable {α : Type} [DecidableEq α]

def lastFirst (uses : List α) : List α := uses.dedup.reverse

/-- Whether something was used, and since then fewer than `n` others. -/
def UsedWithin (n : Nat) (uses : List α) (a : α) : Prop :=
  ∃ before since, uses = before ++ a :: since ∧ a ∉ since ∧ since.toFinset.card < n

theorem nodup_lastFirst (uses : List α) : (lastFirst uses).Nodup :=
  List.nodup_reverse.mpr (List.nodup_dedup uses)

theorem mem_lastFirst {uses : List α} {a : α} : a ∈ lastFirst uses ↔ a ∈ uses := by
  rw [lastFirst, List.mem_reverse, List.mem_dedup]

theorem length_lastFirst (uses : List α) : (lastFirst uses).length = uses.toFinset.card := by
  rw [lastFirst, List.length_reverse, List.card_toFinset]

theorem lastFirst_concat (uses : List α) (a : α) :
    lastFirst (uses ++ [a]) = a :: (lastFirst uses).filter (· ≠ a) := by
  have hdedup : (uses ++ [a]).dedup = uses.dedup.filter (· ≠ a) ++ [a] := by
    induction uses with
    | nil => rfl
    | cons b uses ih =>
        rw [List.cons_append, List.dedup_cons, List.dedup_cons, ih]
        by_cases hb : b = a
        · subst hb
          by_cases hmem : b ∈ uses <;> simp [hmem]
        · by_cases hmem : b ∈ uses <;> simp [hmem, hb]
  rw [lastFirst, hdedup, List.reverse_append, List.reverse_singleton, List.singleton_append,
    ← List.filter_reverse]
  rfl

theorem lastFirst_eq_append (before : List α) {since : List α} {a : α} (h : a ∉ since) :
    ∃ older, lastFirst (before ++ a :: since) = lastFirst since ++ a :: older := by
  obtain ⟨front, hfront⟩ : (a :: since).dedup <:+ (before ++ a :: since).dedup := by
    rw [List.dedup_append]
    exact List.suffix_union_right _ _
  refine ⟨front.reverse, ?_⟩
  rw [List.dedup_cons_of_notMem h] at hfront
  rw [lastFirst, ← hfront]
  simp [lastFirst]

/-- Among the first `n` are those that were used with fewer than `n` others since. -/
theorem mem_take_lastFirst {uses : List α} {a : α} {n : Nat} :
    a ∈ (lastFirst uses).take n ↔ UsedWithin n uses a := by
  have hplace : ∀ before since : List α, a ∉ since →
      (a ∈ (lastFirst (before ++ a :: since)).take n ↔ since.toFinset.card < n) := by
    intro before since hsince
    obtain ⟨older, horder⟩ := lastFirst_eq_append before hsince
    have hfront : a ∉ (lastFirst since).take n := fun hmem =>
      hsince (mem_lastFirst.mp (List.mem_of_mem_take hmem))
    rw [horder, List.take_append, List.mem_append, or_iff_right hfront, ← length_lastFirst]
    rcases Nat.lt_or_ge (lastFirst since).length n with hlt | hge
    · obtain ⟨k, hk⟩ := Nat.exists_eq_succ_of_ne_zero (Nat.sub_ne_zero_of_lt hlt)
      simp [hlt, hk]
    · simp [Nat.sub_eq_zero_of_le hge, Nat.not_lt.mpr hge]
  constructor
  · intro hmem
    have hused : a ∈ uses.reverse :=
      List.mem_reverse.mpr (mem_lastFirst.mp (List.mem_of_mem_take hmem))
    -- the last use of all is the first from behind
    obtain ⟨front, behind, hsplit, hfront⟩ := List.eq_append_cons_of_mem hused
    have huses : uses = behind.reverse ++ a :: front.reverse := by
      rw [← List.reverse_reverse uses, hsplit]
      simp
    have hsince : a ∉ front.reverse := fun h => hfront (List.mem_reverse.mp h)
    rw [huses] at hmem
    exact ⟨behind.reverse, front.reverse, huses, hsince, (hplace _ _ hsince).mp hmem⟩
  · rintro ⟨before, since, rfl, hsince, hfew⟩
    exact (hplace before since hsince).mpr hfew

/-- What falls off the end is not missed among the first ones. -/
theorem take_filter_take {l : List α} (hl : l.Nodup) (a : α) (n : Nat) :
    ((l.take (n + 1)).filter (· ≠ a)).take n = (l.filter (· ≠ a)).take n := by
  induction l generalizing n with
  | nil => rfl
  | cons b l ih =>
      obtain ⟨hb, hl⟩ := List.nodup_cons.mp hl
      rw [List.take_succ_cons]
      by_cases heq : b = a
      · subst heq
        have hkept : ∀ x ∈ l, decide (x ≠ b) = true := by
          intro x hx
          exact decide_eq_true fun hsame => hb (hsame ▸ hx)
        rw [List.filter_cons_of_neg (by simp), List.filter_cons_of_neg (by simp),
          List.filter_eq_self.mpr hkept,
          List.filter_eq_self.mpr fun x hx => hkept x (List.mem_of_mem_take hx), List.take_take,
          Nat.min_self]
      · rw [List.filter_cons_of_pos (by simpa using heq),
          List.filter_cons_of_pos (by simpa using heq)]
        cases n with
        | zero => rfl
        | succ n => rw [List.take_succ_cons, List.take_succ_cons, ih hl]

end Recency

/-! ## What is remembered -/

namespace Cache

variable {capacity : Nat} {codes : List Bytes} {code : Bytes}

def entry (code : Bytes) : Hash × Capabilities := (keccak256 code, Capability.detect code)

/-- The memory that holds the codes used last, each with what it offers. -/
def after (capacity : Nat) (codes : List Bytes) : Cache :=
  ⟨max 1 capacity, ((lastFirst codes).take (max 1 capacity)).map entry⟩

theorem after_nil (capacity : Nat) : after capacity [] = .new capacity := by
  simp [after, lastFirst, new]

theorem size_after (capacity : Nat) (codes : List Bytes) :
    (after capacity codes).size = min (max 1 capacity) codes.toFinset.card := by
  rw [size, after, List.length_map, List.length_take, length_lastFirst]

theorem get?_after (capacity : Nat) (hhash : {x | x ∈ code :: codes}.InjOn keccak256) :
    (after capacity codes).get? (keccak256 code) =
      if code ∈ (lastFirst codes).take (max 1 capacity) then some (Capability.detect code)
      else none := by
  have hsame : ∀ x ∈ (lastFirst codes).take (max 1 capacity),
      (decide ((entry x).1 = keccak256 code) = decide (x = code)) := by
    intro x hx
    have hused : x ∈ codes := mem_lastFirst.mp (List.mem_of_mem_take hx)
    have hiff : keccak256 x = keccak256 code ↔ x = code :=
      hhash.eq_iff (List.mem_cons_of_mem _ hused) List.mem_cons_self
    exact decide_eq_decide.mpr hiff
  unfold get? after
  rw [List.find?_map]
  generalize (lastFirst codes).take (max 1 capacity) = held at hsame ⊢
  induction held with
  | nil => rfl
  | cons x held ih =>
      have hx := hsame x List.mem_cons_self
      have hrest := ih fun y hy => hsame y (List.mem_cons_of_mem _ hy)
      rw [List.find?_cons]
      simp only [Function.comp_apply, hx]
      by_cases heq : x = code
      · subst heq
        simp [entry]
      · simpa [heq, Ne.symm heq] using hrest

theorem use_after (hhash : {x | x ∈ code :: codes}.InjOn keccak256) :
    (after capacity codes).use (keccak256 code) (Capability.detect code) =
      after capacity (codes ++ [code]) := by
  obtain ⟨room, hroom⟩ : ∃ room, max 1 capacity = room + 1 :=
    Nat.exists_eq_succ_of_ne_zero (by omega)
  let held := (lastFirst codes).take (room + 1)
  have hothers : (held.map entry).filter (fun e => e.1 ≠ keccak256 code) =
      (held.filter (· ≠ code)).map entry := by
    rw [List.filter_map]
    congr 1
    refine List.filter_congr fun x hx => ?_
    have hused : x ∈ codes := mem_lastFirst.mp (List.mem_of_mem_take hx)
    have hiff : keccak256 x = keccak256 code ↔ x = code :=
      hhash.eq_iff (List.mem_cons_of_mem _ hused) List.mem_cons_self
    simp [entry, hiff]
  rw [use, after, after, hroom, hothers, lastFirst_concat, List.take_succ_cons,
    List.take_succ_cons, ← List.map_take, take_filter_take (nodup_lastFirst codes)]
  rfl

/-- Looking a code up: what is found is what the code offers, and it is found in the memory just if
the code is among those kept. -/
theorem detect_after (capacity : Nat) (hhash : {x | x ∈ code :: codes}.InjOn keccak256) :
    (after capacity codes).detect code =
      (⟨Capability.detect code, decide (code ∈ (lastFirst codes).take (max 1 capacity))⟩,
        after capacity (codes ++ [code])) := by
  have hfound := get?_after capacity hhash
  unfold detect
  dsimp only
  by_cases hheld : code ∈ (lastFirst codes).take (max 1 capacity)
  · rw [if_pos hheld] at hfound
    simp only [hfound, use_after hhash, hheld, decide_true]
  · rw [if_neg hheld] at hfound
    simp only [hfound, use_after hhash, hheld, decide_false]

end Cache

end Capability

/-! ## Calls in a session -/

namespace Importer.Session

open Capability (Cache UsedWithin lastFirst mem_take_lastFirst)

variable {σ : Type} {around : Surroundings σ} {deadline : Option Duration} {s : Session σ}
  {capacity : Nat} {codes : List Bytes} {code : Bytes}

def classifyAll (around : Surroundings σ) (deadline : Option Duration) (s : Session σ)
    (codes : List Bytes) : Session σ :=
  codes.foldl (fun s code => (s.answer around deadline (.classify code)).2) s

theorem classifyAll_concat (codes : List Bytes) (code : Bytes) :
    s.classifyAll around deadline (codes ++ [code]) =
      ((s.classifyAll around deadline codes).answer around deadline (.classify code)).2 := by
  rw [classifyAll, List.foldl_append]
  rfl

theorem cache_classifyAll (hfresh : s.cache = .new capacity)
    (hhash : {x | x ∈ codes}.InjOn keccak256) :
    (s.classifyAll around deadline codes).cache = .after capacity codes := by
  induction codes using List.reverseRecOn with
  | nil => exact hfresh.trans (Cache.after_nil capacity).symm
  | append_singleton codes code ih =>
      have hcodes : {x | x ∈ code :: codes}.InjOn keccak256 :=
        hhash.mono fun x hx => by simpa [or_comm] using hx
      have hbefore := ih (hhash.mono fun x hx => List.mem_append_left _ hx)
      rw [classifyAll_concat]
      change ((s.classifyAll around deadline codes).cache.detect code).2 = _
      rw [hbefore, Cache.detect_after capacity hcodes]

theorem count_classifyAll (around : Surroundings σ) (deadline : Option Duration) (s : Session σ)
    (codes : List Bytes) :
    (s.classifyAll around deadline codes).metrics.count .cacheHits +
        (s.classifyAll around deadline codes).metrics.count .cacheMisses =
      s.metrics.count .cacheHits + s.metrics.count .cacheMisses + codes.length := by
  induction codes generalizing s with
  | nil => rfl
  | cons code codes ih =>
      have hcall := Metrics.count_addLookup s.metrics (s.cache.detect code).1.hit
      have hrest := ih (s.answer around deadline (.classify code)).2
      change _ = (s.metrics.addLookup (s.cache.detect code).1.hit).count _ +
        (s.metrics.addLookup (s.cache.detect code).1.hit).count _ + codes.length at hrest
      rw [hcall.1, hcall.2] at hrest
      rw [List.length_cons]
      refine hrest.trans ?_
      cases (s.cache.detect code).1.hit <;> simp +arith

/-- Whatever codes were looked up before, in a memory of any capacity: a call answers what its code
offers.  Afterwards the memory holds just the codes used last, as many as there are and at most
its capacity, each with what it offers.  The call counts as a hit just if its code was used
before with fewer other codes since than the memory has room for, else as a miss, and no call
goes uncounted. -/
theorem classify_lru (around : Surroundings σ) (deadline : Option Duration) (s : Session σ)
    (capacity : Nat) (codes : List Bytes) (code : Bytes) (hfresh : s.cache = .new capacity)
    (hhash : {x | x ∈ code :: codes}.InjOn keccak256) :
    let before := s.classifyAll around deadline codes
    let reply := (before.answer around deadline (.classify code)).1
    let after := (before.answer around deadline (.classify code)).2
    let uses := codes ++ [code]
    reply = some (Capability.detect code) ∧
    (after.cache.entries = ((lastFirst uses).take (max 1 capacity)).map
        (fun used => (keccak256 used, Capability.detect used)) ∧
      after.cache.size = min (max 1 capacity) uses.toFinset.card ∧
      ∀ e, e ∈ after.cache.entries ↔ ∃ used, UsedWithin (max 1 capacity) uses used ∧
        e = (keccak256 used, Capability.detect used)) ∧
    ((UsedWithin (max 1 capacity) codes code →
        after.metrics.count .cacheHits = before.metrics.count .cacheHits + 1 ∧
          after.metrics.count .cacheMisses = before.metrics.count .cacheMisses) ∧
      (¬ UsedWithin (max 1 capacity) codes code →
        after.metrics.count .cacheHits = before.metrics.count .cacheHits ∧
          after.metrics.count .cacheMisses = before.metrics.count .cacheMisses + 1)) ∧
    after.metrics.count .cacheHits + after.metrics.count .cacheMisses =
      s.metrics.count .cacheHits + s.metrics.count .cacheMisses + uses.length := by
  intro before reply after uses
  have hbefore : before.cache = .after capacity codes :=
    cache_classifyAll hfresh (hhash.mono fun x hx => List.mem_cons_of_mem _ hx)
  have hdetect := Cache.detect_after capacity hhash
  rw [← hbefore] at hdetect
  have hcache : after.cache = .after capacity uses := congrArg Prod.snd hdetect
  have hhit : (before.cache.detect code).1.hit =
      decide (code ∈ (lastFirst codes).take (max 1 capacity)) :=
    congrArg (fun found => found.1.hit) hdetect
  have hcount := Metrics.count_addLookup before.metrics (before.cache.detect code).1.hit
  have hreply : reply = some (before.cache.detect code).1.found := rfl
  have hcounted : after.metrics = before.metrics.addLookup (before.cache.detect code).1.hit := rfl
  rw [← hcounted] at hcount
  refine ⟨by rw [hreply, hdetect], ⟨by rw [hcache]; rfl, ?_, ?_⟩,
    ⟨fun hused => ?_, fun hnot => ?_⟩, ?_⟩
  · rw [hcache, Cache.size_after]
  · intro e
    rw [hcache]
    simp only [Cache.after, List.mem_map, mem_take_lastFirst, Cache.entry, eq_comm]
  · rw [hhit, decide_eq_true (mem_take_lastFirst.mpr hused)] at hcount
    exact hcount
  · rw [hhit, decide_eq_false fun hheld => hnot (mem_take_lastFirst.mp hheld)] at hcount
    exact hcount
  · have hall := count_classifyAll around deadline s uses
    rw [classifyAll_concat] at hall
    exact hall

theorem keccak256_zero_ne_one : keccak256 [0] ≠ keccak256 [1] := by decide +kernel

/-- An importer without any capacity for detections, which leaves room for one. -/
def roomless : Session Store := start .empty { Config.standard with cacheCapacity := 0 } 0

/-- Two codes in turn drive each other out where there is room for one. -/
theorem classify_lru_alternating :
    roomless.cache = .new 0 ∧
      {x : Bytes | x ∈ ([[0], [0], [1]] : List Bytes)}.InjOn keccak256 ∧
      (let before := roomless.classifyAll (.plain [] false) none [[0], [1]]
      let after := (before.answer (.plain [] false) none (.classify [0])).2
      after.cache.entries = [(keccak256 [0], Capability.detect [0])] ∧
        after.metrics.count .cacheMisses = before.metrics.count .cacheMisses + 1) := by
  have hfresh : roomless.cache = .new 0 := rfl
  have hhash : {x : Bytes | x ∈ ([[0], [0], [1]] : List Bytes)}.InjOn keccak256 := by
    have htwo : ∀ x ∈ ([[0], [0], [1]] : List Bytes), x = [0] ∨ x = [1] := by decide
    intro a ha b hb hsame
    rcases htwo a ha with rfl | rfl <;> rcases htwo b hb with rfl | rfl
    · rfl
    · exact absurd hsame keccak256_zero_ne_one
    · exact absurd hsame.symm keccak256_zero_ne_one
    · rfl
  have hnot : ¬ UsedWithin (max 1 0) ([[0], [1]] : List Bytes) [0] := by
    rw [← mem_take_lastFirst]
    decide
  have hlast : (lastFirst ([[0], [1]] ++ [[0]] : List Bytes)).take (max 1 0) = [[0]] := by decide
  obtain ⟨_, ⟨hentries, _, _⟩, ⟨_, hmiss⟩, _⟩ :=
    classify_lru (.plain [] false) none roomless 0 [[0], [1]] [0] hfresh hhash
  rw [hlast, List.map_singleton] at hentries
  exact ⟨hfresh, hhash, hentries, (hmiss hnot).2⟩

end Importer.Session

end ChainIngest
