import ChainIngest.Proofs.CanonicalChain
import ChainIngest.Proofs.Transcripts
/-!
# Common ancestors

The search for the ancestor that a stored branch and the node's have in common goes
down the node's branch and looks at the stored one height by height.  What it finds is
told here without the search, by the line of a block's ancestors alone.
-/

namespace ChainIngest.Importer

variable {tree : BlockTree} {node : Conduct} {c : Config} {start number : Nat} {hash : Hash}
  {blocks : List Block} {head candidate ancestor : BlockId} {s : Store} {w w' : World}
  {log : List Said}

/-! ## Heights -/

/-- A difference of heights, refused where it would be below zero. -/
def difference (upper lower : Nat) : Except IngestError Nat :=
  if lower ≤ upper then .ok (upper - lower) else .error (.internal "negative difference")

theorem difference_of_le {upper lower : Nat} (h : lower ≤ upper) :
    difference upper lower = .ok (upper - lower) := if_pos h

/-- The search with every difference checked.  Below the height zero it does not go. -/
def findAncestorChecked (c : Config) (head : BlockId) : (number : Nat) → (hash : Hash) →
    Step BlockId
  | number, hash => do
    let stored ← Step.store (.canonicalBlock number)
    let depth ← Step.ofExcept (difference head.number number)
    if stored.all fun s => s.hash = hash then
      if c.maxReorgDepth < depth then throw (.reorgTooDeep head depth c.maxReorgDepth)
      else return ⟨number, hash⟩
    else if c.maxReorgDepth < depth + 1 then
      throw (.reorgTooDeep head (depth + 1) c.maxReorgDepth)
    else
      match number with
      | 0 => throw (.reorgTooDeep head (depth + 1) c.maxReorgDepth)
      | number + 1 => do
        let block ← callNode c (.block (.hash hash))
        findAncestorChecked c head number block.parentHash

/-- From no higher than the head no difference is below zero. -/
theorem findAncestorChecked_eq (h : number ≤ head.number) (hash : Hash) :
    findAncestorChecked c head number hash = findAncestor c head number hash := by
  induction number generalizing hash with
  | zero =>
      rw [findAncestorChecked, findAncestor_eq, difference_of_le h]
      rfl
  | succ below ih =>
      rw [findAncestorChecked, findAncestor_eq, difference_of_le h]
      have hbelow := ih (Nat.le_of_succ_le h)
      simp only [hbelow]
      rfl

/-! ## Ancestor lines -/

/-- The blocks from one down: itself, its parent, and so on as far as the tree holds them. -/
inductive Line (tree : BlockTree) : BlockId → BlockId → Prop where
  | here {id : BlockId} : Line tree id id
  | parent {number : Nat} {hash : Hash} {b : Block} {id : BlockId} : tree.Holds b → b.hash = hash →
      Line tree ⟨number, b.parentHash⟩ id → Line tree ⟨number + 1, hash⟩ id

namespace Line

variable {a b : BlockId} {block : Block}

theorem number_le (h : Line tree a b) : b.number ≤ a.number := by
  induction h with
  | here => exact Nat.le_refl _
  | parent _ _ _ ih => exact Nat.le_succ_of_le ih

theorem succ_iff (hheld : tree.Holds block) (hhash : block.hash = hash) :
    Line tree ⟨number + 1, hash⟩ a ↔
      a = ⟨number + 1, hash⟩ ∨ Line tree ⟨number, block.parentHash⟩ a := by
  constructor
  · intro h
    cases h with
    | here => exact .inl rfl
    | parent hheld' hhash' hline =>
        obtain rfl := tree.unique hheld hheld' (hhash.trans hhash'.symm)
        exact .inr hline
  · rintro (rfl | hline)
    · exact .here
    · exact .parent hheld hhash hline

theorem eq_of_number {id : BlockId} (ha : Line tree id a) (hb : Line tree id b)
    (hnumber : a.number = b.number) : a = b := by
  induction ha with
  | here =>
      cases hb with
      | here => rfl
      | @parent number _ _ _ _ _ hline =>
          have hle : b.number ≤ number := hline.number_le
          exact absurd (hnumber.trans_le hle) (Nat.not_succ_le_self number)
  | @parent number hash block a hheld hhash hline ih =>
      rcases (succ_iff hheld hhash).mp hb with rfl | hb
      · have hle : a.number ≤ number := hline.number_le
        exact absurd (hnumber.symm.trans_le hle) (Nat.not_succ_le_self number)
      · exact ih hb hnumber

end Line

/-- Where the ancestor line of a candidate meets the stored branch: at its highest canonical block.
Where none is canonical, just below the first height, or at the candidate if that is lower. -/
def Meets (tree : BlockTree) (s : Store) (start : Nat) (candidate a : BlockId) : Prop :=
  Line tree candidate a ∧
    ((a ∈ s.canonicalChain ∧
        ∀ b, Line tree candidate b → b ∈ s.canonicalChain → b.number ≤ a.number) ∨
      ((∀ b, Line tree candidate b → b ∉ s.canonicalChain) ∧
        if candidate.number < start then a = candidate else a.number + 1 = start))

namespace Meets

theorem unique {a b : BlockId} (ha : Meets tree s start candidate a)
    (hb : Meets tree s start candidate b) : a = b := by
  obtain ⟨hline, ⟨hchain, hhighest⟩ | ⟨hnone, hlow⟩⟩ := ha
  · obtain ⟨hline', ⟨hchain', hhighest'⟩ | ⟨hnone', _⟩⟩ := hb
    · exact hline.eq_of_number hline'
        (Nat.le_antisymm (hhighest' a hline hchain) (hhighest b hline' hchain'))
    · exact absurd hchain (hnone' a hline)
  · obtain ⟨hline', ⟨hchain', _⟩ | ⟨_, hlow'⟩⟩ := hb
    · exact absurd hchain' (hnone b hline')
    · split at hlow
      · next hbelow =>
        rw [if_pos hbelow] at hlow'
        exact hlow.trans hlow'.symm
      · next hbelow =>
        rw [if_neg hbelow] at hlow'
        exact hline.eq_of_number hline' (by omega)

theorem of_canonical (h : candidate ∈ s.canonicalChain) : Meets tree s start candidate candidate :=
  ⟨.here, .inl ⟨h, fun _ hline _ => hline.number_le⟩⟩

theorem of_low (hlow : candidate.number < start)
    (hchain : ∀ id ∈ s.canonicalChain, start ≤ id.number) :
    Meets tree s start candidate candidate := by
  refine ⟨.here, .inr ⟨fun b hline hb => ?_, ?_⟩⟩
  · have hle := hline.number_le
    have hge := hchain b hb
    omega
  · rw [if_pos hlow]

/-- From a candidate that is not canonical, at a stored height, the line goes on. -/
theorem succ_iff {block : Block} {a : BlockId} (hheld : tree.Holds block)
    (hhash : block.hash = hash) (hother : ⟨number + 1, hash⟩ ∉ s.canonicalChain)
    (hstart : start ≤ number + 1) :
    Meets tree s start ⟨number + 1, hash⟩ a ↔ Meets tree s start ⟨number, block.parentHash⟩ a := by
  have hline : ∀ {b}, Line tree ⟨number + 1, hash⟩ b ↔
      b = ⟨number + 1, hash⟩ ∨ Line tree ⟨number, block.parentHash⟩ b := Line.succ_iff hheld hhash
  -- on the chain it makes no difference whether the line begins one block higher
  have hsame : ∀ {b}, b ∈ s.canonicalChain →
      (Line tree ⟨number + 1, hash⟩ b ↔ Line tree ⟨number, block.parentHash⟩ b) := by
    intro b hb
    rw [hline, or_iff_right]
    rintro rfl
    exact hother hb
  have hnone : (∀ b, Line tree ⟨number + 1, hash⟩ b → b ∉ s.canonicalChain) ↔
      ∀ b, Line tree ⟨number, block.parentHash⟩ b → b ∉ s.canonicalChain := by
    constructor
    · exact fun h b hb hchain => h b ((hsame hchain).mpr hb) hchain
    · exact fun h b hb hchain => h b ((hsame hchain).mp hb) hchain
  constructor
  · rintro ⟨ha, ⟨hchain, hhighest⟩ | ⟨hoff, hlow⟩⟩
    · exact ⟨(hsame hchain).mp ha, .inl ⟨hchain, fun b hb hb' =>
        hhighest b ((hsame hb').mpr hb) hb'⟩⟩
    · rw [if_neg (Nat.not_lt.mpr hstart)] at hlow
      rcases hline.mp ha with rfl | ha
      · exact absurd hlow (by show number + 1 + 1 ≠ start; omega)
      · refine ⟨ha, .inr ⟨hnone.mp hoff, ?_⟩⟩
        split
        · next hbelow =>
          have hbelow : number < start := hbelow
          exact ha.eq_of_number .here (by show a.number = number; omega)
        · exact hlow
  · rintro ⟨ha, ⟨hchain, hhighest⟩ | ⟨hoff, hlow⟩⟩
    · exact ⟨(hsame hchain).mpr ha, .inl ⟨hchain, fun b hb hb' =>
        hhighest b ((hsame hb').mp hb) hb'⟩⟩
    · refine ⟨hline.mpr (.inr ha), .inr ⟨hnone.mpr hoff, ?_⟩⟩
      rw [if_neg (Nat.not_lt.mpr hstart)]
      split at hlow
      · next hbelow =>
        have hbelow : number < start := hbelow
        rw [hlow]
        show number + 1 = start
        omega
      · exact hlow

theorem number_lt {a : BlockId} (h : Meets tree s start candidate a)
    (hother : candidate ∉ s.canonicalChain) (hstart : start ≤ candidate.number) :
    a.number < candidate.number := by
  obtain ⟨hline, ⟨hchain, _⟩ | ⟨_, hlow⟩⟩ := h
  · apply Nat.lt_of_le_of_ne hline.number_le
    intro hnumber
    rw [hline.eq_of_number .here hnumber] at hchain
    exact hother hchain
  · rw [if_neg (Nat.not_lt.mpr hstart)] at hlow
    omega

/-- At the height zero there is nothing to go on to. -/
theorem not_zero {a : BlockId} (hother : ⟨0, hash⟩ ∉ s.canonicalChain) :
    ¬ Meets tree s 0 ⟨0, hash⟩ a := by
  rintro ⟨hline, ⟨hchain, _⟩ | ⟨_, hlow⟩⟩
  · cases hline
    exact hother hchain
  · rw [if_neg (Nat.lt_irrefl 0)] at hlow
    exact Nat.succ_ne_zero _ hlow

end Meets

/-! ## The search -/

/-- What can become of a search: it finds where the line meets the branch, or that this is too
deep, or the node fails when it is asked for a block of the line. -/
inductive Finding (tree : BlockTree) (node : Conduct) (c : Config) (s : Store) (start : Nat)
    (head candidate : BlockId) : Except IngestError BlockId → Prop where
  | found {a : BlockId} : Meets tree s start candidate a →
      head.number - a.number ≤ c.maxReorgDepth → Finding tree node c s start head candidate (.ok a)
  | tooDeep {depth : Nat} :
      (∀ a, Meets tree s start candidate a → c.maxReorgDepth < head.number - a.number) →
      Finding tree node c s start head candidate (.error (.reorgTooDeep head depth c.maxReorgDepth))
  | failed {number : Nat} {hash : Hash} {e : NodeError} {focus : Option Hash} :
      Line tree candidate ⟨number, hash⟩ → start ≤ number →
      node focus (.block (.hash hash)) (.error e) →
      Finding tree node c s start head candidate (.error (.node e))

/-- Calls for some blocks by their hashes, each repeated as often as permitted. -/
structure AsksFor (c : Config) (asked : List Hash) (calls : List NodeCall) : Prop where
  blocks : ∀ call ∈ calls, ∃ hash ∈ asked, call = .block (.hash hash)
  length_le : calls.length ≤ asked.length * (c.nodeRetries + 1)

/-- What becomes of the search at the parent becomes of it at a candidate that is not canonical. -/
theorem Finding.of_parent {block : Block} {r : Except IngestError BlockId}
    (hheld : tree.Holds block) (hhash : block.hash = hash)
    (hother : ⟨number + 1, hash⟩ ∉ s.canonicalChain) (hstart : start ≤ number + 1)
    (h : Finding tree node c s start head ⟨number, block.parentHash⟩ r) :
    Finding tree node c s start head ⟨number + 1, hash⟩ r := by
  cases h with
  | found hmeets hdepth =>
      exact .found ((Meets.succ_iff hheld hhash hother hstart).mpr hmeets) hdepth
  | tooDeep hdeep =>
      exact .tooDeep fun a ha => hdeep a ((Meets.succ_iff hheld hhash hother hstart).mp ha)
  | failed hline hlow hreply => exact .failed (.parent hheld hhash hline) hlow hreply

theorem AsksFor.nil (c : Config) : AsksFor c [] [] :=
  ⟨fun _ hnil => (List.not_mem_nil hnil).elim, Nat.zero_le _⟩

theorem AsksFor.cons {asked : List Hash} {calls : List NodeCall} {n : Nat} (hash : Hash)
    (h : AsksFor c asked calls) (hn : n ≤ c.nodeRetries + 1) :
    AsksFor c (hash :: asked) (List.replicate n (.block (.hash hash)) ++ calls) where
  blocks call hcall := by
    rcases List.mem_append.mp hcall with hcall | hcall
    · exact ⟨hash, List.mem_cons_self, List.eq_of_mem_replicate hcall⟩
    · obtain ⟨other, hother, hblock⟩ := h.blocks call hcall
      exact ⟨other, List.mem_cons_of_mem _ hother, hblock⟩
  length_le := by
    have hrest := h.length_le
    rw [List.length_append, List.length_replicate, List.length_cons, Nat.succ_mul]
    omega

theorem mem_canonicalChain_iff (hstacked : Stacked start blocks)
    (hblocks : s.canonicalBlocks.Perm blocks) {id : BlockId} :
    id ∈ s.canonicalChain ↔ s.canonicalBlock? id.number = some id := by
  rw [hstacked.canonicalBlock?_eq_some hblocks, mem_canonicalChain]
  constructor
  · rintro ⟨b, hb, rfl⟩
    exact ⟨b, hblocks.mem_iff.mp hb, rfl, rfl⟩
  · rintro ⟨b, hb, _, hid⟩
    exact ⟨b, hblocks.mem_iff.mpr hb, hid⟩

theorem start_le_of_canonical (hstacked : Stacked start blocks)
    (hblocks : s.canonicalBlocks.Perm blocks) {stored : BlockId}
    (hstored : s.canonicalBlock? number = some stored) : start ≤ number := by
  obtain ⟨b, hb, rfl, _⟩ := (hstacked.canonicalBlock?_eq_some hblocks).mp hstored
  exact (hstacked.number_lt hb).1

/-- A candidate that no other canonical block stands beside. -/
theorem meets_of_no_other (hstacked : Stacked start blocks)
    (hblocks : s.canonicalBlocks.Perm blocks) (hhigh : candidate.number < start + blocks.length)
    (hhere : ∀ stored, s.canonicalBlock? candidate.number = some stored →
      stored.hash = candidate.hash) : Meets tree s start candidate candidate := by
  rcases Nat.lt_or_ge candidate.number start with hlow | hstart
  · refine .of_low hlow fun id hid => ?_
    exact start_le_of_canonical hstacked hblocks ((mem_canonicalChain_iff hstacked hblocks).mp hid)
  · obtain ⟨b, hb, hnumber⟩ := hstacked.exists_of_number hstart hhigh
    have hstored : s.canonicalBlock? candidate.number = some b.id :=
      (hstacked.canonicalBlock?_eq_some hblocks).mpr ⟨b, hb, hnumber, rfl⟩
    have hid : b.id = candidate := by
      cases candidate
      cases hnumber
      cases hhere b.id hstored
      rfl
    exact .of_canonical (mem_canonicalChain.mpr ⟨b, hblocks.mem_iff.mpr hb, hid⟩)

/-- A search asks for no more blocks than there are permitted depths left. -/
theorem finding_of_findAncestor {r : Except IngestError BlockId} (hstacked : Stacked start blocks)
    (hblocks : s.canonicalBlocks.Perm blocks) (hhead : head.number + 1 = start + blocks.length)
    (hnode : tree.Admits node) (hs : w.store = s) (hle : number ≤ head.number)
    (h : Tells node (findAncestor c head number hash) w log r w') :
    Finding tree node c s start head ⟨number, hash⟩ r ∧
      ∃ asked : List Hash, asked.length ≤ c.maxReorgDepth - (head.number - number) ∧
        AsksFor c asked (callsIn log) := by
  induction number using Nat.strongRecOn generalizing hash w log with
  | ind number ih =>
    rw [findAncestor_eq] at h
    obtain ⟨rest, rfl, h₁⟩ := tells_bind_look (by simp [StoreTask.IsCommit]) (fun _ => rfl) h
    change _ ∧ ∃ asked : List Hash, _ ∧ AsksFor c asked (callsIn rest)
    have hidle : rest = [] → ∃ asked : List Hash,
        asked.length ≤ c.maxReorgDepth - (head.number - number) ∧ AsksFor c asked (callsIn rest) := by
      rintro rfl
      exact ⟨[], Nat.zero_le _, .nil c⟩
    split at h₁
    · next hhere =>
      have hmeets : Meets tree s start ⟨number, hash⟩ ⟨number, hash⟩ := by
        refine meets_of_no_other hstacked hblocks (by show number < _; omega) fun stored hstored => ?_
        rw [← hs] at hstored
        simpa [hstored] using hhere
      split at h₁
      · next hdeep =>
        obtain ⟨hrest, rfl, rfl⟩ := tells_ofExcept h₁
        exact ⟨.tooDeep fun a ha => ha.unique hmeets ▸ hdeep, hidle hrest⟩
      · next hdepth =>
        obtain ⟨hrest, rfl, rfl⟩ := tells_ofExcept h₁
        exact ⟨.found hmeets (Nat.not_lt.mp hdepth), hidle hrest⟩
    · next hother =>
      obtain ⟨stored, hstored, hne⟩ : ∃ stored, s.canonicalBlock? number = some stored ∧
          stored.hash ≠ hash := by
        simpa [Option.all_eq_true, hs] using hother
      have hstart := start_le_of_canonical hstacked hblocks hstored
      have hoff : ⟨number, hash⟩ ∉ s.canonicalChain := by
        rw [mem_canonicalChain_iff hstacked hblocks]
        intro hsame
        cases hstored.symm.trans hsame
        exact hne rfl
      split at h₁
      · next hdeep =>
        obtain ⟨hrest, rfl, rfl⟩ := tells_ofExcept h₁
        refine ⟨.tooDeep fun a ha => ?_, hidle hrest⟩
        have hlower : a.number < number := ha.number_lt hoff hstart
        omega
      · next hdepth =>
        cases number with
        | zero =>
            obtain ⟨hrest, rfl, rfl⟩ := tells_ofExcept h₁
            obtain rfl : start = 0 := Nat.le_zero.mp hstart
            exact ⟨.tooDeep fun a ha => absurd ha (Meets.not_zero hoff), hidle hrest⟩
        | succ below =>
            rcases tells_bind h₁ with ⟨e, rfl, hfailed⟩ | ⟨log₁, log₂, block, w₁, rfl, hcall, h₂⟩
            · obtain ⟨⟨n, hn, hcalls⟩, _, ⟨_, hok, _⟩ | ⟨e', focus, herror, hreply⟩⟩ :=
                tells_callNode hfailed
              · cases hok
              · cases herror
                refine ⟨.failed .here hstart hreply, [hash], ?_, ?_⟩
                · rw [List.length_singleton]
                  omega
                · rw [hcalls, ← List.append_nil (List.replicate n _)]
                  exact AsksFor.cons hash (.nil c) hn
            · obtain ⟨⟨n, hn, hcalls⟩, hw₁, ⟨_, hok, hgiven⟩ | ⟨_, _, herror, _⟩⟩ :=
                tells_callNode hcall
              · cases hok
                obtain ⟨hheld, hhash⟩ := hnode.holds_of_hash hgiven
                have hs₁ : w₁.store = s := by rw [hw₁, World.asking_store, hs]
                obtain ⟨hfinding, asked, hasked, hasks⟩ :=
                  ih below (Nat.lt_succ_self below) hs₁ (by omega) h₂
                refine ⟨hfinding.of_parent hheld hhash hoff hstart, hash :: asked, ?_, ?_⟩
                · rw [List.length_cons]
                  omega
                · rw [callsIn_append, hcalls]
                  exact hasks.cons hash hn
              · cases herror

/-! ## Orphaned blocks -/

theorem orphanCount_eq (s : Store) (ancestor : BlockId) :
    s.orphanCount ancestor = s.canonicalBlocks.countP fun b => ancestor.number < b.number := by
  rw [Store.orphanCount, Store.canonicalBlocks, List.countP_map, List.countP_filter]
  apply congrArg (List.countP · s.blocks.rows)
  funext row
  simp [Store.isOrphaned]

theorem length_canonicalBlocks_markReorg (s : Store) (ancestor : BlockId) (chain : Nat) (now : Int) :
    (s.markReorg ancestor chain now).canonicalBlocks.length + s.orphanCount ancestor =
      s.canonicalBlocks.length := by
  rw [canonicalBlocks_markReorg, orphanCount_eq, ← List.countP_eq_length_filter, Nat.add_comm,
    List.length_eq_countP_add_countP fun b : Block => ancestor.number < b.number]
  simp only [decide_eq_true_eq, Nat.not_lt]

theorem orphanCount_of_stacked (hstacked : Stacked start blocks)
    (hblocks : s.canonicalBlocks.Perm blocks) (hhead : head.number + 1 = start + blocks.length)
    (hlow : start ≤ ancestor.number + 1) (hhigh : ancestor.number ≤ head.number) :
    s.orphanCount ancestor = head.number - ancestor.number := by
  have hcount : blocks.countP (fun b => ancestor.number < b.number) =
      (List.range' start blocks.length).countP (ancestor.number < ·) := by
    rw [← hstacked.heights, List.countP_map]
    rfl
  -- the heights up to the ancestor's, and those above
  have hsplit : List.range' start blocks.length =
      List.range' start (ancestor.number + 1 - start) ++
        List.range' (ancestor.number + 1) (head.number - ancestor.number) := by
    rw [show ancestor.number + 1 = start + (ancestor.number + 1 - start) by omega,
      Nat.add_sub_cancel_left, List.range'_append_1]
    congr 1
    omega
  have hbelow : (List.range' start (ancestor.number + 1 - start)).countP (ancestor.number < ·) = 0 := by
    rw [List.countP_eq_zero]
    intro n hn
    obtain ⟨i, hi, rfl⟩ := List.mem_range'.mp hn
    simp only [decide_eq_true_eq]
    omega
  have habove : (List.range' (ancestor.number + 1) (head.number - ancestor.number)).countP
      (ancestor.number < ·) = head.number - ancestor.number := by
    rw [List.countP_eq_length.mpr, List.length_range']
    intro n hn
    obtain ⟨i, hi, rfl⟩ := List.mem_range'.mp hn
    simp only [decide_eq_true_eq]
    omega
  rw [orphanCount_eq, hblocks.countP_eq, hcount, hsplit, List.countP_append, hbelow, habove,
    Nat.zero_add]

theorem Descent.heights {id : BlockId} (hstacked : Stacked start blocks)
    (hblocks : s.canonicalBlocks.Perm blocks) (h : Descent node s id ancestor)
    (hlow : start ≤ id.number + 1) : start ≤ ancestor.number + 1 ∧ ancestor.number ≤ id.number := by
  induction h with
  | here => exact ⟨hlow, Nat.le_refl _⟩
  | down hstored _ _ _ ih =>
      obtain ⟨hlow', hle⟩ := ih (start_le_of_canonical hstacked hblocks hstored)
      exact ⟨hlow', Nat.le_succ_of_le hle⟩

theorem Rival.heights {rival : BlockId} (hstacked : Stacked start blocks)
    (hblocks : s.canonicalBlocks.Perm blocks) (hhead : head.number + 1 = start + blocks.length)
    (hnode : tree.Admits node) (h : Rival node s head rival) :
    start ≤ rival.number + 1 ∧ rival.number ≤ head.number := by
  cases h with
  | parent _ _ => exact ⟨by show start ≤ head.number + 1; omega, Nat.le_refl _⟩
  | sibling _ _ hgiven _ =>
      obtain ⟨_, hnumber⟩ := hnode.holds_of_number hgiven
      have hid : (Block.id _).number = head.number := hnumber
      exact ⟨by omega, hid.le⟩
  | lower _ hlt hgiven hstored _ =>
      obtain ⟨_, hnumber⟩ := hnode.holds_of_number hgiven
      have hid : (Block.id _).number = _ := hnumber
      have hstart := start_le_of_canonical hstacked hblocks hstored
      exact ⟨by omega, by omega⟩

/-! ## What is counted -/

def orphans? : Said → Option Nat
  | ⟨.count .blocksOrphaned n, _⟩ => some n
  | _ => none

def orphansIn (log : List Said) : List Nat := log.filterMap orphans?

@[simp] theorem orphansIn_append (log₁ log₂ : List Said) :
    orphansIn (log₁ ++ log₂) = orphansIn log₁ ++ orphansIn log₂ :=
  List.filterMap_append

def CountsNone {α : Type} (node : Conduct) (step : Step α) : Prop :=
  ∀ w log a w', Says node step w log a w' → orphansIn log = []

/-- A step that, if it reports a reorg, counts the orphaned blocks once and as many as it reports. -/
def CountsReorg (node : Conduct) (step : Step Outcome) : Prop :=
  ∀ w log ancestor depth w', Says node step w log (.reorged ancestor depth) w' →
    orphansIn log = [depth]

section Counting

variable {α β : Type}

theorem CountsNone.bind {x : Step α} {f : α → Step β} (hx : CountsNone node x)
    (hf : ∀ a, CountsNone node (f a)) : CountsNone node (x >>= f) := by
  intro w log b w' h
  obtain ⟨log₁, log₂, a, w₁, rfl, hfirst, hsecond⟩ := says_bind h
  rw [orphansIn_append, hx _ _ _ _ hfirst, hf a _ _ _ _ hsecond]
  rfl

theorem CountsNone.bind_reorg {x : Step α} {f : α → Step Outcome} (hx : CountsNone node x)
    (hf : ∀ a, CountsReorg node (f a)) : CountsReorg node (x >>= f) := by
  intro w log ancestor depth w' h
  obtain ⟨log₁, log₂, a, w₁, rfl, hfirst, hsecond⟩ := says_bind h
  rw [orphansIn_append, hx _ _ _ _ hfirst, hf a _ _ _ _ _ hsecond]
  rfl

theorem countsNone_throw (e : IngestError) : CountsNone node (throw e : Step α) :=
  fun _ _ _ _ h => absurd h.runs not_runs_throw_ok

theorem countsNone_pure (a : α) : CountsNone node (pure a : Step α) := by
  intro w log b w' h
  obtain ⟨rfl, _⟩ := says_pure h
  rfl

theorem countsNone_store (task : StoreTask) : CountsNone node (Step.store task) := by
  intro w log a w' h
  obtain ⟨rfl, _⟩ := says_store h
  rfl

theorem countsNone_head : CountsNone node (Step.request .head) := by
  intro w log a w' h
  obtain ⟨rfl, _⟩ := says_request h
  rfl

theorem countsNone_ite {p : Prop} [Decidable p] {x y : Step α} (hx : CountsNone node x)
    (hy : CountsNone node y) : CountsNone node (if p then x else y) := by
  split
  · exact hx
  · exact hy

theorem countsReorg_ite {p : Prop} [Decidable p] {x y : Step Outcome} (hx : CountsReorg node x)
    (hy : CountsReorg node y) : CountsReorg node (if p then x else y) := by
  split
  · exact hx
  · exact hy

theorem countsReorg_idle : CountsReorg node (pure .idle) := by
  intro w log a depth w' h
  obtain ⟨_, hreorged, _⟩ := says_pure h
  cases hreorged

end Counting

theorem orphansIn_of_retried {call : NodeCall} {left : Nat} {reply : Except NodeError call.Answer}
    (h : Retried c call left log reply) : orphansIn log = [] := by
  induction h with
  | last => rfl
  | again _ ih => exact ih

theorem countsNone_callNode (c : Config) (call : NodeCall) : CountsNone node (callNode c call) := by
  intro w log a w' h
  obtain ⟨log₁, log₂, reply, w₁, rfl, hcall, hnext⟩ := says_bind h
  have hfirst := orphansIn_of_retried (retried_of_callWith (says_lift hcall))
  cases reply with
  | error e => cases hnext
  | ok b =>
      obtain ⟨rfl, _⟩ := says_pure hnext
      rw [List.append_nil, hfirst]

theorem countsNone_findAncestor (c : Config) (head : BlockId) (number : Nat) (hash : Hash) :
    CountsNone node (findAncestor c head number hash) := by
  induction number generalizing hash with
  | zero =>
      rw [findAncestor_eq]
      apply (countsNone_store _).bind
      intro stored
      exact countsNone_ite (countsNone_ite (countsNone_throw _) (countsNone_pure _))
        (countsNone_ite (countsNone_throw _) (countsNone_throw _))
  | succ below ih =>
      rw [findAncestor_eq]
      apply (countsNone_store _).bind
      intro stored
      exact countsNone_ite (countsNone_ite (countsNone_throw _) (countsNone_pure _))
        (countsNone_ite (countsNone_throw _) ((countsNone_callNode c _).bind fun block => ih _))

theorem countsReorg_handleReorg (c : Config) (head candidate : BlockId) :
    CountsReorg node (handleReorg c head candidate) := by
  apply (countsNone_findAncestor c _ _ _).bind_reorg
  intro found
  apply (countsNone_store _).bind_reorg
  intro flagged w log ancestor depth w' h
  obtain ⟨log₁, log₂, _, w₁, rfl, hset, h₁⟩ := says_bind h
  obtain ⟨log₃, log₄, _, w₂, rfl, hcount, h₂⟩ := says_bind h₁
  obtain ⟨log₅, log₆, _, w₃, rfl, horphans, h₃⟩ := says_bind h₂
  obtain ⟨rfl, _⟩ := says_request hset
  obtain ⟨rfl, _⟩ := says_request hcount
  obtain ⟨rfl, _⟩ := says_request horphans
  obtain ⟨rfl, hreorged, _⟩ := says_pure h₃
  cases hreorged
  rfl

theorem countsReorg_checkHead (c : Config) (head : BlockId) (latest : Nat) :
    CountsReorg node (checkHead c head latest) := by
  apply (countsNone_callNode c _).bind_reorg
  intro tip
  apply countsReorg_ite
  · apply (countsNone_store _).bind_reorg
    intro stored
    exact countsReorg_ite countsReorg_idle (countsReorg_handleReorg c head _)
  · exact countsReorg_ite countsReorg_idle (countsReorg_handleReorg c head _)

theorem countsReorg_importBlock (c : Config) (head : Option BlockId) (block : Block) :
    CountsReorg node (importBlock c head block) := by
  unfold importBlock
  split
  · exact countsReorg_handleReorg c _ _
  · -- what follows on the head is committed or skipped
    intro w log ancestor depth w' h
    obtain ⟨_, _, outcome, w₁, _, hprocess, h₁⟩ := says_bind h
    obtain ⟨_, _, _, w₂, _, _, h₂⟩ := says_bind h₁
    obtain ⟨_, rfl, _⟩ := says_pure h₂
    rcases (runs_processBlock hprocess.runs).2 with
      ⟨_, hout | ⟨hskipped, _⟩⟩ | ⟨hout, _⟩ | ⟨hnone | hcommitted, _⟩
    · exact absurd hout (not_unfinished_ok _)
    · cases hskipped
    · exact absurd hout (not_unfinished_ok _)
    · cases hnone
    · cases hcommitted

/-- A step that reports a reorg counts as many orphaned blocks as it reports. -/
theorem countsReorg_importNext (c : Config) : CountsReorg node (importNext c) := by
  apply countsNone_head.bind_reorg
  intro head
  apply (countsNone_callNode c _).bind_reorg
  intro latest
  apply countsReorg_ite
  · cases head with
    | none => exact countsReorg_idle
    | some head => exact countsReorg_checkHead c head latest
  · apply (countsNone_callNode c _).bind_reorg
    intro block
    exact countsReorg_importBlock c head block

/-- A reorg takes the flag from as many blocks as it reports. -/
theorem depth_of_reorged {depth : Nat} (hstacked : Stacked start blocks)
    (hblocks : w.store.canonicalBlocks.Perm blocks) (hhead : head.number + 1 = start + blocks.length)
    (hnode : tree.Admits node) (hw : w.head = some head)
    (h : Runs node (importNext c) w (some (.ok (.reorged ancestor depth))) w') :
    depth = head.number - ancestor.number ∧ ancestor.number ≤ head.number ∧
      w.store.orphanCount ancestor = depth ∧
      w'.store.canonicalBlocks.length + depth = w.store.canonicalBlocks.length := by
  cases effect_of_importNext h with
  | nothing hout _ => exact absurd hout (not_unfinished_ok _)
  | touched _ hout _ _ => exact absurd hout (not_unfinished_ok _)
  | skipped _ _ _ _ _ _ hmoves => cases hmoves.of_ok.2
  | committed _ _ hmoves => cases hmoves.of_ok.2
  | reorged hw' hrival hdescent _ hstore hmoves =>
      cases hmoves.of_ok.2
      cases hw.symm.trans hw'
      obtain ⟨hlow, hle⟩ := hrival.heights hstacked hblocks hhead hnode
      obtain ⟨hlow', hle'⟩ := hdescent.heights hstacked hblocks hlow
      have hcount := orphanCount_of_stacked hstacked hblocks hhead hlow' (hle'.trans hle)
      refine ⟨rfl, hle'.trans hle, hcount, ?_⟩
      rw [hstore, ← hcount, length_canonicalBlocks_markReorg]

/-! ## The search is exact -/

/-- On canonical blocks that fill the heights from the first one to the head's, the search ends,
and no difference of heights in it is below zero.  Unless the node fails when it is asked for a
block of the line, the search finds where the candidate's line meets the stored branch, if it does
within the permitted depth, and otherwise reports that this is too deep; it asks for no more blocks
than that depth.  A step that reports a reorg reports and counts as many orphaned blocks as the
reorg takes the flag from. -/
theorem findAncestor_exact (hstacked : Stacked start blocks)
    (hblocks : w.store.canonicalBlocks.Perm blocks) (hhead : head.number + 1 = start + blocks.length)
    (hnode : tree.Admits node) (hcandidate : candidate.number ≤ head.number) :
    findAncestorChecked c head candidate.number candidate.hash =
        findAncestor c head candidate.number candidate.hash ∧
    (node.Responds →
      ∃ r w', Runs node (findAncestor c head candidate.number candidate.hash) w (some r) w') ∧
    (∀ log r w', Tells node (findAncestor c head candidate.number candidate.hash) w log r w' →
      ((∃ number hash focus e, Line tree candidate ⟨number, hash⟩ ∧ start ≤ number ∧
          node focus (.block (.hash hash)) (.error e) ∧ r = .error (.node e)) ∨
        ((∀ a, r = .ok a ↔
            Meets tree w.store start candidate a ∧ head.number - a.number ≤ c.maxReorgDepth) ∧
          ((¬ ∃ a, Meets tree w.store start candidate a ∧
              head.number - a.number ≤ c.maxReorgDepth) →
            ∃ depth, r = .error (.reorgTooDeep head depth c.maxReorgDepth)))) ∧
      ∃ asked : List Hash, asked.length ≤ c.maxReorgDepth ∧ AsksFor c asked (callsIn log)) ∧
    (∀ log ancestor depth w', w.head = some head →
      Says node (importNext c) w log (.reorged ancestor depth) w' →
      depth = head.number - ancestor.number ∧ ancestor.number ≤ head.number ∧
        w.store.orphanCount ancestor = depth ∧ orphansIn log = [depth] ∧
        w'.store.canonicalBlocks.length + depth = w.store.canonicalBlocks.length) := by
  refine ⟨findAncestorChecked_eq hcandidate _, fun hresponds => exists_runs hresponds _ _, ?_, ?_⟩
  · intro log r w' h
    obtain ⟨hfinding, asked, hasked, hasks⟩ :=
      finding_of_findAncestor hstacked hblocks hhead hnode rfl hcandidate h
    refine ⟨?_, asked, hasked.trans (Nat.sub_le _ _), hasks⟩
    cases hfinding with
    | failed hline hlow hreply => exact .inl ⟨_, _, _, _, hline, hlow, hreply, rfl⟩
    | @found found hmeets hdepth =>
        refine .inr ⟨fun a => ⟨?_, fun ha => ?_⟩, fun hnone => absurd ⟨found, hmeets, hdepth⟩ hnone⟩
        · rintro hok
          cases hok
          exact ⟨hmeets, hdepth⟩
        · rw [hmeets.unique ha.1]
    | tooDeep hdeep =>
        refine .inr ⟨fun a => ⟨fun hok => (nomatch hok), fun ha => ?_⟩, fun _ => ⟨_, rfl⟩⟩
        exact absurd ha.2 (Nat.not_le.mpr (hdeep a ha.1))
  · intro log ancestor depth w' hw h
    obtain ⟨hdepth, hle, hcount, hlength⟩ :=
      depth_of_reorged hstacked hblocks hhead hnode hw h.runs
    exact ⟨hdepth, hle, hcount, countsReorg_importNext c _ _ _ _ _ h, hlength⟩

/-! Of a fork at the tip the old branch is stored, and the node serves the new one. -/

theorem findAncestor_exact_fork : ∃ (w : World) (log log' : List Said) (asked : List Hash) (w' : World),
    w.store.canonicalBlocks = oldBranch ∧ Meets forkedTree w.store 0 ⟨1, ⟨3⟩⟩ ⟨0, ⟨1⟩⟩ ∧
      asked.length ≤ 64 ∧ AsksFor evenSettings asked (callsIn log) ∧
      Says (plainConduct newBranch) (importNext evenSettings) w log' (.reorged ⟨0, ⟨1⟩⟩ 1) w' ∧
      orphansIn log' = [1] ∧ w.store.orphanCount ⟨0, ⟨1⟩⟩ = 1 := by
  let s := (play evenSettings [oldBranch, oldBranch] (.start .empty evenSettings 0)).2
  have hblocks : s.outside.canonicalBlocks = oldBranch := by decide +kernel
  have hhead : s.head = some ⟨1, ⟨2⟩⟩ := by decide +kernel
  have hfound : (s.perform (.plain newBranch false) none
      (findAncestor evenSettings ⟨1, ⟨2⟩⟩ 1 ⟨3⟩)).1 = some (.ok ⟨0, ⟨1⟩⟩) := by decide +kernel
  have hstep : (s.perform (.plain newBranch false) none (importNext evenSettings)).1 =
      some (.ok (.reorged ⟨0, ⟨1⟩⟩ 1)) := by decide +kernel
  clear_value s
  have hadmits : forkedTree.Admits (plainConduct newBranch) :=
    BlockTree.admits_plain (fun _ hb => List.mem_append_right _ hb) fun _ => rfl
  have hstacked : Stacked 0 oldBranch := ⟨by decide, by decide⟩
  have hperm : (s.world id none).store.canonicalBlocks.Perm oldBranch := hblocks ▸ .refl _
  have htop : (⟨1, ⟨2⟩⟩ : BlockId).number + 1 = 0 + oldBranch.length := rfl
  have hrival : (⟨1, ⟨3⟩⟩ : BlockId).number ≤ (⟨1, ⟨2⟩⟩ : BlockId).number := Nat.le_refl 1
  obtain ⟨_, _, hsearch, hreorg⟩ :=
    findAncestor_exact (c := evenSettings) hstacked hperm htop hadmits hrival
  have hwithin := Surroundings.within_plain newBranch false
  obtain ⟨_, hruns⟩ := Session.runs_of_perform hwithin none
    (findAncestor evenSettings ⟨1, ⟨2⟩⟩ 1 ⟨3⟩) s none
  obtain ⟨_, hruns'⟩ := Session.runs_of_perform hwithin none (importNext evenSettings) s none
  rw [hfound] at hruns
  rw [hstep] at hruns'
  obtain ⟨log, hsays⟩ := exists_says hruns
  obtain ⟨log', hsays'⟩ := exists_says hruns'
  obtain ⟨hresult, asked, hasked, hasks⟩ := hsearch _ _ _ hsays
  obtain ⟨_, _, hcount, horphans, _⟩ := hreorg _ _ _ _ hhead hsays'
  rcases hresult with ⟨_, _, _, _, _, _, _, hfailed⟩ | ⟨hfinds, _⟩
  · cases hfailed
  · exact ⟨s.world id none, log, log', asked, _, hblocks, ((hfinds _).mp rfl).1, hasked, hasks,
      hsays', horphans, hcount⟩

end ChainIngest.Importer
