import ChainIngest.Proofs.FreshImport
import ChainIngest.Proofs.WriterStates
/-!
# Importers that lost their heads

An importer that takes up a store without the head of the one before it begins at its
first height again.  It has no branch to leave, so it never sees a reorg: another
branch gives way height by height, where a block is committed in the other's place.
Above the node's tip everything stays as it was.
-/

namespace ChainIngest.Importer

variable {tree : BlockTree} {N : Branch tree} {node : Conduct} {kind : Config → Prop} {c : Config}
  {at_work : Option Config} {start next : Nat} {old : List Block} {s s' : Store} {w w' : World}

/-! ## Blocks and queue

Settings may differ from importer to importer here, so the canonical blocks need not make
one stack. -/

/-- Tables that were written in the usual way, and whose queue counts no block as canonical and
committed that is not canonical. -/
structure Coherent (tree : BlockTree) (s : Store) : Prop where
  written : s.Written
  filed : Filed tree s
  queued : ∀ {number hash}, Queued s number hash → ∃ b ∈ s.canonicalBlocks, b.id = ⟨number, hash⟩

namespace Coherent

theorem empty (tree : BlockTree) : Coherent tree .empty where
  written := .empty
  filed _ _ h := by cases h
  queued := by
    rintro number hash ⟨e, h, _⟩
    cases h

theorem of_touched {id : BlockId} (h : Coherent tree s) (htouched : Touched id s s') :
    Coherent tree s' where
  written := by
    rcases htouched with rfl | ⟨e, _, _, _, rfl⟩
    · exact h.written
    · exact h.written.recordStatus e
  filed := h.filed.of_touched htouched
  queued hqueued := by
    rw [htouched.canonicalBlocks]
    exact h.queued (queued_of_touched htouched hqueued)

theorem commit {rows : BlockRows} (h : Coherent tree s) (hheld : tree.Holds rows.block)
    (hid : rows.entry.id = rows.block.id) : Coherent tree (s.commit rows) where
  written := h.written.commit rows
  filed := h.filed.commit hheld
  queued {number hash} hqueued := by
    rw [queued_iff] at hqueued
    simp only [h.filed.mem_canonicalBlocks_commit hheld]
    rcases marked_of_commit hid hqueued with ⟨hthis, _⟩ | ⟨hother, hbefore⟩
    · exact ⟨rows.block, .inl rfl, hthis⟩
    · obtain ⟨b, hb, hb'⟩ := h.queued hbefore
      have hnumber : b.number = number := congrArg BlockId.number hb'
      exact ⟨b, .inr ⟨hb, fun heq => hother (heq.symm.trans hnumber)⟩, hb'⟩

theorem markReorg (h : Coherent tree s) (ancestor : BlockId) (chain : Nat) (now : Int) :
    Coherent tree (s.markReorg ancestor chain now) where
  written := h.written.markReorg ancestor chain now
  filed := h.filed.markReorg ancestor chain now
  queued {number hash} hqueued := by
    rw [queued_iff] at hqueued
    obtain ⟨b, hb, hid⟩ := h.queued (marked_of_markReorg hqueued)
    have hnumber : b.number = number := congrArg BlockId.number hid
    have hkept : number ≤ ancestor.number := le_of_marked_markReorg hqueued
    exact ⟨b, mem_canonicalBlocks_markReorg.mpr ⟨hb, hnumber ▸ hkept⟩, hid⟩

theorem of_commitOf {block : Block} (h : Coherent tree s) (hheld : tree.Holds block)
    (hcommit : CommitOf node c block s s') : Coherent tree s' := by
  obtain ⟨entry, rows, w₁, w₂, htouched, hid, _, hrows, rfl⟩ := hcommit
  obtain ⟨rfl, hid', _⟩ := (derived_of_normalize hrows).marks
  exact (h.of_touched htouched).commit hheld (hid'.trans hid)

theorem of_step {out : Option (Except IngestError Outcome)} (h : Coherent tree w.store)
    (hnode : tree.Admits node) (heffect : StepEffect node c w out w') :
    Coherent tree w'.store := by
  cases heffect with
  | nothing _ hsame => exact hsame.1 ▸ h
  | idle _ hsame => exact hsame.1 ▸ h
  | skipped _ _ _ _ _ hstore _ => exact hstore ▸ h
  | touched _ _ htouched _ => exact h.of_touched htouched
  | committed hoffer hcommit _ => exact h.of_commitOf (hnode.holds_of_number hoffer.served).1 hcommit
  | reorged _ _ _ _ hstore _ => exact hstore ▸ h.markReorg _ _ _

end Coherent

theorem coherent_of_reach (hnode : tree.Admits node) (h : Reach node kind at_work w) :
    Coherent tree w.store := by
  induction h with
  | start => exact Coherent.empty tree
  | enter _ _ hrestore ih => exact (runs_restoreHead hrestore rfl).1 ▸ ih
  | step _ hstep ih => exact ih.of_step hnode (effect_of_importNext hstep)

/-! ## Heights gone over -/

/-- The branch at the heights from the first one to below the next, and elsewhere what was there. -/
def Relaid (N : Branch tree) (start next : Nat) (old : List Block) (s : Store) : Prop :=
  ∀ b, b ∈ s.canonicalBlocks ↔
    (∃ n, start ≤ n ∧ n < next ∧ b = N.block n) ∨ (b ∈ old ∧ (b.number < start ∨ next ≤ b.number))

theorem relaid_start (N : Branch tree) (start : Nat) (s : Store) :
    Relaid N start start s.canonicalBlocks s := by
  intro b
  constructor
  · exact fun hb => .inr ⟨hb, Nat.lt_or_ge b.number start⟩
  · rintro (⟨n, hlow, hhigh, _⟩ | ⟨hb, _⟩)
    · omega
    · exact hb

theorem Relaid.skip (h : Relaid N start next old s) (hs : Coherent tree s)
    (hstart : start ≤ next) (hblock : N.block next ∈ s.canonicalBlocks)
    (hnumber : (N.block next).number = next) : Relaid N start (next + 1) old s := by
  intro b
  constructor
  · intro hb
    rcases (h b).mp hb with ⟨n, hlow, hhigh, hn⟩ | ⟨hold, hbelow | habove⟩
    · exact .inl ⟨n, hlow, by omega, hn⟩
    · exact .inr ⟨hold, .inl hbelow⟩
    · rcases Nat.eq_or_lt_of_le habove with heq | hlt
      · exact .inl ⟨next, hstart, by omega, hs.written.eq_of_number hb hblock (by omega)⟩
      · exact .inr ⟨hold, .inr hlt⟩
  · rintro (⟨n, hlow, hhigh, rfl⟩ | ⟨hold, houtside⟩)
    · rcases Nat.eq_or_lt_of_le (Nat.lt_succ_iff.mp hhigh) with rfl | hlt
      · exact hblock
      · exact (h _).mpr (.inl ⟨n, hlow, hlt, rfl⟩)
    · exact (h _).mpr (.inr ⟨hold, houtside.imp_right Nat.le_of_succ_le⟩)

theorem Relaid.commit {rows : BlockRows} (h : Relaid N start next old s) (hs : Filed tree s)
    (hheld : tree.Holds rows.block) (hblock : rows.block = N.block next) (hstart : start ≤ next)
    (hnumber : ∀ n, start ≤ n → n ≤ next → (N.block n).number = n) :
    Relaid N start (next + 1) old (s.commit rows) := by
  intro b
  rw [hs.mem_canonicalBlocks_commit hheld, h b, hblock, hnumber next hstart (Nat.le_refl next)]
  constructor
  · rintro (rfl | ⟨⟨n, hlow, hhigh, hn⟩ | ⟨hold, hbelow | habove⟩, hother⟩)
    · exact .inl ⟨next, hstart, by omega, rfl⟩
    · exact .inl ⟨n, hlow, by omega, hn⟩
    · exact .inr ⟨hold, .inl hbelow⟩
    · exact .inr ⟨hold, .inr (by omega)⟩
  · rintro (⟨n, hlow, hhigh, rfl⟩ | ⟨hold, houtside⟩)
    · rcases Nat.eq_or_lt_of_le (Nat.lt_succ_iff.mp hhigh) with rfl | hlt
      · exact .inl rfl
      · refine .inr ⟨.inl ⟨n, hlow, hlt, rfl⟩, ?_⟩
        rw [hnumber n hlow (by omega)]
        omega
    · exact .inr ⟨.inr ⟨hold, by omega⟩, by omega⟩

/-! ## Steps without a head to begin with -/

/-- An importer that has gone over the heights up to its head, all on the branch. -/
structure Retracing (N : Branch tree) (c : Config) (old : List Block) (w : World) : Prop where
  coherent : Coherent tree w.store
  relaid : Relaid N c.startBlock (nextNumber c w.head) old w.store
  head : ∀ id, w.head = some id →
    c.startBlock ≤ id.number ∧ id.number ≤ N.tip ∧ id = (N.block id.number).id

namespace Retracing

theorem start_le (h : Retracing N c old w) : c.startBlock ≤ nextNumber c w.head := by
  cases hhead : w.head with
  | none => exact Nat.le_refl _
  | some id => exact Nat.le_succ_of_le (h.head id hhead).1

theorem of_same (h : Retracing N c old w) (hsame : World.Same w w') : Retracing N c old w' := by
  obtain ⟨hstore, hhead⟩ := hsame
  exact ⟨hstore ▸ h.coherent, by rw [hstore, hhead]; exact h.relaid, hhead ▸ h.head⟩

theorem advance {block : Block} (h : Retracing N c old w) (hshown : N.Shown node)
    (hoffer : Offered node c w.head block) (hhead : w'.head = some block.id)
    (hcoherent : Coherent tree w'.store)
    (hrelaid : Relaid N c.startBlock (nextNumber c w.head + 1) old w'.store) :
    Retracing N c old w' := by
  obtain ⟨_, hnumber⟩ := hshown.admits.holds_of_number hoffer.served
  obtain ⟨_, htip, hblock⟩ := hshown.numbered hoffer.served
  rw [← hnumber] at htip hblock hrelaid
  refine ⟨hcoherent, by rw [hhead]; exact hrelaid, fun id hid => ?_⟩
  cases hhead.symm.trans hid
  refine ⟨?_, htip, congrArg Block.id hblock⟩
  show c.startBlock ≤ block.number
  exact hnumber ▸ h.start_le

theorem of_step {outcome : Outcome} (h : Retracing N c old w) (hshown : N.Shown node)
    (hfirst : N.first ≤ c.startBlock)
    (hstep : Runs node (importNext c) w (some (.ok outcome)) w') : Retracing N c old w' := by
  have heffect := effect_of_importNext hstep
  have hcoherent := h.coherent.of_step hshown.admits heffect
  cases heffect with
  | nothing hout _ => exact absurd hout (not_unfinished_ok _)
  | touched _ hout _ _ => exact absurd hout (not_unfinished_ok _)
  | idle _ hsame => exact h.of_same hsame
  | @skipped block e _ _ hoffer he hhash hcanonical hstatus hstore hmoves =>
      obtain ⟨hheld, hnumber⟩ := hshown.admits.holds_of_number hoffer.served
      obtain ⟨_, _, hblock⟩ := hshown.numbered hoffer.served
      -- the queue has the block as committed, so it is canonical
      obtain ⟨hash, hget⟩ := filed_of_importStatus he
      obtain ⟨b, hb, hid⟩ := h.coherent.queued ⟨e, hget, hcanonical, hstatus⟩
      have hnamed := h.coherent.written.namesFiled _ _ _ hget
      obtain rfl : hash = block.hash := (congrArg BlockId.hash hnamed).symm.trans hhash
      obtain rfl : b = block := tree.unique
        (h.coherent.filed _ _ (h.coherent.filed.mem_canonicalBlocks.mp hb)).2 hheld
        (congrArg BlockId.hash hid)
      refine h.advance hshown hoffer hmoves.of_ok.1 hcoherent ?_
      rw [hstore]
      exact h.relaid.skip h.coherent h.start_le (hblock ▸ hb) (hblock ▸ hnumber)
  | @committed block _ _ hoffer hcommit hmoves =>
      refine h.advance hshown hoffer hmoves.of_ok.1 hcoherent ?_
      obtain ⟨hheld, _⟩ := hshown.admits.holds_of_number hoffer.served
      obtain ⟨_, htip, hblock⟩ := hshown.numbered hoffer.served
      obtain ⟨entry, rows, w₁, w₂, htouched, _, _, hrows, hstore⟩ := hcommit
      obtain ⟨rfl, _⟩ := (derived_of_normalize hrows).marks
      rw [hstore]
      have hrelaid : Relaid N c.startBlock (nextNumber c w.head) old w₁.store := by
        rw [Relaid, htouched.canonicalBlocks]
        exact h.relaid
      exact hrelaid.commit (h.coherent.filed.of_touched htouched) hheld hblock h.start_le
        fun n hlow hhigh => (N.held (by omega) (by omega)).2
  | reorged hhead hrival _ _ _ _ =>
      -- a head on the branch is never left
      obtain ⟨hlow, htip, hid⟩ := h.head _ hhead
      have hpasses := Branch.passes_block (N := N) (by omega) htip
      rw [← hid] at hpasses
      exact (hshown.not_rival hpasses hrival).elim

theorem of_steps {outcomes : List Outcome} (h : Retracing N c old w) (hshown : N.Shown node)
    (hfirst : N.first ≤ c.startBlock) (hsteps : Steps node c w outcomes w') :
    Retracing N c old w' := by
  induction hsteps with
  | nil => exact h
  | cons hstep _ ih => exact ih (h.of_step hshown hfirst hstep)

end Retracing

/-! ## Caught up without a head to begin with -/

theorem caughtUp_of_idle (h : StepEffect node c w (some (.ok .idle)) w') :
    CaughtUp node c w'.store w'.head := by
  cases h with
  | nothing hout _ => exact absurd hout (not_unfinished_ok _)
  | touched _ hout _ _ => exact absurd hout (not_unfinished_ok _)
  | idle hcaught hsame => exact hsame.1 ▸ hsame.2 ▸ hcaught
  | skipped _ _ _ _ _ _ hmoves => cases hmoves.of_ok.2
  | committed _ _ hmoves => cases hmoves.of_ok.2
  | reorged _ _ _ _ _ hmoves => cases hmoves.of_ok.2

theorem caughtUp_of_steps {outcomes : List Outcome} (hsteps : Steps node c w outcomes w')
    (hlast : outcomes.getLast? = some .idle) : CaughtUp node c w'.store w'.head := by
  induction hsteps with
  | nil => cases hlast
  | cons hstep hrest ih =>
      cases hrest with
      | nil =>
          cases hlast
          exact caughtUp_of_idle (effect_of_importNext hstep)
      | cons hnext hmore =>
          rw [List.getLast?_cons_cons] at hlast
          exact ih hlast

/-- What is gone over in the end: all heights of the branch from the first one on. -/
theorem Retracing.head_eq (h : Retracing N c old w) (hshown : N.Shown node)
    (hcaught : CaughtUp node c w.store w.head) :
    nextNumber c w.head = max c.startBlock (N.tip + 1) ∧
      (c.startBlock ≤ N.tip → w.head = some (N.block N.tip).id) := by
  cases hhead : w.head with
  | none =>
      rw [hhead] at hcaught
      obtain ⟨latest, hlatest, hlow⟩ := hcaught
      obtain rfl := hshown.latest hlatest
      have hnext : nextNumber c none = c.startBlock := rfl
      exact ⟨by omega, fun hle => by omega⟩
  | some id =>
      rw [hhead] at hcaught
      obtain ⟨latest, _, hlatest, hle, _⟩ := hcaught
      obtain rfl := hshown.latest hlatest
      obtain ⟨hlow, htip, hid⟩ := h.head id hhead
      have hnumber : id.number = N.tip := Nat.le_antisymm htip hle
      have hnext : nextNumber c (some id) = id.number + 1 := rfl
      refine ⟨by omega, fun _ => ?_⟩
      rw [hid, hnumber]

theorem Branch.stacked (N : Branch tree) (hfirst : N.first ≤ start) :
    Stacked start ((List.range' start (N.tip + 1 - start)).map N.block) where
  heights := by
    rw [List.length_map, List.length_range', List.map_map]
    apply (List.map_congr_left fun n hn => ?_).trans (List.map_id _)
    obtain ⟨i, hi, rfl⟩ := List.mem_range'.mp hn
    exact (N.held (by omega) (by omega)).2
  linked := by
    rw [List.isChain_iff_getElem]
    intro i hi
    rw [List.length_map, List.length_range'] at hi
    simp only [List.getElem_map, List.getElem_range', Nat.one_mul]
    have hlow : N.first ≤ start + i := by omega
    have hhigh : start + i < N.tip := by omega
    exact N.linked hlow hhigh

/-- An importer that takes up a store without its head and has come to the tip of the branch that
the node stays on: at the heights it has gone over, the canonical blocks are those of the branch,
and no others; outside them they are what they were.  So its chain is the branch from the first
height on just if nothing outside was canonical before, as it is above the tip where the stored
branch was longer. -/
theorem canonicalBlocks_of_lost_head {node node' : Conduct} {outcomes : List Outcome}
    (hnode : tree.Admits node) (hreach : Reach node kind at_work w) (hshown : N.Shown node')
    (hfirst : N.first ≤ c.startBlock) (hsteps : Steps node' c (w.renewed c) outcomes w')
    (hlast : outcomes.getLast? = some .idle) :
    (c.startBlock ≤ N.tip → w'.head = some (N.block N.tip).id) ∧
    (∀ b, b ∈ w'.store.canonicalBlocks ↔
      (∃ n, c.startBlock ≤ n ∧ n ≤ N.tip ∧ b = N.block n) ∨
        (b ∈ w.store.canonicalBlocks ∧ (b.number < c.startBlock ∨ N.tip < b.number))) ∧
    (w'.store.canonicalChain =
        (List.range' c.startBlock (N.tip + 1 - c.startBlock)).map (fun n => (N.block n).id) ↔
      ∀ b ∈ w.store.canonicalBlocks, c.startBlock ≤ b.number ∧ b.number ≤ N.tip) := by
  have hcoherent := coherent_of_reach hnode hreach
  have hstart : Retracing N c w.store.canonicalBlocks (w.renewed c) :=
    ⟨hcoherent, relaid_start N c.startBlock w.store, fun id hid => by cases hid⟩
  have hend := hstart.of_steps hshown hfirst hsteps
  obtain ⟨hnext, hhead⟩ := hend.head_eq hshown (caughtUp_of_steps hsteps hlast)
  have hblocks : ∀ b, b ∈ w'.store.canonicalBlocks ↔
      (∃ n, c.startBlock ≤ n ∧ n ≤ N.tip ∧ b = N.block n) ∨
        (b ∈ w.store.canonicalBlocks ∧ (b.number < c.startBlock ∨ N.tip < b.number)) := by
    intro b
    rw [hend.relaid b, hnext]
    constructor
    · rintro (⟨n, hlow, hhigh, hb⟩ | ⟨hb, houtside⟩)
      · exact .inl ⟨n, hlow, by omega, hb⟩
      · exact .inr ⟨hb, by omega⟩
    · rintro (⟨n, hlow, hhigh, hb⟩ | ⟨hb, houtside⟩)
      · exact .inl ⟨n, hlow, by omega, hb⟩
      · exact .inr ⟨hb, by omega⟩
  refine ⟨hhead, hblocks, ?_, ?_⟩
  · intro hchain b hb
    by_contra houtside
    have hkept : b.id ∈ w'.store.canonicalChain :=
      mem_canonicalChain.mpr ⟨b, (hblocks b).mpr (.inr ⟨hb, by omega⟩), rfl⟩
    rw [hchain] at hkept
    obtain ⟨n, hn, hid⟩ := List.mem_map.mp hkept
    obtain ⟨i, hi, rfl⟩ := List.mem_range'.mp hn
    have hheight := (N.held (n := c.startBlock + 1 * i) (by omega) (by omega)).2
    have hnumber : (N.block (c.startBlock + 1 * i)).number = b.number :=
      congrArg BlockId.number hid
    omega
  · intro hinside
    have hstacked := N.stacked hfirst
    have hperm : w'.store.canonicalBlocks.Perm
        ((List.range' c.startBlock (N.tip + 1 - c.startBlock)).map N.block) := by
      rw [List.perm_ext_iff_of_nodup hend.coherent.filed.nodup_canonicalBlocks hstacked.nodup]
      intro b
      rw [hblocks b, List.mem_map]
      constructor
      · rintro (⟨n, hlow, hhigh, rfl⟩ | ⟨hb, houtside⟩)
        · exact ⟨n, List.mem_range'.mpr ⟨n - c.startBlock, by omega, by omega⟩, rfl⟩
        · have := hinside b hb
          omega
      · rintro ⟨n, hn, rfl⟩
        obtain ⟨i, hi, rfl⟩ := List.mem_range'.mp hn
        exact .inl ⟨c.startBlock + 1 * i, by omega, by omega, rfl⟩
    rw [hstacked.canonicalChain_eq hperm, List.map_map]
    rfl

/-! A branch of three blocks is stored when the node serves another one of two. -/

def earlyBranch : Branch movingTree :=
  .ofStack 0 earlyScene.blocks (fun _ => List.mem_append_left _) ⟨by decide, by decide⟩ (by decide)

theorem shown_earlyBranch : earlyBranch.Shown (oneOf [earlyScene]) := by
  apply shown_ofStack
  apply admits_oneOf
  rw [List.forall_mem_singleton]
  exact ⟨fun _ => List.mem_append_left _, rfl, rfl⟩

def afterLate (c : Config) : Session Store :=
  (enact c [lateScene, lateScene, lateScene] (.start .empty c 0)).2

def headless (c : Config) : List (Option Outcome) × Session Store :=
  enact c [earlyScene, earlyScene, earlyScene] ((afterLate c).restart c)

def headlessOutcomes : List Outcome := [.skipped ⟨0, ⟨1⟩⟩, .committed ⟨1, ⟨2⟩⟩, .idle]

theorem headless_runs : ∃ focus focus',
    Reach movingNode (Config.On 0 1) (some evenSettings)
        ((afterLate evenSettings).world id focus) ∧
      Steps (oneOf [earlyScene]) evenSettings
        (((afterLate evenSettings).world id focus).renewed evenSettings) headlessOutcomes
        ((headless evenSettings).2.world id focus') := by
  obtain ⟨focus, hreach⟩ : ∃ focus, Reach movingNode (Config.On 0 1) (some evenSettings)
      ((afterLate evenSettings).world id focus) := reach_enact ⟨rfl, rfl⟩ (by simp)
  have hanswering : ∀ around ∈ [earlyScene, earlyScene, earlyScene].map Scene.around,
      around.Answering (oneOf [earlyScene]) := answering_scenes (by simp)
  have houtcomes : (headless evenSettings).1 = headlessOutcomes.map some := by decide +kernel
  obtain ⟨focus', hsteps⟩ := steps_lead focus hanswering houtcomes
  exact ⟨focus, focus', hreach, hsteps⟩

theorem canonicalBlocks_of_lost_head_shorter : ∃ w w' : World,
    Reach movingNode (Config.On 0 1) (some evenSettings) w ∧
      Steps (oneOf [earlyScene]) evenSettings (w.renewed evenSettings) headlessOutcomes w' ∧
      w'.head = some ⟨1, ⟨2⟩⟩ ∧ earlyBranch.block 1 ∈ w'.store.canonicalBlocks ∧
      pricedBlock 2 ⟨4⟩ ⟨3⟩ [movedTransaction ⟨4⟩] ∈ w'.store.canonicalBlocks := by
  obtain ⟨focus, focus', hreach, hsteps⟩ := headless_runs
  obtain ⟨hhead, hblocks, _⟩ := canonicalBlocks_of_lost_head admits_movingNode hreach
    shown_earlyBranch (Nat.zero_le _) hsteps rfl
  have hstored : pricedBlock 2 ⟨4⟩ ⟨3⟩ [movedTransaction ⟨4⟩] ∈
      (afterLate evenSettings).outside.canonicalBlocks := by decide +kernel
  refine ⟨_, _, hreach, hsteps, hhead (by decide), ?_, ?_⟩
  · exact (hblocks _).mpr (.inl ⟨1, by decide, by decide, rfl⟩)
  · exact (hblocks _).mpr (.inr ⟨hstored, .inr (by decide)⟩)

/-- The block above the tip stays canonical, though its parent does not. -/
theorem not_repaired : ¬ ∀ {tree : BlockTree} {N : Branch tree} {node node' : Conduct}
    {at_work : Option Config} {c : Config} {w w' : World} {outcomes : List Outcome},
    tree.Admits node → Reach node (Config.On c.startBlock c.chainId) at_work w → N.Shown node' →
      N.first ≤ c.startBlock → Steps node' c (w.renewed c) outcomes w' →
      outcomes.getLast? = some .idle → w'.head = some (N.block N.tip).id →
      w'.store.canonicalChain =
        (List.range' c.startBlock (N.tip + 1 - c.startBlock)).map (fun n => (N.block n).id) := by
  intro hclaim
  obtain ⟨focus, focus', hreach, hsteps⟩ := headless_runs
  have hhead : (headless evenSettings).2.head = some ⟨1, ⟨2⟩⟩ := by decide +kernel
  have hchain := hclaim admits_movingNode hreach shown_earlyBranch (Nat.zero_le _) hsteps rfl hhead
  have hstays : pricedBlock 2 ⟨4⟩ ⟨3⟩ [movedTransaction ⟨4⟩] ∈
      (headless evenSettings).2.outside.canonicalBlocks := by decide +kernel
  have hid : (⟨2, ⟨4⟩⟩ : BlockId) ∈ (headless evenSettings).2.outside.canonicalChain :=
    mem_canonicalChain.mpr ⟨_, hstays, rfl⟩
  have hbranch : (headless evenSettings).2.outside.canonicalChain = [⟨0, ⟨1⟩⟩, ⟨1, ⟨2⟩⟩] := hchain
  rw [hbranch] at hid
  exact absurd hid (by decide)

end ChainIngest.Importer
