import ChainIngest.Proofs.StoredDeltas
/-!
# Convergence

Once the node stays on one branch an importer reaches it, wherever earlier changes
of mind have left the store: after at most one reorg every step commits a block of
the branch, until none is left.  Then nothing canonical remains of other branches.
-/

namespace ChainIngest.Importer

variable {tree : BlockTree} {node : Conduct} {c : Config} {start chain : Nat}
  {schedule : Balance.Schedule} {s : Store} {blocks : List Block} {w w' : World}

/-! ## Branches -/

/-- A branch of a tree, from a first height to its tip. -/
structure Branch (tree : BlockTree) where
  first : Nat
  tip : Nat
  block : Nat → Block
  /-- Its blocks are of the tree and of their heights. -/
  held : ∀ {n}, first ≤ n → n ≤ tip → tree.Holds (block n) ∧ (block n).number = n
  linked : ∀ {n}, first ≤ n → n < tip → (block (n + 1)).parentHash = (block n).hash

namespace Branch

variable {N : Branch tree}

/-- A node that stays on the branch.  It may still fail. -/
structure Shown (N : Branch tree) (node : Conduct) : Prop where
  admits : tree.Admits node
  latest : ∀ {n}, node.Gives .latestBlockNumber n → n = N.tip
  numbered : ∀ {n b}, node.Gives (.block (.number n)) b → N.first ≤ n ∧ n ≤ N.tip ∧ b = N.block n

/-- The branch passes through a block: it is the tip, or the next block's parent. -/
def Passes (N : Branch tree) (id : BlockId) : Prop :=
  (id.number = N.tip ∧ id.hash = (N.block N.tip).hash) ∨
    (id.number < N.tip ∧ (N.block (id.number + 1)).parentHash = id.hash)

theorem Passes.le_tip {id : BlockId} (h : N.Passes id) : id.number ≤ N.tip := by
  rcases h with ⟨hnumber, _⟩ | ⟨hlt, _⟩ <;> omega

theorem passes_block {n : Nat} (hfirst : N.first ≤ n) (htip : n ≤ N.tip) :
    N.Passes (N.block n).id := by
  have hnumber : (N.block n).id.number = n := (N.held hfirst htip).2
  rcases Nat.lt_or_eq_of_le htip with hlt | rfl
  · refine .inr ⟨by omega, ?_⟩
    rw [hnumber]
    exact N.linked hfirst hlt
  · exact .inl ⟨hnumber, rfl⟩

theorem Passes.hash_eq {id : BlockId} (h : N.Passes id) (hfirst : N.first ≤ id.number) :
    id.hash = (N.block id.number).hash := by
  rcases h with ⟨hnumber, hhash⟩ | ⟨hlt, hparent⟩
  · rw [hnumber]
    exact hhash
  · exact hparent.symm.trans (N.linked hfirst hlt)

theorem Passes.block_eq {b : Block} {number : Nat} (h : N.Passes ⟨number, b.hash⟩)
    (hheld : tree.Holds b) (hfirst : N.first ≤ number) : b = N.block number :=
  tree.unique hheld (N.held hfirst h.le_tip).1 (h.hash_eq hfirst)

/-! ## Ancestors on the branch -/

/-- The way down from a block of the branch stays on it. -/
theorem Passes.of_descent {id ancestor : BlockId} (h : N.Passes id)
    (hstanding : Standing tree start chain s blocks) (hnode : tree.Admits node)
    (hfirst : N.first ≤ start) (hdescent : Descent node s id ancestor) : N.Passes ancestor := by
  induction hdescent with
  | here => exact h
  | @down number hash block stored ancestor hstored _ hgiven _ ih =>
      obtain ⟨hheld, rfl⟩ := hnode.holds_of_hash hgiven
      obtain ⟨b, hb, hnumber, _⟩ := hstanding.canonicalBlock?_eq_some.mp hstored
      have hlow : N.first ≤ number + 1 := by
        have hstart := (hstanding.stacked.number_lt hb).1
        omega
      have htip : number + 1 ≤ N.tip := h.le_tip
      have hblock := h.block_eq hheld hlow
      exact ih (.inr ⟨htip, congrArg Block.parentHash hblock.symm⟩)

theorem Shown.passes_of_rival {head rival : BlockId} (h : N.Shown node)
    (hrival : Rival node s head rival) : N.Passes rival := by
  cases hrival with
  | parent hgiven _ =>
      obtain ⟨_, htip, rfl⟩ := h.numbered hgiven
      exact .inr ⟨htip, rfl⟩
  | sibling hlatest hle hgiven _ =>
      obtain rfl := h.latest hlatest
      obtain ⟨hfirst, htip, rfl⟩ := h.numbered hgiven
      exact passes_block hfirst htip
  | lower hlatest _ hgiven _ _ =>
      obtain rfl := h.latest hlatest
      obtain ⟨hfirst, htip, rfl⟩ := h.numbered hgiven
      exact passes_block hfirst htip

theorem Shown.not_rival {head rival : BlockId} (h : N.Shown node) (hpasses : N.Passes head)
    (hrival : Rival node s head rival) : False := by
  have hhead := hpasses.le_tip
  cases hrival with
  | parent hgiven hother =>
      obtain ⟨_, htip, rfl⟩ := h.numbered hgiven
      rcases hpasses with ⟨hnumber, _⟩ | ⟨_, hparent⟩
      · omega
      · exact hother hparent
  | sibling hlatest hle hgiven hother =>
      obtain rfl := h.latest hlatest
      obtain ⟨hfirst, htip, rfl⟩ := h.numbered hgiven
      exact hother (hpasses.hash_eq hfirst).symm
  | lower hlatest hlt hgiven _ _ =>
      obtain rfl := h.latest hlatest
      omega

end Branch

/-! ## Steps on a branch -/

/-- An importer between two steps: its tables are in order and its head is the cursor's. -/
structure Ready (tree : BlockTree) (start chain : Nat) (schedule : Balance.Schedule) (w : World)
    (blocks : List Block) : Prop where
  standing : Standing tree start chain w.store blocks
  head : w.head = (w.store.cursor? chain).map Cursor.head
  kept : Kept tree schedule w.store

def Config.For (start chain : Nat) (schedule : Balance.Schedule) (c : Config) : Prop :=
  c.On start chain ∧ c.schedule = schedule

theorem Ready.tops (h : Ready tree start chain schedule w blocks) :
    Tops tree start blocks w.head :=
  h.head ▸ h.standing.topped

theorem Ready.of_same (h : Ready tree start chain schedule w blocks) (hsame : World.Same w w') :
    Ready tree start chain schedule w' blocks := by
  obtain ⟨hstore, hhead⟩ := hsame
  exact ⟨hstore ▸ h.standing, by rw [hstore, hhead, h.head], hstore ▸ h.kept⟩

theorem ready_fresh (tree : BlockTree) (start chain : Nat) (schedule : Balance.Schedule)
    (c : Config) : Ready tree start chain schedule (.fresh c) [] :=
  ⟨Standing.empty tree start chain, rfl, kept_empty tree schedule⟩

theorem ready_of_reach (hnode : tree.Admits node)
    (h : Reach node (Config.For start chain schedule) (some c) w) :
    ∃ blocks, Ready tree start chain schedule w blocks := by
  obtain ⟨blocks, hstanding, hhead⟩ := standing_of_reach hnode (h.mono fun _ hc => hc.1)
  exact ⟨blocks, hstanding, hhead rfl, kept_of_reach hnode (fun _ hc => hc.2) h⟩

/-- What a step that ended well can have done while the node stayed on a branch. -/
inductive Advance (N : Branch tree) (node : Conduct) (c : Config) (w : World)
    (blocks : List Block) : Outcome → World → List Block → Prop where
  | idle {w' : World} : CaughtUp node c w.store w.head → World.Same w w' →
      Advance N node c w blocks .idle w' blocks
  | committed {b : Block} {w' : World} : b.number ≤ N.tip → w'.head = some b.id →
      N.Passes b.id → Advance N node c w blocks (.committed b.id) w' (blocks ++ [b])
  | reorged {head ancestor : BlockId} {depth : Nat} {w' : World} {blocks' : List Block} :
      w.head = some head → ¬ N.Passes head → w'.head = some ancestor → N.Passes ancestor →
      Advance N node c w blocks (.reorged ancestor depth) w' blocks'

theorem Ready.of_step {N : Branch tree} {outcome : Outcome}
    (h : Ready tree start chain schedule w blocks) (hshown : N.Shown node)
    (hfirst : N.first ≤ start) (hc : c.For start chain schedule)
    (hstep : Runs node (importNext c) w (some (.ok outcome)) w') :
    ∃ blocks', Ready tree start chain schedule w' blocks' ∧
      Advance N node c w blocks outcome w' blocks' := by
  have hnode := hshown.admits
  have htops := h.tops
  have heffect := effect_of_importNext hstep
  have hkept := h.kept.of_step (fun _ _ => h.standing.filed) hnode hc.2 heffect
  cases heffect with
  | nothing hout _ => exact absurd hout (not_unfinished_ok _)
  | touched _ hout _ _ => exact absurd hout (not_unfinished_ok _)
  | idle hcaught hsame => exact ⟨blocks, h.of_same hsame, .idle hcaught hsame⟩
  | skipped hoffer he _ hcanonical hstatus _ _ =>
      exact (h.standing.not_skipped hnode (fun _ => hc.1.1) htops hoffer he hcanonical hstatus).elim
  | @committed block _ _ hoffer hcommit hmoves =>
      obtain ⟨hhead, rfl⟩ := hmoves.of_ok
      have hstanding := h.standing.of_commit hnode (fun _ => hc.1.1) hc.1.2 htops hoffer hcommit
      have hcursor := hstanding.topped.eq_of_getLast List.getLast?_concat
      obtain ⟨_, hnumber⟩ := hnode.holds_of_number hoffer.served
      obtain ⟨hlow, htip, hblock⟩ := hshown.numbered hoffer.served
      rw [← hnumber] at hlow htip hblock
      refine ⟨_, ⟨hstanding, hhead.trans hcursor.symm, hkept⟩, .committed htip hhead ?_⟩
      have hpasses := Branch.passes_block hlow htip
      rwa [← hblock] at hpasses
  | @reorged head rival ancestor now _ _ hhead hrival hdescent _ hstore hmoves =>
      obtain ⟨hhead', rfl⟩ := hmoves.of_ok
      rw [hc.1.2] at hstore
      rw [hhead] at htops
      have hstanding := h.standing.of_reorg now hnode htops hrival hdescent
      rw [← hstore] at hstanding
      have hcursor : (w'.store.cursor? chain).map Cursor.head = some ancestor := by
        rw [hstore, Store.cursor?, Store.markReorg, Store.Table.get?_insert_self]
        rfl
      refine ⟨_, ⟨hstanding, hhead'.trans hcursor.symm, hkept⟩,
        .reorged hhead (fun hpasses => hshown.not_rival hpasses hrival) hhead' ?_⟩
      exact (hshown.passes_of_rival hrival).of_descent h.standing hnode hfirst hdescent

/-! ## Runs on a branch -/

def Outcome.isReorg : Outcome → Bool
  | .reorged _ _ => true
  | _ => false

/-- A head on the branch is followed by blocks of the branch, and never by a reorg. -/
theorem steps_on_branch {N : Branch tree} {outcomes : List Outcome} {head : BlockId}
    (h : Ready tree start chain schedule w blocks) (hshown : N.Shown node)
    (hfirst : N.first ≤ start) (hc : c.For start chain schedule)
    (hsteps : Steps node c w outcomes w') (hhead : w.head = some head) (hpasses : N.Passes head) :
    outcomes.countP Outcome.isReorg = 0 ∧
      (.idle ∉ outcomes → outcomes.length ≤ N.tip + 1 - (start + blocks.length)) := by
  induction hsteps generalizing blocks head with
  | nil => exact ⟨rfl, fun _ => Nat.zero_le _⟩
  | cons hstep _ ih =>
      obtain ⟨blocks', h', hadvance⟩ := h.of_step hshown hfirst hc hstep
      cases hadvance with
      | idle _ hsame =>
          obtain ⟨hcount, _⟩ := ih h' (hsame.2.trans hhead) hpasses
          refine ⟨?_, fun hbusy => absurd List.mem_cons_self hbusy⟩
          rw [List.countP_cons_of_neg (by decide), hcount]
      | committed htip hhead' hpasses' =>
          obtain ⟨hcount, hlength⟩ := ih h' hhead' hpasses'
          refine ⟨?_, fun hbusy => ?_⟩
          · rw [List.countP_cons_of_neg (by simp [Outcome.isReorg]), hcount]
          · have hrest := hlength fun hmem => hbusy (List.mem_cons_of_mem _ hmem)
            have htop := h'.standing.stacked.number_getLast List.getLast?_concat
            rw [List.length_append, List.length_singleton] at hrest htop
            rw [List.length_cons]
            omega
      | reorged hhead' hoff _ _ =>
          cases hhead.symm.trans hhead'
          exact absurd hpasses hoff

/-- Anywhere, one reorg may come first. -/
theorem steps_to_branch {N : Branch tree} {outcomes : List Outcome}
    (h : Ready tree start chain schedule w blocks) (hshown : N.Shown node)
    (hfirst : N.first ≤ start) (hc : c.For start chain schedule)
    (hsteps : Steps node c w outcomes w') :
    outcomes.countP Outcome.isReorg ≤ 1 ∧
      (.idle ∉ outcomes → outcomes.length ≤ 1 + (N.tip + 1 - start)) := by
  induction hsteps generalizing blocks with
  | nil => exact ⟨Nat.zero_le _, fun _ => Nat.zero_le _⟩
  | cons hstep hrest ih =>
      obtain ⟨blocks', h', hadvance⟩ := h.of_step hshown hfirst hc hstep
      cases hadvance with
      | idle _ _ =>
          obtain ⟨hcount, _⟩ := ih h'
          refine ⟨?_, fun hbusy => absurd List.mem_cons_self hbusy⟩
          rwa [List.countP_cons_of_neg (by decide)]
      | committed _ hhead hpasses =>
          obtain ⟨hcount, hlength⟩ := steps_on_branch h' hshown hfirst hc hrest hhead hpasses
          refine ⟨?_, fun hbusy => ?_⟩
          · rw [List.countP_cons_of_neg (by simp [Outcome.isReorg]), hcount]
            exact Nat.zero_le 1
          · have hrest := hlength fun hmem => hbusy (List.mem_cons_of_mem _ hmem)
            rw [List.length_cons]
            omega
      | reorged _ _ hhead hpasses =>
          obtain ⟨hcount, hlength⟩ := steps_on_branch h' hshown hfirst hc hrest hhead hpasses
          refine ⟨?_, fun hbusy => ?_⟩
          · rw [List.countP_cons_of_pos rfl, hcount]
          · have hrest := hlength fun hmem => hbusy (List.mem_cons_of_mem _ hmem)
            rw [List.length_cons]
            omega

/-- What holds when steps have ended: if the last found nothing new there is nothing new, and a
head on the branch has not left it. -/
theorem ready_of_steps {N : Branch tree} {outcomes : List Outcome}
    (h : Ready tree start chain schedule w blocks) (hshown : N.Shown node)
    (hfirst : N.first ≤ start) (hc : c.For start chain schedule)
    (hsteps : Steps node c w outcomes w') :
    ∃ blocks', Ready tree start chain schedule w' blocks' ∧
      (outcomes.getLast? = some .idle → CaughtUp node c w'.store w'.head) ∧
      ((∀ id, w.head = some id → N.Passes id) → ∀ id, w'.head = some id → N.Passes id) := by
  induction hsteps generalizing blocks with
  | nil =>
      refine ⟨blocks, h, fun hlast => ?_, fun hbefore => hbefore⟩
      cases hlast
  | @cons w w₁ w' outcome rest hstep hrest ih =>
      obtain ⟨blocks₁, h₁, hadvance⟩ := h.of_step hshown hfirst hc hstep
      obtain ⟨blocks', h', hcaught, hstays⟩ := ih h₁
      refine ⟨blocks', h', fun hlast => ?_, fun hbefore => hstays ?_⟩
      · cases hrest with
        | nil =>
            cases hlast
            cases hadvance with
            | idle hcaught₀ hsame => exact hsame.1 ▸ hsame.2 ▸ hcaught₀
        | cons hnext hmore =>
            rw [List.getLast?_cons_cons] at hlast
            exact hcaught hlast
      · intro id hid
        cases hadvance with
        | idle _ hsame => exact hbefore id (hsame.2.symm.trans hid)
        | committed _ hhead hpasses =>
            cases hhead.symm.trans hid
            exact hpasses
        | reorged _ _ hhead hpasses =>
            cases hhead.symm.trans hid
            exact hpasses

theorem Stacked.eq_branch {N : Branch tree} (h : Stacked start blocks)
    (hheld : ∀ b ∈ blocks, tree.Holds b) (hfirst : N.first ≤ start)
    (hlength : start + blocks.length = N.tip + 1)
    (htop : ∀ top, blocks.getLast? = some top → top.hash = (N.block N.tip).hash) :
    blocks = (List.range' start (N.tip + 1 - start)).map N.block := by
  -- from the top downwards: `k` blocks stand above the one at `i`
  have hdown : ∀ k i, ∀ hi : i < blocks.length, i + k + 1 = blocks.length →
      blocks[i] = N.block (start + i) := by
    intro k
    induction k with
    | zero =>
        intro i hi hk
        have hlast : blocks.getLast? = some blocks[i] := by
          rw [List.getLast?_eq_getElem?, show blocks.length - 1 = i by omega,
            List.getElem?_eq_getElem hi]
        have htip : start + i = N.tip := by omega
        rw [htip]
        exact tree.unique (hheld _ (List.getElem_mem hi))
          (N.held (by omega) (Nat.le_refl N.tip)).1 (htop _ hlast)
    | succ k ih =>
        intro i hi hk
        have habove := ih (i + 1) (by omega) (by omega)
        have hlink : blocks[i + 1].parentHash = blocks[i].hash := h.linked.getElem i (by omega)
        have hparent : (N.block (start + i + 1)).parentHash = (N.block (start + i)).hash :=
          N.linked (by omega) (by omega)
        rw [habove, ← Nat.add_assoc, hparent] at hlink
        exact tree.unique (hheld _ (List.getElem_mem hi)) (N.held (by omega) (by omega)).1
          hlink.symm
  apply List.ext_getElem
  · rw [List.length_map, List.length_range']
    omega
  · intro i hi _
    rw [List.getElem_map, List.getElem_range', Nat.one_mul]
    exact hdown (blocks.length - 1 - i) i hi (by omega)

/-- An importer that is caught up and not above the branch has all of it and nothing else. -/
theorem Ready.eq_branch {N : Branch tree} (h : Ready tree start chain schedule w blocks)
    (hshown : N.Shown node) (hfirst : N.first ≤ start) (hstart : c.startBlock = start)
    (hcaught : CaughtUp node c w.store w.head)
    (hbelow : ∀ id, w.head = some id → id.number ≤ N.tip) :
    blocks = (List.range' start (N.tip + 1 - start)).map N.block := by
  have htops := h.tops
  cases hhead : w.head with
  | none =>
      rw [hhead] at htops hcaught
      obtain ⟨latest, hlatest, hlow⟩ := hcaught
      obtain rfl := hshown.latest hlatest
      obtain rfl : blocks = [] := htops
      rw [hstart] at hlow
      rw [show N.tip + 1 - start = 0 by omega]
      rfl
  | some id =>
      rw [hhead] at htops hcaught
      have hid := hbelow id hhead
      obtain ⟨hnumber, _, hlast⟩ := htops
      obtain ⟨latest, block, hlatest, hle, hserved, hagree⟩ := hcaught
      obtain rfl := hshown.latest hlatest
      obtain ⟨_, _, rfl⟩ := hshown.numbered hserved
      rw [if_neg (Nat.not_lt.mpr hid)] at hagree
      refine h.standing.stacked.eq_branch (fun b hb => h.standing.holds hb) hfirst (by omega) ?_
      intro top htop
      rw [hagree, ← hlast top htop]
      rfl

/-- Wherever the changes of a node's mind have left an importer that began with the cursor, once
the node stays on a branch the importer has nothing more to do after finitely many steps, of
which at most one is a reorg.  Then, unless its head is above the branch, its canonical chain is
the branch from the first height on, and its balances are those of a fresh import of the branch. -/
theorem converges_to_branch {node node' : Conduct} {N : Branch tree} {outcomes : List Outcome}
    (hnode : tree.Admits node) (hreach : Reach node (Config.For start chain schedule) (some c) w)
    (hshown : N.Shown node') (hfirst : N.first ≤ start)
    (hsteps : Steps node' c w outcomes w') :
    outcomes.countP Outcome.isReorg ≤ 1 ∧
    (.idle ∉ outcomes → outcomes.length ≤ 1 + (N.tip + 1 - start)) ∧
    (outcomes.getLast? = some .idle → (∀ id, w'.head = some id → id.number ≤ N.tip) →
      w'.store.canonicalChain =
        (List.range' start (N.tip + 1 - start)).map (fun n => (N.block n).id) ∧
      ∀ (node'' : Conduct) (c' : Config) (outcomes' : List Outcome) (fresh : World),
        N.Shown node'' → c'.startBlock = start → c'.schedule = schedule →
        Steps node'' c' (.fresh c') outcomes' fresh → outcomes'.getLast? = some .idle →
        w'.store.canonicalBalances = fresh.store.canonicalBalances) := by
  obtain ⟨blocks, hready⟩ := ready_of_reach hnode hreach
  have hc := hreach.kind
  obtain ⟨hcount, hlength⟩ := steps_to_branch hready hshown hfirst hc hsteps
  refine ⟨hcount, hlength, fun hlast hbelow => ?_⟩
  obtain ⟨blocks', hready', hcaught, _⟩ := ready_of_steps hready hshown hfirst hc hsteps
  have hblocks := hready'.eq_branch hshown hfirst hc.1.1 (hcaught hlast) hbelow
  refine ⟨?_, fun node'' c' outcomes' fresh hshown' hstart hschedule hfresh hlast' => ?_⟩
  · rw [hready'.standing.canonicalChain_eq, hblocks, List.map_map]
    rfl
  · have hc' : c'.For start c'.chainId schedule := ⟨⟨hstart, rfl⟩, hschedule⟩
    obtain ⟨blocks'', hready'', hcaught'', hpasses⟩ := ready_of_steps
      (ready_fresh tree start c'.chainId schedule c') hshown' hfirst hc' hfresh
    have hblocks'' := hready''.eq_branch hshown' hfirst hstart (hcaught'' hlast') fun id hid =>
      (hpasses (fun _ hnone => by cases hnone) id hid).le_tip
    rw [hblocks] at hready'
    rw [hblocks''] at hready''
    exact canonicalBalances_eq hready'.standing hready'.kept hready''.standing hready''.kept

/-! An importer that has followed the old branch of the fork follows the new one. -/

def newLine : Branch forkedTree where
  first := 0
  tip := 1
  block n := if n = 0 then plainBlock 0 ⟨1⟩ ⟨0⟩ else plainBlock 1 ⟨3⟩ ⟨1⟩
  held {n} _ htip := by
    obtain rfl | rfl : n = 0 ∨ n = 1 := by omega
    · exact ⟨by simp [forkedTree, oldBranch], rfl⟩
    · exact ⟨by simp [forkedTree, newBranch], rfl⟩
  linked {n} _ htip := by
    obtain rfl : n = 0 := by omega
    rfl

theorem shown_newLine : newLine.Shown (plainConduct newBranch) where
  admits := BlockTree.admits_plain (fun _ hb => List.mem_append_right _ hb) fun _ => rfl
  latest h := (Except.ok.inj (gives_plainConduct h)).symm
  numbered {n b} h := by
    have hanswer := gives_plainConduct h
    match n with
    | 0 => exact ⟨Nat.le_refl 0, Nat.zero_le 1, (Except.ok.inj hanswer).symm⟩
    | 1 => exact ⟨Nat.zero_le 1, Nat.le_refl 1, (Except.ok.inj hanswer).symm⟩
    | n + 2 => simp [plainAnswer, newBranch, plainBlock] at hanswer

theorem converges_to_branch_fork : ∃ w w' fresh : World,
    Reach forkedNode (Config.For 0 1 evenSettings.schedule) (some evenSettings) w ∧
      w.store.canonicalBlocks = oldBranch ∧
      Steps (plainConduct newBranch) evenSettings w
        [.reorged ⟨0, ⟨1⟩⟩ 1, .committed ⟨1, ⟨3⟩⟩, .idle] w' ∧
      w'.store.canonicalChain = [⟨0, ⟨1⟩⟩, ⟨1, ⟨3⟩⟩] ∧
      Steps (plainConduct newBranch) evenSettings (.fresh evenSettings)
        [.committed ⟨0, ⟨1⟩⟩, .committed ⟨1, ⟨3⟩⟩, .idle] fresh ∧
      w'.store.canonicalBalances = fresh.store.canonicalBalances := by
  let before := (play evenSettings [oldBranch, oldBranch] (.start .empty evenSettings 0)).2
  let three := [newBranch, newBranch, newBranch]
  have hold : ∀ blocks ∈ [oldBranch, oldBranch], ∀ focus call reply,
      plainConduct blocks focus call reply → forkedNode focus call reply := by
    intro blocks hblocks focus call reply hreply
    simp only [List.mem_cons, List.not_mem_nil, or_false, or_self] at hblocks
    subst hblocks
    exact .inl hreply
  have hnew : ∀ blocks ∈ three, ∀ focus call reply,
      plainConduct blocks focus call reply → plainConduct newBranch focus call reply := by
    intro blocks hblocks focus call reply hreply
    simp only [three, List.mem_cons, List.not_mem_nil, or_false, or_self] at hblocks
    subst hblocks
    exact hreply
  have hstart : Reach forkedNode (Config.For 0 1 evenSettings.schedule) (some evenSettings)
      ((Session.start .empty evenSettings 0).world id none) := reach_start ⟨⟨rfl, rfl⟩, rfl⟩
  obtain ⟨focus, hreach⟩ := reach_play hold hstart
  have houtcomes : (play evenSettings three before).1 =
      [.reorged ⟨0, ⟨1⟩⟩ 1, .committed ⟨1, ⟨3⟩⟩, .idle].map some := by decide +kernel
  have hfreshly : (play evenSettings three (.start .empty evenSettings 0)).1 =
      [.committed ⟨0, ⟨1⟩⟩, .committed ⟨1, ⟨3⟩⟩, .idle].map some := by decide +kernel
  have hhead : (play evenSettings three before).2.head = some ⟨1, ⟨3⟩⟩ := by decide +kernel
  have hbefore : before.outside.canonicalBlocks = oldBranch := by decide +kernel
  obtain ⟨focus', hsteps⟩ := steps_play focus hnew houtcomes
  obtain ⟨focus'', hfresh⟩ := steps_play none hnew hfreshly
  obtain ⟨_, _, hconverges⟩ := converges_to_branch admits_forkedNode hreach shown_newLine
    (Nat.le_refl 0) hsteps
  obtain ⟨hchain, hbalances⟩ := hconverges rfl fun id hid => by
    cases hhead.symm.trans hid
    exact Nat.le_refl 1
  exact ⟨_, _, _, hreach, hbefore, hsteps, hchain, hfresh,
    hbalances _ _ _ _ shown_newLine rfl rfl hfresh rfl⟩

end ChainIngest.Importer
