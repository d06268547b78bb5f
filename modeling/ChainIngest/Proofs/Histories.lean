import ChainIngest.Proofs.Sessions
/-!
# Histories

Importers come and go over one store.  Each takes its head from the cursor before
its first step; a step may fail, and it may be broken off between any two
requests, and then the next importer enters.  The node may be on any branch of a
tree of blocks at any time, as long as all it says of a block fits that tree.
-/

namespace ChainIngest.Importer

/-! ## Consistent nodes -/

/-- All that can be known of the blocks of a chain and its forks.  A block is known by its hash. -/
structure BlockTree where
  Holds : Block → Prop
  receipts : Hash → List Receipt
  /-- Traces by block and transaction. -/
  trace : Hash → Hash → CallTrace
  /-- A hash belongs to one block. -/
  unique : ∀ {a b}, Holds a → Holds b → a.hash = b.hash → a = b
  /-- A block stands one above its parent. -/
  parent : ∀ {a b}, Holds a → Holds b → b.parentHash = a.hash → b.number = a.number + 1

namespace BlockTree

/-- Whether an answer fits the tree.  Traces are those of the block whose receipts were asked for
last. -/
def Serves (tree : BlockTree) (focus : Option Hash) : (call : NodeCall) → call.Answer → Prop
  | .block (.number number), b => tree.Holds b ∧ b.number = number
  | .block (.hash hash), b => tree.Holds b ∧ b.hash = hash
  | .receipts block, receipts => receipts = tree.receipts block
  | .trace tx, t => ∀ block, focus = some block → t = tree.trace block tx
  | .chainId, _ => True
  | .latestBlockNumber, _ => True
  | .code _ _, _ => True

/-- A conduct whose answers all fit the tree; it may fail and change its mind as it likes. -/
def Admits (tree : BlockTree) (node : Conduct) : Prop :=
  ∀ focus call a, node focus call (.ok a) → tree.Serves focus call a

variable {tree : BlockTree} {node : Conduct}

theorem Admits.holds_of_number {number : Nat} {b : Block} (h : tree.Admits node)
    (hb : node.Gives (.block (.number number)) b) : tree.Holds b ∧ b.number = number := by
  obtain ⟨focus, hb⟩ := hb
  exact h focus (.block (.number number)) b hb

theorem Admits.holds_of_hash {hash : Hash} {b : Block} (h : tree.Admits node)
    (hb : node.Gives (.block (.hash hash)) b) : tree.Holds b ∧ b.hash = hash := by
  obtain ⟨focus, hb⟩ := hb
  exact h focus (.block (.hash hash)) b hb

end BlockTree

/-! ## Importers in turn -/

/-- The states that importers with settings of one kind lead to, from an empty store on; with the
settings of the importer that is at work, if one is.  To enter it takes its head from the cursor;
an entry that is broken off writes nothing, so nothing is said of it. -/
inductive Reach (node : Conduct) (kind : Config → Prop) : Option Config → World → Prop where
  | start (c : Config) : Reach node kind none (.fresh c)
  | enter {c : Config} {at_work : Option Config} {w w' : World} : Reach node kind at_work w →
      kind c → Runs node (restoreHead c) (w.renewed c) (some (.ok ())) w' →
      Reach node kind (some c) w'
  | step {c : Config} {out : Option (Except IngestError Outcome)} {w w' : World} :
      Reach node kind (some c) w → Runs node (importNext c) w out w' →
      Reach node kind (if out.isSome then some c else none) w'

variable {node : Conduct} {c : Config} {w w' : World}

theorem Reach.kind {kind : Config → Prop} (h : Reach node kind (some c) w) : kind c := by
  generalize hwork : some c = at_work at h
  induction h with
  | start => cases hwork
  | enter _ hkind _ _ =>
      cases hwork
      exact hkind
  | step _ _ ih =>
      split at hwork
      · exact ih hwork
      · cases hwork

theorem Reach.mono {kind kind' : Config → Prop} {at_work : Option Config}
    (h : Reach node kind at_work w) (hkind : ∀ c, kind c → kind' c) : Reach node kind' at_work w := by
  induction h with
  | start c => exact .start c
  | enter _ hc hrestore ih => exact .enter ih (hkind _ hc) hrestore
  | step _ hstep ih => exact .step ih hstep

theorem runs_restoreHead (h : Runs node (restoreHead c) w (some (.ok ())) w')
    (hhead : w.head = none) :
    w'.store = w.store ∧ w'.head = (w.store.cursor? c.chainId).map Cursor.head := by
  unfold restoreHead at h
  rcases runs_bind_look (fun _ => rfl) h with ⟨hout, _⟩ | h
  · exact absurd hout (not_unfinished_ok _)
  split at h
  · next hnone =>
    obtain ⟨_, rfl⟩ := runs_pure_iff.mp h
    rw [hnone]
    exact ⟨rfl, hhead⟩
  · next cursor hcursor =>
    rcases runs_bind_look (fun _ => rfl) h with ⟨hout, _⟩ | h₁
    · exact absurd hout (not_unfinished_ok _)
    · rcases runs_request h₁ with ⟨hnone, _⟩ | ⟨_, rfl, _⟩
      · cases hnone
      · rw [hcursor]
        exact ⟨rfl, rfl⟩

inductive Steps (node : Conduct) (c : Config) : World → List Outcome → World → Prop where
  | nil {w : World} : Steps node c w [] w
  | cons {w w₁ w' : World} {outcome : Outcome} {rest : List Outcome} :
      Runs node (importNext c) w (some (.ok outcome)) w₁ → Steps node c w₁ rest w' →
      Steps node c w (outcome :: rest) w'

theorem Reach.steps {kind : Config → Prop} {outcomes : List Outcome}
    (h : Reach node kind (some c) w) (hsteps : Steps node c w outcomes w') :
    Reach node kind (some c) w' := by
  induction hsteps with
  | nil => exact h
  | cons hstep _ ih => exact ih (h.step hstep)

/-! ## Led importers -/

def lead (c : Config) : List (Surroundings Store) → Session Store →
    List (Option Outcome) × Session Store
  | [], s => ([], s)
  | around :: rest, s =>
      let (out, s) := s.perform around none (importNext c)
      let (outs, s) := lead c rest s
      (out.bind Except.toOption :: outs, s)

theorem reach_start {kind : Config → Prop} (hkind : kind c) :
    Reach node kind (some c) ((Session.start .empty c 0).world id none) :=
  .enter (.start c) hkind (.ask (.inl ⟨0, rfl, rfl⟩) .done)

/-- Surroundings with the in-memory store and a node that answers every call within a conduct. -/
structure Surroundings.Answering (around : Surroundings Store) (node : Conduct) : Prop where
  within : around.Within id node
  answers : ∀ call s, ∃ reply, (around.node call s).1 = .answer reply

theorem runs_lead_step {around : Surroundings Store} (haround : around.Answering node)
    (s : Session Store) (focus : Option Hash) :
    ∃ result focus', (s.perform around none (importNext c)).1 = some result ∧
      Runs node (importNext c) (s.world id focus) (some result)
        ((s.perform around none (importNext c)).2.world id focus') := by
  obtain ⟨focus', hruns⟩ := Session.runs_of_perform haround.within none (importNext c) s focus
  have hends : (s.perform around none (importNext c)).1.isSome :=
    Session.perform_isSome haround.answers (importNext c) s
  obtain ⟨result, hresult⟩ := Option.isSome_iff_exists.mp hends
  rw [hresult] at hruns
  exact ⟨result, focus', hresult, hruns⟩

theorem reach_lead {kind : Config → Prop} {arounds : List (Surroundings Store)} {s : Session Store}
    {focus : Option Hash} (harounds : ∀ around ∈ arounds, around.Answering node)
    (h : Reach node kind (some c) (s.world id focus)) :
    ∃ focus', Reach node kind (some c) ((lead c arounds s).2.world id focus') := by
  induction arounds generalizing s focus with
  | nil => exact ⟨focus, h⟩
  | cons around rest ih =>
      obtain ⟨result, focus₁, _, hruns⟩ :=
        runs_lead_step (c := c) (harounds around List.mem_cons_self) s focus
      exact ih (fun a ha => harounds a (List.mem_cons_of_mem _ ha)) (h.step hruns)

theorem steps_lead {arounds : List (Surroundings Store)} {s : Session Store}
    {outcomes : List Outcome} (focus : Option Hash)
    (harounds : ∀ around ∈ arounds, around.Answering node)
    (h : (lead c arounds s).1 = outcomes.map some) :
    ∃ focus', Steps node c (s.world id focus) outcomes ((lead c arounds s).2.world id focus') := by
  induction arounds generalizing s focus outcomes with
  | nil =>
      obtain rfl : outcomes = [] := by simpa [lead] using h.symm
      exact ⟨focus, .nil⟩
  | cons around rest ih =>
      obtain ⟨result, focus₁, hresult, hruns⟩ :=
        runs_lead_step (c := c) (harounds around List.mem_cons_self) s focus
      cases outcomes with
      | nil => cases h
      | cons outcome others =>
          obtain ⟨hfirst, hothers⟩ := List.cons.inj h
          obtain ⟨focus', hsteps⟩ :=
            ih focus₁ (fun a ha => harounds a (List.mem_cons_of_mem _ ha)) hothers
          change (s.perform around none (importNext c)).1.bind Except.toOption = some outcome at hfirst
          rw [hresult] at hfirst
          cases result with
          | error e => cases hfirst
          | ok o =>
              cases hfirst
              exact ⟨focus', .cons hruns hsteps⟩

/-! ## Plain blocks -/

def play (c : Config) : List (List Block) → Session Store → List (Option Outcome) × Session Store
  | [], s => ([], s)
  | blocks :: rest, s =>
      let (out, s) := s.perform (.plain blocks false) none (importNext c)
      let (outs, s) := play c rest s
      (out.bind Except.toOption :: outs, s)

theorem play_eq_lead (lists : List (List Block)) (s : Session Store) :
    play c lists s = lead c (lists.map fun blocks => .plain blocks false) s := by
  induction lists generalizing s with
  | nil => rfl
  | cons blocks rest ih =>
      simp only [play, lead, List.map_cons, ih]

theorem answering_plain {lists : List (List Block)}
    (hnode : ∀ blocks ∈ lists, ∀ focus call reply, plainConduct blocks focus call reply →
      node focus call reply) :
    ∀ around ∈ lists.map fun blocks => Surroundings.plain blocks false, around.Answering node := by
  intro around haround
  obtain ⟨blocks, hblocks, rfl⟩ := List.mem_map.mp haround
  exact ⟨(Surroundings.within_plain blocks false).mono (hnode blocks hblocks),
    fun call _ => ⟨plainAnswer blocks call, rfl⟩⟩

theorem reach_play {kind : Config → Prop} {lists : List (List Block)} {s : Session Store}
    {focus : Option Hash}
    (hnode : ∀ blocks ∈ lists, ∀ focus call reply, plainConduct blocks focus call reply →
      node focus call reply)
    (h : Reach node kind (some c) (s.world id focus)) :
    ∃ focus', Reach node kind (some c) ((play c lists s).2.world id focus') := by
  rw [play_eq_lead]
  exact reach_lead (answering_plain hnode) h

theorem steps_play {lists : List (List Block)} {s : Session Store} {outcomes : List Outcome}
    (focus : Option Hash)
    (hnode : ∀ blocks ∈ lists, ∀ focus call reply, plainConduct blocks focus call reply →
      node focus call reply)
    (h : (play c lists s).1 = outcomes.map some) :
    ∃ focus', Steps node c (s.world id focus) outcomes ((play c lists s).2.world id focus') := by
  rw [play_eq_lead] at h ⊢
  exact steps_lead focus (answering_plain hnode) h

theorem BlockTree.serves_plain {tree : BlockTree} {blocks : List Block} {which : BlockRef}
    {b : Block} (hheld : ∀ b ∈ blocks, tree.Holds b) (focus : Option Hash)
    (h : plainAnswer blocks (.block which) = .ok b) : tree.Serves focus (.block which) b := by
  cases which with
  | number number =>
      simp only [plainAnswer] at h
      split at h
      · next hfind =>
        cases h
        have hnumber := List.find?_some hfind
        exact ⟨hheld b (List.mem_of_find?_eq_some hfind), by simpa using hnumber⟩
      · cases h
  | hash hash =>
      simp only [plainAnswer] at h
      split at h
      · next hfind =>
        cases h
        have hhash := List.find?_some hfind
        exact ⟨hheld b (List.mem_of_find?_eq_some hfind), by simpa using hhash⟩
      · cases h

theorem BlockTree.admits_plain {tree : BlockTree} {blocks : List Block}
    (hheld : ∀ b ∈ blocks, tree.Holds b) (hreceipts : ∀ block, tree.receipts block = []) :
    tree.Admits (plainConduct blocks) := by
  intro focus call a ha
  have ha : plainAnswer blocks call = .ok a := gives_plainConduct ⟨focus, ha⟩
  cases call with
  | block which => exact BlockTree.serves_plain hheld focus ha
  | receipts block =>
      cases ha
      exact (hreceipts block).symm
  | trace tx => cases ha
  | chainId => trivial
  | latestBlockNumber => trivial
  | code contract number => trivial

end ChainIngest.Importer
