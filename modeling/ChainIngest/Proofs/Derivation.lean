import Mathlib.Data.List.Forall2
import ChainIngest.Proofs.Results
import ChainIngest.Proofs.StepEffect
import ChainIngest.Proofs.Transcripts
/-!
# Where the rows of a block come from

When the rows of a block are worked out without a failure, receipts and traces
are what the node answered for this very block, and most rows are a function of
them and of the block.
-/

namespace ChainIngest.Importer

variable {node : Conduct} {c : Config} {w w' : World} {log : List Said}

/-! ## Answers -/

theorem answered_of_callNode {call : NodeCall} {a : call.Answer}
    (h : Runs node (callNode c call) w (some (.ok a)) w') :
    node (w.asking call).focus call (.ok a) ∧ w' = w.asking call := by
  rcases runs_callNode h with ⟨hout, _⟩ | ⟨a', hout, hreply, rfl⟩
  · exact absurd hout (not_unfinished_ok a)
  · obtain rfl : a = a' := by simpa using hout
    exact ⟨hreply, rfl⟩

theorem runs_bind_ok {α β : Type} {x : Step α} {f : α → Step β} {b : β}
    (h : Runs node (x >>= f) w (some (.ok b)) w') :
    ∃ a w₁, Runs node x w (some (.ok a)) w₁ ∧ Runs node (f a) w₁ (some (.ok b)) w' := by
  rcases runs_bind_iff.mp h with ⟨hnone, _⟩ | ⟨e, hnone | herror, _⟩ | hok
  · cases hnone
  · cases hnone
  · cases herror
  · exact hok

theorem of_runs_pure {α : Type} {a b : α} (h : Runs node (pure a : Step α) w (some (.ok b)) w') :
    b = a ∧ w' = w := by
  obtain ⟨hnone | hok, rfl⟩ := runs_pure_iff.mp h
  · cases hnone
  · exact ⟨by simpa using hok, rfl⟩

theorem traced_of_fetchTraces {txs : List Hash} {traces : List CallTrace}
    (h : Runs node (fetchTraces c txs) w (some (.ok traces)) w') :
    List.Forall₂ (fun tx t => node w.focus (.trace tx) (.ok t)) txs traces ∧ w' = w := by
  induction txs generalizing traces w' with
  | nil =>
      obtain ⟨rfl, rfl⟩ := of_runs_pure h
      exact ⟨.nil, rfl⟩
  | cons tx txs ih =>
      rw [fetchTraces] at h
      obtain ⟨t, w₁, ht, h₁⟩ := runs_bind_ok h
      obtain ⟨hreply, rfl⟩ := answered_of_callNode ht
      obtain ⟨ts, w₂, hts, h₂⟩ := runs_bind_ok h₁
      obtain ⟨htraced, rfl⟩ := ih hts
      obtain ⟨rfl, rfl⟩ := of_runs_pure h₂
      exact ⟨.cons hreply htraced, rfl⟩

theorem answersIn_fetchTraces {txs : List Hash} {traces : List CallTrace}
    (h : Says node (fetchTraces c txs) w log traces w') :
    answersIn log = (txs.zip traces).map servedTrace := by
  induction txs generalizing traces w w' log with
  | nil =>
      obtain ⟨rfl, rfl, _⟩ := says_pure h
      rfl
  | cons tx txs ih =>
      rw [fetchTraces] at h
      obtain ⟨log₁, _, t, w₁, rfl, ht, h₁⟩ := says_bind h
      obtain ⟨log₂, _, ts, w₂, rfl, hts, h₂⟩ := says_bind h₁
      obtain ⟨rfl, rfl, _⟩ := says_pure h₂
      rw [List.append_nil, answersIn_append, answersIn_callNode ht, ih hts]
      rfl

/-! ## Creations -/

/-- The same creation but for its code and what is read from it. -/
def SameCreation (a b : ContractCreated) : Prop :=
  b = { a with code := b.code, capabilities := b.capabilities, contractType := b.contractType }

theorem sameCreation_of_classifyCreated {number : Nat} {created : List ContractCreated}
    {known : KnownContracts} {result : List ContractCreated × KnownContracts}
    (h : Runs node (classifyCreated c number created known) w (some (.ok result)) w') :
    List.Forall₂ SameCreation created result.1 := by
  induction created generalizing known result w w' with
  | nil =>
      obtain ⟨rfl, _⟩ := of_runs_pure h
      exact .nil
  | cons row rest ih =>
      rw [classifyCreated_cons] at h
      obtain ⟨code, w₁, _, h₁⟩ := runs_bind_ok h
      obtain ⟨found, w₂, _, h₂⟩ := runs_bind_ok h₁
      obtain ⟨after, w₃, hrows, h₃⟩ := runs_bind_ok h₂
      obtain ⟨rfl, _⟩ := of_runs_pure h₃
      exact .cons rfl (ih hrows)

/-! ## All rows -/

/-- All that happens while the rows of a block are worked out: what the node answers, how contracts
are classified, and which checks are passed. -/
inductive WorksOut (node : Conduct) (c : Config) (block : Block) (entry : ImportEntry) (w : World)
    (log : List Said) : BlockRows → World → Prop where
  | intro {fetched aligned : List Receipt} {traces : List CallTrace} {extracted : Trace.Output}
      {created : List ContractCreated} {classified : List ClassifiedContract}
      {known₁ known : KnownContracts} {committed : ImportEntry} {now : Int}
      {log₁ log₂ : List Said} {w₁ w₂ : World} :
      node (some block.hash) (.receipts block.hash) (.ok fetched) →
      alignReceipts block fetched = .ok aligned →
      List.Forall₂ (fun tx t => node (some block.hash) (.trace tx) (.ok t))
        (block.transactions.map Transaction.hash) traces →
      extractAll (block.transactions.map Transaction.hash) traces = .ok extracted →
      Says node (classifyCreated c block.number extracted.created .empty)
        (w.asking (.receipts block.hash)) log₁ (created, known₁) w₁ →
      Says node (classifyEmitters c block.number
        (transferEmitters (List.zipWith explain aligned traces)) known₁) w₁ log₂
        (classified, known) w₂ →
      (Balance.compute ⟨block, List.zipWith explain aligned traces, extracted.internal, created,
        extracted.destroyed⟩ c.schedule).verify = .ok () →
      advance entry .committed none now = .ok committed →
      answersIn log = servedReceipts block.hash fetched ::
        (((block.transactions.map Transaction.hash).zip traces).map servedTrace ++
          (answersIn log₁ ++ answersIn log₂)) →
      WorksOut node c block entry w log
        (let receipts := List.zipWith explain aligned traces
         let input := ⟨block, receipts, extracted.internal, created, extracted.destroyed⟩
         assemble c input (Balance.compute input c.schedule) classified
          (interpretAll receipts known.get?) committed now) w₂

theorem worksOut_of_normalize {block : Block} {entry : ImportEntry} {rows : BlockRows}
    (h : Says node (normalize c block entry) w log rows w') :
    WorksOut node c block entry w log rows w' := by
  unfold normalize at h
  obtain ⟨log₁, _, fetched, w₁, rfl, hfetched, h₁⟩ := says_bind h
  obtain ⟨hanswered, rfl⟩ := answered_of_callNode hfetched.runs
  obtain ⟨_, _, aligned, w₂, rfl, haligned, h₂⟩ := says_bind h₁
  obtain ⟨rfl, haligns, rfl⟩ := says_ofExcept haligned
  obtain ⟨log₃, _, traces, w₃, rfl, htraces, h₃⟩ := says_bind h₂
  obtain ⟨htraced, rfl⟩ := traced_of_fetchTraces htraces.runs
  obtain ⟨_, _, extracted, w₄, rfl, hextracted, h₄⟩ := says_bind h₃
  obtain ⟨rfl, hextracts, rfl⟩ := says_ofExcept hextracted
  obtain ⟨log₅, _, ⟨created, known₁⟩, w₅, rfl, hcreated, h₅⟩ := says_bind h₄
  obtain ⟨log₆, _, ⟨classified, known⟩, w₆, rfl, hclassified, h₆⟩ := says_bind h₅
  obtain ⟨_, _, _, w₇, rfl, hverified, h₇⟩ := says_bind h₆
  obtain ⟨rfl, hverifies, rfl⟩ := says_ofExcept hverified
  obtain ⟨_, _, now, w₈, rfl, hnow, h₈⟩ := says_bind h₇
  obtain ⟨rfl, rfl⟩ := says_request hnow
  obtain ⟨_, _, committed, w₉, rfl, hadvanced, h₉⟩ := says_bind h₈
  obtain ⟨rfl, hadvances, rfl⟩ := says_ofExcept hadvanced
  obtain ⟨rfl, rfl, rfl⟩ := says_pure h₉
  refine .intro hanswered (ok_of_mapError haligns) htraced hextracts hcreated hclassified hverifies
    hadvances ?_
  simp only [answersIn_append, answersIn_now, answersIn_callNode hfetched,
    answersIn_fetchTraces htraces, List.nil_append, List.append_nil, List.cons_append]
  rfl

/-- What is left to chance in the rows of a block: which receipts and traces the node answered
with, how contracts were classified, and the time. -/
inductive Derived (node : Conduct) (c : Config) (block : Block) (entry : ImportEntry) :
    BlockRows → Prop where
  | intro {fetched aligned : List Receipt} {traces : List CallTrace} {extracted : Trace.Output}
      {created : List ContractCreated} {classified : List ClassifiedContract}
      {known : KnownContracts} {committed : ImportEntry} {now : Int} :
      node (some block.hash) (.receipts block.hash) (.ok fetched) →
      alignReceipts block fetched = .ok aligned →
      List.Forall₂ (fun tx t => node (some block.hash) (.trace tx) (.ok t))
        (block.transactions.map Transaction.hash) traces →
      extractAll (block.transactions.map Transaction.hash) traces = .ok extracted →
      List.Forall₂ SameCreation extracted.created created →
      advance entry .committed none now = .ok committed →
      Derived node c block entry
        (let receipts := List.zipWith explain aligned traces
         let input := ⟨block, receipts, extracted.internal, created, extracted.destroyed⟩
         assemble c input (Balance.compute input c.schedule) classified
          (interpretAll receipts known.get?) committed now)

theorem derived_of_normalize {block : Block} {entry : ImportEntry} {rows : BlockRows}
    (h : Runs node (normalize c block entry) w (some (.ok rows)) w') :
    Derived node c block entry rows := by
  obtain ⟨log, hsays⟩ := exists_says h
  cases worksOut_of_normalize hsays with
  | intro hanswered haligns htraced hextracts hcreated _ _ hadvances _ =>
      exact .intro hanswered haligns htraced hextracts
        (sameCreation_of_classifyCreated hcreated.runs) hadvances

theorem Derived.marks {block : Block} {entry : ImportEntry} {rows : BlockRows}
    (h : Derived node c block entry rows) :
    rows.block = block ∧ rows.entry.id = entry.id ∧ rows.entry.canonical = entry.canonical ∧
      rows.entry.status = .committed ∧
      ∃ now, rows.cursor = ⟨c.chainId, block.number, block.hash, now⟩ := by
  cases h with
  | intro _ _ _ _ _ hadvance =>
      obtain ⟨hid, hcanonical, hstatus⟩ := of_advance_eq_ok hadvance
      exact ⟨rfl, hid, hcanonical, hstatus, _, rfl⟩

theorem Derived.attempts {block : Block} {entry : ImportEntry} {rows : BlockRows}
    (h : Derived node c block entry rows) : rows.entry.attempts = entry.attempts := by
  cases h with
  | intro _ _ _ _ _ hadvance => exact attempts_of_advance hadvance

end ChainIngest.Importer
