import Mathlib.Data.Set.Function
import ChainIngest.Proofs.Classification
import ChainIngest.Proofs.LogRows
import ChainIngest.Proofs.Transcripts
/-!
# Resolution

Before the logs of a block are read, the capabilities of every contract that emits a
transfer are settled: by the code of its last creation in the block, else by the
store, else by the code that the node serves for it.  A transcript of the step tells
how often the node was asked for code: once for every creation whose trace shows
none, and once for every emitter that neither the block nor the store knows.
-/

namespace ChainIngest.Importer

open Capability (Cache)
open Store (Table)

variable {node : Conduct} {c : Config} {w w' : World} {log : List Said} {codes : Set Bytes}
  {number : Nat}

/-! ## Remembered detections -/

/-- A memory that holds of each hash what code with this hash offers. -/
def Recalls (codes : Set Bytes) (cache : Cache) : Prop :=
  ∀ e ∈ cache.entries, ∃ code ∈ codes, e = (keccak256 code, Capability.detect code)

theorem recalls_new (capacity : Nat) : Recalls codes (.new capacity) := by
  simp [Recalls, Cache.new]

theorem Recalls.use {cache : Cache} {code : Bytes} (h : Recalls codes cache) (hcode : code ∈ codes) :
    Recalls codes (cache.use (keccak256 code) (Capability.detect code)) := by
  intro e he
  rcases mem_of_used he with rfl | he
  · exact ⟨code, hcode, rfl⟩
  · exact h e he

theorem Recalls.detect {cache : Cache} {code : Bytes} (h : Recalls codes cache)
    (hhash : codes.InjOn keccak256) (hcode : code ∈ codes) :
    (cache.detect code).1.found = Capability.detect code ∧ Recalls codes (cache.detect code).2 := by
  unfold Cache.detect
  dsimp only
  split
  · next found hfound =>
    obtain ⟨other, hother, heq⟩ := h _ (mem_of_cached hfound)
    obtain ⟨hsame, rfl⟩ := Prod.mk.inj heq
    obtain rfl := hhash hcode hother hsame
    exact ⟨rfl, h.use hcode⟩
  · exact ⟨rfl, h.use hcode⟩

theorem says_classify (hhash : codes.InjOn keccak256) {code : Bytes} {found : Capabilities}
    (hcode : code ∈ codes) (hcache : Recalls codes w.cache)
    (h : Says node (Step.request (.classify code)) w log found w') :
    answersIn log = [] ∧ found = Capability.detect code ∧ Recalls codes w'.cache ∧
      w'.store = w.store := by
  obtain ⟨rfl, hreply, rfl⟩ := says_request h
  obtain ⟨hfound, hrecalls⟩ := hcache.detect hhash hcode
  exact ⟨rfl, hreply.trans hfound, hrecalls, rfl⟩

/-! ## Creations -/

theorem says_codeOf {created : ContractCreated} {code : Bytes}
    (h : Says node (codeOf c number created) w log code w') :
    answersIn log = (if created.code.isEmpty then [servedCode number (created.address, code)] else []) ∧
      (created.code ≠ [] → code = created.code) ∧ w'.cache = w.cache := by
  unfold codeOf at h
  split at h
  · next hempty =>
    obtain ⟨_, hasked⟩ := answered_of_callNode h.runs
    rw [if_pos hempty, hasked, cache_asking]
    exact ⟨answersIn_callNode h, fun hshown => absurd (List.isEmpty_iff.mp hempty) hshown, rfl⟩
  · next hshown =>
    obtain ⟨rfl, rfl, rfl⟩ := says_pure h
    rw [if_neg hshown]
    exact ⟨rfl, fun _ => rfl, rfl⟩

/-- The creation that a trace shows, with its code asked for if need be and read. -/
structure Completes (shown row : ContractCreated) : Prop where
  same : SameCreation shown row
  code : shown.code ≠ [] → row.code = shown.code
  capabilities : row.capabilities = Capability.detect row.code
  contractType : row.contractType = row.capabilities.contractType

/-- The created contracts whose code the traces do not show, with the code that they have. -/
def unshown (shown rows : List ContractCreated) : List (Address × Bytes) :=
  ((shown.zip rows).filter fun e => e.1.code.isEmpty).map fun e => (e.1.address, e.2.code)

theorem unshown_cons (a b : ContractCreated) (shown rows : List ContractCreated) :
    unshown (a :: shown) (b :: rows) =
      (if a.code.isEmpty then [(a.address, b.code)] else []) ++ unshown shown rows := by
  unfold unshown
  rw [List.zip_cons_cons, List.filter_cons]
  split <;> rfl

theorem completed_of_says (hhash : codes.InjOn keccak256) {shown rows : List ContractCreated}
    {known after : KnownContracts}
    (h : Says node (classifyCreated c number shown known) w log (rows, after) w')
    (hcodes : ∀ row ∈ rows, row.code ∈ codes) (hcache : Recalls codes w.cache) :
    List.Forall₂ Completes shown rows ∧
      answersIn log = (unshown shown rows).map (servedCode number) ∧
      after = rows.foldl (fun t row => t.insert row.address (Capability.detect row.code)) known ∧
      Recalls codes w'.cache := by
  induction shown generalizing known rows after w w' log with
  | nil =>
      obtain ⟨rfl, hresult, rfl⟩ := says_pure h
      cases hresult
      exact ⟨.nil, rfl, rfl, hcache⟩
  | cons created rest ih =>
      rw [classifyCreated_cons] at h
      obtain ⟨log₁, _, code, w₁, rfl, hcode, h₁⟩ := says_bind h
      obtain ⟨log₂, _, found, w₂, rfl, hfound, h₂⟩ := says_bind h₁
      obtain ⟨log₃, _, ⟨later, _⟩, w₃, rfl, hrest, h₃⟩ := says_bind h₂
      obtain ⟨rfl, hresult, rfl⟩ := says_pure h₃
      cases hresult
      obtain ⟨hmem, hlater⟩ : code ∈ codes ∧ ∀ row ∈ later, row.code ∈ codes :=
        List.forall_mem_cons.mp hcodes
      obtain ⟨hanswers₁, hshown, hsame⟩ := says_codeOf hcode
      rw [← hsame] at hcache
      obtain ⟨hanswers₂, rfl, hcache, _⟩ := says_classify hhash hmem hcache hfound
      obtain ⟨hrows, hanswers₃, hknown, hcache⟩ := ih hrest hlater hcache
      refine ⟨.cons ⟨rfl, hshown, rfl, rfl⟩ hrows, ?_, hknown, hcache⟩
      simp only [answersIn_append, hanswers₁, hanswers₂, hanswers₃, unshown_cons,
        List.map_append, List.nil_append, List.append_nil]
      split <;> rfl

/-! ## Emitters -/

def served? (late : List (Address × Bytes)) (contract : Address) : Option Capabilities :=
  (late.find? fun e => e.1 = contract).map fun e => Capability.detect e.2

/-- Emitters looked up one after another: what is known stays, what the store knows is taken from
there, and for the others code is served. -/
inductive LooksUp (s : Store) : List Address → KnownContracts → List (Address × Bytes) →
    KnownContracts → Prop where
  | nil {known : KnownContracts} : LooksUp s [] known [] known
  | known {contract : Address} {rest : List Address} {known after : KnownContracts}
      {late : List (Address × Bytes)} : (known.get? contract).isSome →
      LooksUp s rest known late after → LooksUp s (contract :: rest) known late after
  | stored {contract : Address} {rest : List Address} {known after : KnownContracts}
      {late : List (Address × Bytes)} {found : Capabilities} : known.get? contract = none →
      s.capabilities? contract = some found →
      LooksUp s rest (known.insert contract found) late after →
      LooksUp s (contract :: rest) known late after
  | late {contract : Address} {rest : List Address} {known after : KnownContracts}
      {late : List (Address × Bytes)} {code : Bytes} : known.get? contract = none →
      s.capabilities? contract = none →
      LooksUp s rest (known.insert contract (Capability.detect code)) late after →
      LooksUp s (contract :: rest) known ((contract, code) :: late) after

section LooksUp

variable {s : Store} {emitters : List Address} {known after : KnownContracts}
  {late : List (Address × Bytes)}

theorem isSome_served? {contract : Address} (h : contract ∈ late.map Prod.fst) :
    (served? late contract).isSome := by
  obtain ⟨e, he, rfl⟩ := List.mem_map.mp h
  rw [served?, Option.isSome_map, List.find?_isSome]
  exact ⟨e, he, decide_eq_true rfl⟩

theorem LooksUp.get? (h : LooksUp s emitters known late after) (contract : Address) :
    after.get? contract = (known.get? contract).or
      (if contract ∈ emitters then (s.capabilities? contract).or (served? late contract) else none) := by
  induction h with
  | nil => simp
  | @known head rest known after late hknown _ ih =>
      rw [ih]
      obtain ⟨found, hfound⟩ := Option.isSome_iff_exists.mp hknown
      by_cases hhead : contract = head
      · subst hhead
        rw [hfound]
        rfl
      · simp [hhead]
  | @stored head rest known after late found hknown hstored _ ih =>
      rw [ih]
      by_cases hhead : contract = head
      · subst hhead
        simp [hknown, hstored]
      · simp [hhead, Table.get?_insert_of_ne _ _ (Ne.symm hhead)]
  | @late head rest known after late code hknown hstored _ ih =>
      rw [ih]
      by_cases hhead : contract = head
      · subst hhead
        simp [hknown, hstored, served?]
      · simp [hhead, Ne.symm hhead, served?, Table.get?_insert_of_ne _ _ (Ne.symm hhead)]

theorem LooksUp.mem_late_iff (h : LooksUp s emitters known late after) (contract : Address) :
    contract ∈ late.map Prod.fst ↔
      contract ∈ emitters ∧ known.get? contract = none ∧ s.capabilities? contract = none := by
  induction h with
  | nil => simp
  | @known head rest known after late hknown _ ih =>
      rw [ih]
      by_cases hhead : contract = head
      · subst hhead
        simp [Option.isSome_iff_ne_none.mp hknown]
      · simp [hhead]
  | @stored head rest known after late found hknown hstored _ ih =>
      rw [ih]
      by_cases hhead : contract = head
      · subst hhead
        simp [hstored]
      · simp [hhead, Table.get?_insert_of_ne _ _ (Ne.symm hhead)]
  | @late head rest known after late code hknown hstored _ ih =>
      rw [List.map_cons, List.mem_cons, ih]
      by_cases hhead : contract = head
      · subst hhead
        simp [hknown, hstored]
      · simp [hhead, Table.get?_insert_of_ne _ _ (Ne.symm hhead)]

/-- No emitter is asked for twice: after the first time it is known. -/
theorem LooksUp.nodup (h : LooksUp s emitters known late after) : (late.map Prod.fst).Nodup := by
  induction h with
  | nil => exact .nil
  | known _ _ ih => exact ih
  | stored _ _ _ ih => exact ih
  | late _ _ hrest ih =>
      refine List.nodup_cons.mpr ⟨fun hmem => ?_, ih⟩
      have hunknown := ((hrest.mem_late_iff _).mp hmem).2.1
      simp at hunknown

end LooksUp

def lateRow (number : Nat) (e : Address × Bytes) : ClassifiedContract :=
  ⟨e.1, keccak256 e.2, Capability.detect e.2, (Capability.detect e.2).contractType, number⟩

theorem says_served {β : Type} {contract : Address} {next : Bytes → Capabilities → Step β} {b : β}
    (hhash : codes.InjOn keccak256)
    (h : Says node (do
      let code ← callNode c (.code contract number)
      let found ← Step.request (.classify code)
      next code found) w log b w')
    (hcodes : ∀ e ∈ codesIn log, e.2.2 ∈ codes) (hcache : Recalls codes w.cache) :
    ∃ later code w₁, answersIn log = servedCode number (contract, code) :: answersIn later ∧
      (∀ e ∈ codesIn later, e.2.2 ∈ codes) ∧
      Says node (next code (Capability.detect code)) w₁ later b w' ∧
      Recalls codes w₁.cache ∧ w₁.store = w.store := by
  obtain ⟨log₁, _, code, w₁, rfl, hcode, h₁⟩ := says_bind h
  obtain ⟨log₂, later, found, w₂, rfl, hfound, hnext⟩ := says_bind h₁
  have hanswer := answersIn_callNode hcode
  obtain ⟨_, hasked⟩ := answered_of_callNode hcode.runs
  obtain rfl : w₁ = w := hasked
  rw [codesIn_append, codesIn_append, List.forall_mem_append, List.forall_mem_append] at hcodes
  obtain ⟨hserved, -, hlater⟩ := hcodes
  rw [codesIn, hanswer] at hserved
  obtain ⟨hsilent, rfl, hcache, hstore⟩ :=
    says_classify hhash (hserved _ List.mem_cons_self) hcache hfound
  refine ⟨later, code, w₂, ?_, hlater, hnext, hcache, hstore⟩
  rw [answersIn_append, answersIn_append, hanswer, hsilent]
  rfl

theorem looksUp_of_says (hhash : codes.InjOn keccak256) {emitters : List Address}
    {rows : List ClassifiedContract} {known after : KnownContracts}
    (h : Says node (classifyEmitters c number emitters known) w log (rows, after) w')
    (hcodes : ∀ e ∈ codesIn log, e.2.2 ∈ codes) (hcache : Recalls codes w.cache) :
    ∃ late, LooksUp w.store emitters known late after ∧
      answersIn log = late.map (servedCode number) ∧ rows = late.map (lateRow number) ∧
      Recalls codes w'.cache := by
  induction emitters generalizing known rows after w w' log with
  | nil =>
      obtain ⟨rfl, hresult, rfl⟩ := says_pure h
      cases hresult
      exact ⟨[], .nil, rfl, rfl, hcache⟩
  | cons contract rest ih =>
      rw [classifyEmitters] at h
      split at h
      · next hknown =>
        obtain ⟨late, hlooks, hlate⟩ := ih h hcodes hcache
        exact ⟨late, .known hknown hlooks, hlate⟩
      · next hunknown =>
        have hunknown : known.get? contract = none := by simpa using hunknown
        obtain ⟨log₁, log₂, stored?, w₁, rfl, hstored, h₁⟩ := says_bind h
        obtain ⟨rfl, now, hlook, hw₁⟩ := says_store hstored
        obtain rfl : w₁ = w := hw₁
        rw [answersIn_append, answersIn_store, List.nil_append]
        rw [codesIn_append, List.forall_mem_append] at hcodes
        obtain ⟨-, hlooked⟩ := hcodes
        cases stored? with
        | some found =>
            obtain ⟨late, hlooks, hlate⟩ := ih h₁ hlooked hcache
            exact ⟨late, .stored hunknown hlook.symm hlooks, hlate⟩
        | none =>
            obtain ⟨log₃, code, w₂, hanswers, hlooked, h₂, hcache, hstore⟩ :=
              says_served hhash h₁ hlooked hcache
            obtain ⟨log₄, _, ⟨others, _⟩, w₃, rfl, hrest, h₃⟩ := says_bind h₂
            obtain ⟨rfl, hresult, rfl⟩ := says_pure h₃
            cases hresult
            rw [List.append_nil] at hanswers hlooked
            obtain ⟨late, hlooks, hlater, rfl, hcache⟩ := ih hrest hlooked hcache
            rw [hstore] at hlooks
            rw [hanswers, hlater]
            exact ⟨(contract, code) :: late, .late hunknown hlook.symm hlooks, rfl, rfl, hcache⟩

def Emits (receipts : List Receipt) (contract : Address) : Prop :=
  ∃ r ∈ receipts, ∃ log ∈ r.logs,
    log.topics.head? = some Token.transferSignature ∧ log.address = contract

theorem mem_transferEmitters_iff {receipts : List Receipt} {contract : Address} :
    contract ∈ transferEmitters receipts ↔ Emits receipts contract := by
  constructor
  · intro h
    obtain ⟨⟨_, _⟩, hentry, rfl⟩ := List.mem_map.mp h
    have hget := Table.mem_entries_iff.mp hentry
    rw [Table.get?_foldl_insert Log.address (fun _ => ())] at hget
    obtain hlast | ⟨_, hnone⟩ := Option.or_eq_some_iff.mp hget
    · obtain ⟨log, hlog, _⟩ := Option.map_eq_some_iff.mp hlast
      obtain ⟨hmem, haddress⟩ := Table.of_lastUnder hlog
      obtain ⟨hmem, htransfer⟩ := List.mem_filter.mp hmem
      obtain ⟨r, hr, hlog⟩ := List.mem_flatMap.mp hmem
      exact ⟨r, hr, log, hlog, by simpa [Token.isTransfer] using htransfer, haddress⟩
    · cases hnone
  · rintro ⟨r, hr, log, hlog, htransfer, rfl⟩
    exact mem_transferEmitters hr hlog (by simpa [Token.isTransfer] using htransfer)

/-! ## All rows -/

theorem transferOf_interpretAll (receipts : List Receipt) (known : Token.Known) :
    List.Forall₂ (fun e row => Token.TransferOf e.1 known e.2 row)
      (Token.transferLogs receipts) (interpretAll receipts known).transfers := by
  unfold interpretAll Token.transferLogs
  dsimp only
  induction receipts with
  | nil => exact .nil
  | cons r receipts ih =>
      rw [List.flatMap_cons, List.map_cons, List.flatMap_cons]
      apply List.rel_append _ ih
      rw [List.forall₂_map_left_iff]
      exact Token.transferOf_interpret r.txHash known r.logs

/-- What is known of a contract: what the code of the last of the block's creations of it offers,
else what the store knows, else what the code offers that the node serves. -/
def resolve (s : Store) (created : List ContractCreated) (late : List (Address × Bytes)) :
    Token.Known := fun contract =>
  ((Table.lastUnder ContractCreated.address created contract).map fun row =>
    Capability.detect row.code).or ((s.capabilities? contract).or (served? late contract))

/-- Rows of a block that are read with all capabilities settled before.  `shown` are the creations
that the traces show, `late` the contracts whose code the node served because nothing else told of
them, and `known` is what the logs were read with. -/
structure Resolved (s : Store) (block : Block) (log : List Said) (rows : BlockRows)
    (shown : List ContractCreated) (late : List (Address × Bytes)) (known : Token.Known) : Prop where
  /-- The creations are those of the traces that the node answered with. -/
  traced : ∃ traces extracted, tracesIn log = (txHashes block).zip traces ∧
    extractAll (txHashes block) traces = .ok extracted ∧ extracted.created = shown
  completed : List.Forall₂ Completes shown rows.created
  /-- Late are the emitters that were not created here and that the store does not know. -/
  unknown : ∀ contract, contract ∈ late.map Prod.fst ↔ Emits rows.receipts contract ∧
    (∀ row ∈ rows.created, row.address ≠ contract) ∧ s.capabilities? contract = none
  once : (late.map Prod.fst).Nodup
  classified : rows.classified = late.map (lateRow block.number)
  /-- At this height the node served code once for each creation that was shown without and once
  for each late contract, and it served no other code. -/
  asked : codesIn log = (unshown shown rows.created ++ late).map fun e => (e.1, block.number, e.2)
  settled : ∀ contract, Emits rows.receipts contract →
    (known contract).isSome ∧ known contract = resolve s rows.created late contract
  read : interpretAll rows.receipts known = ⟨rows.transfers, rows.events⟩
  /-- With three topics a log moves an item or an amount, as its emitter is known to do. -/
  values : List.Forall₂ (fun e row => Token.TransferOf e.1 known e.2 row ∧
    (e.2.topics.length = 3 →
      ((∃ id, row.value = .nonFungible id) ↔ Token.MovesIds known e.2.address)))
    (Token.transferLogs rows.receipts) rows.transfers

def knownCreated (created : List ContractCreated) : KnownContracts :=
  created.foldl (fun t row => t.insert row.address (Capability.detect row.code)) .empty

theorem get?_knownCreated (created : List ContractCreated) (contract : Address) :
    (knownCreated created).get? contract =
      (Table.lastUnder ContractCreated.address created contract).map fun row =>
        Capability.detect row.code := by
  rw [knownCreated,
    Table.get?_foldl_insert ContractCreated.address fun row => Capability.detect row.code]
  exact Option.or_none

/-- A contract that emits is known at the latest when its code was served. -/
theorem LooksUp.settled {s : Store} {receipts : List Receipt} {created : List ContractCreated}
    {after : KnownContracts} {late : List (Address × Bytes)}
    (h : LooksUp s (transferEmitters receipts) (knownCreated created) late after)
    {contract : Address} (hemits : Emits receipts contract) :
    (after.get? contract).isSome ∧ after.get? contract = resolve s created late contract := by
  have hmem := mem_transferEmitters_iff.mpr hemits
  have hget := h.get? contract
  rw [if_pos hmem] at hget
  constructor
  · rw [hget, Option.isSome_or, Option.isSome_or]
    by_cases hunknown : (knownCreated created).get? contract = none ∧ s.capabilities? contract = none
    · rw [isSome_served? ((h.mem_late_iff contract).mpr ⟨hmem, hunknown⟩)]
      simp
    · rw [not_and_or] at hunknown
      simp only [Bool.or_eq_true, Option.isSome_iff_ne_none]
      tauto
  · rw [hget, get?_knownCreated]
    rfl

/-- Before the logs of a block are read, the capabilities of every emitter of a transfer are known:
from the block, from the store or from the node, in this order.  `codes` is all code that was met
so far, in which hashes tell code apart. -/
theorem capabilities_resolved (hhash : codes.InjOn keccak256) {block : Block} {entry : ImportEntry}
    {rows : BlockRows} (h : Says node (normalize c block entry) w log rows w')
    (hcreated : ∀ row ∈ rows.created, row.code ∈ codes) (hserved : ∀ e ∈ codesIn log, e.2.2 ∈ codes)
    (hcache : Recalls codes w.cache) :
    (∃ shown late known, Resolved w.store block log rows shown late known) ∧
      Recalls codes w'.cache := by
  obtain @⟨fetched, aligned, traces, extracted, created, classified, known₁, known, _, _, log₁, log₂,
    w₁, _, _, _, _, hextracts, hcreates, hclassifies, _, _, hanswers⟩ := worksOut_of_normalize h
  have hcodes : codesIn log = codesIn log₁ ++ codesIn log₂ := by
    simp [codesIn, hanswers, List.filterMap_cons, List.filterMap_append, Function.comp_def]
  rw [hcodes, List.forall_mem_append] at hserved
  obtain ⟨hcompletes, hshown, rfl, hcache⟩ :=
    completed_of_says hhash hcreates hcreated (by rwa [cache_asking])
  obtain ⟨late, hlooks, hlate, rfl, hcache⟩ :=
    looksUp_of_says hhash hclassifies hserved.2 hcache
  have hstore : w₁.store = w.store := by
    rw [(quiet_of_probes (probes_classifyCreated c _ _ _) _ _ _ hcreates.runs).1, World.asking_store]
  rw [hstore, ← knownCreated] at hlooks
  rw [hshown, hlate] at hanswers
  refine ⟨⟨extracted.created, late, known.get?, ?_⟩, hcache⟩
  constructor
  case traced =>
    refine ⟨traces, extracted, ?_, hextracts, rfl⟩
    simp [tracesIn, txHashes, hanswers, List.filterMap_cons, List.filterMap_append,
      Function.comp_def]
  case completed => exact hcompletes
  case unknown =>
    intro contract
    rw [hlooks.mem_late_iff, mem_transferEmitters_iff, get?_knownCreated, Option.map_eq_none_iff,
      Table.lastUnder_eq_none_iff]
    rfl
  case once => exact hlooks.nodup
  case classified => rfl
  case asked =>
    change codesIn log =
      (unshown extracted.created created ++ late).map fun e => (e.1, block.number, e.2)
    simp [codesIn, hanswers, List.filterMap_cons, List.filterMap_append, Function.comp_def]
  case settled => exact fun _ hemits => hlooks.settled hemits
  case read => rfl
  case values =>
    exact (transferOf_interpretAll _ known.get?).imp fun _ _ hof => ⟨hof, hof.value.nonFungible_iff⟩

/-! Three contracts emit.  One was created in the block, one is in the store, and one, with the same
code as the first, is known to neither. -/

def tradedScene : Scene :=
  { mixedScene (.plain ⟨0x12⟩ false 21000) with
    receipts := fun block =>
      if block = ⟨2⟩ then
        [{ Receipt.plain ⟨0x11⟩ true 30000 with
          logs := [transferLog 0 ⟨0xcc⟩ 7, transferLog 1 ⟨0xdd⟩ 8, transferLog 2 ⟨0xee⟩ 9] },
         .plain ⟨0x12⟩ false 21000]
      else []
    code := fun _ => tokenCode ⟨0xcc⟩ }

def tradedStore : Store :=
  { Store.empty with
    contracts := Table.empty.insert ⟨0xdd⟩ ⟨Capabilities.empty.insert .erc20, .erc20, none⟩ }

theorem capabilities_resolved_traded : ∃ rows log w',
    tradedScene.rows tradedStore evenSettings mixedBlock mixedEntry = some rows ∧
      Says tradedScene.conduct (normalize evenSettings mixedBlock mixedEntry)
        ⟨tradedStore, none, .new evenSettings.cacheCapacity, none⟩ log rows w' ∧
      rows.transfers.map TokenTransfer.value = [.nonFungible 7, .fungible 8, .nonFungible 9] ∧
      rows.created.map ContractCreated.address = [⟨0xcc⟩] ∧
      rows.classified.map ClassifiedContract.address = [⟨0xee⟩] ∧
      (∃ shown late known, Resolved tradedStore mixedBlock log rows shown late known) ∧
      Recalls {tokenCode ⟨0xcc⟩} w'.cache := by
  have hfacts : (tradedScene.rows tradedStore evenSettings mixedBlock mixedEntry).any fun rows =>
      rows.transfers.map TokenTransfer.value = [.nonFungible 7, .fungible 8, .nonFungible 9] ∧
      rows.created.map ContractCreated.address = [⟨0xcc⟩] ∧
      rows.classified.map ClassifiedContract.address = [⟨0xee⟩] ∧
      ∀ row ∈ rows.created, row.code = tokenCode ⟨0xcc⟩ := by decide +kernel
  obtain ⟨rows, hrows, hfacts⟩ := (Option.any_eq_true _ _).mp hfacts
  obtain ⟨hvalues, hcreated, hclassified, hcodes⟩ := of_decide_eq_true hfacts
  obtain ⟨w', hruns⟩ := Scene.runs_of_rows hrows
  obtain ⟨log, hsays⟩ := exists_says hruns
  have hserved : ∀ e ∈ codesIn log, e.2.2 = tokenCode ⟨0xcc⟩ := by
    intro e he
    obtain ⟨focus, hgives⟩ := gives_of_codesIn hsays he
    exact (Except.ok.inj (Scene.answer_of_conduct hgives)).symm
  exact ⟨rows, log, w', hrows, hsays, hvalues, hcreated, hclassified,
    capabilities_resolved (Set.injOn_singleton _ _) hsays hcodes hserved (recalls_new _)⟩

end ChainIngest.Importer
