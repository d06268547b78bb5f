import ChainIngest.Proofs.Conversations
import ChainIngest.Proofs.TransactionRows
/-!
# Receipts in any order

A node may list the receipts of a block as it likes.  They are put in the order of the
block's transactions, or refused, and nothing that follows sees how they were listed, so
the rows of a block are the same but for the times at which they were worked out.
-/

namespace ChainIngest.Importer

variable {α β : Type} {c : Config} {block : Block}

/-! ## One receipt for each transaction -/

theorem takeReceipt_eq_none_iff {tx : Hash} {receipts : List Receipt} :
    takeReceipt? tx receipts = none ↔ tx ∉ receipts.map Receipt.txHash := by
  have hfound : receipts.reverse.find? (fun r => r.txHash = tx) = none ↔
      tx ∉ receipts.map Receipt.txHash := by
    rw [List.find?_eq_none]
    simp
  rw [← hfound, takeReceipt?]
  split
  · next r hr => simp [hr]
  · next hnone => simp [hnone]

theorem receiptsFor_cons_error_iff {tx : Hash} {txs : List Hash} {receipts : List Receipt}
    {e : NodeError} : receiptsFor (tx :: txs) receipts = .error e ↔
      (tx ∉ receipts.map Receipt.txHash ∧ e = .invalidResponse s!"missing receipt for {tx}") ∨
        (tx ∈ receipts.map Receipt.txHash ∧
          receiptsFor txs (receipts.filter fun r => r.txHash ≠ tx) = .error e) := by
  rw [receiptsFor]
  split
  · next hnone =>
    have hmissing := takeReceipt_eq_none_iff.mp hnone
    simp [hmissing, eq_comm]
  · next r rest htake =>
    obtain ⟨hr, rfl, rfl⟩ := mem_of_takeReceipt htake
    have hmem := List.mem_map_of_mem (f := Receipt.txHash) hr
    cases receiptsFor txs (receipts.filter fun r' => r'.txHash ≠ r.txHash) with
    | ok others => simp only [Except.map, hmem, not_true_eq_false, false_and, true_and, false_or,
        reduceCtorEq]
    | error e' => simp only [Except.map, hmem, not_true_eq_false, false_and, true_and, false_or]

theorem of_receiptsFor_error {txs : List Hash} {receipts : List Receipt} {e : NodeError}
    (h : receiptsFor txs receipts = .error e) :
    (∃ detail, e = .invalidResponse detail) ∧
      ¬ (txs.Nodup ∧ ∀ tx ∈ txs, tx ∈ receipts.map Receipt.txHash) := by
  induction txs generalizing receipts with
  | nil => cases h
  | cons tx txs ih =>
      rcases receiptsFor_cons_error_iff.mp h with ⟨hmissing, rfl⟩ | ⟨_, hothers⟩
      · exact ⟨⟨_, rfl⟩, fun hall => hmissing (hall.2 tx List.mem_cons_self)⟩
      · obtain ⟨hdetail, hnot⟩ := ih hothers
        refine ⟨hdetail, fun ⟨hnodup, hall⟩ => ?_⟩
        obtain ⟨hfirst, hnodup⟩ := List.nodup_cons.mp hnodup
        refine hnot ⟨hnodup, fun other hother => ?_⟩
        -- a receipt of another transaction is not taken away with those of the first
        obtain ⟨r, hr, rfl⟩ := List.mem_map.mp (hall other (List.mem_cons_of_mem tx hother))
        have hne : r.txHash ≠ tx := fun heq => hfirst (heq ▸ hother)
        exact List.mem_map_of_mem (List.mem_filter.mpr ⟨hr, by simpa using hne⟩)

theorem receiptsFor_error_perm {txs : List Hash} {receipts receipts' : List Receipt}
    {e : NodeError} (hperm : receipts.Perm receipts') (h : receiptsFor txs receipts = .error e) :
    receiptsFor txs receipts' = .error e := by
  induction txs generalizing receipts receipts' with
  | nil => cases h
  | cons tx txs ih =>
      have hhashes : tx ∈ receipts.map Receipt.txHash ↔ tx ∈ receipts'.map Receipt.txHash :=
        (hperm.map Receipt.txHash).mem_iff
      rw [receiptsFor_cons_error_iff] at h ⊢
      rw [← hhashes]
      exact h.imp_right fun ⟨hmem, hothers⟩ => ⟨hmem, ih (hperm.filter _) hothers⟩

/-! ## Receipts in another order -/

theorem eq_of_perm_of_map_eq {f : α → β} {xs ys : List α} (hperm : xs.Perm ys)
    (hmap : xs.map f = ys.map f) (hnodup : (ys.map f).Nodup) : xs = ys := by
  refine List.ext_getElem hperm.length_eq fun i hi hi' => ?_
  have hx : xs[i] ∈ ys := hperm.mem_iff.mp (List.getElem_mem hi)
  have hsame : f xs[i] = f ys[i] := by
    have hi_map : (xs.map f)[i]? = (ys.map f)[i]? := by rw [hmap]
    simpa [hi, hi'] using hi_map
  exact List.inj_on_of_nodup_map hnodup hx (List.getElem_mem hi') hsame

/-- What the receipts of a block must be: one for each transaction, which it has once, and no
others. -/
def OneForEach (block : Block) (receipts : List Receipt) : Prop :=
  (txHashes block).Nodup ∧ (receipts.map Receipt.txHash).Perm (txHashes block)

theorem length_of_oneForEach {receipts : List Receipt} (h : OneForEach block receipts) :
    receipts.length = block.transactions.length := by
  simpa [txHashes] using h.2.length_eq

theorem aligned_of_ok {receipts aligned : List Receipt}
    (h : alignReceipts block receipts = .ok aligned) :
    aligned.Perm receipts ∧ aligned.map Receipt.txHash = txHashes block ∧
      (txHashes block).Nodup := by
  unfold alignReceipts at h
  split at h
  · cases h
  · next hlength =>
    have hhashes : aligned.map Receipt.txHash = txHashes block := map_txHash_of_receiptsFor h
    have hnodup : (txHashes block).Nodup := nodup_of_receiptsFor h
    have hsub : aligned.Subperm receipts :=
      (List.Nodup.of_map _ (hhashes ▸ hnodup)).subperm fun r hr => mem_of_receiptsFor h hr
    have hcount : receipts.length ≤ aligned.length := by
      rw [← length_eq_of_txHashes hhashes]
      exact Nat.le_of_eq (not_not.mp hlength)
    exact ⟨hsub.perm_of_length_le hcount, hhashes, hnodup⟩

theorem alignReceipts_error {receipts : List Receipt} {e : NodeError}
    (h : alignReceipts block receipts = .error e) :
    (∃ detail, e = .invalidResponse detail) ∧ ¬ OneForEach block receipts := by
  unfold alignReceipts at h
  split at h
  · next hlength =>
    cases h
    exact ⟨⟨_, rfl⟩, fun heach => hlength (length_of_oneForEach heach)⟩
  · obtain ⟨hdetail, hnot⟩ := of_receiptsFor_error h
    exact ⟨hdetail, fun heach => hnot ⟨heach.1, fun tx htx => heach.2.mem_iff.mpr htx⟩⟩

theorem exists_aligned_iff {receipts : List Receipt} :
    (∃ aligned, alignReceipts block receipts = .ok aligned) ↔ OneForEach block receipts := by
  constructor
  · rintro ⟨aligned, h⟩
    obtain ⟨hperm, hhashes, hnodup⟩ := aligned_of_ok h
    exact ⟨hnodup, hhashes ▸ (hperm.map Receipt.txHash).symm⟩
  · intro heach
    cases h : alignReceipts block receipts with
    | ok aligned => exact ⟨aligned, rfl⟩
    | error e => exact absurd heach (alignReceipts_error h).2

theorem alignReceipts_error_perm {receipts receipts' : List Receipt} {e : NodeError}
    (hperm : receipts.Perm receipts') (h : alignReceipts block receipts = .error e) :
    alignReceipts block receipts' = .error e := by
  unfold alignReceipts at h ⊢
  rw [← hperm.length_eq]
  split at h
  · next hlength => rw [if_pos hlength]; exact h
  · next hlength => rw [if_neg hlength]; exact receiptsFor_error_perm hperm h

/-- Receipts are put in order, or refused, in whatever order they are listed. -/
theorem alignReceipts_perm {receipts receipts' : List Receipt} (hperm : receipts.Perm receipts') :
    alignReceipts block receipts = alignReceipts block receipts' := by
  cases h : alignReceipts block receipts with
  | error e => exact (alignReceipts_error_perm hperm h).symm
  | ok aligned =>
      cases h' : alignReceipts block receipts' with
      | error e =>
          rw [alignReceipts_error_perm hperm.symm h'] at h
          cases h
      | ok aligned' =>
          obtain ⟨hmine, hhashes, hnodup⟩ := aligned_of_ok h
          obtain ⟨hother, hhashes', _⟩ := aligned_of_ok h'
          have hboth : aligned.Perm aligned' := (hmine.trans hperm).trans hother.symm
          rw [eq_of_perm_of_map_eq hboth (hhashes.trans hhashes'.symm) (hhashes' ▸ hnodup)]

/-! ## The same conversation, told otherwise -/

/-- The same reply to the same question, but that receipts may be listed in another order and
the clock may show another time. -/
inductive Relisted : Said → Said → Prop where
  | receipts {hash : Hash} {limit : Duration} {fetched fetched' : List Receipt} :
      fetched.Perm fetched' →
      Relisted ⟨.node (.receipts hash) limit, .ok fetched⟩ ⟨.node (.receipts hash) limit, .ok fetched'⟩
  | clock (now now' : Int) : Relisted ⟨.now, now⟩ ⟨.now, now'⟩
  | same (said : Said) : Relisted said said

theorem eq_of_relisted {said said' : Said} (h : Relisted said said')
    (hprobe : said.question.Probes) : said = said' := by
  cases h with
  | receipts _ => exact hprobe.elim
  | clock _ _ => exact hprobe.elim
  | same => rfl

/-- What one program comes to in a conversation, the other comes to in the same one told
otherwise, up to a relation of their results. -/
def Echoes (R : α → β → Prop) (p : Program α) (p' : Program β) : Prop :=
  ∀ log log' a, List.Forall₂ Relisted log log' → p.Goes log a → ∃ b, p'.Goes log' b ∧ R a b

theorem echoes_done {R : α → β → Prop} {a : α} {b : β} (h : R a b) :
    Echoes R (.done a) (.done b) := by
  rintro log log' _ htold ⟨rfl, rfl⟩
  obtain rfl := List.forall₂_nil_left_iff.mp htold
  exact ⟨b, ⟨rfl, rfl⟩, h⟩

theorem split_forall₂ {R : α → β → Prop} {xs₁ xs₂ : List α} {ys : List β}
    (h : List.Forall₂ R (xs₁ ++ xs₂) ys) :
    ∃ ys₁ ys₂, ys = ys₁ ++ ys₂ ∧ List.Forall₂ R xs₁ ys₁ ∧ List.Forall₂ R xs₂ ys₂ :=
  ⟨ys.take xs₁.length, ys.drop xs₁.length, (List.take_append_drop _ _).symm,
    (List.forall₂_take_append _ _ _ h.flip).flip, (List.forall₂_drop_append _ _ _ h.flip).flip⟩

theorem Echoes.bind {γ δ : Type} {R : α → β → Prop} {Q : γ → δ → Prop} {p : Program α}
    {p' : Program β} {f : α → Program γ} {f' : β → Program δ} (hp : Echoes R p p')
    (hf : ∀ a b, R a b → Echoes Q (f a) (f' b)) : Echoes Q (p.bind f) (p'.bind f') := by
  intro log log' r htold h
  obtain ⟨log₁, log₂, a, rfl, hgone, hnext⟩ := Dialogue.goes_bind_iff.mp h
  obtain ⟨log₁', log₂', rfl, htold₁, htold₂⟩ := split_forall₂ htold
  obtain ⟨b, hgone', hab⟩ := hp _ _ _ htold₁ hgone
  obtain ⟨r', hnext', hend⟩ := hf a b hab _ _ _ htold₂ hnext
  exact ⟨r', Dialogue.goes_bind_iff.mpr ⟨log₁', log₂', b, rfl, hgone', hnext'⟩, hend⟩

theorem Echoes.step_bind {γ δ : Type} {R : α → β → Prop} {Q : γ → δ → Prop} {x : Step α}
    {y : Step β} {f : α → Step γ} {g : β → Step δ} (hx : Echoes (Alike R) x.run y.run)
    (hf : ∀ a b, R a b → Echoes (Alike Q) (f a).run (g b).run) :
    Echoes (Alike Q) (x >>= f).run (y >>= g).run := by
  rw [run_bind, run_bind]
  refine hx.bind fun r r' halike => ?_
  cases halike with
  | ok hab => exact hf _ _ hab
  | error e => exact echoes_done (.error e)

theorem echoes_of_probes {p : Program α} (hp : Dialogue.Asks Request.Probes p) :
    Echoes Eq p p := by
  intro log log' a htold h
  have hsame : List.Forall₂ Eq log log' :=
    ((List.forall₂_and_left _ _).mpr ⟨hp.of_goes h, htold⟩).imp
      fun said said' hsaid => eq_of_relisted hsaid.2 hsaid.1
  rw [List.forall₂_eq_eq_eq] at hsame
  exact ⟨a, hsame ▸ h, rfl⟩

theorem echoes_step_of_probes {x : Step α} (hx : Dialogue.Asks Request.Probes x.run) :
    Echoes (Alike Eq) x.run x.run := by
  intro log log' r htold h
  obtain ⟨_, h', rfl⟩ := echoes_of_probes hx log log' r htold h
  exact ⟨r, h', Alike.refl r⟩

theorem echoes_request {q : Request} {R : q.Reply → q.Reply → Prop}
    (hR : ∀ reply reply', Relisted ⟨q, reply⟩ ⟨q, reply'⟩ → R reply reply') :
    Echoes R (Program.request q) (Program.request q) := by
  rintro log log' _ htold ⟨reply, rest, rfl, rfl, rfl⟩
  obtain ⟨⟨q', reply'⟩, rest', hsaid, hrest, rfl⟩ := List.forall₂_cons_left_iff.mp htold
  obtain rfl := List.forall₂_nil_left_iff.mp hrest
  obtain rfl : q' = q := by cases hsaid <;> rfl
  exact ⟨reply', ⟨reply', [], rfl, rfl, rfl⟩, hR _ _ hsaid⟩

theorem echoes_now : Echoes (Alike fun _ _ => True) (Step.request .now).run
    (Step.request .now).run := by
  refine (echoes_request (R := fun _ _ => True) fun _ _ _ => trivial).bind ?_
  exact fun now now' _ => echoes_done (.ok trivial)

theorem echoes_callWith (hash : Hash) (left : Nat) :
    Echoes (Alike List.Perm) (callWith c (.receipts hash) left)
      (callWith c (.receipts hash) left) := by
  have hfetch : Echoes (Alike List.Perm) (Program.request (.node (.receipts hash) c.nodeTimeout))
      (Program.request (.node (.receipts hash) c.nodeTimeout)) := by
    refine echoes_request (q := .node (.receipts hash) c.nodeTimeout) (R := Alike List.Perm)
      fun reply reply' hsaid => ?_
    cases hsaid with
    | receipts hperm => exact .ok hperm
    | same =>
        cases reply with
        | ok fetched => exact .ok (.refl fetched)
        | error e => exact .error e
  induction left with
  | zero => exact hfetch
  | succ left ih =>
      refine hfetch.bind fun reply reply' halike => ?_
      cases halike with
      | ok hperm => exact echoes_done (.ok hperm)
      | error e =>
          show Echoes _ (if e.isTransient then _ else _) (if e.isTransient then _ else _)
          split
          · have hcount : Dialogue.Asks Request.Probes (Program.request
                (.count (.nodeRetries (NodeCall.receipts hash).operation) 1)) :=
              .ask trivial fun _ => .done
            have hpause : Dialogue.Asks Request.Probes (Program.request
                (.sleep (c.backoff (c.nodeRetries - left)))) :=
              .ask trivial fun _ => .done
            exact (echoes_of_probes hcount).bind fun _ _ _ =>
              (echoes_of_probes hpause).bind fun _ _ _ => ih
          · exact echoes_done (.error e)

theorem echoes_receipts (hash : Hash) :
    Echoes (Alike List.Perm) (callNode c (.receipts hash)).run
      (callNode c (.receipts hash)).run := by
  intro log log' r htold h
  obtain ⟨reply, hcalls, rfl⟩ := goes_callNode_iff.mp h
  obtain ⟨reply', hcalls', halike⟩ := echoes_callWith hash c.nodeRetries _ _ _ htold hcalls
  exact ⟨_, goes_callNode_iff.mpr ⟨reply', hcalls', rfl⟩, halike.mapError IngestError.node⟩

def untimed (rows : BlockRows) : BlockRows :=
  { rows with
    entry := { rows.entry with updatedAt := 0 }
    cursor := { rows.cursor with updatedAt := 0 } }

theorem alike_advance (entry : ImportEntry) (next : ImportStatus) (error : Option String)
    (now now' : Int) : Alike (fun e e' : ImportEntry => e' = { e with updatedAt := now' })
      (advance entry next error now) (advance entry next error now') := by
  unfold advance
  split
  · exact .ok rfl
  · exact .error _

theorem echoes_normalize (block : Block) (entry : ImportEntry) :
    Echoes (Alike fun rows rows' => untimed rows = untimed rows')
      (normalize c block entry).run (normalize c block entry).run := by
  refine (echoes_receipts block.hash).step_bind fun fetched fetched' hperm => ?_
  rw [alignReceipts_perm hperm]
  refine (echoes_step_of_probes .done).step_bind fun aligned _ heq => ?_
  subst heq
  refine (echoes_step_of_probes (probes_fetchTraces c _)).step_bind fun traces _ heq => ?_
  subst heq
  refine (echoes_step_of_probes .done).step_bind fun extracted _ heq => ?_
  subst heq
  refine (echoes_step_of_probes (probes_classifyCreated c _ _ _)).step_bind fun created _ heq => ?_
  subst heq
  refine (echoes_step_of_probes (probes_classifyEmitters c _ _ _)).step_bind
    fun classified _ heq => ?_
  subst heq
  refine (echoes_step_of_probes .done).step_bind fun _ _ _ => ?_
  refine echoes_now.step_bind fun now now' _ => ?_
  refine Echoes.step_bind (echoes_done (alike_advance entry .committed none now now'))
    fun committed committed' heq => ?_
  subst heq
  exact echoes_done (.ok rfl)

/-- The receipts that a node lists are put in the order of the block's transactions exactly where
there is one for each transaction and no other, the block having no transaction twice; they are
refused as an invalid response where it is not so.  In whatever order they are listed the outcome
is the same, and so are the rows of the block but for the times in them, whatever else is said
while they are worked out. -/
theorem receipts_in_any_order (c : Config) (block : Block) (entry : ImportEntry)
    (receipts : List Receipt) :
    ((∃ aligned, alignReceipts block receipts = .ok aligned) ↔
      (txHashes block).Nodup ∧ (receipts.map Receipt.txHash).Perm (txHashes block)) ∧
    (∀ aligned, alignReceipts block receipts = .ok aligned →
      aligned.Perm receipts ∧ aligned.map Receipt.txHash = txHashes block) ∧
    (¬ ((txHashes block).Nodup ∧ (receipts.map Receipt.txHash).Perm (txHashes block)) →
      ∃ detail, alignReceipts block receipts = .error (.invalidResponse detail)) ∧
    (∀ receipts' : List Receipt, receipts.Perm receipts' →
      alignReceipts block receipts = alignReceipts block receipts') ∧
    ∀ log log' r, List.Forall₂ Relisted log log' → (normalize c block entry).run.Goes log r →
      ∃ r', (normalize c block entry).run.Goes log' r' ∧ r'.map untimed = r.map untimed := by
  refine ⟨exists_aligned_iff, fun aligned hok => ?_, fun hnot => ?_,
    fun receipts' hperm => alignReceipts_perm hperm, fun log log' r htold h => ?_⟩
  · obtain ⟨hperm, hhashes, _⟩ := aligned_of_ok hok
    exact ⟨hperm, hhashes⟩
  · cases hresult : alignReceipts block receipts with
    | ok aligned => exact absurd (exists_aligned_iff.mp ⟨aligned, hresult⟩) hnot
    | error e =>
        obtain ⟨⟨detail, rfl⟩, _⟩ := alignReceipts_error hresult
        exact ⟨detail, rfl⟩
  · obtain ⟨r', h', halike⟩ := echoes_normalize block entry log log' r htold h
    refine ⟨r', h', ?_⟩
    cases halike with
    | ok hsame => exact congrArg Except.ok hsame.symm
    | error e => rfl

def reversed : Said → Said
  | ⟨.node (.receipts hash) limit, .ok fetched⟩ => ⟨.node (.receipts hash) limit, .ok fetched.reverse⟩
  | said => said

theorem relisted_reversed (said : Said) : Relisted said (reversed said) := by
  unfold reversed
  split
  · exact .receipts (List.reverse_perm _).symm
  · exact .same _

theorem receipts_in_any_order_reversed :
    (alignReceipts mixedBlock [.plain ⟨0x12⟩ false 21000, .plain ⟨0x11⟩ true 30000] =
      .ok [.plain ⟨0x11⟩ true 30000, .plain ⟨0x12⟩ false 21000]) ∧
    ∃ rows log rows',
      mixedRows evenSettings (.plain ⟨0x12⟩ false 21000) = some rows ∧
      (normalize evenSettings mixedBlock mixedEntry).run.Goes log (.ok rows) ∧
      (normalize evenSettings mixedBlock mixedEntry).run.Goes (log.map reversed) (.ok rows') ∧
      untimed rows' = untimed rows := by
  have hsome : (mixedRows evenSettings (.plain ⟨0x12⟩ false 21000)).isSome := by decide +kernel
  obtain ⟨rows, hrows⟩ := Option.isSome_iff_exists.mp hsome
  obtain ⟨_, _, hruns⟩ := runs_of_mixedRows hrows
  obtain ⟨log, hsays⟩ := exists_says hruns
  have hgoes := hsays.goes
  have htold : List.Forall₂ Relisted log (log.map reversed) :=
    List.forall₂_map_right_iff.mpr (List.forall₂_same.mpr fun said _ => relisted_reversed said)
  obtain ⟨_, _, _, hperm, htelling⟩ := receipts_in_any_order evenSettings mixedBlock mixedEntry
    [.plain ⟨0x12⟩ false 21000, .plain ⟨0x11⟩ true 30000]
  obtain ⟨r', hgoes', hsame⟩ := htelling log _ _ htold hgoes
  refine ⟨(hperm _ (.swap _ _ _)).trans (by decide +kernel), ?_⟩
  cases r' with
  | error e => cases hsame
  | ok rows' => exact ⟨rows, log, rows', hrows, hgoes, hgoes', Except.ok.inj hsame⟩

end ChainIngest.Importer
