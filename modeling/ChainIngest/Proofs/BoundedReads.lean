import ChainIngest.Dialogue
import ChainIngest.Proofs.EventShapes
/-!
# Reads within bounds

Offsets and lengths in event data are anyone's choice.  A reader that is told
only how long the data is, and must ask for every span of bytes, decodes logs
without asking for a span that is not inside.  What it finds is no larger than
the data, and a field whose head word, length word or content is not all inside
the data leaves the log without a meaning.
-/

namespace ChainIngest

namespace Abi

/-! ## Readers -/

structure Span where
  start : Nat
  count : Nat

/-- A computation that sees the data span by span, and may give up. -/
abbrev Reader (α : Type) := OptionT (Dialogue Span fun _ => Bytes) α

namespace Reader

def reply (data : Bytes) (span : Span) (s : Unit) : Option Bytes × Unit :=
  (slice? data span.start span.count, s)

variable {α β : Type} {data : Bytes}

/-- The reader asks the data for nothing that is not inside, and comes to this result. -/
def Finds (data : Bytes) (reader : Reader α) (result : Option α) : Prop :=
  Dialogue.run (reply data) reader.run () = (some result, ())

def ofOption (result : Option α) : Reader α := OptionT.mk (pure result)

/-- Asks for a span if data of this size has it. -/
def span (size start count : Nat) : Reader Bytes :=
  if start + count ≤ size then OptionT.lift (Dialogue.request ⟨start, count⟩) else ofOption none

def word (size offset : Nat) : Reader Word := do
  let bytes ← span size offset 32
  return Word.ofBytes bytes

def tail (size place : Nat) : Reader (Nat × Nat) := do
  let offset ← word size (32 * place)
  let length ← word size offset.toNat
  return (offset.toNat, length.toNat)

def bytes (size place : Nat) : Reader Bytes := do
  let (offset, length) ← tail size place
  span size (offset + 32) length

def words (size place : Nat) : Reader (List Word) := do
  let (offset, length) ← tail size place
  let content ← span size (offset + 32) (32 * length)
  return wordsOf length content

def value (size place : Nat) : Kind → Reader Value
  | .word => .word <$> word size (32 * place)
  | .bytes => .bytes <$> bytes size place
  | .words => .words <$> words size place

def values (size : Nat) : (place : Nat) → List Kind → Reader (List Value)
  | _, [] => return []
  | place, kind :: kinds => do
    let v ← value size place kind
    let vs ← values size (place + 1) kinds
    return v :: vs

theorem run_bind (d : Dialogue Span (fun _ => Bytes) α) (f : α → Dialogue Span (fun _ => Bytes) β) :
    Dialogue.run (reply data) (d.bind f) () =
      match Dialogue.run (reply data) d () with
      | (some a, s) => Dialogue.run (reply data) (f a) s
      | (none, s) => (none, s) := by
  induction d with
  | done a => rfl
  | ask q next ih =>
      rw [Dialogue.bind, Dialogue.run, Dialogue.run, reply]
      cases slice? data q.start q.count with
      | none => rfl
      | some bytes => exact ih bytes

theorem finds_ofOption (result : Option α) : Finds data (ofOption result) result := rfl

theorem Finds.bind {x : Reader α} {f : α → Reader β} {a? : Option α} {b? : α → Option β}
    (hx : Finds data x a?) (hf : ∀ a, Finds data (f a) (b? a)) :
    Finds data (x >>= f) (a?.bind b?) := by
  change Dialogue.run (reply data) (x.run.bind _) () = _
  rw [run_bind, hx]
  cases a? with
  | none => rfl
  | some a => exact hf a

theorem finds_pure (a : α) : Finds data (pure a) (some a) := rfl

theorem Finds.map {x : Reader α} {a? : Option α} (hx : Finds data x a?) (f : α → β) :
    Finds data (f <$> x) (a?.map f) := by
  rw [map_eq_pure_bind, Option.map_eq_bind]
  exact hx.bind fun a => finds_pure (f a)

theorem finds_span (start count : Nat) :
    Finds data (span data.length start count) (slice? data start count) := by
  rw [span]
  split
  · next hinside =>
    rw [slice?, if_pos hinside]
    change Dialogue.run (reply data) (.ask ⟨start, count⟩ _) () = _
    rw [Dialogue.run, reply, slice?, if_pos hinside]
    rfl
  · next houtside =>
    rw [slice?, if_neg houtside]
    exact finds_ofOption none

theorem finds_word (offset : Nat) : Finds data (word data.length offset) (word? data offset) := by
  have hword : word? data offset = (slice? data offset 32).bind fun b => some (Word.ofBytes b) := by
    cases h : slice? data offset 32 with
    | none => exact word?_eq_none_iff.mpr (slice?_eq_none_iff.mp h)
    | some b =>
        obtain ⟨hlength, hlies⟩ := slice?_eq_some_iff.mp h
        rw [← Word.toBytes_ofBytes hlength] at hlies
        exact word?_eq_some_iff.mpr hlies
  rw [hword]
  exact (finds_span offset 32).bind fun _ => finds_pure _

variable (place : Nat)

theorem finds_tail : Finds data (tail data.length place) (tail? data place) :=
  (finds_word (32 * place)).bind fun offset => (finds_word offset.toNat).bind fun _ => finds_pure _

theorem finds_bytes : Finds data (bytes data.length place) (bytes? data place) :=
  (finds_tail place).bind fun (offset, length) => finds_span (offset + 32) length

theorem finds_words : Finds data (words data.length place) (words? data place) :=
  (finds_tail place).bind fun (offset, length) =>
    (finds_span (offset + 32) (32 * length)).bind fun _ => finds_pure _

theorem finds_value (kind : Kind) :
    Finds data (value data.length place kind) (value? data place kind) := by
  cases kind with
  | word => exact (finds_word (32 * place)).map Value.word
  | bytes => exact (finds_bytes place).map Value.bytes
  | words => exact (finds_words place).map Value.words

theorem finds_values (kinds : List Kind) :
    Finds data (values data.length place kinds) (values? data place kinds) := by
  induction kinds generalizing place with
  | nil => exact finds_pure []
  | cons kind kinds ih =>
      exact (finds_value place kind).bind fun _ => (ih (place + 1)).bind fun _ => finds_pure _

end Reader

/-! ## Data that is too short -/

/-- How many bytes a length word counts at a time. -/
def Kind.unit : Kind → Nat
  | .word => 0
  | .bytes => 1
  | .words => 32

/-- A field's head word is not all inside the data, or its offset word points where no length word
is, or its length word counts more than there is. -/
inductive Overruns (data : Bytes) (place : Nat) (kind : Kind) : Prop where
  | head : data.length < 32 * place + 32 → Overruns data place kind
  | offset {offset : Word} : kind ≠ .word → Lies data (32 * place) offset.toBytes →
      data.length < offset.toNat + 32 → Overruns data place kind
  | length {offset length : Word} : kind ≠ .word → Lies data (32 * place) offset.toBytes →
      Lies data offset.toNat length.toBytes →
      data.length < offset.toNat + 32 + kind.unit * length.toNat → Overruns data place kind

variable {data : Bytes} {place : Nat} {kind : Kind} {v : Value}

theorem Value.length_content (v : Value) : v.content.length = v.kind.unit * v.count := by
  cases v with
  | word w => rfl
  | bytes b => exact (Nat.one_mul _).symm
  | words ws => exact length_flatMap_toBytes ws

theorem Holds.not_overruns (h : Holds data place v) : ¬ Overruns data place v.kind := by
  intro hover
  cases h with
  | word hw =>
      have hend := hw.le
      rw [Word.length_toBytes] at hend
      cases hover with
      | head hshort => omega
      | offset hkind | length hkind => exact hkind rfl
  | @tail _ offset length hkind hoffset hlength htail =>
      have hhead := hoffset.le
      have hend := htail.le
      rw [Word.length_toBytes] at hhead
      rw [List.length_append, Word.length_toBytes, Value.length_content] at hend
      cases hover with
      | head hshort => omega
      | offset _ hoffset' hshort =>
          obtain rfl := hoffset.word_unique hoffset'
          omega
      | length _ hoffset' hlength' hshort =>
          obtain rfl := hoffset.word_unique hoffset'
          obtain rfl := (lies_append_iff.mp htail).1.word_unique hlength'
          rw [hlength] at hshort
          omega

theorem value?_eq_none_iff : value? data place kind = none ↔ Overruns data place kind := by
  constructor
  · intro h
    cases hhead : head? data place with
    | none => exact .head (word?_eq_none_iff.mp hhead)
    | some offset =>
      have hoffset := head?_eq_some_iff.mp hhead
      by_cases hkind : kind = .word
      · rw [hkind, value?, hhead] at h
        cases h
      cases hword : word? data offset.toNat with
      | none => exact .offset hkind hoffset (word?_eq_none_iff.mp hword)
      | some length =>
        have htail : tail? data place = some (offset.toNat, length.toNat) := by
          simp [tail?, hhead, hword]
        refine .length hkind hoffset (word?_eq_some_iff.mp hword) ?_
        cases kind with
        | word => exact absurd rfl hkind
        | bytes =>
          rw [value?, bytes?, htail, Option.map_eq_none_iff] at h
          rw [Kind.unit, Nat.one_mul]
          exact slice?_eq_none_iff.mp h
        | words =>
          rw [value?, words?, htail, Option.map_eq_none_iff] at h
          cases hcontent : slice? data (offset.toNat + 32) (32 * length.toNat) with
          | none => exact slice?_eq_none_iff.mp hcontent
          | some content => simp [hcontent] at h
  · intro h
    cases hvalue : value? data place kind with
    | none => rfl
    | some v =>
      obtain ⟨rfl, hholds⟩ := value?_eq_some_iff.mp hvalue
      exact absurd h hholds.not_overruns

theorem values?_eq_none_iff {kinds : List Kind} : values? data place kinds = none ↔
    ∃ (i : Nat) (kind : Kind), kinds[i]? = some kind ∧ Overruns data (place + i) kind := by
  induction kinds generalizing place with
  | nil => simp [values?]
  | cons kind kinds ih =>
      constructor
      · intro h
        cases hvalue : value? data place kind with
        | none => exact ⟨0, kind, rfl, value?_eq_none_iff.mp hvalue⟩
        | some v =>
          cases hvalues : values? data (place + 1) kinds with
          | none =>
            obtain ⟨i, kind', hkind, hover⟩ := ih.mp hvalues
            refine ⟨i + 1, kind', hkind, ?_⟩
            rwa [← Nat.add_assoc, Nat.add_right_comm]
          | some vs => simp [values?, hvalue, hvalues] at h
      · rintro ⟨i, kind', hkind, hover⟩
        cases i with
        | zero =>
          obtain rfl := Option.some.inj hkind
          rw [Nat.add_zero] at hover
          rw [values?, value?_eq_none_iff.mpr hover]
          rfl
        | succ i =>
          rw [← Nat.add_assoc, Nat.add_right_comm] at hover
          rw [values?, ih.mpr ⟨i, kind', hkind, hover⟩]
          cases value? data place kind <;> rfl

/-- With its length word, if it has one, a field is not larger than data of this size. -/
def Value.FitsIn (size : Nat) : Value → Prop
  | .word _ => 32 ≤ size
  | .bytes b => b.length + 32 ≤ size
  | .words ws => ws.length + 1 ≤ size / 32

theorem Holds.fitsIn (h : Holds data place v) : v.FitsIn data.length := by
  cases h with
  | word hw =>
      have hend := hw.le
      rw [Word.length_toBytes] at hend
      exact Nat.le_of_add_left_le hend
  | tail hkind _ _ htail =>
      have hend := htail.le
      rw [List.length_append, Word.length_toBytes, Value.length_content] at hend
      cases v with
      | word => exact absurd rfl hkind
      | bytes | words =>
        simp only [Value.kind, Kind.unit, Value.count] at hend
        simp only [Value.FitsIn]
        omega

end Abi

/-! ## Decoding -/

namespace Token

open Abi (Kind Value Reader Holds Overruns)

namespace Shape

def all : List Shape :=
  [.fungibleApproval, .nonFungibleApproval, .approvalForAll, .sent, .minted, .burned,
   .authorizedOperator, .revokedOperator, .transferSingle, .transferBatch, .uri]

theorem mem_all (shape : Shape) : shape ∈ all := by
  cases shape <;> decide

def of? (signature : Hash) (indexed : Nat) : Option Shape :=
  all.find? fun shape => signature = shape.signature ∧ indexed = shape.indexed

end Shape

theorem decodeFields_eq_bind (signature : Hash) (indexed : List Hash) (data : Bytes) :
    decodeFields signature indexed data = (Shape.of? signature indexed.length).bind fun shape =>
      (Abi.values? data 0 shape.kinds).bind (shape.event indexed) := by
  cases h : Shape.of? signature indexed.length with
  | none =>
      by_contra hsome
      obtain ⟨shape, hshape⟩ := exists_shape hsome
      exact List.find?_eq_none.mp h shape shape.mem_all (decide_eq_true hshape)
  | some shape =>
      unfold Shape.of? at h
      have hshape := List.find?_some h
      rw [decide_eq_true_iff] at hshape
      obtain ⟨rfl, hindexed⟩ := hshape
      exact decodeFields_eq shape hindexed data

def eventReader (size : Nat) : List Hash → Reader TokenEvent
  | [] => Reader.ofOption none
  | signature :: indexed => do
    let shape ← Reader.ofOption (Shape.of? signature indexed.length)
    let vs ← Reader.values size 0 shape.kinds
    Reader.ofOption (shape.event indexed vs)

theorem finds_eventReader (log : Log) :
    Reader.Finds log.data (eventReader log.data.length log.topics) (decodeEvent? log) := by
  unfold decodeEvent? eventReader
  cases log.topics with
  | nil => exact Reader.finds_ofOption none
  | cons signature indexed =>
      dsimp only
      rw [decodeFields_eq_bind]
      exact (Reader.finds_ofOption _).bind fun shape =>
        (Reader.finds_values 0 shape.kinds).bind fun vs => Reader.finds_ofOption _

theorem event_ne_none {shape : Shape} {indexed : List Hash} {vs : List Value}
    (hindexed : indexed.length = shape.indexed) (hkinds : vs.map Value.kind = shape.kinds) :
    shape.event indexed vs ≠ none := by
  cases shape <;>
    simp only [Shape.kinds, List.map_eq_cons_iff, List.map_eq_nil_iff, Value.kind_eq_word_iff,
      Value.kind_eq_bytes_iff, Value.kind_eq_words_iff] at hkinds
  case fungibleApproval | approvalForAll =>
    obtain ⟨_, _, rfl⟩ := List.length_eq_two.mp hindexed
    obtain ⟨_, _, rfl, ⟨_, rfl⟩, rfl⟩ := hkinds
    exact Option.some_ne_none _
  case authorizedOperator | revokedOperator =>
    obtain ⟨_, _, rfl⟩ := List.length_eq_two.mp hindexed
    cases hkinds
    exact Option.some_ne_none _
  case minted | burned =>
    obtain ⟨_, _, rfl⟩ := List.length_eq_two.mp hindexed
    obtain ⟨_, _, rfl, ⟨_, rfl⟩, _, _, rfl, ⟨_, rfl⟩, _, _, rfl, ⟨_, rfl⟩, rfl⟩ := hkinds
    exact Option.some_ne_none _
  case nonFungibleApproval =>
    obtain ⟨_, _, _, rfl⟩ := List.length_eq_three.mp hindexed
    cases hkinds
    exact Option.some_ne_none _
  case sent =>
    obtain ⟨_, _, _, rfl⟩ := List.length_eq_three.mp hindexed
    obtain ⟨_, _, rfl, ⟨_, rfl⟩, _, _, rfl, ⟨_, rfl⟩, _, _, rfl, ⟨_, rfl⟩, rfl⟩ := hkinds
    exact Option.some_ne_none _
  case transferSingle | transferBatch =>
    obtain ⟨_, _, _, rfl⟩ := List.length_eq_three.mp hindexed
    obtain ⟨_, _, rfl, ⟨_, rfl⟩, _, _, rfl, ⟨_, rfl⟩, rfl⟩ := hkinds
    exact Option.some_ne_none _
  case uri =>
    obtain ⟨_, rfl⟩ := List.length_eq_one_iff.mp hindexed
    obtain ⟨_, _, rfl, ⟨_, rfl⟩, rfl⟩ := hkinds
    exact Option.some_ne_none _

/-- A log with the topics of an event has no meaning exactly if some field of its data overruns. -/
theorem decodeEvent_eq_none_iff {log : Log} {shape : Shape} {indexed : List Hash}
    (htopics : log.topics = shape.signature :: indexed)
    (hindexed : indexed.length = shape.indexed) :
    decodeEvent? log = none ↔
      ∃ (place : Nat) (kind : Kind), shape.kinds[place]? = some kind ∧
        Overruns log.data place kind := by
  have hdecode : decodeEvent? log =
      (Abi.values? log.data 0 shape.kinds).bind (shape.event indexed) := by
    rw [decodeEvent?, htopics]
    exact decodeFields_eq shape hindexed log.data
  have hvalues : Abi.values? log.data 0 shape.kinds = none ↔ decodeEvent? log = none := by
    rw [hdecode]
    cases h : Abi.values? log.data 0 shape.kinds with
    | none => simp
    | some vs => simp [event_ne_none hindexed (Abi.values?_eq_some_iff.mp h).1]
  rw [← hvalues, Abi.values?_eq_none_iff]
  simp only [Nat.zero_add]

-- an offset that only its low bytes would find
example : decodeEvent? ⟨⟨0⟩, [uriSignature, ⟨1⟩],
    Word.toBytes 0x10000000000000020 ++ Word.toBytes 0, 0⟩ = none := by decide +kernel

/-- Whatever the topics and the data are: the log is decoded by a reader that asks for nothing
outside the data; every field of the event stands in the data, content right behind its length
word, and is no larger; and there is no event if a field overruns the data. -/
theorem decodeEvent_bounded (log : Log) :
    Reader.Finds log.data (eventReader log.data.length log.topics) (decodeEvent? log) ∧
      (∀ e, decodeEvent? log = some e → ∃ vs, e.Says vs ∧
        ∀ (place : Nat) v, vs[place]? = some v →
          Holds log.data place v ∧ v.FitsIn log.data.length) ∧
      ∀ (shape : Shape) (indexed : List Hash), log.topics = shape.signature :: indexed →
        indexed.length = shape.indexed →
        (decodeEvent? log = none ↔ ∃ (place : Nat) (kind : Kind),
          shape.kinds[place]? = some kind ∧ Overruns log.data place kind) := by
  refine ⟨finds_eventReader log, fun e he => ?_, fun shape indexed htopics hindexed =>
    decodeEvent_eq_none_iff htopics hindexed⟩
  obtain ⟨_, vs, _, _, hfields, hholds⟩ := decodeEvent_eq_some_iff.mp he
  exact ⟨vs, hfields, fun place v hv => ⟨hholds place v hv, (hholds place v hv).fitsIn⟩⟩

end Token

end ChainIngest
