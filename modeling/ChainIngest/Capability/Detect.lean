import ChainIngest.Bytes
import ChainIngest.Capability.Basic
/-!
# Recognising interfaces

A contract's dispatcher compares the called selector with constants that its
code pushes.  Collecting these constants tells which functions the contract
offers, and a standard is offered when all its functions are.  Nothing is
executed; a selector that the code does not push counts as absent.
-/

namespace ChainIngest.Capability

/-! ## Pushed constants -/

/-- Four-byte function selectors, as numbers. -/
abbrev Selector := UInt32

def selectorOf (immediate : Bytes) : Selector := UInt32.ofNat immediate.toNatBE

/-- The number of bytes that follow an instruction: one to thirty-two for the push
instructions, none for all others. -/
def immediateWidth (op : UInt8) : Nat :=
  if 0x60 ≤ op.toNat ∧ op.toNat ≤ 0x7f then op.toNat - 0x5f else 0

/-- The selector-sized constants that code pushes, in order.  Bytes of wider constants are
skipped, and a constant cut off by the end of the code does not count. -/
def pushedSelectors : Bytes → List Selector
  | [] => []
  | op :: rest =>
    let width := immediateWidth op
    let immediate := rest.take width
    let found := pushedSelectors (rest.drop width)
    if 1 ≤ width ∧ width ≤ 4 ∧ immediate.length = width then selectorOf immediate :: found
    else found
termination_by code => code.length

/-! ## Rules -/

structure Rule where
  capability : Capability
  base : Option Capability
  selectors : List Selector

def erc20Selectors : List Selector :=
  [0x18160ddd, 0x70a08231, 0xa9059cbb, 0xdd62ed3e, 0x095ea7b3, 0x23b872dd]

def erc721Selectors : List Selector :=
  [0x70a08231, 0x6352211e, 0x42842e0e, 0xb88d4fde, 0x23b872dd, 0x095ea7b3, 0xa22cb465,
   0x081812fc, 0xe985e9c5]

def erc1155Selectors : List Selector :=
  [0xf242432a, 0x2eb2c2d6, 0x00fdd58e, 0x4e1273f4, 0xa22cb465, 0xe985e9c5]

def erc777Selectors : List Selector :=
  [0x06fdde03, 0x95d89b41, 0x556f0dc7, 0x18160ddd, 0x70a08231, 0x9bd9bbc6, 0xfe9d9303,
   0xd95b6371, 0x959b8c3f, 0xfad8b32a, 0x06e48538, 0x62ad1b83, 0xfc673c4f]

/-- The rules; a base comes before what extends it. -/
def rules : List Rule :=
  [⟨.erc165, none, [0x01ffc9a7]⟩,
   ⟨.erc20, none, erc20Selectors⟩,
   ⟨.erc20Detailed, some .erc20, [0x06fdde03, 0x95d89b41, 0x313ce567]⟩,
   ⟨.erc20Burnable, some .erc20, [0x42966c68, 0x79cc6790]⟩,
   ⟨.erc20Mintable, some .erc20, [0x40c10f19]⟩,
   ⟨.erc20Pausable, some .erc20, [0x8456cb59, 0x3f4ba83a]⟩,
   ⟨.erc20Capped, some .erc20, [0x355274ea]⟩,
   ⟨.erc721, none, erc721Selectors⟩,
   ⟨.erc721Metadata, some .erc721, [0x06fdde03, 0x95d89b41, 0xc87b56dd]⟩,
   ⟨.erc721Enumerable, some .erc721, [0x18160ddd, 0x2f745c59, 0x4f6ccce7]⟩,
   ⟨.erc1155, none, erc1155Selectors⟩,
   ⟨.erc1155TokenReceiver, none, [0xf23a6e61, 0xbc197c81]⟩,
   ⟨.erc777, none, erc777Selectors⟩]

def Rule.met (r : Rule) (pushed : List Selector) (found : Capabilities) : Bool :=
  (r.base.all found.contains) && r.selectors.all fun s => pushed.contains s

def ofSelectors (pushed : List Selector) : Capabilities :=
  rules.foldl (fun found r => if r.met pushed found then found.insert r.capability else found)
    .empty

def detect (code : Bytes) : Capabilities :=
  ofSelectors (pushedSelectors code)

/-! ## Sample code -/

def selectorBytes (s : Selector) : Bytes := Bytes.ofNatBE 4 s.toNat

/-- The comparisons of a dispatcher: each selector is compared and leads to a destination of
its own, counted from `next`. -/
def comparisons (next : UInt16) : List Selector → Bytes
  | [] => []
  | s :: rest =>
    [0x80, 0x63] ++ selectorBytes s ++ [0x14, 0x61] ++ Bytes.ofNatBE 2 next.toNat ++ [0x57] ++
      comparisons (next + 1) rest

def dispatcher (selectors : List Selector) : Bytes :=
  [0x60, 0x80, 0x60, 0x40, 0x52, 0x60, 0x00, 0x35, 0x60, 0xe0, 0x1c] ++
    comparisons 0x0100 selectors ++ [0x00]

end ChainIngest.Capability
