/-!
# Contract capabilities

The token interfaces a contract can offer, sets of them as sixteen bits, and
the token standard that a set amounts to.  The empty set is an answer of its
own: no interface was recognised.
-/

namespace ChainIngest

inductive Capability where
  | erc1155
  | erc1155TokenReceiver
  | erc777
  | erc165
  | erc721
  | erc721Metadata
  | erc721Enumerable
  | erc20
  | erc20Detailed
  | erc20Burnable
  | erc20Mintable
  | erc20Pausable
  | erc20Capped
deriving DecidableEq, Inhabited

namespace Capability

/-- Every capability, in bit order. -/
def all : List Capability :=
  [.erc1155, .erc1155TokenReceiver, .erc777, .erc165, .erc721, .erc721Metadata,
   .erc721Enumerable, .erc20, .erc20Detailed, .erc20Burnable, .erc20Mintable,
   .erc20Pausable, .erc20Capped]

def name : Capability → String
  | .erc1155 => "ERC1155"
  | .erc1155TokenReceiver => "ERC1155_TOKEN_RECEIVER"
  | .erc777 => "ERC777"
  | .erc165 => "ERC165"
  | .erc721 => "ERC721"
  | .erc721Metadata => "ERC721_METADATA"
  | .erc721Enumerable => "ERC721_ENUMERABLE"
  | .erc20 => "ERC20"
  | .erc20Detailed => "ERC20_DETAILED"
  | .erc20Burnable => "ERC20_BURNABLE"
  | .erc20Mintable => "ERC20_MINTABLE"
  | .erc20Pausable => "ERC20_PAUSABLE"
  | .erc20Capped => "ERC20_CAPPED"

def ofName? (text : String) : Option Capability :=
  all.find? fun c => c.name = text

def position : Capability → Nat
  | .erc1155 => 0
  | .erc1155TokenReceiver => 1
  | .erc777 => 2
  | .erc165 => 3
  | .erc721 => 4
  | .erc721Metadata => 5
  | .erc721Enumerable => 6
  | .erc20 => 7
  | .erc20Detailed => 8
  | .erc20Burnable => 9
  | .erc20Mintable => 10
  | .erc20Pausable => 11
  | .erc20Capped => 12

def bit (c : Capability) : UInt16 := 1 <<< UInt16.ofNat c.position

end Capability

/-! ## Token standards -/

/-- The token standard a contract is indexed as. -/
inductive ContractType where
  | erc1155
  | erc777
  | erc721
  | erc20
  | generic
deriving DecidableEq, Inhabited

namespace ContractType

/-- Every standard, in the order of their stored numbers. -/
def all : List ContractType := [.erc1155, .erc777, .erc721, .erc20, .generic]

def name : ContractType → String
  | .erc1155 => "erc1155"
  | .erc777 => "erc777"
  | .erc721 => "erc721"
  | .erc20 => "erc20"
  | .generic => "generic"

def ofName? (text : String) : Option ContractType :=
  all.find? fun t => t.name = text

end ContractType

/-! ## Sets -/

/-- A set of capabilities, one bit each. -/
structure Capabilities where
  bits : UInt16
deriving DecidableEq, Inhabited

namespace Capabilities

def mask : UInt16 := 0x1fff

def empty : Capabilities := ⟨0⟩

def ofBits (bits : UInt16) : Capabilities := ⟨bits &&& mask⟩

def insert (s : Capabilities) (c : Capability) : Capabilities := ⟨s.bits ||| c.bit⟩

def contains (s : Capabilities) (c : Capability) : Bool := s.bits &&& c.bit != 0

def ofList (cs : List Capability) : Capabilities := cs.foldl insert empty

def toList (s : Capabilities) : List Capability := Capability.all.filter s.contains

def isEmpty (s : Capabilities) : Bool := s.bits = 0

def isNonFungible (s : Capabilities) : Bool := s.contains .erc721 || s.contains .erc1155

def contractType (s : Capabilities) : ContractType :=
  if s.contains .erc777 then .erc777
  else if s.contains .erc1155 then .erc1155
  else if s.contains .erc721 then .erc721
  else if s.contains .erc20 then .erc20
  else .generic

def text (s : Capabilities) : String :=
  "\x7b" ++ String.intercalate ", " (s.toList.map Capability.name) ++ "\x7d"

end Capabilities

end ChainIngest
