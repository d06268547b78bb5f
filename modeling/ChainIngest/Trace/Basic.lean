import ChainIngest.Word
/-!
# Call traces

A trace is the call tree of one transaction, kept as an arena: an array of
frames that name their children by position.  Frame 0 is the root.  The arena
itself promises nothing about the child lists; traces that grow frame by frame
from a root are trees.
-/

namespace ChainIngest

/-! ## Kinds of calls -/

inductive CallKind where
  | call
  | callCode
  | delegateCall
  | staticCall
  | create
  | create2
  | selfDestruct
deriving DecidableEq, Inhabited

namespace CallKind

/-- A letter in upper case; ASCII only, as instruction names are. -/
def upper (text : String) : String := String.ofList (text.toList.map Char.toUpper)

def ofName? (text : String) : Option CallKind :=
  match upper text with
  | "CALL" => some .call
  | "CALLCODE" => some .callCode
  | "DELEGATECALL" => some .delegateCall
  | "STATICCALL" => some .staticCall
  | "CREATE" => some .create
  | "CREATE2" => some .create2
  | "SELFDESTRUCT" => some .selfDestruct
  | "SUICIDE" => some .selfDestruct
  | _ => none

def name : CallKind → String
  | .call => "CALL"
  | .callCode => "CALL_CODE"
  | .delegateCall => "DELEGATE_CALL"
  | .staticCall => "STATIC_CALL"
  | .create => "CREATE"
  | .create2 => "CREATE2"
  | .selfDestruct => "SELF_DESTRUCT"

def label : CallKind → String
  | .call => "Call"
  | .callCode => "CallCode"
  | .delegateCall => "DelegateCall"
  | .staticCall => "StaticCall"
  | .create => "Create"
  | .create2 => "Create2"
  | .selfDestruct => "SelfDestruct"

def isCreate : CallKind → Bool
  | .create | .create2 => true
  | _ => false

/-- Whether the frame can carry value; borrowed code and static calls never do. -/
def movesValue : CallKind → Bool
  | .delegateCall | .staticCall => false
  | _ => true

end CallKind

/-! ## Frames -/

structure Frame where
  kind : CallKind
  sender : Address
  /-- The callee, the new contract, or the account refunded by a self-destruct. -/
  target : Option Address
  value : Word
  gas : Nat
  gasUsed : Nat
  input : Bytes
  /-- Return data; the deployed code of a creation. -/
  output : Bytes
  error : Option String
  /-- Positions of the frames it opened, in order. -/
  children : Array Nat
deriving DecidableEq, Inhabited

namespace Frame

def plain (kind : CallKind) (sender : Address) (target : Option Address) (value : Word) : Frame where
  kind := kind
  sender := sender
  target := target
  value := value
  gas := 0
  gasUsed := 0
  input := []
  output := []
  error := none
  children := #[]

def failed (f : Frame) : Bool := f.error.isSome

def addChild (f : Frame) (child : Nat) : Frame := { f with children := f.children.push child }

end Frame

/-! ## Arenas -/

/-- The frames of one transaction; frame 0 is the root. -/
structure CallTrace where
  frames : Array Frame
deriving DecidableEq, Inhabited

namespace CallTrace

def empty : CallTrace := ⟨#[]⟩

def ofRoot (root : Frame) : CallTrace := ⟨#[root]⟩

def size (t : CallTrace) : Nat := t.frames.size

def isEmpty (t : CallTrace) : Bool := t.frames.isEmpty

def frame? (t : CallTrace) (id : Nat) : Option Frame := t.frames[id]?

def root? (t : CallTrace) : Option Frame := t.frame? 0

/-- The trace with `child` appended, as the last child of a frame if that exists. -/
def pushChild (t : CallTrace) (parent : Nat) (child : Frame) : CallTrace :=
  ⟨(t.frames.modify parent fun f => f.addChild t.size).push child⟩

/-- The trace with `child` appended as the last child of an existing frame, and the child's
position; `none` if there is no such parent. -/
def pushChild? (t : CallTrace) (parent : Nat) (child : Frame) : Option (CallTrace × Nat) :=
  if parent < t.size then some (t.pushChild parent child, t.size) else none

end CallTrace

end ChainIngest
