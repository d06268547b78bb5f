import ChainIngest.Bytes
/-!
# CRC-32

The cyclic checksum of 32 bits over the reflected polynomial `0xedb88320`.
-/

namespace ChainIngest.Crc32

/-- The polynomial, lowest power in the highest bit. -/
def polynomial : UInt32 := 0xedb88320

def stepBit (r : UInt32) : UInt32 :=
  if r &&& 1 = 1 then (r >>> 1) ^^^ polynomial else r >>> 1

def stepByte (r : UInt32) (b : UInt8) : UInt32 :=
  (List.range 8).foldl (fun r _ => stepBit r) (r ^^^ b.toUInt32)

def checksum (message : Bytes) : UInt32 :=
  message.foldl stepByte 0xffffffff ^^^ 0xffffffff

end ChainIngest.Crc32
