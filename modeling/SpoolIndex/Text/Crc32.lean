/-!
# CRC-32

The cyclic redundancy check of IEEE 802.3 over bytes, reflected, with all bits inverted before
and after.
-/

namespace SpoolIndex.Crc32

/-- The generator polynomial, lowest power in the highest bit. -/
def polynomial : UInt32 := 0xEDB88320

/-- One bit of the division. -/
def step (register : UInt32) : UInt32 :=
  if register &&& 1 = 1 then (register >>> 1) ^^^ polynomial else register >>> 1

def update (register : UInt32) (byte : UInt8) : UInt32 :=
  Nat.repeat step 8 (register ^^^ byte.toUInt32)

def checksum (bytes : List UInt8) : UInt32 := bytes.foldl update 0xFFFFFFFF ^^^ 0xFFFFFFFF

end SpoolIndex.Crc32
