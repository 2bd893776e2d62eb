/-!
# Numbers in bytes
-/

namespace Endian

/-- The number a list of bytes holds, most significant byte first. -/
def big (bs : List UInt8) : Nat := bs.foldl (fun acc b => acc * 256 + b.toNat) 0

/-- The number a list of bytes holds, least significant byte first. -/
def little (bs : List UInt8) : Nat := bs.foldr (fun b acc => b.toNat + 256 * acc) 0

end Endian
