/-! # Format versions

A version is packed into one word: ten bits of major number, ten of minor and twelve of patch, from
the least significant bit on. -/

namespace Shading

/-- The version of a binary. -/
structure Version where
  major : UInt16
  minor : UInt16
  patch : UInt16
deriving DecidableEq, Repr, Inhabited

namespace Version

/-- The version that is written. -/
def current : Version := ⟨1, 0, 0⟩

/-- The major version that can be read. -/
def readableMajor : UInt16 := 1

def ofWord (word : UInt32) : Version :=
  ⟨(word &&& 0x3ff).toUInt16, (word >>> 10 &&& 0x3ff).toUInt16, (word >>> 20).toUInt16⟩

/-- The packed version; numbers too large for their bits lose the excess. -/
def toWord (v : Version) : UInt32 :=
  let major : UInt32 := v.major.toUInt32 &&& 0x3ff
  let minor : UInt32 := v.minor.toUInt32 &&& 0x3ff
  let patch : UInt32 := v.patch.toUInt32 &&& 0xfff
  major ||| minor <<< 10 ||| patch <<< 20

def display (v : Version) : String := s!"{v.major}.{v.minor}.{v.patch}"

/-- Compares major, then minor, then patch. -/
def order (v w : Version) : Ordering :=
  ((compare v.major w.major).then (compare v.minor w.minor)).then (compare v.patch w.patch)

end Version

end Shading
