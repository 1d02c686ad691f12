/-!
# Configuration

Sizes and intervals that are fixed when a machine is made.
-/

namespace BoxedScheme

structure Config where
  cells : Nat := 65536
  strings : Nat := 4096
  roots : Nat := 2048
  /-- Evaluation steps between collections; zero for none. -/
  collectEvery : Nat := 1024
  /-- A machine with fewer free cells than this collects early. -/
  lowWater : Nat := 8192
  /-- Bytes that recorded history may take. -/
  historyLimit : Nat := 256 * 1024 * 1024
deriving DecidableEq, Inhabited

/-- The defaults with another number of cells; an eighth of them is the low-water mark. -/
def Config.withCells (cells : Nat) : Config := { cells, lowWater := cells / 8 }

end BoxedScheme
