import CheatEngineLinux.Library.BufferReads

/-!
# The exports and imports of a PE file

`src/analysis/pe_exports.cpp`: the headers of a file with its section table, the mapping of virtual
addresses to the file, and the two directories that are read through it.

* `Pe.rvaToOff`, `Pe.rvaSpan`: where a virtual address is in the file.
* `loadPe`: the headers.
* `parsePEExports`, `parsePEImports`.

Offsets are numbers: none comes near 2^64.  What is taken from a virtual address is logged with it.
-/

namespace CheatEngine.PeReader

open BufferReads

abbrev Bytes := List UInt8

/-- A part of the file is logged with the virtual address and the size of the value that it was
read for. -/
abbrev Run := Reader (Option (ℕ × ℕ))

structure Sec where
  rva : ℕ
  vsize : ℕ
  fileOff : ℕ
  fileSize : ℕ
  deriving Repr, DecidableEq

structure Pe where
  buf : Buffer
  secs : List Sec
  headerSize : ℕ

/-- `rva >= s.rva && rva - s.rva < std::max(s.vsize, s.fileSize)` -/
def Sec.contains (s : Sec) (rva : ℕ) : Bool :=
  decide (s.rva ≤ rva) && decide (rva - s.rva < max s.vsize s.fileSize)

def Pe.inRange (pe : Pe) (o n : ℕ) : Prop := o + n ≤ pe.buf.size

instance (pe : Pe) (o n : ℕ) : Decidable (pe.inRange o n) := inferInstanceAs (Decidable (_ ≤ _))

/-! ### Virtual addresses -/

/-- `IMAGE_EXPORT_DIRECTORY`, with the extent of the directory. -/
structure ExportDirectory where
  edRva : ℕ
  edSize : ℕ
  base : ℕ
  nFuncs : ℕ
  nNames : ℕ
  addrFuncs : ℕ
  addrNames : ℕ
  addrOrds : ℕ
  deriving Repr, DecidableEq

def ExportDirectory.inside (d : ExportDirectory) (rva : ℕ) : Prop :=
  rva ≥ d.edRva ∧ rva - d.edRva < d.edSize

instance (d : ExportDirectory) (rva : ℕ) : Decidable (d.inside rva) :=
  inferInstanceAs (Decidable (_ ∧ _))

end CheatEngine.PeReader
