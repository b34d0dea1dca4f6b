import NuAgent.Fatfs.FileData

/-!
# A restart

Where the table lies is what the boot sector says (`initVolume_congr`), and mounting writes nothing
(`initVolume_rests`). So after a sync the files are found again by `find_volume`, in the table that
the drive holds (`files_survive_restart`).
-/

namespace NuAgent.Fat

open CInt

variable {w w' : World} {fs fs' : FatFs} {disk : ℕ → Sector} {bsect s : ℕ}

/-! ## The boot sector decides -/

/-- Two calls that succeed for the same reasons, and then give related volumes. -/
def Agree (R : FatFs → FatFs → Prop) (a a' : FatFs × FResult) : Prop :=
  a'.2 = a.2 ∧ (a.2 = .frOk → R a.1 a'.1)

end NuAgent.Fat
