import Chisel.Lib.Device
import Chisel.Superblock

/-! The page file (`page_io.rs`): a device of units, read and written one unit at a time. The
trace records every event on the file, over all the handles that were opened on it; it is what a
power failure acts on. Calls of the operating system succeed: an `io::Error` of a read, a write, a
`set_len` or an `fsync` is not modelled, only the refusals that the code itself decides on. -/

namespace Chisel

open Device

/-- The file behind a `PageIo`. `fileStride` is the distance of its units, in bytes; `stride` is
the distance at which the handle reads it, which differs only while a superblock is searched. -/
structure PageIo where
  image : Image DiskUnit
  trace : List (Event DiskUnit)
  readOnly : Bool
  fileStride : Nat
  stride : Nat

namespace PageIo

/-- `PageIo::open`: a handle reads at `PAGE_SIZE` until told otherwise. An empty file has no units
yet, whatever was planned for it. -/
def openFile (image : Image DiskUnit) (trace : List (Event DiskUnit)) (fileStride : Nat)
    (readOnly : Bool) : PageIo :=
  ⟨image, trace, readOnly, if image.len = 0 then pageSize else fileStride, pageSize⟩

/-- `page_count`: whole units at the handle's stride. -/
def pageCount (io : PageIo) : Nat :=
  if io.stride = io.fileStride then io.image.len else io.image.len * io.fileStride / io.stride

/-- `set_stride`. An empty file takes the stride of the first unit written to it. -/
def setStride (io : PageIo) (stride : Nat) : PageIo :=
  { io with stride, fileStride := if io.image.len = 0 then stride else io.fileStride }

def forceReadOnly (io : PageIo) : PageIo := { io with readOnly := true }

/-- `read_page_unit`. At a foreign stride only the first unit is aligned; a window across two
units carries no valid checksum. -/
def readPageUnit (io : PageIo) (i : Nat) : Except ChiselError DiskUnit :=
  if io.pageCount ≤ i then .error (.invalidPageId i)
  else if io.stride = io.fileStride ∨ i = 0 then .ok (io.image.cell i)
  else .ok .torn

def record (io : PageIo) (e : Event DiskUnit) : PageIo :=
  { io with image := io.image.apply e, trace := io.trace ++ [e] }

def writePageUnit (io : PageIo) (i : Nat) (u : DiskUnit) : Except ChiselError PageIo :=
  if io.readOnly then .error .readOnlyMode else .ok (io.record (.write i u))

def fsync (io : PageIo) : Except ChiselError PageIo :=
  if io.readOnly then .error .readOnlyMode else .ok (io.record .sync)

def setPageCount (io : PageIo) (n : Nat) : Except ChiselError PageIo :=
  if io.readOnly then .error .readOnlyMode else .ok (io.record (.setLen n))

end PageIo

end Chisel
