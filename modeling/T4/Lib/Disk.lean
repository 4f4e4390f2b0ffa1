import T4.Lib.Bytes
import T4.Lib.SortedMap

/-!
# Files of a directory

A directory binds file names to contents. A write goes to an offset and a truncation to a
length; what lies between the end of a file and a later offset reads as zeros.

The two operations at the end of a file (`writeAt_length`) and back to an earlier end
(`truncateTo_length`) are inverse.
-/

namespace T4.Lib

namespace SortedMap

variable {κ ν : Type*} [LinearOrder κ]

theorem insert_insert [DecidableEq κ] (m : SortedMap κ ν) (k : κ) (v w : ν) :
    (m.insert k v).insert k w = m.insert k w := by
  refine eq_of_get (fun j => ?_)
  rw [get_insert, get_insert, get_insert]
  split <;> rfl

theorem insert_of_get [DecidableEq κ] {m : SortedMap κ ν} {k : κ} {v : ν}
    (bound : m.get k = some v) : m.insert k v = m := by
  refine eq_of_get (fun j => ?_)
  rw [get_insert]
  split_ifs with same
  · rw [same, bound]
  · rfl

end SortedMap

abbrev Disk := SortedMap Bytes Bytes

/-- The first `size` bytes of a file, filled up with zeros. -/
def truncateTo (content : Bytes) (size : Nat) : Bytes :=
  content.take size ++ List.replicate (size - content.length) 0

def writeAt (content : Bytes) (offset : Nat) (b : Bytes) : Bytes :=
  truncateTo content offset ++ b ++ content.drop (offset + b.length)

theorem truncateTo_length (content more : Bytes) :
    truncateTo (content ++ more) content.length = content := by
  simp [truncateTo]

theorem writeAt_length (content b : Bytes) : writeAt content content.length b = content ++ b := by
  simp [writeAt, truncateTo]

namespace Disk

def content (disk : Disk) (path : Bytes) : Bytes := (disk.get path).getD []

theorem content_of_get {disk : Disk} {path b : Bytes} (bound : disk.get path = some b) :
    disk.content path = b := by
  rw [content, bound, Option.getD_some]

theorem content_insert (disk : Disk) (path b : Bytes) :
    content (disk.insert path b) path = b := by
  refine content_of_get ?_
  rw [SortedMap.get_insert, if_pos rfl]

def create (disk : Disk) (path : Bytes) : Disk := disk.insert path []

def writeFile (disk : Disk) (path : Bytes) (offset : Nat) (b : Bytes) : Disk :=
  disk.insert path (writeAt (disk.content path) offset b)

def truncateFile (disk : Disk) (path : Bytes) (size : Nat) : Disk :=
  disk.insert path (truncateTo (disk.content path) size)

def remove (disk : Disk) (path : Bytes) : Disk := disk.erase path

end Disk

end T4.Lib
