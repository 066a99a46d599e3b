import Mathlib.Data.List.Basic
import Mathlib.Data.Nat.Notation

/-!
# Files that fail

A file as its process sees it, between two syncs. A call on the file succeeds, is interrupted, or
fails and leaves some bytes behind. What a failing sync leaves of the last writes is undecided:
only the front of the file that was not touched since the last sync is sure to stay.
-/

namespace FaultyFile

/-- What becomes of the next call. A write that is done transfers that many bytes at most; a write
or a sync that fails leaves the given bytes in place of what it was about. -/
inductive IoOutcome
  | done (count : ℕ)
  | interrupted
  | failed (undecided : List UInt8)
  deriving DecidableEq, Repr

/-- `synced` says that the disk holds the content; `stable` is the length of the front that no call
has touched since the last sync. -/
structure File where
  content : List UInt8 := []
  synced : Bool := true
  stable : ℕ := content.length
  deriving DecidableEq

namespace File

variable {file : File} {front : List UInt8}

/-- The bytes, written at an offset. A gap behind the end is filled with zeros. -/
def write (file : File) (offset : ℕ) (bytes : List UInt8) : File where
  content := file.content.take offset ++ List.replicate (offset - file.content.length) 0 ++
    (bytes ++ file.content.drop (offset + bytes.length))
  synced := false
  stable := min file.stable offset

/-- The file, cut or extended to a size. -/
def truncate (file : File) (size : ℕ) : File where
  content := file.content.take size ++ List.replicate (size - file.content.length) 0
  synced := false
  stable := min file.stable size

/-- A sync that succeeds. -/
def sync (file : File) : File where
  content := file.content
  synced := true
  stable := file.content.length

/-- A sync that fails. -/
def lose (file : File) (undecided : List UInt8) : File where
  content := file.content.take file.stable ++ undecided
  synced := false
  stable := file.stable

/-- The file goes on behind a front that no call since the last sync has touched. -/
structure Extends (front : List UInt8) (file : File) : Prop where
  isPrefix : front <+: file.content
  stable : front.length ≤ file.stable

theorem Extends.write {written : List UInt8} (h : file.Extends front)
    (hc : file.content = front ++ written) (bytes : List UInt8) :
    (file.write (front ++ written).length bytes).Extends front ∧
      (file.write (front ++ written).length bytes).content = front ++ (written ++ bytes) := by
  have hcontent : (file.write (front ++ written).length bytes).content =
      front ++ (written ++ bytes) := by
    rw [File.write, hc, List.take_length, Nat.sub_self, List.replicate_zero,
      List.drop_eq_nil_of_le (Nat.le_add_right _ _)]
    simp
  have hstable : front.length ≤ min file.stable (front ++ written).length := by
    have hs := h.stable
    rw [List.length_append]
    omega
  exact ⟨⟨hcontent ▸ List.prefix_append _ _, hstable⟩, hcontent⟩

theorem Extends.lose (h : file.Extends front) (undecided : List UInt8) :
    (file.lose undecided).Extends front := by
  refine ⟨?_, h.stable⟩
  obtain ⟨tail, htail⟩ := h.isPrefix
  rw [File.lose, ← htail, List.take_append, List.take_of_length_le h.stable, List.append_assoc]
  exact List.prefix_append _ _

/-- A sync puts the content on the disk. -/
structure Holds (file : File) (content : List UInt8) : Prop where
  content_eq : file.content = content
  synced : file.synced = true
  stable : file.stable = content.length

theorem holds_sync (h : file.content = front) : file.sync.Holds front :=
  ⟨h, rfl, by rw [← h]; rfl⟩

theorem Holds.isExtension (h : file.Holds front) : file.Extends front :=
  ⟨h.content_eq ▸ List.prefix_refl _, Nat.le_of_eq h.stable.symm⟩

/-- Cutting a file back to its front. -/
theorem Extends.content_truncate (h : file.Extends front) :
    (file.truncate front.length).content = front := by
  obtain ⟨tail, htail⟩ := h.isPrefix
  simp [File.truncate, ← htail]

theorem Extends.truncate (h : file.Extends front) :
    (file.truncate front.length).Extends front := by
  have hcut : front = (file.truncate front.length).content := h.content_truncate.symm
  exact ⟨⟨[], by rw [List.append_nil]; exact hcut⟩, Nat.le_min.2 ⟨h.stable, Nat.le_refl _⟩⟩

theorem Extends.sync (h : file.Extends front) : file.sync.Extends front :=
  ⟨h.isPrefix, h.isPrefix.length_le⟩

/-- What a file holds can be cut anywhere. -/
theorem Holds.content_truncate {content : List UInt8} (h : file.Holds content) {size : ℕ}
    (hsize : size ≤ content.length) : (file.truncate size).content = content.take size := by
  rw [File.truncate, h.content_eq, Nat.sub_eq_zero_of_le hsize, List.replicate_zero,
    List.append_nil]

end File

end FaultyFile
