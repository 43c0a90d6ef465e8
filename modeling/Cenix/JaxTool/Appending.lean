import Cenix.Jax.Descriptions
import Cenix.JaxTool.RoundTrip

namespace Cenix.JaxTool

open Jax

/-! Appending files to an archive. -/

/-- A file that has been opened. -/
structure Stream where
  contents : List Byte
  position : Nat
  readable : Bool

namespace Stream

def fread (size : Nat) (stream : Stream) : Option (List Byte × Stream) :=
  if stream.readable = false then none
  else (JaxTool.fread size (stream.contents.drop stream.position)).map fun (item, _) =>
    (item, { stream with position := stream.position + size })

def seekEnd (stream : Stream) : Stream :=
  { stream with position := stream.contents.length }

end Stream

/-- The first argument of the tool. -/
inductive Mode where
  | create
  | append
  | list
  | extract
  deriving DecidableEq, Repr

inductive OpenMode where
  | r
  | w
  deriving DecidableEq, Repr

/-- `open_mode` -/
def Mode.openMode : Mode → OpenMode
  | .create | .append => .w
  | .list | .extract => .r

/-- Opening a file for writing makes it empty. -/
def fopen (contents : List Byte) : OpenMode → Stream
  | .r => ⟨contents, 0, true⟩
  | .w => ⟨[], 0, false⟩

variable (host : Host)

/-- The first bytes cannot be read or are not those of an archive. -/
def failsMagic (archive : Stream) : Bool :=
  match archive.fread 4 with
  | none => true
  | some (magicBuffer, _) => magicBuffer != magic

/-- Writes the records at the end of the file, where the stream is. -/
def createAppend (visits : List Visit) (archive : Stream) : Option (List Byte) :=
  visits.foldlM (nftwVisit host) (archive.contents.take archive.position)

/-- The return value and what is in the file afterwards; `none` if a record is cut short. -/
def append (visits : List Visit) (archive : Stream) : Nat × Option (List Byte) :=
  if failsMagic archive then
    (1, some archive.contents)
  else
    match createAppend host visits archive.seekEnd with
    | none => (1, none)
    | some contents => (0, some contents)

/-- `main` for an archive file, with the files that are visited as arguments. -/
def mainAppend (archiveFile : List Byte) (visits : List Visit) : Nat × Option (List Byte) :=
  append host visits (fopen archiveFile Mode.append.openMode)

/-- The archive keeps its records in front of those that `create` would write; a file that is
refused keeps its bytes. -/
structure Preserves (archiveFile : List Byte) (visits : List Visit) : Prop where
  appended : ∀ (records : List DescribedRecord) (new : List Byte),
    archiveFile = magic ++ records.flatMap DescribedRecord.bytes →
    create host visits = some (magic ++ new) →
      mainAppend host archiveFile visits = (0, some (archiveFile ++ new))
  refused : failsMagic (fopen archiveFile Mode.append.openMode) = true →
    (mainAppend host archiveFile visits).2 = some archiveFile

variable {host}

/-- The records would be kept in a file that can be read as well. -/
theorem append_of_readable (records : List DescribedRecord) {visits : List Visit}
    (h : ∀ v ∈ visits, v.Stable) {new : List Byte} (hnew : create host visits = some (magic ++ new)) :
    append host visits ⟨magic ++ records.flatMap DescribedRecord.bytes, 0, true⟩ =
      (0, some (magic ++ records.flatMap DescribedRecord.bytes ++ new)) := by
  have hmagic : fread 4 (magic ++ records.flatMap DescribedRecord.bytes) =
      some (magic, records.flatMap DescribedRecord.bytes) :=
    fread_append (show magic ≠ [] from List.cons_ne_nil _ _) _
  have hpasses : ¬ failsMagic ⟨magic ++ records.flatMap DescribedRecord.bytes, 0, true⟩ := by
    simp [failsMagic, Stream.fread, hmagic]
  rw [create_eq h] at hnew
  split at hnew
  · rename_i hcopied
    have hsame := List.append_cancel_left (Option.some.inj hnew)
    rw [append, if_neg hpasses, createAppend, Stream.seekEnd, List.take_length,
      foldlM_nftwVisit h, if_pos hcopied, hsame]
  · cases hnew

theorem failsMagic_fopen (archiveFile : List Byte) :
    failsMagic (fopen archiveFile Mode.append.openMode) = true :=
  rfl

theorem mainAppend_eq (archiveFile : List Byte) (visits : List Visit) :
    mainAppend host archiveFile visits = (1, some []) :=
  rfl

theorem preserves_iff (archiveFile : List Byte) (visits : List Visit) :
    Preserves host archiveFile visits ↔ archiveFile = [] := by
  constructor
  · intro h
    have hkept := h.refused (failsMagic_fopen archiveFile)
    rw [mainAppend_eq] at hkept
    exact (Option.some.inj hkept).symm
  · rintro rfl
    exact ⟨fun records new hvalid => absurd hvalid (by simp [magic]), fun _ => rfl⟩

/-- An archive with one file is emptied. -/
theorem not_preserves_archiveOfA :
    ¬ Preserves maskingHost (archive [emptyFile]) [] := by
  intro h
  have hkept := h.refused rfl
  exact absurd hkept (by decide)

end Cenix.JaxTool
