import Cenix.FileProtocol.Fields
import Cenix.Jax.Archive

namespace Cenix.JaxTool

open Fields Jax

/-! The tool that packs and unpacks archives on the host.  A result of `none` stands for an
error message and the return value 1; what the host does with files succeeds. -/

/-- `shift` is what `<<` does with an `int` and a count of 32 or more. -/
structure Host where
  bufsiz : Nat
  order : ByteOrder
  shift : BitVec 32 → Nat → BitVec 32
  bufsizBound : 256 ≤ bufsiz
  shiftZero : ∀ count, shift 0 count = 0

def typeDirectory : Byte := 0x64
def typeLink : Byte := 0x73
def typeRegular : Byte := 0x72

def longMax : Nat := 2 ^ 63 - 1

/-! Streams of bytes. -/

/-- `fread` of one item: the item and what is left of the stream. -/
def fread (size : Nat) (stream : List Byte) : Option (List Byte × List Byte) :=
  if size = 0 ∨ stream.length < size then none
  else some (stream.take size, stream.drop size)

/-- `fwrite` of one item to the end of a file. -/
def fwrite (item file : List Byte) : Option (List Byte) :=
  if item = [] then none else some (file ++ item)

variable (host : Host)

/-- Copies a file of that size through the buffer: what is left of the source, and the
destination. -/
def copyLoop (source destination : List Byte) (fileSize : Int) :
    Option (List Byte × List Byte) :=
  if fileSize < 0 then
    some (source, destination)
  else
    let rwSize := if fileSize > host.bufsiz then host.bufsiz else fileSize.toNat
    (fread rwSize source).bind fun (buffer, source) =>
      (fwrite buffer destination).bind fun destination =>
        copyLoop source destination (fileSize - host.bufsiz)
termination_by (fileSize + 1).toNat
decreasing_by
  have hbound := host.bufsizBound
  omega

/-- Seeks past the contents of a file. -/
def skipLoop (stream : List Byte) (fileSize : Int) : List Byte :=
  if fileSize < 0 then
    stream
  else
    skipLoop (stream.drop (if fileSize > longMax then longMax else fileSize.toNat))
      (fileSize - longMax)
termination_by (fileSize + 1).toNat
decreasing_by
  simp only [longMax]
  omega

/-! Numbers. -/

/-- `bytes[0] | (bytes[1] << 8)` -/
def u16ToNe (bytes : List Byte) : BitVec 16 :=
  (bytes.getD 0 0).setWidth 16 ||| ((bytes.getD 1 0).setWidth 16 <<< 8)

/-- `number << count` for an `int` -/
def Host.shiftInt (number : BitVec 32) (count : Nat) : BitVec 32 :=
  if count < 32 then number <<< count else host.shift number count

/-- The bytes are shifted as numbers of type `int` and then sign-extended. -/
def Host.i64ToNe (bytes : List Byte) : BitVec 64 :=
  (List.range 8).foldl (fun result i =>
    result ||| (host.shiftInt ((bytes.getD i 0).setWidth 32) (i * 8)).signExtend 64) 0

/-! Packing. -/

inductive FtwType where
  | file
  | directory
  | link
  | unreadable
  | noStat
  deriving DecidableEq, Repr

/-- A file as `nftw` visits it; the contents of a link are what it points to. -/
structure Visit where
  type : FtwType
  name : List Byte
  mtime : BitVec 64
  mode : BitVec 32
  uid : BitVec 32
  gid : BitVec 32
  size : BitVec 64
  contents : List Byte
  deriving DecidableEq, Repr

def Visit.recordType (v : Visit) : Byte :=
  match v.type with
  | .directory => typeDirectory
  | .link => typeLink
  | _ => typeRegular

def Visit.otherFields (v : Visit) : List Byte :=
  i64ToLe v.mtime ++ u16ToLe (v.mode.setWidth 16) ++ u16ToLe (v.uid.setWidth 16) ++
    u16ToLe (v.gid.setWidth 16) ++ (if v.type = .directory then i64ToLe 0 else i64ToLe v.size)

/-- What follows the fields of a link: if its size has changed, the one that was written is
replaced. -/
def writeLink (v : Visit) (archive : List Byte) : Option (List Byte) :=
  if v.size.toInt < 0 then
    none
  else
    let target := v.contents.take v.size.toNat
    if target.length ≠ v.size.toNat then
      (fwrite (numberBytes host.order 8 target.length)
        (archive.take (archive.length - 8))).bind (fwrite target)
    else
      fwrite target archive

def nftwVisit (archive : List Byte) (v : Visit) : Option (List Byte) :=
  if v.type = .unreadable ∨ v.type = .noStat then
    some archive
  else do
    let archive ← fwrite [v.recordType] archive
    let nameLength := BitVec.ofNat 16 v.name.length
    let archive ← fwrite (u16ToLe nameLength) archive
    let archive ← fwrite (v.name.take nameLength.toNat) archive
    let archive ← fwrite (u16ToLe 0) archive
    let archive ← fwrite v.otherFields archive
    match v.type with
    | .file => (copyLoop host v.contents archive v.size.toInt).map Prod.snd
    | .link => writeLink host v archive
    | _ => some archive

/-- The archive for the files that are visited. -/
def create (visits : List Visit) : Option (List Byte) := do
  let archive ← fwrite magic []
  visits.foldlM (nftwVisit host) archive

/-! Unpacking. -/

/-- What is read of a record. -/
structure Decoded where
  type : Byte
  name : List Byte
  timestamp : BitVec 64
  mode : BitVec 16
  owner : BitVec 16
  group : BitVec 16
  size : BitVec 64
  deriving DecidableEq, Repr

structure Extracted extends Decoded where
  contents : List Byte
  deriving DecidableEq, Repr

/-- The fields behind the description, with what is left of the stream. -/
def readOtherFields (type : Byte) (name stream : List Byte) :
    Option (Decoded × List Byte) :=
  (fread 22 stream).map fun (fields, stream) =>
    ({ type := type
       name := name
       timestamp := host.i64ToNe (fields.take 8)
       mode := u16ToNe ((fields.drop 8).take 2)
       owner := u16ToNe ((fields.drop 10).take 2)
       group := u16ToNe ((fields.drop 12).take 2)
       size := host.i64ToNe ((fields.drop 14).take 8) }, stream)

/-- Creates the file of a record: its contents, and what is left of the stream. -/
def extractContents (decoded : Decoded) (stream : List Byte) :
    Option (List Byte × List Byte) :=
  if decoded.type = typeRegular then
    (copyLoop host stream [] decoded.size.toInt).map Prod.swap
  else if decoded.type = typeLink then
    fread decoded.size.toNat stream
  else if decoded.type = typeDirectory then
    some ([], skipLoop stream decoded.size.toInt)
  else
    none

/-- One record behind its type; a file that is not asked for is skipped. -/
def extractRecord (files : List (List Byte)) (type : Byte) (stream : List Byte) :
    Option (Option Extracted × List Byte) := do
  let (bytes, stream) ← fread 2 stream
  let (name, stream) ← fread (u16ToNe bytes).toNat stream
  let (bytes, stream) ← fread 2 stream
  let stream := stream.drop (u16ToNe bytes).toNat
  if files ≠ [] ∧ name ∉ files then
    let (bytes, stream) ← fread 8 (stream.drop 14)
    some (none, skipLoop stream (host.i64ToNe bytes).toInt)
  else
    let (decoded, stream) ← readOtherFields host type name stream
    let decoded := { decoded with
      size := if decoded.size.toInt < 0 then 0 else decoded.size }
    let (contents, stream) ← extractContents host decoded stream
    some (some ⟨decoded, contents⟩, stream)

/-- The loop over the records.  Each takes more bytes than its round, so that the fuel lasts
as long as the stream. -/
def extractLoop (files : List (List Byte)) : (fuel : Nat) → (stream : List Byte) →
    Option (List Extracted)
  | 0, _ => some []
  | fuel + 1, stream =>
      match fread 1 stream with
      | none => some []
      | some (type, stream) =>
          (extractRecord host files (type.getD 0 0) stream).bind fun (extracted, stream) =>
            (extractLoop files fuel stream).map (extracted.toList ++ ·)

/-- The first bytes of an archive have been read. -/
def readMagic (archive : List Byte) : Option (List Byte) :=
  (fread 4 archive).bind fun (bytes, stream) => if bytes = magic then some stream else none

/-- Extracts the files that are asked for, or all files. -/
def extract (files : List (List Byte)) (archive : List Byte) : Option (List Extracted) :=
  (readMagic archive).bind fun stream => extractLoop host files stream.length stream

/-! Listing. -/

/-- The characters of a name, read and written one by one. -/
def copyName (nameLength : Nat) (stream : List Byte) : Option (List Byte) :=
  if stream.length < nameLength then none else some (stream.take nameLength)

/-- One record behind its type, as it is shown on a line. -/
def listRecord (type : Byte) (stream : List Byte) : Option (Decoded × List Byte) := do
  let (bytes, stream) ← fread 2 stream
  let nameLength := (u16ToNe bytes).toNat
  -- the name is passed over and read again behind the fields
  let nameStream := stream
  let (bytes, stream) ← fread 2 (stream.drop nameLength)
  let (decoded, stream) ← readOtherFields host type [] (stream.drop (u16ToNe bytes).toNat)
  let name ← copyName nameLength nameStream
  some ({ decoded with name := name }, skipLoop stream decoded.size.toInt)

def listLoop : (fuel : Nat) → (stream : List Byte) → Option (List Decoded)
  | 0, _ => some []
  | fuel + 1, stream =>
      match fread 1 stream with
      | none => some []
      | some (type, stream) =>
          (listRecord host (type.getD 0 0) stream).bind fun (decoded, stream) =>
            (listLoop fuel stream).map (decoded :: ·)

def listVerbose (archive : List Byte) : Option (List Decoded) :=
  (readMagic archive).bind fun stream => listLoop host stream.length stream

end Cenix.JaxTool
