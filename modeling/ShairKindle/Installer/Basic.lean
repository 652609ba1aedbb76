import ShairKindle.Lib.Bytes
import ShairKindle.Lib.Crash
import ShairKindle.Lib.FileTree
import ShairKindle.Installer.Manifest

/-!
# The payload installer (PayloadInstaller.java)

`install` and its phases as programs over a file system whose operations may fail and before any of
which the process may be killed. Every `delete`, write, `chmod`, rename and directory creation is one
operation; listing and reading may fail too, looking at a node (`exists`, `isDirectory`, …) does not.
A path is a list of names, innermost first, so `new File(dir, name)` is `name :: dir`.

| here | PayloadInstaller.java |
|---|---|
| `isUpToDate`, `install` | :250, :264 |
| `pruneOrphans` | :302 |
| `clearTypeConflicts`, `deleteTree` | :339, :362 |
| `installEntry` | :374 |
| `writeFileSynced`, `chmod`, `renameOrThrow` | :426, :438, :451 |
| `cleanStaleNewRecursive` | :468 |
| `installPayload` | KindletShell.java:105 |

The lock that keeps two installs of one process apart is left out: calls run one after the other.
The hash is a parameter. Recursion into directories is bounded by what a path can reach; beyond that
the stack overflows. A path may be of any length.
-/

namespace ShairKindle.Payload

open Crash Crash.Prog FileTree

/-- A path, innermost name first. -/
abbrev Path := List Text

/-- A file's content and permission mode. -/
structure FileData where
  content : Bytes
  mode : Text
deriving DecidableEq, Repr

abbrev Tree := FS Text FileData

/-- What is thrown: an `IOException` with its message and the paths in it, or a `StackOverflowError`. -/
inductive Thrown
  | io (message : String) (paths : List Path)
  | stackOverflow
deriving DecidableEq

abbrev Install := Prog Tree Thrown

/-! ## `java.io.File` -/

def fileExists (p : Path) (fs : Tree) : Bool := (fs.stat p).isSome

def isDirectory (p : Path) (fs : Tree) : Bool := fs.stat p = some .dir

def isFile (p : Path) (fs : Tree) : Bool := (fs.read p).isSome

/-- `isSymlink` (:324). The installer asks it of nodes that exist; there the canonical path differs from
the parent's plus the name exactly if the node is a link. -/
def isSymlink (p : Path) (fs : Tree) : Bool := fs.isLink p

/-- The mode of a new file, before any `chmod`. -/
def newFileMode : Text := "644".toList

/-- More than the depth of any path that can be walked. -/
def walkDepth (fs : Tree) : Nat := (fs.nodes.entries.length + 1) * (FS.maxLinks + 1)

/-- An operation that has to succeed. -/
def mustDo (message : String) (p : Path) (f : Tree → Option Tree) : Install Unit := do
  let ok ← attempt f
  if ok then pure () else throw (.io message [p])

/-- `File.mkdirs`. -/
def mkdirs : Path → Install Bool
  | [] => pure false
  | n :: p => do
    let there ← peek (fileExists (n :: p))
    if there then pure false
    else
      let made ← attempt (·.create (n :: p))
      if made then pure true
      else
        let above ← mkdirs p
        let present ← peek (fileExists p)
        if above || present then attempt (·.create (n :: p)) else pure false

/-- `if (!d.isDirectory() && !d.mkdirs() && !d.isDirectory()) throw` (:267, :387). -/
def ensureDir (message : String) (d : Path) : Install Unit := do
  let there ← peek (isDirectory d)
  if there then pure ()
  else
    let made ← mkdirs d
    let now ← peek (isDirectory d)
    if made || now then pure () else throw (.io message [d])

/-- `readFile` (:231). -/
def readFile (f : Path) : Install Bytes := do
  let data ← query fun fs => (fs.read f).map (·.content)
  match data with
  | some c => pure c
  | none => throw (.io "read: " [f])

/-- `writeFileSynced` (:426). -/
def writeFileSynced (f : Path) (data : Bytes) : Install Unit :=
  mustDo "write: " f (·.write (fun old => ⟨data, (old.map (·.mode)).getD newFileMode⟩) f)

/-- `chmod` (:438). -/
def chmod (mode : Text) (f : Path) : Install Unit :=
  mustDo "chmod failed: " f fun fs => (fs.read f).bind fun d => fs.write (fun _ => { d with mode := mode }) f

/-- `mv -f`: a file that is moved to a directory goes into it. -/
def mvInto (src dst : Path) (fs : Tree) : Option Tree :=
  if isDirectory dst fs then fs.move src (src.head?.toList ++ dst) else fs.move src dst

/-- `renameOrThrow` (:451). -/
def renameOrThrow (src dst : Path) : Install Unit := do
  let renamed ← attempt (·.move src dst)
  if renamed then pure ()
  else
    let moved ← attempt (mvInto src dst)
    let there ← peek (fileExists dst)
    if moved && there then pure () else throw (.io "rename failed: " [src, dst])

/-! ## Cleaning, clearing, pruning -/

/-- `cleanStaleNewRecursive` (:468): failures are ignored. -/
def cleanStaleNewRecursive : Nat → Path → Install Unit
  | 0, _ => throw .stackOverflow
  | k + 1, dir => do
    let files ← query (·.list dir)
    (files.getD []).forM fun name => do
      let isDir ← peek (isDirectory (name :: dir))
      if isDir then cleanStaleNewRecursive k (name :: dir)
      else if endsWith name newSuffix then do
        let _ ← attempt (·.delete (name :: dir))
        pure ()
      else pure ()

/-- `deleteTree` (:362). -/
def deleteTree : Nat → Path → Install Unit
  | 0, _ => throw .stackOverflow
  | k + 1, dir => do
    let kids ← query (·.list dir)
    (kids.getD []).forM fun name => do
      let isDir ← peek (isDirectory (name :: dir))
      let sym ← peek (isSymlink (name :: dir))
      if isDir && !sym then deleteTree k (name :: dir)
      else mustDo "clear: cannot delete: " (name :: dir) (·.delete (name :: dir))
    mustDo "clear: cannot remove dir: " dir (·.delete dir)

/-- The loop of `clearTypeConflicts` (:341-358): `dir` has been walked, the tokens are left. -/
def clearTypeConflicts : Path → List Text → Install Unit
  | _, [] => pure ()
  | dir, t :: ts => do
    let there ← peek (fileExists (t :: dir))
    if !there then pure ()
    else
      let sym ← peek (isSymlink (t :: dir))
      let isDir ← peek (isDirectory (t :: dir))
      if ts = [] then
        if sym then mustDo "clear: cannot unlink target: " (t :: dir) (·.delete (t :: dir))
        else if isDir then do
          let k ← peek walkDepth
          deleteTree k (t :: dir)
        else pure ()
      else if sym || !isDir then mustDo "clear: cannot remove blocker: " (t :: dir) (·.delete (t :: dir))
      else clearTypeConflicts (t :: dir) ts

/-- The relative path of a file found in a directory (:307). -/
def relChild (pre name : Text) : Text := if pre = [] then name else pre ++ '/' :: name

/-- `pruneOrphans` (:302). -/
def pruneOrphans (keep : List Text) : Nat → Path → Text → Install Unit
  | 0, _, _ => throw .stackOverflow
  | k + 1, dir, pre => do
    let files ← query (·.list dir)
    match files with
    | none => throw (.io "prune: cannot list dir: " [dir])
    | some names =>
      names.forM fun name => do
        let rel := relChild pre name
        let isDir ← peek (isDirectory (name :: dir))
        let sym ← peek (isSymlink (name :: dir))
        if isDir && !sym then do
          pruneOrphans keep k (name :: dir) rel
          let remaining ← query (·.list (name :: dir))
          if remaining = some [] then
            mustDo "prune: cannot remove empty dir: " (name :: dir) (·.delete (name :: dir))
          else pure ()
        else if rel ≠ stampName ∧ endsWith rel newSuffix = false ∧ keep.contains rel = false then
          mustDo "prune: cannot delete orphan: " (name :: dir) (·.delete (name :: dir))
        else pure ()

/-! ## Installing -/

/-- `new File(installDir, entry.relPath)`. -/
def target (dir : Path) (e : Entry) : Path := (components e.relPath).reverse ++ dir

/-- `new File(f.getParentFile(), f.getName() + ".new")`. -/
def staged : Path → Path
  | [] => []
  | n :: p => (n ++ newSuffix) :: p

section Hash

variable (hash : Bytes → Text)

/-- `target.exists()` and its hash (:378-383). -/
def currentSha (f : Path) : Install (Option Text) := do
  let there ← peek (fileExists f)
  if there then do
    let c ← readFile f
    pure (some (hash c))
  else pure none

/-- Write the resource to `tmp`, check it and move it to `dst` (:392-409). -/
def extract (res : Text → Option Bytes) (e : Entry) (tmp dst : Path) : Install Unit := do
  let odd ← peek fun fs => fileExists tmp fs && !isFile tmp fs
  if odd then throw (.io "refusing pre-existing non-regular .new: " [tmp])
  else
    let data ← query fun _ => res e.relPath
    match data with
    | none => throw (.io "resource open returned null: " [(components e.relPath).reverse])
    | some data => do
      writeFileSynced tmp data
      let c ← readFile tmp
      if hash c ≠ e.sha256 then throw (.io "sha256 mismatch after extract: " [(components e.relPath).reverse])
      else do
        chmod e.mode tmp
        renameOrThrow tmp dst

/-- `installEntry` (:374). -/
def installEntry (dir : Path) (res : Text → Option Bytes) (e : Entry) : Install Unit := do
  clearTypeConflicts dir (components e.relPath)
  let sha ← currentSha hash (target dir e)
  if sha = some e.sha256 then pure ()
  else do
    ensureDir "cannot create parent dir: " (target dir e).tail
    extract hash res e (staged (target dir e)) (target dir e)

/-- `String.getBytes("US-ASCII")`: what is not ASCII becomes a question mark. -/
def encodeAscii (s : Text) : Bytes := s.map fun c => if c.toNat < 128 then UInt8.ofNat c.toNat else 63

/-- `new String(raw, "US-ASCII")`: what is not ASCII becomes the replacement character. -/
def decodeAscii (bs : Bytes) : Text := bs.map fun b => if b.toNat < 128 then Char.ofNat b.toNat else Char.ofNat 0xFFFD

/-- `install` up to the staged stamp (:267-290). -/
def installFiles (dir : Path) (m : Manifest) (res : Text → Option Bytes) : Install Unit := do
  ensureDir "cannot create installDir: " dir
  let k ← peek walkDepth
  cleanStaleNewRecursive k dir
  m.entries.forM (installEntry hash dir res)
  let k ← peek walkDepth
  pruneOrphans (m.entries.map (·.relPath)) k dir []
  writeFileSynced (staged (stampName :: dir)) (encodeAscii m.version)

/-- `install` (:264): the stamp is written last, staged. -/
def install (dir : Path) (m : Manifest) (res : Text → Option Bytes) : Install Unit := do
  installFiles hash dir m res
  renameOrThrow (staged (stampName :: dir)) (stampName :: dir)

/-- What the stamp says (:251-255). -/
def stampVersion (dir : Path) (fs : Tree) : Option Text :=
  (fs.read (stampName :: dir)).map fun d => trim (decodeAscii d.content)

/-- `isUpToDate` (:250). -/
def isUpToDate (dir : Path) (version : Text) (fs : Tree) : Bool := stampVersion dir fs = some version

/-- `installPayload` (KindletShell.java:105), with the bundled manifest parsed. -/
def installPayload (dir : Path) (m : Manifest) (res : Text → Option Bytes) : Install Unit := do
  let upToDate ← peek (isUpToDate dir m.version)
  if upToDate then pure () else install hash dir m res

end Hash

end ShairKindle.Payload
