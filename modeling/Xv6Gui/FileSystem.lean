import Xv6Gui.Directories
import Xv6Gui.FileTable

/-!
# Calls on the directory tree

The inode layer and the path calls of fs.c and sysfile.c, one system call at a time on one
device. An inode is known by its number, and its cached copy is the inode on disk, since every
change is followed by `iupdate`; `iref` counts the references of the cache entry. The
allocation of data blocks is left out, and so is `valid`: an inode that has been looked up but
not read is free or has a link, so iput leaves it alone.
-/
namespace FileSystem

open GuardedRuns Directories
open WindowManagerState (ProcId)
open FileTable (FileId FileFault nofile argfd filealloc fdalloc setFile setSlot setLife oRdonly
  oWronly oRdwr oCreate)

abbrev ninode : ℕ := 50
abbrev rootino : ℕ := 1

inductive InodeType where
  | free | dir | file | dev
  deriving DecidableEq, Repr

/-- The contents of a directory are `entries`, those of a file are `data`. -/
structure Inode where
  type : InodeType
  major : BitVec 16
  minor : BitVec 16
  nlink : BitVec 16
  entries : List Dirent
  data : List UInt8
  deriving DecidableEq, Repr

inductive Fault where
  | panic (message : String)
  | deadlock
  | file (fault : FileFault)
  deriving DecidableEq, Repr

structure System where
  ninodes : ℕ
  inode : ℕ → Inode
  iref : ℕ → ℕ
  cwd : ProcId → ℕ
  tables : FileTable.System

def setInode (s : System) (i : ℕ) (v : Inode) : System :=
  { s with inode := Function.update s.inode i v }

/-- One more reference to the cached inode. -/
def hold (s : System) (i : ℕ) : System :=
  { s with iref := Function.update s.iref i (s.iref i + 1) }

def cached (s : System) : ℕ := ((List.range s.ninodes).filter fun i => s.iref i ≠ 0).length

def iget (s : System) (i : ℕ) : Except Fault System :=
  if s.iref i = 0 ∧ ninode ≤ cached s then .error (.panic "iget: no inodes") else .ok (hold s i)

def idup (s : System) (i : ℕ) : System := hold s i

def ilock (s : System) (i : ℕ) : Except Fault Unit :=
  if (s.inode i).type = .free then .error (.panic "ilock: no type") else .ok ()

/-- Truncate and free an inode. -/
def ifree (s : System) (i : ℕ) : System :=
  setInode s i { s.inode i with type := .free, entries := [], data := [] }

def iput (s : System) (i : ℕ) : System :=
  let t := if (s.inode i).type ≠ .free ∧ (s.inode i).nlink = 0 ∧ s.iref i = 1 then ifree s i else s
  { t with iref := Function.update s.iref i (s.iref i - 1) }

def ialloc (s : System) (type : InodeType) : Except Fault (System × ℕ) :=
  match (List.range s.ninodes).find? fun i => i ≠ 0 ∧ (s.inode i).type = .free with
  | none => .error (.panic "ialloc: no inodes")
  | some i => do
    let s ← iget (setInode s i ⟨type, 0, 0, 0, [], []⟩) i
    return (s, i)

/-- The entry that carries the name; its inode is returned with a reference. -/
def dirlookup (s : System) (dp : ℕ) (name : Name) : Except Fault (System × Option (ℕ × ℕ)) :=
  if (s.inode dp).type ≠ .dir then .error (.panic "dirlookup not DIR")
  else
    match dirscan (s.inode dp).entries name with
    | none => .ok (s, none)
    | some (i, off) => do
      let s ← iget s i
      return (s, some (i, off))

/-- Conversion to the ushort of a directory entry. -/
def ushort (i : ℕ) : ℕ := i % 65536

/-- The callers hold the lock of `dp`, which the iput of a name that is taken asks for again
when the name is that of `dp` itself. -/
def dirlink (s : System) (dp : ℕ) (name : Name) (inum : ℕ) : Except Fault (System × Bool) := do
  let (s, r) ← dirlookup s dp name
  match r with
  | some (i, _) => if i = dp then .error .deadlock else return (iput s i, false)
  | none =>
    let d := s.inode dp
    if maxEntries ≤ d.entries.length ∧ ∀ de ∈ d.entries, de.inum ≠ 0 then
      .error (.panic "dirlink")
    else return (setInode s dp { d with entries := putEntry ⟨ushort inum, name⟩ d.entries }, true)

/-- The loop of `namex` over the elements of the path. -/
def namexFrom (parent : Bool) (s : System) (ip : ℕ) :
    List Name → Except Fault (System × Option (ℕ × Name))
  | [] => if parent then .ok (iput s ip, none) else .ok (s, some (ip, []))
  | name :: rest => do
    ilock s ip
    if (s.inode ip).type ≠ .dir then return (iput s ip, none)
    else if parent ∧ rest = [] then return (s, some (ip, name))
    else
      let (s, r) ← dirlookup s ip name
      match r with
      | none => return (iput s ip, none)
      | some (next, _) => namexFrom parent (iput s ip) next rest

def namex (s : System) (p : ProcId) (path : List UInt8) (parent : Bool) :
    Except Fault (System × Option (ℕ × Name)) :=
  if path.head? = some slash then do
    let s ← iget s rootino
    namexFrom parent s rootino (elems path)
  else namexFrom parent (idup s (s.cwd p)) (s.cwd p) (elems path)

def namei (s : System) (p : ProcId) (path : List UInt8) :
    Except Fault (System × Option (ℕ × Name)) := namex s p path false

def nameiparent (s : System) (p : ProcId) (path : List UInt8) :
    Except Fault (System × Option (ℕ × Name)) := namex s p path true

def setNlink (s : System) (i : ℕ) (n : BitVec 16) : System :=
  setInode s i { s.inode i with nlink := n }

/-- The new inode with its entries `.` and `..`, and the link of `..` to the parent. -/
def makeDots (s : System) (dp ip : ℕ) : Except Fault System := do
  let s := setNlink s dp ((s.inode dp).nlink + 1)
  let (s, ok) ← dirlink s ip dot ip
  if ok then
    let (s, ok) ← dirlink s ip dotdot dp
    if ok then return s else .error (.panic "create dots")
  else .error (.panic "create dots")

/-- The second half of `create`, for a name that is free in `dp`. -/
def makeInode (s : System) (dp : ℕ) (name : Name) (type : InodeType) (major minor : BitVec 16) :
    Except Fault (System × Option ℕ) := do
  let (s, ip) ← ialloc s type
  ilock s ip
  let s := setInode s ip { s.inode ip with major := major, minor := minor, nlink := 1 }
  let s ← if type = .dir then makeDots s dp ip else .ok s
  let (s, ok) ← dirlink s dp name ip
  if ok then return (iput s dp, some ip) else .error (.panic "create: dirlink")

/-- The inode that `create` returns carries a reference. -/
def create (s : System) (p : ProcId) (path : List UInt8) (type : InodeType)
    (major minor : BitVec 16) : Except Fault (System × Option ℕ) := do
  let (s, r) ← nameiparent s p path
  match r with
  | none => return (s, none)
  | some (dp, name) =>
    ilock s dp
    let (s, r) ← dirlookup s dp name
    match r with
    | some (ip, _) =>
      let s := iput s dp
      ilock s ip
      if type = .file ∧ (s.inode ip).type = .file then return (s, some ip)
      else return (iput s ip, none)
    | none => makeInode s dp name type major minor

/-- A call of a function of the file table. -/
def onTables {α : Type} (x : Except FileFault α) : Except Fault α := x.mapError .file

/-- Close a file; the last reference to a file on an inode drops that of the inode. -/
def fileclose (s : System) (f : FileId) : Except Fault System := do
  let ff := s.tables.file f
  let tables ← onTables (FileTable.fileclose s.tables f)
  let s := { s with tables := tables }
  if ff.ref - 1 > 0 then return s
  else
    match ff.type with
    | .inode => return iput s ff.ip
    | .none | .pipe => return s

/-- The second half of `sys_open`, on the inode that has been found. -/
def openFile (s : System) (p : ProcId) (ip : ℕ) (omode : BitVec 32) :
    Except Fault (System × ℤ) :=
  match filealloc s.tables with
  | none => .ok (iput s ip, -1)
  | some (f, tables) =>
    match fdalloc tables p f with
    | none => do
      let s ← fileclose { s with tables := tables } f
      return (iput s ip, -1)
    | some (fd, tables) =>
      .ok ({ s with tables := setFile tables f { tables.file f with
        type := .inode
        ip := ip
        off := 0
        readable := omode &&& oWronly = 0
        writable := omode &&& oWronly ≠ 0 ∨ omode &&& oRdwr ≠ 0 } }, fd)

/-- No path stands for an argument that `argstr` refuses. -/
def sysOpen (s : System) (p : ProcId) (path : Option (List UInt8)) (omode : BitVec 32) :
    Except Fault (System × ℤ) :=
  match path with
  | none => .ok (s, -1)
  | some path =>
    if omode &&& oCreate ≠ 0 then do
      let (s, r) ← create s p path .file 0 0
      match r with
      | none => return (s, -1)
      | some ip => openFile s p ip omode
    else do
      let (s, r) ← namei s p path
      match r with
      | none => return (s, -1)
      | some (ip, _) =>
        ilock s ip
        if (s.inode ip).type = .dir ∧ omode ≠ oRdonly then return (iput s ip, -1)
        else openFile s p ip omode

/-- The exit of `sys_link` that takes the new link back. -/
def linkBad (s : System) (ip : ℕ) : Except Fault (System × ℤ) := do
  ilock s ip
  return (iput (setNlink s ip ((s.inode ip).nlink - 1)) ip, -1)

def sysLink (s : System) (p : ProcId) (old new : Option (List UInt8)) :
    Except Fault (System × ℤ) :=
  match old, new with
  | some old, some new => do
    let (s, r) ← namei s p old
    match r with
    | none => return (s, -1)
    | some (ip, _) =>
      ilock s ip
      if (s.inode ip).type = .dir then return (iput s ip, -1)
      else
        let s := setNlink s ip ((s.inode ip).nlink + 1)
        let (s, r) ← nameiparent s p new
        match r with
        | none => linkBad s ip
        | some (dp, name) =>
          ilock s dp
          let (s, ok) ← dirlink s dp name ip
          if ok then return (iput (iput s dp) ip, 0) else linkBad (iput s dp) ip
  | _, _ => .ok (s, -1)

def sysUnlink (s : System) (p : ProcId) (path : Option (List UInt8)) :
    Except Fault (System × ℤ) :=
  match path with
  | none => .ok (s, -1)
  | some path => do
    let (s, r) ← nameiparent s p path
    match r with
    | none => return (s, -1)
    | some (dp, name) =>
      ilock s dp
      if name = dot ∨ name = dotdot then return (iput s dp, -1)
      else
        let (s, r) ← dirlookup s dp name
        match r with
        | none => return (iput s dp, -1)
        | some (ip, off) =>
          -- The lock of dp is held.
          if ip = dp then .error .deadlock
          else
            ilock s ip
            if (s.inode ip).nlink.toInt < 1 then .error (.panic "unlink: nlink < 1")
            else if (s.inode ip).type = .dir ∧ isdirempty (s.inode ip).entries = false then
              return (iput (iput s ip) dp, -1)
            else
              let s := setInode s dp
                { s.inode dp with entries := clearEntry (s.inode dp).entries off }
              let s := if (s.inode ip).type = .dir then setNlink s dp ((s.inode dp).nlink - 1)
                else s
              let s := iput s dp
              let s := setNlink s ip ((s.inode ip).nlink - 1)
              return (iput s ip, 0)

def sysMkdir (s : System) (p : ProcId) (path : Option (List UInt8)) :
    Except Fault (System × ℤ) :=
  match path with
  | none => .ok (s, -1)
  | some path => do
    let (s, r) ← create s p path .dir 0 0
    match r with
    | none => return (s, -1)
    | some ip => return (iput s ip, 0)

def sysMknod (s : System) (p : ProcId) (path : Option (List UInt8)) (major minor : BitVec 32) :
    Except Fault (System × ℤ) :=
  match path with
  | none => .ok (s, -1)
  | some path => do
    let (s, r) ← create s p path .dev (major.setWidth 16) (minor.setWidth 16)
    match r with
    | none => return (s, -1)
    | some ip => return (iput s ip, 0)

def sysChdir (s : System) (p : ProcId) (path : Option (List UInt8)) :
    Except Fault (System × ℤ) :=
  match path with
  | none => .ok (s, -1)
  | some path => do
    let (s, r) ← namei s p path
    match r with
    | none => return (s, -1)
    | some (ip, _) =>
      ilock s ip
      if (s.inode ip).type ≠ .dir then return (iput s ip, -1)
      else
        let s := iput s (s.cwd p)
        return ({ s with cwd := Function.update s.cwd p ip }, 0)

def sysClose (s : System) (p : ProcId) (fd : ℤ) : Except Fault (System × ℤ) :=
  match argfd s.tables p fd with
  | none => .ok (s, -1)
  | some (fd, f) => do
    let s ← fileclose { s with tables := setSlot s.tables (p, fd) none } f
    return (s, 0)

/-- The loop of exit over the descriptors. -/
def closeFiles (s : System) (p : ProcId) : List (Fin nofile) → Except Fault System
  | [] => .ok s
  | fd :: fds =>
    match s.tables.ofile (p, fd) with
    | none => closeFiles s p fds
    | some f => do
      let s ← fileclose s f
      closeFiles { s with tables := setSlot s.tables (p, fd) none } p fds

def exit (s : System) (p : ProcId) : Except Fault System :=
  if p = ProcessTable.initproc then .error (.panic "init exiting")
  else do
    let s ← closeFiles s p (List.finRange nofile)
    let s := iput s (s.cwd p)
    return { s with
      cwd := Function.update s.cwd p 0
      tables := setLife s.tables p .zombie }

inductive Event where
  | open (p : ProcId) (path : Option (List UInt8)) (omode : BitVec 32)
  | mkdir (p : ProcId) (path : Option (List UInt8))
  | mknod (p : ProcId) (path : Option (List UInt8)) (major minor : BitVec 32)
  | link (p : ProcId) (old new : Option (List UInt8))
  | unlink (p : ProcId) (path : Option (List UInt8))
  | chdir (p : ProcId) (path : Option (List UInt8))
  | close (p : ProcId) (fd : ℤ)
  | exit (p : ProcId)
  deriving DecidableEq

def Event.caller : Event → ProcId
  | .open p _ _ | .mkdir p _ | .mknod p _ _ _ | .link p _ _ | .unlink p _ | .chdir p _
  | .close p _ | .exit p => p

/-- The calls are made by processes that run. -/
def Enabled (s : System) (e : Event) : Prop := s.tables.life e.caller = .live

instance (s : System) (e : Event) : Decidable (Enabled s e) := inferInstanceAs (Decidable (_ = _))

/-- The call and what it returns; `exit` does not return, which is noted as 0. -/
def call (s : System) : Event → Except Fault (System × ℤ)
  | .open p path omode => sysOpen s p path omode
  | .mkdir p path => sysMkdir s p path
  | .mknod p path major minor => sysMknod s p path major minor
  | .link p old new => sysLink s p old new
  | .unlink p path => sysUnlink s p path
  | .chdir p path => sysChdir s p path
  | .close p fd => sysClose s p fd
  | .exit p => do
    let s ← exit s p
    return (s, 0)

def step (s : System) (e : Event) : Except Fault System := Prod.fst <$> call s e

def freeInode : Inode := ⟨.free, 0, 0, 0, [], []⟩

/-- A disk with nothing but the root directory, which is the directory of init. -/
def emptyDisk (ninodes : ℕ) : System where
  ninodes := ninodes
  inode i := if i = rootino then
    ⟨.dir, 0, 0, 1, [⟨rootino, dot⟩, ⟨rootino, dotdot⟩], []⟩ else freeInode
  iref i := if i = rootino then 1 else 0
  cwd p := if p = ProcessTable.initproc then rootino else 0
  tables := FileTable.initial

end FileSystem
