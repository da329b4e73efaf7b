import Xv6Gui.ProcessTable
import Mathlib.Data.Fintype.Prod

/-!
# Struct files, descriptors and the ends of pipes

file.c, the descriptor half of sysfile.c, pipealloc and pipeclose, and what fork, exit and
wait do with descriptors, one system call a step. A pipe page is known by its address, which
`kalloc` may hand out again once it is free; path lookup and `kalloc` are given by the event.
The in-core inodes behind a file are left out.
-/
namespace FileTable

open WindowManagerState GuardedRuns ProcessTable

abbrev nofile : ℕ := 16
abbrev nfile : ℕ := 100

abbrev FileId := Fin nfile

/-- A descriptor of a process: `proc->ofile[fd]`. -/
abbrev Slot := ProcId × Fin nofile

inductive FileType where
  | none | pipe | inode
  deriving DecidableEq, Repr

structure File where
  type : FileType
  ref : ℕ
  readable : Bool
  writable : Bool
  pipe : ℕ
  ip : ℕ
  off : ℕ
  deriving DecidableEq, Repr

/-- The two flags of a `struct pipe`. -/
structure Ends where
  readopen : Bool
  writeopen : Bool
  deriving DecidableEq, Repr

def Ends.isOpen (e : Ends) (writable : Bool) : Bool :=
  if writable then e.writeopen else e.readopen

def Ends.close (e : Ends) (writable : Bool) : Ends :=
  if writable then { e with writeopen := false } else { e with readopen := false }

/-- A process slot as far as descriptors go: free, of a process, or waiting to be reaped. -/
inductive Life where
  | unused | live | zombie
  deriving DecidableEq, Repr

/-- The tables, the pipe on each page that holds one, and how often the page was taken for a
pipe and given back. -/
structure System where
  life : ProcId → Life
  ofile : Slot → Option FileId
  file : FileId → File
  page : ℕ → Option Ends
  allocs : ℕ → ℕ
  frees : ℕ → ℕ

inductive FileFault where
  | panic (message : String)
  | freedPage
  deriving DecidableEq, Repr

def setFile (s : System) (f : FileId) (v : File) : System :=
  { s with file := Function.update s.file f v }

def setSlot (s : System) (x : Slot) (v : Option FileId) : System :=
  { s with ofile := Function.update s.ofile x v }

def setLife (s : System) (p : ProcId) (v : Life) : System :=
  { s with life := Function.update s.life p v }

def kalloc (s : System) (a : ℕ) (e : Ends) : System :=
  { s with
    page := Function.update s.page a (some e)
    allocs := Function.update s.allocs a (s.allocs a + 1) }

def kfree (s : System) (a : ℕ) : System :=
  { s with
    page := Function.update s.page a none
    frees := Function.update s.frees a (s.frees a + 1) }

def filealloc (s : System) : Option (FileId × System) :=
  ((List.finRange nfile).find? fun f => (s.file f).ref == 0).map fun f =>
    (f, setFile s f { s.file f with ref := 1 })

def filedup (s : System) (f : FileId) : Except FileFault System :=
  if (s.file f).ref < 1 then .error (.panic "filedup")
  else .ok (setFile s f { s.file f with ref := (s.file f).ref + 1 })

def pipeclose (s : System) (a : ℕ) (writable : Bool) : Except FileFault System :=
  match s.page a with
  | none => .error .freedPage
  | some e =>
    let e := e.close writable
    if e.readopen = false ∧ e.writeopen = false then .ok (kfree s a)
    else .ok { s with page := Function.update s.page a (some e) }

def fileclose (s : System) (f : FileId) : Except FileFault System :=
  let ff := s.file f
  if ff.ref < 1 then .error (.panic "fileclose")
  else if ff.ref - 1 > 0 then .ok (setFile s f { ff with ref := ff.ref - 1 })
  else
    let s := setFile s f { ff with ref := 0, type := .none }
    match ff.type with
    | .pipe => pipeclose s ff.pipe ff.writable
    | .none | .inode => .ok s

/-- The file takes the first free descriptor of the process. -/
def fdalloc (s : System) (p : ProcId) (f : FileId) : Option (Fin nofile × System) :=
  ((List.finRange nofile).find? fun fd => (s.ofile (p, fd)).isNone).map fun fd =>
    (fd, setSlot s (p, fd) (some f))

def argfd (s : System) (p : ProcId) (fd : ℤ) : Option (Fin nofile × FileId) :=
  if h : 0 ≤ fd ∧ fd < nofile then
    let fd : Fin nofile := ⟨fd.toNat, by omega⟩
    (s.ofile (p, fd)).map fun f => (fd, f)
  else none

def oRdonly : BitVec 32 := 0
def oWronly : BitVec 32 := 1
def oRdwr : BitVec 32 := 2
def oCreate : BitVec 32 := 0x200

/-- The inode that create or namei finds, and whether it is a directory. -/
structure Found where
  ip : ℕ
  dir : Bool
  deriving DecidableEq, Repr

/-- The inode that `sys_open` holds locked when it turns to the file table. -/
def openInode (found : Option Found) (omode : BitVec 32) : Option ℕ :=
  found.bind fun i =>
    if omode &&& oCreate = 0 ∧ i.dir ∧ omode ≠ oRdonly then none else some i.ip

def sysOpen (s : System) (p : ProcId) (found : Option Found) (omode : BitVec 32) :
    Except FileFault (System × ℤ) :=
  match openInode found omode with
  | none => .ok (s, -1)
  | some ip =>
    match filealloc s with
    | none => .ok (s, -1)
    | some (f, s) =>
      match fdalloc s p f with
      | none => do
        let s ← fileclose s f
        return (s, -1)
      | some (fd, s) =>
        .ok (setFile s f { s.file f with
          type := .inode
          ip := ip
          off := 0
          readable := omode &&& oWronly = 0
          writable := omode &&& oWronly ≠ 0 ∨ omode &&& oRdwr ≠ 0 }, fd)

/-- The exit of `pipealloc` that gives back what was taken; no page is held there. -/
def pipealloc (s : System) (page : Option ℕ) :
    Except FileFault (System × Option (FileId × FileId)) :=
  match filealloc s with
  | none => .ok (s, none)
  | some (f0, s) =>
    match filealloc s with
    | none => do
      let s ← fileclose s f0
      return (s, none)
    | some (f1, s) =>
      match page with
      | none => do
        let s ← fileclose s f0
        let s ← fileclose s f1
        return (s, none)
      | some a =>
        let s := kalloc s a ⟨true, true⟩
        let s := setFile s f0 { s.file f0 with
          type := .pipe, readable := true, writable := false, pipe := a }
        let s := setFile s f1 { s.file f1 with
          type := .pipe, readable := false, writable := true, pipe := a }
        .ok (s, some (f0, f1))

/-- `argOk` says whether the pointer for the two descriptors passed `argptr`. -/
def sysPipe (s : System) (p : ProcId) (argOk : Bool) (page : Option ℕ) :
    Except FileFault (System × ℤ) :=
  if argOk then do
    let (s, files) ← pipealloc s page
    match files with
    | none => return (s, -1)
    | some (rf, wf) =>
      match fdalloc s p rf with
      | none => do
        let s ← fileclose s rf
        let s ← fileclose s wf
        return (s, -1)
      | some (fd0, s) =>
        match fdalloc s p wf with
        | none => do
          let s := setSlot s (p, fd0) none
          let s ← fileclose s rf
          let s ← fileclose s wf
          return (s, -1)
        | some (_, s) => return (s, 0)
  else .ok (s, -1)

def sysDup (s : System) (p : ProcId) (fd : ℤ) : Except FileFault (System × ℤ) :=
  match argfd s p fd with
  | none => .ok (s, -1)
  | some (_, f) =>
    match fdalloc s p f with
    | none => .ok (s, -1)
    | some (fd, s) => do
      let s ← filedup s f
      return (s, fd)

def sysClose (s : System) (p : ProcId) (fd : ℤ) : Except FileFault (System × ℤ) :=
  match argfd s p fd with
  | none => .ok (s, -1)
  | some (fd, f) => do
    let s ← fileclose (setSlot s (p, fd) none) f
    return (s, 0)

/-- The loop of fork over the parent's descriptors. -/
def dupFiles (s : System) (p np : ProcId) : List (Fin nofile) → Except FileFault System
  | [] => .ok s
  | fd :: fds =>
    match s.ofile (p, fd) with
    | none => dupFiles s p np fds
    | some f => do
      let s ← filedup s f
      dupFiles (setSlot s (np, fd) (some f)) p np fds

/-- `memory` says whether the stack and the copy of the memory could be allocated. -/
def fork (s : System) (p : ProcId) (memory : Bool) : Except FileFault System :=
  match findProc fun q => s.life q == .unused with
  | none => .ok s
  | some np =>
    if memory then do
      let s ← dupFiles s p np (List.finRange nofile)
      return setLife s np .live
    else .ok s

/-- The loop of exit over the descriptors. -/
def closeFiles (s : System) (p : ProcId) : List (Fin nofile) → Except FileFault System
  | [] => .ok s
  | fd :: fds =>
    match s.ofile (p, fd) with
    | none => closeFiles s p fds
    | some f => do
      let s ← fileclose s f
      closeFiles (setSlot s (p, fd) none) p fds

def exit (s : System) (p : ProcId) : Except FileFault System :=
  if p = initproc then .error (.panic "init exiting")
  else do
    let s ← closeFiles s p (List.finRange nofile)
    return setLife s p .zombie

inductive Event where
  | open (p : ProcId) (found : Option Found) (omode : BitVec 32)
  | pipe (p : ProcId) (argOk : Bool) (page : Option ℕ)
  | dup (p : ProcId) (fd : ℤ)
  | close (p : ProcId) (fd : ℤ)
  | fork (p : ProcId) (memory : Bool)
  | exit (p : ProcId)
  | wait (p child : ProcId)
  deriving DecidableEq

/-- A process that runs makes the call, a page that `kalloc` returns holds no pipe, and wait
reaps a zombie. -/
def Enabled (s : System) : Event → Prop
  | .open p _ _ | .dup p _ | .close p _ | .fork p _ | .exit p => s.life p = .live
  | .pipe p _ page => s.life p = .live ∧ ∀ a ∈ page, s.page a = none
  | .wait p child => s.life p = .live ∧ s.life child = .zombie

instance (s : System) : (e : Event) → Decidable (Enabled s e)
  | .open _ _ _ | .dup _ _ | .close _ _ | .fork _ _ | .exit _ => inferInstanceAs (Decidable (_ = _))
  | .pipe _ _ _ | .wait _ _ => inferInstanceAs (Decidable (_ ∧ _))

def step (s : System) : Event → Except FileFault System
  | .open p found omode => Prod.fst <$> sysOpen s p found omode
  | .pipe p argOk page => Prod.fst <$> sysPipe s p argOk page
  | .dup p fd => Prod.fst <$> sysDup s p fd
  | .close p fd => Prod.fst <$> sysClose s p fd
  | .fork p memory => fork s p memory
  | .exit p => exit s p
  | .wait _ child => .ok (setLife s child .unused)

def zeroFile : File := ⟨.none, 0, false, false, 0, 0, 0⟩

/-- The tables at boot, when only init is there. -/
def initial : System where
  life p := if p = initproc then .live else .unused
  ofile _ := none
  file _ := zeroFile
  page _ := none
  allocs _ := 0
  frees _ := 0

end FileTable
