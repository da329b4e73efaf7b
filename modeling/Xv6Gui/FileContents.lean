import Xv6Gui.FailedCalls

/-!
# Reading and writing files

readi and writei on the contents of a regular file, fileread, filewrite and their system calls.
What these do with pipes, directories and devices is a parameter, and blocks are there when
they are asked for.
-/
namespace FileContents

open GuardedRuns FileSystem FileSystemSpecs FailedCalls
open WindowManagerState (ProcId)
open FileTable (FileId nofile argfd setFile setSlot)

abbrev bsize : ℕ := 2048

/-- NDIRECT and NINDIRECT blocks. -/
abbrev maxfile : ℕ := 12 + bsize / 4

/-- The bytes that `filewrite` hands to one `writei`. -/
abbrev maxWrite : ℕ := (10 - 1 - 1 - 2) / 2 * 512

def readi (data : List UInt8) (off n : ℕ) : Option (List UInt8) :=
  if off > data.length then none else some ((data.drop off).take n)

def writei (data : List UInt8) (off : ℕ) (src : List UInt8) : Option (List UInt8) :=
  if off > data.length then none
  else if off + src.length > maxfile * bsize then none
  else some (data.take off ++ src ++ data.drop (off + src.length))

/-- What reading and writing do with a struct file that is not on a regular file. -/
structure Others where
  read : System → FileId → ℕ → Except Fault (System × Option (List UInt8))
  write : System → FileId → List UInt8 → Except Fault (System × ℤ)

/-- The bytes read; none stand for -1. -/
def fileread (o : Others) (s : System) (f : FileId) (n : ℕ) :
    Except Fault (System × Option (List UInt8)) :=
  let ff := s.tables.file f
  if ff.readable = false then .ok (s, none)
  else if ff.type = .inode ∧ (s.inode ff.ip).type = .file then
    match readi (s.inode ff.ip).data ff.off n with
    | none => .ok (s, none)
    | some bytes => .ok ({ s with
        tables := setFile s.tables f { ff with off := ff.off + bytes.length } }, some bytes)
  else o.read s f n

/-- The loop of `filewrite`; a round writes at least a byte, so as many rounds as bytes are
enough. -/
def writeChunks : ℕ → System → FileId → List UInt8 → System × Bool
  | 0, s, _, _ => (s, true)
  | k + 1, s, f, src =>
    if src = [] then (s, true)
    else
      let ff := s.tables.file f
      match writei (s.inode ff.ip).data ff.off (src.take maxWrite) with
      | none => (s, false)
      | some data =>
        let s := setInode s ff.ip { s.inode ff.ip with data := data }
        let tables := setFile s.tables f { ff with off := ff.off + (src.take maxWrite).length }
        writeChunks k { s with tables := tables } f (src.drop maxWrite)

def filewrite (o : Others) (s : System) (f : FileId) (src : List UInt8) :
    Except Fault (System × ℤ) :=
  let ff := s.tables.file f
  if ff.writable = false then .ok (s, -1)
  else if ff.type = .inode ∧ (s.inode ff.ip).type = .file then
    let (s, done) := writeChunks src.length s f src
    .ok (s, if done then src.length else -1)
  else o.write s f src

def sysRead (o : Others) (s : System) (p : ProcId) (fd : ℤ) (n : ℕ) :
    Except Fault (System × Option (List UInt8)) :=
  match argfd s.tables p fd with
  | none => .ok (s, none)
  | some (_, f) => fileread o s f n

def sysWrite (o : Others) (s : System) (p : ProcId) (fd : ℤ) (src : List UInt8) :
    Except Fault (System × ℤ) :=
  match argfd s.tables p fd with
  | none => .ok (s, -1)
  | some (_, f) => filewrite o s f src

section Specs

variable {o : Others} {s t u : System} {p : ProcId} {f : FileId} {fd : Fin nofile} {ip j n : ℕ}
  {src data : List UInt8} {omode : BitVec 32} {r : ℤ}

theorem argfd_neg (tables : FileTable.System) (p : ProcId) : argfd tables p (-1) = none :=
  dif_neg (by decide)

theorem argfd_fd {tables : FileTable.System} (h : tables.ofile (p, fd) = some f) :
    argfd tables p fd = some (fd, f) := by
  have hfd : (0 : ℤ) ≤ fd ∧ (fd : ℤ) < nofile := by omega
  simp only [argfd, dif_pos hfd, Int.toNat_natCast, Fin.eta, h, Option.map_some]

theorem argfd_opened (s : System) (p : ProcId) (f : FileId) (fd : Fin nofile) (ip : ℕ)
    (omode : BitVec 32) : argfd (opened s p f fd ip omode).tables p fd = some (fd, f) :=
  argfd_fd (Function.update_self _ _ _)

theorem opened_file (s : System) (p : ProcId) (f : FileId) (fd : Fin nofile) (ip : ℕ)
    (omode : BitVec 32) : (opened s p f fd ip omode).tables.file f =
      openedFile (s.tables.file f) ip omode := Function.update_self _ _ _

/-- One round of the loop is enough for a short write at the start of a file. -/
theorem writeChunks_start (hoff : (s.tables.file f).off = 0) (hip : (s.tables.file f).ip = ip)
    (hne : src ≠ []) (hlen : src.length ≤ maxWrite) : writeChunks src.length s f src =
      ({ setInode s ip { s.inode ip with data := src ++ (s.inode ip).data.drop src.length } with
        tables := setFile s.tables f { s.tables.file f with off := src.length } }, true) := by
  subst hip
  have hfits : ¬src.length > maxfile * bsize := by
    change ¬src.length > 1073152
    change src.length ≤ 1536 at hlen
    omega
  have hwrite : writei (s.inode (s.tables.file f).ip).data 0 src =
      some (src ++ (s.inode (s.tables.file f).ip).data.drop src.length) := by
    simp only [writei, Nat.not_lt_zero, gt_iff_lt, if_false, Nat.zero_add, List.take_zero,
      List.nil_append]
    exact if_neg hfits
  cases hsrc : src.length with
  | zero => exact absurd (List.length_eq_zero_iff.mp hsrc) hne
  | succ k =>
    simp only [writeChunks, if_neg hne, hoff, List.take_of_length_le hlen, hwrite, Nat.zero_add,
      List.drop_of_length_le hlen, hsrc]
    cases k with
    | zero => rfl
    | succ k => rfl

theorem openedFile_rdwr (v : FileTable.File) (ip : ℕ) :
    (openedFile v ip FileTable.oRdwr).readable = true ∧
      (openedFile v ip FileTable.oRdwr).writable = true := by
  have hread : decide (FileTable.oRdwr &&& FileTable.oWronly = 0) = true := by decide
  have hwrite : decide (FileTable.oRdwr &&& FileTable.oWronly ≠ 0 ∨
    FileTable.oRdwr &&& FileTable.oRdwr ≠ 0) = true := by decide
  exact ⟨hread, hwrite⟩

theorem openedFile_create (v : FileTable.File) (ip : ℕ) :
    (openedFile v ip FileTable.oCreate).writable = false := by
  have hwrite : decide (FileTable.oCreate &&& FileTable.oWronly ≠ 0 ∨
    FileTable.oCreate &&& FileTable.oRdwr ≠ 0) = false := by decide
  exact hwrite

/-- A short write to a regular file that was just opened for reading and writing. -/
theorem sysWrite_opened (h : Sound s) (htype : (s.inode ip).type = .file) (hne : src ≠ [])
    (hlen : src.length ≤ maxWrite) :
    ∃ t r, sysWrite o (opened s p f fd ip FileTable.oRdwr) p fd src = .ok (t, r) ∧ Sound t ∧
      t.inode ip = { s.inode ip with data := src ++ (s.inode ip).data.drop src.length } := by
  have hopened : Sound (opened s p f fd ip FileTable.oRdwr) := sound_opened h
  have hfile := opened_file s p f fd ip FileTable.oRdwr
  set u := opened s p f fd ip FileTable.oRdwr with hu
  have hwritable : (u.tables.file f).writable ≠ false := by
    rw [hfile, (openedFile_rdwr _ ip).2]
    nofun
  have hregular : (u.tables.file f).type = .inode ∧
      (u.inode (u.tables.file f).ip).type = .file := by
    rw [hfile]
    exact ⟨rfl, htype⟩
  have hoff : (u.tables.file f).off = 0 := by
    rw [hfile]
    rfl
  have hip : (u.tables.file f).ip = ip := by
    rw [hfile]
    rfl
  have hchunks := writeChunks_start hoff hip hne hlen
  have hwrite : ∃ tables, ClosedFiles tables ∧ filewrite o u f src = .ok
      ({ setInode u ip { u.inode ip with data := src ++ (u.inode ip).data.drop src.length } with
        tables := tables }, src.length) := by
    refine ⟨setFile u.tables f { u.tables.file f with off := src.length },
      closed_setFile hopened.closed fun hz => hopened.closed f hz, ?_⟩
    rw [filewrite, if_neg hwritable, if_pos hregular, hchunks]
    rfl
  obtain ⟨tables, hclosed, hwrite⟩ := hwrite
  have hanchored := anchored_setInode (i := ip)
    (v := { u.inode ip with data := src ++ (u.inode ip).data.drop src.length }) hopened.anchored
    fun hfree hlink => hopened.anchored ip hfree hlink
  have hcall : sysWrite o u p fd src = filewrite o u f src := by
    rw [sysWrite, argfd_opened]
  exact ⟨_, _, hcall.trans hwrite, ⟨hanchored, hclosed⟩, setInode_inode_self u ip _⟩

/-- The mode O_CREATE alone does not let write. -/
theorem sysWrite_unwritable : sysWrite o (opened s p f fd ip FileTable.oCreate) p fd src =
    .ok (opened s p f fd ip FileTable.oCreate, -1) := by
  have hfile := opened_file s p f fd ip FileTable.oCreate
  have hnot : ((opened s p f fd ip FileTable.oCreate).tables.file f).writable = false := by
    rw [hfile]
    exact openedFile_create _ ip
  rw [sysWrite, argfd_opened]
  exact if_pos hnot

theorem sysWrite_neg : sysWrite o s p (-1) src = .ok (s, -1) := by
  rw [sysWrite, argfd_neg]

theorem sysRead_opened (htype : (s.inode ip).type = .file) :
    ∃ t, sysRead o (opened s p f fd ip FileTable.oRdwr) p fd n =
      .ok (t, some ((s.inode ip).data.take n)) := by
  have hfile := opened_file s p f fd ip FileTable.oRdwr
  set u := opened s p f fd ip FileTable.oRdwr with hu
  have hreadable : (u.tables.file f).readable ≠ false := by
    rw [hfile, (openedFile_rdwr _ ip).1]
    nofun
  have hregular : (u.tables.file f).type = .inode ∧
      (u.inode (u.tables.file f).ip).type = .file := by
    rw [hfile]
    exact ⟨rfl, htype⟩
  have hread : readi (u.inode (u.tables.file f).ip).data (u.tables.file f).off n =
      some ((s.inode ip).data.take n) := by
    rw [hfile]
    exact if_neg (Nat.not_lt_zero _)
  have hcall : sysRead o u p fd n = fileread o u f n := by
    rw [sysRead, argfd_opened]
  have hfileread : ∃ t, fileread o u f n = .ok (t, some ((s.inode ip).data.take n)) := by
    rw [fileread, if_neg hreadable, if_pos hregular, hread]
    exact ⟨_, rfl⟩
  rw [hcall]
  exact hfileread

theorem fileclose_inode (h : fileclose s f = .ok t) (hj : (t.inode j).type ≠ .free) :
    t.inode j = s.inode j := by
  obtain ⟨tables, -, ht⟩ := fileclose_eq_ok.mp h
  split at ht
  · rw [ht]
  · rw [ht] at hj ⊢
    exact iput_inode_of_allocated hj

/-- Closing a descriptor leaves an inode as it is or frees it. -/
theorem sysClose_inode {fd : ℤ} (h : sysClose s p fd = .ok (t, r))
    (hj : (t.inode j).type ≠ .free) : t.inode j = s.inode j := by
  simp only [sysClose] at h
  split at h
  · cases h
    rfl
  · obtain ⟨u, hu, h⟩ := bind_eq_ok.mp h
    cases h
    have hsame := fileclose_inode hu hj
    exact hsame

end Specs

end FileContents
