import Xv6Gui.GuardedRuns
import Mathlib.Data.List.FinRange
import Mathlib.Data.Finset.Card
import Mathlib.Logic.Function.Basic

/-!
# The inode cache

iget, idup, ilock, iunlock and iput of fs.c over the table of cached inodes, and the
on-disk inodes they read and write. iput is two steps: the section under the inode's lock
with its look at the reference count, and the later decrement. The major and minor numbers
decide nothing here.
-/
namespace InodeCache

open GuardedRuns

abbrev ninode : ℕ := 50
abbrev ndirect : ℕ := 12
abbrev nindirect : ℕ := 512

/-- A `struct inode *`, as the position in the table. -/
abbrev Slot := Fin ninode

inductive Fault where
  | panic (text : String)
  deriving DecidableEq, Repr

structure Dinode where
  type : ℤ
  nlink : ℤ
  size : ℕ
  addrs : Fin (ndirect + 1) → ℕ

/-- `copy` is the copy of the disk inode; `lock` is the process that holds the lock. -/
structure Inode (P : Type) where
  dev : ℕ
  inum : ℕ
  ref : ℤ
  lock : Option P
  valid : Bool
  copy : Dinode

/-- The cache, the inodes on disk, the bitmap of blocks in use and the indirect blocks. -/
structure Fs (P : Type) where
  inode : Slot → Inode P
  dinode : ℕ × ℕ → Dinode
  used : ℕ → Bool
  indirect : ℕ → Fin nindirect → ℕ

variable {P : Type}

def Inode.key (x : Inode P) : ℕ × ℕ := (x.dev, x.inum)

def Fs.setInode (s : Fs P) (ip : Slot) (x : Inode P) : Fs P :=
  { s with inode := Function.update s.inode ip x }

def bfree (used : ℕ → Bool) (b : ℕ) : Except Fault (ℕ → Bool) :=
  if used b then .ok (Function.update used b false) else .error (.panic "freeing free block")

/-- Free the blocks that are there, in the order of the table. -/
def bfreeAll (used : ℕ → Bool) (blocks : List ℕ) : Except Fault (ℕ → Bool) :=
  (blocks.filter fun b => decide (b ≠ 0)).foldlM bfree used

def bfreeIndirect (s : Fs P) (used : ℕ → Bool) (b : ℕ) : Except Fault (ℕ → Bool) :=
  if b ≠ 0 then do
    let used ← bfreeAll used ((List.finRange nindirect).map (s.indirect b))
    bfree used b
  else .ok used

/-- Mark an inode that is free on disk as allocated. -/
def ialloc (s : Fs P) (dev inum : ℕ) (type : ℤ) : Fs P :=
  { s with dinode := Function.update s.dinode (dev, inum) ⟨type, 0, 0, fun _ => 0⟩ }

def iupdate (s : Fs P) (ip : Slot) : Fs P :=
  { s with dinode := Function.update s.dinode (s.inode ip).key (s.inode ip).copy }

/-- The slot in which the inode is cached. -/
def cached (s : Fs P) (dev inum : ℕ) : Option Slot :=
  (List.finRange ninode).find? fun ip =>
    decide ((s.inode ip).ref > 0 ∧ (s.inode ip).dev = dev ∧ (s.inode ip).inum = inum)

def emptySlot (s : Fs P) : Option Slot :=
  (List.finRange ninode).find? fun ip => decide ((s.inode ip).ref = 0)

def iget (s : Fs P) (dev inum : ℕ) : Except Fault (Slot × Fs P) :=
  match cached s dev inum with
  | some ip => .ok (ip, s.setInode ip { s.inode ip with ref := (s.inode ip).ref + 1 })
  | none =>
    match emptySlot s with
    | none => .error (.panic "iget: no inodes")
    | some ip => .ok (ip, s.setInode ip
        { s.inode ip with dev := dev, inum := inum, ref := 1, valid := false })

def idup (s : Fs P) (ip : Slot) : Fs P :=
  s.setInode ip { s.inode ip with ref := (s.inode ip).ref + 1 }

def ilock (s : Fs P) (p : P) (ip : Slot) : Except Fault (Fs P) :=
  if (s.inode ip).ref < 1 then .error (.panic "ilock")
  else if (s.inode ip).valid then .ok (s.setInode ip { s.inode ip with lock := some p })
  else if (s.dinode (s.inode ip).key).type = 0 then .error (.panic "ilock: no type")
  else .ok (s.setInode ip
    { s.inode ip with lock := some p, copy := s.dinode (s.inode ip).key, valid := true })

def iunlock (s : Fs P) (ip : Slot) : Except Fault (Fs P) :=
  if (s.inode ip).ref < 1 then .error (.panic "iunlock")
  else .ok (s.setInode ip { s.inode ip with lock := none })

/-- The holder of the lock links, unlinks or writes the file and calls `iupdate`. -/
def change (s : Fs P) (ip : Slot) (nlink : ℤ) (size : ℕ) (addrs : Fin (ndirect + 1) → ℕ)
    (used : ℕ → Bool) (indirect : ℕ → Fin nindirect → ℕ) : Fs P :=
  let x := s.inode ip
  iupdate ({ s with used := used, indirect := indirect }.setInode ip
    { x with copy := { x.copy with nlink := nlink, size := size, addrs := addrs } }) ip

def itrunc (s : Fs P) (ip : Slot) : Except Fault (Fs P) := do
  let x := s.inode ip
  let used ← bfreeAll s.used ((List.finRange ndirect).map fun i => x.copy.addrs i.castSucc)
  let used ← bfreeIndirect s used (x.copy.addrs (Fin.last ndirect))
  return iupdate ({ s with used := used }.setInode ip
    { x with copy := { x.copy with addrs := fun _ => 0, size := 0 } }) ip

/-- `itrunc(ip); ip->type = 0; iupdate(ip); ip->valid = 0;` -/
def free (s : Fs P) (ip : Slot) : Except Fault (Fs P) := do
  let s ← itrunc s ip
  let x := s.inode ip
  let s := iupdate (s.setInode ip { x with copy := { x.copy with type := 0 } }) ip
  return s.setInode ip { s.inode ip with valid := false }

/-- The section of `iput` under the inode's lock. -/
def iputLook (s : Fs P) (ip : Slot) : Except Fault (Fs P) :=
  if (s.inode ip).valid ∧ (s.inode ip).copy.nlink = 0 then
    if (s.inode ip).ref = 1 then free s ip else .ok s
  else .ok s

/-- The section of `iput` that drops the reference. -/
def iputDrop (s : Fs P) (ip : Slot) : Fs P :=
  s.setInode ip { s.inode ip with ref := (s.inode ip).ref - 1 }

/-- An inode freed on disk, without content. -/
def Freed (d : Dinode) : Prop := d.type = 0 ∧ d.size = 0 ∧ ∀ i, d.addrs i = 0

instance (d : Dinode) : Decidable (Freed d) := inferInstanceAs (Decidable (_ ∧ _))

variable {s t : Fs P} {ip jp : Slot} {dev inum : ℕ}

@[simp] theorem setInode_self (s : Fs P) (ip : Slot) (x : Inode P) :
    (s.setInode ip x).inode ip = x := Function.update_self _ _ _

theorem setInode_of_ne (h : jp ≠ ip) (x : Inode P) : (s.setInode ip x).inode jp = s.inode jp :=
  Function.update_of_ne h _ _

theorem cached_some (h : cached s dev inum = some ip) :
    0 < (s.inode ip).ref ∧ (s.inode ip).key = (dev, inum) := by
  have hp := List.find?_some h
  obtain ⟨hr, hd, hi⟩ := of_decide_eq_true hp
  exact ⟨hr, Prod.ext hd hi⟩

theorem cached_none (h : cached s dev inum = none) (hr : 0 < (s.inode ip).ref) :
    (s.inode ip).key ≠ (dev, inum) := fun hk => by
  have hp := List.find?_eq_none.mp h ip (List.mem_finRange ip)
  exact hp (decide_eq_true ⟨hr, congrArg Prod.fst hk, congrArg Prod.snd hk⟩)

theorem emptySlot_some (h : emptySlot s = some ip) : (s.inode ip).ref = 0 := by
  have hp := List.find?_some h
  exact of_decide_eq_true hp

theorem iget_inode (h : iget s dev inum = .ok (ip, t)) :
    ∃ x, t.inode = Function.update s.inode ip x := by
  simp only [iget] at h
  split at h
  · cases h
    exact ⟨_, rfl⟩
  · split at h
    · cases h
    · cases h
      exact ⟨_, rfl⟩

theorem ilock_inode {p : P} (h : ilock s p ip = .ok t) :
    ∃ x, t.inode = Function.update s.inode ip x := by
  simp only [ilock] at h
  split at h
  · cases h
  · split at h
    · cases h
      exact ⟨_, rfl⟩
    · split at h
      · cases h
      · cases h
        exact ⟨_, rfl⟩

theorem iunlock_inode (h : iunlock s ip = .ok t) :
    ∃ x, t.inode = Function.update s.inode ip x := by
  simp only [iunlock] at h
  split at h
  · cases h
  · cases h
    exact ⟨_, rfl⟩

/-- What freeing does to the inode in memory and on disk. -/
theorem free_ok (h : free s ip = .ok t) :
    ∃ d, Freed d ∧ d.nlink = (s.inode ip).copy.nlink ∧
      t.inode = Function.update s.inode ip { s.inode ip with valid := false, copy := d } ∧
      t.dinode = Function.update s.dinode (s.inode ip).key d := by
  obtain ⟨u, hu, h⟩ := bind_eq_ok.mp h
  obtain ⟨used, _, hu⟩ := bind_eq_ok.mp hu
  obtain ⟨used', _, hu⟩ := bind_eq_ok.mp hu
  cases hu
  cases h
  refine ⟨⟨0, (s.inode ip).copy.nlink, 0, fun _ => 0⟩, ⟨rfl, rfl, fun _ => rfl⟩, rfl, ?_, ?_⟩
  · simp [iupdate, Fs.setInode]
  · simp [iupdate, Fs.setInode, Inode.key]

/-- The look frees the inode if it sees the last reference, and else changes nothing. -/
theorem iputLook_ok (h : iputLook s ip = .ok t) :
    ((s.inode ip).valid = true ∧ (s.inode ip).copy.nlink = 0 ∧ (s.inode ip).ref = 1) ∧
        free s ip = .ok t ∨
      ¬((s.inode ip).valid = true ∧ (s.inode ip).copy.nlink = 0 ∧ (s.inode ip).ref = 1) ∧
        t = s := by
  simp only [iputLook] at h
  split at h
  · next hv =>
    split at h
    · next hr => exact Or.inl ⟨⟨hv.1, hv.2, hr⟩, h⟩
    · next hr =>
      cases h
      exact Or.inr ⟨fun hc => hr hc.2.2, rfl⟩
  · next hv =>
    cases h
    exact Or.inr ⟨fun hc => hv ⟨hc.1, hc.2.1⟩, rfl⟩

end InodeCache
