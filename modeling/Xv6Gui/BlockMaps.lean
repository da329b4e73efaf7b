import Xv6Gui.DiskBlocks
import Xv6Gui.GuardedRuns
import Xv6Gui.WindowManagerState

/-!
# Allocating and mapping blocks

The block half of fs.c: balloc, bfree, bmap, itrunc, iupdate, readi and writei on one locked
inode, in the order of the file. readi and writei are shown behind the test for a device. The
inode in memory is known by its number and carries the fields of the one on disk.
-/
namespace BlockMaps

open WordMemory DiskBlocks GuardedRuns
open WindowManagerState (Fault)

structure Inode extends Dinode where
  inum : ℕ
  deriving DecidableEq

def bzero (d : Disk) (b : ℕ) : Disk := Function.update d b fun _ => 0

/-- The search of `balloc`, a bitmap block a round. -/
def findFree (sb : Superblock) (d : Disk) : Option ℕ :=
  (List.range ((sb.size + bpb - 1) / bpb)).findSome? fun k =>
    ((List.range (min bpb (sb.size - k * bpb))).find? fun bi =>
      d (sb.bblock (k * bpb)) (bi / 8) &&& mask bi == 0).map (k * bpb + ·)

def markBlock (sb : Superblock) (d : Disk) (b : ℕ) : Disk :=
  Function.update d (sb.bblock b) (setBit (d (sb.bblock b)) (b % bpb))

def balloc (sb : Superblock) (d : Disk) : Except Fault (ℕ × Disk) :=
  match findFree sb d with
  | none => .error (.panic "balloc: out of blocks")
  | some b => .ok (b, bzero (markBlock sb d b) b)

def bfree (sb : Superblock) (d : Disk) (b : ℕ) : Except Fault Disk :=
  if d (sb.bblock b) (b % bpb / 8) &&& mask (b % bpb) = 0 then .error (.panic "freeing free block")
  else .ok (Function.update d (sb.bblock b) (clearBit (d (sb.bblock b)) (b % bpb)))

def iupdate (sb : Superblock) (d : Disk) (ip : Inode) : Disk :=
  putDinode sb d ip.inum ip.toDinode

def setAddr (ip : Inode) (k : Fin (ndirect + 1)) (addr : Word) : Inode :=
  { ip with addrs := Function.update ip.addrs k addr }

/-- `ip->addrs[k]`, allocated if it is 0. -/
def bmapAddr (sb : Superblock) (d : Disk) (ip : Inode) (k : Fin (ndirect + 1)) :
    Except Fault (ℕ × Disk × Inode) :=
  if ip.addrs k = 0 then
    balloc sb d >>= fun r => .ok (r.1, r.2, setAddr ip k (BitVec.ofNat 32 r.1))
  else .ok ((ip.addrs k).toNat, d, ip)

/-- `a[j]` of the indirect block at `addr`, allocated if it is 0. -/
def bmapEntry (sb : Superblock) (d : Disk) (addr j : ℕ) : Except Fault (ℕ × Disk) :=
  if word (d addr) (4 * j) = 0 then
    balloc sb d >>= fun r => .ok (r.1, Function.update r.2 addr
      (storeWord (r.2 addr) (4 * j) (BitVec.ofNat 32 r.1)))
  else .ok ((word (d addr) (4 * j)).toNat, d)

def bmap (sb : Superblock) (d : Disk) (ip : Inode) (bn : ℕ) :
    Except Fault (ℕ × Disk × Inode) :=
  if h : bn < ndirect then bmapAddr sb d ip ⟨bn, h.trans (Nat.lt_succ_self _)⟩
  else if bn - ndirect < nindirect then
    bmapAddr sb d ip (Fin.last ndirect) >>= fun r =>
      bmapEntry sb r.2.1 r.1 (bn - ndirect) >>= fun q => .ok (q.1, q.2, r.2.2)
  else .error (.panic "bmap: out of range")

/-- Free `a[j]` if there is such a block. -/
def freeEntry (sb : Superblock) (addr : ℕ) (d : Disk) (j : ℕ) : Except Fault Disk :=
  let a := word (d addr) (4 * j)
  if a ≠ 0 then bfree sb d a.toNat else .ok d

def freeAddr (sb : Superblock) (s : Disk × Inode) (k : Fin (ndirect + 1)) :
    Except Fault (Disk × Inode) :=
  if s.2.addrs k ≠ 0 then
    bfree sb s.1 (s.2.addrs k).toNat >>= fun d => .ok (d, setAddr s.2 k 0)
  else .ok s

def itrunc (sb : Superblock) (d : Disk) (ip : Inode) : Except Fault (Disk × Inode) :=
  (List.finRange ndirect).foldlM (fun s i => freeAddr sb s i.castSucc) (d, ip) >>= fun s =>
    (if s.2.addrs (Fin.last ndirect) ≠ 0 then
      (List.range nindirect).foldlM (freeEntry sb (s.2.addrs (Fin.last ndirect)).toNat) s.1 >>=
        fun d => freeAddr sb (d, s.2) (Fin.last ndirect)
    else .ok s) >>= fun s =>
      .ok (iupdate sb s.1 { s.2 with size := 0 }, { s.2 with size := 0 })

/-- The part of `iput` that frees the inode. -/
def ifree (sb : Superblock) (d : Disk) (ip : Inode) : Except Fault (Disk × Inode) :=
  itrunc sb d ip >>= fun s => .ok (iupdate sb s.1 { s.2 with type := 0 }, { s.2 with type := 0 })

theorem step_pos {n : ℕ} (off : ℕ) (hn : n ≠ 0) : 0 < min n (bsize - off % bsize) := by
  have hmod : off % bsize < bsize := Nat.mod_lt _ (by decide)
  exact lt_min (Nat.pos_of_ne_zero hn) (Nat.sub_pos_of_lt hmod)

/-- The loop of `readi`. -/
def readBlocks (sb : Superblock) (d : Disk) (ip : Inode) (off n : ℕ) :
    Except Fault (List Byte × Disk × Inode) :=
  if n = 0 then .ok ([], d, ip)
  else
    bmap sb d ip (off / bsize) >>= fun r =>
      let m := min n (bsize - off % bsize)
      readBlocks sb r.2.1 r.2.2 (off + m) (n - m) >>= fun q =>
        .ok ((List.range m).map (fun i => r.2.1 r.1 (off % bsize + i)) ++ q.1, q.2)
  termination_by n
  decreasing_by
    have hpos := step_pos off ‹_›
    omega

def readi (sb : Superblock) (d : Disk) (ip : Inode) (off n : Word) :
    Except Fault (Option (List Byte) × Disk × Inode) :=
  if off > ip.size ∨ off + n < off then .ok (none, d, ip)
  else
    let n := if off + n > ip.size then ip.size - off else n
    readBlocks sb d ip off.toNat n.toNat >>= fun q => .ok (some q.1, q.2)

/-- `memmove(blk + o, src, m)` -/
def copyIn (blk : Memory) (o : ℕ) (src : Memory) (m : ℕ) : Memory :=
  fun x => if o ≤ x ∧ x < o + m then src (x - o) else blk x

/-- The loop of `writei`. -/
def writeBlocks (sb : Superblock) (d : Disk) (ip : Inode) (src : Memory) (off n : ℕ) :
    Except Fault (Disk × Inode) :=
  if n = 0 then .ok (d, ip)
  else
    bmap sb d ip (off / bsize) >>= fun r =>
      let m := min n (bsize - off % bsize)
      writeBlocks sb
        (Function.update r.2.1 r.1 (copyIn (r.2.1 r.1) (off % bsize) src m))
        r.2.2 (fun i => src (i + m)) (off + m) (n - m)
  termination_by n
  decreasing_by
    have hpos := step_pos off ‹_›
    omega

/-- The bytes written, or -1. -/
def writei (sb : Superblock) (d : Disk) (ip : Inode) (src : Memory) (off n : Word) :
    Except Fault (ℤ × Disk × Inode) :=
  if off > ip.size ∨ off + n < off then .ok (-1, d, ip)
  else if off + n > BitVec.ofNat 32 (maxfile * bsize) then .ok (-1, d, ip)
  else
    writeBlocks sb d ip src off.toNat n.toNat >>= fun s =>
      if n > 0 ∧ off + n > ip.size then
        let ip := { s.2 with size := off + n }
        .ok (n.toNat, iupdate sb s.1 ip, ip)
      else .ok (n.toNat, s)

end BlockMaps
