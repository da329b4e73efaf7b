import Xv6Gui.DirectoryFiles

/-!
# Writing the initial image

mkfs.c, which hands out blocks and inode numbers in order and writes the free bit map last. On
an image with the bit map that it would write now, appending to a file is what the loop of the
kernel's writei does, and the two fail together.
-/
namespace MkfsImage

open WordMemory DiskBlocks BlockMaps GuardedRuns Ledgers BlockOwnership BlockMapping FileBlocks
  FileWrites BoundedStrings DirectoryFiles
open WindowManagerState (Fault)

abbrev fssize : ℕ := 1000
abbrev ninodes : ℕ := 200

/-- LOGSIZE -/
abbrev nlog : ℕ := 10 * 3

abbrev nbitmap : ℕ := fssize / (bsize * 8) + 1
abbrev ninodeblocks : ℕ := ninodes / ipb + 1
abbrev nmeta : ℕ := 2 + nlog + ninodeblocks + nbitmap
abbrev rootino : ℕ := 1

def sb : Layout where
  size := fssize
  nblocks := fssize - nmeta
  ninodes := ninodes
  nlog := nlog
  logstart := 2
  inodestart := 2 + nlog
  bmapstart := 2 + nlog + ninodeblocks
  inode_blocks := by decide
  data_blocks := by decide
  size_lt := by decide

structure Image where
  disk : Disk
  freeinode : ℕ
  freeblock : ℕ

/-- There is nothing to read behind the last block, and `mkfs` exits. -/
def rsect (s : Image) (sec : ℕ) : Except Fault Memory :=
  if sec < fssize then .ok (s.disk sec) else .error (.panic "read")

def wsect (s : Image) (sec : ℕ) (buf : Memory) : Image :=
  { s with disk := Function.update s.disk sec buf }

def winode (s : Image) (inum : ℕ) (v : Dinode) : Except Fault Image :=
  rsect s (sb.iblock inum) >>= fun buf =>
    .ok (wsect s (sb.iblock inum) (storeWords buf (64 * (inum % ipb)) v.words))

def rinode (s : Image) (inum : ℕ) : Except Fault Dinode :=
  rsect s (sb.iblock inum) >>= fun buf => .ok (readDinode buf (64 * (inum % ipb)))

/-- The code takes any number; the run is not followed beyond the last one that is an inode. -/
def ialloc (s : Image) (type : BitVec 16) : Except Fault (ℕ × Image) :=
  if s.freeinode < ninodes then
    winode { s with freeinode := s.freeinode + 1 } s.freeinode ⟨type, 0, 0, 1, 0, fun _ => 0⟩ >>=
      fun t => .ok (s.freeinode, t)
  else .error (.outOfBounds s.freeinode)

/-- `din.addrs[k]`, the next free block if it was 0. -/
def allocAddr (s : Image) (v : Dinode) (k : Fin (ndirect + 1)) : Image × Dinode :=
  if v.addrs k = 0 then
    ({ s with freeblock := s.freeblock + 1 },
      { v with addrs := Function.update v.addrs k (BitVec.ofNat 32 s.freeblock) })
  else (s, v)

/-- The block that `iappend` writes to. The code has no test of the index, and behind the end of
`indirect[]` the run is not followed. -/
def appendBlock (s : Image) (v : Dinode) (fbn : ℕ) : Except Fault (ℕ × Image × Dinode) :=
  if h : fbn < ndirect then
    let k : Fin (ndirect + 1) := ⟨fbn, Nat.lt_succ_of_lt h⟩
    let r := allocAddr s v k
    .ok ((r.2.addrs k).toNat, r)
  else
    let r := allocAddr s v (Fin.last ndirect)
    let addr := (r.2.addrs (Fin.last ndirect)).toNat
    let j := fbn - ndirect
    rsect r.1 addr >>= fun indirect =>
      if nindirect ≤ j then .error (.outOfBounds j)
      else if word indirect (4 * j) = 0 then
        .ok (r.1.freeblock, wsect { r.1 with freeblock := r.1.freeblock + 1 } addr
          (storeWord indirect (4 * j) (BitVec.ofNat 32 r.1.freeblock)), r.2)
      else .ok ((word indirect (4 * j)).toNat, r)

/-- The loop of `iappend`. -/
def appendBlocks (s : Image) (v : Dinode) (off : ℕ) (p : Memory) (n : ℕ) :
    Except Fault (Image × Dinode) :=
  if n = 0 then .ok (s, v)
  else
    appendBlock s v (off / bsize) >>= fun r =>
      let n1 := min n ((off / bsize + 1) * bsize - off)
      rsect r.2.1 r.1 >>= fun buf =>
        appendBlocks (wsect r.2.1 r.1 (copyIn buf (off - off / bsize * bsize) p n1)) r.2.2
          (off + n1) (fun i => p (i + n1)) (n - n1)
  termination_by n
  decreasing_by
    have hsplit := Nat.div_add_mod off bsize
    have hmod : off % bsize < bsize := Nat.mod_lt _ (by decide)
    have hend : (off / bsize + 1) * bsize = bsize * (off / bsize) + bsize := by
      rw [Nat.add_mul, Nat.one_mul, Nat.mul_comm]
    rw [hend]
    omega

def iappend (s : Image) (inum : ℕ) (p : Memory) (n : ℕ) : Except Fault Image :=
  rinode s inum >>= fun v => appendBlocks s v v.size.toNat p n >>= fun r =>
    winode r.1 inum { r.2 with size := BitVec.ofNat 32 (v.size.toNat + n) }

/-- The bitmap block with the first `used` bits set. -/
def bitmap : ℕ → Memory
  | 0 => fun _ => 0
  | used + 1 => setBit (bitmap used) used

def balloc (s : Image) (used : ℕ) : Except Fault Image :=
  if used < bsize * 8 then .ok (wsect s sb.bmapstart (bitmap used))
  else .error (.panic "used < BSIZE*8")

/-- A command line argument, whether `open` opens it, and what the calls of `read` return for it
until one returns nothing. -/
structure File where
  name : List Byte
  chunks : Option (List (List Byte))

def bytes (l : List Byte) : Memory := fun k => l.getD k 0

def addFile (s : Image) (f : File) : Except Fault Image :=
  if 47 ∈ f.name then .error (.panic "index(argv[i], '/') == 0")
  else
    match f.chunks with
    | none => .error (.panic "open")
    | some chunks =>
      let name := if f.name.head? = some 95 then f.name.tail else f.name
      ialloc s tFile >>= fun r =>
        iappend r.2 rootino (direntBytes ⟨BitVec.ofNat 16 r.1,
            strncpy (fun _ => 0) (bytes name) dirsiz⟩) direntSize >>= fun t =>
          chunks.foldlM (fun s c => iappend s r.1 (bytes c) c.length) t

/-- The image of zeros with the super block. -/
def zeroed : Image where
  disk := Function.update (fun _ _ => 0) 1 (storeWords (fun _ => 0) 0
    ([sb.size, sb.nblocks, sb.ninodes, sb.nlog, sb.logstart, sb.inodestart, sb.bmapstart].map
      (BitVec.ofNat 32)))
  freeinode := 1
  freeblock := nmeta

/-- The root directory with its first two entries. -/
def makeRoot (s : Image) : Except Fault Image :=
  ialloc s tDir >>= fun r =>
    if r.1 ≠ rootino then .error (.panic "rootino == ROOTINO")
    else
      iappend r.2 rootino (direntBytes ⟨BitVec.ofNat 16 rootino, bytes [46]⟩) direntSize >>=
        fun t => iappend t rootino (direntBytes ⟨BitVec.ofNat 16 rootino, bytes [46, 46]⟩)
          direntSize

/-- The size of the root directory is rounded up, and the bit map is written. -/
def finish (s : Image) : Except Fault Image :=
  rinode s rootino >>= fun v =>
    winode s rootino { v with
        size := BitVec.ofNat 32 ((v.size.toNat / bsize + 1) * bsize) } >>= fun t =>
      balloc t t.freeblock

/-- The `main` of mkfs after the checks of its arguments. -/
def mkfs (files : List File) : Except Fault Image :=
  makeRoot zeroed >>= fun s => files.foldlM addFile s >>= fun t => finish t

/-- The disk with the free bit map as it stands. -/
def withBitmap (s : Image) : Disk := Function.update s.disk sb.bmapstart (bitmap s.freeblock)

/-- Blocks from `freeblock` on are zeros. -/
structure Fresh (s : Image) : Prop where
  nmeta_le : nmeta ≤ s.freeblock
  le_size : s.freeblock ≤ fssize
  zeros : ∀ b, s.freeblock ≤ b → b < fssize → s.disk b = fun _ => 0

section Bitmaps

variable {s : Image} {b : ℕ}

theorem bit_bitmap (used b : ℕ) : Bit (bitmap used) b ↔ b < used := by
  induction used with
  | zero =>
    refine ⟨fun h => absurd ?_ h, fun h => absurd h (Nat.not_lt_zero b)⟩
    exact BitVec.zero_and
  | succ used ih =>
    rw [bitmap, bit_setBit, ih]
    omega

theorem bblock_eq (hb : b < fssize) : sb.bblock b = sb.bmapstart := by
  have hzero : b / bpb = 0 := Nat.div_eq_of_lt (lt_trans hb (by decide))
  rw [Superblock.bblock, hzero, Nat.zero_add]

theorem marked_withBitmap (hb : b < fssize) :
    Marked sb.toSuperblock (withBitmap s) b ↔ b < s.freeblock := by
  have hmod : b % bpb = b := Nat.mod_eq_of_lt (lt_trans hb (by decide))
  rw [Marked, bblock_eq hb, withBitmap, Function.update_self, hmod, bit_bitmap]

theorem freeBlocks_withBitmap (hs : Fresh s) :
    (freeBlocks sb.toSuperblock (withBitmap s)).card = fssize - s.freeblock := by
  have hfree : freeBlocks sb.toSuperblock (withBitmap s) =
      Finset.range fssize \ Finset.range s.freeblock := by
    ext b
    simp only [freeBlocks, Finset.mem_filter, Finset.mem_sdiff, Finset.mem_range]
    constructor
    · rintro ⟨hb, hm⟩
      exact ⟨hb, fun h => hm ((marked_withBitmap hb).mpr h)⟩
    · rintro ⟨hb, hm⟩
      exact ⟨hb, fun h => hm ((marked_withBitmap hb).mp h)⟩
  have hsub : Finset.range s.freeblock ⊆ Finset.range fssize :=
    Finset.range_subset_range.mpr hs.le_size
  rw [hfree, Finset.card_sdiff_of_subset hsub, Finset.card_range, Finset.card_range]

/-- The first free block is the next one. -/
theorem findFree_withBitmap (hb : s.freeblock < fssize) :
    findFree sb.toSuperblock (withBitmap s) = some s.freeblock := by
  have hround : findFree sb.toSuperblock (withBitmap s) =
      ((List.range (min bpb (fssize - 0 * bpb))).find? fun bi =>
        withBitmap s (sb.bblock (0 * bpb)) (bi / 8) &&& mask bi == 0).map (0 * bpb + ·) := by
    have hone : (fssize + bpb - 1) / bpb = 1 := by decide
    change (List.range ((fssize + bpb - 1) / bpb)).findSome? _ = _
    rw [hone]
    exact List.findSome?_singleton
  have hblock : withBitmap s (sb.bblock (0 * bpb)) = bitmap s.freeblock :=
    Function.update_self _ _ _
  have hbit : ∀ b, (bitmap s.freeblock (b / 8) &&& mask b == 0) = true ↔ ¬b < s.freeblock := by
    intro b
    rw [← bit_bitmap, Bit, not_not, beq_iff_eq]
  have hfind : ((List.range (min bpb (fssize - 0 * bpb))).find? fun bi =>
      withBitmap s (sb.bblock (0 * bpb)) (bi / 8) &&& mask bi == 0) = some s.freeblock := by
    rw [hblock, List.find?_range_eq_some]
    refine ⟨(hbit _).mpr (lt_irrefl _), List.mem_range.mpr hb, ?_⟩
    intro b hlt
    rw [Bool.not_eq_true']
    exact Bool.eq_false_of_not_eq_true fun h => (hbit b).mp h hlt
  rw [hround, hfind, Option.map_some, Nat.zero_mul, Nat.zero_add]

theorem balloc_withBitmap (hs : Fresh s) (hb : s.freeblock < fssize) :
    BlockMaps.balloc sb.toSuperblock (withBitmap s) =
      .ok (s.freeblock, withBitmap { s with freeblock := s.freeblock + 1 }) := by
  have hmod : s.freeblock % bpb = s.freeblock := Nat.mod_eq_of_lt (lt_trans hb (by decide))
  have hne : s.freeblock ≠ sb.bmapstart := by
    have hlow := hs.nmeta_le
    change 40 ≤ s.freeblock at hlow
    change s.freeblock ≠ 39
    omega
  have hmark : markBlock sb.toSuperblock (withBitmap s) s.freeblock =
      withBitmap { s with freeblock := s.freeblock + 1 } := by
    rw [markBlock, bblock_eq hb, hmod, withBitmap, Function.update_self, Function.update_idem]
    rfl
  have hzero : bzero (withBitmap { s with freeblock := s.freeblock + 1 }) s.freeblock =
      withBitmap { s with freeblock := s.freeblock + 1 } := by
    rw [bzero, ← hs.zeros s.freeblock (le_refl _) hb]
    refine (congrArg (Function.update _ _) ?_).trans (Function.update_eq_self s.freeblock _)
    rw [withBitmap, Function.update_of_ne hne]
  rw [balloc_some (findFree_withBitmap hb), hmark, hzero]

theorem balloc_full (hs : Fresh s) (hb : ¬s.freeblock < fssize) :
    BlockMaps.balloc sb.toSuperblock (withBitmap s) = .error (.panic "balloc: out of blocks") := by
  cases hf : findFree sb.toSuperblock (withBitmap s) with
  | none => exact balloc_none hf
  | some c =>
    obtain ⟨hc, hm⟩ := findFree_some hf
    have hle := hs.le_size
    rw [marked_withBitmap hc] at hm
    change c < fssize at hc
    omega

end Bitmaps

section Addresses

variable {s : Image} {ip : Inode} {k : Fin (ndirect + 1)} {b : ℕ} {buf : Memory}

theorem Fresh.next (hs : Fresh s) (hb : s.freeblock < fssize) :
    Fresh { s with freeblock := s.freeblock + 1 } :=
  ⟨hs.nmeta_le.trans (Nat.le_succ _), hb, fun b h => hs.zeros b ((Nat.le_succ _).trans h)⟩

/-- Writing a block that is handed out. -/
theorem withBitmap_wsect (hlow : nmeta ≤ b) :
    withBitmap (wsect s b buf) = Function.update (withBitmap s) b buf := by
  have hne : b ≠ sb.bmapstart := by
    change 40 ≤ b at hlow
    change b ≠ 39
    omega
  exact Function.update_comm hne _ _ _

theorem Fresh.wsect (hs : Fresh s) (hb : b < s.freeblock) : Fresh (wsect s b buf) := by
  refine ⟨hs.nmeta_le, hs.le_size, ?_⟩
  intro c hc hc'
  change s.freeblock ≤ c at hc
  exact (Function.update_of_ne (by omega) _ _).trans (hs.zeros c hc hc')

/-- Blocks that are not handed out yet are as they were. -/
theorem Fresh.of_data {t : Image} (h : Fresh s) (hb : t.freeblock = s.freeblock)
    (hd : ∀ b, nmeta ≤ b → t.disk b = s.disk b) : Fresh t := by
  refine ⟨hb ▸ h.nmeta_le, hb ▸ h.le_size, ?_⟩
  intro b hle hlt
  rw [hb] at hle
  rw [hd b (h.nmeta_le.trans hle)]
  exact h.zeros b hle hlt

theorem withBitmap_data (hlow : nmeta ≤ b) : withBitmap s b = s.disk b := by
  have hne : b ≠ sb.bmapstart := by
    change 40 ≤ b at hlow
    change b ≠ 39
    omega
  exact Function.update_of_ne hne _ _

/-- An address is handed out as the kernel does it, as long as there is a block. -/
theorem allocAddr_cases (hs : Fresh s) :
    (ip.addrs k ≠ 0 ∧ allocAddr s ip.toDinode k = (s, ip.toDinode) ∧
      bmapAddr sb.toSuperblock (withBitmap s) ip k =
        .ok ((ip.addrs k).toNat, withBitmap s, ip)) ∨
    (ip.addrs k = 0 ∧ s.freeblock < fssize ∧ ∃ t iq, allocAddr s ip.toDinode k = (t, iq.toDinode) ∧
      t = { s with freeblock := s.freeblock + 1 } ∧ (iq.addrs k).toNat = s.freeblock ∧
      bmapAddr sb.toSuperblock (withBitmap s) ip k = .ok (s.freeblock, withBitmap t, iq)) ∨
    (ip.addrs k = 0 ∧ s.freeblock = fssize ∧
      (∃ t v, allocAddr s ip.toDinode k = (t, v) ∧ (v.addrs k).toNat = fssize) ∧
      bmapAddr sb.toSuperblock (withBitmap s) ip k =
        .error (.panic "balloc: out of blocks")) := by
  unfold allocAddr bmapAddr
  by_cases hk : ip.addrs k = 0
  · right
    have hword : s.freeblock < 2 ^ 32 := hs.le_size.trans_lt (by decide)
    have haddr : (Function.update ip.addrs k (BitVec.ofNat 32 s.freeblock) k).toNat =
        s.freeblock := by
      rw [Function.update_self, BitVec.toNat_ofNat]
      exact Nat.mod_eq_of_lt hword
    rw [if_pos hk, if_pos hk]
    by_cases hb : s.freeblock < fssize
    · refine .inl ⟨hk, hb, _, setAddr ip k (BitVec.ofNat 32 s.freeblock), rfl, rfl, haddr, ?_⟩
      rw [balloc_withBitmap hs hb, ok_bind]
    · have hfull : s.freeblock = fssize := le_antisymm hs.le_size (not_lt.mp hb)
      refine .inr ⟨hk, hfull, ⟨_, _, rfl, haddr.trans hfull⟩, ?_⟩
      rw [balloc_full hs hb, error_bind]
  · exact .inl ⟨hk, if_neg hk, if_neg hk⟩

/-- How looking for a block to write to ends in mkfs and in the kernel. A block that there is
not is handed out by mkfs, which then cannot read it. -/
inductive Agrees (freeinode : ℕ) (k : Except Fault (ℕ × Disk × Inode))
    (m : Except Fault (ℕ × Image × Dinode)) : Prop where
  | found (a : ℕ) (t : Image) (iq : Inode) (hk : k = .ok (a, withBitmap t, iq))
      (hm : m = .ok (a, t, iq.toDinode)) (ht : Fresh t) (hn : t.freeinode = freeinode)
  | full (hk : k = .error (.panic "balloc: out of blocks"))
      (hm : m = .error (.panic "read") ∨ ∃ a t v, m = .ok (a, t, v) ∧ fssize ≤ a)
  | tooLong (hk : k = .error (.panic "bmap: out of range")) (j : ℕ)
      (hm : m = .error (.outOfBounds j))

/-- The part of `appendBlock` that is behind the address of the indirect block. -/
def appendEntry (r : Image × Dinode) (addr j : ℕ) : Except Fault (ℕ × Image × Dinode) :=
  rsect r.1 addr >>= fun indirect =>
    if nindirect ≤ j then .error (.outOfBounds j)
    else if word indirect (4 * j) = 0 then
      .ok (r.1.freeblock, wsect { r.1 with freeblock := r.1.freeblock + 1 } addr
        (storeWord indirect (4 * j) (BitVec.ofNat 32 r.1.freeblock)), r.2)
    else .ok ((word indirect (4 * j)).toNat, r)

theorem rsect_eq (hb : b < fssize) : rsect s b = .ok (s.disk b) := if_pos hb

theorem rsect_behind (hb : fssize ≤ b) : rsect s b = .error (.panic "read") :=
  if_neg (not_lt.mpr hb)

theorem appendEntry_agrees {addr j : ℕ} (hs : Fresh s) (hlow : nmeta ≤ addr)
    (haddr : addr < s.freeblock) (hj : j < nindirect) :
    Agrees s.freeinode
      (bmapEntry sb.toSuperblock (withBitmap s) addr j >>= fun q => .ok (q.1, q.2, ip))
      (appendEntry (s, ip.toDinode) addr j) := by
  have hread : rsect s addr = .ok (s.disk addr) := rsect_eq (haddr.trans_le hs.le_size)
  have hdata : withBitmap s addr = s.disk addr := withBitmap_data hlow
  simp only [bmapEntry, appendEntry, hread, ok_bind, hdata, if_neg (not_le.mpr hj)]
  by_cases hword : word (s.disk addr) (4 * j) = 0
  · rw [if_pos hword, if_pos hword]
    by_cases hb : s.freeblock < fssize
    · have hnext := hs.next hb
      rw [balloc_withBitmap hs hb, ok_bind, ok_bind]
      refine .found _ _ ip ?_ rfl (hnext.wsect (Nat.lt_succ_of_lt haddr)) rfl
      simp only [withBitmap_wsect hlow, withBitmap_data hlow]
    · rw [balloc_full hs hb, error_bind, error_bind]
      exact .full rfl (.inr ⟨_, _, _, rfl, not_lt.mp hb⟩)
  · rw [if_neg hword, if_neg hword, ok_bind]
    exact .found _ s ip rfl rfl hs rfl

theorem appendBlock_agrees {fbn : ℕ} (hs : Fresh s) (hi : Intact sb (withBitmap s) ip)
    (hind : maxfile ≤ fbn → ip.addrs (Fin.last ndirect) ≠ 0) :
    Agrees s.freeinode (bmap sb.toSuperblock (withBitmap s) ip fbn)
      (appendBlock s ip.toDinode fbn) := by
  have hplace : ∀ k : Fin (ndirect + 1), ip.addrs k ≠ 0 →
      nmeta ≤ (ip.addrs k).toNat ∧ (ip.addrs k).toNat < s.freeblock := by
    intro k hk
    have hslot := slot_addr (withBitmap s) ip.toDinode k
    obtain ⟨hlow, hsize, hmarked⟩ := hi.slot_data (k := k) (by rw [hslot]; exact hk)
    rw [hslot] at hlow hsize hmarked
    exact ⟨hlow, (marked_withBitmap hsize).mp hmarked⟩
  unfold bmap appendBlock
  by_cases hdirect : fbn < ndirect
  · rw [dif_pos hdirect, dif_pos hdirect]
    generalize (⟨fbn, _⟩ : Fin (ndirect + 1)) = k
    change Agrees _ _ (.ok (((allocAddr s ip.toDinode k).2.addrs k).toNat,
      allocAddr s ip.toDinode k))
    rcases allocAddr_cases (k := k) hs with
      ⟨hk, hm, hb⟩ | ⟨-, hb, t, iq, hm, rfl, haddr, hk⟩ | ⟨-, -, ⟨t, v, hm, haddr⟩, hk⟩
    · rw [hm]
      exact .found _ s ip hb rfl hs rfl
    · rw [hm, haddr]
      exact .found _ _ iq hk rfl (hs.next hb) rfl
    · rw [hm, haddr]
      exact .full hk (.inr ⟨_, _, _, rfl, le_refl _⟩)
  · rw [dif_neg hdirect, dif_neg hdirect]
    change Agrees _ _ (appendEntry (allocAddr s ip.toDinode (Fin.last ndirect))
      ((allocAddr s ip.toDinode (Fin.last ndirect)).2.addrs (Fin.last ndirect)).toNat
        (fbn - ndirect))
    by_cases hj : fbn - ndirect < nindirect
    · rw [if_pos hj]
      rcases allocAddr_cases (k := Fin.last ndirect) hs with
        ⟨hk, hm, hb⟩ | ⟨-, hb, t, iq, hm, rfl, haddr, hk⟩ | ⟨-, -, ⟨t, v, hm, haddr⟩, hk⟩
      · obtain ⟨hlow, hlt⟩ := hplace _ hk
        rw [hm, hb, ok_bind]
        exact appendEntry_agrees hs hlow hlt hj
      · rw [hm, hk, ok_bind, haddr]
        exact appendEntry_agrees (s := { s with freeblock := s.freeblock + 1 }) (hs.next hb)
          hs.nmeta_le (Nat.lt_succ_self _) hj
      · rw [hm, hk, error_bind, haddr]
        refine .full rfl (.inl ?_)
        rw [appendEntry, rsect_behind (le_refl _), error_bind]
    · have hmax : maxfile = ndirect + nindirect := rfl
      have hk := hind (by omega)
      obtain ⟨hlow, hlt⟩ := hplace _ hk
      have hm : allocAddr s ip.toDinode (Fin.last ndirect) = (s, ip.toDinode) := if_neg hk
      rw [if_neg hj, hm]
      refine .tooLong rfl (fbn - ndirect) ?_
      rw [appendEntry, rsect_eq (hlt.trans_le hs.le_size), ok_bind]
      exact if_pos (not_lt.mp hj)

/-- How the loops of `iappend` and of the kernel's `writei` end. -/
inductive Ends (freeinode : ℕ) (k : Except Fault (Disk × Inode))
    (m : Except Fault (Image × Dinode)) : Prop where
  | done (t : Image) (iq : Inode) (hk : k = .ok (withBitmap t, iq)) (hm : m = .ok (t, iq.toDinode))
      (ht : Fresh t) (hn : t.freeinode = freeinode)
  | full (hk : k = .error (.panic "balloc: out of blocks")) (hm : m = .error (.panic "read"))
  | tooLong (hk : k = .error (.panic "bmap: out of range")) (j : ℕ)
      (hm : m = .error (.outOfBounds j))

/-- The loop of `iappend` is that of `writei`, round by round. -/
theorem appendBlocks_ends {off n : ℕ} {p : Memory} (hs : Fresh s)
    (hi : Intact sb (withBitmap s) ip)
    (hind : ndirect * bsize < off → ip.addrs (Fin.last ndirect) ≠ 0) :
    Ends s.freeinode (writeBlocks sb.toSuperblock (withBitmap s) ip p off n)
      (appendBlocks s ip.toDinode off p n) := by
  induction n using Nat.strong_induction_on generalizing s ip off p with
  | _ n ih =>
    rw [writeBlocks, appendBlocks]
    by_cases hn : n = 0
    · rw [if_pos hn, if_pos hn]
      exact .done s ip rfl rfl hs rfl
    rw [if_neg hn, if_neg hn]
    have hsplit := Nat.div_add_mod off bsize
    have hround : (off / bsize + 1) * bsize - off = bsize - off % bsize := by
      rw [Nat.add_mul, Nat.one_mul, Nat.mul_comm]
      omega
    have hstart : off - off / bsize * bsize = off % bsize := by
      rw [Nat.mul_comm]
      omega
    have hlast : maxfile ≤ off / bsize → ip.addrs (Fin.last ndirect) ≠ 0 := by
      intro hle
      apply hind
      have hoff := (Nat.le_div_iff_mul_le (by decide)).mp hle
      exact lt_of_lt_of_le (by decide) hoff
    rw [hround, hstart]
    rcases appendBlock_agrees hs hi hlast with ⟨a, t, iq, hk, hm, ht, hino⟩ | ⟨hk, hm⟩ |
      ⟨hk, j, hm⟩
    · obtain ⟨-, hfills, -, ha⟩ := bmap_spec hi hk
      have hslot := hfills.filled _ (mem_touched_dataSlot (off / bsize))
      have hi' := hi.evolves hfills.toEvolves
      obtain ⟨hlow, hsize, hmarked⟩ := hi'.slot_data hslot
      rw [← ha] at hlow hsize hmarked
      have hlt : a < t.freeblock := (marked_withBitmap hsize).mp hmarked
      have hpos := step_pos off hn
      have hlen := min_le_left n (bsize - off % bsize)
      have hend := min_le_right n (bsize - off % bsize)
      rw [hk, hm, ok_bind, ok_bind]
      simp only [rsect_eq hsize, ok_bind]
      generalize min n (bsize - off % bsize) = m at hpos hlen hend ⊢
      have hdata : withBitmap t a = t.disk a := withBitmap_data hlow
      have hwrite : Function.update (withBitmap t) a (copyIn (withBitmap t a) (off % bsize) p m) =
          withBitmap (wsect t a (copyIn (t.disk a) (off % bsize) p m)) := by
        rw [withBitmap_wsect hlow, hdata]
      have hupdate := fills_update hi' hslot (copyIn (withBitmap t a) (off % bsize) p m)
      rw [← ha, hwrite] at hupdate
      rw [hwrite, ← hino]
      refine ih (n - m) (by omega) (ht.wsect hlt) (hi'.evolves hupdate.toEvolves) ?_
      intro hoff
      have hbn : ¬off / bsize < ndirect := by
        intro hdirect
        have hle : bsize * (off / bsize) + bsize ≤ bsize * ndirect := by
          rw [← Nat.mul_succ]
          exact Nat.mul_le_mul_left _ hdirect
        rw [Nat.mul_comm ndirect bsize] at hoff
        omega
      have hmem : ndirect ∈ touched (off / bsize) := by
        rw [touched, if_neg hbn]
        exact Finset.mem_insert_self _ _
      have hfilled := hfills.filled _ hmem
      rwa [slot_indirect] at hfilled
    · rw [hk, error_bind]
      rcases hm with hm | ⟨a, t, v, hm, hle⟩
      · rw [hm, error_bind]
        exact .full rfl rfl
      · rw [hm, ok_bind]
        simp only [rsect_behind hle, error_bind]
        exact .full rfl rfl
    · rw [hk, hm, error_bind, error_bind]
      exact .tooLong rfl j rfl

end Addresses

end MkfsImage
