import Xv6Gui.MkfsAppends
import Mathlib.Algebra.BigOperators.Group.Finset.Piecewise
import Mathlib.Algebra.Order.BigOperators.Group.Finset

/-!
# The files of an image

Runs of mkfs. What was appended to the files, in any order, is what the kernel reads of the image
that is left in the end.
-/
namespace MkfsFiles

open WordMemory DiskBlocks BlockMaps GuardedRuns Ledgers BlockOwnership BlockMapping FileBlocks
  FileWrites DirectoryFiles MkfsImage MkfsAppends
open WindowManagerState (Fault)

inductive Event where
  | ialloc (type : BitVec 16)
  | iappend (inum : ℕ) (data : List Byte)

def step (s : Image) : Event → Except Fault Image
  | .ialloc type => ialloc s type >>= fun r => .ok r.2
  | .iappend inum data => iappend s inum (bytes data) data.length

/-- Inodes are handed out from number `k` on while there are any, and data go to inodes that have
been handed out. -/
def Valid (k : ℕ) : List Event → Prop
  | [] => True
  | .ialloc type :: es => type ≠ 0 ∧ k < ninodes ∧ Valid (k + 1) es
  | .iappend inum _ :: es => 1 ≤ inum ∧ inum < k ∧ Valid k es

/-- All that is appended to inode `i`. -/
def appended (i : ℕ) : List Event → List Byte
  | [] => []
  | .ialloc _ :: es => appended i es
  | .iappend inum data :: es => if inum = i then data ++ appended i es else appended i es

def allocs : List Event → ℕ
  | [] => 0
  | .ialloc _ :: es => allocs es + 1
  | .iappend _ _ :: es => allocs es

/-- The blocks that have been handed out are those that the files need. -/
def Tallied (s : Image) : Prop :=
  s.freeblock = nmeta + ∑ i ∈ Finset.range ninodes, blocksFor (inode s i).size.toNat

section Runs

variable {s t : Image} {i j m v : ℕ} {data : List Byte} {es : List Event} {type : BitVec 16}

theorem sum_update (f : ℕ → ℕ) (hi : i < m) (hv : f i ≤ v) :
    ∑ j ∈ Finset.range m, Function.update f i v j = ∑ j ∈ Finset.range m, f j + (v - f i) := by
  have hmem := Finset.mem_range.mpr hi
  have hold := Finset.sum_eq_add_sum_sdiff_singleton_of_mem hmem f
  rw [Finset.sum_update_of_mem hmem, hold]
  omega

theorem blocksFor_sizes (hi : i < ninodes) (hsize : (inode t i).size.toNat = v)
    (hothers : ∀ j < ninodes, j ≠ i → inode t j = inode s j) (hv : (inode s i).size.toNat ≤ v) :
    ∑ j ∈ Finset.range ninodes, blocksFor (inode t j).size.toNat =
      ∑ j ∈ Finset.range ninodes, blocksFor (inode s j).size.toNat +
        (blocksFor v - blocksFor (inode s i).size.toNat) := by
  rw [← sum_update (fun j => blocksFor (inode s j).size.toNat) hi (blocksFor_mono hv)]
  apply Finset.sum_congr rfl
  intro j hj
  by_cases hji : j = i
  · rw [hji, Function.update_self, hsize]
  · rw [Function.update_of_ne hji, hothers j (Finset.mem_range.mp hj) hji]

theorem tallied_of_appended (hs : Tallied s) (hi : i < ninodes) (h : Appended s i data t) :
    Tallied t := by
  have hsum := blocksFor_sizes hi h.size (fun j hj hji => (h.others j hj hji).1)
    (Nat.le_add_right _ _)
  rw [Tallied] at hs ⊢
  rw [h.freeblock, hsum]
  omega

/-- Sizes and contents are what they were when an inode has been handed out. -/
theorem allocated_others (hs : Inv s) (h : Allocated s type t) (hj : j < ninodes) :
    (inode t j).size = (inode s j).size ∧
      contents (withBitmap t) (inode t j) = contents (withBitmap s) (inode s j) := by
  by_cases hji : j = s.freeinode
  · have hzero : (inode s j).type = 0 := by
      by_contra hne
      exact absurd hji ((hs.allocated j hj).mp hne).2.ne
    have hold : (inode s j).size = 0 := by rw [hs.unused j hj hzero]
    have hnew : (inode t j).size = 0 := by rw [hji, h.inode]
    rw [hold, hnew, contents_empty _ hold, contents_empty _ hnew]
    exact ⟨rfl, rfl⟩
  · obtain ⟨hinode, hcontents⟩ := h.others j hj hji
    exact ⟨congrArg Dinode.size hinode, hcontents⟩

theorem tallied_of_allocated (hs : Inv s) (htally : Tallied s) (h : Allocated s type t) :
    Tallied t := by
  rw [Tallied] at htally ⊢
  have hsum : ∑ j ∈ Finset.range ninodes, blocksFor (inode t j).size.toNat =
      ∑ j ∈ Finset.range ninodes, blocksFor (inode s j).size.toNat := by
    apply Finset.sum_congr rfl
    intro j hj
    rw [(allocated_others hs h (Finset.mem_range.mp hj)).1]
  rw [h.freeblock, htally, hsum]

/-- Each file has room for what is to be appended to it, and there are blocks for all of it. -/
structure Room (s : Image) (es : List Event) : Prop where
  sizes : ∀ i < ninodes, (inode s i).size.toNat + (appended i es).length ≤ maxfile * bsize
  blocks : nmeta + ∑ i ∈ Finset.range ninodes,
    blocksFor ((inode s i).size.toNat + (appended i es).length) ≤ fssize

theorem Room.congr {es' : List Event} (h : Room s es)
    (hsame : ∀ i < ninodes, (inode t i).size.toNat + (appended i es').length =
      (inode s i).size.toNat + (appended i es).length) : Room t es' := by
  refine ⟨?_, ?_⟩
  · intro i hi
    rw [hsame i hi]
    exact h.sizes i hi
  · rw [Finset.sum_congr rfl fun i hi => by rw [hsame i (Finset.mem_range.mp hi)]]
    exact h.blocks

theorem length_appended (i j : ℕ) (data : List Byte) (es : List Event) :
    (appended i (.iappend j data :: es)).length =
      (if j = i then data.length else 0) + (appended i es).length := by
  rw [appended]
  split
  · rw [List.length_append]
  · rw [Nat.zero_add]

/-- The next append has its share of the room. -/
theorem Room.append (h : Room s (.iappend j data :: es)) (htally : Tallied s) (hj : j < ninodes) :
    (inode s j).size.toNat + data.length ≤ maxfile * bsize ∧
      s.freeblock + (blocksFor ((inode s j).size.toNat + data.length) -
        blocksFor (inode s j).size.toNat) ≤ fssize := by
  constructor
  · have hsize := h.sizes j hj
    rw [length_appended, if_pos rfl] at hsize
    omega
  · refine le_trans ?_ h.blocks
    rw [htally, Nat.add_assoc, ← sum_update (fun i => blocksFor (inode s i).size.toNat) hj
      (blocksFor_mono (Nat.le_add_right _ _))]
    apply Nat.add_le_add_left
    apply Finset.sum_le_sum
    intro i _
    rw [length_appended]
    by_cases hij : i = j
    · rw [hij, Function.update_self, if_pos rfl]
      exact blocksFor_mono (by omega)
    · rw [Function.update_of_ne hij]
      exact blocksFor_mono (Nat.le_add_right _ _)

theorem Appended.sizes (h : Appended s j data t) (es : List Event) (hi : i < ninodes) :
    (inode t i).size.toNat + (appended i es).length =
      (inode s i).size.toNat + (appended i (.iappend j data :: es)).length := by
  rw [length_appended]
  by_cases hij : i = j
  · rw [hij, h.size, if_pos rfl, Nat.add_assoc]
  · rw [(h.others i hi hij).1, if_neg (Ne.symm hij), Nat.zero_add]

/-- With room in the files and blocks for all that is to come, mkfs appends it. -/
theorem run_returns (hs : Inv s) (htally : Tallied s) (hvalid : Valid s.freeinode es)
    (hroom : Room s es) :
    ∃ t, es.foldlM step s = .ok t ∧ Inv t ∧ t.freeinode = s.freeinode + allocs es ∧
      ∀ i < ninodes, contents (withBitmap t) (inode t i) =
        contents (withBitmap s) (inode s i) ++ appended i es := by
  induction es generalizing s with
  | nil =>
    refine ⟨s, rfl, hs, rfl, ?_⟩
    intro i _
    rw [appended, List.append_nil]
  | cons e es ih =>
    cases e with
    | ialloc type =>
      obtain ⟨htype, hi, hvalid⟩ := hvalid
      obtain ⟨t, ht, h⟩ := ialloc_allocates hs hi htype
      have hothers := fun j hj => allocated_others hs h (j := j) hj
      have hroom' : Room t es := hroom.congr fun i hi => by rw [(hothers i hi).1, appended]
      obtain ⟨u, hu, hinv, hnumber, hcontents⟩ :=
        ih h.inv (tallied_of_allocated hs htally h) (by rw [h.freeinode]; exact hvalid) hroom'
      refine ⟨u, ?_, hinv, ?_, ?_⟩
      · rw [List.foldlM_cons, step, ht, ok_bind, ok_bind]
        exact hu
      · rw [hnumber, h.freeinode, allocs]
        omega
      · intro i hi
        rw [hcontents i hi, (hothers i hi).2]
        rfl
    | iappend inum data =>
      obtain ⟨hpos, hlt, hvalid⟩ := hvalid
      have hi : inum < ninodes := hlt.trans_le hs.numbers
      have htype := (hs.allocated inum hi).mpr ⟨hpos, hlt⟩
      obtain ⟨hsize, hblocks⟩ := hroom.append htally hi
      obtain ⟨t, ht, h⟩ := iappend_appends hs hi htype (map_bytes data) hsize hblocks
      have hroom' : Room t es := hroom.congr fun i hi => Appended.sizes h es hi
      obtain ⟨u, hu, hinv, hnumber, hcontents⟩ :=
        ih h.inv (tallied_of_appended htally hi h) (by rw [h.freeinode]; exact hvalid) hroom'
      refine ⟨u, ?_, hinv, ?_, ?_⟩
      · rw [List.foldlM_cons, step, ht, ok_bind]
        exact hu
      · rw [hnumber, h.freeinode, allocs]
      · intro i hi
        rw [hcontents i hi, appended]
        by_cases hii : i = inum
        · rw [hii, if_pos rfl, h.contents, List.append_assoc]
        · rw [if_neg (Ne.symm hii), (h.others i hi hii).2]

end Runs

/-- The root directory with the size that it is given in the end. -/
def rounded (s : Image) : Dinode :=
  { inode s rootino with
    size := BitVec.ofNat 32 (((inode s rootino).size.toNat / bsize + 1) * bsize) }

/-- What the kernel gets to see of the image `s`. -/
structure Finished (s : Image) (d : Disk) : Prop where
  root : dinode sb.toSuperblock d rootino = rounded s
  others : ∀ j < ninodes, j ≠ rootino → dinode sb.toSuperblock d j = inode s j
  slots : ∀ j < ninodes, ∀ k, slot d (inode s j) k = slot (withBitmap s) (inode s j) k
  contents : ∀ j < ninodes, contents d (inode s j) = contents (withBitmap s) (inode s j)
  sound : Sound (metadata sb.toSuperblock)
    (ledger sb.toSuperblock d (dinode sb.toSuperblock d))

section Finishing

variable {s : Image} {d : Disk} {i j k l : ℕ}

/-- Only the root directory and the bit map are written in the end. -/
theorem finish_returns (h : Inv s) : ∃ u, finish s = .ok u ∧ u.freeinode = s.freeinode ∧
    u.freeblock = s.freeblock ∧ Finished s u.disk := by
  have hroot : rootino < ninodes := by decide
  obtain ⟨t, ht, htino, htblock, htdisk, -⟩ := winode_eq (s := s) hroot (rounded s)
  have hused : t.freeblock < bsize * 8 := by
    rw [htblock]
    exact h.fresh.le_size.trans_lt (by decide)
  refine ⟨wsect t sb.bmapstart (bitmap t.freeblock), ?_, htino, htblock, ?_⟩
  · rw [finish, rinode_eq hroot, ok_bind]
    change winode s rootino (rounded s) >>= _ = _
    rw [ht, ok_bind, MkfsImage.balloc, if_pos hused]
  change Finished s (withBitmap t)
  have hdata : ∀ x, sb.nmeta ≤ x → withBitmap t x = withBitmap s x := by
    intro x hx
    rw [htdisk]
    exact iupdate_data hroot x hx
  have hlow : ∀ j < ninodes, ∀ k, slot (withBitmap s) (inode s j) k ≠ 0 →
      sb.nmeta ≤ (slot (withBitmap s) (inode s j) k).toNat := by
    intro j hj k hk
    refine data_slots h.wellMapped.sound hj ?_ hk
    intro hzero
    have hnone : slot (withBitmap s) (inode s j) k = 0 :=
      slot_of_no_addrs (congrArg Dinode.addrs (h.unused j hj hzero)) k
    exact hk hnone
  have hledger : ledger sb.toSuperblock (withBitmap s) (inodes sb.toSuperblock (withBitmap s)
      ⟨rounded s, rootino⟩) =
        ledger sb.toSuperblock (withBitmap s) (dinode sb.toSuperblock (withBitmap s)) := by
    have hsame := ledger_setSize sb.toSuperblock (withBitmap s)
      (load sb.toSuperblock (withBitmap s) rootino) (rounded s).size
    rw [inodes_load] at hsame
    exact hsame
  constructor
  case root =>
    rw [htdisk, dinode_iupdate]
    exact inodes_self _ _ _
  case others =>
    intro j _ hne
    rw [htdisk, dinode_iupdate]
    exact inodes_of_ne _ _ hne
  case slots => exact fun j hj => slot_of_data_blocks hdata (hlow j hj)
  case contents => exact fun j hj => contents_congr (byteAt_of_data_blocks hdata (hlow j hj))
  case sound =>
    rw [htdisk, ledger_iupdate hroot (by rw [hledger]; exact h.wellMapped.sound), hledger]
    exact h.wellMapped.sound

/-- All the blocks of a file are there. -/
theorem filled_below (h : Inv s) (hi : i < ninodes) {bn : ℕ}
    (hbn : bn * bsize < (inode s i).size.toNat) :
    slot (withBitmap s) (inode s i) (dataSlot bn) ≠ 0 := by
  have hne : (inode s i).type ≠ 0 := by
    intro hzero
    have hempty := congrArg Dinode.size (h.unused i hi hzero)
    rw [hempty] at hbn
    exact absurd hbn (Nat.not_lt_zero _)
  exact (h.filled i hi hne _).mpr (dataSlot_mem_span_zero.mpr hbn)

/-- The kernel reads the files as they were left. -/
theorem readi_finished (h : Inv s) (hd : Finished s d) (hi : i < ninodes) (hne : i ≠ rootino)
    (off n : Word) : readi sb.toSuperblock d (load sb.toSuperblock d i) off n =
      .ok (readRange (contents (withBitmap s) (inode s i)) off n, d,
        load sb.toSuperblock d i) := by
  have hself := hd.others i hi hne
  rw [← hd.contents i hi, ← hself]
  apply readi_eq
  intro pos hpos
  change pos < (dinode sb.toSuperblock d i).size.toNat at hpos
  change slot d (dinode sb.toSuperblock d i) _ ≠ 0
  rw [hself] at hpos ⊢
  rw [hd.slots i hi]
  exact filled_below h hi ((Nat.div_mul_le_self pos bsize).trans_lt hpos)

/-- No block is in two places. -/
theorem slots_once (hd : Sound (metadata sb.toSuperblock)
      (ledger sb.toSuperblock d (dinode sb.toSuperblock d)))
    (hi : i < sb.ninodes) (hj : j < sb.ninodes)
    (htype : (dinode sb.toSuperblock d i).type ≠ 0) (htype' : (dinode sb.toSuperblock d j).type ≠ 0)
    (hk : slot d (dinode sb.toSuperblock d i) k ≠ 0)
    (heq : slot d (dinode sb.toSuperblock d j) l = slot d (dinode sb.toSuperblock d i) k) :
    j = i ∧ l = k := by
  have hl : slot d (dinode sb.toSuperblock d j) l ≠ 0 := heq ▸ hk
  have hheld := held_of_slot (d := d) hj htype' hl
  rw [heq] at hheld
  exact Prod.mk.inj (hd.once _ _ _ hheld (held_of_slot (d := d) hi htype hk))

end Finishing

/-- However the appends to the files and to the root directory are interleaved, the image is
complete, the kernel reads each file as all that was appended to it, and no block is shared. -/
theorem appended_files_read (es : List Event) (hvalid : Valid 1 es)
    (hsize : ∀ i < ninodes, (appended i es).length ≤ maxfile * bsize)
    (hblocks : nmeta + ∑ i ∈ Finset.range ninodes, blocksFor (appended i es).length ≤ fssize) :
    ∃ t u, es.foldlM step zeroed = .ok t ∧ finish t = .ok u ∧
      (∀ i, rootino < i → i < 1 + allocs es → ∀ off n,
        readi sb.toSuperblock u.disk (load sb.toSuperblock u.disk i) off n =
          .ok (readRange (appended i es) off n, u.disk, load sb.toSuperblock u.disk i)) ∧
      ∀ i j k l, 1 ≤ i → i < 1 + allocs es → 1 ≤ j → j < 1 + allocs es →
        slot u.disk (dinode sb.toSuperblock u.disk i) k ≠ 0 →
        slot u.disk (dinode sb.toSuperblock u.disk j) l =
          slot u.disk (dinode sb.toSuperblock u.disk i) k → j = i ∧ l = k := by
  have hempty : ∀ i < ninodes, (inode zeroed i).size = 0 :=
    fun i hi => congrArg Dinode.size (inode_zeroed hi)
  have hzero : ∀ i < ninodes, (inode zeroed i).size.toNat = 0 := by
    intro i hi
    rw [hempty i hi]
    rfl
  have htally : Tallied zeroed := by
    rw [Tallied, Finset.sum_eq_zero]
    · rfl
    · intro i hi
      rw [hzero i (Finset.mem_range.mp hi)]
      rfl
  have hlengths : ∀ i < ninodes,
      (inode zeroed i).size.toNat + (appended i es).length = (appended i es).length := by
    intro i hi
    rw [hzero i hi, Nat.zero_add]
  have hroom : Room zeroed es := by
    refine ⟨?_, ?_⟩
    · intro i hi
      rw [hlengths i hi]
      exact hsize i hi
    · rw [Finset.sum_congr rfl fun i hi => by rw [hlengths i (Finset.mem_range.mp hi)]]
      exact hblocks
  obtain ⟨t, ht, hinv, hnumber, hcontents⟩ := run_returns inv_zeroed htally hvalid hroom
  obtain ⟨u, hu, -, -, hd⟩ := finish_returns hinv
  change t.freeinode = 1 + allocs es at hnumber
  refine ⟨t, u, ht, hu, ?_, ?_⟩
  · intro i hne hi off n
    have hi' : i < ninodes := by
      have hle := hinv.numbers
      omega
    rw [readi_finished hinv hd hi' hne.ne', hcontents i hi',
      contents_empty _ (hempty i hi'), List.nil_append]
  · intro i j k l hpos hi hpos' hj hk heq
    have htype : ∀ i, 1 ≤ i → i < 1 + allocs es →
        i < ninodes ∧ (dinode sb.toSuperblock u.disk i).type ≠ 0 := by
      intro i hpos hi
      rw [← hnumber] at hi
      have hlt : i < ninodes := hi.trans_le hinv.numbers
      refine ⟨hlt, ?_⟩
      have hused := (hinv.allocated i hlt).mpr ⟨hpos, hi⟩
      by_cases hne : i = rootino
      · rw [hne, hd.root]
        rw [hne] at hused
        exact hused
      · rw [hd.others i hlt hne]
        exact hused
    obtain ⟨hlt, hused⟩ := htype i hpos hi
    obtain ⟨hlt', hused'⟩ := htype j hpos' hj
    exact slots_once hd.sound hlt hlt' hused hused' hk heq

/-- A file in two pieces, with one of the root directory between them. -/
def twoPieces (data : List Byte) : List Event :=
  [.ialloc tDir, .ialloc tFile, .iappend 2 data, .iappend 1 [46], .iappend 2 [8, 9]]

theorem appended_twoPieces (data : List Byte) (i : ℕ) : (appended i (twoPieces data)).length =
    if 2 = i then data.length + 2 else if 1 = i then 1 else 0 := by
  simp only [twoPieces, appended]
  by_cases h2 : 2 = i
  · rw [if_pos h2, if_pos h2, if_pos h2, if_neg (by omega), List.length_append]
    rfl
  · rw [if_neg h2, if_neg h2, if_neg h2]
    split_ifs <;> rfl

theorem appended_second (data : List Byte) : appended 2 (twoPieces data) = data ++ [8, 9] := rfl

/-- One byte less than a block. -/
def almostBlock : List Byte := List.replicate 2046 7 ++ [7]

theorem almostBlock_length : almostBlock.length = 2047 := by
  rw [almostBlock, List.length_append, List.length_replicate]
  rfl

/-- The second piece begins in one block and ends in the next. -/
theorem appended_files_read_two : ∃ t u,
    (twoPieces almostBlock).foldlM step zeroed = .ok t ∧ finish t = .ok u ∧
      readi sb.toSuperblock u.disk (load sb.toSuperblock u.disk 2) 2046 10 =
        .ok (some [7, 8, 9], u.disk, load sb.toSuperblock u.disk 2) := by
  have hlength := appended_twoPieces almostBlock
  rw [almostBlock_length] at hlength
  obtain ⟨t, u, ht, hu, hread, -⟩ := appended_files_read (twoPieces almostBlock)
    ⟨by decide, by decide, by decide, by decide, by decide, by decide, by decide, by decide,
      by decide, by decide, trivial⟩
    (by simp only [hlength]; decide +kernel) (by simp only [hlength]; decide +kernel)
  refine ⟨t, u, ht, hu, ?_⟩
  have hin : ¬((2046 : Word).toNat > (appended 2 (twoPieces almostBlock)).length ∨
      (2046 : Word).toNat + (10 : Word).toNat ≥ 4294967296) := by
    rw [hlength]
    decide
  have hdata : (appended 2 (twoPieces almostBlock)).drop (2046 : Word).toNat = [7, 8, 9] := by
    have hoff : (2046 : Word).toNat = 2046 := rfl
    rw [appended_second, almostBlock, List.append_assoc, hoff,
      List.drop_left' List.length_replicate]
    rfl
  rw [hread 2 (by decide) (by decide) 2046 10, readRange, if_neg hin, hdata]
  rfl

/-- A file that mkfs can open. -/
def Accepted (f : File) : Prop := 47 ∉ f.name ∧ f.chunks.isSome = true

instance (f : File) : Decidable (Accepted f) := inferInstanceAs (Decidable (_ ∧ _))

def fileSize (f : File) : ℕ := (f.chunks.getD []).flatten.length

/-- What is handed out after one more file, when there are `k` entries in the root directory and
`b` blocks have been handed out. -/
def blocksWith (k b : ℕ) (f : File) : ℕ :=
  b + growth (k * direntSize) direntSize + growth 0 (fileSize f)

/-- The next file that is opened finds an inode, and is not too long unless the blocks run out
first; then mkfs exits. -/
def WithinLimits (k b : ℕ) : List File → Prop
  | [] => True
  | f :: files => Accepted f → k < ninodes ∧ (blocksWith k b f ≤ fssize →
      fileSize f ≤ maxfile * bsize ∧ WithinLimits (k + 1) (blocksWith k b f) files)

/-- An image with its root directory, which has an entry for each inode and one more. -/
structure Rooted (s : Image) : Prop extends Inv s where
  made : rootino < s.freeinode
  entries : (inode s rootino).size.toNat = s.freeinode * direntSize

/-- How adding a file ends. -/
inductive Added (s : Image) (f : File) (r : Except Fault Image) : Prop where
  | added (t : Image) (hr : r = .ok t) (ht : Rooted t) (hn : t.freeinode = s.freeinode + 1)
      (hb : t.freeblock = blocksWith s.freeinode s.freeblock f) (hf : Accepted f)
      (hi : s.freeinode < ninodes) (hsize : fileSize f ≤ maxfile * bsize)
  | exits (m : String) (hr : r = .error (.panic m))
      (hwhy : Accepted f → s.freeinode < ninodes ∧
        fssize < blocksWith s.freeinode s.freeblock f)
  | outside (j : ℕ) (hr : r = .error (.outOfBounds j)) (hf : Accepted f)
      (hwhy : ninodes ≤ s.freeinode ∨
        blocksWith s.freeinode s.freeblock f ≤ fssize ∧ maxfile * bsize < fileSize f)

section Files

variable {s t u : Image} {f : File} {files : List File} {i : ℕ} {data : List Byte}

theorem length_dirent (p : Memory) : ((List.range direntSize).map p).length = direntSize := by
  rw [List.length_map, List.length_range]

/-- The size of a root directory with an entry for each inode. -/
theorem root_fits (hi : i < ninodes) : i * direntSize + direntSize ≤ maxfile * bsize := by
  change i * 32 + 32 ≤ 1073152
  change i < 200 at hi
  omega

/-- A file costs its own blocks and at most one for its entry. -/
theorem blocksWith_le {k b : ℕ} (hk : k < ninodes) (hf : fileSize f ≤ maxfile * bsize) :
    blocksWith k b f ≤ b + (blocksFor (fileSize f) + 1) := by
  have hentry : ∀ k < ninodes, growth (k * direntSize) direntSize ≤ 1 := by decide +kernel
  have hdata : growth 0 (fileSize f) = blocksFor (fileSize f) := by
    rw [growth, Nat.zero_add, min_eq_left hf]
    rfl
  have hle := hentry k hk
  rw [blocksWith, hdata]
  omega

theorem freeblock_growth (h : Appended s i data t)
    (hfits : (inode s i).size.toNat + data.length ≤ maxfile * bsize) :
    t.freeblock = s.freeblock + growth (inode s i).size.toNat data.length := by
  rw [growth, min_eq_left hfits]
  exact h.freeblock

theorem addFile_ends (h : Rooted s) (f : File) : Added s f (addFile s f) := by
  have hroot : rootino < ninodes := by decide
  unfold addFile
  by_cases hslash : 47 ∈ f.name
  · rw [if_pos hslash]
    exact .exits _ rfl fun hf => absurd hslash hf.1
  rw [if_neg hslash]
  cases hchunks : f.chunks with
  | none =>
    refine .exits _ rfl ?_
    rintro ⟨-, hsome⟩
    rw [hchunks] at hsome
    cases hsome
  | some chunks =>
    have hf : Accepted f := ⟨hslash, by rw [hchunks]; rfl⟩
    have hsize : fileSize f = chunks.flatten.length := by rw [fileSize, hchunks, Option.getD_some]
    simp only
    by_cases hi : s.freeinode < ninodes
    · have hfile : tFile ≠ 0 := by decide
      obtain ⟨t, ht, hallocated⟩ := ialloc_allocates h.toInv hi hfile
      have hne : rootino ≠ s.freeinode := h.made.ne
      have hroot' := (hallocated.others rootino hroot hne).1
      have htype : (inode t rootino).type ≠ 0 := by
        rw [hroot']
        exact (h.allocated rootino hroot).mpr ⟨le_refl _, h.made⟩
      have hentries : (inode t rootino).size.toNat = s.freeinode * direntSize := by
        rw [hroot']
        exact h.entries
      simp only [ht, ok_bind]
      generalize direntBytes ⟨BitVec.ofNat 16 s.freeinode, _⟩ = p
      have hlength := length_dirent p
      rcases iappend_ends hallocated.inv hroot htype (p := p) (n := direntSize) rfl with
        ⟨u, hr, hu, -, hfits⟩ | ⟨hr, hfull⟩ | ⟨j, hr, -, hlong⟩
      · have hublock := freeblock_growth hu hfits
        rw [hallocated.freeblock, hentries, hlength] at hublock
        have hself : inode u s.freeinode = ⟨tFile, 0, 0, 1, 0, fun _ => 0⟩ :=
          (hu.others _ hi hne.symm).1.trans hallocated.inode
        have hempty : (inode u s.freeinode).size.toNat = 0 := by
          rw [hself]
          rfl
        have hused : (inode u s.freeinode).type ≠ 0 := by
          rw [hself]
          decide
        have hwith : u.freeblock + growth 0 chunks.flatten.length =
            blocksWith s.freeinode s.freeblock f := by
          rw [blocksWith, hsize, hublock]
        rw [hr, ok_bind]
        rcases appendChunks_ends hu.inv hi hused chunks with
          ⟨v, hr', hv, -, hfits'⟩ | ⟨hr', hfull'⟩ | ⟨j, hr', hfree', hlong'⟩
        · have hvblock := freeblock_growth hv hfits'
          rw [hempty, Nat.zero_add] at hfits'
          rw [hempty, hwith] at hvblock
          have hnumber : v.freeinode = s.freeinode + 1 := by
            rw [hv.freeinode, hu.freeinode, hallocated.freeinode]
          refine .added v hr' ⟨hv.inv, ?_, ?_⟩ hnumber hvblock hf hi (hsize ▸ hfits')
          · have hmade := h.made
            rw [hnumber]
            omega
          · rw [(hv.others rootino hroot hne).1, hu.size, hentries, hlength, hnumber, Nat.add_mul,
              Nat.one_mul]
        · rw [hempty, hwith] at hfull'
          exact .exits _ hr' fun _ => ⟨hi, hfull'⟩
        · rw [hempty, hwith] at hfree'
          rw [hempty, Nat.zero_add, ← hsize] at hlong'
          exact .outside j hr' hf (.inr ⟨hfree', hlong'⟩)
      · rw [hallocated.freeblock, hentries, hlength] at hfull
        rw [hr, error_bind]
        refine .exits _ rfl fun _ => ⟨hi, ?_⟩
        rw [blocksWith]
        omega
      · rw [hentries, hlength] at hlong
        exact absurd (root_fits hi) (not_le.mpr hlong)
    · refine .outside s.freeinode ?_ hf (.inl (not_lt.mp hi))
      rw [ialloc, if_neg hi, error_bind]

/-- The root directory is made of an inode and a block. -/
theorem makeRoot_returns : ∃ s, makeRoot zeroed = .ok s ∧ Rooted s ∧ s.freeinode = 2 ∧
    s.freeblock = nmeta + 1 := by
  have hroot : rootino < ninodes := by decide
  have hdir : tDir ≠ 0 := by decide
  obtain ⟨t, ht, hallocated⟩ := ialloc_allocates inv_zeroed hroot hdir
  have hself : inode t rootino = ⟨tDir, 0, 0, 1, 0, fun _ => 0⟩ := hallocated.inode
  have hempty : (inode t rootino).size.toNat = 0 := by
    rw [hself]
    rfl
  have htype : (inode t rootino).type ≠ 0 := by
    rw [hself]
    decide
  have hblock : t.freeblock = nmeta := hallocated.freeblock
  have hnumber : t.freeinode = 2 := hallocated.freeinode
  rw [makeRoot, ht, ok_bind]
  change ∃ s, (iappend t rootino (direntBytes ⟨BitVec.ofNat 16 rootino, bytes [46]⟩) direntSize >>=
    fun t => iappend t rootino (direntBytes ⟨BitVec.ofNat 16 rootino, bytes [46, 46]⟩)
      direntSize) = .ok s ∧ _
  generalize direntBytes ⟨BitVec.ofNat 16 rootino, bytes [46]⟩ = p
  generalize direntBytes ⟨BitVec.ofNat 16 rootino, bytes [46, 46]⟩ = q
  have hp := length_dirent p
  have hq := length_dirent q
  obtain ⟨u, hu, happended⟩ := iappend_appends hallocated.inv hroot htype
    (p := p) (n := direntSize) rfl (by rw [hp, hempty]; decide)
    (by rw [hp, hempty, hblock]; decide)
  have husize := happended.size
  have hublock := happended.freeblock
  rw [hp, hempty] at husize hublock
  rw [hblock] at hublock
  obtain ⟨v, hv, happended'⟩ := iappend_appends happended.inv hroot
    (by rw [happended.type]; exact htype) (p := q) (n := direntSize) rfl
    (by rw [hq, husize]; decide) (by rw [hq, husize, hublock]; decide)
  have hvsize := happended'.size
  have hvblock := happended'.freeblock
  rw [hq, husize] at hvsize hvblock
  rw [hublock] at hvblock
  have hvnumber : v.freeinode = 2 := by
    rw [happended'.freeinode, happended.freeinode, hnumber]
  rw [hu, ok_bind]
  refine ⟨v, hv, ⟨happended'.inv, ?_, ?_⟩, hvnumber, hvblock⟩
  · rw [hvnumber]
    exact Nat.lt_succ_self 1
  · rw [hvsize, hvnumber]
    rfl

/-- The induction is on the files that are left to add. -/
theorem addFiles_spec (files : List File) (h : Rooted s) :
    (WithinLimits s.freeinode s.freeblock files →
      (∃ m, files.foldlM addFile s = .error (.panic m)) ∨
        ∃ t, files.foldlM addFile s = .ok t ∧ Rooted t ∧
          t.freeinode = s.freeinode + files.length) ∧
    (¬WithinLimits s.freeinode s.freeblock files →
      ∃ j, files.foldlM addFile s = .error (.outOfBounds j)) := by
  induction files generalizing s with
  | nil => exact ⟨fun _ => .inr ⟨s, rfl, h, rfl⟩, fun hnot => absurd trivial hnot⟩
  | cons f files ih =>
    rw [List.foldlM_cons, WithinLimits]
    rcases addFile_ends h f with ⟨t, hr, ht, hn, hb, hf, hi, hsize⟩ | ⟨m, hr, hwhy⟩ |
      ⟨j, hr, hf, hwhy⟩
    · have hfree : blocksWith s.freeinode s.freeblock f ≤ fssize := hb ▸ ht.fresh.le_size
      obtain ⟨hin, hout⟩ := ih ht
      rw [hn, hb] at hin hout
      rw [hr, ok_bind]
      constructor
      · intro hlimits
        rcases hin ((hlimits hf).2 hfree).2 with hexit | ⟨u, hu, hrooted, hnumber⟩
        · exact .inl hexit
        · refine .inr ⟨u, hu, hrooted, ?_⟩
          rw [hnumber, List.length_cons]
          omega
      · intro hlimits
        exact hout fun hrest => hlimits fun _ => ⟨hi, fun _ => ⟨hsize, hrest⟩⟩
    · rw [hr, error_bind]
      refine ⟨fun _ => .inl ⟨m, rfl⟩, fun hlimits => absurd ?_ hlimits⟩
      intro hf
      obtain ⟨hi, hfull⟩ := hwhy hf
      exact ⟨hi, fun hfree => absurd hfull (not_lt.mpr hfree)⟩
    · rw [hr, error_bind]
      refine ⟨fun hlimits => ?_, fun _ => ⟨j, rfl⟩⟩
      obtain ⟨hi, hrest⟩ := hlimits hf
      rcases hwhy with hmany | ⟨hfree, hlong⟩
      · exact absurd hi (not_lt.mpr hmany)
      · exact absurd (hrest hfree).1 (not_le.mpr hlong)

/-- With inodes and blocks for all files mkfs adds them. -/
theorem addFiles_returns (h : Rooted s)
    (hfiles : ∀ f ∈ files, Accepted f ∧ fileSize f ≤ maxfile * bsize)
    (hi : s.freeinode + files.length ≤ ninodes)
    (hb : s.freeblock + (files.map fun f => blocksFor (fileSize f) + 1).sum ≤ fssize) :
    ∃ t, files.foldlM addFile s = .ok t ∧ Rooted t ∧
      t.freeinode = s.freeinode + files.length := by
  induction files generalizing s with
  | nil => exact ⟨s, rfl, h, rfl⟩
  | cons f files ih =>
    rw [List.length_cons] at hi
    rw [List.map_cons, List.sum_cons] at hb
    obtain ⟨⟨hf, hsize⟩, hrest⟩ := List.forall_mem_cons.mp hfiles
    have hwith := blocksWith_le (b := s.freeblock) (f := f) (by omega : s.freeinode < ninodes) hsize
    rw [List.foldlM_cons]
    rcases addFile_ends h f with ⟨t, hr, ht, hn, hblock, -⟩ | ⟨m, -, hwhy⟩ | ⟨j, -, -, hwhy⟩
    · obtain ⟨u, hu, hrooted, hnumber⟩ := ih ht hrest (by omega) (by omega)
      rw [hr, ok_bind]
      refine ⟨u, hu, hrooted, ?_⟩
      rw [hnumber, hn, List.length_cons]
      omega
    · have hfull := (hwhy hf).2
      omega
    · rcases hwhy with hmany | ⟨-, hlong⟩
      · omega
      · exact absurd hsize (not_le.mpr hlong)

/-- There are inodes for all files without bytes, as far as there are blocks for their entries. -/
theorem inodes_left {k b : ℕ} (h : WithinLimits k b files) (hk : k ≤ ninodes)
    (hfiles : ∀ f ∈ files, Accepted f ∧ fileSize f = 0) (hb : b + files.length ≤ fssize) :
    k + files.length ≤ ninodes := by
  induction files generalizing k b with
  | nil => exact hk
  | cons f files ih =>
    rw [List.length_cons] at hb ⊢
    obtain ⟨⟨hf, hsize⟩, hrest⟩ := List.forall_mem_cons.mp hfiles
    obtain ⟨hlt, hlimits⟩ := h hf
    have hwith := blocksWith_le (b := b) hlt (hsize.trans_le (Nat.zero_le _))
    have hzero : blocksFor 0 = 0 := rfl
    rw [hsize, hzero] at hwith
    have hleft := ih (hlimits (by omega)).2 hlt hrest (by omega)
    omega

end Files

/-- With its inputs within the limits mkfs exits with an error or writes an image. -/
theorem mkfs_cases (files : List File) :
    (WithinLimits 2 (nmeta + 1) files → (∃ m, mkfs files = .error (.panic m)) ∨
      ∃ s t, Rooted s ∧ s.freeinode = files.length + 2 ∧ mkfs files = .ok t ∧
        t.freeinode = s.freeinode ∧ t.freeblock = s.freeblock ∧ Finished s t.disk) ∧
    (¬WithinLimits 2 (nmeta + 1) files → ∃ j, mkfs files = .error (.outOfBounds j)) := by
  obtain ⟨s, hs, hrooted, hnumber, hblock⟩ := makeRoot_returns
  obtain ⟨hin, hout⟩ := addFiles_spec files hrooted
  rw [hnumber, hblock] at hin hout
  rw [mkfs, hs, ok_bind]
  constructor
  · intro hlimits
    rcases hin hlimits with ⟨m, hm⟩ | ⟨t, ht, hrooted', hnumber'⟩
    · rw [hm, error_bind]
      exact .inl ⟨m, rfl⟩
    · obtain ⟨u, hu, huino, hublock, hfinished⟩ := finish_returns hrooted'.toInv
      rw [ht, ok_bind]
      exact .inr ⟨t, u, hrooted', by omega, hu, huino, hublock, hfinished⟩
  · intro hlimits
    obtain ⟨j, hj⟩ := hout hlimits
    rw [hj, error_bind]
    exact ⟨j, rfl⟩

/-- mkfs keeps every index within its limits just if its inputs are within them. -/
theorem limits_iff (files : List File) :
    ((∀ j, mkfs files ≠ .error (.outOfBounds j)) ∧
      ∀ t, mkfs files = .ok t → t.freeinode ≤ ninodes ∧ t.freeblock ≤ fssize) ↔
    WithinLimits 2 (nmeta + 1) files := by
  obtain ⟨hin, hout⟩ := mkfs_cases files
  constructor
  · rintro ⟨hindex, -⟩
    by_contra hlimits
    obtain ⟨j, hj⟩ := hout hlimits
    exact hindex j hj
  · intro hlimits
    rcases hin hlimits with ⟨m, hm⟩ | ⟨s, t, hs, -, ht, hino, hblock, -⟩
    · rw [hm]
      refine ⟨fun j hj => ?_, fun t ht => ?_⟩
      · cases hj
      · cases ht
    · rw [ht]
      refine ⟨fun j hj => ?_, fun u hu => ?_⟩
      · cases hj
      · cases hu
        rw [hino, hblock]
        exact ⟨hs.numbers, hs.fresh.le_size⟩

def emptyFile : File := ⟨[102], some []⟩

theorem emptyFile_accepted {n : ℕ} : ∀ f ∈ List.replicate n emptyFile,
    Accepted f ∧ fileSize f = 0 := by
  intro f hf
  rw [List.eq_of_mem_replicate hf]
  exact ⟨by decide, rfl⟩

/-- The inodes are used up by 198 files. -/
theorem many_files : ∃ j, mkfs (List.replicate 199 emptyFile) = .error (.outOfBounds j) := by
  apply (mkfs_cases _).2
  intro hlimits
  have hlength := List.length_replicate (n := 199) (a := emptyFile)
  have hleft := inodes_left hlimits (by decide) emptyFile_accepted (by rw [hlength]; decide)
  rw [hlength] at hleft
  exact absurd hleft (by decide)

/-- Below the size of each inode there is a block for every index. -/
def Complete (d : Disk) : Prop :=
  ∀ i < ninodes, ∀ bn < ((dinode sb.toSuperblock d i).size.toNat + bsize - 1) / bsize,
    slot d (dinode sb.toSuperblock d i) (dataSlot bn) ≠ 0

/-- Reading allocates no block and does not fail. -/
def ReadOnly (d : Disk) : Prop :=
  ∀ i < ninodes, ∀ off n, ∃ data, readi sb.toSuperblock d (load sb.toSuperblock d i) off n =
    .ok (data, d, load sb.toSuperblock d i)

section Completeness

variable {s t : Image} {d : Disk} {files : List File}

theorem readOnly_of_complete (h : Complete d) : ReadOnly d := by
  intro i hi off n
  refine ⟨_, readi_eq ?_ off n⟩
  intro pos hpos
  exact h i hi _ (lt_blocks_iff.mpr ((Nat.div_mul_le_self pos bsize).trans_lt hpos))

theorem toNat_rounded (hs : Rooted s) :
    (rounded s).size.toNat = (s.freeinode * direntSize / bsize + 1) * bsize := by
  have hle := hs.numbers
  change s.freeinode ≤ 200 at hle
  rw [rounded, hs.entries, BitVec.toNat_ofNat]
  apply Nat.mod_eq_of_lt
  change (s.freeinode * 32 / 2048 + 1) * 2048 < 4294967296
  omega

/-- A byte that is read without a change has its block. -/
theorem readi_filled {ip : Inode} {off : Word} {data : Option (List Byte)}
    (hs : Intact sb d ip) (hoff : off.toNat < ip.size.toNat)
    (h : readi sb.toSuperblock d ip off 1 = .ok (data, d, ip)) :
    slot d ip.toDinode (dataSlot (off.toNat / bsize)) ≠ 0 := by
  have hlt := ip.size.isLt
  have hone : (1 : Word).toNat = 1 := rfl
  have hadd : (off + 1).toNat = off.toNat + 1 := toNat_add (by omega)
  have hin : ¬(off > ip.size ∨ off + 1 < off) := by
    rw [gt_iff_lt, BitVec.lt_def, BitVec.lt_def, hadd]
    omega
  have hend : ¬off + 1 > ip.size := by
    rw [gt_iff_lt, BitVec.lt_def, hadd]
    omega
  have hmin : min 1 (bsize - off.toNat % bsize) = 1 := by
    have hmod : off.toNat % bsize < bsize := Nat.mod_lt _ (by decide)
    omega
  rw [readi, if_neg hin] at h
  simp only [if_neg hend, hone] at h
  obtain ⟨⟨out, e, iq⟩, hr, h⟩ := bind_eq_ok.mp h
  cases h
  rw [readBlocks, if_neg Nat.one_ne_zero] at hr
  obtain ⟨⟨a, e, iq⟩, hb, hr⟩ := bind_eq_ok.mp hr
  simp only [hmin, Nat.sub_self] at hr
  rw [readBlocks, if_pos rfl, ok_bind] at hr
  cases hr
  obtain ⟨-, hfills, -⟩ := bmap_spec hs hb
  exact hfills.filled _ (mem_touched_dataSlot _)

theorem rounded_filled (hs : Rooted s) (hd : Finished s d) (bn : ℕ) :
    slot d (dinode sb.toSuperblock d rootino) (dataSlot bn) ≠ 0 ↔
      bn * bsize < s.freeinode * direntSize := by
  have hroot : rootino < ninodes := by decide
  have hslot : ∀ k, slot d (rounded s) k = slot (withBitmap s) (inode s rootino) k :=
    fun k => (slot_congr rfl fun _ => rfl).trans (hd.slots rootino hroot k)
  have htype := (hs.allocated rootino hroot).mpr ⟨le_refl _, hs.made⟩
  rw [hd.root, hslot, hs.filled rootino hroot htype, dataSlot_mem_span_zero, hs.entries]

theorem last_block_iff (z : ℕ) : z / bsize * bsize < z ↔ z % bsize ≠ 0 := by
  have hsplit := Nat.div_add_mod z bsize
  rw [Nat.mul_comm] at hsplit
  omega

/-- The root directory is rounded up to one block more than it has when its blocks are full. -/
theorem complete_iff (hs : Rooted s) (hd : Finished s d) :
    Complete d ↔ s.freeinode * direntSize % bsize ≠ 0 := by
  have hroot : rootino < ninodes := by decide
  have hsize : (dinode sb.toSuperblock d rootino).size.toNat =
      (s.freeinode * direntSize / bsize + 1) * bsize := by rw [hd.root, toNat_rounded hs]
  rw [← last_block_iff]
  constructor
  · intro h
    refine (rounded_filled hs hd _).mp (h rootino hroot _ (lt_blocks_iff.mpr ?_))
    rw [hsize]
    exact Nat.mul_lt_mul_of_pos_right (Nat.lt_succ_self _) (by decide)
  · intro h i hi bn hbn
    rw [lt_blocks_iff] at hbn
    by_cases hne : i = rootino
    · subst hne
      rw [hsize] at hbn
      have hle : bn ≤ s.freeinode * direntSize / bsize :=
        Nat.lt_succ_iff.mp (Nat.lt_of_mul_lt_mul_right hbn)
      exact (rounded_filled hs hd bn).mpr ((Nat.mul_le_mul_right bsize hle).trans_lt h)
    · rw [hd.others i hi hne] at hbn ⊢
      rw [hd.slots i hi]
      exact filled_below hs.toInv hi hbn

theorem readOnly_iff (hs : Rooted s) (hd : Finished s d) :
    ReadOnly d ↔ s.freeinode * direntSize % bsize ≠ 0 := by
  have hroot : rootino < ninodes := by decide
  constructor
  · intro h
    rw [← last_block_iff, ← rounded_filled hs hd]
    have hpos := toNat_rounded hs
    have hle := hs.numbers
    obtain ⟨z, hz⟩ : ∃ z, z = s.freeinode * direntSize := ⟨_, rfl⟩
    rw [← hz] at hpos ⊢
    have hoff : (BitVec.ofNat 32 (z / bsize * bsize)).toNat = z / bsize * bsize := by
      rw [BitVec.toNat_ofNat]
      apply Nat.mod_eq_of_lt
      change s.freeinode ≤ 200 at hle
      change z = s.freeinode * 32 at hz
      change z / 2048 * 2048 < 4294967296
      omega
    obtain ⟨data, hread⟩ := h rootino hroot (BitVec.ofNat 32 (z / bsize * bsize)) 1
    have hs' : Intact sb d (load sb.toSuperblock d rootino) := by
      refine ⟨hroot, ?_, ?_⟩
      · change (dinode sb.toSuperblock d rootino).type ≠ 0
        rw [hd.root]
        exact (hs.allocated rootino hroot).mpr ⟨le_refl _, hs.made⟩
      · rw [inodes_load]
        exact hd.sound
    have hin : (BitVec.ofNat 32 (z / bsize * bsize)).toNat <
        (load sb.toSuperblock d rootino).size.toNat := by
      change _ < (dinode sb.toSuperblock d rootino).size.toNat
      rw [hoff, hd.root, hpos]
      exact Nat.mul_lt_mul_of_pos_right (Nat.lt_succ_self _) (by decide)
    have hfilled := readi_filled hs' hin hread
    rwa [hoff, Nat.mul_div_cancel _ (by decide : 0 < bsize)] at hfilled
  · exact fun h => readOnly_of_complete ((complete_iff hs hd).mpr h)

end Completeness

/-- Every index below the size of an inode has its block, and reading leaves the image alone, just
if the entries do not fill the last block of the root directory. -/
theorem image_complete_iff (files : List File) (t : Image) (h : mkfs files = .ok t) :
    (Complete t.disk ↔ (files.length + 2) * direntSize % bsize ≠ 0) ∧
      (ReadOnly t.disk ↔ (files.length + 2) * direntSize % bsize ≠ 0) := by
  obtain ⟨hin, hout⟩ := mkfs_cases files
  by_cases hlimits : WithinLimits 2 (nmeta + 1) files
  · rcases hin hlimits with ⟨m, hm⟩ | ⟨s, u, hs, hnumber, hu, -, -, hd⟩
    · rw [h] at hm
      cases hm
    · obtain rfl : t = u := Except.ok.inj (h.symm.trans hu)
      rw [← hnumber]
      exact ⟨complete_iff hs hd, readOnly_iff hs hd⟩
  · obtain ⟨j, hj⟩ := hout hlimits
    rw [h] at hj
    cases hj

/-- With inodes and blocks for all of its files mkfs writes an image. -/
theorem mkfs_returns (files : List File)
    (hfiles : ∀ f ∈ files, Accepted f ∧ fileSize f ≤ maxfile * bsize)
    (hi : 2 + files.length ≤ ninodes)
    (hb : nmeta + 1 + (files.map fun f => blocksFor (fileSize f) + 1).sum ≤ fssize) :
    ∃ s t, Rooted s ∧ s.freeinode = 2 + files.length ∧ mkfs files = .ok t ∧
      Finished s t.disk := by
  obtain ⟨s, hs, hrooted, hnumber, hblock⟩ := makeRoot_returns
  rw [← hblock] at hb
  rw [← hnumber] at hi
  obtain ⟨t, ht, hrooted', hnumber'⟩ := addFiles_returns hrooted hfiles hi hb
  obtain ⟨u, hu, -, -, hd⟩ := finish_returns hrooted'.toInv
  refine ⟨t, u, hrooted', by rw [hnumber', hnumber], ?_, hd⟩
  rw [mkfs, hs, ok_bind, ht, ok_bind, hu]

theorem emptyFiles_return {n : ℕ} (hi : 2 + n ≤ ninodes) :
    ∃ s t, Rooted s ∧ s.freeinode = 2 + n ∧ mkfs (List.replicate n emptyFile) = .ok t ∧
      Finished s t.disk := by
  have hlength := List.length_replicate (n := n) (a := emptyFile)
  have hsum : ((List.replicate n emptyFile).map fun f => blocksFor (fileSize f) + 1).sum = n := by
    rw [List.map_replicate, List.sum_replicate]
    exact Nat.mul_one n
  have h := mkfs_returns (List.replicate n emptyFile)
    (fun f hf => ⟨(emptyFile_accepted f hf).1, (emptyFile_accepted f hf).2.trans_le
      (Nat.zero_le _)⟩) (by rw [hlength]; exact hi)
    (by
      change 2 + n ≤ 200 at hi
      rw [hsum]
      change 40 + 1 + n ≤ 1000
      omega)
  rwa [hlength] at h

/-- A file whose content comes in two pieces, behind as many empty ones as make the root directory
two blocks long. -/
def manyFiles : List File := List.replicate 69 emptyFile ++ [⟨[95, 115, 104], some [[1, 2], [3]]⟩]

theorem manyFiles_return : ∃ t, mkfs manyFiles = .ok t := by
  obtain ⟨-, t, -, -, ht, -⟩ := mkfs_returns manyFiles (by
    intro f hf
    rcases List.mem_append.mp hf with hf | hf
    · obtain ⟨haccepted, hsize⟩ := emptyFile_accepted f hf
      exact ⟨haccepted, hsize.trans_le (Nat.zero_le _)⟩
    · rw [List.mem_singleton.mp hf]
      decide) (by decide) (by decide)
  exact ⟨t, ht⟩

theorem image_complete_two_blocks :
    ∃ t, mkfs manyFiles = .ok t ∧ Complete t.disk ∧ ReadOnly t.disk := by
  obtain ⟨t, ht⟩ := manyFiles_return
  obtain ⟨hcomplete, hreadOnly⟩ := image_complete_iff manyFiles t ht
  exact ⟨t, ht, hcomplete.mpr (by decide), hreadOnly.mpr (by decide)⟩

/-- 64 entries fill a block. -/
theorem full_root : ∃ t, mkfs (List.replicate 62 emptyFile) = .ok t ∧ ¬Complete t.disk ∧
    ¬ReadOnly t.disk := by
  obtain ⟨s, t, hs, hnumber, ht, hd⟩ := emptyFiles_return (n := 62) (by decide)
  refine ⟨t, ht, ?_, ?_⟩
  · rw [complete_iff hs hd, hnumber]
    decide
  · rw [readOnly_iff hs hd, hnumber]
    decide

end MkfsFiles
