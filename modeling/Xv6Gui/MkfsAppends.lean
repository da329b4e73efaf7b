import Xv6Gui.MkfsImage

/-!
# Appending to the files of an image

iappend gives a file the blocks that its new bytes need. With blocks for all of them the image
reads as what was appended to each file, in the order in which it was appended, and no block is
in two files.
-/
namespace MkfsAppends

open WordMemory DiskBlocks BlockMaps GuardedRuns Ledgers BlockOwnership BlockMapping FileBlocks
  FileWrites MkfsImage
open WindowManagerState (Fault)

/-- The blocks of a file of `n` bytes, its indirect block included. -/
def blocksFor (n : ℕ) : ℕ :=
  (n + bsize - 1) / bsize + if ndirect < (n + bsize - 1) / bsize then 1 else 0

section Counts

variable {m n bn k q : ℕ}

theorem lt_blocks_iff : bn < (n + bsize - 1) / bsize ↔ bn * bsize < n := by
  have hpos : 0 < bsize := by decide
  rw [Nat.lt_iff_add_one_le, Nat.le_div_iff_mul_le hpos, Nat.add_mul]
  omega

theorem mem_span_zero : k ∈ span 0 n ↔ ∃ bn < (n + bsize - 1) / bsize, k ∈ touched bn := by
  rw [mem_span]
  constructor
  · rintro ⟨i, hi, hk⟩
    rw [Nat.zero_add] at hk
    refine ⟨i / bsize, lt_blocks_iff.mpr ?_, hk⟩
    exact (Nat.div_mul_le_self i bsize).trans_lt hi
  · rintro ⟨bn, hbn, hk⟩
    refine ⟨bn * bsize, lt_blocks_iff.mp hbn, ?_⟩
    rwa [Nat.zero_add, Nat.mul_div_cancel _ (by decide)]

theorem mem_touched : k ∈ touched bn ↔ k = dataSlot bn ∨ k = ndirect ∧ ndirect ≤ bn := by
  unfold touched dataSlot
  by_cases hbn : bn < ndirect
  · rw [if_pos hbn, if_pos hbn, Finset.mem_singleton]
    constructor
    · exact .inl
    · rintro (hk | ⟨-, hle⟩)
      · exact hk
      · omega
  · rw [if_neg hbn, if_neg hbn, Finset.mem_insert, Finset.mem_singleton]
    constructor
    · rintro (hk | hk)
      · exact .inr ⟨hk, not_lt.mp hbn⟩
      · exact .inl hk
    · rintro (hk | ⟨hk, -⟩)
      · exact .inr hk
      · exact .inl hk

theorem span_zero_add (m n : ℕ) : span 0 (m + n) = span 0 m ∪ span m n := by
  rw [span_add, Nat.zero_add]

theorem dataSlot_mem_span_zero : dataSlot bn ∈ span 0 n ↔ bn * bsize < n := by
  rw [mem_span_zero]
  constructor
  · rintro ⟨bn', hbn', hk⟩
    rcases mem_touched.mp hk with hk | ⟨hk, -⟩
    · rw [dataSlot_inj.mp hk]
      exact lt_blocks_iff.mp hbn'
    · exact absurd hk (dataSlot_ne bn)
  · exact fun h => ⟨bn, lt_blocks_iff.mpr h, mem_touched_dataSlot bn⟩

/-- The blocks of a file that is filled up to its size. -/
theorem card_span (n : ℕ) : (span 0 n).card = blocksFor n := by
  unfold blocksFor
  have hspan : span 0 n = (Finset.range ((n + bsize - 1) / bsize)).image dataSlot ∪
      if ndirect < (n + bsize - 1) / bsize then {ndirect} else ∅ := by
    ext k
    rw [mem_span_zero, Finset.mem_union, Finset.mem_image]
    constructor
    · rintro ⟨bn, hbn, hk⟩
      rcases mem_touched.mp hk with rfl | ⟨rfl, hle⟩
      · exact .inl ⟨bn, Finset.mem_range.mpr hbn, rfl⟩
      · right
        rw [if_pos (hle.trans_lt hbn)]
        exact Finset.mem_singleton_self _
    · rintro (⟨bn, hbn, rfl⟩ | hk)
      · exact ⟨bn, Finset.mem_range.mp hbn, mem_touched_dataSlot bn⟩
      · split at hk
        · next hlt =>
          rw [Finset.mem_singleton.mp hk]
          exact ⟨ndirect, hlt, mem_touched.mpr (.inr ⟨rfl, le_refl _⟩)⟩
        · exact absurd hk (Finset.notMem_empty k)
  have hdisjoint : Disjoint ((Finset.range ((n + bsize - 1) / bsize)).image dataSlot)
      (if ndirect < (n + bsize - 1) / bsize then {ndirect} else ∅) := by
    rw [Finset.disjoint_left]
    intro k hk hk'
    obtain ⟨bn, -, rfl⟩ := Finset.mem_image.mp hk
    split at hk'
    · exact dataSlot_ne bn (Finset.mem_singleton.mp hk')
    · exact absurd hk' (Finset.notMem_empty _)
  rw [hspan, Finset.card_union_of_disjoint hdisjoint,
    Finset.card_image_of_injective _ fun _ _ h => dataSlot_inj.mp h, Finset.card_range]
  split
  · rw [Finset.card_singleton]
  · rw [Finset.card_empty]

theorem blocksFor_mono (h : m ≤ n) : blocksFor m ≤ blocksFor n := by
  rw [← card_span, ← card_span]
  apply Finset.card_le_card
  obtain ⟨k, rfl⟩ := Nat.exists_eq_add_of_le h
  rw [span_zero_add]
  exact Finset.subset_union_left

end Counts

/-- Inode `i` of an image. -/
def inode (s : Image) (i : ℕ) : Dinode := dinode sb.toSuperblock (withBitmap s) i

/-- The inodes from 1 on have been handed out, and each has the blocks that its size asks for. -/
structure Inv (s : Image) : Prop where
  fresh : Fresh s
  first : 1 ≤ s.freeinode
  numbers : s.freeinode ≤ ninodes
  wellMapped : WellMapped sb (withBitmap s)
  allocated : ∀ i < ninodes, (inode s i).type ≠ 0 ↔ 1 ≤ i ∧ i < s.freeinode
  unused : ∀ i < ninodes, (inode s i).type = 0 → inode s i = ⟨0, 0, 0, 0, 0, fun _ => 0⟩
  filled : ∀ i < ninodes, (inode s i).type ≠ 0 →
    ∀ k, slot (withBitmap s) (inode s i) k ≠ 0 ↔ k ∈ span 0 (inode s i).size.toNat
  fits : ∀ i < ninodes, (inode s i).size.toNat ≤ maxfile * bsize

/-- Bytes have been appended to inode `i`. -/
structure Appended (s : Image) (i : ℕ) (data : List Byte) (t : Image) : Prop where
  inv : Inv t
  freeinode : t.freeinode = s.freeinode
  freeblock : t.freeblock = s.freeblock +
    (blocksFor ((inode s i).size.toNat + data.length) - blocksFor (inode s i).size.toNat)
  type : (inode t i).type = (inode s i).type
  size : (inode t i).size.toNat = (inode s i).size.toNat + data.length
  contents : contents (withBitmap t) (inode t i) = contents (withBitmap s) (inode s i) ++ data
  others : ∀ j < ninodes, j ≠ i → inode t j = inode s j ∧
    FileWrites.contents (withBitmap t) (inode t j) = FileWrites.contents (withBitmap s) (inode s j)

/-- The next inode has been handed out, with no blocks. -/
structure Allocated (s : Image) (type : BitVec 16) (t : Image) : Prop where
  inv : Inv t
  freeinode : t.freeinode = s.freeinode + 1
  freeblock : t.freeblock = s.freeblock
  inode : inode t s.freeinode = ⟨type, 0, 0, 1, 0, fun _ => 0⟩
  others : ∀ j < ninodes, j ≠ s.freeinode → MkfsAppends.inode t j = MkfsAppends.inode s j ∧
    contents (withBitmap t) (MkfsAppends.inode t j) =
      contents (withBitmap s) (MkfsAppends.inode s j)

/-- The blocks that a file of `size` bytes gets for `n` more of them, up to MAXFILE. -/
def growth (size n : ℕ) : ℕ := blocksFor (min (size + n) (maxfile * bsize)) - blocksFor size

theorem growth_mono {size m n : ℕ} (h : m ≤ n) : growth size m ≤ growth size n := by
  apply Nat.sub_le_sub_right
  apply blocksFor_mono
  exact min_le_min (Nat.add_le_add_left h size) (le_refl _)

/-- How appending ends. -/
inductive Outcome (s : Image) (i : ℕ) (data : List Byte) (r : Except Fault Image) : Prop where
  | appended (t : Image) (hr : r = .ok t) (ht : Appended s i data t)
      (hfree : s.freeblock + growth (inode s i).size.toNat data.length ≤ fssize)
      (hfits : (inode s i).size.toNat + data.length ≤ maxfile * bsize)
  | full (hr : r = .error (.panic "read"))
      (hfull : fssize < s.freeblock + growth (inode s i).size.toNat data.length)
  | tooLong (j : ℕ) (hr : r = .error (.outOfBounds j))
      (hfree : s.freeblock + growth (inode s i).size.toNat data.length ≤ fssize)
      (hlong : maxfile * bsize < (inode s i).size.toNat + data.length)

section Inodes

variable {s t u : Image} {i j n : ℕ} {p : Memory} {v : Dinode}

theorem iblock_lt_bmapstart (hi : i < ninodes) : sb.iblock i < sb.bmapstart := iblock_lt hi

theorem inode_eq (hi : i < ninodes) : inode s i = dinode sb.toSuperblock s.disk i :=
  dinode_congr (Function.update_of_ne (iblock_lt_bmapstart hi).ne _ _)

theorem rinode_eq (hi : i < ninodes) : rinode s i = .ok (inode s i) := by
  have hread : sb.iblock i < fssize := (iblock_lt_bmapstart hi).trans (by decide)
  rw [rinode, rsect_eq hread, ok_bind, inode_eq hi]
  rfl

/-- An inode is written back as the kernel does it. -/
theorem winode_eq (hi : i < ninodes) (v : Dinode) : ∃ t, winode s i v = .ok t ∧
    t.freeinode = s.freeinode ∧ t.freeblock = s.freeblock ∧
    withBitmap t = iupdate sb.toSuperblock (withBitmap s) ⟨v, i⟩ ∧
    ∀ b, nmeta ≤ b → t.disk b = s.disk b := by
  have hblock := iblock_lt_bmapstart hi
  have hread : sb.iblock i < fssize := hblock.trans (by decide)
  refine ⟨wsect s (sb.iblock i) (storeWords (s.disk (sb.iblock i)) (64 * (i % ipb)) v.words),
    by rw [winode, rsect_eq hread, ok_bind], rfl, rfl, ?_, ?_⟩
  · have hdata : withBitmap s (sb.iblock i) = s.disk (sb.iblock i) :=
      Function.update_of_ne hblock.ne _ _
    rw [iupdate, putDinode]
    simp only [hdata]
    exact Function.update_comm hblock.ne _ _ _
  · intro b hb
    have hne : b ≠ sb.iblock i := by
      change 40 ≤ b at hb
      change sb.iblock i < 39 at hblock
      omega
    exact Function.update_of_ne hne _ _

/-- What the loop of `iappend` asks for and what it gets, in blocks. -/
theorem missing_blocks (h : Inv s) (hi : i < ninodes) (htype : (inode s i).type ≠ 0) (n : ℕ) :
    (missing (withBitmap s) (inode s i) (span (inode s i).size.toNat n)).card =
      blocksFor ((inode s i).size.toNat + n) - blocksFor (inode s i).size.toNat := by
  have hsplit := span_zero_add (inode s i).size.toNat n
  have hmissing : missing (withBitmap s) (inode s i) (span (inode s i).size.toNat n) =
      span 0 ((inode s i).size.toNat + n) \ span 0 (inode s i).size.toNat := by
    ext k
    rw [missing, Finset.mem_filter, Finset.mem_sdiff, hsplit, Finset.mem_union,
      ← h.filled i hi htype k, ne_eq, not_not]
    constructor
    · rintro ⟨hk, hzero⟩
      exact ⟨.inr hk, hzero⟩
    · rintro ⟨hk, hzero⟩
      exact ⟨hk.resolve_left fun h => h hzero, hzero⟩
  have hsub : span 0 (inode s i).size.toNat ⊆ span 0 ((inode s i).size.toNat + n) := by
    rw [hsplit]
    exact Finset.subset_union_left
  rw [hmissing, Finset.card_sdiff_of_subset hsub, card_span, card_span]

/-- The loop of `iappend` against that of the kernel. -/
theorem appendBlocks_cases (h : Inv s) (hi : i < ninodes) (htype : (inode s i).type ≠ 0)
    (p : Memory) (n : ℕ) :
    Ends s.freeinode (writeBlocks sb.toSuperblock (withBitmap s)
        (load sb.toSuperblock (withBitmap s) i) p (inode s i).size.toNat n)
      (appendBlocks s (inode s i) (inode s i).size.toNat p n) := by
  have hs := h.wellMapped.intact hi htype
  refine appendBlocks_ends h.fresh hs ?_
  intro hoff
  have hslot := (h.filled i hi htype ndirect).mpr (by
    rw [mem_span_zero]
    refine ⟨ndirect, lt_blocks_iff.mpr hoff, ?_⟩
    exact mem_touched.mpr (.inr ⟨rfl, le_refl _⟩))
  rw [slot_indirect] at hslot
  exact hslot

theorem splice_end (data bytes : List Byte) : splice data data.length bytes = data ++ bytes := by
  rw [splice, List.take_length, List.drop_eq_nil_of_le (Nat.le_add_right _ _), List.append_nil]

theorem contents_empty (d : Disk) (hv : v.size = 0) : contents d v = [] := by
  rw [contents, hv]
  rfl

/-- A file whose inode is as before; one that is not in use is empty. -/
theorem contents_kept (h : Inv s) (hj : j < ninodes) (hsame : inode t j = inode s j)
    (hused : (inode s j).type ≠ 0 →
      contents (withBitmap t) (inode s j) = contents (withBitmap s) (inode s j)) :
    contents (withBitmap t) (inode t j) = contents (withBitmap s) (inode s j) := by
  rw [hsame]
  by_cases hzero : (inode s j).type = 0
  · have hempty : (inode s j).size = 0 := by rw [h.unused j hj hzero]
    rw [contents_empty _ hempty, contents_empty _ hempty]
  · exact hused hzero

theorem map_bytes (data : List Byte) : (List.range data.length).map (bytes data) = data := by
  apply List.ext_getElem
  · rw [List.length_map, List.length_range]
  · intro k hk hk'
    rw [List.getElem_map, List.getElem_range, bytes, List.getD_eq_getElem?_getD,
      List.getElem?_eq_getElem hk', Option.getD_some]

/-- The invariant after a write at the end of a file. -/
theorem inv_written {iq : Inode} (h : Inv s) (hi : i < ninodes) (htype : (inode s i).type ≠ 0)
    (hfits : (inode s i).size.toNat + n ≤ maxfile * bsize) (ht : Fresh t)
    (hn : t.freeinode = s.freeinode) (hothers : ∀ j < ninodes, j ≠ i → inode t j = inode s j)
    (hw : Written sb (withBitmap s) i p (inode s i).size.toNat n (withBitmap t) iq) : Inv t := by
  have hself : inode t i = iq.toDinode := (congrArg Inode.toDinode hw.loaded).symm
  have hkind : (inode t i).type = (inode s i).type := by
    rw [hself]
    exact hw.type
  have hsize : (inode t i).size.toNat = (inode s i).size.toNat + n := by
    rw [hself]
    exact hw.size.trans (max_eq_right (Nat.le_add_right _ _))
  constructor
  case fresh => exact ht
  case first => exact hn ▸ h.first
  case numbers => exact hn ▸ h.numbers
  case wellMapped => exact hw.wellMapped
  case allocated =>
    intro j hj
    by_cases hne : j = i
    · rw [hne, hkind, hn]
      exact h.allocated i hi
    · rw [hothers j hj hne, hn]
      exact h.allocated j hj
  case unused =>
    intro j hj hzero
    by_cases hne : j = i
    · rw [hne, hkind] at hzero
      exact absurd hzero htype
    · rw [hothers j hj hne] at hzero ⊢
      exact h.unused j hj hzero
  case filled =>
    intro j hj hused k
    by_cases hne : j = i
    · rw [hne, hsize, span_zero_add, Finset.mem_union, ← h.filled i hi htype k, hself, hw.slots]
      exact or_comm
    · rw [hothers j hj hne] at hused ⊢
      rw [inode, hw.other_slots j hj hne hused]
      exact h.filled j hj hused k
  case fits =>
    intro j hj
    by_cases hne : j = i
    · rw [hne, hsize]
      exact hfits
    · rw [hothers j hj hne]
      exact h.fits j hj

/-- With room for the bytes and blocks for what is missing, `iappend` appends. -/
theorem iappend_appends (h : Inv s) (hi : i < ninodes) (htype : (inode s i).type ≠ 0)
    {data : List Byte} (hdata : (List.range n).map p = data)
    (hfits : (inode s i).size.toNat + data.length ≤ maxfile * bsize)
    (hfree : s.freeblock + (blocksFor ((inode s i).size.toNat + data.length) -
      blocksFor (inode s i).size.toNat) ≤ fssize) :
    ∃ t, iappend s i p n = .ok t ∧ Appended s i data t := by
  obtain rfl : data.length = n := by rw [← hdata, List.length_map, List.length_range]
  have hs := h.wellMapped.intact hi htype
  have hmissing := missing_blocks h hi htype data.length
  have hblocks := freeBlocks_withBitmap h.fresh
  have hlimit : maxfile * bsize = 1073152 := rfl
  obtain ⟨d', ip', hw⟩ : ∃ d' ip', writeBlocks sb.toSuperblock (withBitmap s)
      (load sb.toSuperblock (withBitmap s) i) p (inode s i).size.toNat data.length =
        .ok (d', ip') := by
    apply writeBlocks_returns hs hfits
    change (missing (withBitmap s) (inode s i) _).card ≤ _
    rw [hmissing, hblocks]
    omega
  rcases appendBlocks_cases h hi htype p data.length with ⟨t, iq, hk, hm, ht, hn⟩ |
    ⟨hk, -⟩ | ⟨hk, -⟩
  rotate_left
  · rw [hw] at hk
    cases hk
  · rw [hw] at hk
    cases hk
  obtain ⟨hfills, -⟩ := writeBlocks_spec hs hk
  have hinum : iq.inum = i := by rw [hfills.fields]; rfl
  have hsize : (BitVec.ofNat 32 ((inode s i).size.toNat + data.length)).toNat =
      (inode s i).size.toNat + data.length := by
    rw [BitVec.toNat_ofNat]
    exact Nat.mod_eq_of_lt (by omega)
  have hwritten := written_beyond h.wellMapped hi htype hsize (Nat.le_add_right _ _) (le_refl _) hk
  obtain ⟨u, hu, huino, hublock, hudisk, hudata⟩ := winode_eq (s := t) hi
    { iq.toDinode with size := BitVec.ofNat 32 ((inode s i).size.toNat + data.length) }
  have hdisk : withBitmap u = iupdate sb.toSuperblock (withBitmap t)
      { iq with size := BitVec.ofNat 32 ((inode s i).size.toNat + data.length) } := by
    rw [hudisk, ← hinum]
  rw [← hdisk] at hwritten
  have hself : inode u i = { iq.toDinode with
      size := BitVec.ofNat 32 ((inode s i).size.toNat + data.length) } :=
    (congrArg Inode.toDinode hwritten.loaded).symm
  have hothers : ∀ j < ninodes, j ≠ i → inode u j = inode s j := by
    intro j hj hne
    rw [inode, hdisk, dinode_iupdate, inodes_of_ne _ _ (hinum ▸ hne)]
    exact dinode_of_inode_blocks hfills.inode_blocks hj
  have hcost := hfills.cost
  change _ + (missing (withBitmap s) (inode s i) _).card = _ at hcost
  rw [hmissing, hblocks, freeBlocks_withBitmap ht] at hcost
  have hle := ht.le_size
  have hle' := h.fresh.le_size
  refine ⟨u, ?_, ?_⟩
  · rw [iappend, rinode_eq hi, ok_bind, hm, ok_bind]
    exact hu
  have hsize' : (inode u i).size.toNat = (inode s i).size.toNat + data.length := by
    rw [hself, hsize]
  constructor
  case inv =>
    exact inv_written h hi htype hfits (ht.of_data hublock hudata) (huino.trans hn) hothers hwritten
  case freeinode => exact huino.trans hn
  case freeblock => omega
  case type =>
    rw [hself]
    exact hwritten.type
  case size => exact hsize'
  case contents =>
    rw [hself]
    refine hwritten.contents.trans ?_
    have hlen := length_contents (withBitmap s) (inode s i)
    rw [← hlen, hdata]
    exact splice_end _ _
  case others =>
    intro j hj hne
    refine ⟨hothers j hj hne, contents_kept h hj (hothers j hj hne) ?_⟩
    exact fun hused => (hwritten.others j hj hne hused).2

/-- The loop of the kernel's `writei` for bytes that there are no blocks for. -/
theorem writeBlocks_full (h : Inv s) (hi : i < ninodes) (htype : (inode s i).type ≠ 0)
    (p : Memory) (hfits : (inode s i).size.toNat + n ≤ maxfile * bsize)
    (hfull : fssize < s.freeblock + (blocksFor ((inode s i).size.toNat + n) -
      blocksFor (inode s i).size.toNat)) :
    writeBlocks sb.toSuperblock (withBitmap s) (load sb.toSuperblock (withBitmap s) i) p
      (inode s i).size.toNat n = .error (.panic "balloc: out of blocks") := by
  have hs := h.wellMapped.intact hi htype
  cases hw : writeBlocks sb.toSuperblock (withBitmap s) (load sb.toSuperblock (withBitmap s) i) p
      (inode s i).size.toNat n with
  | error e => rw [writeBlocks_error hfits hw]
  | ok r =>
    obtain ⟨hfills, -⟩ := writeBlocks_spec hs hw
    have hcost := hfills.cost
    change _ + (missing (withBitmap s) (inode s i) _).card = _ at hcost
    rw [missing_blocks h hi htype n, freeBlocks_withBitmap h.fresh] at hcost
    have hle := h.fresh.le_size
    omega

/-- Bytes that no file has room for are written up to MAXFILE first. -/
theorem writeBlocks_long (h : Inv s) (hi : i < ninodes) (p : Memory)
    (hlong : maxfile * bsize < (inode s i).size.toNat + n) :
    writeBlocks sb.toSuperblock (withBitmap s) (load sb.toSuperblock (withBitmap s) i) p
        (inode s i).size.toNat n =
      writeBlocks sb.toSuperblock (withBitmap s) (load sb.toSuperblock (withBitmap s) i) p
          (inode s i).size.toNat (maxfile * bsize - (inode s i).size.toNat) >>= fun _ =>
        .error (.panic "bmap: out of range") := by
  have hfits := h.fits i hi
  have hlimit : maxfile * bsize = 1073152 := rfl
  obtain ⟨k, hk⟩ : ∃ k, n = maxfile * bsize - (inode s i).size.toNat + (k + 1) :=
    ⟨n - (maxfile * bsize - (inode s i).size.toNat) - 1, by omega⟩
  have hend : (inode s i).size.toNat + (maxfile * bsize - (inode s i).size.toNat) =
      maxfile * bsize := Nat.add_sub_of_le hfits
  rw [hk, writeBlocks_append (by rw [hend]; exact Nat.mul_mod_left _ _), hend]
  congr 1
  funext r
  exact writeBlocks_beyond (le_refl _) (Nat.succ_ne_zero k)

/-- How `iappend` ends: it appends, or there is no block left for what fits into the file, or the
file gets too long. -/
theorem iappend_ends (h : Inv s) (hi : i < ninodes) (htype : (inode s i).type ≠ 0)
    {data : List Byte} (hdata : (List.range n).map p = data) :
    Outcome s i data (iappend s i p n) := by
  obtain rfl : data.length = n := by rw [← hdata, List.length_map, List.length_range]
  have hends := appendBlocks_cases h hi htype p data.length
  have happend : iappend s i p data.length =
      appendBlocks s (inode s i) (inode s i).size.toNat p data.length >>= fun r =>
        winode r.1 i { r.2 with
          size := BitVec.ofNat 32 ((inode s i).size.toNat + data.length) } := by
    rw [iappend, rinode_eq hi, ok_bind]
  have hsum : (inode s i).size.toNat + (maxfile * bsize - (inode s i).size.toNat) =
      maxfile * bsize := Nat.add_sub_of_le (h.fits i hi)
  by_cases hfull : fssize < s.freeblock + growth (inode s i).size.toNat data.length
  · refine .full ?_ hfull
    have hkernel : writeBlocks sb.toSuperblock (withBitmap s)
        (load sb.toSuperblock (withBitmap s) i) p (inode s i).size.toNat data.length =
          .error (.panic "balloc: out of blocks") := by
      rw [growth] at hfull
      by_cases hfits : (inode s i).size.toNat + data.length ≤ maxfile * bsize
      · rw [min_eq_left hfits] at hfull
        exact writeBlocks_full h hi htype _ hfits hfull
      · rw [not_le] at hfits
        rw [min_eq_right hfits.le, ← hsum] at hfull
        rw [writeBlocks_long h hi _ hfits, writeBlocks_full h hi htype _ hsum.le hfull, error_bind]
    rcases hends with ⟨t, iq, hk, -⟩ | ⟨-, hm⟩ | ⟨hk, -⟩
    · rw [hkernel] at hk
      cases hk
    · rw [happend, hm, error_bind]
    · rw [hkernel] at hk
      exact absurd hk (panic_ne (by decide))
  · rw [not_lt] at hfull
    by_cases hfits : (inode s i).size.toNat + data.length ≤ maxfile * bsize
    · have hfree := hfull
      rw [growth, min_eq_left hfits] at hfree
      obtain ⟨t, ht, happended⟩ := iappend_appends h hi htype hdata hfits hfree
      exact .appended t ht happended hfull hfits
    · rw [not_le] at hfits
      have hfree := hfull
      rw [growth, min_eq_right hfits.le, ← hsum] at hfree
      have hs := h.wellMapped.intact hi htype
      obtain ⟨d', ip', hw⟩ : ∃ d' ip', writeBlocks sb.toSuperblock (withBitmap s)
          (load sb.toSuperblock (withBitmap s) i) p (inode s i).size.toNat
            (maxfile * bsize - (inode s i).size.toNat) = .ok (d', ip') := by
        apply writeBlocks_returns hs hsum.le
        change (missing (withBitmap s) (inode s i) _).card ≤ _
        rw [missing_blocks h hi htype, freeBlocks_withBitmap h.fresh]
        omega
      have hkernel := writeBlocks_long h hi p hfits
      rw [hw, ok_bind] at hkernel
      rcases hends with ⟨t, iq, hk, -⟩ | ⟨hk, -⟩ | ⟨-, j, hm⟩
      · rw [hkernel] at hk
        cases hk
      · rw [hkernel] at hk
        exact absurd hk (panic_ne (by decide))
      · refine .tooLong j ?_ hfull hfits
        rw [happend, hm, error_bind]

theorem Appended.refl (h : Inv s) (i : ℕ) : Appended s i [] s := by
  refine ⟨h, rfl, ?_, rfl, rfl, (List.append_nil _).symm, fun _ _ _ => ⟨rfl, rfl⟩⟩
  exact (congrArg (s.freeblock + ·) (Nat.sub_self _)).symm

theorem Appended.trans {data data' : List Byte} (h : Appended s i data t)
    (h' : Appended t i data' u) : Appended s i (data ++ data') u := by
  have hsum : (inode s i).size.toNat + (data ++ data').length =
      (inode t i).size.toNat + data'.length := by
    rw [h.size, List.length_append, Nat.add_assoc]
  constructor
  case inv => exact h'.inv
  case freeinode => exact h'.freeinode.trans h.freeinode
  case freeblock =>
    have hle : blocksFor (inode s i).size.toNat ≤ blocksFor (inode t i).size.toNat := by
      rw [h.size]
      exact blocksFor_mono (Nat.le_add_right _ _)
    have hle' := blocksFor_mono (Nat.le_add_right (inode t i).size.toNat data'.length)
    have hfirst := h.freeblock
    rw [← h.size] at hfirst
    rw [hsum, h'.freeblock, hfirst]
    omega
  case type => exact h'.type.trans h.type
  case size => rw [h'.size, hsum]
  case contents => rw [h'.contents, h.contents, List.append_assoc]
  case others =>
    intro j hj hne
    obtain ⟨hinode, hcontents⟩ := h.others j hj hne
    obtain ⟨hinode', hcontents'⟩ := h'.others j hj hne
    exact ⟨hinode'.trans hinode, hcontents'.trans hcontents⟩

/-- Chunks that are appended one after another are as good as one append of them all. -/
theorem appendChunks_ends (h : Inv s) (hi : i < ninodes) (htype : (inode s i).type ≠ 0)
    (chunks : List (List Byte)) :
    Outcome s i chunks.flatten (chunks.foldlM (fun s c => iappend s i (bytes c) c.length) s) := by
  induction chunks generalizing s with
  | nil =>
    have hzero : growth (inode s i).size.toNat 0 = 0 := by
      rw [growth, Nat.add_zero, min_eq_left (h.fits i hi), Nat.sub_self]
    refine .appended s rfl (.refl h i) ?_ (h.fits i hi)
    rw [List.flatten_nil, List.length_nil, hzero]
    exact h.fresh.le_size
  | cons c chunks ih =>
    have hlength : (c :: chunks).flatten.length = c.length + chunks.flatten.length := by
      rw [List.flatten_cons, List.length_append]
    rw [List.foldlM_cons]
    rcases iappend_ends h hi htype (map_bytes c) with ⟨t, hr, ht, hfree, hfits⟩ | ⟨hr, hfull⟩ |
      ⟨j, hr, hfree, hlong⟩
    · rw [hr, ok_bind]
      have hsize : (inode t i).size.toNat + chunks.flatten.length =
          (inode s i).size.toNat + (c :: chunks).flatten.length := by
        rw [ht.size, hlength, Nat.add_assoc]
      have hgrowth : t.freeblock + growth (inode t i).size.toNat chunks.flatten.length =
          s.freeblock + growth (inode s i).size.toNat (c :: chunks).flatten.length := by
        have hle : blocksFor (inode s i).size.toNat ≤ blocksFor (inode t i).size.toNat := by
          rw [ht.size]
          exact blocksFor_mono (Nat.le_add_right _ _)
        have hle' : blocksFor (inode t i).size.toNat ≤ blocksFor (min ((inode s i).size.toNat +
            (c :: chunks).flatten.length) (maxfile * bsize)) := by
          refine blocksFor_mono (le_min ?_ (ht.inv.fits i hi))
          rw [← hsize]
          exact Nat.le_add_right _ _
        have hfirst := ht.freeblock
        rw [← ht.size] at hfirst
        rw [growth, growth, hsize, hfirst]
        omega
      rcases ih ht.inv (by rw [ht.type]; exact htype) with ⟨u, hr', hu, hfree', hfits'⟩ |
        ⟨hr', hfull'⟩ | ⟨j, hr', hfree', hlong'⟩
      · exact .appended u hr' (ht.trans hu) (hgrowth ▸ hfree') (hsize ▸ hfits')
      · exact .full hr' (hgrowth ▸ hfull')
      · exact .tooLong j hr' (hgrowth ▸ hfree') (hsize ▸ hlong')
    · rw [hr, error_bind]
      refine .full rfl (hfull.trans_le (Nat.add_le_add_left (growth_mono ?_) _))
      rw [hlength]
      exact Nat.le_add_right _ _
    · rw [hr, error_bind]
      have hlong' : maxfile * bsize < (inode s i).size.toNat + (c :: chunks).flatten.length := by
        rw [hlength]
        omega
      refine .tooLong j rfl ?_ hlong'
      rw [growth, min_eq_right hlong'.le]
      rwa [growth, min_eq_right hlong.le] at hfree

/-- An inode that was not allocated and has no blocks owns nothing. -/
theorem ledger_blockless {d : Disk} {ip : Inode}
    (hzero : (dinode sb.toSuperblock d ip.inum).type = 0) (haddrs : ip.addrs = fun _ => 0) :
    ledger sb.toSuperblock d (inodes sb.toSuperblock d ip) =
      ledger sb.toSuperblock d (dinode sb.toSuperblock d) := by
  apply Ledger.ext
  · funext key
    obtain ⟨j, k⟩ := key
    by_cases hj : j = ip.inum
    · subst hj
      have hslot : slot d ip.toDinode k = 0 := slot_of_no_addrs haddrs k
      simp only [ledger, inodes_self, hslot, hzero, ne_eq, not_true_eq_false, and_false, false_and,
        if_false]
    · simp only [ledger, inodes_of_ne _ _ hj]
  · rfl

theorem ledger_ialloc (h : Inv s) (hi : s.freeinode < ninodes) (type : BitVec 16) :
    ledger sb.toSuperblock (withBitmap s) (inodes sb.toSuperblock (withBitmap s)
        ⟨⟨type, 0, 0, 1, 0, fun _ => 0⟩, s.freeinode⟩) =
      ledger sb.toSuperblock (withBitmap s) (dinode sb.toSuperblock (withBitmap s)) := by
  refine ledger_blockless ?_ rfl
  by_contra hne
  exact absurd ((h.allocated _ hi).mp hne).2 (lt_irrefl _)

/-- The invariant after the next inode has been written. -/
theorem inv_ialloc {type : BitVec 16} (h : Inv s) (hi : s.freeinode < ninodes) (htype : type ≠ 0)
    (hn : t.freeinode = s.freeinode + 1) (ht : Fresh t)
    (hdisk : withBitmap t = iupdate sb.toSuperblock (withBitmap s)
      ⟨⟨type, 0, 0, 1, 0, fun _ => 0⟩, s.freeinode⟩)
    (hself : inode t s.freeinode = ⟨type, 0, 0, 1, 0, fun _ => 0⟩)
    (hothers : ∀ j < ninodes, j ≠ s.freeinode → inode t j = inode s j)
    (hslots : ∀ j < ninodes, (inode s j).type ≠ 0 → ∀ k,
      slot (withBitmap t) (inode s j) k = slot (withBitmap s) (inode s j) k) : Inv t := by
  constructor
  case fresh => exact ht
  case first =>
    rw [hn]
    exact Nat.succ_le_succ (Nat.zero_le _)
  case numbers =>
    rw [hn]
    exact hi
  case wellMapped =>
    constructor
    case sound =>
      have hledger := ledger_ialloc h hi type
      rw [hdisk, ledger_iupdate hi (by rw [hledger]; exact h.wellMapped.sound), hledger]
      exact h.wellMapped.sound
    case mapped =>
      intro j hj hne pos hpos
      change (inode t j).type ≠ 0 at hne
      change pos < (inode t j).size.toNat at hpos
      change slot (withBitmap t) (inode t j) _ ≠ 0
      by_cases hji : j = s.freeinode
      · rw [hji, hself] at hpos
        exact absurd hpos (Nat.not_lt_zero pos)
      · rw [hothers j hj hji] at hne hpos ⊢
        rw [hslots j hj hne]
        exact h.wellMapped.mapped j hj hne pos hpos
  case allocated =>
    intro j hj
    rw [hn]
    by_cases hji : j = s.freeinode
    · have hfirst := h.first
      rw [hji, hself]
      exact ⟨fun _ => ⟨hfirst, Nat.lt_succ_self _⟩, fun _ => htype⟩
    · rw [hothers j hj hji, h.allocated j hj]
      omega
  case unused =>
    intro j hj hzero
    by_cases hji : j = s.freeinode
    · rw [hji, hself] at hzero
      exact absurd hzero htype
    · rw [hothers j hj hji] at hzero ⊢
      exact h.unused j hj hzero
  case filled =>
    intro j hj hne k
    by_cases hji : j = s.freeinode
    · rw [hji, hself, slot_of_no_addrs rfl]
      exact ⟨fun hk => absurd rfl hk, fun hk => absurd hk (Finset.notMem_empty k)⟩
    · rw [hothers j hj hji] at hne ⊢
      rw [hslots j hj hne]
      exact h.filled j hj hne k
  case fits =>
    intro j hj
    by_cases hji : j = s.freeinode
    · rw [hji, hself]
      exact Nat.zero_le _
    · rw [hothers j hj hji]
      exact h.fits j hj

/-- Inodes are handed out as long as there are any. -/
theorem ialloc_allocates (h : Inv s) (hi : s.freeinode < ninodes) {type : BitVec 16}
    (htype : type ≠ 0) : ∃ t, ialloc s type = .ok (s.freeinode, t) ∧ Allocated s type t := by
  obtain ⟨t, ht, htino, htblock, htdisk, htdata⟩ :=
    winode_eq (s := { s with freeinode := s.freeinode + 1 }) hi ⟨type, 0, 0, 1, 0, fun _ => 0⟩
  change withBitmap t = iupdate sb.toSuperblock (withBitmap s)
    ⟨⟨type, 0, 0, 1, 0, fun _ => 0⟩, s.freeinode⟩ at htdisk
  have hself : inode t s.freeinode = ⟨type, 0, 0, 1, 0, fun _ => 0⟩ := by
    rw [inode, htdisk, dinode_iupdate]
    exact inodes_self _ _ _
  have hothers : ∀ j < ninodes, j ≠ s.freeinode → inode t j = inode s j := by
    intro j hj hne
    rw [inode, htdisk, dinode_iupdate]
    exact inodes_of_ne _ _ hne
  have hdata : ∀ x, sb.nmeta ≤ x → withBitmap t x = withBitmap s x := by
    intro x hx
    rw [htdisk]
    exact iupdate_data hi x hx
  have hlow : ∀ j < ninodes, (inode s j).type ≠ 0 → ∀ k, slot (withBitmap s) (inode s j) k ≠ 0 →
      sb.nmeta ≤ (slot (withBitmap s) (inode s j) k).toNat :=
    fun j hj hne k hk => data_slots h.wellMapped.sound hj hne hk
  refine ⟨t, ?_, ?_⟩
  · rw [ialloc, if_pos hi, ht, ok_bind]
  constructor
  case inv =>
    exact inv_ialloc h hi htype htino (h.fresh.of_data htblock htdata) htdisk hself hothers
      fun j hj hne => slot_of_data_blocks hdata (hlow j hj hne)
  case freeinode => exact htino
  case freeblock => exact htblock
  case inode => exact hself
  case others =>
    intro j hj hne
    refine ⟨hothers j hj hne, contents_kept h hj (hothers j hj hne) ?_⟩
    exact fun hused => contents_congr (byteAt_of_data_blocks hdata (hlow j hj hused))

theorem zeroed_disk {b : ℕ} (hb : b ≠ 1) : zeroed.disk b = fun _ => 0 := by
  simp only [zeroed, Function.update_of_ne hb]

theorem inode_zeroed (hi : i < ninodes) : inode zeroed i = ⟨0, 0, 0, 0, 0, fun _ => 0⟩ := by
  have hne : sb.iblock i ≠ 1 := by
    change i / 32 + 32 ≠ 1
    omega
  have hblock := zeroed_disk hne
  rw [inode_eq hi, dinode, hblock]
  simp only [readDinode, word_zero, Dinode.mk.injEq, and_true]
  exact ⟨rfl, rfl, rfl, rfl⟩

theorem inv_zeroed : Inv zeroed := by
  have hfresh : Fresh zeroed := by
    refine ⟨le_refl _, by decide, ?_⟩
    intro b hb _
    change 40 ≤ b at hb
    exact zeroed_disk (by omega)
  constructor
  case fresh => exact hfresh
  case first => exact le_refl _
  case numbers => decide
  case wellMapped =>
    constructor
    case sound =>
      refine Exact.toSound (exact_of_no_blocks ?_ fun b hb => marked_withBitmap hb)
      intro i hi
      exact congrArg Dinode.addrs (inode_zeroed hi)
    case mapped =>
      intro i hi htype
      exact absurd (congrArg Dinode.type (inode_zeroed hi)) htype
  case allocated =>
    intro i hi
    rw [inode_zeroed hi]
    refine ⟨fun hne => absurd rfl hne, ?_⟩
    rintro ⟨hle, hlt⟩
    exact absurd hlt (not_lt.mpr hle)
  case unused => exact fun i hi _ => inode_zeroed hi
  case filled =>
    intro i hi htype
    exact absurd (congrArg Dinode.type (inode_zeroed hi)) htype
  case fits =>
    intro i hi
    rw [inode_zeroed hi]
    exact Nat.zero_le _

end Inodes

end MkfsAppends
