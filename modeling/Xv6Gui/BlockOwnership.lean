import Xv6Gui.BlockMaps
import Xv6Gui.Ledgers

/-!
# Who owns a block

The slots of an inode are its thirteen addresses and the entries of its indirect block. A slot
holds a block, and the bit map says which blocks are used. bmap fills slots with unused blocks
and keeps what every slot held before.
-/
namespace BlockOwnership

open WordMemory DiskBlocks BlockMaps GuardedRuns Ledgers
open WindowManagerState (Fault)

/-- The address in slot `k`, or 0. -/
def slot (d : Disk) (v : Dinode) (k : ℕ) : Word :=
  if h : k < ndirect + 1 then v.addrs ⟨k, h⟩
  else if v.addrs (Fin.last ndirect) ≠ 0 ∧ k < maxfile + 1 then
    word (d (v.addrs (Fin.last ndirect)).toNat) (4 * (k - (ndirect + 1)))
  else 0

/-- The slot of data block `bn`, with slot 12 left to the indirect block. -/
def dataSlot (bn : ℕ) : ℕ := if bn < ndirect then bn else bn + 1

/-- The inodes as they are with `ip` in memory. -/
def inodes (sb : Superblock) (d : Disk) (ip : Inode) : ℕ → Dinode :=
  Function.update (dinode sb d) ip.inum ip.toDinode

/-- Slots of allocated inodes hold blocks, and the marked blocks are used. -/
def ledger (sb : Superblock) (d : Disk) (ino : ℕ → Dinode) : Ledger (ℕ × ℕ) ℕ where
  held k := if k.1 < sb.ninodes ∧ (ino k.1).type ≠ 0 ∧ slot d (ino k.1) k.2 ≠ 0
    then some (slot d (ino k.1) k.2).toNat else none
  used := {b | b < sb.size ∧ Marked sb d b}

def metadata (sb : Superblock) : Set ℕ := {b | b < sb.nmeta}

/-- An allocated inode in memory, with no block owned twice. -/
structure Intact (sb : Layout) (d : Disk) (ip : Inode) : Prop where
  inum_lt : ip.inum < sb.ninodes
  allocated : ip.type ≠ 0
  sound : Sound (metadata sb.toSuperblock) (ledger sb.toSuperblock d (inodes sb.toSuperblock d ip))

/-- The byte at `pos`; a block that is not there reads as zeros. -/
def byteAt (d : Disk) (v : Dinode) (pos : ℕ) : Byte :=
  let a := slot d v (dataSlot (pos / bsize))
  if a = 0 then 0 else d a.toNat (pos % bsize)

section Searching

variable {sb : Layout} {d : Disk} {b c : ℕ}

theorem div_add_bpb {k bi : ℕ} (h : bi < bpb) : (k * bpb + bi) / bpb = k := by
  rw [Nat.add_comm, Nat.add_mul_div_right _ _ (by decide), Nat.div_eq_of_lt h, Nat.zero_add]

theorem mod_add_bpb {k bi : ℕ} (h : bi < bpb) : (k * bpb + bi) % bpb = bi := by
  rw [Nat.mul_add_mod_self_right, Nat.mod_eq_of_lt h]

/-- The bit that the search tests in its round for the bitmap block of `b`. -/
theorem not_marked_iff (sb : Superblock) (d : Disk) {k bi : ℕ} (h : bi < bpb) :
    (d (sb.bblock (k * bpb)) (bi / 8) &&& mask bi == 0) = true ↔
      ¬Marked sb d (k * bpb + bi) := by
  have hblock : sb.bblock (k * bpb + bi) = sb.bblock (k * bpb) := by
    rw [Superblock.bblock, Superblock.bblock, div_add_bpb h, Nat.mul_div_cancel _ (by decide)]
  rw [Marked, hblock, mod_add_bpb h, Bit, not_not, beq_iff_eq]

theorem findFree_some (h : findFree sb.toSuperblock d = some b) :
    b < sb.size ∧ ¬Marked sb.toSuperblock d b := by
  obtain ⟨k, -, hk⟩ := List.exists_of_findSome?_eq_some h
  obtain ⟨bi, hbi, rfl⟩ := Option.map_eq_some_iff.mp hk
  have hmem := List.mem_of_find?_eq_some hbi
  rw [List.mem_range, lt_min_iff] at hmem
  have hfree := List.find?_some hbi
  exact ⟨by omega, (not_marked_iff _ d hmem.1).mp hfree⟩

theorem findFree_none (h : findFree sb.toSuperblock d = none) (hb : b < sb.size) :
    Marked sb.toSuperblock d b := by
  rw [findFree, List.findSome?_eq_none_iff] at h
  have hround : b / bpb < (sb.size + bpb - 1) / bpb := by
    have hb' : b / bpb + 1 ≤ (sb.size + bpb - 1) / bpb := by
      rw [← Nat.add_div_right b (by decide)]
      apply Nat.div_le_div_right
      omega
    omega
  have hsplit : b / bpb * bpb + b % bpb = b := by rw [Nat.mul_comm]; exact Nat.div_add_mod b bpb
  have hmod : b % bpb < bpb := Nat.mod_lt _ (by decide)
  have hnone := h (b / bpb) (List.mem_range.mpr hround)
  rw [Option.map_eq_none_iff, List.find?_eq_none] at hnone
  have hbit := hnone (b % bpb) (List.mem_range.mpr (lt_min_iff.mpr ⟨hmod, by omega⟩))
  rw [not_marked_iff _ d hmod, hsplit, not_not] at hbit
  exact hbit

theorem balloc_none {sb : Superblock} (h : findFree sb d = none) :
    balloc sb d = .error (.panic "balloc: out of blocks") := by
  rw [balloc, h]

theorem balloc_some {sb : Superblock} (h : findFree sb d = some b) :
    balloc sb d = .ok (b, bzero (markBlock sb d b) b) := by
  rw [balloc, h]

theorem balloc_eq_ok {d' : Disk} (h : balloc sb.toSuperblock d = .ok (b, d')) :
    b < sb.size ∧ ¬Marked sb.toSuperblock d b ∧
      d' = bzero (markBlock sb.toSuperblock d b) b := by
  cases hf : findFree sb.toSuperblock d with
  | none =>
    rw [balloc_none hf] at h
    cases h
  | some c =>
    rw [balloc_some hf] at h
    obtain ⟨hsize, hmarked⟩ := findFree_some hf
    cases h
    exact ⟨hsize, hmarked, rfl⟩

/-- With a free block there is always one to hand out. -/
theorem balloc_returns (hb : b < sb.size) (h : ¬Marked sb.toSuperblock d b) :
    ∃ c d', balloc sb.toSuperblock d = .ok (c, d') := by
  cases hf : findFree sb.toSuperblock d with
  | none => exact absurd (findFree_none hf hb) h
  | some c => exact ⟨c, _, balloc_some hf⟩

/-- Bits of different blocks are different bits. -/
theorem bblock_eq_iff (sb : Superblock) (b c : ℕ) :
    sb.bblock c = sb.bblock b ∧ c % bpb = b % bpb ↔ c = b := by
  constructor
  · rintro ⟨hblock, hmod⟩
    have hdiv : c / bpb = b / bpb := Nat.add_right_cancel hblock
    rw [← Nat.div_add_mod c bpb, ← Nat.div_add_mod b bpb, hdiv, hmod]
  · rintro rfl
    exact ⟨rfl, rfl⟩

theorem marked_markBlock (sb : Superblock) (d : Disk) (b c : ℕ) :
    Marked sb (markBlock sb d b) c ↔ c = b ∨ Marked sb d c := by
  rw [← bblock_eq_iff sb b c, Marked, markBlock, Marked]
  by_cases h : sb.bblock c = sb.bblock b
  · rw [h, Function.update_self, bit_setBit]
    simp only [true_and]
  · rw [Function.update_of_ne h]
    simp only [h, false_and, false_or]

/-- A change of a data block leaves the bit map alone. -/
theorem marked_update {x : ℕ} (hx : sb.nmeta ≤ x) (hc : c < sb.size) (blk : Memory) :
    Marked sb.toSuperblock (Function.update d x blk) c ↔ Marked sb.toSuperblock d c := by
  have hne : sb.bblock c ≠ x := ((bblock_lt_nmeta hc).trans_le hx).ne
  rw [Marked, Function.update_of_ne hne, Marked]

end Searching

section Slots

variable {d d' : Disk} {v : Dinode} {k : ℕ}

theorem slot_addr (d : Disk) (v : Dinode) (k : Fin (ndirect + 1)) : slot d v k = v.addrs k := by
  rw [slot, dif_pos k.isLt]

theorem slot_indirect (d : Disk) (v : Dinode) : slot d v ndirect = v.addrs (Fin.last ndirect) :=
  slot_addr d v (Fin.last ndirect)

theorem slot_entry {j : ℕ} (hj : j < nindirect) (hv : v.addrs (Fin.last ndirect) ≠ 0) :
    slot d v (ndirect + 1 + j) = word (d (v.addrs (Fin.last ndirect)).toNat) (4 * j) := by
  have hnot : ¬ndirect + 1 + j < ndirect + 1 := by omega
  have hin : ndirect + 1 + j < maxfile + 1 := by
    change 12 + 1 + j < 12 + 512 + 1
    change j < 512 at hj
    omega
  rw [slot, dif_neg hnot, if_pos ⟨hv, hin⟩, Nat.add_sub_cancel_left]

/-- The slots depend on the addresses and the contents of the indirect block only. -/
theorem slot_congr {v' : Dinode} (hv : v'.addrs = v.addrs)
    (h : slot d v ndirect ≠ 0 → d' (slot d v ndirect).toNat = d (slot d v ndirect).toNat) :
    slot d' v' k = slot d v k := by
  rw [slot_indirect] at h
  simp only [slot, hv]
  split
  · rfl
  · split
    · next hk => rw [h hk.1]
    · rfl

theorem slot_out (h : maxfile + 1 ≤ k) : slot d v k = 0 := by
  have hk : ¬k < ndirect + 1 := by
    change ¬k < 12 + 1
    change 12 + 512 + 1 ≤ k at h
    omega
  rw [slot, dif_neg hk, if_neg (fun hc => absurd hc.2 (Nat.not_lt.mpr h))]

theorem slot_of_no_indirect (hv : v.addrs (Fin.last ndirect) = 0) (hk : ndirect ≤ k) :
    slot d v k = 0 := by
  by_cases hlast : k = ndirect
  · rw [hlast, slot_indirect, hv]
  · have hnot : ¬k < ndirect + 1 := by omega
    rw [slot, dif_neg hnot, if_neg (fun hc => absurd hv hc.1)]

theorem slot_of_no_addrs (hv : v.addrs = fun _ => 0) (k : ℕ) : slot d v k = 0 := by
  by_cases hk : k < ndirect + 1
  · rw [slot, dif_pos hk, hv]
  · exact slot_of_no_indirect (by rw [hv]) (by omega)

theorem dataSlot_ne (bn : ℕ) : dataSlot bn ≠ ndirect := by
  unfold dataSlot
  split
  · omega
  · omega

end Slots

section Holdings

variable {sb : Layout} {d : Disk} {ip : Inode} {ino : ℕ → Dinode} {i k b : ℕ}

theorem held_eq_some (h : (ledger sb.toSuperblock d ino).held (i, k) = some b) :
    i < sb.ninodes ∧ (ino i).type ≠ 0 ∧ slot d (ino i) k ≠ 0 ∧ (slot d (ino i) k).toNat = b := by
  simp only [ledger] at h
  split at h
  · next hk => exact ⟨hk.1, hk.2.1, hk.2.2, Option.some.inj h⟩
  · cases h

theorem held_of_slot (hi : i < sb.ninodes) (htype : (ino i).type ≠ 0)
    (hk : slot d (ino i) k ≠ 0) :
    (ledger sb.toSuperblock d ino).held (i, k) = some (slot d (ino i) k).toNat :=
  if_pos ⟨hi, htype, hk⟩

theorem inodes_self (sb : Superblock) (d : Disk) (ip : Inode) :
    inodes sb d ip ip.inum = ip.toDinode := Function.update_self ..

theorem inodes_of_ne (sb : Superblock) (d : Disk) {ip : Inode} (h : i ≠ ip.inum) :
    inodes sb d ip i = dinode sb d i := Function.update_of_ne h _ _

theorem Intact.held_self (hs : Intact sb d ip) (hk : slot d ip.toDinode k ≠ 0) :
    (ledger sb.toSuperblock d (inodes sb.toSuperblock d ip)).held (ip.inum, k) =
      some (slot d ip.toDinode k).toNat := by
  have hself := inodes_self sb.toSuperblock d ip
  rw [← hself] at hk
  have h := held_of_slot hs.inum_lt (by rw [hself]; exact hs.allocated) hk
  rwa [hself] at h

/-- What a slot of the inode holds is a marked data block. -/
theorem Intact.slot_data (hs : Intact sb d ip) (hk : slot d ip.toDinode k ≠ 0) :
    sb.nmeta ≤ (slot d ip.toDinode k).toNat ∧ (slot d ip.toDinode k).toNat < sb.size ∧
      Marked sb.toSuperblock d (slot d ip.toDinode k).toNat := by
  obtain ⟨hu, hm⟩ := hs.sound.held_used _ _ (hs.held_self hk)
  exact ⟨Nat.not_lt.mp hm, hu.1, hu.2⟩

theorem Intact.slot_inj (hs : Intact sb d ip) {l : ℕ} (hk : slot d ip.toDinode k ≠ 0)
    (h : slot d ip.toDinode l = slot d ip.toDinode k) : l = k := by
  have hl : slot d ip.toDinode l ≠ 0 := h ▸ hk
  have hkeys := hs.sound.once _ _ _ (hs.held_self hl) ((hs.held_self hk).trans (by rw [h]))
  exact (Prod.mk.inj hkeys).2

end Holdings

/-- One empty slot `k` of the inode has got the free block `b`, full of zeros. -/
structure Claims (sb : Layout) (d : Disk) (ip : Inode) (k b : ℕ) (d' : Disk) (ip' : Inode) :
    Prop where
  free : b < sb.size ∧ ¬Marked sb.toSuperblock d b
  empty : slot d ip.toDinode k = 0
  slots : ∀ l, slot d' ip'.toDinode l =
    if l = k then BitVec.ofNat 32 b else slot d ip.toDinode l
  fields : ip' = { ip with addrs := ip'.addrs }
  marked : ∀ c < sb.size, Marked sb.toSuperblock d' c ↔ c = b ∨ Marked sb.toSuperblock d c
  zeroed : d' b = fun _ => 0
  inode_blocks : ∀ x < sb.bmapstart, d' x = d x
  others : ∀ x, sb.nmeta ≤ x → x ≠ b →
    (slot d ip.toDinode ndirect ≠ 0 → x ≠ (slot d ip.toDinode ndirect).toNat) → d' x = d x

section Claiming

variable {sb : Layout} {d d' : Disk} {ip ip' : Inode} {b j : ℕ} {k : Fin (ndirect + 1)}

theorem ofNat_block_ne_zero (hb : sb.nmeta ≤ b) (hsize : b < sb.size) :
    BitVec.ofNat 32 b ≠ 0 ∧ (BitVec.ofNat 32 b).toNat = b := by
  have hpos := nmeta_pos sb
  have hlt := sb.size_lt
  have hnat : (BitVec.ofNat 32 b).toNat = b := by
    rw [BitVec.toNat_ofNat]
    exact Nat.mod_eq_of_lt (by omega)
  refine ⟨?_, hnat⟩
  intro h
  rw [h] at hnat
  change 0 = b at hnat
  omega

/-- balloc marks and clears the block it hands out and leaves every other data block alone. -/
theorem balloc_spec (hmeta : ∀ c < sb.nmeta, Marked sb.toSuperblock d c)
    (h : balloc sb.toSuperblock d = .ok (b, d')) :
    (b < sb.size ∧ ¬Marked sb.toSuperblock d b) ∧ sb.nmeta ≤ b ∧
      (∀ c < sb.size, Marked sb.toSuperblock d' c ↔ c = b ∨ Marked sb.toSuperblock d c) ∧
      (d' b = fun _ => 0) ∧ (∀ x < sb.bmapstart, d' x = d x) ∧
      ∀ x, sb.nmeta ≤ x → x ≠ b → d' x = d x := by
  obtain ⟨hsize, hfree, rfl⟩ := balloc_eq_ok h
  have hb : sb.nmeta ≤ b := by
    by_contra hlt
    exact hfree (hmeta b (Nat.not_le.mp hlt))
  have hbb := bblock_lt_nmeta hsize
  have hlow : sb.bmapstart ≤ sb.bblock b := bmapstart_le_bblock b
  refine ⟨⟨hsize, hfree⟩, hb, ?_, Function.update_self .., ?_, ?_⟩
  · intro c hc
    exact (marked_update hb hc _).trans (marked_markBlock _ d b c)
  · intro x hx
    have h₁ : x ≠ b := by omega
    have h₂ : x ≠ sb.bblock b := by omega
    rw [bzero, Function.update_of_ne h₁, markBlock, Function.update_of_ne h₂]
  · intro x hx hxb
    have h₂ : x ≠ sb.bblock b := by omega
    rw [bzero, Function.update_of_ne hxb, markBlock, Function.update_of_ne h₂]

theorem Intact.metadata_marked (hs : Intact sb d ip) :
    ∀ c < sb.nmeta, Marked sb.toSuperblock d c :=
  fun c hc => (hs.sound.reserved_used c hc).2

theorem word_zero (a : ℕ) : word (fun _ => 0) a = 0 := by
  change ((0 : Byte) ++ (0 : Byte) ++ (0 : Byte) ++ (0 : Byte) : Word) = 0
  decide

theorem setAddr_addrs (ip : Inode) (k : Fin (ndirect + 1)) (addr : Word) :
    (setAddr ip k addr).addrs = Function.update ip.addrs k addr := rfl

/-- A new address is the only slot that changes; a new indirect block has no entries. -/
theorem Intact.slots_setAddr (hs : Intact sb d ip) (hempty : ip.addrs k = 0)
    (hfree : ¬Marked sb.toSuperblock d b) (hzero : d' b = fun _ => 0)
    (hword : (BitVec.ofNat 32 b).toNat = b)
    (hothers : ∀ x, sb.nmeta ≤ x → x ≠ b → d' x = d x) (l : ℕ) :
    slot d' (setAddr ip k (BitVec.ofNat 32 b)).toDinode l =
      if l = k then BitVec.ofNat 32 b else slot d ip.toDinode l := by
  by_cases hl : l < ndirect + 1
  · have haddr := slot_addr d' (setAddr ip k (BitVec.ofNat 32 b)).toDinode ⟨l, hl⟩
    have haddr' := slot_addr d ip.toDinode ⟨l, hl⟩
    simp only at haddr haddr'
    rw [haddr, haddr', setAddr_addrs]
    by_cases hlk : (⟨l, hl⟩ : Fin (ndirect + 1)) = k
    · rw [hlk, Function.update_self, if_pos (congrArg Fin.val hlk)]
    · rw [Function.update_of_ne hlk, if_neg (fun h => hlk (Fin.ext h))]
  have hlk : l ≠ k := by
    rintro rfl
    exact hl k.isLt
  rw [if_neg hlk]
  by_cases hk : k = Fin.last ndirect
  · subst hk
    rw [slot_of_no_indirect hempty (by omega), slot, dif_neg hl, setAddr_addrs,
      Function.update_self, hword, hzero, word_zero, ite_self]
  · have hsame : (setAddr ip k (BitVec.ofNat 32 b)).addrs (Fin.last ndirect) =
        ip.addrs (Fin.last ndirect) := Function.update_of_ne (Ne.symm hk) _ _
    rw [slot, slot, dif_neg hl, dif_neg hl, hsame]
    split
    · next hin =>
      have hdata := hs.slot_data (k := ndirect) (by rw [slot_indirect]; exact hin.1)
      rw [slot_indirect] at hdata
      rw [hothers _ hdata.1 (by
        intro h
        rw [h] at hdata
        exact hfree hdata.2.2)]
    · rfl

/-- bmapAddr finds the address or claims a block for it. -/
theorem Intact.bmapAddr_cases (hs : Intact sb d ip)
    (h : bmapAddr sb.toSuperblock d ip k = .ok (b, d', ip')) :
    (slot d ip.toDinode k ≠ 0 ∧ b = (slot d ip.toDinode k).toNat ∧ d' = d ∧ ip' = ip) ∨
      Claims sb d ip k b d' ip' := by
  unfold bmapAddr at h
  by_cases hk : ip.addrs k = 0
  · rw [if_pos hk] at h
    obtain ⟨⟨c, e⟩, hc, h⟩ := bind_eq_ok.mp h
    cases h
    obtain ⟨hfree, hb, hmarked, hzero, hlow, hothers⟩ := balloc_spec hs.metadata_marked hc
    right
    constructor
    case free => exact hfree
    case empty => rw [slot_addr, hk]
    case slots => exact hs.slots_setAddr hk hfree.2 hzero (ofNat_block_ne_zero hb hfree.1).2 hothers
    case fields => rfl
    case marked => exact hmarked
    case zeroed => exact hzero
    case inode_blocks => exact hlow
    case others => exact fun x hx hxb _ => hothers x hx hxb
  · rw [if_neg hk] at h
    cases h
    rw [slot_addr]
    exact .inl ⟨hk, rfl, rfl, rfl⟩

/-- bmapEntry finds the entry of the indirect block or claims a block for it. -/
theorem Intact.bmapEntry_cases {addr : ℕ} (hs : Intact sb d ip)
    (hind : slot d ip.toDinode ndirect ≠ 0) (haddr : addr = (slot d ip.toDinode ndirect).toNat)
    (hj : j < nindirect) (h : bmapEntry sb.toSuperblock d addr j = .ok (b, d')) :
    (slot d ip.toDinode (ndirect + 1 + j) ≠ 0 ∧
        b = (slot d ip.toDinode (ndirect + 1 + j)).toNat ∧ d' = d) ∨
      Claims sb d ip (ndirect + 1 + j) b d' ip := by
  rw [slot_indirect] at hind haddr
  have hentry : word (d addr) (4 * j) = slot d ip.toDinode (ndirect + 1 + j) := by
    rw [slot_entry hj hind, haddr]
  unfold bmapEntry at h
  rw [hentry] at h
  by_cases hk : slot d ip.toDinode (ndirect + 1 + j) = 0
  · rw [if_pos hk] at h
    obtain ⟨⟨c, e⟩, hc, h⟩ := bind_eq_ok.mp h
    cases h
    obtain ⟨hfree, hb, hmarked, hzero, hlow, hothers⟩ := balloc_spec hs.metadata_marked hc
    have hdata := hs.slot_data (k := ndirect) (by rw [slot_indirect]; exact hind)
    rw [slot_indirect, ← haddr] at hdata
    have hne : addr ≠ c := by
      rintro rfl
      exact hfree.2 hdata.2.2
    have hsame : e addr = d addr := hothers addr hdata.1 hne
    right
    constructor
    case free => exact hfree
    case empty => exact hk
    case slots =>
      intro l
      by_cases hl : l < ndirect + 1
      · have hlj : l ≠ ndirect + 1 + j := by omega
        rw [if_neg hlj, slot, slot, dif_pos hl, dif_pos hl]
      · obtain ⟨m, rfl⟩ := Nat.exists_eq_add_of_le (Nat.not_lt.mp hl)
        by_cases hm : m < nindirect
        · rw [slot_entry hm hind, slot_entry hm hind, ← haddr, Function.update_self]
          by_cases hmj : m = j
          · subst hmj
            rw [if_pos rfl, word_storeWord]
          · have hlj : ¬ndirect + 1 + m = ndirect + 1 + j := by omega
            rw [if_neg hlj, ← hsame]
            apply word_congr
            intro x hx hx'
            exact storeWord_outside _ _ (by omega)
        · have hout : maxfile + 1 ≤ ndirect + 1 + m := by
            change 12 + 512 + 1 ≤ 12 + 1 + m
            change ¬m < 512 at hm
            omega
          have hlj : ¬ndirect + 1 + m = ndirect + 1 + j := by omega
          rw [slot_out hout, if_neg hlj, slot_out hout]
    case fields => rfl
    case marked =>
      intro x hx
      exact (marked_update hdata.1 hx _).trans (hmarked x hx)
    case zeroed => exact (Function.update_of_ne (Ne.symm hne) _ _).trans hzero
    case inode_blocks =>
      intro x hx
      have hxa : x ≠ addr := by
        have hlow := hdata.1
        simp only [Superblock.nmeta] at hlow
        generalize sb.size / bpb = q at hlow
        omega
      exact (Function.update_of_ne hxa _ _).trans (hlow x hx)
    case others =>
      intro x hx hxc hxa
      rw [slot_indirect, ← haddr] at hxa
      exact (Function.update_of_ne (hxa hind) _ _).trans (hothers x hx hxc)
  · rw [if_neg hk] at h
    cases h
    exact .inl ⟨hk, rfl, rfl⟩

end Claiming

/-- The inode may have got more blocks and other contents; everything else is as it was. -/
structure Evolves (sb : Layout) (d : Disk) (ip : Inode) (d' : Disk) (ip' : Inode) : Prop where
  fields : ip' = { ip with addrs := ip'.addrs }
  inode_blocks : ∀ x < sb.bmapstart, d' x = d x
  grows : Grows (ledger sb.toSuperblock d (inodes sb.toSuperblock d ip))
    (ledger sb.toSuperblock d' (inodes sb.toSuperblock d' ip'))
  others : ∀ x, sb.nmeta ≤ x → x < sb.size → Marked sb.toSuperblock d x →
    (∀ k, slot d ip.toDinode k ≠ 0 → (slot d ip.toDinode k).toNat ≠ x) → d' x = d x

section Evolving

variable {sb : Layout} {d d' d'' : Disk} {ip ip' ip'' : Inode} {i k b : ℕ}

theorem Evolves.refl (sb : Layout) (d : Disk) (ip : Inode) : Evolves sb d ip d ip :=
  ⟨rfl, fun _ _ => rfl, .refl _, fun _ _ _ _ _ => rfl⟩

theorem dinode_of_inode_blocks (h : ∀ x < sb.bmapstart, d' x = d x) (hi : i < sb.ninodes) :
    dinode sb.toSuperblock d' i = dinode sb.toSuperblock d i :=
  dinode_congr (h _ (iblock_lt hi))

/-- Slots of another inode are not slots of this one. -/
theorem Intact.other_slot (hs : Intact sb d ip) (hi : i < sb.ninodes) (hne : i ≠ ip.inum)
    (htype : (dinode sb.toSuperblock d i).type ≠ 0)
    (hk : slot d (dinode sb.toSuperblock d i) k ≠ 0) :
    (sb.nmeta ≤ (slot d (dinode sb.toSuperblock d i) k).toNat ∧
      (slot d (dinode sb.toSuperblock d i) k).toNat < sb.size ∧
      Marked sb.toSuperblock d (slot d (dinode sb.toSuperblock d i) k).toNat) ∧
      ∀ l, slot d ip.toDinode l ≠ 0 →
        (slot d ip.toDinode l).toNat ≠ (slot d (dinode sb.toSuperblock d i) k).toNat := by
  have hother := inodes_of_ne sb.toSuperblock d hne
  rw [← hother] at htype hk
  have hheld := held_of_slot hi htype hk
  rw [hother] at hheld
  obtain ⟨hu, hm⟩ := hs.sound.held_used _ _ hheld
  refine ⟨⟨Nat.not_lt.mp hm, hu.1, hu.2⟩, ?_⟩
  intro l hl heq
  have hkeys := hs.sound.once _ _ _ (hs.held_self hl) (hheld.trans (by rw [heq]))
  exact hne (Prod.mk.inj hkeys).1.symm

/-- The new ledger has one more entry. -/
theorem Claims.ledger_eq (hs : Intact sb d ip) (h : Claims sb d ip k b d' ip') :
    ledger sb.toSuperblock d' (inodes sb.toSuperblock d' ip') =
      (ledger sb.toSuperblock d (inodes sb.toSuperblock d ip)).claim (ip.inum, k) b := by
  have hb : sb.nmeta ≤ b := by
    by_contra hlt
    exact h.free.2 (hs.metadata_marked b (Nat.not_le.mp hlt))
  obtain ⟨hword, hnat⟩ := ofNat_block_ne_zero hb h.free.1
  have hinum : ip'.inum = ip.inum := by rw [h.fields]
  have htype : ip'.type = ip.type := by rw [h.fields]
  have hheld : ∀ key, (ledger sb.toSuperblock d' (inodes sb.toSuperblock d' ip')).held key =
      ((ledger sb.toSuperblock d (inodes sb.toSuperblock d ip)).claim (ip.inum, k) b).held key := by
    rintro ⟨i, l⟩
    by_cases hi : i = ip.inum
    · subst hi
      have hself : inodes sb.toSuperblock d' ip' ip.inum = ip'.toDinode := by
        rw [← hinum, inodes_self]
      by_cases hl : l = k
      · subst hl
        rw [held_claim_self]
        simp only [ledger, hself, h.slots, if_pos, htype, hnat]
        exact if_pos ⟨hs.inum_lt, hs.allocated, hword⟩
      · have hkey : (ip.inum, l) ≠ (ip.inum, k) := fun he => hl (Prod.mk.inj he).2
        rw [held_claim_of_ne _ _ hkey]
        simp only [ledger, hself, inodes_self, h.slots, if_neg hl, htype]
    · have hkey : (i, l) ≠ (ip.inum, k) := fun he => hi (Prod.mk.inj he).1
      rw [held_claim_of_ne _ _ hkey]
      by_cases hbound : i < sb.ninodes
      · have hsame := dinode_of_inode_blocks h.inode_blocks hbound
        simp only [ledger, inodes_of_ne sb.toSuperblock d hi,
          inodes_of_ne sb.toSuperblock d' (hinum ▸ hi : i ≠ ip'.inum), hsame]
        by_cases halloc : (dinode sb.toSuperblock d i).type ≠ 0
        · have hslot : slot d' (dinode sb.toSuperblock d i) l =
              slot d (dinode sb.toSuperblock d i) l := by
            apply slot_congr rfl
            intro hind
            obtain ⟨⟨hlow, -, hmarked⟩, hnot⟩ := hs.other_slot hbound hi halloc hind
            apply h.others _ hlow
            · rintro rfl
              exact h.free.2 hmarked
            · exact fun hne => (hnot ndirect hne).symm
          rw [hslot]
        · simp only [halloc, false_and, and_false, if_false]
      · simp only [ledger, hbound, false_and, if_false]
  have hused : (ledger sb.toSuperblock d' (inodes sb.toSuperblock d' ip')).used =
      insert b (ledger sb.toSuperblock d (inodes sb.toSuperblock d ip)).used := by
    ext c
    constructor
    case mp =>
      rintro ⟨hc, hm⟩
      exact ((h.marked c hc).mp hm).imp_right fun hm => ⟨hc, hm⟩
    case mpr =>
      rintro (rfl | ⟨hc, hm⟩)
      · exact ⟨h.free.1, (h.marked c h.free.1).mpr (.inl rfl)⟩
      · exact ⟨hc, (h.marked c hc).mpr (.inr hm)⟩
  exact Ledger.ext (funext hheld) hused

theorem Claims.low (hs : Intact sb d ip) (h : Claims sb d ip k b d' ip') : sb.nmeta ≤ b := by
  by_contra hlt
  exact h.free.2 (hs.metadata_marked b (Nat.not_le.mp hlt))

/-- A slot that is not empty and not the indirect block keeps its contents. -/
theorem Claims.contents (hs : Intact sb d ip) (h : Claims sb d ip k b d' ip') {l : ℕ}
    (hl : slot d ip.toDinode l ≠ 0) (hne : l ≠ ndirect) :
    d' (slot d ip.toDinode l).toNat = d (slot d ip.toDinode l).toNat := by
  obtain ⟨hlow, -, hmarked⟩ := hs.slot_data hl
  apply h.others _ hlow
  · rintro rfl
    exact h.free.2 hmarked
  · intro hind heq
    exact hne (hs.slot_inj hind (BitVec.eq_of_toNat_eq heq))

/-- A new block is full of zeros. -/
theorem Claims.bytes (hs : Intact sb d ip) (h : Claims sb d ip k b d' ip') (pos : ℕ) :
    byteAt d' ip'.toDinode pos = byteAt d ip.toDinode pos := by
  obtain ⟨hword, hnat⟩ := ofNat_block_ne_zero (h.low hs) h.free.1
  simp only [byteAt, h.slots]
  by_cases hl : dataSlot (pos / bsize) = k
  · rw [if_pos hl, if_neg hword, hnat, h.zeroed, hl, h.empty]
    rfl
  · rw [if_neg hl]
    by_cases hslot : slot d ip.toDinode (dataSlot (pos / bsize)) = 0
    · rw [if_pos hslot, if_pos hslot]
    · rw [if_neg hslot, if_neg hslot, h.contents hs hslot (dataSlot_ne _)]

theorem Claims.evolves (hs : Intact sb d ip) (h : Claims sb d ip k b d' ip') :
    Evolves sb d ip d' ip' := by
  constructor
  case fields => exact h.fields
  case inode_blocks => exact h.inode_blocks
  case grows =>
    rw [h.ledger_eq hs]
    apply grows_claim
    · simp only [ledger, inodes_self, h.empty, ne_eq, not_true_eq_false, and_false, if_false]
    · exact fun hu => h.free.2 hu.2
    · exact fun k' c hc => (hs.sound.held_used k' c hc).1
  case others =>
    intro x hx hsize hmarked hnot
    apply h.others x hx
    · rintro rfl
      exact h.free.2 hmarked
    · exact fun hind => (hnot ndirect hind).symm

theorem Intact.evolves (hs : Intact sb d ip) (h : Evolves sb d ip d' ip') :
    Intact sb d' ip' := by
  constructor
  case inum_lt =>
    rw [h.fields]
    exact hs.inum_lt
  case allocated =>
    rw [h.fields]
    exact hs.allocated
  case sound => exact hs.sound.grows h.grows

/-- Filled slots stay as they are. -/
theorem Evolves.slot_kept (hs : Intact sb d ip) (h : Evolves sb d ip d' ip')
    (hk : slot d ip.toDinode k ≠ 0) : slot d' ip'.toDinode k = slot d ip.toDinode k := by
  have hkept := h.grows.kept _ _ (hs.held_self hk)
  obtain ⟨-, -, -, heq⟩ := held_eq_some hkept
  have hinum : ip'.inum = ip.inum := by rw [h.fields]
  rw [← hinum, inodes_self] at heq
  exact BitVec.eq_of_toNat_eq heq

/-- Slots that were empty are filled with blocks that were free. -/
theorem Evolves.slot_fresh (hs : Intact sb d ip) (h : Evolves sb d ip d' ip')
    (hk : slot d ip.toDinode k = 0) (hk' : slot d' ip'.toDinode k ≠ 0) :
    ¬Marked sb.toSuperblock d (slot d' ip'.toDinode k).toNat := by
  have hs' := hs.evolves h
  have hinum : ip'.inum = ip.inum := by rw [h.fields]
  have hheld := hs'.held_self hk'
  rw [hinum] at hheld
  have hnone : (ledger sb.toSuperblock d (inodes sb.toSuperblock d ip)).held (ip.inum, k) =
      none := by
    simp only [ledger, inodes_self, hk, ne_eq, not_true_eq_false, and_false, if_false]
  have hfree := h.grows.fresh _ _ hnone hheld
  exact fun hm => hfree ⟨(hs'.slot_data hk').2.1, hm⟩

theorem Evolves.trans (hs : Intact sb d ip) (h : Evolves sb d ip d' ip')
    (h' : Evolves sb d' ip' d'' ip'') : Evolves sb d ip d'' ip'' := by
  constructor
  case fields =>
    rw [h'.fields, h.fields]
  case inode_blocks => exact fun x hx => (h'.inode_blocks x hx).trans (h.inode_blocks x hx)
  case grows => exact h.grows.trans h'.grows
  case others =>
    intro x hx hsize hmarked hnot
    have hmarked' := (h.grows.used_mono (b := x) ⟨hsize, hmarked⟩).2
    rw [← h.others x hx hsize hmarked hnot]
    apply h'.others x hx hsize hmarked'
    intro k hk heq
    by_cases hold : slot d ip.toDinode k = 0
    · exact h.slot_fresh hs hold hk (heq ▸ hmarked)
    · rw [h.slot_kept hs hold] at heq
      exact hnot k hold heq

/-- The other inodes keep their slots, and the blocks in them their contents. -/
theorem Evolves.other (hs : Intact sb d ip) (h : Evolves sb d ip d' ip')
    (hi : i < sb.ninodes) (hne : i ≠ ip.inum) (htype : (dinode sb.toSuperblock d i).type ≠ 0) :
    (∀ k, slot d' (dinode sb.toSuperblock d i) k = slot d (dinode sb.toSuperblock d i) k) ∧
      ∀ k, slot d (dinode sb.toSuperblock d i) k ≠ 0 →
        d' (slot d (dinode sb.toSuperblock d i) k).toNat =
          d (slot d (dinode sb.toSuperblock d i) k).toNat := by
  have hsame : ∀ k, slot d (dinode sb.toSuperblock d i) k ≠ 0 →
      d' (slot d (dinode sb.toSuperblock d i) k).toNat =
        d (slot d (dinode sb.toSuperblock d i) k).toNat := by
    intro k hk
    obtain ⟨⟨hlow, hsize, hmarked⟩, hnot⟩ := hs.other_slot hi hne htype hk
    exact h.others _ hlow hsize hmarked hnot
  exact ⟨fun k => slot_congr rfl (hsame ndirect), hsame⟩

end Evolving

end BlockOwnership
