import Xv6Gui.WordMemory
import Mathlib.Logic.Function.Basic
import Mathlib.Data.List.OfFn
import Mathlib.Data.Fintype.Basic

/-!
# Blocks, bits and inodes on the disk

The format of fs.h: the free bit map keeps a bit a block, an inode is sixteen words of an inode
block, and an indirect block is an array of words. A disk is what bread returns, so that a
block written by the running system counts as on the disk.
-/
namespace DiskBlocks

open WordMemory

abbrev bsize : ℕ := 2048
abbrev ndirect : ℕ := 12
abbrev nindirect : ℕ := bsize / 4
abbrev maxfile : ℕ := ndirect + nindirect

/-- Inodes per block. -/
abbrev ipb : ℕ := bsize / 64

/-- Bitmap bits per block. -/
abbrev bpb : ℕ := bsize * 8

abbrev Disk := ℕ → Memory

structure Superblock where
  size : ℕ
  nblocks : ℕ
  ninodes : ℕ
  nlog : ℕ
  logstart : ℕ
  inodestart : ℕ
  bmapstart : ℕ

/-- The inode blocks lie before the free bit map and the data blocks behind it, and a block
number is an `int`. -/
structure Layout extends Superblock where
  inode_blocks : inodestart + (ninodes - 1) / ipb < bmapstart
  data_blocks : bmapstart + size / bpb < size
  size_lt : size < 2147483648

def Superblock.iblock (sb : Superblock) (i : ℕ) : ℕ := i / ipb + sb.inodestart

def Superblock.bblock (sb : Superblock) (b : ℕ) : ℕ := b / bpb + sb.bmapstart

/-- The blocks before the first data block. -/
def Superblock.nmeta (sb : Superblock) : ℕ := sb.bmapstart + sb.size / bpb + 1

section Blocks

variable {sb : Layout} {b i : ℕ}

theorem iblock_lt (hi : i < sb.ninodes) : sb.iblock i < sb.bmapstart := by
  have hlast : i / ipb ≤ (sb.ninodes - 1) / ipb := Nat.div_le_div_right (by omega)
  have hblocks := sb.inode_blocks
  simp only [Superblock.iblock]
  omega

theorem bmapstart_le_bblock (b : ℕ) : sb.bmapstart ≤ sb.bblock b := Nat.le_add_left _ _

theorem bblock_lt_nmeta (hb : b < sb.size) : sb.bblock b < sb.nmeta := by
  have hlast : b / bpb ≤ sb.size / bpb := Nat.div_le_div_right hb.le
  simp only [Superblock.bblock, Superblock.nmeta]
  omega

theorem nmeta_le_size (sb : Layout) : sb.nmeta ≤ sb.size := sb.data_blocks

theorem nmeta_pos (sb : Layout) : 0 < sb.nmeta := Nat.succ_pos _

end Blocks

def mask (bi : ℕ) : Byte := 1#8 <<< (bi % 8)

def setBit (blk : Memory) (bi : ℕ) : Memory :=
  Function.update blk (bi / 8) (blk (bi / 8) ||| mask bi)

def clearBit (blk : Memory) (bi : ℕ) : Memory :=
  Function.update blk (bi / 8) (blk (bi / 8) &&& ~~~mask bi)

/-- Bit `bi` of a bitmap block is set. -/
def Bit (blk : Memory) (bi : ℕ) : Prop := blk (bi / 8) &&& mask bi ≠ 0

instance (blk : Memory) (bi : ℕ) : Decidable (Bit blk bi) := inferInstanceAs (Decidable (_ ≠ _))

section Bits

variable {blk : Memory} {bi bj : ℕ}

theorem mask_eq_twoPow (bi : ℕ) : mask bi = BitVec.twoPow 8 (bi % 8) := rfl

theorem bit_iff (blk : Memory) (bi : ℕ) : Bit blk bi ↔ (blk (bi / 8)).getLsbD (bi % 8) = true := by
  have hbi : bi % 8 < 8 := Nat.mod_lt _ (by decide)
  have hne : BitVec.twoPow 8 (bi % 8) ≠ 0 := by
    intro h
    have hbit := congrArg (fun x => x.getLsbD (bi % 8)) h
    simp [hbi] at hbit
  rw [Bit, mask_eq_twoPow, BitVec.and_twoPow]
  split
  · next h => exact ⟨fun _ => h, fun _ => hne⟩
  · next h => exact ⟨fun h' => absurd rfl h', fun h' => absurd h' h⟩

/-- Two bits are in one place when their bytes and their masks are. -/
theorem bit_eq_iff (bi bj : ℕ) : bj = bi ↔ bj / 8 = bi / 8 ∧ bj % 8 = bi % 8 := by omega

theorem bit_setBit (blk : Memory) (bi bj : ℕ) :
    Bit (setBit blk bi) bj ↔ bj = bi ∨ Bit blk bj := by
  have hbj : bj % 8 < 8 := Nat.mod_lt _ (by decide)
  rw [bit_iff, bit_iff, bit_eq_iff bi bj]
  by_cases h : bj / 8 = bi / 8
  · rw [setBit, h, Function.update_self, mask_eq_twoPow, BitVec.getLsbD_or,
      BitVec.getLsbD_twoPow]
    simp only [Bool.or_eq_true, Bool.and_eq_true, decide_eq_true_eq, true_and,
      Nat.mod_lt bi (show 8 > 0 by decide)]
    rw [or_comm, eq_comm]
  · rw [setBit, Function.update_of_ne h]
    simp only [h, false_and, false_or]

theorem bit_clearBit (blk : Memory) (bi bj : ℕ) :
    Bit (clearBit blk bi) bj ↔ bj ≠ bi ∧ Bit blk bj := by
  have hbj : bj % 8 < 8 := Nat.mod_lt _ (by decide)
  rw [bit_iff, bit_iff, Ne, bit_eq_iff bi bj]
  by_cases h : bj / 8 = bi / 8
  · rw [clearBit, h, Function.update_self, mask_eq_twoPow, BitVec.getLsbD_and,
      BitVec.getLsbD_not, BitVec.getLsbD_twoPow]
    simp only [Bool.and_eq_true, Bool.not_eq_true', Bool.and_eq_false_iff, decide_eq_true_eq,
      decide_eq_false_iff_not, true_and, hbj, Nat.mod_lt bi (show 8 > 0 by decide),
      not_true_eq_false, false_or]
    rw [and_comm, eq_comm]
  · rw [clearBit, Function.update_of_ne h]
    simp only [h, false_and, not_false_eq_true, true_and]

end Bits

/-- The bit map marks block `b`. -/
def Marked (sb : Superblock) (d : Disk) (b : ℕ) : Prop := Bit (d (sb.bblock b)) (b % bpb)

instance (sb : Superblock) (d : Disk) (b : ℕ) : Decidable (Marked sb d b) :=
  inferInstanceAs (Decidable (Bit _ _))

/-- The inode on disk, and the part of the inode in memory that is a copy of it. -/
structure Dinode where
  type : BitVec 16
  major : BitVec 16
  minor : BitVec 16
  nlink : BitVec 16
  size : Word
  addrs : Fin (ndirect + 1) → Word
  deriving DecidableEq

def Dinode.words (v : Dinode) : List Word :=
  (v.major ++ v.type) :: (v.nlink ++ v.minor) :: v.size :: List.ofFn v.addrs

def readDinode (blk : Memory) (a : ℕ) : Dinode where
  type := (word blk a).extractLsb' 0 16
  major := (word blk a).extractLsb' 16 16
  minor := (word blk (a + 4)).extractLsb' 0 16
  nlink := (word blk (a + 4)).extractLsb' 16 16
  size := word blk (a + 8)
  addrs k := word blk (a + 12 + 4 * k)

def dinode (sb : Superblock) (d : Disk) (i : ℕ) : Dinode :=
  readDinode (d (sb.iblock i)) (64 * (i % ipb))

def putDinode (sb : Superblock) (d : Disk) (i : ℕ) (v : Dinode) : Disk :=
  Function.update d (sb.iblock i) (storeWords (d (sb.iblock i)) (64 * (i % ipb)) v.words)

section Dinodes

variable {blk : Memory} {a : ℕ}

theorem low_half (x y : BitVec 16) : (x ++ y).extractLsb' 0 16 = y := by
  apply BitVec.eq_of_getLsbD_eq
  intro i hi
  rw [BitVec.getLsbD_extractLsb', BitVec.getLsbD_append, Nat.zero_add, if_pos hi, decide_eq_true hi,
    Bool.true_and]

theorem high_half (x y : BitVec 16) : (x ++ y).extractLsb' 16 16 = x := by
  apply BitVec.eq_of_getLsbD_eq
  intro i hi
  rw [BitVec.getLsbD_extractLsb', BitVec.getLsbD_append, if_neg (by omega), decide_eq_true hi,
    Bool.true_and, Nat.add_sub_cancel_left]

theorem length_words (v : Dinode) : v.words.length = 16 := by
  simp [Dinode.words]

/-- What was stored is read back. -/
theorem readDinode_storeWords (blk : Memory) (a : ℕ) (v : Dinode) :
    readDinode (storeWords blk a v.words) a = v := by
  have hword : ∀ i (hi : i < v.words.length),
      word (storeWords blk a v.words) (a + 4 * i) = v.words[i] := by
    intro i hi
    exact word_storeWords blk a v.words hi
  have hlen := length_words v
  have h₀ := hword 0 (by omega)
  have h₁ := hword 1 (by omega)
  have h₂ := hword 2 (by omega)
  have haddrs : ∀ k : Fin (ndirect + 1),
      word (storeWords blk a v.words) (a + 12 + 4 * k) = v.addrs k := by
    intro k
    have hk : (k : ℕ) < 13 := k.isLt
    have h := hword (k + 3) (by omega)
    have hplace : a + 4 * (k + 3) = a + 12 + 4 * k := by omega
    rw [hplace] at h
    rw [h]
    simp only [Dinode.words, List.getElem_cons_succ, List.getElem_ofFn]
  cases v with
  | mk type major minor nlink size addrs =>
    simp only [readDinode, Dinode.mk.injEq]
    simp only [Nat.mul_zero, Nat.add_zero, Nat.mul_one] at h₀ h₁
    rw [h₀, h₁]
    exact ⟨low_half major type, high_half major type, low_half nlink minor,
      high_half nlink minor, h₂, funext haddrs⟩

theorem readDinode_congr {blk' : Memory} (h : ∀ b, a ≤ b → b < a + 64 → blk' b = blk b) :
    readDinode blk' a = readDinode blk a := by
  have hword : ∀ c, a ≤ c → c + 4 ≤ a + 64 → word blk' c = word blk c := by
    intro c hc hc'
    apply word_congr
    intro b hb hb'
    exact h b (by omega) (by omega)
  have haddrs : ∀ k : Fin (ndirect + 1),
      word blk' (a + 12 + 4 * k) = word blk (a + 12 + 4 * k) := by
    intro k
    have hk : (k : ℕ) < 13 := k.isLt
    exact hword _ (by omega) (by omega)
  simp only [readDinode, hword a (by omega) (by omega), hword (a + 4) (by omega) (by omega),
    hword (a + 8) (by omega) (by omega), haddrs]

theorem dinode_putDinode_self (sb : Superblock) (d : Disk) (i : ℕ) (v : Dinode) :
    dinode sb (putDinode sb d i v) i = v := by
  rw [dinode, putDinode, Function.update_self]
  exact readDinode_storeWords _ _ v

/-- Inodes of one block lie side by side. -/
theorem dinode_putDinode_of_ne (sb : Superblock) (d : Disk) (v : Dinode) {i j : ℕ} (h : j ≠ i) :
    dinode sb (putDinode sb d i v) j = dinode sb d j := by
  rw [dinode, putDinode]
  by_cases hblock : sb.iblock j = sb.iblock i
  · rw [hblock, Function.update_self]
    have hdiv : j / 32 = i / 32 := by
      simp only [Superblock.iblock] at hblock
      exact Nat.add_right_cancel hblock
    have hplace : j % 32 ≠ i % 32 := by omega
    rw [dinode, hblock]
    apply readDinode_congr
    intro b hb hb'
    apply storeWords_outside
    rw [length_words]
    change 64 * (j % 32) ≤ b at hb
    change b < 64 * (j % 32) + 64 at hb'
    change b < 64 * (i % 32) ∨ 64 * (i % 32) + 4 * 16 ≤ b
    omega
  · rw [Function.update_of_ne hblock]
    rfl

theorem putDinode_of_ne (sb : Superblock) (d : Disk) (i : ℕ) (v : Dinode) {x : ℕ}
    (h : x ≠ sb.iblock i) : putDinode sb d i v x = d x := Function.update_of_ne h _ _

/-- An inode depends on its block only. -/
theorem dinode_congr {sb : Superblock} {d d' : Disk} {i : ℕ}
    (h : d' (sb.iblock i) = d (sb.iblock i)) : dinode sb d' i = dinode sb d i := by
  rw [dinode, dinode, h]

end Dinodes

end DiskBlocks
