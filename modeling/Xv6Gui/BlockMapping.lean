import Xv6Gui.BlockOwnership
import Mathlib.Data.Finset.Card

/-!
# Mapping a block

bmap fills the slot of a data block, and that of the indirect block where there is need for it,
at the cost of a free block for each. It fails for want of free blocks or beyond MAXFILE only.
-/
namespace BlockMapping

open WordMemory DiskBlocks BlockMaps GuardedRuns Ledgers BlockOwnership
open WindowManagerState (Fault)

def freeBlocks (sb : Superblock) (d : Disk) : Finset ℕ :=
  (Finset.range sb.size).filter fun b => ¬Marked sb d b

/-- The slots that `bmap` fills for block `bn`. -/
def touched (bn : ℕ) : Finset ℕ := if bn < ndirect then {bn} else {ndirect, bn + 1}

/-- The empty slots among those of `S`. -/
def missing (d : Disk) (v : Dinode) (S : Finset ℕ) : Finset ℕ := S.filter fun k => slot d v k = 0

/-- The slots of `S` are filled and all others are as they were, at a free block for each slot
that was empty. -/
structure Fills (sb : Layout) (S : Finset ℕ) (d : Disk) (ip : Inode) (d' : Disk) (ip' : Inode) :
    Prop extends Evolves sb d ip d' ip' where
  filled : ∀ k ∈ S, slot d' ip'.toDinode k ≠ 0
  kept : ∀ k ∉ S, slot d' ip'.toDinode k = slot d ip.toDinode k
  cost : (freeBlocks sb.toSuperblock d').card + (missing d ip.toDinode S).card =
    (freeBlocks sb.toSuperblock d).card

section Mapping

variable {sb : Layout} {d d' d'' : Disk} {ip ip' ip'' : Inode} {a b bn j k : ℕ} {S T : Finset ℕ}

theorem mem_touched_dataSlot (bn : ℕ) : dataSlot bn ∈ touched bn := by
  unfold dataSlot touched
  split
  · exact Finset.mem_singleton_self _
  · exact Finset.mem_insert_of_mem (Finset.mem_singleton_self _)

theorem Fills.refl (sb : Layout) (d : Disk) (ip : Inode) : Fills sb ∅ d ip d ip := by
  refine ⟨.refl sb d ip, ?_, fun _ _ => rfl, ?_⟩
  · exact fun k hk => absurd hk (Finset.notMem_empty k)
  · rw [missing, Finset.filter_empty, Finset.card_empty, Nat.add_zero]

theorem card_missing_mono (d : Disk) (v : Dinode) (h : S ⊆ T) :
    (missing d v S).card ≤ (missing d v T).card :=
  Finset.card_le_card (Finset.filter_subset_filter _ h)

theorem Fills.nil (h : slot d ip.toDinode k ≠ 0) : Fills sb {k} d ip d ip := by
  refine ⟨.refl sb d ip, ?_, fun _ _ => rfl, ?_⟩
  · intro l hl
    rw [Finset.mem_singleton.mp hl]
    exact h
  · have hnone : missing d ip.toDinode {k} = ∅ := by
      rw [missing, Finset.filter_singleton, if_neg h]
    rw [hnone, Finset.card_empty, Nat.add_zero]

theorem fills_of_claims (hs : Intact sb d ip) (h : Claims sb d ip k b d' ip') :
    Fills sb {k} d ip d' ip' := by
  refine ⟨h.evolves hs, ?_, ?_, ?_⟩
  · intro l hl
    rw [Finset.mem_singleton.mp hl, h.slots, if_pos rfl]
    exact (ofNat_block_ne_zero (h.low hs) h.free.1).1
  · intro l hl
    rw [h.slots, if_neg (fun he => hl (Finset.mem_singleton.mpr he))]
  · have hone : missing d ip.toDinode {k} = {k} := by
      rw [missing, Finset.filter_singleton, if_pos h.empty]
    have hfree : freeBlocks sb.toSuperblock d' = (freeBlocks sb.toSuperblock d).erase b := by
      ext c
      simp only [freeBlocks, Finset.mem_filter, Finset.mem_range, Finset.mem_erase]
      constructor
      case mp =>
        rintro ⟨hc, hm⟩
        rw [h.marked c hc, not_or] at hm
        exact ⟨hm.1, hc, hm.2⟩
      case mpr =>
        rintro ⟨hne, hc, hm⟩
        refine ⟨hc, ?_⟩
        rw [h.marked c hc, not_or]
        exact ⟨hne, hm⟩
    have hb : b ∈ freeBlocks sb.toSuperblock d := by
      simp only [freeBlocks, Finset.mem_filter, Finset.mem_range]
      exact h.free
    rw [hone, Finset.card_singleton, hfree, Finset.card_erase_add_one hb]

/-- What is missing of two sets is missing of the first, and of the second once the first is
filled. -/
theorem Fills.card_missing_union (hs : Intact sb d ip) (h : Fills sb S d ip d' ip')
    (T : Finset ℕ) : (missing d ip.toDinode (S ∪ T)).card =
      (missing d ip.toDinode S).card + (missing d' ip'.toDinode T).card := by
  have hmissing : missing d ip.toDinode (S ∪ T) =
      missing d ip.toDinode S ∪ missing d' ip'.toDinode T := by
    ext k
    simp only [missing, Finset.mem_filter, Finset.mem_union]
    constructor
    case mp =>
      rintro ⟨hk, hzero⟩
      by_cases hS : k ∈ S
      · exact .inl ⟨hS, hzero⟩
      · exact .inr ⟨hk.resolve_left hS, (h.kept k hS).trans hzero⟩
    case mpr =>
      rintro (⟨hk, hzero⟩ | ⟨hk, hzero⟩)
      · exact ⟨.inl hk, hzero⟩
      · refine ⟨.inr hk, ?_⟩
        by_contra hne
        exact hne ((h.slot_kept hs hne).symm.trans hzero)
  have hdisjoint : Disjoint (missing d ip.toDinode S) (missing d' ip'.toDinode T) := by
    rw [Finset.disjoint_left]
    intro k hk hk'
    exact h.filled k (Finset.mem_filter.mp hk).1 (Finset.mem_filter.mp hk').2
  rw [hmissing, Finset.card_union_of_disjoint hdisjoint]

/-- Filling one set of slots after another. -/
theorem Fills.trans (hs : Intact sb d ip) (h : Fills sb S d ip d' ip')
    (h' : Fills sb T d' ip' d'' ip'') : Fills sb (S ∪ T) d ip d'' ip'' := by
  have hs' := hs.evolves h.toEvolves
  refine ⟨h.toEvolves.trans hs h'.toEvolves, ?_, ?_, ?_⟩
  · intro k hk
    rcases Finset.mem_union.mp hk with hk | hk
    · rw [h'.slot_kept hs' (h.filled k hk)]
      exact h.filled k hk
    · exact h'.filled k hk
  · intro k hk
    rw [Finset.mem_union, not_or] at hk
    rw [h'.kept k hk.2, h.kept k hk.1]
  · rw [h.card_missing_union hs, ← h.cost, ← h'.cost]
    omega

theorem bmapAddr_spec {k : Fin (ndirect + 1)} (hs : Intact sb d ip)
    (h : bmapAddr sb.toSuperblock d ip k = .ok (a, d', ip')) :
    Fills sb {(k : ℕ)} d ip d' ip' ∧
      (∀ pos, byteAt d' ip'.toDinode pos = byteAt d ip.toDinode pos) ∧
      a = (slot d' ip'.toDinode k).toNat := by
  rcases hs.bmapAddr_cases h with ⟨hk, rfl, rfl, rfl⟩ | hclaim
  · exact ⟨.nil hk, fun _ => rfl, rfl⟩
  · refine ⟨fills_of_claims hs hclaim, hclaim.bytes hs, ?_⟩
    rw [hclaim.slots, if_pos rfl, (ofNat_block_ne_zero (hclaim.low hs) hclaim.free.1).2]

theorem bmapEntry_spec {addr : ℕ} (hs : Intact sb d ip)
    (hind : slot d ip.toDinode ndirect ≠ 0) (haddr : addr = (slot d ip.toDinode ndirect).toNat)
    (hj : j < nindirect) (h : bmapEntry sb.toSuperblock d addr j = .ok (a, d')) :
    Fills sb {ndirect + 1 + j} d ip d' ip ∧
      (∀ pos, byteAt d' ip.toDinode pos = byteAt d ip.toDinode pos) ∧
      a = (slot d' ip.toDinode (ndirect + 1 + j)).toNat := by
  rcases hs.bmapEntry_cases hind haddr hj h with ⟨hk, rfl, rfl⟩ | hclaim
  · exact ⟨.nil hk, fun _ => rfl, rfl⟩
  · refine ⟨fills_of_claims hs hclaim, hclaim.bytes hs, ?_⟩
    rw [hclaim.slots, if_pos rfl, (ofNat_block_ne_zero (hclaim.low hs) hclaim.free.1).2]

theorem bmap_spec (hs : Intact sb d ip)
    (h : bmap sb.toSuperblock d ip bn = .ok (a, d', ip')) :
    bn < maxfile ∧ Fills sb (touched bn) d ip d' ip' ∧
      (∀ pos, byteAt d' ip'.toDinode pos = byteAt d ip.toDinode pos) ∧
      a = (slot d' ip'.toDinode (dataSlot bn)).toNat := by
  unfold bmap at h
  by_cases hbn : bn < ndirect
  · rw [dif_pos hbn] at h
    rw [touched, if_pos hbn, dataSlot, if_pos hbn]
    exact ⟨hbn.trans_le (Nat.le_add_right _ _), bmapAddr_spec hs h⟩
  · rw [dif_neg hbn] at h
    by_cases hj : bn - ndirect < nindirect
    · rw [if_pos hj] at h
      obtain ⟨⟨addr, e, iq⟩, hr, h⟩ := bind_eq_ok.mp h
      obtain ⟨⟨c, e'⟩, hq, h⟩ := bind_eq_ok.mp h
      cases h
      obtain ⟨hfills, hbytes, haddr⟩ := bmapAddr_spec hs hr
      have hplace : ndirect + 1 + (bn - ndirect) = bn + 1 := by omega
      have hind := hfills.filled ndirect (Finset.mem_singleton_self _)
      obtain ⟨hfills', hbytes', ha⟩ :=
        bmapEntry_spec (hs.evolves hfills.toEvolves) hind haddr hj hq
      rw [hplace] at hfills' ha
      rw [touched, if_neg hbn, dataSlot, if_neg hbn]
      have hmax : maxfile = ndirect + nindirect := rfl
      exact ⟨by omega, hfills.trans hs hfills', fun pos => (hbytes' pos).trans (hbytes pos), ha⟩
    · rw [if_neg hj] at h
      cases h

/-- A block that is there is found without a change. -/
theorem bmap_mapped (h : slot d ip.toDinode (dataSlot bn) ≠ 0) :
    bmap sb.toSuperblock d ip bn = .ok ((slot d ip.toDinode (dataSlot bn)).toNat, d, ip) := by
  unfold bmap
  by_cases hbn : bn < ndirect
  · rw [dataSlot, if_pos hbn] at h ⊢
    rw [dif_pos hbn, bmapAddr]
    have haddr := slot_addr d ip.toDinode ⟨bn, hbn.trans (Nat.lt_succ_self _)⟩
    simp only at haddr
    rw [haddr] at h ⊢
    rw [if_neg h]
  · rw [dataSlot, if_neg hbn] at h ⊢
    rw [dif_neg hbn]
    have hj : bn - ndirect < nindirect := by
      by_contra hj
      refine h (slot_out ?_)
      have hmax : maxfile = ndirect + nindirect := rfl
      omega
    have hind : ip.addrs (Fin.last ndirect) ≠ 0 := by
      intro hzero
      exact h (slot_of_no_indirect hzero (by omega))
    have hplace : ndirect + 1 + (bn - ndirect) = bn + 1 := by omega
    have hentry := slot_entry (d := d) hj hind
    rw [hplace] at hentry
    rw [hentry] at h ⊢
    rw [if_pos hj, bmapAddr, if_neg hind, ok_bind, bmapEntry, if_neg h, ok_bind]

theorem freeBlocks_nonempty (h : 0 < (freeBlocks sb.toSuperblock d).card) :
    ∃ c d', balloc sb.toSuperblock d = .ok (c, d') := by
  obtain ⟨b, hb⟩ := Finset.card_pos.mp h
  simp only [freeBlocks, Finset.mem_filter, Finset.mem_range] at hb
  exact balloc_returns hb.1 hb.2

theorem card_missing_singleton (d : Disk) (v : Dinode) (k : ℕ) (h : slot d v k = 0) :
    (missing d v {k}).card = 1 := by
  rw [missing, Finset.filter_singleton, if_pos h, Finset.card_singleton]

theorem bmapAddr_returns {k : Fin (ndirect + 1)}
    (h : (missing d ip.toDinode {(k : ℕ)}).card ≤ (freeBlocks sb.toSuperblock d).card) :
    ∃ a d' ip', bmapAddr sb.toSuperblock d ip k = .ok (a, d', ip') := by
  unfold bmapAddr
  by_cases hk : ip.addrs k = 0
  · rw [card_missing_singleton d ip.toDinode k (by rw [slot_addr, hk])] at h
    obtain ⟨c, e, hc⟩ := freeBlocks_nonempty h
    rw [if_pos hk, hc]
    exact ⟨_, _, _, rfl⟩
  · rw [if_neg hk]
    exact ⟨_, _, _, rfl⟩

theorem bmapEntry_returns {addr : ℕ} (hind : slot d ip.toDinode ndirect ≠ 0)
    (haddr : addr = (slot d ip.toDinode ndirect).toNat) (hj : j < nindirect)
    (h : (missing d ip.toDinode {ndirect + 1 + j}).card ≤ (freeBlocks sb.toSuperblock d).card) :
    ∃ a d', bmapEntry sb.toSuperblock d addr j = .ok (a, d') := by
  rw [slot_indirect] at hind haddr
  unfold bmapEntry
  by_cases hk : word (d addr) (4 * j) = 0
  · rw [card_missing_singleton d ip.toDinode _ (by rw [slot_entry hj hind, ← haddr, hk])] at h
    obtain ⟨c, e, hc⟩ := freeBlocks_nonempty h
    rw [if_pos hk, hc]
    exact ⟨_, _, rfl⟩
  · rw [if_neg hk]
    exact ⟨_, _, rfl⟩

theorem bmap_returns (hs : Intact sb d ip) (hbn : bn < maxfile)
    (h : (missing d ip.toDinode (touched bn)).card ≤ (freeBlocks sb.toSuperblock d).card) :
    ∃ a d' ip', bmap sb.toSuperblock d ip bn = .ok (a, d', ip') := by
  unfold bmap
  by_cases hdirect : bn < ndirect
  · rw [touched, if_pos hdirect] at h
    rw [dif_pos hdirect]
    exact bmapAddr_returns h
  · have hmax : maxfile = ndirect + nindirect := rfl
    have hj : bn - ndirect < nindirect := by omega
    have hplace : ndirect + 1 + (bn - ndirect) = bn + 1 := by omega
    rw [touched, if_neg hdirect] at h
    rw [dif_neg hdirect, if_pos hj]
    have hpair : ({ndirect, bn + 1} : Finset ℕ) = {ndirect} ∪ {bn + 1} := rfl
    rw [hpair] at h
    obtain ⟨addr, e, iq, hr⟩ := bmapAddr_returns (k := Fin.last ndirect)
      ((card_missing_mono d ip.toDinode Finset.subset_union_left).trans h)
    obtain ⟨hfills, -, haddr⟩ := bmapAddr_spec hs hr
    have hind := hfills.filled ndirect (Finset.mem_singleton_self _)
    have hcost := hfills.cost
    have hunion := hfills.card_missing_union hs {bn + 1}
    rw [Fin.val_last] at hunion
    rw [Fin.val_last] at hcost
    have hrest : (missing e iq.toDinode {ndirect + 1 + (bn - ndirect)}).card ≤
        (freeBlocks sb.toSuperblock e).card := by
      rw [hplace]
      omega
    obtain ⟨c, e', hq⟩ := bmapEntry_returns hind haddr hj hrest
    rw [hr, ok_bind, hq]
    exact ⟨_, _, _, rfl⟩

end Mapping

end BlockMapping
