import Xv6Gui.FileBlocks

/-!
# Writing a file on a well-formed disk

An inode that ilock has read is the inode on disk. writei replaces bytes of its file, grows it
at most to the end of what it writes and leaves every other inode alone, and readi reads the
bytes back.
-/
namespace FileWrites

open WordMemory DiskBlocks BlockMaps GuardedRuns Ledgers BlockOwnership BlockMapping FileBlocks
open WindowManagerState (Fault)

/-- The inode in memory after `ilock`. -/
def load (sb : Superblock) (d : Disk) (i : ℕ) : Inode := ⟨dinode sb d i, i⟩

/-- No block is owned twice, all that is owned is marked, and files have no holes. -/
structure WellMapped (sb : Layout) (d : Disk) : Prop where
  sound : Sound (metadata sb.toSuperblock)
    (ledger sb.toSuperblock d (dinode sb.toSuperblock d))
  mapped : ∀ i < sb.ninodes, (dinode sb.toSuperblock d i).type ≠ 0 →
    ∀ pos < (dinode sb.toSuperblock d i).size.toNat,
      slot d (dinode sb.toSuperblock d i) (dataSlot (pos / bsize)) ≠ 0

def contents (d : Disk) (v : Dinode) : List Byte := (List.range v.size.toNat).map (byteAt d v)

/-- What reading a range of a file returns. -/
def readRange (data : List Byte) (off n : Word) : Option (List Byte) :=
  if off.toNat > data.length ∨ off.toNat + n.toNat ≥ 4294967296 then none
  else some ((data.drop off.toNat).take n.toNat)

/-- The contents with the bytes from `off` on replaced. -/
def splice (data : List Byte) (off : ℕ) (bytes : List Byte) : List Byte :=
  data.take off ++ bytes ++ data.drop (off + bytes.length)

/-- The cases in which `writei` returns -1. -/
def Refused (size off n : Word) : Prop :=
  off.toNat > size.toNat ∨ off.toNat + n.toNat ≥ 4294967296 ∨
    off.toNat + n.toNat > maxfile * bsize

instance (size off n : Word) : Decidable (Refused size off n) :=
  inferInstanceAs (Decidable (_ ∨ _ ∨ _))

section Words

variable {off n size : Word}

/-- The test of the code for an overflow of the sum. -/
theorem overflow_iff (off n : Word) : off + n < off ↔ off.toNat + n.toNat ≥ 4294967296 := by
  have hoff := off.isLt
  have hn := n.isLt
  rw [BitVec.lt_def, BitVec.toNat_add]
  omega

theorem toNat_add (h : off.toNat + n.toNat < 4294967296) :
    (off + n).toNat = off.toNat + n.toNat := by
  rw [BitVec.toNat_add]
  exact Nat.mod_eq_of_lt h

theorem toNat_limit : (BitVec.ofNat 32 (maxfile * bsize)).toNat = maxfile * bsize := rfl

theorem toNat_sub (h : off.toNat ≤ size.toNat) : (size - off).toNat = size.toNat - off.toNat :=
  BitVec.toNat_sub_of_le (BitVec.le_def.mpr h)

end Words

section Reading

variable {sb : Layout} {d : Disk} {ip : Inode}

theorem length_contents (d : Disk) (v : Dinode) : (contents d v).length = v.size.toNat := by
  rw [contents, List.length_map, List.length_range]

/-- Bytes read from a file without holes are those of its contents. -/
theorem readi_eq (h : ∀ pos < ip.size.toNat, slot d ip.toDinode (dataSlot (pos / bsize)) ≠ 0)
    (off n : Word) : readi sb.toSuperblock d ip off n =
      .ok (readRange (contents d ip.toDinode) off n, d, ip) := by
  have hiff : off > ip.size ∨ off + n < off ↔
      off.toNat > (contents d ip.toDinode).length ∨ off.toNat + n.toNat ≥ 4294967296 := by
    rw [length_contents, overflow_iff, gt_iff_lt, BitVec.lt_def]
  unfold readi readRange
  by_cases hbad : off > ip.size ∨ off + n < off
  · rw [if_pos hbad, if_pos (hiff.mp hbad)]
  · rw [if_neg hbad, if_neg (fun hc => hbad (hiff.mpr hc))]
    rw [hiff, length_contents] at hbad
    obtain ⟨hoff, hsum⟩ := not_or.mp hbad
    have hadd : (off + n).toNat = off.toNat + n.toNat := toNat_add (by omega)
    have hlen : (if off + n > ip.size then ip.size - off else n).toNat =
        min n.toNat (ip.size.toNat - off.toNat) := by
      by_cases hlong : off + n > ip.size
      · rw [if_pos hlong, toNat_sub (by omega)]
        rw [gt_iff_lt, BitVec.lt_def, hadd] at hlong
        omega
      · rw [if_neg hlong]
        rw [gt_iff_lt, BitVec.lt_def, hadd] at hlong
        omega
    simp only [hlen]
    rw [readBlocks_eq (fun pos _ hpos => h pos (by omega)), ok_bind]
    have hbytes : (List.range (min n.toNat (ip.size.toNat - off.toNat))).map
        (fun i => byteAt d ip.toDinode (off.toNat + i)) =
          ((contents d ip.toDinode).drop off.toNat).take n.toNat := by
      apply List.ext_getElem
      · rw [List.length_take, List.length_drop, length_contents, List.length_map,
          List.length_range]
      · intro i hi hi'
        simp only [contents, List.getElem_map, List.getElem_range, List.getElem_take,
          List.getElem_drop]
    rw [hbytes]

end Reading

section Updating

variable {sb : Layout} {d d' : Disk} {ip : Inode} {v : Dinode} {i j k : ℕ}

theorem inodes_load (sb : Superblock) (d : Disk) (i : ℕ) :
    inodes sb d (load sb d i) = dinode sb d := Function.update_eq_self _ _

theorem WellMapped.intact (h : WellMapped sb d) (hi : i < sb.ninodes)
    (htype : (dinode sb.toSuperblock d i).type ≠ 0) : Intact sb d (load sb.toSuperblock d i) := by
  refine ⟨hi, htype, ?_⟩
  rw [inodes_load]
  exact h.sound

/-- What is in data blocks is the same on disks that differ in other blocks only. -/
theorem slot_of_data_blocks (h : ∀ x, sb.nmeta ≤ x → d' x = d x)
    (hv : ∀ k, slot d v k ≠ 0 → sb.nmeta ≤ (slot d v k).toNat) (k : ℕ) :
    slot d' v k = slot d v k :=
  slot_congr rfl fun hind => h _ (hv ndirect hind)

theorem byteAt_of_data_blocks (h : ∀ x, sb.nmeta ≤ x → d' x = d x)
    (hv : ∀ k, slot d v k ≠ 0 → sb.nmeta ≤ (slot d v k).toNat) (pos : ℕ) :
    byteAt d' v pos = byteAt d v pos := by
  simp only [byteAt, slot_of_data_blocks h hv]
  split
  · rfl
  · next hne => rw [h _ (hv _ hne)]

/-- iupdate makes the inodes on disk those in memory. -/
theorem dinode_iupdate (sb : Superblock) (d : Disk) (ip : Inode) :
    dinode sb (iupdate sb d ip) = inodes sb d ip := by
  funext j
  by_cases hj : j = ip.inum
  · subst hj
    rw [iupdate, dinode_putDinode_self, inodes_self]
  · rw [iupdate, dinode_putDinode_of_ne _ _ _ hj, inodes_of_ne _ _ hj]

theorem iupdate_of_low (hi : ip.inum < sb.ninodes) {x : ℕ} (hx : sb.bmapstart ≤ x) :
    iupdate sb.toSuperblock d ip x = d x :=
  putDinode_of_ne _ _ _ _ ((iblock_lt hi).trans_le hx).ne'

theorem iupdate_data (hi : ip.inum < sb.ninodes) (x : ℕ) (hx : sb.nmeta ≤ x) :
    iupdate sb.toSuperblock d ip x = d x :=
  iupdate_of_low hi (((Nat.le_add_right _ _).trans (Nat.le_succ _)).trans hx)

theorem marked_iupdate (hi : ip.inum < sb.ninodes) (b : ℕ) :
    Marked sb.toSuperblock (iupdate sb.toSuperblock d ip) b ↔ Marked sb.toSuperblock d b := by
  rw [Marked, Marked, iupdate_of_low hi (bmapstart_le_bblock b)]

/-- The blocks of allocated inodes are data blocks. -/
theorem data_slots {ino : ℕ → Dinode}
    (hs : Sound (metadata sb.toSuperblock) (ledger sb.toSuperblock d ino)) (hj : j < sb.ninodes)
    (htype : (ino j).type ≠ 0) (hk : slot d (ino j) k ≠ 0) :
    sb.nmeta ≤ (slot d (ino j) k).toNat :=
  Nat.not_lt.mp (hs.held_used _ _ (held_of_slot hj htype hk)).2

theorem ledger_iupdate (hi : ip.inum < sb.ninodes) (hs : Sound (metadata sb.toSuperblock)
      (ledger sb.toSuperblock d (inodes sb.toSuperblock d ip))) :
    ledger sb.toSuperblock (iupdate sb.toSuperblock d ip)
        (dinode sb.toSuperblock (iupdate sb.toSuperblock d ip)) =
      ledger sb.toSuperblock d (inodes sb.toSuperblock d ip) := by
  rw [dinode_iupdate]
  apply Ledger.ext
  · funext key
    obtain ⟨j, k⟩ := key
    by_cases hj : j < sb.ninodes ∧ (inodes sb.toSuperblock d ip j).type ≠ 0
    · have hslot := slot_of_data_blocks (iupdate_data (d := d) hi)
        (fun k hk => data_slots hs hj.1 hj.2 hk) k
      simp only [ledger, hslot]
    · rw [not_and] at hj
      have hout : ∀ P : Prop, ¬(j < sb.ninodes ∧ (inodes sb.toSuperblock d ip j).type ≠ 0 ∧ P) :=
        fun P h => hj h.1 h.2.1
      simp only [ledger, if_neg (hout _)]
  · ext c
    constructor
    · rintro ⟨hc, hm⟩
      exact ⟨hc, (marked_iupdate hi c).mp hm⟩
    · rintro ⟨hc, hm⟩
      exact ⟨hc, (marked_iupdate hi c).mpr hm⟩

/-- The size of an inode has no part in who owns what. -/
theorem ledger_setSize (sb : Superblock) (d : Disk) (ip : Inode) (size : Word) :
    ledger sb d (inodes sb d { ip with size := size }) = ledger sb d (inodes sb d ip) := by
  apply Ledger.ext
  · funext key
    obtain ⟨j, k⟩ := key
    by_cases hj : j = ip.inum
    · subst hj
      have hself := inodes_self sb d { ip with size := size }
      simp only at hself
      simp only [ledger, hself, inodes_self]
      rfl
    · have hother : inodes sb d { ip with size := size } j = dinode sb d j := inodes_of_ne _ _ hj
      simp only [ledger, hother, inodes_of_ne _ _ hj]
  · rfl

theorem intact_setSize (hs : Intact sb d ip) (size : Word) :
    Intact sb d { ip with size := size } := by
  refine ⟨hs.inum_lt, hs.allocated, ?_⟩
  rw [ledger_setSize]
  exact hs.sound

end Updating

section Writing

variable {sb : Layout} {d d' : Disk} {ip ip' : Inode} {v v' : Dinode} {src : Memory} {off n : ℕ}

theorem contents_splice (hoff : off ≤ v.size.toNat)
    (hsize : v'.size.toNat = max v.size.toNat (off + n))
    (hbytes : ∀ pos < v'.size.toNat, byteAt d' v' pos =
      if off ≤ pos ∧ pos < off + n then src (pos - off) else byteAt d v pos) :
    contents d' v' = splice (contents d v) off ((List.range n).map src) := by
  have hlen : (splice (contents d v) off ((List.range n).map src)).length =
      max v.size.toNat (off + n) := by
    simp only [splice, List.length_append, List.length_take, List.length_drop, length_contents,
      List.length_map, List.length_range]
    omega
  apply List.ext_getElem
  · rw [length_contents, hlen, hsize]
  · intro pos hpos hpos'
    rw [length_contents] at hpos
    have hold : (contents d v).length = v.size.toNat := length_contents d v
    rw [hsize] at hpos
    have hbyte : (contents d' v')[pos] = byteAt d' v' pos := by
      simp only [contents, List.getElem_map, List.getElem_range]
    rw [hbyte, hbytes pos (by omega)]
    simp only [splice, List.getElem_append, List.length_append, List.length_take, hold,
      List.length_map, List.length_range, min_eq_left hoff]
    by_cases hin : off ≤ pos ∧ pos < off + n
    · rw [if_pos hin, dif_pos hin.2, dif_neg (by omega)]
      simp only [List.getElem_map, List.getElem_range]
    · rw [if_neg hin]
      by_cases hlow : pos < off
      · rw [dif_pos (by omega), dif_pos hlow, List.getElem_take]
        simp only [contents, List.getElem_map, List.getElem_range]
      · have hplace : off + n + (pos - (off + n)) = pos := by omega
        rw [dif_neg (by omega), List.getElem_drop]
        simp only [contents, List.getElem_map, List.getElem_range, hplace]

/-- Slots that are filled stay, so with nothing missing the inode does not change. -/
theorem eq_of_filled {S : Finset ℕ} (hs : Intact sb d ip) (h : Fills sb S d ip d' ip')
    (hfilled : ∀ k ∈ S, slot d ip.toDinode k ≠ 0) : ip' = ip := by
  have haddrs : ip'.addrs = ip.addrs := by
    funext k
    rw [← slot_addr d' ip'.toDinode k, ← slot_addr d ip.toDinode k]
    by_cases hk : (k : ℕ) ∈ S
    · exact h.toEvolves.slot_kept hs (hfilled k hk)
    · exact h.kept k hk
  rw [h.fields, haddrs]

theorem touched_filled {bn : ℕ} (h : slot d v (dataSlot bn) ≠ 0) :
    ∀ k ∈ touched bn, slot d v k ≠ 0 := by
  intro k hk
  unfold touched dataSlot at *
  split at hk
  · next hbn =>
    rw [if_pos hbn] at h
    rw [Finset.mem_singleton.mp hk]
    exact h
  · next hbn =>
    rw [if_neg hbn] at h
    rcases Finset.mem_insert.mp hk with rfl | hk
    · intro hzero
      rw [slot_indirect] at hzero
      exact h (slot_of_no_indirect hzero (by omega))
    · rw [Finset.mem_singleton.mp hk]
      exact h

/-- A write of `n` bytes that was carried out. -/
structure Written (sb : Layout) (d : Disk) (i : ℕ) (src : Memory) (off n : ℕ) (d' : Disk)
    (ip' : Inode) : Prop where
  loaded : ip' = load sb.toSuperblock d' i
  type : ip'.type = (dinode sb.toSuperblock d i).type
  size : ip'.size.toNat = max (dinode sb.toSuperblock d i).size.toNat (off + n)
  contents : contents d' ip'.toDinode =
    splice (contents d (dinode sb.toSuperblock d i)) off ((List.range n).map src)
  others : ∀ j < sb.ninodes, j ≠ i → (dinode sb.toSuperblock d j).type ≠ 0 →
    dinode sb.toSuperblock d' j = dinode sb.toSuperblock d j ∧
      FileWrites.contents d' (dinode sb.toSuperblock d j) =
        FileWrites.contents d (dinode sb.toSuperblock d j)
  slots : ∀ k, slot d' ip'.toDinode k ≠ 0 ↔
    k ∈ span off n ∨ slot d (dinode sb.toSuperblock d i) k ≠ 0
  other_slots : ∀ j < sb.ninodes, j ≠ i → (dinode sb.toSuperblock d j).type ≠ 0 →
    ∀ k, slot d' (dinode sb.toSuperblock d j) k = slot d (dinode sb.toSuperblock d j) k
  wellMapped : WellMapped sb d'

variable {i : ℕ}

/-- The other inodes after the loop of a write. -/
theorem evolves_others (hs : Intact sb d ip) (h : Evolves sb d ip d' ip') {j : ℕ}
    (hj : j < sb.ninodes) (hne : j ≠ ip.inum) (htype : (dinode sb.toSuperblock d j).type ≠ 0) :
    dinode sb.toSuperblock d' j = dinode sb.toSuperblock d j ∧
      (∀ k, slot d' (dinode sb.toSuperblock d j) k = slot d (dinode sb.toSuperblock d j) k) ∧
      ∀ pos, byteAt d' (dinode sb.toSuperblock d j) pos =
        byteAt d (dinode sb.toSuperblock d j) pos := by
  obtain ⟨hslots, hblocks⟩ := h.other hs hj hne htype
  refine ⟨dinode_of_inode_blocks h.inode_blocks hj, hslots, ?_⟩
  intro pos
  simp only [byteAt, hslots]
  split
  · rfl
  · next hk => rw [hblocks _ hk]

theorem filled_iff {S : Finset ℕ} (hs : Intact sb d ip) (h : Fills sb S d ip d' ip') (k : ℕ) :
    slot d' ip'.toDinode k ≠ 0 ↔ k ∈ S ∨ slot d ip.toDinode k ≠ 0 := by
  constructor
  · intro hk
    by_cases hS : k ∈ S
    · exact .inl hS
    · rw [h.kept k hS] at hk
      exact .inr hk
  · rintro (hS | hk)
    · exact h.filled k hS
    · rw [h.toEvolves.slot_kept hs hk]
      exact hk

theorem contents_congr {v : Dinode} (h : ∀ pos, byteAt d' v pos = byteAt d v pos) :
    contents d' v = contents d v := by
  have hfun : byteAt d' v = byteAt d v := funext h
  rw [contents, contents, hfun]

/-- A write that stays within the file finds all its blocks. -/
theorem written_within (hd : WellMapped sb d) (hi : i < sb.ninodes)
    (htype : (dinode sb.toSuperblock d i).type ≠ 0)
    (hin : n = 0 ∨ off + n ≤ (dinode sb.toSuperblock d i).size.toNat)
    (hoff : off ≤ (dinode sb.toSuperblock d i).size.toNat)
    (h : writeBlocks sb.toSuperblock d (load sb.toSuperblock d i) src off n = .ok (d', ip')) :
    Written sb d i src off n d' ip' := by
  have hs := hd.intact hi htype
  obtain ⟨hfills, hbytes⟩ := writeBlocks_spec hs h
  have hsame : ip' = load sb.toSuperblock d i := by
    apply eq_of_filled hs hfills
    intro k hk
    obtain ⟨m, hm, hk⟩ := mem_span.mp hk
    exact touched_filled (hd.mapped i hi htype _ (by omega)) k hk
  have hself : dinode sb.toSuperblock d' i = dinode sb.toSuperblock d i :=
    dinode_of_inode_blocks hfills.inode_blocks hi
  have hload : ip' = load sb.toSuperblock d' i := by rw [hsame, load, load, hself]
  have hsize : ip'.size.toNat = max (dinode sb.toSuperblock d i).size.toNat (off + n) := by
    rw [hsame]
    change (dinode sb.toSuperblock d i).size.toNat = _
    omega
  constructor
  case loaded => exact hload
  case type =>
    rw [hsame]
    rfl
  case size => exact hsize
  case contents => exact contents_splice hoff hsize (fun pos _ => hbytes pos)
  case others =>
    intro j hj hne htype'
    obtain ⟨hdinode, -, hbytes'⟩ := evolves_others hs hfills.toEvolves hj hne htype'
    exact ⟨hdinode, contents_congr hbytes'⟩
  case slots => exact filled_iff hs hfills
  case other_slots =>
    exact fun j hj hne htype' => (evolves_others hs hfills.toEvolves hj hne htype').2.1
  case wellMapped =>
    have hs' := hs.evolves hfills.toEvolves
    constructor
    case sound =>
      have hsound := hs'.sound
      rw [hload, inodes_load] at hsound
      exact hsound
    case mapped =>
      intro j hj htype' pos hpos
      by_cases hne : j = i
      · subst hne
        rw [hself] at hpos ⊢
        have hkept := hfills.toEvolves.slot_kept hs (hd.mapped j hj htype pos hpos)
        rw [hsame] at hkept
        change slot d' (dinode sb.toSuperblock d j) _ = _ at hkept
        rw [hkept]
        exact hd.mapped j hj htype pos hpos
      · have hdinode := dinode_of_inode_blocks hfills.inode_blocks hj
        rw [hdinode] at htype' hpos ⊢
        rw [(evolves_others hs hfills.toEvolves hj hne htype').2.1]
        exact hd.mapped j hj htype' pos hpos

/-- A write to the end of the file or over it, with the inode written back. -/
theorem written_beyond {size : Word} (hd : WellMapped sb d) (hi : i < sb.ninodes)
    (htype : (dinode sb.toSuperblock d i).type ≠ 0) (hsize : size.toNat = off + n)
    (hout : (dinode sb.toSuperblock d i).size.toNat ≤ off + n)
    (hoff : off ≤ (dinode sb.toSuperblock d i).size.toNat)
    (h : writeBlocks sb.toSuperblock d (load sb.toSuperblock d i) src off n = .ok (d', ip')) :
    Written sb d i src off n (iupdate sb.toSuperblock d' { ip' with size := size })
      { ip' with size := size } := by
  have hs := hd.intact hi htype
  obtain ⟨hfills, hbytes⟩ := writeBlocks_spec hs h
  have hs' := intact_setSize (hs.evolves hfills.toEvolves) size
  have hinum : ip'.inum = i := by rw [hfills.fields]; rfl
  set iq : Inode := { ip' with size := size } with hiq
  have hinum' : iq.inum = i := hinum
  have hdinodes := dinode_iupdate sb.toSuperblock d' iq
  have hself : dinode sb.toSuperblock (iupdate sb.toSuperblock d' iq) i = iq.toDinode := by
    rw [hdinodes, ← hinum', inodes_self]
  have hother : ∀ j, j ≠ i → dinode sb.toSuperblock (iupdate sb.toSuperblock d' iq) j =
      dinode sb.toSuperblock d' j := by
    intro j hj
    rw [hdinodes, inodes_of_ne _ _ (hinum' ▸ hj)]
  have hdata := iupdate_data (d := d') hs'.inum_lt
  have hlow : ∀ k, slot d' iq.toDinode k ≠ 0 → sb.nmeta ≤ (slot d' iq.toDinode k).toNat :=
    fun k hk => (hs'.slot_data hk).1
  have hothers : ∀ j < sb.ninodes, j ≠ i → (dinode sb.toSuperblock d j).type ≠ 0 →
      dinode sb.toSuperblock (iupdate sb.toSuperblock d' iq) j = dinode sb.toSuperblock d j ∧
      (∀ k, slot (iupdate sb.toSuperblock d' iq) (dinode sb.toSuperblock d j) k =
        slot d (dinode sb.toSuperblock d j) k) ∧
      ∀ pos, byteAt (iupdate sb.toSuperblock d' iq) (dinode sb.toSuperblock d j) pos =
        byteAt d (dinode sb.toSuperblock d j) pos := by
    intro j hj hne htype'
    obtain ⟨hdinode, hslots, hbytes'⟩ := evolves_others hs hfills.toEvolves hj hne htype'
    have hlow' : ∀ k, slot d' (dinode sb.toSuperblock d j) k ≠ 0 →
        sb.nmeta ≤ (slot d' (dinode sb.toSuperblock d j) k).toNat := by
      intro k hk
      have hdata := data_slots (k := k) hs'.sound hj
      rw [inodes_of_ne _ _ (hinum' ▸ hne), hdinode] at hdata
      exact hdata htype' hk
    exact ⟨(hother j hne).trans hdinode,
      fun k => (slot_of_data_blocks hdata hlow' k).trans (hslots k),
      fun pos => (byteAt_of_data_blocks hdata hlow' pos).trans (hbytes' pos)⟩
  have hmax : iq.size.toNat = max (dinode sb.toSuperblock d i).size.toNat (off + n) := by
    change size.toNat = _
    omega
  constructor
  case loaded =>
    rw [load, hself]
    exact hinum' ▸ rfl
  case type =>
    change ip'.type = _
    rw [hfills.fields]
    rfl
  case size => exact hmax
  case contents =>
    exact contents_splice hoff hmax
      (fun pos _ => (byteAt_of_data_blocks hdata hlow pos).trans (hbytes pos))
  case others =>
    intro j hj hne htype'
    obtain ⟨hdinode, -, hbytes'⟩ := hothers j hj hne htype'
    exact ⟨hdinode, contents_congr hbytes'⟩
  case slots =>
    intro k
    rw [slot_of_data_blocks hdata hlow]
    exact filled_iff hs hfills k
  case other_slots => exact fun j hj hne htype' => (hothers j hj hne htype').2.1
  case wellMapped =>
    constructor
    case sound =>
      rw [ledger_iupdate hs'.inum_lt hs'.sound]
      exact hs'.sound
    case mapped =>
      intro j hj htype' pos hpos
      by_cases hne : j = i
      · subst hne
        rw [hself] at hpos ⊢
        change pos < size.toNat at hpos
        rw [slot_of_data_blocks hdata hlow]
        change slot d' ip'.toDinode _ ≠ 0
        by_cases hnew : off ≤ pos
        · exact hfills.filled _ (dataSlot_mem_span hnew (by omega))
        · have hold := hd.mapped j hj htype pos (by omega)
          rw [hfills.toEvolves.slot_kept hs hold]
          exact hold
      · have hdinode := (hother j hne).trans (dinode_of_inode_blocks hfills.inode_blocks hj)
        rw [hdinode] at htype' hpos ⊢
        rw [(hothers j hj hne htype').2.1]
        exact hd.mapped j hj htype' pos hpos

/-- Every way in which writei returns. -/
theorem writei_cases {off n : Word} {r : ℤ} (h : writei sb.toSuperblock d ip src off n =
      .ok (r, d', ip')) :
    Refused ip.size off n ∧ r = -1 ∧ d' = d ∧ ip' = ip ∨
      ¬Refused ip.size off n ∧ r = n.toNat ∧ ∃ e iq,
        writeBlocks sb.toSuperblock d ip src off.toNat n.toNat = .ok (e, iq) ∧
        (off + n).toNat = off.toNat + n.toNat ∧ off.toNat ≤ ip.size.toNat ∧
        ((n = 0 ∨ off.toNat + n.toNat ≤ ip.size.toNat) ∧ d' = e ∧ ip' = iq ∨
          ip.size.toNat < off.toNat + n.toNat ∧ ip' = { iq with size := off + n } ∧
            d' = iupdate sb.toSuperblock e ip') := by
  have hfirst : off > ip.size ∨ off + n < off ↔
      off.toNat > ip.size.toNat ∨ off.toNat + n.toNat ≥ 4294967296 := by
    rw [overflow_iff, gt_iff_lt, BitVec.lt_def]
  unfold writei at h
  by_cases hbad : off > ip.size ∨ off + n < off
  · rw [if_pos hbad] at h
    cases h
    rw [hfirst] at hbad
    exact .inl ⟨hbad.imp_right .inl, rfl, rfl, rfl⟩
  rw [if_neg hbad] at h
  rw [hfirst, not_or, not_lt, ge_iff_le, not_le] at hbad
  have hadd := toNat_add hbad.2
  by_cases hlong : off + n > BitVec.ofNat 32 (maxfile * bsize)
  · rw [if_pos hlong] at h
    cases h
    rw [gt_iff_lt, BitVec.lt_def, toNat_limit, hadd] at hlong
    exact .inl ⟨.inr (.inr hlong), rfl, rfl, rfl⟩
  rw [if_neg hlong] at h
  rw [gt_iff_lt, BitVec.lt_def, toNat_limit, hadd, not_lt] at hlong
  have haccepted : ¬Refused ip.size off n := by
    rintro (hoff | hsum | hlimit)
    · exact absurd hoff (not_lt.mpr hbad.1)
    · exact absurd hsum (not_le.mpr hbad.2)
    · exact absurd hlimit (not_lt.mpr hlong)
  obtain ⟨⟨e, iq⟩, hw, h⟩ := bind_eq_ok.mp h
  have hgrow : n > 0 ∧ off + n > ip.size ↔
      0 < n.toNat ∧ ip.size.toNat < off.toNat + n.toNat := by
    rw [gt_iff_lt, gt_iff_lt, BitVec.lt_def, BitVec.lt_def, hadd]
    rfl
  right
  by_cases hcase : n > 0 ∧ off + n > ip.size
  · rw [if_pos hcase] at h
    cases h
    exact ⟨haccepted, rfl, e, iq, hw, hadd, hbad.1, .inr ⟨(hgrow.mp hcase).2, rfl, rfl⟩⟩
  · rw [if_neg hcase] at h
    cases h
    rw [hgrow] at hcase
    refine ⟨haccepted, rfl, _, _, hw, hadd, hbad.1, .inl ⟨?_, rfl, rfl⟩⟩
    by_cases hn : n = 0
    · exact .inl hn
    · have hpos : 0 < n.toNat := Nat.pos_of_ne_zero fun hz => hn (BitVec.eq_of_toNat_eq hz)
      exact .inr (by omega)

theorem writei_spec {off n : Word} {r : ℤ} (hd : WellMapped sb d) (hi : i < sb.ninodes)
    (htype : (dinode sb.toSuperblock d i).type ≠ 0)
    (h : writei sb.toSuperblock d (load sb.toSuperblock d i) src off n = .ok (r, d', ip')) :
    Refused (dinode sb.toSuperblock d i).size off n ∧ r = -1 ∧ d' = d ∧
        ip' = load sb.toSuperblock d i ∨
      ¬Refused (dinode sb.toSuperblock d i).size off n ∧ r = n.toNat ∧
        Written sb d i src off.toNat n.toNat d' ip' := by
  rcases writei_cases h with hrefused | ⟨hcan, hr, e, iq, hw, hadd, hoff, hcase⟩
  · exact .inl hrefused
  · refine .inr ⟨hcan, hr, ?_⟩
    rcases hcase with ⟨hin, hd', hip⟩ | ⟨hout, hip, hd'⟩
    · rw [hd', hip]
      exact written_within hd hi htype (hin.imp_left (congrArg BitVec.toNat)) hoff hw
    · rw [hd', hip]
      exact written_beyond hd hi htype hadd hout.le hoff hw

/-- With a free block for each slot that is missing, writei returns. -/
theorem writei_returns {off n : Word} (hd : WellMapped sb d) (hi : i < sb.ninodes)
    (htype : (dinode sb.toSuperblock d i).type ≠ 0)
    (hfree : ¬Refused (dinode sb.toSuperblock d i).size off n →
      (missing d (dinode sb.toSuperblock d i) (span off.toNat n.toNat)).card ≤
        (freeBlocks sb.toSuperblock d).card) :
    ∃ r d' ip', writei sb.toSuperblock d (load sb.toSuperblock d i) src off n =
      .ok (r, d', ip') := by
  unfold writei
  by_cases hbad : off > (load sb.toSuperblock d i).size ∨ off + n < off
  · rw [if_pos hbad]
    exact ⟨_, _, _, rfl⟩
  rw [if_neg hbad]
  rw [overflow_iff, gt_iff_lt, BitVec.lt_def, not_or, not_lt, ge_iff_le, not_le] at hbad
  have hadd := toNat_add hbad.2
  by_cases hlong : off + n > BitVec.ofNat 32 (maxfile * bsize)
  · rw [if_pos hlong]
    exact ⟨_, _, _, rfl⟩
  rw [if_neg hlong]
  rw [gt_iff_lt, BitVec.lt_def, toNat_limit, hadd, not_lt] at hlong
  have haccepted : ¬Refused (dinode sb.toSuperblock d i).size off n := by
    rintro (hoff | hsum | hlimit)
    · exact absurd hoff (not_lt.mpr hbad.1)
    · exact absurd hsum (not_le.mpr hbad.2)
    · exact absurd hlimit (not_lt.mpr hlong)
  obtain ⟨e, iq, hw⟩ : ∃ e iq, writeBlocks sb.toSuperblock d (load sb.toSuperblock d i) src
      off.toNat n.toNat = .ok (e, iq) :=
    writeBlocks_returns (hd.intact hi htype) hlong (hfree haccepted)
  rw [hw, ok_bind]
  split
  · exact ⟨_, _, _, rfl⟩
  · exact ⟨_, _, _, rfl⟩

/-- The file reads as the data that were written, and the other inodes read as before. -/
theorem reads_of_written {off n : ℕ} (h : Written sb d i src off n d' ip') (hi : i < sb.ninodes)
    (htype : (dinode sb.toSuperblock d i).type ≠ 0) :
    (∀ off' n', readi sb.toSuperblock d' ip' off' n' = .ok (readRange
      (splice (contents d (dinode sb.toSuperblock d i)) off ((List.range n).map src)) off' n',
        d', ip')) ∧
    ∀ j < sb.ninodes, j ≠ i → (dinode sb.toSuperblock d j).type ≠ 0 → ∀ off' n',
      readi sb.toSuperblock d' (load sb.toSuperblock d' j) off' n' =
        .ok (readRange (contents d (dinode sb.toSuperblock d j)) off' n', d',
          load sb.toSuperblock d' j) := by
  have hd' := h.wellMapped
  have hmapped : ∀ j < sb.ninodes, (dinode sb.toSuperblock d' j).type ≠ 0 → ∀ off' n',
      readi sb.toSuperblock d' (load sb.toSuperblock d' j) off' n' =
        .ok (readRange (contents d' (dinode sb.toSuperblock d' j)) off' n', d',
          load sb.toSuperblock d' j) := by
    intro j hj htype' off' n'
    exact readi_eq (hd'.mapped j hj htype') off' n'
  constructor
  · intro off' n'
    have htype' : (dinode sb.toSuperblock d' i).type ≠ 0 := by
      have hkept := h.type
      rw [h.loaded] at hkept
      exact hkept ▸ htype
    rw [← h.contents, h.loaded]
    exact hmapped i hi htype' off' n'
  · intro j hj hne htype' off' n'
    obtain ⟨hdinode, hcontents⟩ := h.others j hj hne htype'
    have hread := hmapped j hj (by rw [hdinode]; exact htype') off' n'
    rwa [hdinode, hcontents] at hread

end Writing

def tDir : BitVec 16 := 1
def tFile : BitVec 16 := 2

/-- On a well-formed disk with enough free blocks writei replaces the bytes of a file or a
directory and touches nothing else, or refuses and touches nothing at all. -/
theorem writei_correct (sb : Layout) (d : Disk) (i : ℕ) (src : Memory) (off n : Word)
    (hd : WellMapped sb d) (hi : i < sb.ninodes)
    (htype : (dinode sb.toSuperblock d i).type = tDir ∨
      (dinode sb.toSuperblock d i).type = tFile)
    (hfree : ¬Refused (dinode sb.toSuperblock d i).size off n →
      (missing d (dinode sb.toSuperblock d i) (span off.toNat n.toNat)).card ≤
        (freeBlocks sb.toSuperblock d).card) :
    ∃ r d' ip', writei sb.toSuperblock d (load sb.toSuperblock d i) src off n =
        .ok (r, d', ip') ∧
      (r = -1 ↔ Refused (dinode sb.toSuperblock d i).size off n) ∧
      (r = -1 → d' = d ∧ ip' = load sb.toSuperblock d i) ∧
      (r ≠ -1 → r = n.toNat ∧
        ip'.size.toNat = max (dinode sb.toSuperblock d i).size.toNat (off.toNat + n.toNat) ∧
        dinode sb.toSuperblock d' i = ip'.toDinode ∧
        (∀ off' n', readi sb.toSuperblock d' ip' off' n' = .ok (readRange
          (splice (contents d (dinode sb.toSuperblock d i)) off.toNat
            ((List.range n.toNat).map src)) off' n', d', ip')) ∧
        ∀ j < sb.ninodes, j ≠ i → (dinode sb.toSuperblock d j).type ≠ 0 →
          dinode sb.toSuperblock d' j = dinode sb.toSuperblock d j ∧ ∀ off' n',
            readi sb.toSuperblock d' (load sb.toSuperblock d' j) off' n' =
              .ok (readRange (contents d (dinode sb.toSuperblock d j)) off' n', d',
                load sb.toSuperblock d' j)) := by
  have hallocated : (dinode sb.toSuperblock d i).type ≠ 0 := by
    rcases htype with h | h
    · rw [h]
      decide
    · rw [h]
      decide
  obtain ⟨r, d', ip', h⟩ : ∃ r d' ip', writei sb.toSuperblock d (load sb.toSuperblock d i) src
      off n = .ok (r, d', ip') := writei_returns hd hi hallocated hfree
  refine ⟨r, d', ip', h, ?_⟩
  rcases writei_spec hd hi hallocated h with ⟨hrefused, rfl, rfl, rfl⟩ | ⟨hcan, rfl, hw⟩
  · exact ⟨⟨fun _ => hrefused, fun _ => rfl⟩, fun _ => ⟨rfl, rfl⟩, fun h => absurd rfl h⟩
  · have hne : (n.toNat : ℤ) ≠ -1 := by omega
    obtain ⟨hread, hothers⟩ := reads_of_written hw hi hallocated
    refine ⟨⟨fun h => absurd h hne, fun h => absurd h hcan⟩, fun h => absurd h hne, ?_⟩
    intro _
    refine ⟨rfl, hw.size, ?_, hread, ?_⟩
    · rw [hw.loaded]
      rfl
    · intro j hj hne htype'
      exact ⟨(hw.others j hj hne htype').1, hothers j hj hne htype'⟩

/-- Inodes without blocks own nothing, so the bit map is right when it marks the metadata. -/
theorem exact_of_no_blocks {sb : Layout} {d : Disk}
    (haddrs : ∀ i < sb.ninodes, (dinode sb.toSuperblock d i).addrs = fun _ => 0)
    (hmarked : ∀ b < sb.size, Marked sb.toSuperblock d b ↔ b < sb.nmeta) :
    Exact (metadata sb.toSuperblock) (ledger sb.toSuperblock d (dinode sb.toSuperblock d)) := by
  have hnone : ∀ k, (ledger sb.toSuperblock d (dinode sb.toSuperblock d)).held k = none := by
    rintro ⟨i, k⟩
    refine if_neg ?_
    rintro ⟨hi, -, hk⟩
    exact hk (slot_of_no_addrs (haddrs i hi) k)
  refine ⟨⟨?_, ?_, ?_⟩, ?_⟩
  · intro b hb
    have hsize : b < sb.size := lt_of_lt_of_le hb (nmeta_le_size sb)
    exact ⟨hsize, (hmarked b hsize).mpr hb⟩
  · intro k b hb
    rw [hnone k] at hb
    cases hb
  · intro k k' b hb
    rw [hnone k] at hb
    cases hb
  · exact fun b hb => .inl ((hmarked b hb.1).mp hb.2)

/-- A disk of six blocks: inode block 2, bitmap block 3 and two data blocks. -/
def tiny : Layout where
  size := 6
  nblocks := 2
  ninodes := 2
  nlog := 0
  logstart := 2
  inodestart := 2
  bmapstart := 3
  inode_blocks := by decide
  data_blocks := by decide
  size_lt := by decide

/-- Inode 1 is an empty file. -/
def blank : Disk := fun x b =>
  if x = 2 ∧ b = 64 then 2 else if x = 3 ∧ b = 0 then 15 else 0

theorem exact_blank : Exact (metadata tiny.toSuperblock)
    (ledger tiny.toSuperblock blank (dinode tiny.toSuperblock blank)) := by
  apply exact_of_no_blocks
  · decide
  · decide

theorem wellMapped_blank : WellMapped tiny blank := by
  have hsize : ∀ i < tiny.ninodes, (dinode tiny.toSuperblock blank i).size = 0 := by decide
  refine ⟨exact_blank.toSound, ?_⟩
  intro i hi _ pos hpos
  rw [hsize i hi] at hpos
  exact absurd hpos (Nat.not_lt_zero pos)

theorem writei_correct_blank : ∃ d' ip',
    writei tiny.toSuperblock blank (load tiny.toSuperblock blank 1) (fun _ => 7) 0 3 =
      .ok (3, d', ip') ∧ ip'.size.toNat = 3 ∧
      readi tiny.toSuperblock d' ip' 1 5 = .ok (some [7, 7], d', ip') := by
  obtain ⟨r, d', ip', h, hrefused, -, hdone⟩ := writei_correct tiny blank 1 (fun _ => 7) 0 3
    wellMapped_blank (by decide) (.inr (by decide)) (by decide)
  have hr : r ≠ -1 := by
    rw [Ne, hrefused]
    decide
  obtain ⟨rfl, hsize, -, hread, -⟩ := hdone hr
  refine ⟨d', ip', h, hsize, ?_⟩
  have hrange : readRange (splice (contents blank (dinode tiny.toSuperblock blank 1)) 0
      ((List.range 3).map fun _ => 7)) 1 5 = some [7, 7] := by decide
  rw [hread]
  exact congrArg (fun x => Except.ok (x, d', ip')) hrange

end FileWrites
