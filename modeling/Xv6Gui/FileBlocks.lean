import Xv6Gui.BlockMapping
import Mathlib.Data.Finset.Union

/-!
# The bytes of a file in its blocks

The loops of readi and writei go block by block. What writei puts into the blocks is what the
bytes of the file are afterwards, and where the blocks are there readi returns the bytes and
changes nothing.
-/
namespace FileBlocks

open WordMemory DiskBlocks BlockMaps GuardedRuns Ledgers BlockOwnership BlockMapping
open WindowManagerState (Fault)

/-- The slots that bytes `off` to `off + n` need. -/
def span (off n : ℕ) : Finset ℕ := (Finset.range n).biUnion fun i => touched ((off + i) / bsize)

section Spans

variable {off n m bn k : ℕ}

theorem dataSlot_inj {m n : ℕ} : dataSlot m = dataSlot n ↔ m = n := by
  unfold dataSlot
  constructor
  · intro h
    split at h <;> split at h <;> omega
  · rintro rfl
    rfl

theorem mem_span : k ∈ span off n ↔ ∃ i < n, k ∈ touched ((off + i) / bsize) := by
  simp only [span, Finset.mem_biUnion, Finset.mem_range]

theorem dataSlot_mem_span {pos : ℕ} (h : off ≤ pos) (h' : pos < off + n) :
    dataSlot (pos / bsize) ∈ span off n := by
  refine mem_span.mpr ⟨pos - off, by omega, ?_⟩
  rw [Nat.add_sub_cancel' h]
  exact mem_touched_dataSlot _

/-- The bytes of one round lie in one block. -/
theorem div_in_round {i : ℕ} (h : i < bsize - off % bsize) : (off + i) / bsize = off / bsize := by
  have hsplit := Nat.div_add_mod off bsize
  have hmod : off % bsize + i < bsize := by omega
  calc (off + i) / bsize = (bsize * (off / bsize) + (off % bsize + i)) / bsize := by
        rw [← Nat.add_assoc, hsplit]
    _ = off / bsize := by
        rw [Nat.mul_add_div (by decide), Nat.div_eq_of_lt hmod, Nat.add_zero]

theorem mod_in_round {i : ℕ} (h : i < bsize - off % bsize) :
    (off + i) % bsize = off % bsize + i := by
  have hmod : off % bsize + i < bsize := by omega
  rw [Nat.add_mod, ← Nat.mod_add_mod, Nat.mod_mod, Nat.add_mod_mod, Nat.mod_eq_of_lt hmod]

theorem span_round (off : ℕ) (hn : n ≠ 0) : span off n = touched (off / bsize) ∪
    span (off + min n (bsize - off % bsize)) (n - min n (bsize - off % bsize)) := by
  have hpos := step_pos off hn
  have hle := min_le_right n (bsize - off % bsize)
  generalize min n (bsize - off % bsize) = m at hpos hle
  ext k
  rw [Finset.mem_union, mem_span, mem_span]
  constructor
  case mp =>
    rintro ⟨i, hi, hk⟩
    by_cases him : i < m
    · rw [div_in_round (by omega)] at hk
      exact .inl hk
    · refine .inr ⟨i - m, by omega, ?_⟩
      have hplace : off + m + (i - m) = off + i := by omega
      rwa [hplace]
  case mpr =>
    rintro (hk | ⟨i, hi, hk⟩)
    · exact ⟨0, Nat.pos_of_ne_zero hn, hk⟩
    · refine ⟨m + i, by omega, ?_⟩
      rwa [← Nat.add_assoc]

theorem span_add (off n m : ℕ) : span off (n + m) = span off n ∪ span (off + n) m := by
  ext k
  rw [Finset.mem_union, mem_span, mem_span, mem_span]
  constructor
  case mp =>
    rintro ⟨i, hi, hk⟩
    by_cases hin : i < n
    · exact .inl ⟨i, hin, hk⟩
    · refine .inr ⟨i - n, by omega, ?_⟩
      have hplace : off + n + (i - n) = off + i := by omega
      rwa [hplace]
  case mpr =>
    rintro (⟨i, hi, hk⟩ | ⟨i, hi, hk⟩)
    · exact ⟨i, by omega, hk⟩
    · refine ⟨n + i, by omega, ?_⟩
      rwa [← Nat.add_assoc]

end Spans

section Blocks

variable {sb : Layout} {d d' : Disk} {ip ip' : Inode} {src blk : Memory} {off n bn : ℕ}

/-- A data block of the inode is no other inode's block and no indirect block. -/
theorem fills_update (hs : Intact sb d ip) (h : slot d ip.toDinode (dataSlot bn) ≠ 0)
    (blk : Memory) :
    Fills sb ∅ d ip (Function.update d (slot d ip.toDinode (dataSlot bn)).toNat blk) ip := by
  obtain ⟨hlow, hsize, hmarked⟩ := hs.slot_data h
  set a := (slot d ip.toDinode (dataSlot bn)).toNat with ha
  have hmark : ∀ c < sb.size, Marked sb.toSuperblock (Function.update d a blk) c ↔
      Marked sb.toSuperblock d c := fun c hc => marked_update hlow hc blk
  have hlt : sb.bmapstart < a := by
    have hstart : sb.bmapstart < sb.nmeta := by
      simp only [Superblock.nmeta]
      exact Nat.lt_succ_of_le (Nat.le_add_right _ _)
    omega
  have hblocks : ∀ x < sb.bmapstart, Function.update d a blk x = d x := by
    intro x hx
    exact Function.update_of_ne (by omega) _ _
  have hself : ∀ k, slot (Function.update d a blk) ip.toDinode k = slot d ip.toDinode k := by
    intro k
    apply slot_congr rfl
    intro hind
    apply Function.update_of_ne
    intro heq
    exact dataSlot_ne bn (hs.slot_inj hind (BitVec.eq_of_toNat_eq heq.symm))
  have hledger : ledger sb.toSuperblock (Function.update d a blk)
      (inodes sb.toSuperblock (Function.update d a blk) ip) =
        ledger sb.toSuperblock d (inodes sb.toSuperblock d ip) := by
    apply Ledger.ext
    · funext key
      obtain ⟨i, k⟩ := key
      by_cases hi : i = ip.inum
      · subst hi
        simp only [ledger, inodes_self, hself]
      · by_cases hbound : i < sb.ninodes
        · have hdinode := dinode_of_inode_blocks hblocks hbound
          simp only [ledger, inodes_of_ne _ _ hi, hdinode]
          by_cases htype : (dinode sb.toSuperblock d i).type ≠ 0
          · have hslot : slot (Function.update d a blk) (dinode sb.toSuperblock d i) k =
                slot d (dinode sb.toSuperblock d i) k := by
              apply slot_congr rfl
              intro hind
              exact Function.update_of_ne ((hs.other_slot hbound hi htype hind).2 _ h).symm _ _
            rw [hslot]
          · simp only [htype, false_and, and_false, if_false]
        · simp only [ledger, hbound, false_and, if_false]
    · ext c
      constructor
      · rintro ⟨hc, hm⟩
        exact ⟨hc, (hmark c hc).mp hm⟩
      · rintro ⟨hc, hm⟩
        exact ⟨hc, (hmark c hc).mpr hm⟩
  refine ⟨⟨rfl, hblocks, ?_, ?_⟩, ?_, fun k _ => hself k, ?_⟩
  · rw [hledger]
    exact .refl _
  · intro x _ _ _ hnot
    exact Function.update_of_ne (hnot _ h).symm _ _
  · exact fun k hk => absurd hk (Finset.notMem_empty k)
  · have hfree : freeBlocks sb.toSuperblock (Function.update d a blk) =
        freeBlocks sb.toSuperblock d := by
      apply Finset.filter_congr
      intro c hc
      rw [hmark c (Finset.mem_range.mp hc)]
    rw [hfree, missing, Finset.filter_empty, Finset.card_empty, Nat.add_zero]

theorem byteAt_update (hs : Intact sb d ip) (h : slot d ip.toDinode (dataSlot bn) ≠ 0)
    (blk : Memory) (pos : ℕ) :
    byteAt (Function.update d (slot d ip.toDinode (dataSlot bn)).toNat blk) ip.toDinode pos =
      if pos / bsize = bn then blk (pos % bsize) else byteAt d ip.toDinode pos := by
  have hkept := (fills_update hs h blk).kept (dataSlot (pos / bsize)) (Finset.notMem_empty _)
  simp only [byteAt, hkept]
  by_cases hbn : pos / bsize = bn
  · rw [hbn, if_neg h, if_pos rfl, Function.update_self]
  · rw [if_neg hbn]
    by_cases hzero : slot d ip.toDinode (dataSlot (pos / bsize)) = 0
    · rw [if_pos hzero, if_pos hzero]
    · have hne : (slot d ip.toDinode (dataSlot (pos / bsize))).toNat ≠
          (slot d ip.toDinode (dataSlot bn)).toNat := by
        intro heq
        exact hbn (dataSlot_inj.mp (hs.slot_inj h (BitVec.eq_of_toNat_eq heq)))
      rw [if_neg hzero, if_neg hzero, Function.update_of_ne hne]

/-- The bytes after one round of the loop of `writei`. -/
theorem byteAt_round (hs : Intact sb d ip)
    (h : slot d ip.toDinode (dataSlot (off / bsize)) ≠ 0) {m : ℕ}
    (hm : m ≤ bsize - off % bsize) (pos : ℕ) :
    byteAt (Function.update d (slot d ip.toDinode (dataSlot (off / bsize))).toNat
        (copyIn (d (slot d ip.toDinode (dataSlot (off / bsize))).toNat) (off % bsize) src m))
        ip.toDinode pos =
      if off ≤ pos ∧ pos < off + m then src (pos - off) else byteAt d ip.toDinode pos := by
  rw [byteAt_update hs h]
  by_cases hbn : pos / bsize = off / bsize
  · have hpos := Nat.div_add_mod pos bsize
    have hoff := Nat.div_add_mod off bsize
    rw [hbn] at hpos
    rw [if_pos hbn, copyIn]
    by_cases hin : off ≤ pos ∧ pos < off + m
    · have hin' : off % bsize ≤ pos % bsize ∧ pos % bsize < off % bsize + m := by omega
      have hsub : pos % bsize - off % bsize = pos - off := by omega
      rw [if_pos hin, if_pos hin', hsub]
    · have hin' : ¬(off % bsize ≤ pos % bsize ∧ pos % bsize < off % bsize + m) := by omega
      rw [if_neg hin, if_neg hin', byteAt, hbn, if_neg h]
  · have hout : ¬(off ≤ pos ∧ pos < off + m) := by
      rintro ⟨hle, hlt⟩
      apply hbn
      have hround : (off + (pos - off)) / bsize = off / bsize := div_in_round (by omega)
      rwa [Nat.add_sub_cancel' hle] at hround
    rw [if_neg hbn, if_neg hout]

/-- The induction is on what is left to write, a round at a time. -/
theorem writeBlocks_spec (hs : Intact sb d ip)
    (h : writeBlocks sb.toSuperblock d ip src off n = .ok (d', ip')) :
    Fills sb (span off n) d ip d' ip' ∧ ∀ pos, byteAt d' ip'.toDinode pos =
      if off ≤ pos ∧ pos < off + n then src (pos - off) else byteAt d ip.toDinode pos := by
  induction n using Nat.strong_induction_on generalizing d ip src off with
  | _ n ih =>
    rw [writeBlocks] at h
    by_cases hn : n = 0
    · rw [if_pos hn] at h
      cases h
      subst hn
      refine ⟨.refl sb _ _, ?_⟩
      intro pos
      rw [if_neg (by omega)]
    · rw [if_neg hn] at h
      obtain ⟨⟨a, e, iq⟩, hr, h⟩ := bind_eq_ok.mp h
      obtain ⟨-, hfills, hbytes, ha⟩ := bmap_spec hs hr
      have hslot := hfills.filled _ (mem_touched_dataSlot (off / bsize))
      have hpos := step_pos off hn
      have hle := min_le_right n (bsize - off % bsize)
      have hlen := min_le_left n (bsize - off % bsize)
      rw [span_round off hn]
      simp only at ha h
      generalize min n (bsize - off % bsize) = m at hpos hle hlen h ⊢
      subst ha
      have hs' := hs.evolves hfills.toEvolves
      have hupdate := fills_update hs' hslot (copyIn
        (e (slot e iq.toDinode (dataSlot (off / bsize))).toNat) (off % bsize) src m)
      obtain ⟨hrest, hrest'⟩ := ih (n - m) (by omega) (hs'.evolves hupdate.toEvolves) h
      have hboth := hupdate.trans hs' hrest
      rw [Finset.empty_union] at hboth
      refine ⟨hfills.trans hs hboth, ?_⟩
      intro pos
      rw [hrest', byteAt_round hs' hslot hle, hbytes]
      by_cases hin : off ≤ pos ∧ pos < off + n
      · rw [if_pos hin]
        by_cases hfirst : pos < off + m
        · rw [if_neg (by omega), if_pos ⟨hin.1, hfirst⟩]
        · have hsub : pos - (off + m) + m = pos - off := by omega
          rw [if_pos (by omega), hsub]
      · rw [if_neg hin, if_neg (by omega), if_neg (by omega)]

theorem writeBlocks_returns (hs : Intact sb d ip) (hle : off + n ≤ maxfile * bsize)
    (h : (missing d ip.toDinode (span off n)).card ≤ (freeBlocks sb.toSuperblock d).card) :
    ∃ d' ip', writeBlocks sb.toSuperblock d ip src off n = .ok (d', ip') := by
  induction n using Nat.strong_induction_on generalizing d ip src off with
  | _ n ih =>
    rw [writeBlocks]
    by_cases hn : n = 0
    · rw [if_pos hn]
      exact ⟨_, _, rfl⟩
    · rw [if_neg hn]
      rw [span_round off hn] at h
      have hbn : off / bsize < maxfile := by
        rw [Nat.div_lt_iff_lt_mul (by decide)]
        omega
      obtain ⟨a, e, iq, hr⟩ := bmap_returns hs hbn
        ((card_missing_mono d ip.toDinode Finset.subset_union_left).trans h)
      obtain ⟨-, hfills, -, ha⟩ := bmap_spec hs hr
      have hslot := hfills.filled _ (mem_touched_dataSlot (off / bsize))
      have hs' := hs.evolves hfills.toEvolves
      rw [hfills.card_missing_union hs] at h
      have hcost := hfills.cost
      have hpos := step_pos off hn
      have hlen := min_le_left n (bsize - off % bsize)
      rw [hr, ok_bind]
      simp only
      generalize min n (bsize - off % bsize) = m at hpos hlen h ⊢
      subst ha
      have hupdate := fills_update hs' hslot (copyIn
        (e (slot e iq.toDinode (dataSlot (off / bsize))).toNat) (off % bsize) src m)
      have hunion := hupdate.card_missing_union hs' (span (off + m) (n - m))
      have hfree := hupdate.cost
      rw [Finset.empty_union] at hunion
      exact ih (n - m) (by omega) (hs'.evolves hupdate.toEvolves) (by omega) (by omega)

/-- A write up to the end of a block and the rest of it may be done one after the other. -/
theorem writeBlocks_append {sb : Superblock} {m k : ℕ} (hm : (off + m) % bsize = 0) :
    writeBlocks sb d ip src off (m + k) = writeBlocks sb d ip src off m >>= fun r =>
      writeBlocks sb r.1 r.2 (fun i => src (i + m)) (off + m) k := by
  induction m using Nat.strong_induction_on generalizing d ip src off with
  | _ m ih =>
    by_cases hzero : m = 0
    · subst hzero
      have hnone : writeBlocks sb d ip src off 0 = .ok (d, ip) := by
        rw [writeBlocks, if_pos rfl]
      rw [hnone, ok_bind, Nat.zero_add]
      rfl
    · have hsplit := Nat.div_add_mod off bsize
      have hmod : off % bsize < bsize := Nat.mod_lt _ (by decide)
      have hsum : (off % bsize + m) % bsize = 0 := by rw [Nat.mod_add_mod, hm]
      have hle : bsize - off % bsize ≤ m := by
        by_contra hlt
        rw [Nat.mod_eq_of_lt (by omega)] at hsum
        omega
      have hround : min m (bsize - off % bsize) = bsize - off % bsize := min_eq_right hle
      have hround' : min (m + k) (bsize - off % bsize) = bsize - off % bsize :=
        min_eq_right (hle.trans (Nat.le_add_right _ _))
      conv_lhs => rw [writeBlocks]
      conv_rhs => rw [writeBlocks]
      rw [if_neg hzero, if_neg (by omega)]
      simp only [hround, hround', bind_assoc]
      congr 1
      funext r
      generalize hx : bsize - off % bsize = x at hle ⊢
      have hrest : m + k - x = m - x + k := by omega
      have hoff : off + x + (m - x) = off + m := by omega
      have hsrc : ∀ i, i + (m - x) + x = i + m := by omega
      have hend : (off + x + (m - x)) % bsize = 0 := by rw [hoff, hm]
      rw [hrest, ih (m - x) (by omega) hend, hoff]
      simp only [hsrc]

theorem bmap_beyond {sb : Superblock} (hbn : maxfile ≤ bn) :
    bmap sb d ip bn = .error (.panic "bmap: out of range") := by
  have hmax : maxfile = ndirect + nindirect := rfl
  rw [bmap, dif_neg (by omega), if_neg (by omega)]

theorem writeBlocks_beyond {sb : Superblock} (hoff : maxfile * bsize ≤ off) (hn : n ≠ 0) :
    writeBlocks sb d ip src off n = .error (.panic "bmap: out of range") := by
  rw [writeBlocks, if_neg hn, bmap_beyond ((Nat.le_div_iff_mul_le (by decide)).mpr hoff),
    error_bind]

theorem panic_ne {α : Type} {m m' : String} (h : m ≠ m') :
    (.error (.panic m) : Except Fault α) ≠ .error (.panic m') :=
  fun he => h (Fault.panic.inj (Except.error.inj he))

theorem balloc_error {sb : Superblock} {e : Fault} (h : balloc sb d = .error e) :
    e = .panic "balloc: out of blocks" := by
  cases hf : findFree sb d with
  | none =>
    rw [balloc_none hf] at h
    exact (Except.error.inj h).symm
  | some b =>
    rw [balloc_some hf] at h
    cases h

theorem bmap_error {sb : Superblock} {e : Fault} (hbn : bn < maxfile)
    (h : bmap sb d ip bn = .error e) : e = .panic "balloc: out of blocks" := by
  have haddr : ∀ k, bmapAddr sb d ip k = .error e → e = .panic "balloc: out of blocks" := by
    intro k hk
    unfold bmapAddr at hk
    split at hk
    · rcases bind_eq_error.mp hk with hk | ⟨r, -, hk⟩
      · exact balloc_error hk
      · cases hk
    · cases hk
  unfold bmap at h
  split at h
  · exact haddr _ h
  · next hdirect =>
    have hmax : maxfile = ndirect + nindirect := rfl
    rw [if_pos (by omega)] at h
    rcases bind_eq_error.mp h with h | ⟨r, -, h⟩
    · exact haddr _ h
    · rcases bind_eq_error.mp h with h | ⟨q, -, h⟩
      · unfold bmapEntry at h
        split at h
        · rcases bind_eq_error.mp h with h | ⟨q, -, h⟩
          · exact balloc_error h
          · cases h
        · cases h
      · cases h

/-- Below MAXFILE the loop of `writei` fails for want of blocks only. -/
theorem writeBlocks_error {sb : Superblock} {e : Fault} (hle : off + n ≤ maxfile * bsize)
    (h : writeBlocks sb d ip src off n = .error e) : e = .panic "balloc: out of blocks" := by
  induction n using Nat.strong_induction_on generalizing d ip src off with
  | _ n ih =>
    rw [writeBlocks] at h
    split at h
    · cases h
    · next hn =>
      have hbn : off / bsize < maxfile := by
        rw [Nat.div_lt_iff_lt_mul (by decide)]
        omega
      have hpos := step_pos off hn
      have hlen := min_le_left n (bsize - off % bsize)
      rcases bind_eq_error.mp h with h | ⟨r, -, h⟩
      · exact bmap_error hbn h
      · exact ih _ (by omega) (by omega) h

/-- Where every block is there, the loop of `readi` returns the bytes. -/
theorem readBlocks_eq
    (h : ∀ pos, off ≤ pos → pos < off + n → slot d ip.toDinode (dataSlot (pos / bsize)) ≠ 0) :
    readBlocks sb.toSuperblock d ip off n =
      .ok ((List.range n).map fun i => byteAt d ip.toDinode (off + i), d, ip) := by
  induction n using Nat.strong_induction_on generalizing off with
  | _ n ih =>
    rw [readBlocks]
    by_cases hn : n = 0
    · subst hn
      rfl
    · rw [if_neg hn]
      have hpos := step_pos off hn
      have hle := min_le_right n (bsize - off % bsize)
      have hlen := min_le_left n (bsize - off % bsize)
      have hslot := h off (le_refl off) (by omega)
      rw [bmap_mapped hslot, ok_bind]
      simp only
      generalize min n (bsize - off % bsize) = m at hpos hle hlen ⊢
      rw [ih (n - m) (by omega) (fun pos hp hp' => h pos (by omega) (by omega)), ok_bind]
      have hsplit : n = m + (n - m) := by omega
      have hfirst : (List.range m).map (fun i => d (slot d ip.toDinode
          (dataSlot (off / bsize))).toNat (off % bsize + i)) =
            (List.range m).map fun i => byteAt d ip.toDinode (off + i) := by
        apply List.map_congr_left
        intro i hi
        have hi' := List.mem_range.mp hi
        rw [byteAt, div_in_round (by omega), mod_in_round (by omega)]
        exact (if_neg hslot).symm
      rw [hfirst]
      conv_rhs => rw [hsplit, List.range_add, List.map_append, List.map_map]
      simp only [Function.comp_def, Nat.add_assoc]

end Blocks

end FileBlocks
