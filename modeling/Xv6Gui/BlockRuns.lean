import Xv6Gui.FileWrites

/-!
# Growing, truncating and freeing files

Calls that give blocks to files and take them back, one at a time and with the inodes cached
between calls. The bit map marks the metadata and the blocks of the allocated inodes after each
of them, no block has two owners, and no call frees a block that is free.
-/
namespace BlockRuns

open WordMemory DiskBlocks BlockMaps GuardedRuns Ledgers BlockOwnership BlockMapping FileBlocks
  FileWrites
open WindowManagerState (Fault)

/-- The blocks of the slots in `F` are free again; nothing but the bit map differs. -/
structure Freed (sb : Layout) (d : Disk) (v : Dinode) (F : List ℕ) (d' : Disk) : Prop where
  frame : ∀ x, x < sb.bmapstart ∨ sb.nmeta ≤ x → d' x = d x
  marked : ∀ c < sb.size, Marked sb.toSuperblock d' c ↔
    Marked sb.toSuperblock d c ∧ ∀ k ∈ F, slot d v k ≠ 0 → (slot d v k).toNat ≠ c

section Freeing

variable {sb : Layout} {d d' : Disk} {ip : Inode} {v : Dinode} {F G : List ℕ} {b c k : ℕ}

theorem bfree_eq_ok (h : Marked sb.toSuperblock d b) : bfree sb.toSuperblock d b =
    .ok (Function.update d (sb.bblock b) (clearBit (d (sb.bblock b)) (b % bpb))) := if_neg h

theorem marked_clear (sb : Superblock) (d : Disk) (b c : ℕ) :
    Marked sb (Function.update d (sb.bblock b) (clearBit (d (sb.bblock b)) (b % bpb))) c ↔
      c ≠ b ∧ Marked sb d c := by
  rw [Ne, ← bblock_eq_iff sb b c, Marked, Marked]
  by_cases h : sb.bblock c = sb.bblock b
  · rw [h, Function.update_self, bit_clearBit]
    simp only [true_and]
  · rw [Function.update_of_ne h]
    simp only [h, false_and, not_false_eq_true, true_and]

theorem Freed.nil (sb : Layout) (d : Disk) (v : Dinode) : Freed sb d v [] d :=
  ⟨fun _ _ => rfl, fun _ _ => ⟨fun h => ⟨h, fun _ hk => absurd hk List.not_mem_nil⟩, And.left⟩⟩

/-- Only the members of the list and the filled slots among them matter. -/
theorem Freed.congr (h : Freed sb d v F d')
    (hFG : ∀ k, slot d v k ≠ 0 → (k ∈ F ↔ k ∈ G)) : Freed sb d v G d' := by
  refine ⟨h.frame, ?_⟩
  intro c hc
  rw [h.marked c hc]
  constructor
  · rintro ⟨hm, hnot⟩
    exact ⟨hm, fun k hk hslot => hnot k ((hFG k hslot).mpr hk) hslot⟩
  · rintro ⟨hm, hnot⟩
    exact ⟨hm, fun k hk hslot => hnot k ((hFG k hslot).mp hk) hslot⟩

theorem Freed.skip (h : Freed sb d v F d') (hk : slot d v k = 0) :
    Freed sb d v (F ++ [k]) d' := by
  apply h.congr
  intro l hl
  rw [List.mem_append, List.mem_singleton]
  constructor
  · exact .inl
  · rintro (hF | rfl)
    · exact hF
    · exact absurd hk hl

/-- A block that has not been freed yet is marked, so bfree does not panic. -/
theorem Freed.bfree (hs : Intact sb d ip) (h : Freed sb d ip.toDinode F d') (hF : k ∉ F)
    (hk : slot d ip.toDinode k ≠ 0) :
    ∃ e, bfree sb.toSuperblock d' (slot d ip.toDinode k).toNat = .ok e ∧
      Freed sb d ip.toDinode (F ++ [k]) e := by
  obtain ⟨hlow, hsize, hmarked⟩ := hs.slot_data hk
  have hm : Marked sb.toSuperblock d' (slot d ip.toDinode k).toNat := by
    rw [h.marked _ hsize]
    refine ⟨hmarked, ?_⟩
    intro l hl hslot heq
    exact hF (hs.slot_inj hk (BitVec.eq_of_toNat_eq heq) ▸ hl)
  refine ⟨_, bfree_eq_ok hm, ?_, ?_⟩
  · intro x hx
    have hb := bblock_lt_nmeta hsize
    have hb' : sb.bmapstart ≤ sb.bblock (slot d ip.toDinode k).toNat := bmapstart_le_bblock _
    have hne : x ≠ sb.bblock (slot d ip.toDinode k).toNat := by omega
    rw [Function.update_of_ne hne, h.frame x hx]
  · intro c hc
    rw [marked_clear, h.marked c hc]
    constructor
    · rintro ⟨hne, hm, hnot⟩
      refine ⟨hm, ?_⟩
      intro l hl hslot
      rcases List.mem_append.mp hl with hl | hl
      · exact hnot l hl hslot
      · rw [List.mem_singleton.mp hl]
        exact hne.symm
    · rintro ⟨hm, hnot⟩
      exact ⟨(hnot k (List.mem_append_right _ (List.mem_singleton_self k)) hk).symm, hm,
        fun l hl => hnot l (List.mem_append_left _ hl)⟩

/-- The inode with the addresses of the slots in `F` set to 0. -/
def without (ip : Inode) (F : List ℕ) : Inode :=
  { ip with addrs := fun k => if (k : ℕ) ∈ F then 0 else ip.addrs k }

theorem without_nil (ip : Inode) : without ip [] = ip := by
  simp only [without, List.not_mem_nil, if_false]

theorem setAddr_without (ip : Inode) (F : List ℕ) (k : Fin (ndirect + 1)) :
    setAddr (without ip F) k 0 = without ip (F ++ [(k : ℕ)]) := by
  have haddrs : Function.update (without ip F).addrs k 0 = (without ip (F ++ [(k : ℕ)])).addrs := by
    funext l
    by_cases hl : l = k
    · subst hl
      rw [Function.update_self]
      exact (if_pos (List.mem_append_right _ (List.mem_singleton_self _))).symm
    · have hval : (l : ℕ) ≠ k := fun h => hl (Fin.ext h)
      rw [Function.update_of_ne hl]
      simp only [without, List.mem_append, List.mem_singleton, hval, or_false]
  simp only [setAddr, haddrs]
  rfl

/-- An address that is 0 need not be set to 0. -/
theorem without_append (ip : Inode) (F : List ℕ) {k : Fin (ndirect + 1)} (hk : ip.addrs k = 0) :
    without ip (F ++ [(k : ℕ)]) = without ip F := by
  have haddrs : (without ip (F ++ [(k : ℕ)])).addrs = (without ip F).addrs := by
    funext l
    by_cases hl : l = k
    · subst hl
      simp only [without, hk, ite_self]
    · have hval : (l : ℕ) ≠ k := fun h => hl (Fin.ext h)
      simp only [without, List.mem_append, List.mem_singleton, hval, or_false]
  simp only [without] at haddrs ⊢
  rw [haddrs]

theorem freeAddr_returns {k : Fin (ndirect + 1)} (hs : Intact sb d ip)
    (h : Freed sb d ip.toDinode F d') (hF : (k : ℕ) ∉ F) (hG : (k : ℕ) ∉ G) :
    ∃ e, freeAddr sb.toSuperblock (d', without ip G) k = .ok (e, without ip (G ++ [(k : ℕ)])) ∧
      Freed sb d ip.toDinode (F ++ [(k : ℕ)]) e := by
  have haddr : (without ip G).addrs k = ip.addrs k := if_neg hG
  have hslot := slot_addr d ip.toDinode k
  unfold freeAddr
  simp only [haddr]
  by_cases hk : ip.addrs k = 0
  · rw [if_neg (fun h => h hk), without_append ip G hk]
    exact ⟨d', rfl, h.skip (hslot.trans hk)⟩
  · obtain ⟨e, he, hfreed⟩ := h.bfree hs hF (by rw [hslot]; exact hk)
    rw [hslot] at he
    refine ⟨e, ?_, hfreed⟩
    rw [if_pos hk, he, ok_bind, setAddr_without]

theorem freeEntry_returns {j : ℕ} (hs : Intact sb d ip) (h : Freed sb d ip.toDinode F d')
    (hind : ip.addrs (Fin.last ndirect) ≠ 0) (hj : j < nindirect)
    (hF : ndirect + 1 + j ∉ F) :
    ∃ e, freeEntry sb.toSuperblock (ip.addrs (Fin.last ndirect)).toNat d' j = .ok e ∧
      Freed sb d ip.toDinode (F ++ [ndirect + 1 + j]) e := by
  have hdata := hs.slot_data (k := ndirect) (by rw [slot_indirect]; exact hind)
  rw [slot_indirect] at hdata
  have hword : word (d' (ip.addrs (Fin.last ndirect)).toNat) (4 * j) =
      slot d ip.toDinode (ndirect + 1 + j) := by
    rw [h.frame _ (.inr hdata.1), slot_entry hj hind]
  unfold freeEntry
  simp only [hword]
  by_cases hk : slot d ip.toDinode (ndirect + 1 + j) = 0
  · rw [if_neg (fun h => h hk)]
    exact ⟨d', rfl, h.skip hk⟩
  · rw [if_pos hk]
    exact h.bfree hs hF hk

theorem directs_return (hs : Intact sb d ip) :
    ∃ e, (List.finRange ndirect).foldlM
        (fun s i => freeAddr sb.toSuperblock s i.castSucc) (d, ip) =
          .ok (e, without ip (List.range ndirect)) ∧
      Freed sb d ip.toDinode (List.range ndirect) e := by
  have hrange : (List.finRange ndirect).map Fin.val = List.range ndirect := by decide
  obtain ⟨_, hloop, e, rfl, hfreed⟩ := foldlM_returns
    (f := fun (s : Disk × Inode) (i : Fin ndirect) => freeAddr sb.toSuperblock s i.castSucc)
    (P := fun done s => ∃ e, s = (e, without ip (done.map Fin.val)) ∧
      Freed sb d ip.toDinode (done.map Fin.val) e)
    (l := List.finRange ndirect) (s := (d, ip)) (by
      rintro done i rest _ hl ⟨e, rfl, hfreed⟩
      have hnodup : (done ++ i :: rest).Nodup := hl ▸ List.nodup_finRange ndirect
      have hi : (i.castSucc : ℕ) ∉ done.map Fin.val := by
        rw [List.mem_map]
        rintro ⟨k, hk, hval⟩
        exact (List.nodup_append.mp hnodup).2.2 k hk i List.mem_cons_self (Fin.ext hval)
      obtain ⟨e', he', hfreed'⟩ := freeAddr_returns hs hfreed hi hi
      refine ⟨_, he', e', ?_, ?_⟩
      · rw [List.map_append]
        rfl
      · rw [List.map_append]
        exact hfreed') ⟨d, by rw [List.map_nil, without_nil], .nil sb d _⟩
  rw [hrange] at hloop hfreed
  exact ⟨e, hloop, hfreed⟩

theorem entries_return (hs : Intact sb d ip) (h : Freed sb d ip.toDinode F d')
    (hind : ip.addrs (Fin.last ndirect) ≠ 0) (hF : ∀ j, ndirect + 1 + j ∉ F) :
    ∃ e, (List.range nindirect).foldlM
        (freeEntry sb.toSuperblock (ip.addrs (Fin.last ndirect)).toNat) d' = .ok e ∧
      Freed sb d ip.toDinode (F ++ (List.range nindirect).map (ndirect + 1 + ·)) e := by
  apply foldlM_returns
    (P := fun done e => Freed sb d ip.toDinode (F ++ done.map (ndirect + 1 + ·)) e)
  case hs =>
    rw [List.map_nil, List.append_nil]
    exact h
  case hround =>
    intro done j rest e hl hfreed
    have hnodup : (done ++ j :: rest).Nodup := hl ▸ List.nodup_range
    have hj : j < nindirect := by
      rw [← List.mem_range, hl]
      exact List.mem_append_right _ List.mem_cons_self
    have hnew : ndirect + 1 + j ∉ F ++ done.map (ndirect + 1 + ·) := by
      rw [List.mem_append, List.mem_map, not_or]
      refine ⟨hF j, ?_⟩
      rintro ⟨k, hk, hkj⟩
      exact (List.nodup_append.mp hnodup).2.2 k hk j List.mem_cons_self (Nat.add_left_cancel hkj)
    obtain ⟨e', he', hfreed'⟩ := freeEntry_returns hs hfreed hind hj hnew
    refine ⟨e', he', ?_⟩
    rw [List.map_append, ← List.append_assoc]
    exact hfreed'

/-- The inode without any block. -/
def emptied (ip : Inode) : Inode := { ip with size := 0, addrs := fun _ => 0 }

/-- Everything in a slot is freed in the end. -/
theorem freed_all (h : Freed sb d v F d') (hF : ∀ k, slot d v k ≠ 0 → k ∈ F) :
    ∀ c < sb.size, Marked sb.toSuperblock d' c ↔ Marked sb.toSuperblock d c ∧
      ∀ k, slot d v k ≠ 0 → (slot d v k).toNat ≠ c := by
  intro c hc
  rw [h.marked c hc]
  constructor
  · rintro ⟨hm, hnot⟩
    exact ⟨hm, fun k hk => hnot k (hF k hk) hk⟩
  · rintro ⟨hm, hnot⟩
    exact ⟨hm, fun k _ hk => hnot k hk⟩

theorem without_eq_emptied (ip : Inode) {F : List ℕ}
    (hF : ∀ k : Fin (ndirect + 1), (k : ℕ) ∉ F → ip.addrs k = 0) :
    { without ip F with size := 0 } = emptied ip := by
  have haddrs : (without ip F).addrs = fun _ => 0 := by
    funext k
    by_cases hk : (k : ℕ) ∈ F
    · exact if_pos hk
    · exact (if_neg hk).trans (hF k hk)
  simp only [without, emptied] at haddrs ⊢
  rw [haddrs]

theorem mem_range_ndirect (k : Fin (ndirect + 1)) :
    (k : ℕ) ∉ List.range ndirect ↔ k = Fin.last ndirect := by
  rw [List.mem_range, not_lt, Fin.ext_iff, Fin.val_last]
  omega

/-- itrunc returns with every block of the inode freed. -/
theorem itrunc_returns (hs : Intact sb d ip) :
    ∃ e, (∀ x, x < sb.bmapstart ∨ sb.nmeta ≤ x → e x = d x) ∧
      (∀ c < sb.size, Marked sb.toSuperblock e c ↔ Marked sb.toSuperblock d c ∧
        ∀ k, slot d ip.toDinode k ≠ 0 → (slot d ip.toDinode k).toNat ≠ c) ∧
      itrunc sb.toSuperblock d ip =
        .ok (iupdate sb.toSuperblock e (emptied ip), emptied ip) := by
  obtain ⟨e, hloop, hfreed⟩ := directs_return hs
  have hlast : ((Fin.last ndirect : Fin (ndirect + 1)) : ℕ) ∉ List.range ndirect :=
    (mem_range_ndirect _).mpr rfl
  have haddr : (without ip (List.range ndirect)).addrs (Fin.last ndirect) =
      ip.addrs (Fin.last ndirect) := by
    simp only [without, if_neg hlast]
  unfold itrunc
  rw [hloop, ok_bind]
  simp only [haddr]
  by_cases hind : ip.addrs (Fin.last ndirect) = 0
  · have hempty := without_eq_emptied ip (F := List.range ndirect) (by
      intro k hk
      rw [(mem_range_ndirect k).mp hk, hind])
    rw [if_neg (fun h => h hind), ok_bind]
    simp only [hempty]
    refine ⟨e, hfreed.frame, freed_all hfreed ?_, rfl⟩
    intro k hk
    rw [List.mem_range]
    by_contra hle
    exact hk (slot_of_no_indirect hind (Nat.not_lt.mp hle))
  · have hout : ∀ j, ndirect + 1 + j ∉ List.range ndirect := by
      intro j
      rw [List.mem_range]
      omega
    obtain ⟨e', hentries, hfreed'⟩ := entries_return hs hfreed hind hout
    have hnew : ((Fin.last ndirect : Fin (ndirect + 1)) : ℕ) ∉
        List.range ndirect ++ (List.range nindirect).map (ndirect + 1 + ·) := by
      rw [List.mem_append, List.mem_map, not_or]
      refine ⟨hlast, ?_⟩
      rintro ⟨j, -, hj⟩
      rw [Fin.val_last] at hj
      omega
    obtain ⟨e'', hfree, hfreed''⟩ := freeAddr_returns hs hfreed' hnew hlast
    have hempty := without_eq_emptied ip
      (F := List.range ndirect ++ [((Fin.last ndirect : Fin (ndirect + 1)) : ℕ)]) (by
        intro k hk
        rw [List.mem_append, not_or, mem_range_ndirect, List.mem_singleton] at hk
        exact absurd (congrArg Fin.val hk.1) hk.2)
    rw [if_pos hind, hentries, ok_bind, hfree, ok_bind]
    simp only [hempty]
    refine ⟨e'', hfreed''.frame, freed_all hfreed'' ?_, rfl⟩
    intro k hk
    have hk' : k < maxfile + 1 := by
      by_contra hle
      exact hk (slot_out (Nat.not_lt.mp hle))
    have hmax : maxfile = ndirect + nindirect := rfl
    rw [List.mem_append, List.mem_append, List.mem_map, List.mem_singleton, List.mem_range,
      Fin.val_last]
    by_cases hlt : k < ndirect
    · exact .inl (.inl hlt)
    · by_cases heq : k = ndirect
      · exact .inr heq
      · exact .inl (.inr ⟨k - (ndirect + 1), List.mem_range.mpr (by omega), by omega⟩)

theorem emptied_slot (d : Disk) (ip : Inode) (k : ℕ) : slot d (emptied ip).toDinode k = 0 :=
  slot_of_no_addrs rfl k

/-- The slots of the inode give up what they hold. -/
theorem shrinks_emptied {e : Disk} (hs : Intact sb d ip)
    (hframe : ∀ x, x < sb.bmapstart ∨ sb.nmeta ≤ x → e x = d x)
    (hmarked : ∀ c < sb.size, Marked sb.toSuperblock e c ↔ Marked sb.toSuperblock d c ∧
      ∀ k, slot d ip.toDinode k ≠ 0 → (slot d ip.toDinode k).toNat ≠ c) :
    Shrinks {key | key.1 = ip.inum} (ledger sb.toSuperblock d (inodes sb.toSuperblock d ip))
      (ledger sb.toSuperblock e (inodes sb.toSuperblock e (emptied ip))) := by
  have hself := inodes_self sb.toSuperblock e (emptied ip)
  constructor
  case given =>
    rintro ⟨i, k⟩ rfl
    refine if_neg ?_
    rintro ⟨-, -, hk⟩
    change slot e (inodes sb.toSuperblock e (emptied ip) (emptied ip).inum) k ≠ 0 at hk
    rw [hself, emptied_slot] at hk
    exact hk rfl
  case kept =>
    rintro ⟨i, k⟩ (hi : i ≠ ip.inum)
    have hother : inodes sb.toSuperblock e (emptied ip) i = dinode sb.toSuperblock e i :=
      inodes_of_ne _ _ hi
    by_cases hbound : i < sb.ninodes
    · have hdinode := dinode_of_inode_blocks (fun x hx => hframe x (.inl hx)) hbound
      simp only [ledger, hother, inodes_of_ne _ _ hi, hdinode]
      by_cases htype : (dinode sb.toSuperblock d i).type ≠ 0
      · have hslot : slot e (dinode sb.toSuperblock d i) k =
            slot d (dinode sb.toSuperblock d i) k := by
          apply slot_congr rfl
          intro hind
          exact hframe _ (.inr (hs.other_slot hbound hi htype hind).1.1)
        rw [hslot]
      · simp only [htype, false_and, and_false, if_false]
    · simp only [ledger, hbound, false_and, if_false]
  case used =>
    intro c
    constructor
    case mp =>
      rintro ⟨hc, hm⟩
      obtain ⟨hm, hnot⟩ := (hmarked c hc).mp hm
      refine ⟨⟨hc, hm⟩, ?_⟩
      rintro ⟨i, k⟩ rfl hheld
      obtain ⟨-, -, hk, heq⟩ := held_eq_some hheld
      rw [inodes_self] at hk heq
      exact hnot k hk heq
    case mpr =>
      rintro ⟨⟨hc, hm⟩, hnot⟩
      refine ⟨hc, (hmarked c hc).mpr ⟨hm, ?_⟩⟩
      rintro k hk rfl
      exact hnot (ip.inum, k) rfl (hs.held_self hk)

end Freeing

/-- The bit map marks the metadata and the blocks of allocated inodes, each of which has one
place in one inode. -/
def WellFormed (sb : Layout) (d : Disk) : Prop :=
  Exact (metadata sb.toSuperblock) (ledger sb.toSuperblock d (dinode sb.toSuperblock d))

/-- The disk and the inodes that are valid in the cache. -/
structure System where
  disk : Disk
  cached : ℕ → Option Dinode

/-- `recycle` is the use of the cache entry for another inode. -/
inductive Event where
  | ilock (i : ℕ)
  | writei (i : ℕ) (src : Memory) (off n : Word)
  | itrunc (i : ℕ)
  | iput (i : ℕ)
  | recycle (i : ℕ)

def Event.inum : Event → ℕ
  | .ilock i | .writei i _ _ _ | .itrunc i | .iput i | .recycle i => i

def ilock (sb : Superblock) (s : System) (i : ℕ) : Except Fault Inode :=
  match s.cached i with
  | some v => .ok ⟨v, i⟩
  | none =>
    if (dinode sb s.disk i).type = 0 then .error (.panic "ilock: no type")
    else .ok (load sb s.disk i)

def store (s : System) (d : Disk) (ip : Inode) : System :=
  ⟨d, Function.update s.cached ip.inum (some ip.toDinode)⟩

def drop (s : System) (d : Disk) (i : ℕ) : System := ⟨d, Function.update s.cached i none⟩

def step (sb : Superblock) (s : System) : Event → Except Fault System
  | .ilock i => ilock sb s i >>= fun ip => .ok (store s s.disk ip)
  | .writei i src off n =>
    ilock sb s i >>= fun ip => writei sb s.disk ip src off n >>= fun r =>
      .ok (store s r.2.1 r.2.2)
  | .itrunc i =>
    ilock sb s i >>= fun ip => itrunc sb s.disk ip >>= fun r => .ok (store s r.1 r.2)
  | .iput i =>
    match s.cached i with
    | none => .ok s
    | some v =>
      if v.nlink = 0 then
        ifree sb s.disk ⟨v, i⟩ >>= fun r => .ok (drop s r.1 i)
      else .ok s
  | .recycle i => .ok (drop s s.disk i)

/-- The inodes are there, and writes grow their file or are refused. -/
def Growing (sb : Superblock) (s : System) (e : Event) : Prop :=
  e.inum < sb.ninodes ∧ ∀ i src off n, e = .writei i src off n → ∀ ip, ilock sb s i = .ok ip →
    ip.size.toNat < off.toNat + n.toNat

/-- Who holds what on the disk. -/
def holdings (sb : Superblock) (s : System) : Ledger (ℕ × ℕ) ℕ :=
  ledger sb s.disk (dinode sb s.disk)

/-- A step leaves the disk well formed, the blocks it gives to a file were free data blocks that
no inode had, and it frees no free block. -/
def Keeps (sb : Layout) (s : System) (e : Event) : Prop :=
  step sb.toSuperblock s e ≠ .error (.panic "freeing free block") ∧
    ∀ t, step sb.toSuperblock s e = .ok t → WellFormed sb t.disk ∧
      ∀ key b, (holdings sb.toSuperblock t).held key = some b →
        (holdings sb.toSuperblock s).held key ≠ some b →
          sb.nmeta ≤ b ∧ ¬Marked sb.toSuperblock s.disk b ∧
            ∀ key', (holdings sb.toSuperblock s).held key' ≠ some b

/-- What is valid in the cache is what is on the disk. -/
structure Inv (sb : Layout) (s : System) : Prop where
  wellFormed : WellFormed sb s.disk
  cached : ∀ i < sb.ninodes, ∀ v, s.cached i = some v →
    v = dinode sb.toSuperblock s.disk i ∧ v.type ≠ 0

section Steps

variable {sb : Layout} {s t : System} {d d' : Disk} {ip ip' : Inode} {i : ℕ}

theorem Inv.intact (hs : Inv sb s) (hi : i < sb.ninodes)
    (htype : (dinode sb.toSuperblock s.disk i).type ≠ 0) :
    Intact sb s.disk (load sb.toSuperblock s.disk i) := by
  refine ⟨hi, htype, ?_⟩
  rw [inodes_load]
  exact hs.wellFormed.toSound

theorem Inv.ilock (hs : Inv sb s) (hi : i < sb.ninodes)
    (h : ilock sb.toSuperblock s i = .ok ip) :
    ip = load sb.toSuperblock s.disk i ∧ (dinode sb.toSuperblock s.disk i).type ≠ 0 := by
  unfold BlockRuns.ilock at h
  split at h
  · next v hv =>
    cases h
    obtain ⟨rfl, htype⟩ := hs.cached i hi v hv
    exact ⟨rfl, htype⟩
  · split at h
    · cases h
    · next htype =>
      cases h
      exact ⟨rfl, htype⟩

theorem keeps_of_grows {l m : Ledger (ℕ × ℕ) ℕ} (hl : Exact (metadata sb.toSuperblock) l)
    (h : Grows l m) {key : ℕ × ℕ} {b : ℕ} (hm : m.held key = some b) (hne : l.held key ≠ some b) :
    b ∉ l.used ∧ sb.nmeta ≤ b ∧ ∀ key', l.held key' ≠ some b := by
  have hnone : l.held key = none := by
    cases hk : l.held key with
    | none => rfl
    | some c =>
      have hc := h.kept key c hk
      rw [hm] at hc
      obtain rfl := Option.some.inj hc
      exact absurd hk hne
  have hfresh := h.fresh key b hnone hm
  refine ⟨hfresh, ?_, ?_⟩
  · by_contra hlt
    exact hfresh (hl.reserved_used b (Nat.not_le.mp hlt))
  · exact fun key' hk => hfresh (hl.held_used key' b hk).1

theorem store_cached_self (s : System) (d : Disk) (ip : Inode) :
    (store s d ip).cached ip.inum = some ip.toDinode := Function.update_self ..

theorem store_cached_of_ne (s : System) (d : Disk) {ip : Inode} {j : ℕ} (h : j ≠ ip.inum) :
    (store s d ip).cached j = s.cached j := Function.update_of_ne h _ _

/-- An allocated inode is written back to disk and stays valid in the cache. -/
theorem inv_store (hs : Inv sb s) (hi : ip.inum < sb.ninodes) (htype : ip.type ≠ 0)
    (hexact : Exact (metadata sb.toSuperblock)
      (ledger sb.toSuperblock d (inodes sb.toSuperblock d ip)))
    (hlow : ∀ x < sb.bmapstart, d x = s.disk x) :
    Inv sb (store s (iupdate sb.toSuperblock d ip) ip) := by
  constructor
  case wellFormed =>
    rw [WellFormed, store, ledger_iupdate hi hexact.toSound]
    exact hexact
  case cached =>
    intro j hj v hv
    change v = dinode sb.toSuperblock (iupdate sb.toSuperblock d ip) j ∧ v.type ≠ 0
    rw [dinode_iupdate]
    by_cases hji : j = ip.inum
    · subst hji
      rw [store_cached_self] at hv
      obtain rfl := Option.some.inj hv
      exact ⟨(inodes_self _ _ _).symm, htype⟩
    · rw [store_cached_of_ne _ _ hji] at hv
      rw [inodes_of_ne _ _ hji, dinode_of_inode_blocks hlow hj]
      exact hs.cached j hj v hv

theorem holdings_store (hi : ip.inum < sb.ninodes) (hexact : Exact (metadata sb.toSuperblock)
      (ledger sb.toSuperblock d (inodes sb.toSuperblock d ip))) :
    holdings sb.toSuperblock (store s (iupdate sb.toSuperblock d ip) ip) =
      ledger sb.toSuperblock d (inodes sb.toSuperblock d ip) :=
  ledger_iupdate hi hexact.toSound

theorem holdings_load (sb : Superblock) (s : System) (i : ℕ) :
    holdings sb s = ledger sb s.disk (inodes sb s.disk (load sb s.disk i)) := by
  rw [inodes_load]
  rfl

/-- Nothing is stored when nothing was written. -/
theorem inv_store_load (hs : Inv sb s) (htype : (dinode sb.toSuperblock s.disk i).type ≠ 0) :
    Inv sb (store s s.disk (load sb.toSuperblock s.disk i)) := by
  refine ⟨hs.wellFormed, ?_⟩
  intro j hj v hv
  by_cases hji : j = i
  · subst hji
    have hself := store_cached_self s s.disk (load sb.toSuperblock s.disk j)
    obtain rfl := Option.some.inj (hself.symm.trans hv)
    exact ⟨rfl, htype⟩
  · rw [store_cached_of_ne _ _ hji] at hv
    exact hs.cached j hj v hv

/-- A write that grows the file is refused or gives it blocks that were free. -/
theorem writei_grows {src : Memory} {off n : Word} {r : ℤ} (hs : Inv sb s) (hi : i < sb.ninodes)
    (htype : (dinode sb.toSuperblock s.disk i).type ≠ 0)
    (hgrow : (load sb.toSuperblock s.disk i).size.toNat < off.toNat + n.toNat)
    (h : writei sb.toSuperblock s.disk (load sb.toSuperblock s.disk i) src off n =
      .ok (r, d', ip')) :
    Inv sb (store s d' ip') ∧
      Grows (holdings sb.toSuperblock s) (holdings sb.toSuperblock (store s d' ip')) := by
  have hintact := hs.intact hi htype
  rcases writei_cases h with ⟨-, -, rfl, rfl⟩ | ⟨-, -, e, iq, hw, hadd, hoff, hcase⟩
  · exact ⟨inv_store_load hs htype, .refl _⟩
  have hiq : ip' = { iq with size := off + n } ∧ d' = iupdate sb.toSuperblock e ip' := by
    rcases hcase with ⟨hin, -, -⟩ | ⟨-, hip, hd⟩
    · have hzero : n.toNat ≠ 0 := by omega
      have hn : n ≠ 0 := fun hn => hzero (congrArg BitVec.toNat hn)
      have hlt := hin.resolve_left hn
      omega
    · exact ⟨hip, hd⟩
  obtain ⟨hip, hd⟩ := hiq
  obtain ⟨hfills, -⟩ := writeBlocks_spec hintact hw
  have hinum : ip'.inum = i := by rw [hip, hfills.fields]; rfl
  have htype' : ip'.type ≠ 0 := by
    have hkept : ip'.type = (dinode sb.toSuperblock s.disk i).type := by
      rw [hip, hfills.fields]
      rfl
    rwa [hkept]
  have hsize : ledger sb.toSuperblock e (inodes sb.toSuperblock e ip') =
      ledger sb.toSuperblock e (inodes sb.toSuperblock e iq) := by
    rw [hip]
    exact ledger_setSize _ _ _ _
  have hgrows : Grows (holdings sb.toSuperblock s)
      (ledger sb.toSuperblock e (inodes sb.toSuperblock e ip')) := by
    rw [hsize, holdings_load sb.toSuperblock s i]
    exact hfills.grows
  have hexact := Exact.grows hs.wellFormed hgrows
  rw [hd]
  refine ⟨inv_store hs (hinum ▸ hi) htype' hexact hfills.inode_blocks, ?_⟩
  rw [holdings_store (hinum ▸ hi) hexact]
  exact hgrows

/-- itrunc returns, and the inode gives up its blocks. -/
theorem itrunc_shrinks (hs : Inv sb s) (hi : i < sb.ninodes)
    (htype : (dinode sb.toSuperblock s.disk i).type ≠ 0) :
    ∃ d' ip', itrunc sb.toSuperblock s.disk (load sb.toSuperblock s.disk i) = .ok (d', ip') ∧
      ip' = emptied (load sb.toSuperblock s.disk i) ∧ Inv sb (store s d' ip') ∧
      Shrinks {key | key.1 = i} (holdings sb.toSuperblock s)
        (holdings sb.toSuperblock (store s d' ip')) := by
  have hintact := hs.intact hi htype
  obtain ⟨e, hframe, hmarked, h⟩ := itrunc_returns hintact
  have hshrinks := shrinks_emptied hintact hframe hmarked
  rw [← holdings_load] at hshrinks
  have hexact := Exact.shrinks hs.wellFormed hshrinks
  have hi' : (emptied (load sb.toSuperblock s.disk i)).inum < sb.ninodes := hi
  refine ⟨_, _, h, rfl, inv_store hs hi' htype hexact (fun x hx => hframe x (.inl hx)), ?_⟩
  rw [holdings_store hi' hexact]
  exact hshrinks

def unallocated (ip : Inode) : Inode := { emptied ip with type := 0 }

/-- An inode without blocks owns nothing, whether it is allocated or not. -/
theorem ledger_unallocated (sb : Superblock) (d : Disk) (ip : Inode) :
    ledger sb d (inodes sb d (unallocated ip)) =
      ledger sb d (inodes sb d (emptied ip)) := by
  apply Ledger.ext
  · funext key
    obtain ⟨j, k⟩ := key
    by_cases hj : j = ip.inum
    · have hself : inodes sb d (emptied ip) j = (emptied ip).toDinode := hj ▸ inodes_self ..
      have hself' : inodes sb d (unallocated ip) j = (unallocated ip).toDinode :=
        hj ▸ inodes_self ..
      have hslot : slot d (unallocated ip).toDinode k = slot d (emptied ip).toDinode k :=
        slot_congr rfl fun _ => rfl
      simp only [ledger, hself, hself', hslot, emptied_slot, ne_eq, not_true_eq_false, and_false,
        if_false]
    · have hother : inodes sb d (emptied ip) j = dinode sb d j := inodes_of_ne _ _ hj
      have hother' : inodes sb d (unallocated ip) j = dinode sb d j := inodes_of_ne _ _ hj
      simp only [ledger, hother, hother']
  · rfl

theorem drop_cached_self (s : System) (d : Disk) (i : ℕ) : (drop s d i).cached i = none :=
  Function.update_self ..

theorem drop_cached_of_ne (s : System) (d : Disk) {i j : ℕ} (h : j ≠ i) :
    (drop s d i).cached j = s.cached j := Function.update_of_ne h _ _

theorem inv_drop (hs : Inv sb s) (hd : WellFormed sb d)
    (hsame : ∀ j, j ≠ i → dinode sb.toSuperblock d j = dinode sb.toSuperblock s.disk j) :
    Inv sb (drop s d i) := by
  refine ⟨hd, ?_⟩
  intro j hj v hv
  by_cases hji : j = i
  · subst hji
    rw [drop_cached_self] at hv
    cases hv
  · rw [drop_cached_of_ne _ _ hji] at hv
    change v = dinode sb.toSuperblock d j ∧ v.type ≠ 0
    rw [hsame j hji]
    exact hs.cached j hj v hv

/-- The second write of the inode, without blocks and without type. -/
theorem unallocate (hs : Inv sb s) (hi : ip.inum < sb.ninodes)
    (hip : s.cached ip.inum = some (emptied ip).toDinode) :
    Inv sb (drop s (iupdate sb.toSuperblock s.disk (unallocated ip)) ip.inum) ∧
      holdings sb.toSuperblock
          (drop s (iupdate sb.toSuperblock s.disk (unallocated ip)) ip.inum) =
        holdings sb.toSuperblock s := by
  have hsame : inodes sb.toSuperblock s.disk (emptied ip) = dinode sb.toSuperblock s.disk := by
    rw [inodes, (hs.cached ip.inum hi _ hip).1]
    exact Function.update_eq_self _ _
  have hledger : ledger sb.toSuperblock s.disk (inodes sb.toSuperblock s.disk
      (unallocated ip)) = holdings sb.toSuperblock s := by
    rw [ledger_unallocated, hsame]
    rfl
  have hsound : Sound (metadata sb.toSuperblock) (ledger sb.toSuperblock s.disk
      (inodes sb.toSuperblock s.disk (unallocated ip))) := by
    rw [hledger]
    exact hs.wellFormed.toSound
  have hi' : (unallocated ip).inum < sb.ninodes := hi
  have hstored := ledger_iupdate hi' hsound
  rw [hledger] at hstored
  refine ⟨inv_drop hs ?_ ?_, hstored⟩
  · rw [WellFormed, hstored]
    exact hs.wellFormed
  · intro j hj
    rw [dinode_iupdate]
    exact inodes_of_ne _ _ hj

/-- The inode that iput frees gives up its blocks and is not allocated any more. -/
theorem ifree_shrinks (hs : Inv sb s) (hi : i < sb.ninodes)
    (htype : (dinode sb.toSuperblock s.disk i).type ≠ 0) :
    ∃ d' ip', ifree sb.toSuperblock s.disk (load sb.toSuperblock s.disk i) = .ok (d', ip') ∧
      Inv sb (drop s d' i) ∧ Shrinks {key | key.1 = i} (holdings sb.toSuperblock s)
        (holdings sb.toSuperblock (drop s d' i)) := by
  obtain ⟨e, iq, h, rfl, hinv, hshrinks⟩ := itrunc_shrinks hs hi htype
  have hcached := store_cached_self s e (emptied (load sb.toSuperblock s.disk i))
  obtain ⟨hfreed, hsame⟩ := unallocate hinv hi hcached
  -- the cache entry that itrunc keeps valid is the one that is dropped
  have hdrop : ∀ d, drop (store s e (emptied (load sb.toSuperblock s.disk i))) d i = drop s d i :=
    fun d => congrArg (System.mk d) (Function.update_idem _ _ _)
  change Inv sb (drop _ _ i) at hfreed
  change holdings sb.toSuperblock (drop _ _ i) = _ at hsame
  rw [hdrop] at hfreed hsame
  unfold ifree
  rw [h, ok_bind]
  rw [← hsame] at hshrinks
  exact ⟨_, _, rfl, hfreed, hshrinks⟩

end Steps

/-! Of the panics only one is about free blocks, and writei does not get to it. -/
section Panics

variable {sb : Superblock} {d : Disk} {ip : Inode} {e : Fault}

theorem bind_ne_error {α β : Type} {x : Except Fault α} {f : α → Except Fault β}
    (hx : x ≠ .error e) (hf : ∀ a, f a ≠ .error e) : x >>= f ≠ .error e := by
  rw [Ne, bind_eq_error]
  rintro (h | ⟨a, -, h⟩)
  · exact hx h
  · exact hf a h

theorem balloc_panics : balloc sb d ≠ .error (.panic "freeing free block") := by
  cases hf : findFree sb d with
  | none =>
    rw [balloc_none hf]
    exact panic_ne (by decide)
  | some b =>
    rw [balloc_some hf]
    intro h
    cases h

theorem bmapAddr_panics (k : Fin (ndirect + 1)) :
    bmapAddr sb d ip k ≠ .error (.panic "freeing free block") := by
  unfold bmapAddr
  split
  · apply bind_ne_error balloc_panics
    intro r h
    cases h
  · intro h
    cases h

theorem bmapEntry_panics (addr j : ℕ) :
    bmapEntry sb d addr j ≠ .error (.panic "freeing free block") := by
  unfold bmapEntry
  split
  · apply bind_ne_error balloc_panics
    intro r h
    cases h
  · intro h
    cases h

theorem bmap_panics (bn : ℕ) : bmap sb d ip bn ≠ .error (.panic "freeing free block") := by
  unfold bmap
  split
  · exact bmapAddr_panics _
  · split
    · apply bind_ne_error (bmapAddr_panics _)
      intro r
      apply bind_ne_error (bmapEntry_panics _ _)
      intro q h
      cases h
    · exact panic_ne (by decide)

theorem writeBlocks_panics (src : Memory) (off n : ℕ) :
    writeBlocks sb d ip src off n ≠ .error (.panic "freeing free block") := by
  induction n using Nat.strong_induction_on generalizing d ip src off with
  | _ n ih =>
    rw [writeBlocks]
    split
    · intro h
      cases h
    · next hn =>
      apply bind_ne_error (bmap_panics _)
      intro r
      have hpos := step_pos off hn
      exact ih _ (by omega) _ _

theorem writei_panics (src : Memory) (off n : Word) :
    writei sb d ip src off n ≠ .error (.panic "freeing free block") := by
  unfold writei
  split
  · intro h
    cases h
  · split
    · intro h
      cases h
    · apply bind_ne_error (writeBlocks_panics _ _ _)
      intro s
      split
      · intro h
        cases h
      · intro h
        cases h

theorem ilock_panics (s : System) (i : ℕ) :
    ilock sb s i ≠ .error (.panic "freeing free block") := by
  unfold ilock
  split
  · intro h
    cases h
  · split
    · exact panic_ne (by decide)
    · intro h
      cases h

end Panics

section Runs

variable {sb : Layout} {s t : System} {e : Event} {i : ℕ}

/-- How a step that does not free a free block may end. -/
def Moves (sb : Layout) (s : System) (r : Except Fault System) : Prop :=
  r ≠ .error (.panic "freeing free block") ∧ ∀ t, r = .ok t → Inv sb t ∧
    (Grows (holdings sb.toSuperblock s) (holdings sb.toSuperblock t) ∨
      ∃ K, Shrinks K (holdings sb.toSuperblock s) (holdings sb.toSuperblock t))

theorem moves_ok (ht : Inv sb t)
    (h : Grows (holdings sb.toSuperblock s) (holdings sb.toSuperblock t) ∨
      ∃ K, Shrinks K (holdings sb.toSuperblock s) (holdings sb.toSuperblock t)) :
    Moves sb s (.ok t) := by
  constructor
  · intro h
    cases h
  · intro u hu
    cases hu
    exact ⟨ht, h⟩

/-- ilock panics before anything is done, or the rest runs on the inode it loads. -/
theorem moves_ilock (hs : Inv sb s) (hi : i < sb.ninodes) {f : Inode → Except Fault System}
    (hf : ilock sb.toSuperblock s i = .ok (load sb.toSuperblock s.disk i) →
      (dinode sb.toSuperblock s.disk i).type ≠ 0 →
        Moves sb s (f (load sb.toSuperblock s.disk i))) :
    Moves sb s (ilock sb.toSuperblock s i >>= f) := by
  cases hip : ilock sb.toSuperblock s i with
  | error e =>
    constructor
    · intro h
      exact ilock_panics s i (hip.trans (congrArg Except.error (Except.error.inj h)))
    · intro t h
      cases h
  | ok ip =>
    obtain ⟨rfl, htype⟩ := hs.ilock hi hip
    exact hf hip htype

theorem iput_moves (hs : Inv sb s) (hi : i < sb.ninodes) :
    Moves sb s (step sb.toSuperblock s (.iput i)) := by
  cases hv : s.cached i with
  | none =>
    simp only [step, hv]
    exact moves_ok hs (.inl (.refl _))
  | some v =>
    obtain ⟨rfl, htype⟩ := hs.cached i hi v hv
    obtain ⟨d', ip', h, hinv, hshrinks⟩ := ifree_shrinks hs hi htype
    simp only [step, hv]
    split
    · rw [load] at h
      rw [h, ok_bind]
      exact moves_ok hinv (.inr ⟨_, hshrinks⟩)
    · exact moves_ok hs (.inl (.refl _))

theorem step_moves (hs : Inv sb s) (he : Growing sb.toSuperblock s e) :
    Moves sb s (step sb.toSuperblock s e) := by
  obtain ⟨hi, hgrow⟩ := he
  cases e with
  | ilock i =>
    apply moves_ilock hs hi
    intro _ htype
    exact moves_ok (inv_store_load hs htype) (.inl (.refl _))
  | writei i src off n =>
    apply moves_ilock hs hi
    intro hip htype
    constructor
    · apply bind_ne_error (writei_panics src off n)
      intro r h
      cases h
    · intro t h
      obtain ⟨⟨r, d', ip'⟩, hw, h⟩ := bind_eq_ok.mp h
      obtain ⟨hinv, hgrows⟩ := writei_grows hs hi htype (hgrow i src off n rfl _ hip) hw
      cases h
      exact ⟨hinv, .inl hgrows⟩
  | itrunc i =>
    apply moves_ilock hs hi
    intro _ htype
    obtain ⟨d', ip', h, -, hinv, hshrinks⟩ := itrunc_shrinks hs hi htype
    rw [h, ok_bind]
    exact moves_ok hinv (.inr ⟨_, hshrinks⟩)
  | iput i => exact iput_moves hs hi
  | recycle i => exact moves_ok (inv_drop hs hs.wellFormed fun _ _ => rfl) (.inl (.refl _))

theorem keeps_of_moves (hs : Inv sb s) (h : Moves sb s (step sb.toSuperblock s e)) :
    Keeps sb s e := by
  refine ⟨h.1, ?_⟩
  intro t ht
  obtain ⟨hinv, hmoves⟩ := h.2 t ht
  refine ⟨hinv.wellFormed, ?_⟩
  intro key b hb hnew
  rcases hmoves with hgrows | ⟨K, hshrinks⟩
  · obtain ⟨hfresh, hdata, hnobody⟩ := keeps_of_grows hs.wellFormed hgrows hb hnew
    have hsize : b < sb.size := (hinv.wellFormed.held_used key b hb).1.1
    exact ⟨hdata, fun hm => hfresh ⟨hsize, hm⟩, hnobody⟩
  · exact absurd (hshrinks.held hb).2 hnew

/-- From a well-formed disk every run of growing writes, truncations and frees stays on
well-formed disks, gives to files only blocks that nobody has, and frees no free block. -/
theorem well_formed_runs (sb : Layout) (s : System) (es : List Event) (hs : Inv sb s)
    (hes : Along (step sb.toSuperblock) (Growing sb.toSuperblock) s es) :
    Along (step sb.toSuperblock) (Keeps sb) s es := by
  apply along_of_invariant _ _ hs hes
  · exact fun s e hs he => keeps_of_moves hs (step_moves hs he)
  · exact fun s e t hs he ht => ((step_moves hs he).2 t ht).1

/-- Three bytes are written to a file, it is truncated, and its cache entry is used again. -/
theorem well_formed_runs_blank : Along (step tiny.toSuperblock) (Keeps tiny)
    ⟨blank, fun _ => none⟩ [.writei 1 (fun _ => 7) 0 3, .itrunc 1, .recycle 1] := by
  have hs : Inv tiny ⟨blank, fun _ => none⟩ := by
    refine ⟨exact_blank, ?_⟩
    intro i hi v hv
    cases hv
  apply well_formed_runs _ _ _ hs
  refine ⟨⟨by decide, ?_⟩, fun t _ => ⟨⟨by decide, ?_⟩, fun u _ => ⟨⟨by decide, ?_⟩, ?_⟩⟩⟩
  · intro i src off n he ip hip
    cases he
    obtain ⟨rfl, -⟩ := hs.ilock (by decide) hip
    decide
  · intro i src off n he
    cases he
  · intro i src off n he
    cases he
  · exact fun _ _ => trivial

end Runs

end BlockRuns
