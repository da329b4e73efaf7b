import Xv6Gui.BlockMaps
import Xv6Gui.DiskLog
import Mathlib.Data.Finset.Card

/-!
# The blocks that one write logs

balloc, bmap and writei of fs.c with their calls of log_write. A computation keeps the blocks that
it has logged, also when it panics, and without them it is that of the block layer.
-/
namespace LoggedWrites

open WordMemory DiskBlocks BlockMaps GuardedRuns
open WindowManagerState (Fault)
open DiskLog (maxOpBlocks)

structure Logged (α : Type) where
  log : List ℕ
  result : Except Fault α

def Logged.bind {α β : Type} (x : Logged α) (f : α → Logged β) : Logged β :=
  match x.result with
  | .error e => ⟨x.log, .error e⟩
  | .ok a => ⟨x.log ++ (f a).log, (f a).result⟩

/-- A computation that logs nothing. -/
def quiet {α : Type} (x : Except Fault α) : Logged α := ⟨[], x⟩

/-- The calls of `log_write` for the blocks, and a value. -/
def logged {α : Type} (blocks : List ℕ) (a : α) : Logged α := ⟨blocks, .ok a⟩

/-- The bitmap block, then the block that `bzero` clears. -/
def balloc (sb : Superblock) (d : Disk) : Logged (ℕ × Disk) :=
  (quiet (BlockMaps.balloc sb d)).bind fun r => logged [sb.bblock r.1, r.1] r

def bmapAddr (sb : Superblock) (d : Disk) (ip : Inode) (k : Fin (ndirect + 1)) :
    Logged (ℕ × Disk × Inode) :=
  if ip.addrs k = 0 then
    (balloc sb d).bind fun r => logged [] (r.1, r.2, setAddr ip k (BitVec.ofNat 32 r.1))
  else logged [] ((ip.addrs k).toNat, d, ip)

def bmapEntry (sb : Superblock) (d : Disk) (addr j : ℕ) : Logged (ℕ × Disk) :=
  if word (d addr) (4 * j) = 0 then
    (balloc sb d).bind fun r => logged [addr] (r.1, Function.update r.2 addr
      (storeWord (r.2 addr) (4 * j) (BitVec.ofNat 32 r.1)))
  else logged [] ((word (d addr) (4 * j)).toNat, d)

def bmap (sb : Superblock) (d : Disk) (ip : Inode) (bn : ℕ) : Logged (ℕ × Disk × Inode) :=
  if h : bn < ndirect then bmapAddr sb d ip ⟨bn, Nat.lt_succ_of_lt h⟩
  else if bn - ndirect < nindirect then
    (bmapAddr sb d ip (Fin.last ndirect)).bind fun r =>
      (bmapEntry sb r.2.1 r.1 (bn - ndirect)).bind fun q => logged [] (q.1, q.2, r.2.2)
  else quiet (.error (.panic "bmap: out of range"))

/-- The loop of `writei`. -/
def writeBlocks (sb : Superblock) (d : Disk) (ip : Inode) (src : Memory) (off n : ℕ) :
    Logged (Disk × Inode) :=
  if n = 0 then logged [] (d, ip)
  else
    (bmap sb d ip (off / bsize)).bind fun r =>
      let m := min n (bsize - off % bsize)
      (logged [r.1] ()).bind fun _ =>
        writeBlocks sb (Function.update r.2.1 r.1 (copyIn (r.2.1 r.1) (off % bsize) src m))
          r.2.2 (fun i => src (i + m)) (off + m) (n - m)
  termination_by n
  decreasing_by
    have hpos := step_pos off ‹_›
    omega

def writei (sb : Superblock) (d : Disk) (ip : Inode) (src : Memory) (off n : Word) :
    Logged (ℤ × Disk × Inode) :=
  if off > ip.size ∨ off + n < off then logged [] (-1, d, ip)
  else if off + n > BitVec.ofNat 32 (maxfile * bsize) then logged [] (-1, d, ip)
  else
    (writeBlocks sb d ip src off.toNat n.toNat).bind fun s =>
      if n > 0 ∧ off + n > ip.size then
        let ip := { s.2 with size := off + n }
        logged [sb.iblock ip.inum] (n.toNat, iupdate sb s.1 ip, ip)
      else logged [] (n.toNat, s)

/-- The most that `filewrite` hands to one `writei`. -/
abbrev maxChunk : ℕ := (maxOpBlocks - 1 - 1 - 2) / 2 * 512

variable {α β : Type} {x : Logged α} {f : α → Logged β} {sb : Superblock} {d : Disk} {ip : Inode}

section Erasure

theorem bind_result (x : Logged α) (f : α → Logged β) :
    (x.bind f).result = x.result >>= fun a => (f a).result := by
  rw [Logged.bind]
  cases x.result <;> rfl

theorem balloc_result (sb : Superblock) (d : Disk) :
    (balloc sb d).result = BlockMaps.balloc sb d := by
  rw [balloc, bind_result]
  change BlockMaps.balloc sb d >>= (fun r => .ok r) = _
  cases BlockMaps.balloc sb d <;> rfl

theorem bmapAddr_result (sb : Superblock) (d : Disk) (ip : Inode) (k : Fin (ndirect + 1)) :
    (bmapAddr sb d ip k).result = BlockMaps.bmapAddr sb d ip k := by
  rw [bmapAddr, BlockMaps.bmapAddr]
  by_cases hzero : ip.addrs k = 0
  · rw [if_pos hzero, if_pos hzero, bind_result, balloc_result]
    rfl
  · rw [if_neg hzero, if_neg hzero]
    rfl

theorem bmapEntry_result (sb : Superblock) (d : Disk) (addr j : ℕ) :
    (bmapEntry sb d addr j).result = BlockMaps.bmapEntry sb d addr j := by
  rw [bmapEntry, BlockMaps.bmapEntry]
  by_cases hzero : word (d addr) (4 * j) = 0
  · rw [if_pos hzero, if_pos hzero, bind_result, balloc_result]
    rfl
  · rw [if_neg hzero, if_neg hzero]
    rfl

theorem bmap_result (sb : Superblock) (d : Disk) (ip : Inode) (bn : ℕ) :
    (bmap sb d ip bn).result = BlockMaps.bmap sb d ip bn := by
  rw [bmap, BlockMaps.bmap]
  by_cases hdirect : bn < ndirect
  · rw [dif_pos hdirect, dif_pos hdirect, bmapAddr_result]
  · rw [dif_neg hdirect, dif_neg hdirect]
    by_cases hindirect : bn - ndirect < nindirect
    · rw [if_pos hindirect, if_pos hindirect, bind_result, bmapAddr_result]
      congr 1
      funext r
      rw [bind_result, bmapEntry_result]
      rfl
    · rw [if_neg hindirect, if_neg hindirect]
      rfl

theorem writeBlocks_result (sb : Superblock) (d : Disk) (ip : Inode) (src : Memory) (off n : ℕ) :
    (writeBlocks sb d ip src off n).result = BlockMaps.writeBlocks sb d ip src off n := by
  induction n using Nat.strong_induction_on generalizing d ip src off with
  | _ n ih =>
    rw [writeBlocks, BlockMaps.writeBlocks]
    by_cases hzero : n = 0
    · rw [if_pos hzero, if_pos hzero]
      rfl
    · have hpos := step_pos off hzero
      rw [if_neg hzero, if_neg hzero, bind_result, bmap_result]
      congr 1
      funext r
      rw [bind_result]
      exact ih _ (by omega) _ _ _ _

/-- Without the log, a write is that of the block layer. -/
theorem writei_result (sb : Superblock) (d : Disk) (ip : Inode) (src : Memory) (off n : Word) :
    (writei sb d ip src off n).result = BlockMaps.writei sb d ip src off n := by
  rw [writei, BlockMaps.writei]
  by_cases hoff : off > ip.size ∨ off + n < off
  · rw [if_pos hoff, if_pos hoff]
    rfl
  rw [if_neg hoff, if_neg hoff]
  by_cases hmax : off + n > BitVec.ofNat 32 (maxfile * bsize)
  · rw [if_pos hmax, if_pos hmax]
    rfl
  rw [if_neg hmax, if_neg hmax, bind_result, writeBlocks_result]
  congr 1
  funext s
  by_cases hgrow : n > 0 ∧ off + n > ip.size
  · rw [if_pos hgrow, if_pos hgrow]
    rfl
  · rw [if_neg hgrow, if_neg hgrow]
    rfl

end Erasure

section Counting

/-- The set holds the blocks that are logged and the block of the result. -/
structure Covers (S : Finset ℕ) (x : Logged α) (block : α → ℕ) : Prop where
  log : ∀ b ∈ x.log, b ∈ S
  result : ∀ a, x.result = .ok a → block a ∈ S

variable {S T : Finset ℕ} {block : α → ℕ} {block' : β → ℕ} {a : α} {e : Fault}

theorem bind_ok (h : x.result = .ok a) (f : α → Logged β) :
    x.bind f = ⟨x.log ++ (f a).log, (f a).result⟩ := by
  rw [Logged.bind, h]

theorem bind_error (h : x.result = .error e) (f : α → Logged β) :
    x.bind f = ⟨x.log, .error e⟩ := by
  rw [Logged.bind, h]

theorem Covers.mono (h : Covers S x block) (hsub : S ⊆ T) : Covers T x block :=
  ⟨fun b hb => hsub (h.log b hb), fun a ha => hsub (h.result a ha)⟩

/-- A call that fails has no result. -/
theorem covers_error {log : List ℕ} (h : ∀ b ∈ log, b ∈ S) (e : Fault) :
    Covers S ⟨log, .error e⟩ block :=
  ⟨h, fun _ ha => by cases ha⟩

theorem covers_quiet (e : Fault) (block : α → ℕ) : Covers ∅ (quiet (.error e)) block :=
  covers_error (fun _ hb => absurd hb List.not_mem_nil) e

/-- The block of the result is counted once. -/
theorem exists_covers_bind {k m : ℕ} (hx : ∃ S, S.card ≤ k ∧ Covers S x block)
    (hf : ∀ a, ∃ T, T.card ≤ m ∧ Covers (insert (block a) T) (f a) block') :
    ∃ S, S.card ≤ k + m ∧ Covers S (x.bind f) block' := by
  obtain ⟨S, hcard, hS⟩ := hx
  cases hr : x.result with
  | error e =>
    rw [bind_error hr]
    exact ⟨S, Nat.le_add_right_of_le hcard, covers_error hS.log e⟩
  | ok a =>
    obtain ⟨T, hcard', hT⟩ := hf a
    have hsub : insert (block a) T ⊆ S ∪ T :=
      Finset.insert_subset (Finset.mem_union_left T (hS.result a hr)) Finset.subset_union_right
    rw [bind_ok hr]
    refine ⟨S ∪ T, (Finset.card_union_le S T).trans (Nat.add_le_add hcard hcard'), ?_, ?_⟩
    · intro b hb
      rcases List.mem_append.mp hb with hb | hb
      · exact Finset.mem_union_left T (hS.log b hb)
      · exact hsub (hT.log b hb)
    · exact fun c hc => hsub (hT.result c hc)

theorem Covers.bind_quiet (h : Covers S x block) {g : α → β} (hg : ∀ a, block' (g a) = block a) :
    Covers S (x.bind fun a => logged [] (g a)) block' := by
  cases hr : x.result with
  | error e =>
    rw [bind_error hr]
    exact covers_error h.log e
  | ok a =>
    rw [bind_ok hr]
    refine ⟨?_, ?_⟩
    · intro b hb
      rw [logged, List.append_nil] at hb
      exact h.log b hb
    · rintro c hc
      cases hc
      rw [hg]
      exact h.result a hr

theorem covers_value (a : α) (block : α → ℕ) : Covers {block a} (logged [] a) block := by
  refine ⟨fun _ hb => absurd hb List.not_mem_nil, ?_⟩
  rintro c hc
  cases hc
  exact Finset.mem_singleton_self _

theorem balloc_covers (sb : Superblock) (d : Disk) :
    ∃ S, S.card ≤ 2 ∧ Covers S (balloc sb d) (·.1) := by
  rw [balloc]
  cases hb : BlockMaps.balloc sb d with
  | error e => exact ⟨∅, Nat.zero_le _, covers_error (fun _ hb => absurd hb List.not_mem_nil) e⟩
  | ok r =>
    refine ⟨{sb.bblock r.1, r.1}, Finset.card_le_two, ?_, ?_⟩
    · intro b hb
      simpa [Logged.bind, quiet, logged] using hb
    · rintro c hc
      cases hc
      exact Finset.mem_insert_of_mem (Finset.mem_singleton_self _)

theorem bmapAddr_covers (sb : Superblock) (d : Disk) (ip : Inode) (k : Fin (ndirect + 1)) :
    ∃ S, S.card ≤ 2 ∧ Covers S (bmapAddr sb d ip k) (·.1) := by
  rw [bmapAddr]
  by_cases hzero : ip.addrs k = 0
  · obtain ⟨S, hcard, hS⟩ := balloc_covers sb d
    rw [if_pos hzero]
    exact ⟨S, hcard, hS.bind_quiet fun _ => rfl⟩
  · rw [if_neg hzero]
    exact ⟨_, by simp, covers_value _ _⟩

/-- The indirect block itself is not counted here. -/
theorem bmapEntry_covers (sb : Superblock) (d : Disk) (addr j : ℕ) :
    ∃ T, T.card ≤ 2 ∧ Covers (insert addr T) (bmapEntry sb d addr j) (·.1) := by
  rw [bmapEntry]
  by_cases hzero : word (d addr) (4 * j) = 0
  · obtain ⟨S, hcard, hS⟩ := balloc_covers sb d
    refine ⟨S, hcard, ?_⟩
    rw [if_pos hzero]
    cases hr : (balloc sb d).result with
    | error e =>
      rw [bind_error hr]
      exact covers_error (fun b hb => Finset.mem_insert_of_mem (hS.log b hb)) e
    | ok r =>
      rw [bind_ok hr]
      refine ⟨?_, ?_⟩
      · intro b hb
        rcases List.mem_append.mp hb with hb | hb
        · exact Finset.mem_insert_of_mem (hS.log b hb)
        · exact List.mem_singleton.mp hb ▸ Finset.mem_insert_self _ _
      · rintro c hc
        cases hc
        exact Finset.mem_insert_of_mem (hS.result r hr)
  · rw [if_neg hzero]
    exact ⟨{(word (d addr) (4 * j)).toNat}, by simp,
      (covers_value _ _).mono (Finset.subset_insert _ _)⟩

/-- At most the indirect block, the data block and the bitmap block of each. -/
theorem bmap_covers (sb : Superblock) (d : Disk) (ip : Inode) (bn : ℕ) :
    ∃ S, S.card ≤ 4 ∧ Covers S (bmap sb d ip bn) (·.1) := by
  rw [bmap]
  by_cases hdirect : bn < ndirect
  · obtain ⟨S, hcard, hS⟩ := bmapAddr_covers sb d ip ⟨bn, hdirect.trans (Nat.lt_succ_self _)⟩
    rw [dif_pos hdirect]
    exact ⟨S, by omega, hS⟩
  rw [dif_neg hdirect]
  by_cases hindirect : bn - ndirect < nindirect
  · rw [if_pos hindirect]
    refine exists_covers_bind (k := 2) (m := 2) (bmapAddr_covers sb d ip _) ?_
    intro r
    obtain ⟨T, hcard, hT⟩ := bmapEntry_covers sb r.2.1 r.1 (bn - ndirect)
    exact ⟨T, hcard, hT.bind_quiet fun _ => rfl⟩
  · rw [if_neg hindirect]
    exact ⟨∅, Nat.zero_le _, covers_quiet _ _⟩

/-- Each round of the loop writes to one block. -/
theorem writeBlocks_covers (k : ℕ) (sb : Superblock) (d : Disk) (ip : Inode) (src : Memory)
    (off n : ℕ) (hn : n ≠ 0 → off % bsize + n ≤ k * bsize) :
    ∃ S : Finset ℕ, S.card ≤ 4 * k ∧ ∀ b ∈ (writeBlocks sb d ip src off n).log, b ∈ S := by
  induction k generalizing d ip src off n with
  | zero =>
    have hzero : n = 0 := by
      by_contra hne
      have := hn hne
      omega
    rw [writeBlocks, if_pos hzero]
    exact ⟨∅, Nat.zero_le _, fun _ hb => absurd hb List.not_mem_nil⟩
  | succ k ih =>
    rw [writeBlocks]
    by_cases hzero : n = 0
    · rw [if_pos hzero]
      exact ⟨∅, Nat.zero_le _, fun _ hb => absurd hb List.not_mem_nil⟩
    rw [if_neg hzero]
    obtain ⟨S, hcard, hS⟩ := bmap_covers sb d ip (off / bsize)
    cases hr : (bmap sb d ip (off / bsize)).result with
    | error e =>
      rw [bind_error hr]
      exact ⟨S, by omega, hS.log⟩
    | ok r =>
      -- the rest begins at a block boundary, or there is none
      have hrest : n - min n (bsize - off % bsize) ≠ 0 →
          (off + min n (bsize - off % bsize)) % bsize +
            (n - min n (bsize - off % bsize)) ≤ k * bsize := by
        have hfit := hn hzero
        intro hmore
        dsimp only [bsize] at hfit hmore ⊢
        omega
      obtain ⟨T, hcard', hT⟩ := ih _ r.2.2 _ _ _ hrest
      rw [bind_ok hr]
      refine ⟨S ∪ T, (Finset.card_union_le S T).trans (by omega), ?_⟩
      intro b hb
      rcases List.mem_append.mp hb with hb | hb
      · exact Finset.mem_union_left T (hS.log b hb)
      rcases List.mem_append.mp hb with hb | hb
      · exact List.mem_singleton.mp hb ▸ Finset.mem_union_left T (hS.result r hr)
      · exact Finset.mem_union_right S (hT b hb)

theorem card_log {log : List ℕ} (h : ∀ b ∈ log, b ∈ S) : log.toFinset.card ≤ S.card :=
  Finset.card_le_card fun b hb => h b (List.mem_toFinset.mp hb)

theorem writei_logs (sb : Superblock) (d : Disk) (ip : Inode) (src : Memory) (off n : Word)
    (hn : n.toNat ≤ maxChunk) :
    (writei sb d ip src off n).log.toFinset.card ≤ maxOpBlocks := by
  -- a chunk reaches into at most two blocks
  have hfit : n.toNat ≠ 0 → off.toNat % bsize + n.toNat ≤ 2 * bsize := by
    have hmod : off.toNat % bsize < bsize := Nat.mod_lt _ (by decide)
    dsimp only [maxChunk, maxOpBlocks, bsize] at hn hmod ⊢
    omega
  obtain ⟨S, hcard, hS⟩ := writeBlocks_covers 2 sb d ip src off.toNat n.toNat hfit
  have hten : S.card + 1 ≤ maxOpBlocks := by
    dsimp only [maxOpBlocks]
    omega
  rw [writei]
  by_cases hoff : off > ip.size ∨ off + n < off
  · rw [if_pos hoff]
    exact Nat.zero_le _
  rw [if_neg hoff]
  by_cases hmax : off + n > BitVec.ofNat 32 (maxfile * bsize)
  · rw [if_pos hmax]
    exact Nat.zero_le _
  rw [if_neg hmax]
  cases hr : (writeBlocks sb d ip src off.toNat n.toNat).result with
  | error e =>
    rw [bind_error hr]
    exact (card_log hS).trans (Nat.le_of_succ_le hten)
  | ok s =>
    rw [bind_ok hr]
    have hall : ∀ b ∈ (writeBlocks sb d ip src off.toNat n.toNat).log ++ [sb.iblock s.2.inum],
        b ∈ insert (sb.iblock s.2.inum) S := by
      intro b hb
      rcases List.mem_append.mp hb with hb | hb
      · exact Finset.mem_insert_of_mem (hS b hb)
      · exact List.mem_singleton.mp hb ▸ Finset.mem_insert_self _ _
    have hinode := (card_log hall).trans (Finset.card_insert_le _ _)
    dsimp only
    by_cases hgrow : n > 0 ∧ off + n > ip.size
    · rw [if_pos hgrow]
      exact hinode.trans hten
    · rw [if_neg hgrow, logged, List.append_nil]
      exact (card_log hS).trans (Nat.le_of_succ_le hten)

/-- A chunk of a new file that begins at its last direct block but one byte. -/
theorem writei_logs_chunk :
    (writei ⟨1000, 900, 200, 30, 2, 32, 40⟩ (fun _ _ => 0)
      { type := 2, major := 0, minor := 0, nlink := 1, size := 24575, addrs := fun _ => 0,
        inum := 5 } (fun _ => 1) 24575 1536).log.toFinset.card ≤ maxOpBlocks :=
  writei_logs ⟨1000, 900, 200, 30, 2, 32, 40⟩ (fun _ _ => 0)
    { type := 2, major := 0, minor := 0, nlink := 1, size := 24575, addrs := fun _ => 0,
      inum := 5 } (fun _ => 1) 24575 1536 (by decide)

end Counting

end LoggedWrites
