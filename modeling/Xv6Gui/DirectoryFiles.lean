import Xv6Gui.BoundedStrings
import Xv6Gui.FileWrites
import Xv6Gui.SlotMaps

/-!
# Directories on the disk

A directory is a file of entries of 32 bytes that are read and written through readi and writei,
and an entry with inode number 0 is free. dirlookup, dirlink and the clearing of an entry in
sys_unlink are a lookup, an insertion and a removal of a map from names to inode numbers, where
a name ends before its first zero byte or after DIRSIZ bytes.
-/
namespace DirectoryFiles

open WordMemory DiskBlocks BlockMaps GuardedRuns Ledgers BlockOwnership FileBlocks FileWrites
  BoundedStrings SlotMaps
open WindowManagerState (Fault)

abbrev dirsiz : ℕ := 30

/-- `sizeof(struct dirent)` -/
abbrev direntSize : ℕ := 2 + dirsiz

structure Dirent where
  inum : BitVec 16
  name : Memory

def readDirent (bytes : List Byte) : Dirent where
  inum := bytes.getD 1 0 ++ bytes.getD 0 0
  name k := bytes.getD (k + 2) 0

def direntBytes (de : Dirent) : Memory :=
  cons (de.inum.extractLsb' 0 8) (cons (de.inum.extractLsb' 8 8) de.name)

def namecmp (s t : Memory) : ℤ := strncmp s t dirsiz

/-- The loops over the entries of a directory of `size` bytes. They panic with `text` or end at
an entry that meets `stop` or behind the last one. -/
def scan (sb : Superblock) (text : String) (stop : Dirent → Bool) (size : ℕ) (d : Disk)
    (dp : Inode) (off : ℕ) : Except Fault (Option Dirent × ℕ × Disk × Inode) :=
  if off < size then
    readi sb d dp (BitVec.ofNat 32 off) (BitVec.ofNat 32 direntSize) >>= fun r =>
      match r.1 with
      | none => .error (.panic text)
      | some bytes =>
        if bytes.length ≠ direntSize then .error (.panic text)
        else if stop (readDirent bytes) then .ok (some (readDirent bytes), off, r.2)
        else scan sb text stop size r.2.1 r.2.2 (off + direntSize)
  else .ok (none, off, d, dp)
  termination_by size - off
  decreasing_by
    change size - (off + 32) < size - off
    omega

/-- The inode number that is found, and the offset of its entry. -/
def dirlookup (sb : Superblock) (d : Disk) (dp : Inode) (name : Memory) :
    Except Fault (Option (Word × ℕ) × Disk × Inode) :=
  if dp.type ≠ tDir then .error (.panic "dirlookup not DIR")
  else
    scan sb "dirlookup read" (fun de => de.inum ≠ 0 ∧ namecmp name de.name = 0)
        dp.size.toNat d dp 0 >>= fun r =>
      .ok (r.1.map fun de => (de.inum.setWidth 32, r.2.1), r.2.2)

/-- `strncpy` writes all of `de.name`, whatever was in it. -/
def dirlink (sb : Superblock) (d : Disk) (dp : Inode) (name : Memory) (inum : Word) :
    Except Fault (ℤ × Disk × Inode) :=
  dirlookup sb d dp name >>= fun r =>
    if r.1.isSome then .ok (-1, r.2)
    else
      scan sb "dirlink read" (fun de => de.inum = 0) r.2.2.size.toNat r.2.1 r.2.2 0 >>= fun q =>
        let de : Dirent := ⟨inum.setWidth 16, strncpy (fun _ => 0) name dirsiz⟩
        writei sb q.2.2.1 q.2.2.2 (direntBytes de) (BitVec.ofNat 32 q.2.1)
            (BitVec.ofNat 32 direntSize) >>= fun w =>
          if w.1 ≠ (direntSize : ℕ) then .error (.panic "dirlink") else .ok (0, w.2)

/-- The part of `sys_unlink` that finds the entry and fills it with zeros. -/
def unlinkEntry (sb : Superblock) (d : Disk) (dp : Inode) (name : Memory) :
    Except Fault (ℤ × Disk × Inode) :=
  dirlookup sb d dp name >>= fun r =>
    match r.1 with
    | none => .ok (-1, r.2)
    | some (_, off) =>
      writei sb r.2.1 r.2.2 (fun _ => 0) (BitVec.ofNat 32 off) (BitVec.ofNat 32 direntSize) >>=
        fun w => if w.1 ≠ (direntSize : ℕ) then .error (.panic "unlink: writei") else .ok (0, w.2)

/-- The disk and the directory that is locked. -/
structure System where
  disk : Disk
  dp : Inode

inductive Event where
  | link (name : Memory) (inum : Word)
  | unlink (name : Memory)

def step (sb : Superblock) (s : System) : Event → Except Fault System
  | .link name inum => dirlink sb s.disk s.dp name inum >>= fun r => .ok ⟨r.2.1, r.2.2⟩
  | .unlink name => unlinkEntry sb s.disk s.dp name >>= fun r => .ok ⟨r.2.1, r.2.2⟩

/-- What a name is known by. -/
def key (name : Memory) : List Byte := cut name dirsiz

def update (m : List Byte → Option Word) : Event → List Byte → Option Word
  | .link name inum =>
    if m (key name) = none then Function.update m (key name) (some inum) else m
  | .unlink name => Function.update m (key name) none

/-- The inode numbers that are linked after the events. -/
def linked (es : List Event) : List Byte → Option Word := es.foldl update fun _ => none

/-- Inode numbers are from 1 to 65535. -/
def Event.Numbered : Event → Prop
  | .link _ inum => inum.toNat ≠ 0 ∧ inum.toNat < 65536
  | .unlink _ => True

/-- Entry `n` of a directory. -/
def entry (data : List Byte) (n : ℕ) : Dirent :=
  readDirent ((data.drop (direntSize * n)).take direntSize)

def slotOf (de : Dirent) : Option (List Byte × Word) :=
  if de.inum = 0 then none else some (key de.name, de.inum.setWidth 32)

/-- The live entries. -/
def slots (data : List Byte) (n : ℕ) : Option (List Byte × Word) := slotOf (entry data n)

section Entries

variable {data bytes : List Byte} {m n off : ℕ} {de : Dirent} {name : Memory} {inum : Word}

/-- What is written is read back. -/
theorem readDirent_direntBytes (de : Dirent) :
    (readDirent ((List.range direntSize).map (direntBytes de))).inum = de.inum ∧
      ∀ k < dirsiz, (readDirent ((List.range direntSize).map (direntBytes de))).name k =
        de.name k := by
  have hget : ∀ k < direntSize, ((List.range direntSize).map (direntBytes de)).getD k 0 =
      direntBytes de k := by
    intro k hk
    rw [List.getD_eq_getElem?_getD, List.getElem?_map, List.getElem?_range hk]
    rfl
  constructor
  · simp only [readDirent]
    rw [hget 1 (by decide), hget 0 (by decide)]
    simp only [direntBytes, cons]
    rw [BitVec.extractLsb'_append_extractLsb'_eq_extractLsb' (by rfl)]
    simp
  · intro k hk
    simp only [readDirent]
    rw [hget (k + 2) (by change k + 2 < 32; change k < 30 at hk; omega)]
    rfl

theorem cut_congr {p q : Memory} {n : ℕ} (h : ∀ k < n, p k = q k) : cut p n = cut q n := by
  induction n generalizing p q with
  | zero => rfl
  | succ n ih =>
    have htail : cut (tail p) n = cut (tail q) n :=
      ih fun k hk => h (k + 1) (Nat.add_lt_add_right hk 1)
    rw [cut, cut, h 0 (Nat.succ_pos n), htail]

theorem slotOf_direntBytes (de : Dirent) :
    slotOf (readDirent ((List.range direntSize).map (direntBytes de))) = slotOf de := by
  obtain ⟨hinum, hname⟩ := readDirent_direntBytes de
  rw [slotOf, slotOf, hinum, key, key, cut_congr hname]

theorem getElem?_splice (hoff : off ≤ data.length) (p : ℕ) :
    (splice data off bytes)[p]? =
      if off ≤ p ∧ p < off + bytes.length then bytes[p - off]? else data[p]? := by
  have hlen : (data.take off).length = off := by rw [List.length_take, min_eq_left hoff]
  rw [splice]
  by_cases hlow : p < off
  · rw [if_neg (by omega), List.append_assoc, List.getElem?_append_left (by omega),
      List.getElem?_take, if_pos hlow]
  · rw [List.append_assoc, List.getElem?_append_right (by omega), hlen]
    by_cases hin : p < off + bytes.length
    · rw [if_pos ⟨by omega, hin⟩, List.getElem?_append_left (by omega)]
    · rw [if_neg (by omega), List.getElem?_append_right (by omega), List.getElem?_drop]
      congr 1
      omega

/-- Writing an entry changes no other. -/
theorem slots_splice (hn : direntSize * n ≤ data.length) (hlen : bytes.length = direntSize) :
    slots (splice data (direntSize * n) bytes) =
      Function.update (slots data) n (slotOf (readDirent bytes)) := by
  have hsize : direntSize = 32 := rfl
  have hbytes : ∀ m k : ℕ,
      (((splice data (direntSize * n) bytes).drop (direntSize * m)).take direntSize)[k]? =
        if m = n then bytes[k]? else ((data.drop (direntSize * m)).take direntSize)[k]? := by
    intro m k
    rw [List.getElem?_take, List.getElem?_take, List.getElem?_drop, List.getElem?_drop,
      getElem?_splice hn, hlen]
    by_cases hk : k < direntSize
    · rw [if_pos hk, if_pos hk]
      by_cases hm : m = n
      · subst hm
        rw [if_pos rfl, if_pos (by omega), Nat.add_sub_cancel_left]
      · have hout : ¬(direntSize * n ≤ direntSize * m + k ∧
            direntSize * m + k < direntSize * n + direntSize) := by
          rw [hsize] at hk ⊢
          omega
        rw [if_neg hm, if_neg hout]
    · rw [if_neg hk, if_neg hk]
      by_cases hm : m = n
      · rw [if_pos hm, List.getElem?_eq_none (by omega)]
      · rw [if_neg hm]
  funext m
  by_cases hm : m = n
  · subst hm
    rw [Function.update_self, slots, entry]
    congr 2
    apply List.ext_getElem?
    intro k
    rw [hbytes, if_pos rfl]
  · rw [Function.update_of_ne hm, slots, slots, entry, entry]
    congr 2
    apply List.ext_getElem?
    intro k
    rw [hbytes, if_neg hm]

/-- There is nothing behind the last entry. -/
theorem slots_beyond (hn : data.length ≤ direntSize * n) : slots data n = none := by
  have hnil : (data.drop (direntSize * n)).take direntSize = [] := by
    rw [List.drop_eq_nil_of_le hn, List.take_nil]
  rw [slots, entry, hnil]
  exact if_pos rfl

theorem slotOf_eq_none : slotOf de = none ↔ de.inum = 0 := by
  unfold slotOf
  split
  · next h => exact ⟨fun _ => h, fun _ => rfl⟩
  · next h =>
    constructor
    · intro h'
      cases h'
    · exact fun h' => absurd h' h

/-- The test of `dirlookup`. -/
theorem matches_iff (name : Memory) (de : Dirent) :
    (decide (de.inum ≠ 0 ∧ namecmp name de.name = 0)) = true ↔
      slotOf de = some (key name, de.inum.setWidth 32) := by
  rw [decide_eq_true_eq, namecmp, strncmp_eq_zero, slotOf]
  by_cases hzero : de.inum = 0
  · rw [if_pos hzero]
    constructor
    · exact fun h => absurd hzero h.1
    · intro h
      cases h
  · rw [if_neg hzero]
    constructor
    · rintro ⟨-, h⟩
      rw [key, key, h]
    · intro h
      exact ⟨hzero, (Prod.mk.inj (Option.some.inj h)).1.symm⟩

end Entries

section Scans

variable {sb : Layout} {d : Disk} {dp : Inode} {text : String} {stop : Dirent → Bool}
  {size off : ℕ}

/-- Reading an entry of a directory without holes. -/
theorem readi_entry {data : List Byte} (hsize : size = data.length) (hlt : size < 4294967296)
    (haligned : direntSize ∣ size) (hread : ∀ off n, readi sb.toSuperblock d dp off n =
      .ok (readRange data off n, d, dp)) {n : ℕ} (hn : direntSize * n < size) :
    ∃ bytes, readi sb.toSuperblock d dp (BitVec.ofNat 32 (direntSize * n))
        (BitVec.ofNat 32 direntSize) = .ok (some bytes, d, dp) ∧ bytes.length = direntSize ∧
      readDirent bytes = entry data n := by
  have h32 : direntSize = 32 := rfl
  obtain ⟨k, hk⟩ := haligned
  rw [h32] at hk hn ⊢
  have hoff : (BitVec.ofNat 32 (32 * n)).toNat = 32 * n := by
    rw [BitVec.toNat_ofNat]
    exact Nat.mod_eq_of_lt (by omega)
  have hlen : (BitVec.ofNat 32 32).toNat = 32 := rfl
  refine ⟨(data.drop (32 * n)).take 32, ?_, ?_, rfl⟩
  · rw [hread, readRange, hoff, hlen, if_neg (by omega)]
  · rw [List.length_take, List.length_drop]
    omega

/-- The loop ends at the first entry that meets the test, or behind the last entry. -/
theorem scan_eq {data : List Byte} (hsize : size = data.length) (hlt : size < 4294967296)
    (haligned : direntSize ∣ size) (hread : ∀ off n, readi sb.toSuperblock d dp off n =
      .ok (readRange data off n, d, dp)) {k : ℕ} (hk : direntSize * k ≤ size) :
    ∃ n, k ≤ n ∧ (∀ j, k ≤ j → j < n → stop (entry data j) = false) ∧
      (direntSize * n < size ∧ stop (entry data n) = true ∧
          scan sb.toSuperblock text stop size d dp (direntSize * k) =
            .ok (some (entry data n), direntSize * n, d, dp) ∨
        direntSize * n = size ∧ scan sb.toSuperblock text stop size d dp (direntSize * k) =
          .ok (none, direntSize * n, d, dp)) := by
  have h32 : direntSize = 32 := rfl
  obtain ⟨last, hlast⟩ := id haligned
  obtain ⟨r, hr⟩ := Nat.exists_eq_add_of_le (show k ≤ last by rw [h32] at hk hlast; omega)
  induction r generalizing k with
  | zero =>
    have hend : direntSize * k = size := by rw [hlast, hr, Nat.add_zero]
    refine ⟨k, le_refl k, fun j hj hj' => absurd hj' (not_lt.mpr hj), .inr ⟨hend, ?_⟩⟩
    rw [scan, if_neg (by omega)]
  | succ r ih =>
    have hmore : direntSize * k < size := by rw [h32] at hlast ⊢; omega
    obtain ⟨bytes, hbytes, hlen, hentry⟩ := readi_entry hsize hlt haligned hread hmore
    have hround : scan sb.toSuperblock text stop size d dp (direntSize * k) =
        if stop (entry data k) then .ok (some (entry data k), direntSize * k, d, dp)
        else scan sb.toSuperblock text stop size d dp (direntSize * (k + 1)) := by
      rw [scan, if_pos hmore, hbytes, ok_bind]
      simp only [hlen, ne_eq, not_true_eq_false, if_false, hentry]
      rfl
    rw [hround]
    by_cases hstop : stop (entry data k) = true
    · refine ⟨k, le_refl k, fun j hj hj' => absurd hj' (not_lt.mpr hj), .inl ⟨hmore, hstop, ?_⟩⟩
      rw [if_pos hstop]
    · rw [if_neg hstop]
      have hnext : direntSize * (k + 1) ≤ size := by rw [h32] at hlast ⊢; omega
      obtain ⟨n, hkn, hnone, hcases⟩ := ih hnext (by omega)
      refine ⟨n, by omega, ?_, hcases⟩
      intro j hj hj'
      by_cases hjk : j = k
      · rw [hjk]
        exact Bool.eq_false_of_not_eq_true hstop
      · exact hnone j (by omega) hj'

end Scans

/-- The directory on the disk, free of holes, and the map that its live entries represent. -/
structure Inv (sb : Layout) (i : ℕ) (s : System) (m : List Byte → Option Word) : Prop where
  wellMapped : WellMapped sb s.disk
  inum_lt : i < sb.ninodes
  type : (dinode sb.toSuperblock s.disk i).type = tDir
  loaded : s.dp = load sb.toSuperblock s.disk i
  aligned : direntSize ∣ (dinode sb.toSuperblock s.disk i).size.toNat
  represents : Represents (slots (contents s.disk (dinode sb.toSuperblock s.disk i))) m

section Steps

variable {sb : Layout} {i : ℕ} {s t : System} {m : List Byte → Option Word} {name : Memory}
  {inum : Word}

theorem Inv.scan (h : Inv sb i s m) (text : String) (stop : Dirent → Bool) :
    ∃ n, (∀ j < n, stop (entry (contents s.disk (dinode sb.toSuperblock s.disk i)) j) = false) ∧
      (direntSize * n < (dinode sb.toSuperblock s.disk i).size.toNat ∧
          stop (entry (contents s.disk (dinode sb.toSuperblock s.disk i)) n) = true ∧
          DirectoryFiles.scan sb.toSuperblock text stop s.dp.size.toNat s.disk s.dp 0 =
            .ok (some (entry (contents s.disk (dinode sb.toSuperblock s.disk i)) n),
              direntSize * n, s.disk, s.dp) ∨
        direntSize * n = (dinode sb.toSuperblock s.disk i).size.toNat ∧
          DirectoryFiles.scan sb.toSuperblock text stop s.dp.size.toNat s.disk s.dp 0 =
            .ok (none, direntSize * n, s.disk, s.dp)) := by
  have htype : (dinode sb.toSuperblock s.disk i).type ≠ 0 := by
    rw [h.type]
    decide
  have hread : ∀ off n, readi sb.toSuperblock s.disk s.dp off n = .ok (readRange
      (contents s.disk (dinode sb.toSuperblock s.disk i)) off n, s.disk, s.dp) := by
    intro off n
    rw [h.loaded]
    exact readi_eq (h.wellMapped.mapped i h.inum_lt htype) off n
  have hsize : s.dp.size.toNat =
      (contents s.disk (dinode sb.toSuperblock s.disk i)).length := by
    rw [length_contents, h.loaded]
    rfl
  have haligned := h.aligned
  rw [← length_contents s.disk, ← hsize] at haligned
  obtain ⟨n, -, hnone, hcases⟩ := scan_eq hsize s.dp.size.isLt haligned hread (k := 0)
    (Nat.zero_le _)
  rw [hsize, length_contents] at hcases
  rw [hsize, length_contents]
  exact ⟨n, fun j hj => hnone j (Nat.zero_le j) hj, hcases⟩

theorem Inv.dirlookup (h : Inv sb i s m) (name : Memory) :
    (dirlookup sb.toSuperblock s.disk s.dp name = .ok (none, s.disk, s.dp) ∧
        m (key name) = none) ∨
      ∃ n inum, direntSize * n < (dinode sb.toSuperblock s.disk i).size.toNat ∧
        slots (contents s.disk (dinode sb.toSuperblock s.disk i)) n = some (key name, inum) ∧
        DirectoryFiles.dirlookup sb.toSuperblock s.disk s.dp name =
          .ok (some (inum, direntSize * n), s.disk, s.dp) := by
  have hdir : ¬s.dp.type ≠ tDir := by
    rw [not_not, h.loaded]
    exact h.type
  obtain ⟨n, hnone, ⟨hn, hstop, hscan⟩ | ⟨hn, hscan⟩⟩ := h.scan "dirlookup read"
    fun de => de.inum ≠ 0 ∧ namecmp name de.name = 0
  · refine .inr ⟨n, _, hn, (matches_iff name _).mp hstop, ?_⟩
    unfold DirectoryFiles.dirlookup
    rw [if_neg hdir, hscan]
    rfl
  · refine .inl ⟨?_, h.represents.absent ?_⟩
    · unfold DirectoryFiles.dirlookup
      rw [if_neg hdir, hscan]
      rfl
    · intro k inum hslot
      by_cases hk : k < n
      · have hmatch := hnone k hk
        have hinum : slotOf (entry (contents s.disk (dinode sb.toSuperblock s.disk i)) k) =
          some (key name, _) := hslot
        have hsame : slotOf (entry (contents s.disk (dinode sb.toSuperblock s.disk i)) k) =
            some (key name, (entry (contents s.disk (dinode sb.toSuperblock s.disk i))
              k).inum.setWidth 32) := by
          unfold slotOf at hinum ⊢
          split at hinum
          · cases hinum
          · next hzero =>
            rw [if_neg hzero, (Prod.mk.inj (Option.some.inj hinum)).1]
        rw [(matches_iff name _).mpr hsame] at hmatch
        cases hmatch
      · have hbeyond : slots (contents s.disk (dinode sb.toSuperblock s.disk i)) k = none := by
          apply slots_beyond
          rw [length_contents, ← hn]
          exact Nat.mul_le_mul_left _ (not_lt.mp hk)
        rw [hbeyond] at hslot
        cases hslot

/-- An entry that is written is the only one that changes. -/
theorem Inv.write (h : Inv sb i s m) {m' : List Byte → Option Word} {de : Dirent} {n : ℕ}
    {d' : Disk} {dp' : Inode}
    (hn : direntSize * n ≤ (dinode sb.toSuperblock s.disk i).size.toNat)
    (hw : writei sb.toSuperblock s.disk s.dp (direntBytes de) (BitVec.ofNat 32 (direntSize * n))
      (BitVec.ofNat 32 direntSize) = .ok ((direntSize : ℕ), d', dp'))
    (hrep : Represents (Function.update
      (slots (contents s.disk (dinode sb.toSuperblock s.disk i))) n (slotOf de)) m') :
    Inv sb i ⟨d', dp'⟩ m' := by
  have h32 : direntSize = 32 := rfl
  have htype : (dinode sb.toSuperblock s.disk i).type ≠ 0 := by
    rw [h.type]
    decide
  have hoff : (BitVec.ofNat 32 (direntSize * n)).toNat = direntSize * n := by
    rw [BitVec.toNat_ofNat]
    exact Nat.mod_eq_of_lt (hn.trans_lt (BitVec.isLt _))
  have hlen : (BitVec.ofNat 32 direntSize).toNat = direntSize := rfl
  rw [h.loaded] at hw
  rcases writei_spec h.wellMapped h.inum_lt htype hw with ⟨-, hr, -⟩ | ⟨-, -, hwritten⟩
  · rw [h32] at hr
    cases hr
  rw [hoff, hlen] at hwritten
  obtain rfl := hwritten.loaded
  have hbytes : ((List.range direntSize).map (direntBytes de)).length = direntSize := by
    rw [List.length_map, List.length_range]
  constructor
  case wellMapped => exact hwritten.wellMapped
  case inum_lt => exact h.inum_lt
  case type => exact hwritten.type.trans h.type
  case loaded => rfl
  case aligned =>
    have hsize := hwritten.size
    change (dinode sb.toSuperblock d' i).size.toNat = _ at hsize
    change direntSize ∣ (dinode sb.toSuperblock d' i).size.toNat
    rw [hsize]
    rcases max_choice (dinode sb.toSuperblock s.disk i).size.toNat
      (direntSize * n + direntSize) with hmax | hmax
    · rw [hmax]
      exact h.aligned
    · rw [hmax]
      exact ⟨n + 1, (Nat.mul_succ _ _).symm⟩
  case represents =>
    have hcontents := hwritten.contents
    change contents d' (dinode sb.toSuperblock d' i) = _ at hcontents
    change Represents (slots (contents d' (dinode sb.toSuperblock d' i))) m'
    rw [hcontents, slots_splice (by rw [length_contents]; exact hn) hbytes, slotOf_direntBytes]
    exact hrep

theorem present (h : Inv sb i s m) (hm : m (key name) ≠ none) (inum : Word) :
    dirlink sb.toSuperblock s.disk s.dp name inum = .ok (-1, s.disk, s.dp) := by
  rcases h.dirlookup name with ⟨-, hnone⟩ | ⟨n, inum', -, -, hlookup⟩
  · exact absurd hnone hm
  · unfold dirlink
    rw [hlookup]
    rfl

/-- A name that is not there goes to the first free entry or behind the last one. -/
theorem dirlink_spec (h : Inv sb i s m) (hinum : inum.toNat ≠ 0) (hshort : inum.toNat < 65536)
    {r : ℤ} {d' : Disk} {dp' : Inode}
    (hlink : dirlink sb.toSuperblock s.disk s.dp name inum = .ok (r, d', dp')) :
    m (key name) ≠ none ∧ r = -1 ∧ d' = s.disk ∧ dp' = s.dp ∨
      m (key name) = none ∧ r = 0 ∧
        Inv sb i ⟨d', dp'⟩ (Function.update m (key name) (some inum)) := by
  by_cases hm : m (key name) ≠ none
  · rw [present h hm] at hlink
    cases hlink
    exact .inl ⟨hm, rfl, rfl, rfl⟩
  rw [not_not] at hm
  refine .inr ⟨hm, ?_⟩
  rcases h.dirlookup name with ⟨hlookup, -⟩ | ⟨n, inum', -, hslot, -⟩
  swap
  · rw [h.represents.lookup hslot] at hm
    cases hm
  have hslotOf : slotOf ⟨inum.setWidth 16, strncpy (fun _ => 0) name dirsiz⟩ =
      some (key name, inum) := by
    have hnarrow : (inum.setWidth 16).toNat = inum.toNat := by
      rw [BitVec.toNat_setWidth]
      exact Nat.mod_eq_of_lt hshort
    have hne : inum.setWidth 16 ≠ 0 := by
      intro hzero
      rw [hzero] at hnarrow
      exact hinum hnarrow.symm
    have hback : (inum.setWidth 16).setWidth 32 = inum := by
      apply BitVec.eq_of_toNat_eq
      rw [BitVec.toNat_setWidth, hnarrow]
      exact Nat.mod_eq_of_lt inum.isLt
    rw [slotOf, if_neg hne, key, cut_strncpy, hback]
    rfl
  have hfree : ∃ n, direntSize * n ≤ (dinode sb.toSuperblock s.disk i).size.toNat ∧
      slots (contents s.disk (dinode sb.toSuperblock s.disk i)) n = none ∧
      ∃ q, scan sb.toSuperblock "dirlink read" (fun de => de.inum = 0) s.dp.size.toNat s.disk
        s.dp 0 = .ok (q, direntSize * n, s.disk, s.dp) := by
    obtain ⟨n, -, ⟨hn, hstop, hscan⟩ | ⟨hn, hscan⟩⟩ := h.scan "dirlink read"
      fun de => de.inum = 0
    · exact ⟨n, hn.le, slotOf_eq_none.mpr (of_decide_eq_true hstop), _, hscan⟩
    · refine ⟨n, hn.le, slots_beyond ?_, _, hscan⟩
      rw [length_contents, hn]
  obtain ⟨n, hn, hnone, q, hscan⟩ := hfree
  unfold dirlink at hlink
  rw [hlookup, ok_bind] at hlink
  simp only [Option.isSome_none, Bool.false_eq_true, if_false, hscan, ok_bind] at hlink
  obtain ⟨⟨w, e, ep⟩, hw, hlink⟩ := bind_eq_ok.mp hlink
  simp only at hlink
  split at hlink
  · cases hlink
  · next hlen =>
    rw [not_not] at hlen
    subst hlen
    cases hlink
    refine ⟨rfl, h.write hn hw ?_⟩
    rw [hslotOf]
    exact h.represents.put hm hnone inum

theorem unlinkEntry_spec (h : Inv sb i s m) {r : ℤ} {d' : Disk} {dp' : Inode}
    (hunlink : unlinkEntry sb.toSuperblock s.disk s.dp name = .ok (r, d', dp')) :
    Inv sb i ⟨d', dp'⟩ (Function.update m (key name) none) := by
  unfold unlinkEntry at hunlink
  rcases h.dirlookup name with ⟨hlookup, hnone⟩ | ⟨n, inum, hn, hslot, hlookup⟩
  · rw [hlookup] at hunlink
    cases hunlink
    rw [← hnone, Function.update_eq_self]
    exact h
  · have hzeros : (fun _ => 0) = direntBytes ⟨0, fun _ => 0⟩ := by
      funext k
      match k with
      | 0 => rfl
      | 1 => rfl
      | k + 2 => rfl
    rw [hlookup, ok_bind] at hunlink
    simp only at hunlink
    obtain ⟨⟨w, e, ep⟩, hw, hunlink⟩ := bind_eq_ok.mp hunlink
    simp only at hunlink
    split at hunlink
    · cases hunlink
    · next hlen =>
      rw [not_not] at hlen
      subst hlen
      cases hunlink
      rw [hzeros] at hw
      exact h.write hn.le hw (h.represents.clear hslot)

theorem step_inv (h : Inv sb i s m) {e : Event} (he : e.Numbered)
    (ht : step sb.toSuperblock s e = .ok t) : Inv sb i t (update m e) := by
  cases e with
  | link name inum =>
    obtain ⟨⟨r, d', dp'⟩, hlink, ht⟩ := bind_eq_ok.mp ht
    cases ht
    rcases dirlink_spec h he.1 he.2 hlink with ⟨hm, -, rfl, rfl⟩ | ⟨hm, -, hinv⟩
    · rw [update, if_neg hm]
      exact h
    · rw [update, if_pos hm]
      exact hinv
  | unlink name =>
    obtain ⟨⟨r, d', dp'⟩, hunlink, ht⟩ := bind_eq_ok.mp ht
    cases ht
    exact unlinkEntry_spec h hunlink

theorem run_inv {es : List Event} (hrun : Execution (step sb.toSuperblock) s es t)
    (h : Inv sb i s m) (hes : ∀ e ∈ es, e.Numbered) : Inv sb i t (es.foldl update m) := by
  induction hrun generalizing m with
  | nil => exact h
  | cons ht _ ih =>
    obtain ⟨he, hes⟩ := List.forall_mem_cons.mp hes
    exact ih (step_inv h he ht) hes

/-- An empty directory represents the empty map. -/
theorem inv_empty (hd : WellMapped sb s.disk) (hi : i < sb.ninodes)
    (htype : (dinode sb.toSuperblock s.disk i).type = tDir)
    (hsize : (dinode sb.toSuperblock s.disk i).size = 0)
    (hload : s.dp = load sb.toSuperblock s.disk i) : Inv sb i s fun _ => none := by
  have hzero : (dinode sb.toSuperblock s.disk i).size.toNat = 0 := by
    rw [hsize]
    rfl
  have hslots : slots (contents s.disk (dinode sb.toSuperblock s.disk i)) = fun _ => none := by
    funext n
    apply slots_beyond
    rw [length_contents, hzero]
    exact Nat.zero_le _
  refine ⟨hd, hi, htype, hload, ?_, ?_⟩
  · rw [hzero]
    exact ⟨0, rfl⟩
  · rw [hslots]
    exact .empty

/-- dirlink panics for want of room only. -/
theorem dirlink_returns (h : Inv sb i s m)
    (hfits : (dinode sb.toSuperblock s.disk i).size.toNat + direntSize ≤ maxfile * bsize)
    (hfree : ∀ n, direntSize * n ≤ (dinode sb.toSuperblock s.disk i).size.toNat →
      (BlockMapping.missing s.disk (dinode sb.toSuperblock s.disk i)
        (span (direntSize * n) direntSize)).card ≤
          (BlockMapping.freeBlocks sb.toSuperblock s.disk).card) (name : Memory) (inum : Word) :
    ∃ t, step sb.toSuperblock s (.link name inum) = .ok t := by
  rcases h.dirlookup name with ⟨hlookup, -⟩ | ⟨n, inum', hn, hslot, -⟩
  swap
  · have hm : m (key name) ≠ none := by
      rw [h.represents.lookup hslot]
      exact Option.some_ne_none _
    simp only [step, present h hm, ok_bind]
    exact ⟨_, rfl⟩
  have htype : (dinode sb.toSuperblock s.disk i).type ≠ 0 := by
    rw [h.type]
    decide
  have hwrite : ∀ src n, direntSize * n ≤ (dinode sb.toSuperblock s.disk i).size.toNat →
      ∃ d' dp', writei sb.toSuperblock s.disk s.dp src (BitVec.ofNat 32 (direntSize * n))
        (BitVec.ofNat 32 direntSize) = .ok ((direntSize : ℕ), d', dp') := by
    intro src n hn
    have hoff : (BitVec.ofNat 32 (direntSize * n)).toNat = direntSize * n := by
      rw [BitVec.toNat_ofNat]
      exact Nat.mod_eq_of_lt (hn.trans_lt (BitVec.isLt _))
    have hlen : (BitVec.ofNat 32 direntSize).toNat = direntSize := rfl
    have hlimit : maxfile * bsize = 1073152 := rfl
    have h32 : direntSize = 32 := rfl
    have hcan : ¬Refused (dinode sb.toSuperblock s.disk i).size
        (BitVec.ofNat 32 (direntSize * n)) (BitVec.ofNat 32 direntSize) := by
      rw [Refused, hoff, hlen]
      rw [hlimit] at hfits ⊢
      rw [h32] at hfits hn ⊢
      omega
    obtain ⟨r, d', dp', hw⟩ : ∃ r d' dp', writei sb.toSuperblock s.disk
        (load sb.toSuperblock s.disk i) src (BitVec.ofNat 32 (direntSize * n))
          (BitVec.ofNat 32 direntSize) = .ok (r, d', dp') := by
      apply writei_returns h.wellMapped h.inum_lt htype
      intro _
      rw [hoff, hlen]
      exact hfree n hn
    rcases writei_spec h.wellMapped h.inum_lt htype hw with ⟨hrefused, -⟩ | ⟨-, hr, -⟩
    · exact absurd hrefused hcan
    · rw [← h.loaded, hr, hlen] at hw
      exact ⟨d', dp', hw⟩
  have hplace : ∃ n q, direntSize * n ≤ (dinode sb.toSuperblock s.disk i).size.toNat ∧
      scan sb.toSuperblock "dirlink read" (fun de => de.inum = 0) s.dp.size.toNat s.disk
        s.dp 0 = .ok (q, direntSize * n, s.disk, s.dp) := by
    obtain ⟨n, -, ⟨hn, -, hscan⟩ | ⟨hn, hscan⟩⟩ := h.scan "dirlink read" fun de => de.inum = 0
    · exact ⟨n, _, hn.le, hscan⟩
    · exact ⟨n, _, hn.le, hscan⟩
  obtain ⟨n, q, hn, hscan⟩ := hplace
  obtain ⟨d', dp', hw⟩ := hwrite
    (direntBytes ⟨inum.setWidth 16, strncpy (fun _ => 0) name dirsiz⟩) n hn
  simp only [step, dirlink, hlookup, ok_bind, Option.isSome_none, Bool.false_eq_true, if_false,
    hscan, hw, ne_eq, not_true_eq_false]
  exact ⟨_, rfl⟩

end Steps

/-- However names are linked and unlinked in a directory that was empty, dirlookup finds the
inode number that was last linked under a name, dirlink refuses just the names that are there,
and no two live entries have the same name. -/
theorem directory_is_map (sb : Layout) (i : ℕ) (s t : System) (es : List Event)
    (hd : WellMapped sb s.disk) (hi : i < sb.ninodes)
    (htype : (dinode sb.toSuperblock s.disk i).type = tDir)
    (hsize : (dinode sb.toSuperblock s.disk i).size = 0)
    (hload : s.dp = load sb.toSuperblock s.disk i) (hes : ∀ e ∈ es, e.Numbered)
    (hrun : Execution (step sb.toSuperblock) s es t) :
    (∀ name, ∃ r, dirlookup sb.toSuperblock t.disk t.dp name = .ok (r, t.disk, t.dp) ∧
      r.map Prod.fst = linked es (key name)) ∧
    (∀ name inum, linked es (key name) ≠ none →
      dirlink sb.toSuperblock t.disk t.dp name inum = .ok (-1, t.disk, t.dp)) ∧
    (∀ name inum r d' dp', (Event.link name inum).Numbered →
      dirlink sb.toSuperblock t.disk t.dp name inum = .ok (r, d', dp') →
        (r = -1 ↔ linked es (key name) ≠ none)) ∧
    ∀ a b k x y, slots (contents t.disk t.dp.toDinode) a = some (k, x) →
      slots (contents t.disk t.dp.toDinode) b = some (k, y) → a = b := by
  have hinv := run_inv hrun (inv_empty hd hi htype hsize hload) hes
  refine ⟨?_, ?_, ?_, ?_⟩
  · intro name
    rcases hinv.dirlookup name with ⟨hlookup, hnone⟩ | ⟨n, inum, -, hslot, hlookup⟩
    · exact ⟨_, hlookup, hnone.symm⟩
    · exact ⟨_, hlookup, (hinv.represents.lookup hslot).symm⟩
  · exact fun name inum hm => present hinv hm inum
  · intro name inum r d' dp' hnum hlink
    rcases dirlink_spec hinv hnum.1 hnum.2 hlink with ⟨hm, hr, -⟩ | ⟨hm, hr, -⟩
    · exact ⟨fun _ => hm, fun _ => hr⟩
    · constructor
      · intro hr'
        rw [hr] at hr'
        cases hr'
      · exact fun hm' => absurd hm hm'
  · intro a b k x y ha hb
    rw [hinv.loaded] at ha hb
    exact hinv.represents.once a b k x y ha hb

/-- Inode 1 of the small disk is an empty directory. -/
def blankDir : System where
  disk := fun x b => if x = 2 ∧ b = 64 then 1 else blank x b
  dp := load tiny.toSuperblock (fun x b => if x = 2 ∧ b = 64 then 1 else blank x b) 1

/-- Thirty bytes and no zero byte among them. -/
def fullName : Memory := fun k => if k < 30 then 65 else 0

def longName : Memory := fun _ => 65

/-- A name of 30 bytes and a longer one are the same. -/
theorem directory_is_map_blank : ∃ t,
    Execution (step tiny.toSuperblock) blankDir [.link fullName 5, .link longName 9] t ∧
    ∃ r, dirlookup tiny.toSuperblock t.disk t.dp longName = .ok (r, t.disk, t.dp) ∧
      r.map Prod.fst = some 5 := by
  have hd : WellMapped tiny blankDir.disk := by
    have hsize : ∀ i < tiny.ninodes, (dinode tiny.toSuperblock blankDir.disk i).size = 0 := by
      decide
    refine ⟨(exact_of_no_blocks (by decide) (by decide)).toSound, ?_⟩
    intro i hi _ pos hpos
    rw [hsize i hi] at hpos
    exact absurd hpos (Nat.not_lt_zero pos)
  have hempty := inv_empty (i := 1) hd (by decide) (by decide) (by decide) rfl
  obtain ⟨t, ht⟩ := dirlink_returns hempty (by decide) (by
    intro n hn
    have hn : n = 0 := by
      have hsize : (dinode tiny.toSuperblock blankDir.disk 1).size.toNat = 0 := by decide
      rw [hsize] at hn
      exact (Nat.mul_eq_zero.mp (Nat.le_zero.mp hn)).resolve_left (by decide)
    subst hn
    decide) fullName 5
  have hfive : (Event.link fullName 5).Numbered :=
    ⟨by decide, by decide⟩
  have hnine : (Event.link longName 9).Numbered := ⟨by decide, by decide⟩
  have hinv := step_inv hempty hfive ht
  have hkey : key longName = key fullName := by decide
  have hpresent : dirlink tiny.toSuperblock t.disk t.dp longName 9 =
      .ok (-1, t.disk, t.dp) := by
    apply present hinv
    rw [update, if_pos rfl, hkey, Function.update_self]
    exact Option.some_ne_none _
  have hrun : Execution (step tiny.toSuperblock) blankDir
      [.link fullName 5, .link longName 9] t :=
    .cons ht (.cons (by simp only [step, hpresent, ok_bind]) (.nil t))
  obtain ⟨hlookup, -⟩ := directory_is_map tiny 1 blankDir t _ hd (by decide) (by decide)
    (by decide) rfl (by
      intro e he
      rcases List.mem_cons.mp he with rfl | he
      · exact hfive
      · rw [List.mem_singleton.mp he]
        exact hnine) hrun
  obtain ⟨r, hr, hsame⟩ := hlookup longName
  have hlinked : ∀ a b : Memory, key b = key a →
      linked [.link a 5, .link b 9] (key b) = some 5 := by
    intro a b hab
    simp only [linked, List.foldl_cons, List.foldl_nil, update, hab, if_true,
      Function.update_self, reduceCtorEq, if_false]
  exact ⟨t, hrun, r, hr, hsame.trans (hlinked _ _ hkey)⟩

end DirectoryFiles
