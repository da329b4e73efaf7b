import Xv6Gui.CopyOut
import Xv6Gui.FileWrites

/-!
# Executable images

exec of exec.c and loaduvm of vm.c. The header fields are whatever the file holds. The new image
is built on free pages, so each of the exits to `bad` gives back what has been taken, and all
pages below the size are present whenever a segment is loaded.
-/
namespace ExecImages

open WordMemory PageEntries PageTables PageViews PageOwnership UserMemory AddressSpaces
open PageMappings CopyOut Ledgers GuardedRuns FileWrites

abbrev maxarg : ℕ := 32
abbrev elfMagic : Word := 0x464C457F
abbrev elfProgLoad : Word := 1

/-- The word at an offset of a buffer. -/
def field (buf : List Byte) (off : ℕ) : Word := word (fun i => buf.getD i 0) off

structure ElfHdr where
  magic : Word
  entry : Word
  phoff : Word
  phnum : ℕ

structure ProgHdr where
  type : Word
  off : Word
  vaddr : Word
  filesz : Word
  memsz : Word

def elfhdr (buf : List Byte) : ElfHdr :=
  ⟨field buf 0, field buf 24, field buf 28, (field buf 44).toNat % 65536⟩

def proghdr (buf : List Byte) : ProgHdr :=
  ⟨field buf 0, field buf 4, field buf 8, field buf 16, field buf 20⟩

/-- The file has all `n` bytes. -/
def readFull (file : List Byte) (off : Word) (n : ℕ) : Option (List Byte) :=
  (readRange file off (BitVec.ofNat 32 n)).filter (·.length = n)

/-- The loop of `loaduvm`. A short read has written what there was. -/
def loaduvmLoop (pgdir va : ℕ) (file : List Byte) (offset : Word) (sz : ℕ) :
    ℕ → ℕ → Kernel → Except Fault (ℤ × Kernel)
  | 0, _, _ => .error .diverges
  | n + 1, i, s =>
    if i < sz then
      match walkpgdir pgdir ((va + i) % 4294967296) false s with
      | (none, _) => .error (.panic "loaduvm: address should exist")
      | (some pte, s) =>
        let pa := pteAddr (entry s.mem pte.page pte.index)
        let n₁ := if sz - i < pgsize then sz - i else pgsize
        match readRange file (offset + BitVec.ofNat 32 i) (BitVec.ofNat 32 n₁) with
        | none => .ok (-1, s)
        | some bytes =>
          let s := { s with
            mem := Function.update s.mem (p2v pa) (writeBytes (s.mem (p2v pa)) 0 bytes) }
          if bytes.length ≠ n₁ then .ok (-1, s)
          else loaduvmLoop pgdir va file offset sz n ((i + pgsize) % 4294967296) s
    else .ok (0, s)

def loaduvm (pgdir va : ℕ) (file : List Byte) (offset : Word) (sz : ℕ) (s : Kernel) :
    Except Fault (ℤ × Kernel) :=
  if va % pgsize ≠ 0 then .error (.panic "loaduvm: addr must be page aligned")
  else loaduvmLoop pgdir va file offset sz (allPages + 1) 0 s

/-- A step of `exec` that may go to `bad`, and what follows it. -/
def orBad {α β : Type} (x : Except Fault (Option α × Kernel))
    (f : α → Kernel → Except Fault (Option β × Kernel)) : Except Fault (Option β × Kernel) :=
  x >>= fun r =>
    match r.1 with
    | none => .ok (none, r.2)
    | some a => f a r.2

variable (L : Layout)

/-- A loadable segment. -/
def loadSegment (pgdir : ℕ) (file : List Byte) (ph : ProgHdr) (sz : ℕ) (s : Kernel) :
    Except Fault (Option ℕ × Kernel) :=
  if ph.memsz < ph.filesz then .ok (none, s)
  else if ph.vaddr + ph.memsz < ph.vaddr then .ok (none, s)
  else
    allocuvm L pgdir sz (ph.vaddr + ph.memsz).toNat s >>= fun r =>
      if r.1 = 0 then .ok (none, r.2)
      else if ph.vaddr.toNat % pgsize ≠ 0 then .ok (none, r.2)
      else
        loaduvm pgdir ph.vaddr.toNat file ph.off ph.filesz.toNat r.2 >>= fun q =>
          if q.1 < 0 then .ok (none, q.2) else .ok (some r.1, q.2)

/-- The loop over the program headers, with the number of those that are left. -/
def loadSegments (pgdir : ℕ) (file : List Byte) :
    ℕ → Word → ℕ → Kernel → Except Fault (Option ℕ × Kernel)
  | 0, _, sz, s => .ok (some sz, s)
  | n + 1, off, sz, s =>
    match readFull file off 32 with
    | none => .ok (none, s)
    | some buf =>
      if (proghdr buf).type ≠ elfProgLoad then loadSegments pgdir file n (off + 32) sz s
      else
        orBad (loadSegment L pgdir file (proghdr buf) sz s) fun sz s =>
          loadSegments pgdir file n (off + 32) sz s

/-- Two pages behind the program, of which the first becomes inaccessible. -/
def makeStack (pgdir sz : ℕ) (s : Kernel) : Except Fault (Option ℕ × Kernel) :=
  allocuvm L pgdir sz ((sz + 2 * pgsize) % 4294967296) s >>= fun r =>
    if r.1 = 0 then .ok (none, r.2)
    else clearpteu pgdir (r.1 - 2 * pgsize) r.2 >>= fun s => .ok (some r.1, s)

/-- (sp - n) & ~3 -/
def pushed (sp n : ℕ) : ℕ := (sp + 4294967296 - n % 4294967296) % 4294967296 / 4 * 4

/-- A copy to the stack that goes to `bad` when it fails. -/
def push (pgdir sp : ℕ) (bytes : List Byte) (s : Kernel) : Except Fault (Option ℕ × Kernel) :=
  copyout pgdir sp bytes s >>= fun r => if r.1 < 0 then .ok (none, r.2) else .ok (some sp, r.2)

/-- The loop over the arguments from number `argc` on, which returns the last stack pointer and
the addresses of the copies. -/
def pushArgs (pgdir : ℕ) : ℕ → ℕ → List (List Byte) → Kernel →
    Except Fault (Option (ℕ × List ℕ) × Kernel)
  | _, sp, [], s => .ok (some (sp, []), s)
  | argc, sp, arg :: argv, s =>
    if argc ≥ maxarg then .ok (none, s)
    else
      orBad (push pgdir (pushed sp (arg.length + 1)) (arg ++ [0]) s) fun sp s =>
        orBad (pushArgs pgdir (argc + 1) sp argv s) fun r s => .ok (some (r.1, sp :: r.2), s)

/-- The bytes of a word, the lowest one first. -/
def wordBytes (v : Word) : List Byte := [byteOf v 0, byteOf v 1, byteOf v 2, byteOf v 3]

/-- The array `ustack` where the last argument has been copied to `sp`. -/
def ustack (sp : ℕ) (ptrs : List ℕ) : List Word :=
  [0xffffffff, BitVec.ofNat 32 ptrs.length,
    BitVec.ofNat 32 sp - BitVec.ofNat 32 ((ptrs.length + 1) * 4)] ++
      ptrs.map (BitVec.ofNat 32) ++ [0]

/-- The strings, the array of pointers and the words below it. -/
def pushStack (pgdir sz : ℕ) (argv : List (List Byte)) (s : Kernel) :
    Except Fault (Option ℕ × Kernel) :=
  orBad (pushArgs pgdir 0 sz argv s) fun r s =>
    push pgdir ((r.1 + 4294967296 - (3 + r.2.length + 1) * 4) % 4294967296)
      ((ustack r.1 r.2).flatMap wordBytes) s

/-- What `exec` does between setupkvm and the change of the process: the new size and the new
stack pointer. -/
def buildImage (pgdir : ℕ) (file : List Byte) (elf : ElfHdr) (argv : List (List Byte))
    (s : Kernel) : Except Fault (Option (ℕ × ℕ) × Kernel) :=
  orBad (loadSegments L pgdir file elf.phnum elf.phoff 0 s) fun sz s =>
    orBad (makeStack L pgdir (pgroundup sz) s) fun sz s =>
      orBad (pushStack pgdir sz argv s) fun sp s => .ok (some (sz, sp), s)

/-- The part of a path behind its last slash. -/
def lastName (last : List Byte) : List Byte → List Byte
  | [] => last
  | c :: s => if c = 47 then lastName s s else lastName last s

/-- The bytes of the array `s` after a string has been copied to it. -/
def safestrcpy (s t : List Byte) (n : ℕ) : List Byte :=
  if n = 0 then s else
    let copied := (t ++ [0]).take (n - 1) ++ [0]
    copied ++ s.drop copied.length

/-- The argument `file` is what the file at the path holds, if there is one. -/
def exec (path : List Byte) (file : Option (List Byte)) (argv : List (List Byte)) (p : Proc)
    (s : Kernel) : Except Fault (ℤ × Proc × Kernel) :=
  match file with
  | none => .ok (-1, p, s)
  | some file =>
    match readFull file 0 52 with
    | none => .ok (-1, p, s)
    | some buf =>
      let elf := elfhdr buf
      if elf.magic ≠ elfMagic then .ok (-1, p, s)
      else
        setupkvm L s >>= fun r =>
          match r.1 with
          | none => .ok (-1, p, r.2)
          | some pgdir =>
            buildImage L pgdir file elf argv r.2 >>= fun q =>
              match q.1 with
              | none => freevm L pgdir q.2 >>= fun s => .ok (-1, p, s)
              | some (sz, sp) =>
                freevm L p.pgdir q.2 >>= fun s =>
                  .ok (0, ⟨sz, pgdir, elf.entry, sp, safestrcpy p.name (lastName path path) 16⟩, s)

/-- The computation goes to `bad` in a state of `B`, or it has a result of `G`. -/
inductive Ends {α : Type} (B : Kernel → Prop) (G : α → Kernel → Prop) :
    Except Fault (Option α × Kernel) → Prop
  | bad {s : Kernel} (h : B s) : Ends B G (.ok (none, s))
  | good {a : α} {s : Kernel} (h : G a s) : Ends B G (.ok (some a, s))

/-- The image that has been built so far: its pages below `sz` are present and it has no others in
the user part. -/
structure Image (L : Layout) (s₀ : Kernel) (d sz : ℕ) (s : Kernel) : Prop where
  fresh : Fresh L s₀.freelist s₀.mem s.freelist s.mem d
  le : sz ≤ kernbase
  present : ∀ p, 4096 * p < sz → ∃ e, pageOf s.mem d p = some e
  absent : ∀ p < userPages, sz ≤ 4096 * p → pageOf s.mem d p = none
  devices : ∀ p, 1032192 ≤ p → p < 1048576 → ∃ e, pageOf s.mem d p = some e

/-- What there is to free at the label `bad`. -/
abbrev Unfinished (L : Layout) (s₀ : Kernel) (d : ℕ) (s : Kernel) : Prop :=
  Fresh L s₀.freelist s₀.mem s.freelist s.mem d

variable {L : Layout} {d i n p sz va : ℕ} {e : Word} {s s₀ s' : Kernel}
  {file : List Byte}

theorem Ends.orBad {α β : Type} {B : Kernel → Prop} {G : α → Kernel → Prop}
    {G' : β → Kernel → Prop} {x : Except Fault (Option α × Kernel)}
    {f : α → Kernel → Except Fault (Option β × Kernel)} (hx : Ends B G x)
    (hf : ∀ a s, G a s → Ends B G' (f a s)) : Ends B G' (orBad x f) := by
  cases hx with
  | bad h => exact .bad h
  | good h => exact hf _ _ h

theorem Ends.mono {α : Type} {B : Kernel → Prop} {G G' : α → Kernel → Prop}
    {x : Except Fault (Option α × Kernel)} (hx : Ends B G x) (hG : ∀ a s, G a s → G' a s) :
    Ends B G' x := by
  cases hx with
  | bad h => exact .bad h
  | good h => exact .good (hG _ _ h)

theorem Ends.outcome {α : Type} {B : Kernel → Prop} {G : α → Kernel → Prop}
    {x : Except Fault (Option α × Kernel)} (hx : Ends B G x) :
    (∃ s, x = .ok (none, s) ∧ B s) ∨ ∃ a s, x = .ok (some a, s) ∧ G a s := by
  cases hx with
  | bad h => exact .inl ⟨_, rfl, h⟩
  | good h => exact .inr ⟨_, _, rfl, h⟩

theorem NewSpace.image (h : NewSpace L s₀ s d) : Image L s₀ d 0 s :=
  ⟨h.fresh, Nat.zero_le _, fun _ hp => absurd hp (Nat.not_lt_zero _), fun p hp _ => h.user p hp,
    h.devices⟩

namespace Image

/-- The last page of the program is there as a whole. -/
theorem rounded (h : Image L s₀ d sz s) : Image L s₀ d (pgroundup sz) s := by
  have hle : sz ≤ 2147483648 := h.le
  have hround : pgroundup sz = 4096 * ((sz + 4095) / 4096) := pgroundup_eq (by omega)
  rw [hround]
  refine ⟨h.fresh, ?_, fun p hp => h.present p (by omega), fun p hp hsz => h.absent p hp (by omega),
    h.devices⟩
  dsimp only [kernbase]
  omega

/-- Bytes of the user pages have been written. -/
theorem touched (h : Image L s₀ d sz s) (hfree : s'.freelist = s.freelist)
    (ht : Touched s.mem s'.mem d) : Image L s₀ d sz s' := by
  have hpages := ht.pageOf_eq h.fresh.space
  refine ⟨hfree ▸ h.fresh.touched ht, h.le, ?_, ?_, ?_⟩
  · exact fun p hp => hpages ▸ h.present p hp
  · exact fun p hp hsz => hpages ▸ h.absent p hp hsz
  · exact fun p hp hp' => hpages ▸ h.devices p hp hp'

/-- The image grows, or stays as it is where it is larger already. -/
theorem allocuvm (h : Image L s₀ d sz s) (newsz : ℕ) :
    ∃ r s', allocuvm L d sz newsz s = .ok (r, s') ∧
      (r = 0 ∧ Unfinished L s₀ d s' ∨ 0 < r ∧ r = max sz newsz ∧ Image L s₀ d r s') := by
  by_cases hle : sz ≤ newsz
  case neg =>
    have hlt := Nat.lt_of_not_le hle
    have hsmall := lt_of_lt_of_le hlt h.le
    refine ⟨sz, s, ?_, .inr ⟨by omega, (Nat.max_eq_left (Nat.le_of_lt hlt)).symm, h⟩⟩
    rw [PageTables.allocuvm, if_neg (Nat.not_le.mpr hsmall), if_pos hlt]
  case pos =>
    have hnone : newsz < kernbase → ∀ p ∈ pagesOf sz newsz, pageOf s.mem d p = none := by
      rintro hnew p ⟨hp, hp'⟩
      refine h.absent p ?_ hp
      dsimp only [kernbase, userPages] at hnew ⊢
      omega
    obtain ⟨r, s', hrun, ⟨hgrown, hres⟩, hbig⟩ := allocuvm_spec h.fresh.space hle hnone
    have hfresh := h.fresh.grown hgrown
    refine ⟨r, s', hrun, ?_⟩
    rcases hres with ⟨rfl, hmapped⟩ | ⟨rfl, -⟩
    case inr => exact .inl ⟨rfl, hfresh⟩
    case inl =>
      rcases Nat.eq_zero_or_pos r with hzero | hpos
      · exact .inl ⟨hzero, hfresh⟩
      have hnew : r < kernbase := by
        by_contra hge
        exact absurd (hbig (Nat.le_of_not_lt hge)) (Nat.ne_of_gt hpos)
      refine .inr ⟨hpos, (Nat.max_eq_right hle).symm, hfresh, Nat.le_of_lt hnew, ?_, ?_, ?_⟩
      · intro p hp
        by_cases hlt : 4096 * p < sz
        · rw [hmapped.others p fun hin => absurd hin.1 (Nat.not_le.mpr hlt)]
          exact h.present p hlt
        · exact hmapped.present p ⟨Nat.le_of_not_lt hlt, hp⟩
      · intro p hp hsz
        rw [hmapped.others p fun hin => absurd hin.2 (Nat.not_lt.mpr hsz)]
        exact h.absent p hp (hle.trans hsz)
      · intro p hp hp'
        rw [hmapped.others p fun hin => ?_]
        · exact h.devices p hp hp'
        · have := hin.2
          dsimp only [kernbase] at hnew
          omega

end Image

/-- One entry loses its user bit. -/
theorem clearpteu_spec (h : Space L s.freelist s.mem d) (hp : p < userPages)
    (he : pageOf s.mem d p = some e) :
    ∃ s', clearpteu d (4096 * p) s = .ok s' ∧ Grown L s.freelist s.mem s'.freelist s'.mem d ∧
      ∀ q, pageOf s'.mem d q = if q = p then some (e &&& ~~~pteU) else pageOf s.mem d q := by
  have hva : 4096 * p < 4294967296 := by
    dsimp only [userPages] at hp
    omega
  have hpage : 4096 * p / 4096 = p := by omega
  obtain ⟨t, ht, hentry, hpresent⟩ := table_of_page he
  have hclear : Present (e &&& ~~~pteU) := present_clear.mpr hpresent
  have hpages := pageOf_setEntry h.apart ht (e &&& ~~~pteU)
  have hheld : heldBy (setEntry s.mem t (p % 1024) (e &&& ~~~pteU)) d = heldBy s.mem d := by
    rw [heldBy_setEntry h.apart ht hp, if_pos hclear, frame_clear, ← heldBy_page hp he,
      Function.update_eq_self]
  have hgrows : Grows (ledger s.freelist s.mem d)
      (ledger s.freelist (setEntry s.mem t (p % 1024) (e &&& ~~~pteU)) d) := by
    rw [ledger, ledger, hheld]
    exact Grows.refl _
  refine ⟨{ s with mem := setEntry s.mem t (p % 1024) (e &&& ~~~pteU) }, ?_, ⟨hgrows, ?_, ?_⟩, ?_⟩
  · rw [clearpteu, walk_table hva (hpage.symm ▸ ht), hpage]
    simp only [hentry]
  · refine h.grows hgrows h.nodup ?_
    intro q e' hq he'
    rw [hpages, if_neg (by omega)] at he'
    exact h.kernel q e' hq he'
  · intro g _ _ hg
    exact setEntry_of_ne (fun hgt => hg _ (hgt ▸ ht)) _ _
  · intro q
    rw [hpages, if_pos hclear]

section Loading

theorem loaduvmLoop_spec (h : Image L s₀ d sz s) {q : ℕ} (hva : va % 4096 = 0) (offset : Word)
    (hfit : va + n ≤ sz) (hq : 4096 * q < n + 4096) {fuel : ℕ} (hn : 1048576 < fuel + q) :
    ∃ r s', loaduvmLoop d va file offset n fuel (4096 * q) s = .ok (r, s') ∧
      (r = 0 ∨ r = -1) ∧ Image L s₀ d sz s' := by
  have hle : sz ≤ 2147483648 := h.le
  induction fuel generalizing q s with
  | zero => omega
  | succ fuel ih =>
    rw [loaduvmLoop]
    by_cases hlt : 4096 * q < n
    case neg =>
      rw [if_neg hlt]
      exact ⟨0, s, rfl, .inl rfl, h⟩
    case pos =>
      have hpage : (va + 4096 * q) % 4294967296 / 4096 = va / 4096 + q := by omega
      have huser : va / 4096 + q < userPages := by
        dsimp only [userPages]
        omega
      obtain ⟨e, he⟩ := h.present (va / 4096 + q) (by omega)
      obtain ⟨t, ht, hentry, -⟩ := table_of_page he
      rw [if_pos hlt, walk_table (Nat.mod_lt _ (by decide)) (hpage.symm ▸ ht), hpage,
        next_page (q := q) (by omega)]
      simp only [hentry, p2v_pteAddr]
      generalize (if n - 4096 * q < pgsize then n - 4096 * q else pgsize) = n₁
      cases readRange file (offset + BitVec.ofNat 32 (4096 * q)) (BitVec.ofNat 32 n₁) with
      | none => exact ⟨-1, s, rfl, .inr rfl, h⟩
      | some bytes =>
        have htouched := touched_page (heldBy_page huser he)
          (writeBytes (s.mem (frame e)) 0 bytes)
        have h' : Image L s₀ d sz
            ⟨Function.update s.mem (frame e) (writeBytes (s.mem (frame e)) 0 bytes), s.freelist⟩ :=
          h.touched rfl htouched
        dsimp only
        by_cases hfull : bytes.length ≠ n₁
        · rw [if_pos hfull]
          exact ⟨-1, _, rfl, .inr rfl, h'⟩
        · rw [if_neg hfull]
          exact ih h' (by omega) (by omega)

theorem loaduvm_spec (file : List Byte) (h : Image L s₀ d sz s) (hva : va % pgsize = 0)
    (offset : Word) (hfit : va + n ≤ sz) : ∃ r s', loaduvm d va file offset n s = .ok (r, s') ∧
      (r = 0 ∨ r = -1) ∧ Image L s₀ d sz s' := by
  rw [loaduvm, if_neg (not_not_intro hva)]
  exact loaduvmLoop_spec (q := 0) h hva offset hfit (by omega) (by dsimp only [allPages]; omega)

theorem loadSegment_spec (h : Image L s₀ d sz s) (file : List Byte) (ph : ProgHdr) :
    Ends (Unfinished L s₀ d) (Image L s₀ d) (loadSegment L d file ph sz s) := by
  rw [loadSegment]
  by_cases hmemsz : ph.memsz < ph.filesz
  · rw [if_pos hmemsz]
    exact .bad h.fresh
  rw [if_neg hmemsz]
  by_cases hwrap : ph.vaddr + ph.memsz < ph.vaddr
  · rw [if_pos hwrap]
    exact .bad h.fresh
  obtain ⟨r, s₁, hrun, hres⟩ := h.allocuvm (ph.vaddr + ph.memsz).toNat
  rw [if_neg hwrap, hrun, ok_bind]
  rcases hres with ⟨rfl, hfresh⟩ | ⟨hpos, hr, h₁⟩
  · rw [if_pos rfl]
    exact .bad hfresh
  rw [if_neg (Nat.ne_of_gt hpos)]
  by_cases hva : ph.vaddr.toNat % pgsize = 0
  case neg =>
    rw [if_pos hva]
    exact .bad h₁.fresh
  case pos =>
    -- the whole segment lies below the new size
    have hfit : ph.vaddr.toNat + ph.filesz.toNat ≤ r := by
      rw [BitVec.not_lt, BitVec.le_def] at hmemsz hwrap
      rw [BitVec.toNat_add] at hwrap hr
      omega
    obtain ⟨q, s₂, hload, hq, h₂⟩ := loaduvm_spec file h₁ hva ph.off hfit
    rw [if_neg (not_not_intro hva), hload, ok_bind]
    rcases hq with rfl | rfl
    · rw [if_neg (Int.lt_irrefl 0)]
      exact .good h₂
    · rw [if_pos failed]
      exact .bad h₂.fresh

theorem loadSegments_spec (h : Image L s₀ d sz s) (file : List Byte) (n : ℕ) (off : Word) :
    Ends (Unfinished L s₀ d) (Image L s₀ d) (loadSegments L d file n off sz s) := by
  induction n generalizing off sz s with
  | zero => exact .good h
  | succ n ih =>
    rw [loadSegments]
    cases readFull file off 32 with
    | none => exact .bad h.fresh
    | some buf =>
      dsimp only
      by_cases htype : (proghdr buf).type ≠ elfProgLoad
      · rw [if_pos htype]
        exact ih h _
      · rw [if_neg htype]
        exact (loadSegment_spec h file _).orBad fun sz s h => ih h _

end Loading

end ExecImages
