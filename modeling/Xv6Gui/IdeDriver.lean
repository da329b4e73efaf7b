import Xv6Gui.BufferCache

/-!
# The disk driver

iderw, idestart and ideintr of ide.c with the disk behind the ports. A step is a section under
`idelock`: a request joins the queue, an interrupt completes the request at its head, and a
sleeping process tests the flags of its buffer again. The holder of a buffer's lock changes its
contents between requests.
-/
namespace IdeDriver

open WindowManagerState GuardedRuns BufferCache

abbrev fssize : ℕ := 1000

/-- `BSIZE/SECTOR_SIZE`. -/
abbrev sectorPerBlock : ℕ := 4

/-- The bytes of a block, sector by sector. -/
abbrev Block (α : Type) := Fin sectorPerBlock → α

abbrev Status := BitVec 8

def ideBsy : Status := 0x80
def ideDrdy : Status := 0x40
def ideDf : Status := 0x20
def ideErr : Status := 0x01

def Failed (r : Status) : Prop := r &&& (ideDf ||| ideErr) ≠ 0

instance (r : Status) : Decidable (Failed r) := inferInstanceAs (Decidable (_ ≠ _))

structure Buf (α : Type) where
  dev : ℕ
  blockno : ℕ
  valid : Bool
  dirty : Bool
  data : Block α
  lock : Option ProcId
  deriving DecidableEq

variable {α : Type}

/-- The test on which iderw returns. -/
def Buf.Synced (b : Buf α) : Prop := b.valid = true ∧ b.dirty = false

instance (b : Buf α) : Decidable b.Synced := inferInstanceAs (Decidable (_ ∧ _))

/-- What idestart leaves in the ports 0x1f2 to 0x1f6, and the data of a write command. -/
structure Command (α : Type) where
  count : ℕ
  lba0 : ℕ
  lba1 : ℕ
  lba2 : ℕ
  head : ℕ
  sent : Option (Block α)

def Command.sector (c : Command α) : ℕ :=
  c.lba0 + 256 * c.lba1 + 65536 * c.lba2 + 16777216 * (c.head % 16)

def Command.drive (c : Command α) : ℕ := c.head / 16 % 2

/-- The driver and the two disks, which are arrays of sectors. -/
structure Driver (α : Type) where
  buf : Fin nbuf → Buf α
  idequeue : List (Fin nbuf)
  havedisk1 : Bool
  active : Option (Command α)
  disk : ℕ → ℕ → α
  place : ProcId → Option (Fin nbuf)

def updateBuf (s : Driver α) (b : Fin nbuf) (f : Buf α → Buf α) : Driver α :=
  { s with buf := Function.update s.buf b (f (s.buf b)) }

/-- Neither process nor driver is at work, and every buffer is as binit leaves it. -/
def boot (disk : ℕ → ℕ → α) (zero : α) (havedisk1 : Bool) : Driver α where
  buf _ := ⟨0, 0, false, false, fun _ => zero, none⟩
  idequeue := []
  havedisk1 := havedisk1
  active := none
  disk := disk
  place _ := none

def command (b : Buf α) : Command α :=
  let sector := b.blockno * sectorPerBlock
  { count := sectorPerBlock
    lba0 := sector &&& 0xff
    lba1 := (sector >>> 8) &&& 0xff
    lba2 := (sector >>> 16) &&& 0xff
    head := 0xe0 ||| ((b.dev &&& 1) <<< 4) ||| ((sector >>> 24) &&& 0x0f)
    sent := if b.dirty then some b.data else none }

def idestart (s : Driver α) (b : Fin nbuf) : Except Fault (Driver α) :=
  if (s.buf b).blockno ≥ fssize then .error (.panic "incorrect blockno")
  else .ok { s with active := some (command (s.buf b)) }

/-- The result of the loop of idewait, which ends at a status with the disk ready. -/
def idewait (checkerr : Bool) (r : Status) : ℤ :=
  if checkerr = true ∧ r &&& (ideDf ||| ideErr) ≠ 0 then -1 else 0

/-- The disk has carried out the command; after an error it has transferred nothing. -/
def completed (disk : ℕ → ℕ → α) (c : Command α) (r : Status) : ℕ → ℕ → α :=
  match c.sent with
  | some data =>
    if Failed r then disk else fun d n =>
      if h : d = c.drive ∧ c.sector ≤ n ∧ n < c.sector + sectorPerBlock
      then data ⟨n - c.sector, by omega⟩ else disk d n
  | none => disk

/-- What insl reads from the port after a read command. -/
def fetched (disk : ℕ → ℕ → α) (c : Command α) : Block α :=
  fun i => disk c.drive (c.sector + i)

/-- The end of command `c` for buffer `b`: what the disk does and the handler's part up to the
wakeup. -/
def finish (s : Driver α) (b : Fin nbuf) (c : Command α) (r : Status) : Driver α :=
  let s := { s with
    active := none
    disk := completed s.disk c r }
  let s := if (s.buf b).dirty = false ∧ idewait true r ≥ 0 then
    updateBuf s b fun x => { x with data := fetched s.disk c } else s
  updateBuf s b fun x => { x with valid := true, dirty := false }

def ideintr (s : Driver α) (r : Status) : Except Fault (Driver α) :=
  match s.idequeue, s.active with
  | b :: rest, some c =>
    let s := finish { s with idequeue := rest } b c r
    match rest with
    | [] => .ok s
    | next :: _ => idestart s next
  | _, _ => .ok s

def iderw (s : Driver α) (p : ProcId) (b : Fin nbuf) : Except Fault (Driver α) :=
  if (s.buf b).lock ≠ some p then .error (.panic "iderw: buf not locked")
  else if (s.buf b).Synced then .error (.panic "iderw: nothing to do")
  else if (s.buf b).dev ≠ 0 ∧ s.havedisk1 = false then
    .error (.panic "iderw: ide disk 1 not present")
  else
    let first := s.idequeue.isEmpty
    let s := { s with
      idequeue := s.idequeue ++ [b]
      place := Function.update s.place p (some b) }
    if first then idestart s b else .ok s

/-- `bget` takes a buffer that names the block already or gives one this name; `store` and
`setDirty` are the holder's own writes to the contents and the flags. -/
inductive Event (α : Type) where
  | bget (p : ProcId) (b : Fin nbuf) (dev blockno : ℕ)
  | brelse (p : ProcId) (b : Fin nbuf)
  | store (p : ProcId) (b : Fin nbuf) (data : Block α)
  | setDirty (p : ProcId) (b : Fin nbuf)
  | iderw (p : ProcId) (b : Fin nbuf)
  | ideintr (r : Status)
  | wakeup (p : ProcId)

/-- The buffer cache hands out existing blocks and never two buffers for one block. -/
def Enabled (s : Driver α) : Event α → Prop
  | .bget _ b dev blockno => (s.buf b).lock = none ∧ dev < 2 ∧ blockno < fssize ∧
      ((s.buf b).dev = dev ∧ (s.buf b).blockno = blockno ∨ (s.buf b).dirty = false) ∧
      ∀ c, (s.buf c).lock ≠ none → ¬((s.buf c).dev = dev ∧ (s.buf c).blockno = blockno)
  | .brelse p b | .store p b _ | .setDirty p b => (s.buf b).lock = some p ∧ s.place p = none
  | .iderw p _ => s.place p = none
  | .ideintr r => r &&& (ideBsy ||| ideDrdy) = ideDrdy
  | .wakeup p => s.place p ≠ none

instance (s : Driver α) : (e : Event α) → Decidable (Enabled s e)
  | .bget _ _ _ _ => inferInstanceAs (Decidable (_ ∧ _))
  | .brelse _ _ | .store _ _ _ | .setDirty _ _ => inferInstanceAs (Decidable (_ ∧ _))
  | .iderw _ _ => inferInstanceAs (Decidable (_ = _))
  | .ideintr _ => inferInstanceAs (Decidable (_ = _))
  | .wakeup _ => inferInstanceAs (Decidable (_ ≠ _))

def step (s : Driver α) : Event α → Except Fault (Driver α)
  | .bget p b dev blockno =>
    .ok (updateBuf s b fun x =>
      if x.dev = dev ∧ x.blockno = blockno then { x with lock := some p }
      else ⟨dev, blockno, false, false, x.data, some p⟩)
  | .brelse _ b => .ok (updateBuf s b fun x => { x with lock := none })
  | .store _ b data => .ok (updateBuf s b fun x => { x with data := data })
  | .setDirty _ b => .ok (updateBuf s b fun x => { x with dirty := true })
  | .iderw p b => iderw s p b
  | .ideintr r => ideintr s r
  | .wakeup p =>
    match s.place p with
    | some b =>
      if (s.buf b).Synced then .ok { s with place := Function.update s.place p none } else .ok s
    | none => .ok s

/-- The block that a buffer names. -/
def named (disk : ℕ → ℕ → α) (b : Buf α) : Block α :=
  fun i => disk b.dev (b.blockno * sectorPerBlock + i)

/-- A call of iderw that can return now has the block in its buffer. -/
def ReturnsBlock (s : Driver α) : Prop :=
  ∀ p b, s.place p = some b → (s.buf b).Synced → (s.buf b).data = named s.disk (s.buf b)

/-- The disk reports no error for a buffer whose contents differ from the block. -/
def ErrorFree (s : Driver α) : Event α → Prop
  | .ideintr r => Failed r →
      ∀ b, s.idequeue.head? = some b → (s.buf b).data = named s.disk (s.buf b)
  | _ => True

section Commands

variable {b : Buf α}

theorem command_head (hdev : b.dev < 2) (hblock : b.blockno < fssize) :
    (command b).head = 224 + 16 * b.dev := by
  have hhigh : (b.blockno * sectorPerBlock) >>> 24 = 0 := by
    rw [Nat.shiftRight_eq_div_pow]
    unfold fssize at hblock
    unfold sectorPerBlock
    exact Nat.div_eq_of_lt (by omega)
  simp only [command, hhigh]
  obtain h | h : b.dev = 0 ∨ b.dev = 1 := by omega
  · rw [h]
    decide
  · rw [h]
    decide

theorem command_drive (hdev : b.dev < 2) (hblock : b.blockno < fssize) :
    (command b).drive = b.dev := by
  rw [Command.drive, command_head hdev hblock]
  omega

/-- The bytes in the ports put together are the first sector of the block. -/
theorem command_sector (hdev : b.dev < 2) (hblock : b.blockno < fssize) :
    (command b).sector = b.blockno * sectorPerBlock := by
  have hbyte (n : ℕ) : n &&& 0xff = n % 256 := Nat.and_two_pow_sub_one_eq_mod n 8
  rw [Command.sector, command_head hdev hblock]
  simp only [command, hbyte, Nat.shiftRight_eq_div_pow]
  unfold fssize at hblock
  unfold sectorPerBlock
  omega

theorem fetched_command (disk : ℕ → ℕ → α) (hdev : b.dev < 2) (hblock : b.blockno < fssize) :
    fetched disk (command b) = named disk b := by
  funext i
  simp only [fetched, named, command_drive hdev hblock, command_sector hdev hblock]

/-- A command moves data to the block that the buffer names and nowhere else. -/
theorem named_completed (disk : ℕ → ℕ → α) (r : Status) {c : Buf α} (hdev : b.dev < 2)
    (hblock : b.blockno < fssize) :
    named (completed disk (command b) r) c =
      if b.dirty = true ∧ ¬Failed r ∧ c.dev = b.dev ∧
        c.blockno = b.blockno then b.data else named disk c := by
  have hsent : (command b).sent = if b.dirty = true then some b.data else none := rfl
  funext i
  have hi : (i : ℕ) < 4 := i.isLt
  simp only [named, completed, hsent, command_drive hdev hblock, command_sector hdev hblock,
    sectorPerBlock]
  by_cases hdirty : b.dirty = true
  · by_cases hr : Failed r
    · simp only [hdirty, hr, if_true, not_true_eq_false, false_and, and_false, if_false]
      rfl
    simp only [hdirty, hr, if_true, not_false_eq_true, true_and, if_false]
    by_cases hc : c.dev = b.dev ∧ c.blockno = b.blockno
    · have hin : c.dev = b.dev ∧ b.blockno * 4 ≤ c.blockno * 4 + i ∧
          c.blockno * 4 + i < b.blockno * 4 + 4 := by omega
      rw [dif_pos hin, if_pos hc]
      congr 1
      apply Fin.ext
      change c.blockno * 4 + i - b.blockno * 4 = i
      omega
    · have hout : ¬(c.dev = b.dev ∧ b.blockno * 4 ≤ c.blockno * 4 + i ∧
          c.blockno * 4 + i < b.blockno * 4 + 4) := by
        rintro ⟨h, hle, hlt⟩
        exact hc ⟨h, by omega⟩
      rw [dif_neg hout, if_neg hc]
      rfl
  · simp only [Bool.not_eq_true] at hdirty
    simp only [hdirty, Bool.false_eq_true, if_false, false_and]
    rfl

end Commands

/-- A request is in the queue from iderw until its interrupt. Its process holds the lock and
sleeps, so the contents are those the command was given. -/
structure Inv (s : Driver α) : Prop where
  nodup : s.idequeue.Nodup
  held : ∀ p b, s.place p = some b → (s.buf b).lock = some p
  queued : ∀ b ∈ s.idequeue, ¬(s.buf b).Synced ∧ ∃ p, s.place p = some b
  waiting : ∀ p b, s.place p = some b → ¬(s.buf b).Synced → b ∈ s.idequeue
  exists_block : ∀ b, (s.buf b).lock ≠ none → (s.buf b).dev < 2 ∧ (s.buf b).blockno < fssize
  distinct : ∀ b c, (s.buf b).lock ≠ none → (s.buf c).lock ≠ none →
    (s.buf b).dev = (s.buf c).dev → (s.buf b).blockno = (s.buf c).blockno → b = c
  active : s.active = s.idequeue.head?.map fun b => command (s.buf b)
  returns : ReturnsBlock s

theorem inv_boot (disk : ℕ → ℕ → α) (zero : α) (havedisk1 : Bool) :
    Inv (boot disk zero havedisk1) := by
  constructor
  case nodup => exact List.nodup_nil
  case active => rfl
  all_goals simp [boot, ReturnsBlock]

section Steps

variable {s t : Driver α} {p : ProcId} {b : Fin nbuf}

/-- The holder of a buffer and the buffer cache may do what they like to a buffer that is not
in iderw, as long as no other held buffer has its name. -/
theorem Inv.updateBuf (hs : Inv s) {f : Buf α → Buf α} (hout : ∀ q, s.place q ≠ some b)
    (hblock : (f (s.buf b)).lock ≠ none →
      (f (s.buf b)).dev < 2 ∧ (f (s.buf b)).blockno < fssize)
    (hname : (f (s.buf b)).lock ≠ none → ∀ c, c ≠ b → (s.buf c).lock ≠ none →
      ¬((s.buf c).dev = (f (s.buf b)).dev ∧ (s.buf c).blockno = (f (s.buf b)).blockno)) :
    Inv (updateBuf s b f) := by
  have hsame : ∀ c, c ≠ b → (IdeDriver.updateBuf s b f).buf c = s.buf c := by
    intro c hc
    exact Function.update_of_ne hc _ _
  have hself : (IdeDriver.updateBuf s b f).buf b = f (s.buf b) := Function.update_self ..
  have hplace : ∀ q c, s.place q = some c → c ≠ b := by
    rintro q c hq rfl
    exact hout q hq
  have hqueue : ∀ c ∈ s.idequeue, c ≠ b := by
    intro c hc
    obtain ⟨_, q, hq⟩ := hs.queued c hc
    exact hplace q c hq
  constructor
  case nodup => exact hs.nodup
  case held =>
    intro q c hq
    rw [hsame c (hplace q c hq)]
    exact hs.held q c hq
  case queued =>
    intro c hc
    rw [hsame c (hqueue c hc)]
    exact hs.queued c hc
  case waiting =>
    intro q c hq hc
    rw [hsame c (hplace q c hq)] at hc
    exact hs.waiting q c hq hc
  case exists_block =>
    intro c hc
    by_cases hcb : c = b
    · subst hcb
      rw [hself] at hc ⊢
      exact hblock hc
    · rw [hsame c hcb] at hc ⊢
      exact hs.exists_block c hc
  case distinct =>
    intro c d hc hd hdev hno
    by_cases hcb : c = b
    · by_cases hdb : d = b
      · exact hcb.trans hdb.symm
      · subst hcb
        rw [hself] at hc hdev hno
        rw [hsame d hdb] at hd hdev hno
        exact absurd ⟨hdev.symm, hno.symm⟩ (hname hc d hdb hd)
    · rw [hsame c hcb] at hc hdev hno
      by_cases hdb : d = b
      · subst hdb
        rw [hself] at hd hdev hno
        exact absurd ⟨hdev, hno⟩ (hname hd c hcb hc)
      · rw [hsame d hdb] at hd hdev hno
        exact hs.distinct c d hc hd hdev hno
  case active =>
    refine hs.active.trans ?_
    change _ = s.idequeue.head?.map _
    cases hq : s.idequeue with
    | nil => rfl
    | cons c rest =>
      simp only [List.head?_cons, Option.map_some, Option.some.injEq]
      rw [hsame c (hqueue c (by rw [hq]; exact List.mem_cons_self))]
  case returns =>
    intro q c hq hc
    rw [hsame c (hplace q c hq)] at hc ⊢
    exact hs.returns q c hq hc

/-- Outside iderw a process has no buffer in it, and nobody else has one that it holds. -/
theorem Inv.not_placed (hs : Inv s) (hlock : (s.buf b).lock = some p) (hp : s.place p = none) :
    ∀ q, s.place q ≠ some b := by
  intro q hq
  have hpq : p = q := Option.some.inj (hlock.symm.trans (hs.held q b hq))
  rw [hpq, hq] at hp
  cases hp

/-- Writes of the holder leave name and lock alone. -/
theorem Inv.write (hs : Inv s) {f : Buf α → Buf α} (hlock : (s.buf b).lock = some p)
    (hp : s.place p = none) (hdev : (f (s.buf b)).dev = (s.buf b).dev)
    (hno : (f (s.buf b)).blockno = (s.buf b).blockno) : Inv (IdeDriver.updateBuf s b f) := by
  have hb : (s.buf b).lock ≠ none := by rw [hlock]; exact Option.some_ne_none p
  refine hs.updateBuf (hs.not_placed hlock hp) ?_ ?_
  · intro _
    rw [hdev, hno]
    exact hs.exists_block b hb
  · rintro - c hc hcl ⟨h₁, h₂⟩
    exact hc (hs.distinct c b hcl hb (h₁.trans hdev) (h₂.trans hno))

/-- What a request leaves. The command in the ports is that of the head of the queue. -/
def requested (s : Driver α) (p : ProcId) (b : Fin nbuf) : Driver α :=
  { s with
    idequeue := s.idequeue ++ [b]
    active := (s.idequeue ++ [b]).head?.map fun c => command (s.buf c)
    place := Function.update s.place p (some b) }

theorem Inv.iderw_cases (hs : Inv s) (h : iderw s p b = .ok t) :
    (s.buf b).lock = some p ∧ ¬(s.buf b).Synced ∧ t = requested s p b := by
  unfold iderw at h
  split at h
  · cases h
  split at h
  · cases h
  split at h
  · cases h
  rename_i hlock hsync _
  rw [not_ne_iff] at hlock
  refine ⟨hlock, hsync, ?_⟩
  have hb : (s.buf b).lock ≠ none := by rw [hlock]; exact Option.some_ne_none p
  have hblock := (hs.exists_block b hb).2
  have hactive := hs.active
  cases hq : s.idequeue with
  | nil =>
    simp only [hq, List.isEmpty_nil, if_true, idestart, if_neg (Nat.not_le.mpr hblock)] at h
    rw [← Except.ok.inj h, requested, hq]
    rfl
  | cons c rest =>
    simp only [hq, List.isEmpty_cons, Bool.false_eq_true, if_false] at h
    rw [hq] at hactive
    rw [← Except.ok.inj h, requested, hq]
    simp only [List.cons_append, List.head?_cons, Option.map_some] at hactive ⊢
    rw [hactive]

theorem Inv.requested (hs : Inv s) (hp : s.place p = none) (hlock : (s.buf b).lock = some p)
    (hsync : ¬(s.buf b).Synced) : Inv (requested s p b) := by
  have hnew : b ∉ s.idequeue := by
    intro hb
    obtain ⟨q, hq⟩ := (hs.queued b hb).2
    exact hs.not_placed hlock hp q hq
  have hplace : ∀ q c, (IdeDriver.requested s p b).place q = some c →
      q = p ∧ c = b ∨ s.place q = some c := by
    intro q c hq
    change Function.update s.place p (some b) q = some c at hq
    by_cases hqp : q = p
    · subst hqp
      rw [Function.update_self] at hq
      exact .inl ⟨rfl, (Option.some.inj hq).symm⟩
    · rw [Function.update_of_ne hqp] at hq
      exact .inr hq
  constructor
  case nodup =>
    change (s.idequeue ++ [b]).Nodup
    exact hs.nodup.append (List.nodup_singleton b) (List.disjoint_singleton.mpr hnew)
  case held =>
    intro q c hq
    obtain ⟨rfl, rfl⟩ | hq := hplace q c hq
    · exact hlock
    · exact hs.held q c hq
  case queued =>
    intro c hc
    obtain hc | hc := List.mem_append.mp hc
    · obtain ⟨hcs, q, hq⟩ := hs.queued c hc
      refine ⟨hcs, q, ?_⟩
      have hqp : q ≠ p := by
        rintro rfl
        rw [hp] at hq
        cases hq
      exact (Function.update_of_ne hqp _ _).trans hq
    · obtain rfl := List.mem_singleton.mp hc
      exact ⟨hsync, p, Function.update_self ..⟩
  case waiting =>
    intro q c hq hc
    obtain ⟨rfl, rfl⟩ | hq := hplace q c hq
    · exact List.mem_append_right _ (List.mem_singleton_self c)
    · exact List.mem_append_left _ (hs.waiting q c hq hc)
  case exists_block => exact hs.exists_block
  case distinct => exact hs.distinct
  case active => rfl
  case returns =>
    intro q c hq hc
    obtain ⟨rfl, rfl⟩ | hq := hplace q c hq
    · exact absurd hc hsync
    · exact hs.returns q c hq hc

/-- What the interrupt leaves. -/
def answered (s : Driver α) (b : Fin nbuf) (rest : List (Fin nbuf)) (r : Status) : Driver α :=
  let x := s.buf b
  { s with
    idequeue := rest
    active := rest.head?.map fun c => command (s.buf c)
    disk := completed s.disk (command x) r
    buf := Function.update s.buf b
      { x with
        valid := true
        dirty := false
        data := if x.dirty = false ∧ ¬Failed r then named s.disk x
          else x.data } }

theorem idewait_nonneg (r : Status) : idewait true r ≥ 0 ↔ ¬Failed r := by
  unfold idewait
  by_cases h : Failed r
  · rw [if_pos ⟨rfl, h⟩]
    exact ⟨fun h => absurd h (by decide), fun hr => absurd h hr⟩
  · rw [if_neg (fun hr => h hr.2)]
    exact ⟨fun _ => h, fun _ => le_refl 0⟩

theorem completed_read (disk : ℕ → ℕ → α) (r : Status) {x : Buf α} (h : x.dirty = false) :
    completed disk (command x) r = disk := by
  simp only [completed, command, h, Bool.false_eq_true, if_false]

theorem finish_eq (rest : List (Fin nbuf)) (r : Status) (hdev : (s.buf b).dev < 2)
    (hblock : (s.buf b).blockno < fssize) :
    finish { s with idequeue := rest } b (command (s.buf b)) r =
      { answered s b rest r with active := none } := by
  simp only [finish, answered, updateBuf]
  by_cases hread : (s.buf b).dirty = false ∧ ¬Failed r
  · have hwait : (s.buf b).dirty = false ∧ idewait true r ≥ 0 :=
      ⟨hread.1, (idewait_nonneg r).mpr hread.2⟩
    simp only [if_pos hread, if_pos hwait, completed_read _ _ hread.1,
      fetched_command _ hdev hblock, Function.update_self, Function.update_idem]
  · have hwait : ¬((s.buf b).dirty = false ∧ idewait true r ≥ 0) := by
      rwa [idewait_nonneg]
    simp only [if_neg hread, if_neg hwait]

/-- The buffer at the head of the queue and those behind it. -/
theorem Inv.head (hs : Inv s) {rest : List (Fin nbuf)} (hq : s.idequeue = b :: rest) :
    ((s.buf b).dev < 2 ∧ (s.buf b).blockno < fssize ∧ ∃ p, s.place p = some b) ∧
      ∀ c ∈ rest, c ≠ b ∧ (s.buf c).blockno < fssize := by
  have hblock : ∀ c ∈ s.idequeue, (s.buf c).dev < 2 ∧ (s.buf c).blockno < fssize := by
    intro c hc
    obtain ⟨-, p, hp⟩ := hs.queued c hc
    exact hs.exists_block c (by rw [hs.held p c hp]; exact Option.some_ne_none p)
  have hnodup := hs.nodup
  rw [hq] at hblock hnodup
  obtain ⟨-, hp⟩ := hs.queued b (by rw [hq]; exact List.mem_cons_self)
  refine ⟨⟨(hblock b List.mem_cons_self).1, (hblock b List.mem_cons_self).2, hp⟩, ?_⟩
  intro c hc
  refine ⟨?_, (hblock c (List.mem_cons_of_mem b hc)).2⟩
  rintro rfl
  exact (List.nodup_cons.mp hnodup).1 hc

theorem Inv.ideintr_eq (hs : Inv s) {rest : List (Fin nbuf)} (r : Status)
    (hq : s.idequeue = b :: rest) : ideintr s r = .ok (answered s b rest r) := by
  obtain ⟨⟨hdev, hblock, -⟩, hrest⟩ := hs.head hq
  have hactive : s.active = some (command (s.buf b)) := by rw [hs.active, hq]; rfl
  have hfinish := finish_eq rest r hdev hblock
  rw [hactive] at hfinish
  simp only [ideintr, hq, hactive, hfinish]
  cases rest with
  | nil => rfl
  | cons c rest =>
    obtain ⟨hcb, hc⟩ := hrest c List.mem_cons_self
    have hsame : (answered s b (c :: rest) r).buf c = s.buf c := Function.update_of_ne hcb _ _
    simp only [idestart, hsame, if_neg (Nat.not_le.mpr hc)]
    rfl

/-- After the interrupt the buffer has the block, unless the disk reported an error and the
contents differed before. -/
theorem answered_matches_iff (rest : List (Fin nbuf)) (r : Status) (hdev : (s.buf b).dev < 2)
    (hblock : (s.buf b).blockno < fssize) :
    ((answered s b rest r).buf b).data =
        named (answered s b rest r).disk ((answered s b rest r).buf b) ↔
      (Failed r → (s.buf b).data = named s.disk (s.buf b)) := by
  have hself : (answered s b rest r).buf b = { s.buf b with
      valid := true
      dirty := false
      data := if (s.buf b).dirty = false ∧ ¬Failed r
        then named s.disk (s.buf b) else (s.buf b).data } := Function.update_self ..
  have hnamed : named (answered s b rest r).disk ((answered s b rest r).buf b) =
      named (completed s.disk (command (s.buf b)) r) (s.buf b) := by
    rw [hself]
    rfl
  rw [hnamed, hself, named_completed _ _ hdev hblock]
  by_cases hr : Failed r
  · simp only [hr, not_true_eq_false, and_false, false_and, if_false, forall_const]
  · cases hdirty : (s.buf b).dirty
    · simp [hr]
    · simp [hr]

/-- The invariant after the interrupt, but for the buffer that it was about. -/
theorem Inv.answered (hs : Inv s) {rest : List (Fin nbuf)} {r : Status}
    (hq : s.idequeue = b :: rest)
    (hmatch : Failed r → (s.buf b).data = named s.disk (s.buf b)) :
    Inv (answered s b rest r) := by
  obtain ⟨⟨hdev, hblock, p, hp⟩, hrest⟩ := hs.head hq
  have hb : (s.buf b).lock ≠ none := by rw [hs.held p b hp]; exact Option.some_ne_none p
  have hsame : ∀ c, c ≠ b → (IdeDriver.answered s b rest r).buf c = s.buf c := by
    intro c hc
    exact Function.update_of_ne hc _ _
  have hself : (IdeDriver.answered s b rest r).buf b = { s.buf b with
      valid := true
      dirty := false
      data := if (s.buf b).dirty = false ∧ ¬Failed r
        then named s.disk (s.buf b) else (s.buf b).data } := Function.update_self ..
  have hkeeps : ∀ c, ((IdeDriver.answered s b rest r).buf c).lock = (s.buf c).lock ∧
      ((IdeDriver.answered s b rest r).buf c).dev = (s.buf c).dev ∧
      ((IdeDriver.answered s b rest r).buf c).blockno = (s.buf c).blockno := by
    intro c
    by_cases hc : c = b
    · subst hc
      rw [hself]
      exact ⟨rfl, rfl, rfl⟩
    · rw [hsame c hc]
      exact ⟨rfl, rfl, rfl⟩
  have hnodup := hs.nodup
  rw [hq] at hnodup
  constructor
  case nodup => exact hnodup.of_cons
  case held =>
    intro q c hc
    rw [(hkeeps c).1]
    exact hs.held q c hc
  case queued =>
    intro c hc
    rw [hsame c (hrest c hc).1]
    exact hs.queued c (by rw [hq]; exact List.mem_cons_of_mem b hc)
  case waiting =>
    intro q c hc hsync
    by_cases hcb : c = b
    · subst hcb
      rw [hself] at hsync
      exact absurd ⟨rfl, rfl⟩ hsync
    · rw [hsame c hcb] at hsync
      have hmem := hs.waiting q c hc hsync
      rw [hq] at hmem
      exact (List.mem_cons.mp hmem).resolve_left hcb
  case exists_block =>
    intro c
    obtain ⟨hl, hd, hn⟩ := hkeeps c
    rw [hl, hd, hn]
    exact hs.exists_block c
  case distinct =>
    intro c d
    obtain ⟨hl, hd, hn⟩ := hkeeps c
    obtain ⟨hl', hd', hn'⟩ := hkeeps d
    rw [hl, hd, hn, hl', hd', hn']
    exact hs.distinct c d
  case active =>
    change rest.head?.map _ = rest.head?.map _
    cases rest with
    | nil => rfl
    | cons c rest =>
      simp only [List.head?_cons, Option.map_some]
      rw [hsame c (hrest c List.mem_cons_self).1]
  case returns =>
    intro q c hc hsync
    by_cases hcb : c = b
    · subst hcb
      exact (answered_matches_iff rest r hdev hblock).mpr hmatch
    · have hlock : (s.buf c).lock ≠ none := by
        rw [hs.held q c hc]
        exact Option.some_ne_none q
      rw [hsame c hcb] at hsync ⊢
      rw [hs.returns q c hc hsync]
      refine ((named_completed s.disk r hdev hblock).trans (if_neg ?_)).symm
      rintro ⟨-, -, hd, hn⟩
      exact hcb (hs.distinct c b hlock hb hd hn)

theorem Inv.wakeup (hs : Inv s) (hp : s.place p = some b) (hb : (s.buf b).Synced) :
    Inv { s with place := Function.update s.place p none } := by
  have hplace : ∀ q c, Function.update s.place p none q = some c → s.place q = some c := by
    intro q c hq
    by_cases hqp : q = p
    · subst hqp
      rw [Function.update_self] at hq
      cases hq
    · rwa [Function.update_of_ne hqp] at hq
  constructor
  case nodup => exact hs.nodup
  case held => exact fun q c hq => hs.held q c (hplace q c hq)
  case queued =>
    intro c hc
    obtain ⟨hsync, q, hq⟩ := hs.queued c hc
    refine ⟨hsync, q, (Function.update_of_ne ?_ _ _).trans hq⟩
    rintro rfl
    rw [hp] at hq
    exact hsync (Option.some.inj hq ▸ hb)
  case waiting => exact fun q c hq => hs.waiting q c (hplace q c hq)
  case exists_block => exact hs.exists_block
  case distinct => exact hs.distinct
  case active => exact hs.active
  case returns => exact fun q c hq => hs.returns q c (hplace q c hq)

theorem Inv.step {e : Event α} (hs : Inv s) (he : Enabled s e) (hg : ErrorFree s e)
    (h : step s e = .ok t) : Inv t := by
  cases e with
  | bget p b dev blockno =>
    obtain ⟨hlock, hdev, hblock, -, hnew⟩ := he
    cases h
    have hname : ∀ x : Buf α, (if x.dev = dev ∧ x.blockno = blockno then { x with lock := some p }
        else ⟨dev, blockno, false, false, x.data, some p⟩ : Buf α).dev = dev ∧
        (if x.dev = dev ∧ x.blockno = blockno then { x with lock := some p }
        else ⟨dev, blockno, false, false, x.data, some p⟩ : Buf α).blockno = blockno := by
      intro x
      split
      · assumption
      · exact ⟨rfl, rfl⟩
    obtain ⟨hd, hn⟩ := hname (s.buf b)
    refine hs.updateBuf ?_ ?_ ?_
    · intro q hq
      rw [hs.held q b hq] at hlock
      cases hlock
    · intro _
      rw [hd, hn]
      exact ⟨hdev, hblock⟩
    · intro _ c _ hc
      rw [hd, hn]
      exact hnew c hc
  | brelse p b =>
    cases h
    refine hs.updateBuf (hs.not_placed he.1 he.2) ?_ ?_
    · exact fun h => absurd rfl h
    · exact fun h => absurd rfl h
  | store p b data =>
    cases h
    exact hs.write he.1 he.2 rfl rfl
  | setDirty p b =>
    cases h
    exact hs.write he.1 he.2 rfl rfl
  | iderw p b =>
    obtain ⟨hlock, hsync, rfl⟩ := hs.iderw_cases h
    exact hs.requested he hlock hsync
  | ideintr r =>
    cases hq : s.idequeue with
    | nil =>
      simp only [IdeDriver.step, ideintr, hq] at h
      rw [← Except.ok.inj h]
      exact hs
    | cons b rest =>
      rw [IdeDriver.step, hs.ideintr_eq r hq] at h
      rw [← Except.ok.inj h]
      exact hs.answered hq fun hr => hg hr b (by rw [hq]; rfl)
  | wakeup p =>
    cases hp : s.place p with
    | none => exact absurd hp he
    | some b =>
      by_cases hb : (s.buf b).Synced
      · simp only [IdeDriver.step, hp, if_pos hb] at h
        rw [← Except.ok.inj h]
        exact hs.wakeup hp hb
      · simp only [IdeDriver.step, hp, if_neg hb] at h
        rw [← Except.ok.inj h]
        exact hs

/-- A step leaves no stale buffer behind if and only if it is not an error for one. -/
theorem Inv.step_returns_iff {e : Event α} (hs : Inv s) (he : Enabled s e) :
    (∀ t, IdeDriver.step s e = .ok t → ReturnsBlock t) ↔ ErrorFree s e := by
  constructor
  case mpr => exact fun hg t h => (hs.step he hg h).returns
  case mp =>
    intro h
    cases e with
    | ideintr r =>
      intro hr b hb
      cases hq : s.idequeue with
      | nil =>
        rw [hq] at hb
        cases hb
      | cons c rest =>
        rw [hq] at hb
        obtain rfl := Option.some.inj hb
        obtain ⟨⟨hdev, hblock, p, hp⟩, -⟩ := hs.head hq
        have hmatch := h (IdeDriver.answered s c rest r) (hs.ideintr_eq r hq) p c hp (by
          simp only [IdeDriver.answered, Function.update_self]
          exact ⟨rfl, rfl⟩)
        exact (answered_matches_iff rest r hdev hblock).mp hmatch hr
    | bget _ _ _ _ => trivial
    | brelse _ _ => trivial
    | store _ _ _ => trivial
    | setDirty _ _ => trivial
    | iderw _ _ => trivial
    | wakeup _ => trivial

end Steps

/-- iderw returns only with the block in the buffer, in every run in which the disk reports no
error for a buffer that differs from its block, and in no other run. -/
theorem returned_buffers_iff (disk : ℕ → ℕ → α) (zero : α) (havedisk1 : Bool)
    (es : List (Event α)) (h : Along step Enabled (boot disk zero havedisk1) es) :
    Visits step ReturnsBlock (boot disk zero havedisk1) es ↔
      Along step ErrorFree (boot disk zero havedisk1) es :=
  visits_iff (fun _ hs => hs.returns) (fun _ _ hs he => hs.step_returns_iff he)
    (fun _ _ _ hs he hg ht => hs.step he hg ht) (inv_boot disk zero havedisk1) h

instance [DecidableEq α] (s : Driver α) : (e : Event α) → Decidable (ErrorFree s e)
  | .ideintr _ => inferInstanceAs (Decidable (_ → ∀ _, _ → _))
  | .bget _ _ _ _ => .isTrue trivial
  | .brelse _ _ => .isTrue trivial
  | .store _ _ _ => .isTrue trivial
  | .setDirty _ _ => .isTrue trivial
  | .iderw _ _ => .isTrue trivial
  | .wakeup _ => .isTrue trivial

/-- A process reads block 2, changes it and writes it back, and another one reads block 3
meanwhile. -/
def twoUsers : List (Event UInt8) :=
  [.bget 1 0 1 2, .iderw 1 0, .bget 2 1 1 3, .iderw 2 1, .ideintr 0x40, .wakeup 1,
    .store 1 0 fun _ => 9, .setDirty 1 0, .iderw 1 0, .ideintr 0x40, .ideintr 0x40, .wakeup 2]

theorem returned_buffers_two_users :
    Along step Enabled (boot (fun _ n => UInt8.ofNat n) 0 true) twoUsers ∧
      Visits step ReturnsBlock (boot (fun _ n => UInt8.ofNat n) 0 true) twoUsers :=
  ⟨by decide, (returned_buffers_iff _ 0 true twoUsers (by decide)).mpr (by decide)⟩

/-- The disk fails to read block 2, and the buffer of zeros counts as the block. -/
theorem failed_read_returns : ¬∀ (disk : ℕ → ℕ → UInt8) (havedisk1 : Bool)
    (es : List (Event UInt8)), Along step Enabled (boot disk 0 havedisk1) es →
      Visits step ReturnsBlock (boot disk 0 havedisk1) es := by
  intro h
  have hvisits := h (fun _ _ => 7) true [.bget 1 0 1 2, .iderw 1 0, .ideintr 0x41] (by decide)
  obtain ⟨t, ht, hb⟩ := execution_of_map step (boot (fun _ _ => (7 : UInt8)) 0 true)
    [.bget 1 0 1 2, .iderw 1 0, .ideintr 0x41]
    (fun s => decide (s.place 1 = some 0 ∧ (s.buf 0).Synced ∧
      (s.buf 0).data ≠ named s.disk (s.buf 0))) (b := true) (by decide)
  obtain ⟨hp, hsync, hne⟩ := of_decide_eq_true hb
  exact hne (hvisits.last ht 1 0 hp hsync)

end IdeDriver
