import Xv6Gui.InodeCache

/-!
# Dropping the last reference

Processes take references to inodes with iget and idup and drop them with iput. Beside the
state of the code a system records, for each slot, the references that nobody has begun to
drop and whether its inode has been read from disk since it came into the slot, and for each
inode how often it has been freed since it was allocated.
-/
namespace InodeReferences

open InodeCache GuardedRuns

/-- `dropping` holds the slot of a process that has taken its look in `iput`. -/
structure System (P : Type) where
  fs : Fs P
  dropping : P → Option Slot
  held : Slot → ℕ
  loaded : Slot → Bool
  frees : ℕ × ℕ → ℕ

inductive Event (P : Type) where
  | ialloc (dev inum : ℕ) (type : ℤ)
  | iget (dev inum : ℕ)
  | idup (ip : Slot)
  | ilock (p : P) (ip : Slot)
  | iunlock (p : P) (ip : Slot)
  | change (p : P) (ip : Slot) (nlink : ℤ) (size : ℕ) (addrs : Fin (ndirect + 1) → ℕ)
      (used : ℕ → Bool) (indirect : ℕ → Fin nindirect → ℕ)
  | iputLook (p : P) (ip : Slot)
  | iputDrop (p : P)

variable {P : Type}

/-- A process uses a reference that nobody drops, and sleeps while somebody else holds the
lock it asks for. -/
def Enabled (s : System P) : Event P → Prop
  | .ialloc dev inum type => type ≠ 0 ∧ (s.fs.dinode (dev, inum)).type = 0
  | .iget _ _ => True
  | .idup ip => 0 < s.held ip
  | .ilock p ip | .iputLook p ip =>
    s.dropping p = none ∧ 0 < s.held ip ∧ (s.fs.inode ip).lock = none
  | .iunlock p ip | .change p ip _ _ _ _ _ => (s.fs.inode ip).lock = some p
  | .iputDrop p => (s.dropping p).isSome

instance [DecidableEq P] (s : System P) : (e : Event P) → Decidable (Enabled s e)
  | .ialloc _ _ _ | .ilock _ _ | .iputLook _ _ => inferInstanceAs (Decidable (_ ∧ _))
  | .iget _ _ => inferInstanceAs (Decidable True)
  | .idup _ => inferInstanceAs (Decidable (_ < _))
  | .iunlock _ _ | .change _ _ _ _ _ _ _ | .iputDrop _ => inferInstanceAs (Decidable (_ = _))

/-- The look of `iput` finds the last reference to an inode without links. -/
def LastLook (x : Inode P) : Prop := x.valid = true ∧ x.copy.nlink = 0 ∧ x.ref = 1

instance (x : Inode P) : Decidable (LastLook x) := inferInstanceAs (Decidable (_ ∧ _))

def step [DecidableEq P] (s : System P) : Event P → Except Fault (System P)
  | .ialloc dev inum type => .ok { s with
      fs := ialloc s.fs dev inum type
      loaded := fun ip => s.loaded ip && decide ((s.fs.inode ip).key ≠ (dev, inum))
      frees := Function.update s.frees (dev, inum) 0 }
  | .iget dev inum => do
    let (ip, fs) ← iget s.fs dev inum
    return { s with
      fs := fs
      held := Function.update s.held ip (s.held ip + 1)
      loaded := if (s.fs.inode ip).ref = 0 then Function.update s.loaded ip false else s.loaded }
  | .idup ip => .ok { s with
      fs := idup s.fs ip, held := Function.update s.held ip (s.held ip + 1) }
  | .ilock p ip => do
    let fs ← ilock s.fs p ip
    return { s with fs := fs, loaded := Function.update s.loaded ip true }
  | .iunlock _ ip => do
    let fs ← iunlock s.fs ip
    return { s with fs := fs }
  | .change _ ip nlink size addrs used indirect =>
    .ok { s with fs := change s.fs ip nlink size addrs used indirect }
  | .iputLook p ip => do
    let fs ← iputLook s.fs ip
    return { s with
      fs := fs
      dropping := Function.update s.dropping p (some ip)
      held := Function.update s.held ip (s.held ip - 1)
      frees := if LastLook (s.fs.inode ip)
        then Function.update s.frees (s.fs.inode ip).key (s.frees (s.fs.inode ip).key + 1)
        else s.frees }
  | .iputDrop p =>
    match s.dropping p with
    | none => .ok s
    | some ip => .ok { s with
        fs := iputDrop s.fs ip, dropping := Function.update s.dropping p none }

/-- An empty cache over any disk. -/
def start (dinode : ℕ × ℕ → Dinode) (used : ℕ → Bool) (indirect : ℕ → Fin nindirect → ℕ) :
    System P where
  fs := ⟨fun _ => ⟨0, 0, 0, none, false, ⟨0, 0, 0, fun _ => 0⟩⟩, dinode, used, indirect⟩
  dropping _ := none
  held _ := 0
  loaded _ := false
  frees _ := 0

/-- When the count of an inode that has been read and has no links reaches zero, the inode
has been truncated and freed on disk, once. -/
def FreedAtZero (s : System P) : Event P → Prop
  | .iputDrop p => ∀ ip ∈ s.dropping p, (s.fs.inode ip).ref = 1 → s.loaded ip = true →
      (s.fs.inode ip).copy.nlink = 0 →
      Freed (s.fs.dinode (s.fs.inode ip).key) ∧ s.frees (s.fs.inode ip).key = 1
  | _ => True

instance (s : System P) : (e : Event P) → Decidable (FreedAtZero s e)
  | .iputDrop p => inferInstanceAs (Decidable (∀ ip ∈ s.dropping p, _))
  | .ialloc _ _ _ | .iget _ _ | .idup _ | .ilock _ _ | .iunlock _ _ | .change _ _ _ _ _ _ _
  | .iputLook _ _ => inferInstanceAs (Decidable True)

/-- A look that finds an inode without links but other references to it leaves one that
nobody has begun to drop. -/
def LeavesHolder (s : System P) : Event P → Prop
  | .iputLook _ ip => (s.fs.inode ip).valid = true → (s.fs.inode ip).copy.nlink = 0 →
      (s.fs.inode ip).ref ≠ 1 → 2 ≤ s.held ip
  | _ => True

instance (s : System P) : (e : Event P) → Decidable (LeavesHolder s e)
  | .iputLook _ _ => inferInstanceAs (Decidable (_ → _))
  | .ialloc _ _ _ | .iget _ _ | .idup _ | .ilock _ _ | .iunlock _ _ | .change _ _ _ _ _ _ _
  | .iputDrop _ => inferInstanceAs (Decidable True)

/-- Every reference is held or being dropped. -/
def Counted (s : System P) : Prop :=
  ∀ ip, ∃ S : Finset P, (∀ p, p ∈ S ↔ s.dropping p = some ip) ∧
    (s.fs.inode ip).ref = s.held ip + S.card

structure Invariant (s : System P) : Prop where
  counted : Counted s
  unique : ∀ ip jp, 0 < (s.fs.inode ip).ref → 0 < (s.fs.inode jp).ref →
    (s.fs.inode ip).key = (s.fs.inode jp).key → ip = jp
  locked : ∀ ip, (s.fs.inode ip).lock ≠ none → (s.fs.inode ip).valid = true ∧ 0 < s.held ip
  typed : ∀ ip, 0 < (s.fs.inode ip).ref → (s.fs.inode ip).valid = true →
    (s.fs.inode ip).copy.type ≠ 0 ∧ (s.fs.dinode (s.fs.inode ip).key).type ≠ 0 ∧
      s.loaded ip = true
  count : ∀ k, s.frees k = 0 ∨ s.frees k = 1 ∧ Freed (s.fs.dinode k)
  freed : ∀ ip, 0 < (s.fs.inode ip).ref → s.loaded ip = true →
    (s.fs.inode ip).valid = true ∨ s.frees (s.fs.inode ip).key = 1

/-- Somebody still holds every inode in use that has no links. -/
def Kept (s : System P) : Prop := ∀ ip, 0 < (s.fs.inode ip).ref →
  (s.fs.inode ip).valid = true → (s.fs.inode ip).copy.nlink = 0 → 0 < s.held ip

variable {s t : System P} {e : Event P} {p q : P} {ip jp : Slot}

theorem Invariant.ref_pos (h : Invariant s) (hip : 0 < s.held ip) : 0 < (s.fs.inode ip).ref := by
  obtain ⟨S, _, hcard⟩ := h.counted ip
  omega

theorem Invariant.frees_zero (h : Invariant s) (hr : 0 < (s.fs.inode ip).ref)
    (hv : (s.fs.inode ip).valid = true) : s.frees (s.fs.inode ip).key = 0 :=
  (h.count _).resolve_right fun hc => (h.typed ip hr hv).2.1 hc.2.1

theorem start_invariant (dinode : ℕ × ℕ → Dinode) (used : ℕ → Bool)
    (indirect : ℕ → Fin nindirect → ℕ) :
    Invariant (start dinode used indirect : System P) where
  counted ip := ⟨∅, fun p => by simp [start], rfl⟩
  unique ip jp hr := by simp [start] at hr
  locked ip hl := absurd rfl hl
  typed ip hr := by simp [start] at hr
  count k := Or.inl rfl
  freed ip hr := by simp [start] at hr

theorem start_kept (dinode : ℕ × ℕ → Dinode) (used : ℕ → Bool)
    (indirect : ℕ → Fin nindirect → ℕ) : Kept (start dinode used indirect : System P) :=
  fun _ hr => by simp [start] at hr

theorem counted_of (h : Counted s) (hd : t.dropping = s.dropping)
    (hr : ∀ ip, (t.fs.inode ip).ref - t.held ip = (s.fs.inode ip).ref - s.held ip) :
    Counted t := fun ip => by
  obtain ⟨S, hS, hcard⟩ := h ip
  refine ⟨S, fun p => by rw [hd]; exact hS p, ?_⟩
  have := hr ip
  omega

theorem Invariant.others (h : Invariant s) (hr : 0 < (s.fs.inode ip).ref) (jp : Slot)
    (hj : jp ≠ ip) (hr' : 0 < (s.fs.inode jp).ref) :
    (s.fs.inode jp).key ≠ (s.fs.inode ip).key := fun he => hj (h.unique jp ip hr' hr he)

/-- A step that writes one slot and its inode on disk. No other slot in use caches the same
inode, so only the slot itself has to be looked at. -/
theorem Invariant.replace {x : Inode P} (h : Invariant s) (hcounted : Counted t)
    (hinode : t.fs.inode = Function.update s.fs.inode ip x)
    (hothers : ∀ jp, jp ≠ ip → 0 < (s.fs.inode jp).ref → (s.fs.inode jp).key ≠ x.key)
    (hdinode : ∀ k, k ≠ x.key → t.fs.dinode k = s.fs.dinode k)
    (hfrees : ∀ k, k ≠ x.key → t.frees k = s.frees k)
    (hloaded : ∀ jp, jp ≠ ip → t.loaded jp = s.loaded jp)
    (hheld : ∀ jp, jp ≠ ip → t.held jp = s.held jp)
    (hlock : x.lock ≠ none → x.valid = true ∧ 0 < t.held ip)
    (htyped : 0 < x.ref → x.valid = true →
      x.copy.type ≠ 0 ∧ (t.fs.dinode x.key).type ≠ 0 ∧ t.loaded ip = true)
    (hcount : t.frees x.key = 0 ∨ t.frees x.key = 1 ∧ Freed (t.fs.dinode x.key))
    (hfreed : 0 < x.ref → t.loaded ip = true → x.valid = true ∨ t.frees x.key = 1) :
    Invariant t := by
  have hself : t.fs.inode ip = x := by rw [hinode, Function.update_self]
  have hof : ∀ {jp}, jp ≠ ip → t.fs.inode jp = s.fs.inode jp := by
    intro jp hj
    rw [hinode, Function.update_of_ne hj]
  refine ⟨hcounted, ?_, ?_, ?_, ?_, ?_⟩
  · intro jp kp hj hk he
    by_cases hjp : jp = ip <;> by_cases hkp : kp = ip
    · rw [hjp, hkp]
    · rw [hof hkp] at hk he
      rw [hjp, hself] at he
      exact absurd he.symm (hothers kp hkp hk)
    · rw [hof hjp] at hj he
      rw [hkp, hself] at he
      exact absurd he (hothers jp hjp hj)
    · rw [hof hjp] at hj he
      rw [hof hkp] at hk he
      exact h.unique jp kp hj hk he
  · intro jp hl
    by_cases hjp : jp = ip
    · rw [hjp, hself] at hl ⊢
      exact hlock hl
    · rw [hof hjp] at hl ⊢
      rw [hheld jp hjp]
      exact h.locked jp hl
  · intro jp hr hv
    by_cases hjp : jp = ip
    · rw [hjp, hself] at hr hv ⊢
      exact htyped hr hv
    · rw [hof hjp] at hr hv ⊢
      rw [hdinode _ (hothers jp hjp hr), hloaded jp hjp]
      exact h.typed jp hr hv
  · intro k
    by_cases hk : k = x.key
    · rw [hk]
      exact hcount
    · rw [hdinode k hk, hfrees k hk]
      exact h.count k
  · intro jp hr hl
    by_cases hjp : jp = ip
    · rw [hjp, hself] at hr ⊢
      exact hfreed hr (hjp ▸ hl)
    · rw [hof hjp] at hr ⊢
      rw [hfrees _ (hothers jp hjp hr)]
      exact h.freed jp hr (hloaded jp hjp ▸ hl)

/-- A step that writes no more than the count and the lock of a slot in use. -/
theorem Invariant.touch {x : Inode P} (h : Invariant s) (hr : 0 < (s.fs.inode ip).ref)
    (hcounted : Counted t) (hinode : t.fs.inode = Function.update s.fs.inode ip x)
    (hdinode : t.fs.dinode = s.fs.dinode) (hloaded : t.loaded = s.loaded)
    (hfrees : t.frees = s.frees) (hheld : ∀ jp, jp ≠ ip → t.held jp = s.held jp)
    (hkey : x.key = (s.fs.inode ip).key) (hvalid : x.valid = (s.fs.inode ip).valid)
    (hcopy : x.copy = (s.fs.inode ip).copy)
    (hlock : x.lock ≠ none → x.valid = true ∧ 0 < t.held ip) : Invariant t := by
  refine h.replace hcounted hinode (hkey ▸ h.others hr) (fun k _ => by rw [hdinode])
    (fun k _ => by rw [hfrees]) (fun jp _ => by rw [hloaded]) hheld hlock ?_ ?_ ?_
  · intro _ hv
    rw [hcopy, hkey, hdinode, hloaded]
    exact h.typed ip hr (hvalid ▸ hv)
  · rw [hkey, hdinode, hfrees]
    exact h.count _
  · intro _ hl
    rw [hkey, hvalid, hfrees]
    exact h.freed ip hr (hloaded ▸ hl)

theorem ialloc_invariant {dev inum : ℕ} {type : ℤ} (h : Invariant s)
    (hfree : (s.fs.dinode (dev, inum)).type = 0) :
    Invariant { s with
      fs := ialloc s.fs dev inum type
      loaded := fun ip => s.loaded ip && decide ((s.fs.inode ip).key ≠ (dev, inum))
      frees := Function.update s.frees (dev, inum) 0 } := by
  refine ⟨h.counted, h.unique, h.locked, ?_, ?_, ?_⟩
  · intro ip hr hv
    obtain ⟨htype, hdisk, hl⟩ := h.typed ip hr hv
    have hkey : (s.fs.inode ip).key ≠ (dev, inum) := fun hk => hdisk (hk ▸ hfree)
    refine ⟨htype, ?_, ?_⟩
    · change (Function.update s.fs.dinode (dev, inum) _ (s.fs.inode ip).key).type ≠ 0
      rwa [Function.update_of_ne hkey]
    · simp [hl, hkey]
  · intro k
    change Function.update s.frees (dev, inum) 0 k = 0 ∨
      Function.update s.frees (dev, inum) 0 k = 1 ∧
      Freed (Function.update s.fs.dinode (dev, inum) _ k)
    by_cases hk : k = (dev, inum)
    · rw [hk, Function.update_self]
      exact Or.inl rfl
    · rw [Function.update_of_ne hk, Function.update_of_ne hk]
      exact h.count k
  · intro ip hr hl
    obtain ⟨hl, hkey⟩ := Bool.and_eq_true_iff.mp hl
    change (s.fs.inode ip).valid = true ∨
      Function.update s.frees (dev, inum) 0 (s.fs.inode ip).key = 1
    rw [Function.update_of_ne (of_decide_eq_true hkey)]
    exact h.freed ip hr hl

theorem counted_acquire {x : Inode P} {fs : Fs P} {loaded : Slot → Bool} (h : Counted s)
    (hinode : fs.inode = Function.update s.fs.inode ip x)
    (href : x.ref = (s.fs.inode ip).ref + 1) :
    Counted { s with
      fs := fs, held := Function.update s.held ip (s.held ip + 1), loaded := loaded } := by
  refine counted_of h rfl ?_
  intro jp
  change (fs.inode jp).ref - ((Function.update s.held ip (s.held ip + 1) jp : ℕ) : ℤ) = _
  by_cases hj : jp = ip
  · rw [hinode, hj, Function.update_self, Function.update_self, href]
    push_cast
    omega
  · rw [hinode, Function.update_of_ne hj, Function.update_of_ne hj]

theorem held_acquired (held : Slot → ℕ) (ip : Slot) :
    0 < Function.update held ip (held ip + 1) ip := by
  rw [Function.update_self]
  exact Nat.succ_pos _

theorem idup_invariant (h : Invariant s) (hip : 0 < s.held ip) :
    Invariant { s with
      fs := idup s.fs ip, held := Function.update s.held ip (s.held ip + 1) } := by
  exact h.touch (h.ref_pos hip) (counted_acquire h.counted rfl rfl) rfl rfl rfl rfl
    (fun jp hj => Function.update_of_ne hj _ _) rfl rfl rfl fun hl =>
    ⟨(h.locked ip hl).1, held_acquired s.held ip⟩

theorem iget_invariant {dev inum : ℕ} {fs : Fs P} (h : Invariant s)
    (ht : iget s.fs dev inum = .ok (ip, fs)) :
    Invariant { s with
      fs := fs
      held := Function.update s.held ip (s.held ip + 1)
      loaded := if (s.fs.inode ip).ref = 0
        then Function.update s.loaded ip false else s.loaded } := by
  simp only [iget] at ht
  split at ht
  · next jp hc =>
    cases ht
    obtain ⟨hr, _⟩ := cached_some hc
    rw [if_neg hr.ne']
    exact h.touch hr (counted_acquire h.counted rfl rfl) rfl rfl rfl rfl
      (fun jp hj => Function.update_of_ne hj _ _) rfl rfl rfl fun hl =>
      ⟨(h.locked ip hl).1, held_acquired s.held ip⟩
  · next hc =>
    split at ht
    · cases ht
    · next jp he =>
      cases ht
      have hzero := emptySlot_some he
      rw [if_pos hzero]
      refine h.replace (counted_acquire h.counted rfl (by rw [hzero]; rfl)) rfl
        (fun jp _ hr => cached_none hc hr) (fun _ _ => rfl) (fun _ _ => rfl)
        (fun jp hj => Function.update_of_ne hj _ _) (fun jp hj => Function.update_of_ne hj _ _)
        (fun hl => ?_) (fun _ hv => by cases hv) (h.count _) fun _ hl => ?_
      · have := h.ref_pos (h.locked ip hl).2
        omega
      · dsimp only at hl
        rw [Function.update_self] at hl
        cases hl

theorem counted_write {x : Inode P} {fs : Fs P} {loaded : Slot → Bool} (h : Counted s)
    (hinode : fs.inode = Function.update s.fs.inode ip x) (href : x.ref = (s.fs.inode ip).ref) :
    Counted { s with fs := fs, loaded := loaded } := by
  refine counted_of h rfl ?_
  intro jp
  change (fs.inode jp).ref - (s.held jp : ℤ) = _
  by_cases hj : jp = ip
  · rw [hinode, hj, Function.update_self, href]
  · rw [hinode, Function.update_of_ne hj]

theorem ilock_invariant {fs : Fs P} (h : Invariant s) (hip : 0 < s.held ip)
    (ht : ilock s.fs p ip = .ok fs) :
    Invariant { s with fs := fs, loaded := Function.update s.loaded ip true } := by
  have hr := h.ref_pos hip
  simp only [ilock] at ht
  split at ht
  · cases ht
  · split at ht
    · next hv =>
      cases ht
      rw [show Function.update s.loaded ip true = s.loaded by
        rw [← (h.typed ip hr hv).2.2, Function.update_eq_self]]
      exact h.touch hr (counted_write h.counted rfl rfl) rfl rfl rfl rfl (fun _ _ => rfl) rfl rfl
        rfl fun _ => ⟨hv, hip⟩
    · split at ht
      · cases ht
      · next htype =>
        cases ht
        exact h.replace (counted_write h.counted rfl rfl) rfl (h.others hr) (fun _ _ => rfl)
          (fun _ _ => rfl) (fun jp hj => Function.update_of_ne hj _ _) (fun _ _ => rfl)
          (fun _ => ⟨rfl, hip⟩) (fun _ _ => ⟨htype, htype, Function.update_self _ _ _⟩)
          (h.count _) fun _ _ => Or.inl rfl

theorem iunlock_invariant {fs : Fs P} (h : Invariant s) (hl : (s.fs.inode ip).lock ≠ none)
    (ht : iunlock s.fs ip = .ok fs) : Invariant { s with fs := fs } := by
  have hr := h.ref_pos (h.locked ip hl).2
  simp only [iunlock] at ht
  split at ht
  · cases ht
  · cases ht
    exact h.touch hr (counted_write h.counted rfl rfl) rfl rfl rfl rfl (fun _ _ => rfl) rfl rfl rfl
      fun hn => absurd rfl hn

theorem change_invariant {nlink : ℤ} {size : ℕ} {addrs : Fin (ndirect + 1) → ℕ}
    {used : ℕ → Bool} {indirect : ℕ → Fin nindirect → ℕ} (h : Invariant s)
    (hl : (s.fs.inode ip).lock ≠ none) :
    Invariant { s with fs := change s.fs ip nlink size addrs used indirect } := by
  obtain ⟨hv, hip⟩ := h.locked ip hl
  have hr := h.ref_pos hip
  obtain ⟨htype, _, hloaded⟩ := h.typed ip hr hv
  have hdinode : (change s.fs ip nlink size addrs used indirect).dinode =
      Function.update s.fs.dinode (s.fs.inode ip).key
        { (s.fs.inode ip).copy with nlink := nlink, size := size, addrs := addrs } := by
    simp [change, iupdate, Fs.setInode, Inode.key]
  refine h.replace (x := { s.fs.inode ip with
      copy := { (s.fs.inode ip).copy with nlink := nlink, size := size, addrs := addrs } })
    (counted_write h.counted rfl rfl) rfl (h.others hr) (fun k hk => ?_) (fun _ _ => rfl)
    (fun _ _ => rfl) (fun _ _ => rfl) (fun _ => ⟨hv, hip⟩) (fun _ _ => ⟨htype, ?_, hloaded⟩)
    (Or.inl (h.frees_zero hr hv)) fun _ _ => Or.inl hv
  · change (change s.fs ip nlink size addrs used indirect).dinode k = s.fs.dinode k
    rw [hdinode]
    exact Function.update_of_ne hk _ _
  · change ((change s.fs ip nlink size addrs used indirect).dinode (s.fs.inode ip).key).type ≠ 0
    rw [hdinode, Function.update_self]
    exact htype

theorem counted_look {fs : Fs P} {loaded : Slot → Bool} {frees : ℕ × ℕ → ℕ} [DecidableEq P]
    (h : Counted s) (hp : s.dropping p = none) (hip : 0 < s.held ip)
    (href : ∀ jp, (fs.inode jp).ref = (s.fs.inode jp).ref) :
    Counted (P := P) ⟨fs, Function.update s.dropping p (some ip),
      Function.update s.held ip (s.held ip - 1), loaded, frees⟩ := fun jp => by
  obtain ⟨S, hS, hcard⟩ := h jp
  have hnot : p ∉ S := by
    intro hm
    rw [hS, hp] at hm
    cases hm
  by_cases hj : jp = ip
  · refine ⟨insert p S, ?_, ?_⟩
    · intro q
      rw [Finset.mem_insert, hS]
      by_cases hq : q = p
      · simp [hq, hj]
      · simp [hq]
    · dsimp only
      rw [href, hj, Function.update_self, Finset.card_insert_of_notMem hnot, ← hj, hcard]
      rw [hj] at hcard ⊢
      omega
  · refine ⟨S, ?_, ?_⟩
    · intro q
      rw [hS]
      by_cases hq : q = p
      · simp [hq, hp, Ne.symm hj]
      · simp [hq]
    · dsimp only
      rw [href, Function.update_of_ne hj, hcard]

theorem counted_drop [DecidableEq P] (h : Counted s) (hp : s.dropping p = some ip) :
    Counted { s with
      fs := iputDrop s.fs ip, dropping := Function.update s.dropping p none } := fun jp => by
  obtain ⟨S, hS, hcard⟩ := h jp
  by_cases hj : jp = ip
  · have hmem : p ∈ S := (hS p).mpr (hj ▸ hp)
    have hpos := Finset.card_pos.mpr ⟨p, hmem⟩
    refine ⟨S.erase p, ?_, ?_⟩
    · intro q
      rw [Finset.mem_erase, hS]
      by_cases hq : q = p
      · simp [hq]
      · simp [hq]
    · rw [Finset.card_erase_of_mem hmem]
      subst hj
      change ((s.fs.setInode jp _).inode jp).ref = _
      rw [setInode_self]
      dsimp only
      omega
  · refine ⟨S, ?_, ?_⟩
    · intro q
      rw [hS]
      by_cases hq : q = p
      · simp [hq, hp, Ne.symm hj]
      · simp [hq]
    · change ((s.fs.setInode ip _).inode jp).ref = _
      rw [setInode_of_ne hj]
      exact hcard

variable [DecidableEq P]

theorem look_invariant {fs : Fs P} (h : Invariant s) (hp : s.dropping p = none)
    (hip : 0 < s.held ip) (hl : (s.fs.inode ip).lock = none) (ht : iputLook s.fs ip = .ok fs) :
    Invariant { s with
      fs := fs
      dropping := Function.update s.dropping p (some ip)
      held := Function.update s.held ip (s.held ip - 1)
      frees := if LastLook (s.fs.inode ip)
        then Function.update s.frees (s.fs.inode ip).key (s.frees (s.fs.inode ip).key + 1)
        else s.frees } := by
  have hr := h.ref_pos hip
  rcases iputLook_ok ht with ⟨hlast, hfree⟩ | ⟨hnot, rfl⟩
  · obtain ⟨d, hd, _, hinode, hdinode⟩ := free_ok hfree
    rw [if_pos (show LastLook (s.fs.inode ip) from hlast)]
    have href : ∀ jp, (fs.inode jp).ref = (s.fs.inode jp).ref := by
      intro jp
      by_cases hj : jp = ip
      · rw [hinode, hj, Function.update_self]
      · rw [hinode, Function.update_of_ne hj]
    refine h.replace (counted_look h.counted hp hip href) hinode (h.others hr) ?_
      (fun k hk => Function.update_of_ne hk _ _) (fun _ _ => rfl)
      (fun jp hj => Function.update_of_ne hj _ _) (fun hn => absurd hl hn)
      (fun _ hv => by cases hv) (Or.inr ⟨?_, ?_⟩) fun _ _ => Or.inr ?_
    · intro k hk
      dsimp only
      rw [hdinode]
      exact Function.update_of_ne hk _ _
    · change Function.update s.frees (s.fs.inode ip).key _ (s.fs.inode ip).key = 1
      rw [Function.update_self, h.frees_zero hr hlast.1]
    · change Freed (fs.dinode (s.fs.inode ip).key)
      rw [hdinode, Function.update_self]
      exact hd
    · change Function.update s.frees (s.fs.inode ip).key _ (s.fs.inode ip).key = 1
      rw [Function.update_self, h.frees_zero hr hlast.1]
  · rw [if_neg (show ¬LastLook (s.fs.inode ip) from hnot)]
    exact h.touch hr (counted_look h.counted hp hip fun _ => rfl)
      (Function.update_eq_self _ _).symm rfl rfl rfl (fun jp hj => Function.update_of_ne hj _ _)
      rfl rfl rfl fun hn => absurd hl hn

omit [DecidableEq P] in
theorem Counted.ref_pos (h : Counted s) (hp : s.dropping p = some ip) :
    s.held ip + 1 ≤ (s.fs.inode ip).ref := by
  obtain ⟨S, hS, hcard⟩ := h ip
  have := Finset.card_pos.mpr ⟨p, (hS p).mpr hp⟩
  omega

theorem drop_invariant (h : Invariant s) (hp : s.dropping p = some ip) :
    Invariant { s with
      fs := iputDrop s.fs ip, dropping := Function.update s.dropping p none } := by
  have hpos := h.counted.ref_pos hp
  exact h.touch (by omega) (counted_drop h.counted hp) rfl rfl rfl rfl (fun _ _ => rfl) rfl rfl rfl
    (h.locked ip)

theorem step_invariant (h : Invariant s) (he : Enabled s e) (ht : step s e = .ok t) :
    Invariant t := by
  cases e with
  | ialloc dev inum type =>
    cases ht
    exact ialloc_invariant h he.2
  | iget dev inum =>
    obtain ⟨⟨ip, fs⟩, hf, ht⟩ := bind_eq_ok.mp ht
    cases ht
    exact iget_invariant h hf
  | idup ip =>
    cases ht
    exact idup_invariant h he
  | ilock p ip =>
    obtain ⟨fs, hf, ht⟩ := bind_eq_ok.mp ht
    cases ht
    exact ilock_invariant h he.2.1 hf
  | iunlock p ip =>
    obtain ⟨fs, hf, ht⟩ := bind_eq_ok.mp ht
    cases ht
    exact iunlock_invariant h (ne_of_eq_of_ne he (Option.some_ne_none p)) hf
  | change p ip nlink size addrs used indirect =>
    cases ht
    exact change_invariant h (ne_of_eq_of_ne he (Option.some_ne_none p))
  | iputLook p ip =>
    obtain ⟨fs, hf, ht⟩ := bind_eq_ok.mp ht
    cases ht
    exact look_invariant h he.1 he.2.1 he.2.2 hf
  | iputDrop p =>
    obtain ⟨ip, hp⟩ := Option.isSome_iff_exists.mp he
    simp only [step, hp] at ht
    cases ht
    exact drop_invariant h hp

omit [DecidableEq P] in
theorem Kept.update {x : Inode P} (hk : Kept s)
    (hinode : t.fs.inode = Function.update s.fs.inode ip x)
    (hheld : ∀ jp, jp ≠ ip → t.held jp = s.held jp)
    (hip : 0 < x.ref → x.valid = true → x.copy.nlink = 0 → 0 < t.held ip) : Kept t := by
  intro jp hr hv hn
  rw [hinode] at hr hv hn
  by_cases hj : jp = ip
  · rw [hj, Function.update_self] at hr hv hn
    rw [hj]
    exact hip hr hv hn
  · rw [Function.update_of_ne hj] at hr hv hn
    rw [hheld jp hj]
    exact hk jp hr hv hn

/-- Only iput can leave an unlinked inode with references that are all being dropped. -/
theorem step_kept (h : Invariant s) (hk : Kept s) (he : Enabled s e) (hg : LeavesHolder s e)
    (ht : step s e = .ok t) : Kept t := by
  cases e with
  | ialloc dev inum type =>
    cases ht
    exact hk
  | iget dev inum =>
    obtain ⟨⟨ip, fs⟩, hf, ht⟩ := bind_eq_ok.mp ht
    cases ht
    obtain ⟨x, hx⟩ := iget_inode hf
    exact hk.update hx (fun jp hj => Function.update_of_ne hj _ _)
      fun _ _ _ => held_acquired s.held ip
  | idup ip =>
    cases ht
    exact hk.update rfl (fun jp hj => Function.update_of_ne hj _ _)
      fun _ _ _ => held_acquired s.held ip
  | ilock p ip =>
    obtain ⟨fs, hf, ht⟩ := bind_eq_ok.mp ht
    cases ht
    obtain ⟨x, hx⟩ := ilock_inode hf
    exact hk.update hx (fun _ _ => rfl) fun _ _ _ => he.2.1
  | iunlock p ip =>
    obtain ⟨fs, hf, ht⟩ := bind_eq_ok.mp ht
    cases ht
    obtain ⟨x, hx⟩ := iunlock_inode hf
    exact hk.update hx (fun _ _ => rfl) fun _ _ _ =>
      (h.locked ip (ne_of_eq_of_ne he (Option.some_ne_none p))).2
  | change p ip nlink size addrs used indirect =>
    cases ht
    exact hk.update rfl (fun _ _ => rfl) fun _ _ _ =>
      (h.locked ip (ne_of_eq_of_ne he (Option.some_ne_none p))).2
  | iputLook p ip =>
    obtain ⟨fs, hf, ht⟩ := bind_eq_ok.mp ht
    cases ht
    rcases iputLook_ok hf with ⟨_, hfree⟩ | ⟨hnot, rfl⟩
    · obtain ⟨d, _, _, hinode, _⟩ := free_ok hfree
      exact hk.update hinode (fun jp hj => Function.update_of_ne hj _ _) fun _ hv => by cases hv
    · refine hk.update (Function.update_eq_self ip _).symm
        (fun jp hj => Function.update_of_ne hj _ _) ?_
      intro _ hv hn
      have htwo := hg hv hn fun hone => hnot ⟨hv, hn, hone⟩
      dsimp only
      rw [Function.update_self]
      omega
  | iputDrop p =>
    obtain ⟨ip, hp⟩ := Option.isSome_iff_exists.mp he
    simp only [step, hp] at ht
    cases ht
    have hpos := h.counted.ref_pos hp
    exact hk.update rfl (fun _ _ => rfl) fun _ hv hn => hk ip (by omega) hv hn

omit [DecidableEq P] in
theorem freedAtZero_of (h : Invariant s) (hk : Kept s) (e : Event P) : FreedAtZero s e := by
  cases e with
  | iputDrop p =>
    intro ip hp hone hloaded hn
    have hpos := h.counted.ref_pos hp
    have hr : 0 < (s.fs.inode ip).ref := by omega
    have hfrees : s.frees (s.fs.inode ip).key = 1 :=
      (h.freed ip hr hloaded).resolve_left fun hv => by
        have := hk ip hr hv hn
        omega
    exact ⟨((h.count _).resolve_left (by omega)).2, hfrees⟩
  | _ => trivial

theorem execution_start_invariant {dinode : ℕ × ℕ → Dinode} {used : ℕ → Bool}
    {indirect : ℕ → Fin nindirect → ℕ} {events : List (Event P)}
    (hs : Execution step (start dinode used indirect) events s)
    (he : Along step Enabled (start dinode used indirect) events) : Invariant s :=
  (visits_of_invariant (fun _ h => h) (fun _ _ _ => step_invariant)
    (start_invariant dinode used indirect) he).last hs

/-- Once nobody holds an unlinked inode, the drops that are under way take its count to zero
without freeing it. By induction on the references. -/
theorem drops_lose (n : ℕ) (h : Invariant s) (hheld : s.held ip = 0)
    (hv : (s.fs.inode ip).valid = true) (hn : (s.fs.inode ip).copy.nlink = 0)
    (hr : (s.fs.inode ip).ref = n + 1) :
    ∃ drops : List (Event P), (∀ d ∈ drops, ∃ p, d = .iputDrop p) ∧
      Along step Enabled s drops ∧ ¬Along step FreedAtZero s drops := by
  induction n generalizing s with
  | zero =>
    obtain ⟨S, hS, hcard⟩ := h.counted ip
    obtain ⟨p, hp⟩ : S.Nonempty := Finset.card_pos.mp (by push_cast at hr; omega)
    have hdrop := (hS p).mp hp
    refine ⟨[.iputDrop p], by simp, ⟨by simp [Enabled, hdrop], fun _ _ => trivial⟩, ?_⟩
    rintro ⟨hzero, _⟩
    have hpos : 0 < (s.fs.inode ip).ref := by omega
    have hone := (hzero ip hdrop (by simpa using hr) (h.typed ip hpos hv).2.2 hn).2
    rw [h.frees_zero hpos hv] at hone
    cases hone
  | succ n ih =>
    obtain ⟨S, hS, hcard⟩ := h.counted ip
    obtain ⟨p, hp⟩ : S.Nonempty := Finset.card_pos.mp (by push_cast at hr; omega)
    have hdrop := (hS p).mp hp
    have hstep : step s (.iputDrop p) = .ok { s with
        fs := iputDrop s.fs ip, dropping := Function.update s.dropping p none } := by
      simp only [step, hdrop]
    have hself : (iputDrop s.fs ip).inode ip =
        { s.fs.inode ip with ref := (s.fs.inode ip).ref - 1 } := Function.update_self _ _ _
    obtain ⟨drops, hdrops, henabled, hlost⟩ := ih (drop_invariant h hdrop) hheld
      (by rw [hself]; exact hv) (by rw [hself]; exact hn)
      (by rw [hself]; push_cast at hr; dsimp only; omega)
    refine ⟨.iputDrop p :: drops, by simpa using hdrops, ⟨by simp [Enabled, hdrop], ?_⟩, ?_⟩
    · intro t ht
      cases hstep.symm.trans ht
      exact henabled
    · exact fun hall => hlost (hall.2 _ hstep)

theorem lone_look_loses (h : Invariant s) (he : Enabled s e) (hg : ¬LeavesHolder s e) :
    ∃ drops : List (Event P), (∀ d ∈ drops, ∃ p, d = .iputDrop p) ∧
      Along step Enabled s (e :: drops) ∧ ¬Along step FreedAtZero s (e :: drops) := by
  cases e with
  | iputLook p ip =>
    simp only [LeavesHolder] at hg
    push Not at hg
    obtain ⟨hv, hn, hone, htwo⟩ := hg
    have hlook : iputLook s.fs ip = .ok s.fs := by simp [iputLook, hv, hn, hone]
    have hstep : ∃ t, step s (.iputLook p ip) = .ok t ∧ t.fs = s.fs ∧
        t.held = Function.update s.held ip (s.held ip - 1) := by
      simp only [step, hlook, ok_bind, pure_eq_ok]
      exact ⟨_, rfl, rfl, rfl⟩
    obtain ⟨t, ht, hfs, hheld⟩ := hstep
    have hr := h.ref_pos he.2.1
    obtain ⟨drops, hdrops, henabled, hlost⟩ :=
      drops_lose ((s.fs.inode ip).ref - 1).toNat (step_invariant h he ht)
        (by rw [hheld, Function.update_self]; omega) (hfs ▸ hv) (hfs ▸ hn) (by rw [hfs]; omega)
    refine ⟨drops, hdrops, ⟨he, ?_⟩, fun hall => hlost (hall.2 _ ht)⟩
    intro u hu
    cases ht.symm.trans hu
    exact henabled
  | _ => exact absurd trivial hg

/-- An unlinked inode is freed when its count reaches zero, in every run in which no iput
sees other references that are all being dropped; and from any iput that does, the drops
alone lead to a count of zero without a free. -/
theorem freed_at_zero (dinode : ℕ × ℕ → Dinode) (used : ℕ → Bool)
    (indirect : ℕ → Fin nindirect → ℕ) :
    (∀ events : List (Event P), Along step Enabled (start dinode used indirect) events →
      Along step LeavesHolder (start dinode used indirect) events →
      Along step FreedAtZero (start dinode used indirect) events) ∧
    ∀ (events : List (Event P)) (e : Event P) (s : System P),
      Along step Enabled (start dinode used indirect) (events ++ [e]) →
      Execution step (start dinode used indirect) events s → ¬LeavesHolder s e →
      ∃ drops : List (Event P), (∀ d ∈ drops, ∃ p, d = .iputDrop p) ∧
        Along step Enabled (start dinode used indirect) (events ++ e :: drops) ∧
        ¬Along step FreedAtZero (start dinode used indirect) (events ++ e :: drops) := by
  constructor
  · intro events he hg
    have hinv : Invariant (start dinode used indirect : System P) ∧
        Kept (start dinode used indirect : System P) :=
      ⟨start_invariant dinode used indirect, start_kept dinode used indirect⟩
    have hstep : ∀ (s : System P) e t, Invariant s ∧ Kept s → Enabled s e ∧ LeavesHolder s e →
        step s e = .ok t → Invariant t ∧ Kept t := fun s e t h hk ht =>
      ⟨step_invariant h.1 hk.1 ht, step_kept h.1 h.2 hk.1 hk.2 ht⟩
    exact along_of_invariant (fun s e h _ => freedAtZero_of h.1 h.2 e) hstep hinv (he.and hg)
  · intro events e s he hs hg
    obtain ⟨drops, hdrops, henabled, hlost⟩ :=
      lone_look_loses (execution_start_invariant hs he.left) (he.reached hs) hg
    refine ⟨drops, hdrops, he.left.append ?_, fun hall => hlost (hall.right hs)⟩
    intro t ht
    cases ht.unique hs
    exact henabled

def oneFile : System (Fin 2) := start (fun _ => ⟨1, 1, 0, fun _ => 0⟩) (fun _ => false) fun _ _ => 0

/-- Two references to inode 5, which is then unlinked. -/
def unlinkShared : List (Event (Fin 2)) :=
  [.iget 1 5, .idup 0, .ilock 0 0, .change 0 0 0 0 (fun _ => 0) (fun _ => false) fun _ _ => 0,
    .iunlock 0 0]

theorem freed_at_zero_in_turn :
    Along step FreedAtZero oneFile
      (unlinkShared ++ [.iputLook 0 0, .iputDrop 0, .iputLook 1 0, .iputDrop 1]) :=
  (freed_at_zero _ _ _).1 _ (by decide +kernel) (by decide +kernel)

/-- Both iputs look before either of them drops. -/
def looksThenDrops : List (Event (Fin 2)) :=
  unlinkShared ++ [.iputLook 0 0, .iputLook 1 0, .iputDrop 0, .iputDrop 1]

theorem both_look_first :
    ¬∀ (P : Type) [DecidableEq P] (dinode : ℕ × ℕ → Dinode) (used : ℕ → Bool)
      (indirect : ℕ → Fin nindirect → ℕ) (events : List (Event P)),
      Along step Enabled (start dinode used indirect) events →
      Along step FreedAtZero (start dinode used indirect) events := by
  intro h
  obtain ⟨henabled, hlost⟩ :
      Along step Enabled oneFile looksThenDrops ∧
      ¬Along step FreedAtZero oneFile looksThenDrops := by
    decide +kernel
  exact hlost (h (Fin 2) _ _ _ _ henabled)

end InodeReferences
