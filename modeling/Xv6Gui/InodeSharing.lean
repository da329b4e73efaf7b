import Xv6Gui.InodeCache

/-!
# One slot for each inode

Critical sections of iget, idup and iput in any order, and between them whatever the holders of
inode locks write to the other fields and to the disk. A system counts, for each slot, the
references that have been handed out and those that have been dropped.
-/
namespace InodeSharing

open InodeCache GuardedRuns

variable {P : Type}

/-- The loop of `iget` over the slots, with the empty slot that it remembers. -/
def igetLoop (s : Fs P) (dev inum : ℕ) :
    List Slot → Option Slot → Except Fault (Slot × Fs P)
  | ip :: l, empty =>
    let x := s.inode ip
    if x.ref > 0 ∧ x.dev = dev ∧ x.inum = inum then
      .ok (ip, s.setInode ip { x with ref := x.ref + 1 })
    else igetLoop s dev inum l (if empty = none ∧ x.ref = 0 then some ip else empty)
  | [], none => .error (.panic "iget: no inodes")
  | [], some ip =>
    .ok (ip, s.setInode ip { s.inode ip with dev := dev, inum := inum, ref := 1, valid := false })

structure System (P : Type) where
  fs : Fs P
  handed : Slot → ℕ
  dropped : Slot → ℕ

/-- `other` is a section that leaves `dev`, `inum` and `ref` of all slots alone. -/
inductive Event (P : Type) where
  | iget (dev inum : ℕ)
  | idup (ip : Slot)
  | iput (ip : Slot)
  | other (ip : Slot) (lock : Option P) (valid : Bool) (copy : Dinode) (dinode : ℕ × ℕ → Dinode)
      (used : ℕ → Bool) (indirect : ℕ → Fin nindirect → ℕ)

def step (s : System P) : Event P → Except Fault (System P)
  | .iget dev inum =>
    igetLoop s.fs dev inum (List.finRange ninode) none >>= fun r =>
      .ok { s with fs := r.2, handed := Function.update s.handed r.1 (s.handed r.1 + 1) }
  | .idup ip =>
    .ok { s with fs := idup s.fs ip, handed := Function.update s.handed ip (s.handed ip + 1) }
  | .iput ip =>
    .ok { s with
      fs := iputDrop s.fs ip, dropped := Function.update s.dropped ip (s.dropped ip + 1) }
  | .other ip lock valid copy dinode used indirect =>
    let x := { s.fs.inode ip with lock := lock, valid := valid, copy := copy }
    .ok { s with fs := ⟨Function.update s.fs.inode ip x, dinode, used, indirect⟩ }

/-- Only references that have not been dropped are copied or dropped. -/
def Enabled (s : System P) : Event P → Prop
  | .idup ip | .iput ip => s.dropped ip < s.handed ip
  | .iget _ _ | .other _ _ _ _ _ _ _ => True

instance (s : System P) : DecidablePred (Enabled s)
  | .idup _ | .iput _ => inferInstanceAs (Decidable (_ < _))
  | .iget _ _ | .other _ _ _ _ _ _ _ => inferInstanceAs (Decidable True)

/-- An empty cache over any disk. -/
def start (dinode : ℕ × ℕ → Dinode) (used : ℕ → Bool) (indirect : ℕ → Fin nindirect → ℕ) :
    System P :=
  ⟨⟨fun _ => ⟨0, 0, 0, none, false, ⟨0, 0, 0, fun _ => 0⟩⟩, dinode, used, indirect⟩,
    fun _ => 0, fun _ => 0⟩

/-- Slots in use cache different inodes. -/
def Unique (s : Fs P) : Prop :=
  ∀ ip jp, 0 < (s.inode ip).ref → 0 < (s.inode jp).ref →
    (s.inode ip).key = (s.inode jp).key → ip = jp

structure Consistent (s : System P) : Prop where
  unique : Unique s.fs
  counted : ∀ ip, (s.fs.inode ip).ref = s.handed ip - s.dropped ip

/-- `iget` gives a slot another identity or clears `valid` only while nobody refers to it. -/
def RecyclesFree (s : System P) : Event P → Prop
  | .iget dev inum => ∀ t, step s (.iget dev inum) = .ok t → ∀ ip,
      ((t.fs.inode ip).key ≠ (s.fs.inode ip).key ∨
        (s.fs.inode ip).valid = true ∧ (t.fs.inode ip).valid = false) →
      (s.fs.inode ip).ref = 0
  | .idup _ | .iput _ | .other _ _ _ _ _ _ _ => True

variable {s t : System P} {fs fs' : Fs P} {e : Event P} {ip jp : Slot} {dev inum : ℕ}
  {l : List Slot} {empty : Option Slot}

section Scan

/-- The loop looks for the identity and for an empty slot at once. -/
theorem igetLoop_eq (fs : Fs P) (dev inum : ℕ) (l : List Slot) (empty : Option Slot) :
    igetLoop fs dev inum l empty =
      match l.find? fun ip => decide ((fs.inode ip).ref > 0 ∧ (fs.inode ip).dev = dev ∧
          (fs.inode ip).inum = inum) with
      | some ip => .ok (ip, fs.setInode ip { fs.inode ip with ref := (fs.inode ip).ref + 1 })
      | none =>
        match empty.or (l.find? fun ip => decide ((fs.inode ip).ref = 0)) with
        | none => .error (.panic "iget: no inodes")
        | some ip => .ok (ip, fs.setInode ip
            { fs.inode ip with dev := dev, inum := inum, ref := 1, valid := false }) := by
  induction l generalizing empty with
  | nil => cases empty <;> rfl
  | cons ip l ih =>
    rw [igetLoop, List.find?_cons, List.find?_cons]
    by_cases hhit : (fs.inode ip).ref > 0 ∧ (fs.inode ip).dev = dev ∧ (fs.inode ip).inum = inum
    case pos => rw [if_pos hhit, decide_eq_true hhit]
    case neg =>
      rw [if_neg hhit, decide_eq_false hhit, ih]
      by_cases hfree : (fs.inode ip).ref = 0
      case pos =>
        rw [decide_eq_true hfree]
        cases empty with
        | none => simp only [hfree, and_self, if_true, Option.none_or, Option.some_or]
        | some jp => simp only [reduceCtorEq, false_and, if_false, Option.some_or]
      case neg => rw [decide_eq_false hfree, if_neg fun h => hfree h.2]

theorem igetLoop_iget (fs : Fs P) (dev inum : ℕ) :
    igetLoop fs dev inum (List.finRange ninode) none = iget fs dev inum := by
  rw [igetLoop_eq]
  rfl

/-- A call counts a reference in the slot of the inode, or takes a slot that is free. -/
theorem iget_cases (h : iget fs dev inum = .ok (ip, fs')) :
    (0 < (fs.inode ip).ref ∧
      fs' = fs.setInode ip { fs.inode ip with ref := (fs.inode ip).ref + 1 }) ∨
    (fs.inode ip).ref = 0 ∧
      (∀ jp, 0 < (fs.inode jp).ref → (fs.inode jp).key ≠ (dev, inum)) ∧
      fs' = fs.setInode ip
        { fs.inode ip with dev := dev, inum := inum, ref := 1, valid := false } := by
  rw [iget] at h
  cases hc : cached fs dev inum with
  | some jp =>
    rw [hc] at h
    cases h
    exact .inl ⟨(cached_some hc).1, rfl⟩
  | none =>
    rw [hc] at h
    cases hempty : emptySlot fs with
    | none =>
      rw [hempty] at h
      cases h
    | some jp =>
      rw [hempty] at h
      cases h
      exact .inr ⟨emptySlot_some hempty, fun kp hr => cached_none hc hr, rfl⟩

end Scan

section Steps

/-- A slot is written; its identity is not that of another slot in use. -/
theorem Unique.update {x : Inode P} (h : Unique fs)
    (hinode : fs'.inode = Function.update fs.inode ip x)
    (hothers : 0 < x.ref → ∀ jp, jp ≠ ip → 0 < (fs.inode jp).ref → (fs.inode jp).key ≠ x.key) :
    Unique fs' := by
  intro jp kp hj hk hkey
  rw [hinode] at hj hk hkey
  by_cases hjp : jp = ip
  case pos =>
    by_cases hkp : kp = ip
    · rw [hjp, hkp]
    · rw [hjp, Function.update_self] at hj hkey
      rw [Function.update_of_ne hkp] at hk hkey
      exact absurd hkey.symm (hothers hj kp hkp hk)
  case neg =>
    rw [Function.update_of_ne hjp] at hj hkey
    by_cases hkp : kp = ip
    · rw [hkp, Function.update_self] at hk hkey
      exact absurd hkey (hothers hk jp hjp hj)
    · rw [Function.update_of_ne hkp] at hk hkey
      exact h jp kp hj hk hkey

/-- The identity of the slot stays, and it was in use if it is now. -/
theorem Unique.keep {x : Inode P} (h : Unique fs)
    (hinode : fs'.inode = Function.update fs.inode ip x) (hkey : x.key = (fs.inode ip).key)
    (hr : 0 < x.ref → 0 < (fs.inode ip).ref) : Unique fs' := by
  refine h.update hinode ?_
  intro hx jp hne hj hsame
  exact hne (h jp ip hj (hr hx) (hsame.trans hkey))

/-- A step changes one count, as it changes the number of references. -/
theorem counted_update {x : Inode P} {handed dropped : Slot → ℕ}
    (h : ∀ ip, (s.fs.inode ip).ref = s.handed ip - s.dropped ip)
    (hinode : fs'.inode = Function.update s.fs.inode ip x)
    (hx : x.ref = handed ip - dropped ip)
    (hothers : ∀ jp, jp ≠ ip → handed jp = s.handed jp ∧ dropped jp = s.dropped jp) (jp : Slot) :
    (fs'.inode jp).ref = handed jp - dropped jp := by
  rw [hinode]
  by_cases hjp : jp = ip
  · rw [hjp, Function.update_self, hx]
  · obtain ⟨hh, hd⟩ := hothers jp hjp
    rw [Function.update_of_ne hjp, h jp, hh, hd]

theorem update_other {f : Slot → ℕ} {n : ℕ} (jp : Slot) (h : jp ≠ ip) :
    Function.update f ip n jp = f jp := Function.update_of_ne h _ _

theorem iget_consistent (h : Consistent s) (ht : iget s.fs dev inum = .ok (ip, fs')) :
    Consistent ⟨fs', Function.update s.handed ip (s.handed ip + 1), s.dropped⟩ := by
  have hcount := h.counted ip
  obtain ⟨hr, rfl⟩ | ⟨hr, hnew, rfl⟩ := iget_cases ht
  case inl =>
    refine ⟨h.unique.keep rfl rfl fun _ => hr,
      counted_update h.counted rfl ?_ fun jp hj => ⟨update_other jp hj, rfl⟩⟩
    dsimp only
    rw [Function.update_self]
    omega
  case inr =>
    refine ⟨h.unique.update rfl fun _ jp _ hj => hnew jp hj,
      counted_update h.counted rfl ?_ fun jp hj => ⟨update_other jp hj, rfl⟩⟩
    dsimp only
    rw [Function.update_self]
    omega

theorem step_consistent (s : System P) (e : Event P) (t : System P) (h : Consistent s)
    (he : Enabled s e) (ht : step s e = .ok t) : Consistent t := by
  cases e with
  | iget dev inum =>
    obtain ⟨⟨ip, fs'⟩, hget, ht⟩ := bind_eq_ok.mp ht
    cases ht
    rw [igetLoop_iget] at hget
    exact iget_consistent h hget
  | idup ip =>
    cases ht
    have hcount := h.counted ip
    have hheld : s.dropped ip < s.handed ip := he
    refine ⟨h.unique.keep rfl rfl fun _ => by omega,
      counted_update h.counted rfl ?_ fun jp hj => ⟨update_other jp hj, rfl⟩⟩
    dsimp only
    rw [Function.update_self]
    omega
  | iput ip =>
    cases ht
    have hcount := h.counted ip
    refine ⟨h.unique.keep rfl rfl fun hr => ?_,
      counted_update h.counted rfl ?_ fun jp hj => ⟨rfl, update_other jp hj⟩⟩
    · dsimp only at hr
      omega
    · dsimp only
      rw [Function.update_self]
      omega
  | other ip lock valid copy dinode used indirect =>
    cases ht
    exact ⟨h.unique.keep rfl rfl fun hr => hr,
      counted_update h.counted rfl (h.counted ip) fun _ _ => ⟨rfl, rfl⟩⟩

theorem iget_recycles (ht : iget fs dev inum = .ok (ip, fs'))
    (hchange : (fs'.inode jp).key ≠ (fs.inode jp).key ∨
      (fs.inode jp).valid = true ∧ (fs'.inode jp).valid = false) :
    (fs.inode jp).ref = 0 := by
  by_cases hjp : jp = ip
  case pos =>
    obtain ⟨hr, rfl⟩ | ⟨hr, -, rfl⟩ := iget_cases ht
    · rw [hjp, setInode_self] at hchange
      obtain hkey | ⟨hv, hv'⟩ := hchange
      · exact absurd rfl hkey
      · exact nomatch hv.symm.trans hv'
    · rwa [hjp]
  case neg =>
    obtain ⟨x, hx⟩ := iget_inode ht
    rw [hx, Function.update_of_ne hjp] at hchange
    obtain hkey | ⟨hv, hv'⟩ := hchange
    · exact absurd rfl hkey
    · exact nomatch hv.symm.trans hv'

theorem step_recycles (s : System P) (e : Event P) : RecyclesFree s e := by
  cases e with
  | iget dev inum =>
    intro t ht ip hchange
    obtain ⟨⟨jp, fs'⟩, hget, ht⟩ := bind_eq_ok.mp ht
    cases ht
    rw [igetLoop_iget] at hget
    exact iget_recycles hget hchange
  | idup ip => trivial
  | iput ip => trivial
  | other ip lock valid copy dinode used indirect => trivial

end Steps

theorem start_consistent (dinode : ℕ × ℕ → Dinode) (used : ℕ → Bool)
    (indirect : ℕ → Fin nindirect → ℕ) : Consistent (start dinode used indirect : System P) :=
  ⟨fun _ _ hr => absurd hr (Int.lt_irrefl 0), fun _ => rfl⟩

/-- In every run slots in use cache different inodes, each count is the number of references that
have been handed out and not dropped, and iget recycles only slots that nobody refers to. -/
theorem inodes_shared (dinode : ℕ × ℕ → Dinode) (used : ℕ → Bool)
    (indirect : ℕ → Fin nindirect → ℕ) (es : List (Event P))
    (h : Along step Enabled (start dinode used indirect) es) :
    Visits step Consistent (start dinode used indirect) es ∧
      Along step RecyclesFree (start dinode used indirect) es := by
  constructor
  · exact visits_of_invariant (fun _ hs => hs) step_consistent
      (start_consistent dinode used indirect) h
  · exact along_of_forall step_recycles _ _

theorem inodes_shared_twice :
    Along step Enabled (start (fun _ => ⟨1, 1, 0, fun _ => 0⟩) (fun _ => true) fun _ _ => 0)
      ([.iget 1 2, .iget 1 2, .idup 0, .iput 0, .iget 1 3] : List (Event Unit)) ∧
    Visits step Consistent
      (start (fun _ => ⟨1, 1, 0, fun _ => 0⟩) (fun _ => true) fun _ _ => 0)
      ([.iget 1 2, .iget 1 2, .idup 0, .iput 0, .iget 1 3] : List (Event Unit)) := by
  have henabled : Along step Enabled
      (start (fun _ => ⟨1, 1, 0, fun _ => 0⟩) (fun _ => true) fun _ _ => 0)
      ([.iget 1 2, .iget 1 2, .idup 0, .iput 0, .iget 1 3] : List (Event Unit)) := by
    decide +kernel
  exact ⟨henabled, (inodes_shared _ _ _ _ henabled).1⟩

end InodeSharing
