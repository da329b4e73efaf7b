import Xv6Gui.InputFields
import Xv6Gui.Directories

/-!
# Paths of the file explorer

cdHandler, backHandler and getparentpath of explorer.c. The current path is built up in an array
of 1000 bytes, and its parent is handed over in a static array made for one file name.
-/
namespace ExplorerPaths

open WindowManagerState GuardedRuns InputFields
open Directories (Name dirsiz slash)

/-- `static char buf[DIRSIZ + 1]` -/
structure ParentBuf where
  bytes : List UInt8
  length_bytes : bytes.length = dirsiz + 1

structure Explorer where
  currentPath : TextArray
  parentBuf : ParentBuf

/-- `memmove(buf, s, n)` of the `n` bytes of `s`. -/
def ParentBuf.memmove (b : ParentBuf) (s : List UInt8) : Except Fault ParentBuf :=
  if h : s.length ≤ dirsiz + 1 then
    .ok ⟨s ++ b.bytes.drop s.length, by
      have := b.length_bytes
      simp only [List.length_append, List.length_drop]
      omega⟩
  else .error (.outOfBounds (dirsiz + 1))

/-- `buf[i] = '\0'` -/
def ParentBuf.terminate (b : ParentBuf) (i : ℤ) : Except Fault ParentBuf :=
  if 0 ≤ i ∧ i < dirsiz + 1 then
    .ok ⟨b.bytes.set i.toNat 0, by rw [List.length_set, b.length_bytes]⟩
  else .error (.outOfBounds i)

/-- The string in the buffer, as `strcpy` reads it. -/
def ParentBuf.string (b : ParentBuf) : Except Fault (List UInt8) :=
  if 0 ∈ b.bytes then .ok (b.bytes.takeWhile (· ≠ 0)) else .error (.outOfBounds (dirsiz + 1))

/-- `p - path` after the loop of `getparentpath` that starts at `p = path + k`. -/
def lastSlash (path : List UInt8) : ℕ → ℤ
  | 0 => if path[0]? = some slash then 0 else -1
  | k + 1 => if path[k + 1]? = some slash then (k + 1 : ℕ) else lastSlash path k

/-- A negative length moves nothing. -/
def getparentpath (path : List UInt8) (b : ParentBuf) : Except Fault ParentBuf :=
  let n := lastSlash path path.length
  b.memmove (path.take n.toNat) >>= fun b => b.terminate n

def backHandler (msg : Message) (e : Explorer) : Except Fault Explorer :=
  if msg.msgType ≠ .mouseDblclick then .ok e
  else
    e.currentPath.string 0 >>= fun path =>
      getparentpath path e.parentBuf >>= fun b =>
        b.string >>= fun parent =>
          e.currentPath.strcpy 0 parent >>= fun t => .ok ⟨t, b⟩

/-- The text is that of the clicked widget. -/
def cdHandler (text : List UInt8) (msg : Message) (e : Explorer) : Except Fault Explorer :=
  if msg.msgType ≠ .mouseDblclick then .ok e
  else
    e.currentPath.string 0 >>= fun path =>
      e.currentPath.store path.length slash.toNat >>= fun t =>
        t.strcpy (path.length + 1 : ℕ) text >>= fun t => .ok { e with currentPath := t }

/-- The handlers look at nothing else of the message. -/
def doubleClick : Message := ⟨.mouseDblclick, fun _ => none⟩

theorem doubleClick_acts : ¬doubleClick.msgType ≠ .mouseDblclick := fun h => h rfl

/-- Double-clicks on one directory after the other. -/
def openAll (names : List Name) (e : Explorer) : Except Fault Explorer :=
  names.foldlM (fun e name => cdHandler name doubleClick e) e

/-- What the file system takes as the name of a directory. -/
structure DirName (name : Name) : Prop where
  le : name.length ≤ dirsiz
  nonzero : 0 ∉ name
  plain : slash ∉ name

/-- The path of a directory that is reached through `names`. -/
def pathTo (names : List Name) : List UInt8 := names.flatMap (slash :: ·)

variable {e e' : Explorer} {s : List UInt8} {name : Name} {names : List Name}

theorem cdHandler_fits (h : Holds e.currentPath s) (hname : 0 ∉ name)
    (hfit : s.length + 1 + name.length < maxLongStrlen) :
    ∃ e', cdHandler name doubleClick e = .ok e' ∧ Holds e'.currentPath (s ++ slash :: name) := by
  obtain ⟨rest, hb⟩ := h.ends
  obtain ⟨t, hstore, hbytes⟩ := store_eq (t := e.currentPath) h.lt slash.toNat
  have htake : t.bytes.take (s.length + 1) = s ++ [slash] := by
    rw [hbytes, hb, List.set_append_right _ _ (Nat.le_refl _), Nat.sub_self, List.set_cons_zero,
      List.append_cons]
    exact List.take_left' (by simp)
  have hnz : 0 ∉ s ++ [slash] := by
    rw [List.mem_append, List.mem_singleton, not_or]
    exact ⟨h.nonzero, by decide⟩
  obtain ⟨t', hcpy, hholds⟩ := strcpy_holds htake hnz hname hfit
  rw [cdHandler, if_neg doubleClick_acts, h.string_zero, ok_bind, hstore, ok_bind, hcpy, ok_bind]
  refine ⟨_, rfl, ?_⟩
  rw [List.append_assoc] at hholds
  exact hholds

theorem cdHandler_holds (h : Holds e.currentPath s) (hname : 0 ∉ name)
    (hcd : cdHandler name doubleClick e = .ok e') : Holds e'.currentPath (s ++ slash :: name) := by
  by_cases hfit : s.length + 1 + name.length < maxLongStrlen
  case pos =>
    obtain ⟨e'', hcd', hholds⟩ := cdHandler_fits h hname hfit
    rw [hcd] at hcd'
    cases hcd'
    exact hholds
  case neg =>
    obtain ⟨t, hstore, -⟩ := store_eq (t := e.currentPath) h.lt slash.toNat
    obtain ⟨i, hfull⟩ := strcpy_full (t := t) (Nat.le_of_not_lt hfit)
    rw [cdHandler, if_neg doubleClick_acts, h.string_zero, ok_bind, hstore, ok_bind,
      hfull] at hcd
    cases hcd

/-- The scan from the end stops at the slash in front of the last name. -/
theorem lastSlash_append (hname : slash ∉ name) {k : ℕ} (hk : k ≤ name.length + 1) :
    lastSlash (s ++ slash :: name) (s.length + k) = s.length := by
  induction k with
  | zero =>
    have hat : (s ++ slash :: name)[s.length]? = some slash := by simp
    cases hs : s.length with
    | zero =>
      rw [hs] at hat
      exact if_pos hat
    | succ n =>
      rw [hs] at hat
      exact if_pos hat
  | succ k ih =>
    have hnot : (s ++ slash :: name)[s.length + k + 1]? ≠ some slash := by
      rw [Nat.add_assoc, List.getElem?_append_right (Nat.le_add_right _ _), Nat.add_sub_cancel_left,
        List.getElem?_cons_succ]
      exact fun hget => hname (List.mem_of_getElem? hget)
    rw [← Nat.add_assoc, lastSlash, if_neg hnot]
    exact ih (Nat.le_of_succ_le hk)

theorem getparentpath_eq (b : ParentBuf) (hname : slash ∉ name) :
    getparentpath (s ++ slash :: name) b = b.memmove s >>= fun b => b.terminate s.length := by
  have hscan : lastSlash (s ++ slash :: name) (s ++ slash :: name).length = s.length := by
    rw [List.length_append, List.length_cons]
    exact lastSlash_append hname (Nat.le_refl _)
  rw [getparentpath, hscan, Int.toNat_natCast, List.take_left]

theorem getparentpath_fits (b : ParentBuf) (hs : 0 ∉ s) (hname : slash ∉ name)
    (hfit : s.length ≤ dirsiz) :
    ∃ b', getparentpath (s ++ slash :: name) b = .ok b' ∧ b'.string = .ok s := by
  have hlen := b.length_bytes
  have hdrop : ∃ c rest, b.bytes.drop s.length = c :: rest := by
    apply List.exists_cons_of_length_pos
    rw [List.length_drop]
    omega
  obtain ⟨c, rest, hrest⟩ := hdrop
  have hroom : s.length ≤ dirsiz + 1 := Nat.le_succ_of_le hfit
  have hin : 0 ≤ (s.length : ℤ) ∧ (s.length : ℤ) < (dirsiz : ℤ) + 1 := by omega
  have hbytes : (s ++ b.bytes.drop s.length).set s.length 0 = s ++ 0 :: rest := by
    rw [hrest, List.set_append_right _ _ (Nat.le_refl _), Nat.sub_self, List.set_cons_zero]
  rw [getparentpath_eq b hname, ParentBuf.memmove, dif_pos hroom, ok_bind, ParentBuf.terminate,
    if_pos hin]
  refine ⟨_, rfl, ?_⟩
  simp only [ParentBuf.string, Int.toNat_natCast, hbytes]
  rw [if_pos (by simp), takeWhile_string hs]

theorem getparentpath_overflows (b : ParentBuf) (hname : slash ∉ name)
    (hlong : dirsiz < s.length) :
    ∃ i, getparentpath (s ++ slash :: name) b = .error (.outOfBounds i) := by
  rw [getparentpath_eq b hname, ParentBuf.memmove]
  by_cases hroom : s.length ≤ dirsiz + 1
  case pos =>
    -- the bytes still fit, their terminator does not
    have hout : ¬(0 ≤ (s.length : ℤ) ∧ (s.length : ℤ) < (dirsiz : ℤ) + 1) := by omega
    rw [dif_pos hroom, ok_bind, ParentBuf.terminate, if_neg hout]
    exact ⟨_, rfl⟩
  case neg =>
    rw [dif_neg hroom]
    exact ⟨_, rfl⟩

theorem backHandler_fits (h : Holds e.currentPath (s ++ slash :: name)) (hname : slash ∉ name)
    (hfit : s.length ≤ dirsiz) :
    ∃ e', backHandler doubleClick e = .ok e' ∧ Holds e'.currentPath s := by
  have hs : 0 ∉ s := fun h0 => h.nonzero (List.mem_append_left _ h0)
  have hlt : 0 + s.length < maxLongStrlen := by
    rw [Nat.zero_add]
    exact hfit.trans_lt (by decide)
  obtain ⟨b, hb, hstr⟩ := getparentpath_fits e.parentBuf hs hname hfit
  obtain ⟨t, hcpy, hholds⟩ :=
    strcpy_holds (t := e.currentPath) List.take_zero List.not_mem_nil hs hlt
  have hcpy' : e.currentPath.strcpy 0 s = .ok t := hcpy
  rw [backHandler, if_neg doubleClick_acts, h.string_zero, ok_bind, hb, ok_bind, hstr, ok_bind,
    hcpy', ok_bind]
  exact ⟨_, rfl, hholds⟩

theorem backHandler_overflows (h : Holds e.currentPath (s ++ slash :: name))
    (hname : slash ∉ name) (hlong : dirsiz < s.length) :
    ∃ i, backHandler doubleClick e = .error (.outOfBounds i) := by
  obtain ⟨i, hi⟩ := getparentpath_overflows e.parentBuf hname hlong
  rw [backHandler, if_neg doubleClick_acts, h.string_zero, ok_bind, hi]
  exact ⟨i, rfl⟩

theorem openAll_holds (h : Holds e.currentPath s) (hnames : ∀ n ∈ names, DirName n)
    (hopen : openAll names e = .ok e') : Holds e'.currentPath (s ++ pathTo names) := by
  induction names generalizing e s with
  | nil =>
    cases hopen
    rw [pathTo, List.flatMap_nil, List.append_nil]
    exact h
  | cons n names ih =>
    obtain ⟨e₁, hcd, hrest⟩ := bind_eq_ok.mp hopen
    have hn := hnames n List.mem_cons_self
    have h₁ := cdHandler_holds h hn.nonzero hcd
    have hend := ih h₁ (fun m hm => hnames m (List.mem_cons_of_mem n hm)) hrest
    rw [List.append_assoc] at hend
    exact hend

theorem openAll_fits (h : Holds e.currentPath s) (hnames : ∀ n ∈ names, DirName n)
    (hfit : s.length + (pathTo names).length < maxLongStrlen) :
    ∃ e', openAll names e = .ok e' := by
  induction names generalizing e s with
  | nil => exact ⟨e, rfl⟩
  | cons n names ih =>
    have hn := hnames n List.mem_cons_self
    have hlen : (pathTo (n :: names)).length = n.length + 1 + (pathTo names).length := by
      rw [pathTo, List.flatMap_cons, List.length_append, List.length_cons]
      rfl
    obtain ⟨e₁, hcd, h₁⟩ := cdHandler_fits h hn.nonzero (by omega)
    have hfit₁ : (s ++ slash :: n).length + (pathTo names).length < maxLongStrlen := by
      rw [List.length_append, List.length_cons]
      omega
    obtain ⟨e', he'⟩ := ih h₁ (fun m hm => hnames m (List.mem_cons_of_mem n hm)) hfit₁
    exact ⟨e', bind_eq_ok.mpr ⟨e₁, hcd, he'⟩⟩

/-- The directories are opened, one more is, and the way back ends at the path before it. -/
def BackRestores (names : List Name) (name : Name) (e : Explorer) : Prop :=
  ∃ e₁ e₂ e₃, openAll names e = .ok e₁ ∧ cdHandler name doubleClick e₁ = .ok e₂ ∧
    backHandler doubleClick e₂ = .ok e₃ ∧ e₃.currentPath.string 0 = e₁.currentPath.string 0

theorem back_restores_iff (e : Explorer) (he : Holds e.currentPath []) (names : List Name)
    (hnames : ∀ n ∈ names, DirName n) (name : Name) (hname : DirName name) :
    BackRestores names name e ↔ (pathTo names).length ≤ dirsiz := by
  constructor
  case mp =>
    rintro ⟨e₁, e₂, e₃, hopen, hcd, hback, -⟩
    have h₁ := openAll_holds he hnames hopen
    have h₂ := cdHandler_holds h₁ hname.nonzero hcd
    rw [List.nil_append] at h₂
    by_contra hlong
    obtain ⟨i, hi⟩ := backHandler_overflows h₂ hname.plain (Nat.lt_of_not_le hlong)
    rw [hback] at hi
    cases hi
  case mpr =>
    intro hfit
    have hle := hname.le
    have hroom : ([] : List UInt8).length + (pathTo names).length < maxLongStrlen := by
      rw [List.length_nil, Nat.zero_add]
      exact hfit.trans_lt (by decide)
    obtain ⟨e₁, hopen⟩ := openAll_fits he hnames hroom
    have h₁ := openAll_holds he hnames hopen
    rw [List.nil_append] at h₁
    have hmax : (dirsiz : ℕ) + 1 + dirsiz < maxLongStrlen := by decide
    obtain ⟨e₂, hcd, h₂⟩ := cdHandler_fits h₁ hname.nonzero (by omega)
    obtain ⟨e₃, hback, h₃⟩ := backHandler_fits h₂ hname.plain hfit
    exact ⟨e₁, e₂, e₃, hopen, hcd, hback, h₃.string_zero.trans h₁.string_zero.symm⟩

/-- The explorer as `main` sets it up. -/
def startExplorer : Explorer :=
  ⟨zeroedArray, ⟨List.replicate (dirsiz + 1) 0, List.length_replicate⟩⟩

theorem startExplorer_holds : Holds startExplorer.currentPath [] :=
  ⟨List.not_mem_nil, List.replicate (maxLongStrlen - 1) 0, rfl⟩

theorem dirName_replicate {n : ℕ} (hle : n ≤ dirsiz) : DirName (List.replicate n 97) := by
  constructor
  case le => rwa [List.length_replicate]
  case nonzero => exact fun h => absurd (List.eq_of_mem_replicate h) (by decide)
  case plain => exact fun h => absurd (List.eq_of_mem_replicate h) (by decide)

theorem back_restores_short_names :
    BackRestores [[100, 111, 99]] [97] startExplorer := by
  have hdoc : ∀ n ∈ [[100, 111, 99]], DirName n := by
    intro n hn
    rw [List.mem_singleton.mp hn]
    exact ⟨by decide, by decide, by decide⟩
  exact (back_restores_iff _ startExplorer_holds _ hdoc [97]
    ⟨by decide, by decide, by decide⟩).mpr (by decide)

/-- One directory with a name of 30 characters is enough. -/
theorem parent_buffer_overflows : ¬∀ (e : Explorer), Holds e.currentPath [] →
    ∀ names : List Name, (∀ n ∈ names, DirName n) → ∀ name, DirName name →
      BackRestores names name e := by
  intro h
  have hlong : ∀ n ∈ [List.replicate dirsiz 97], DirName n := by
    intro n hn
    rw [List.mem_singleton.mp hn]
    exact dirName_replicate (Nat.le_refl _)
  have ha := dirName_replicate (n := 1) (by decide)
  obtain ⟨e₁, e₂, e₃, hopen, hcd, hback, -⟩ := h _ startExplorer_holds _ hlong _ ha
  have h₁ := openAll_holds startExplorer_holds hlong hopen
  have h₂ := cdHandler_holds h₁ ha.nonzero hcd
  obtain ⟨i, hi⟩ := backHandler_overflows h₂ ha.plain (by decide)
  rw [hback] at hi
  cases hi

end ExplorerPaths
