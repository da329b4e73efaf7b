import Xv6Gui.FileSystemSpecs
import Mathlib.Data.List.TakeWhile

/-!
# Resolution of path names

skipelem and namex of fs.c with the name buffer of DIRSIZ bytes and the look-ahead at the rest of
the path. The log of references is a ghost: no branch reads it.
-/
namespace PathNames

open GuardedRuns Directories FileSystem FileSystemSpecs
open WindowManagerState (ProcId)

/-- The bytes of the buffer after an element has been copied to it. -/
def copyName (elem buf : List UInt8) : List UInt8 :=
  if elem.length ≥ dirsiz then elem.take dirsiz else elem ++ 0 :: buf.drop (elem.length + 1)

def skipelem (path buf : List UInt8) : Option (List UInt8 × List UInt8) :=
  match path.dropWhile (· == slash) with
  | [] => none
  | c :: cs => some (copyName ((c :: cs).takeWhile (· != slash)) buf,
      ((c :: cs).dropWhile (· != slash)).dropWhile (· == slash))

/-- The name in a buffer, which ends at its first NUL or with the buffer. -/
def nameOf (buf : List UInt8) : Name := buf.takeWhile (· != 0)

inductive RefEvent where
  | got (i : ℕ)
  | dropped (i : ℕ)
  deriving DecidableEq, Repr

def RefEvent.gotten : RefEvent → Option ℕ
  | .got i => some i
  | .dropped _ => none

def RefEvent.given : RefEvent → Option ℕ
  | .got _ => none
  | .dropped i => some i

structure Walk where
  sys : System
  refs : List RefEvent

def Walk.iput (w : Walk) (i : ℕ) : Walk := ⟨FileSystem.iput w.sys i, w.refs ++ [.dropped i]⟩

/-- The inode that the entry leads to, with a reference. -/
def Walk.dirlookup (w : Walk) (dp : ℕ) (name : Name) : Except Fault (Walk × Option ℕ) :=
  FileSystem.dirlookup w.sys dp name >>= fun r =>
    match r.2 with
    | none => .ok (⟨r.1, w.refs⟩, none)
    | some (i, _) => .ok (⟨r.1, w.refs ++ [.got i]⟩, some i)

/-- What `namex` returns where no element is left. -/
def leave (nameiparent : Bool) (w : Walk) (ip : ℕ) (buf : List UInt8) :
    Except Fault (Walk × Option ℕ × List UInt8) :=
  if nameiparent then .ok (w.iput ip, none, buf) else .ok (w, some ip, buf)

/-- The loop of `namex`. Each round takes at least a byte of the path. -/
def namexLoop (nameiparent : Bool) :
    ℕ → Walk → ℕ → List UInt8 → List UInt8 → Except Fault (Walk × Option ℕ × List UInt8)
  | 0, w, ip, _, buf => leave nameiparent w ip buf
  | n + 1, w, ip, path, buf =>
    match skipelem path buf with
    | none => leave nameiparent w ip buf
    | some (buf, path) =>
      ilock w.sys ip >>= fun _ =>
        if (w.sys.inode ip).type ≠ .dir then .ok (w.iput ip, none, buf)
        else if nameiparent = true ∧ path = [] then .ok (w, some ip, buf)
        else
          w.dirlookup ip (nameOf buf) >>= fun r =>
            match r.2 with
            | none => .ok (r.1.iput ip, none, buf)
            | some next => namexLoop nameiparent n (r.1.iput ip) next path buf

def namex (s : System) (p : ProcId) (path : List UInt8) (nameiparent : Bool) (buf : List UInt8) :
    Except Fault (Walk × Option ℕ × List UInt8) :=
  if path.head? = some slash then
    iget s rootino >>= fun s =>
      namexLoop nameiparent path.length ⟨s, [.got rootino]⟩ rootino path buf
  else
    namexLoop nameiparent path.length ⟨idup s (s.cwd p), [.got (s.cwd p)]⟩ (s.cwd p) path buf

/-- The calls of `skipelem` until it returns 0, with the buffer and the rest after each. -/
inductive Calls : List UInt8 → List UInt8 → List (List UInt8 × List UInt8) → Prop
  | stop {path buf : List UInt8} (h : skipelem path buf = none) : Calls path buf []
  | call {path buf buf' rest : List UInt8} {cs : List (List UInt8 × List UInt8)}
      (h : skipelem path buf = some (buf', rest)) (hrest : Calls rest buf' cs) :
      Calls path buf ((buf', rest) :: cs)

/-- The nonempty components between slashes. -/
def components (path : List UInt8) : List (List UInt8) :=
  (path.splitOn slash).filter (· ≠ [])

def names (path : List UInt8) : List Name := (components path).map (·.take dirsiz)

/-- The inode that an inode's entry leads to. -/
def child (s : System) (ip : ℕ) (name : Name) : Option ℕ :=
  if (s.inode ip).type ≠ .dir then none
  else (dirscan (s.inode ip).entries name).map Prod.fst

def resolve (s : System) (ip : ℕ) (ns : List Name) : Option ℕ := ns.foldlM (child s) ip

/-- The directory of the last name. -/
def parentOf (s : System) (ip : ℕ) (ns : List Name) : Option ℕ :=
  if ns = [] then none
  else (resolve s ip ns.dropLast).filter fun i => decide ((s.inode i).type = .dir)

/-- The inodes that are reached behind `ip`. -/
def further (s : System) : ℕ → List Name → List ℕ
  | _, [] => []
  | ip, name :: ns =>
    match child s ip name with
    | none => []
    | some next => next :: further s next ns

/-- What the path of a call has to lead to, and the names on the way. -/
def target (nameiparent : Bool) (s : System) (ip : ℕ) (ns : List Name) : Option ℕ :=
  if nameiparent then parentOf s ip ns else resolve s ip ns

def onTheWay (nameiparent : Bool) (ns : List Name) : List Name :=
  if nameiparent then ns.dropLast else ns

/-- The inode that is found is referenced once more, and every other reference that was taken
has been dropped, in the order in which they were taken. -/
structure Settled (s : System) (ip : ℕ) (ns : List Name) (r : Option ℕ) (log : List RefEvent)
    (s' : System) : Prop where
  gotten : log.filterMap RefEvent.gotten = further s ip ns
  given : log.filterMap RefEvent.given =
    if r.isSome then (ip :: further s ip ns).dropLast else ip :: further s ip ns
  sys : s' = r.elim s (hold s)

/-- What the file system and the inode cache promise: no entry leads to a free inode, and there
is room for two more inodes. -/
structure Resolvable (s : System) (p : ProcId) : Prop where
  anchored : Anchored s
  root : (s.inode rootino).type ≠ .free
  cwd : (s.inode (s.cwd p)).type ≠ .free
  entries : ∀ i de, (s.inode i).type = .dir → de ∈ (s.inode i).entries → de.inum ≠ 0 →
    (s.inode de.inum).type ≠ .free
  room : cached s + 2 ≤ ninode

variable {path rest buf elem : List UInt8}

section Components

theorem components_nil : components [] = [] := rfl

theorem components_slash (path : List UInt8) : components (slash :: path) = components path := by
  have hsplit := List.splitOn_append_cons_self_of_not_mem (a := slash) List.not_mem_nil path
  rw [List.nil_append] at hsplit
  rw [components, hsplit, List.filter_cons_of_neg (by simp), components]

theorem components_slashes (path : List UInt8) :
    components (path.dropWhile (· == slash)) = components path := by
  induction path with
  | nil => rfl
  | cons c cs ih =>
    by_cases hc : (c == slash) = true
    · rw [List.dropWhile_cons, if_pos hc, ih, eq_of_beq hc, components_slash]
    · rw [List.dropWhile_cons, if_neg hc]

theorem components_elem (hne : elem ≠ []) (hslash : slash ∉ elem)
    (hrest : rest = [] ∨ ∃ r, rest = slash :: r) :
    components (elem ++ rest) = elem :: components rest := by
  rcases hrest with rfl | ⟨r, rfl⟩
  · rw [List.append_nil, components, List.splitOn_eq_singleton hslash,
      List.filter_cons_of_pos (by simpa using hne)]
    rfl
  · rw [components_slash, components, List.splitOn_append_cons_self_of_not_mem hslash,
      List.filter_cons_of_pos (by simpa using hne), components]

/-- A path that begins with another byte than a slash begins with a component. -/
theorem components_cons {c : UInt8} (cs : List UInt8) (hc : (c == slash) = false) :
    components (c :: cs) = (c :: cs).takeWhile (· != slash) ::
      components (((c :: cs).dropWhile (· != slash)).dropWhile (· == slash)) := by
  have hc' : (c != slash) = true := by rw [bne, hc]; rfl
  have hne : (c :: cs).takeWhile (· != slash) ≠ [] := by
    rw [List.takeWhile_cons, if_pos hc']
    exact List.cons_ne_nil _ _
  have hslash : slash ∉ (c :: cs).takeWhile (· != slash) := by
    intro hmem
    have hbyte := List.mem_takeWhile_imp hmem
    exact bne_iff_ne.mp hbyte rfl
  have hrest : (c :: cs).dropWhile (· != slash) = [] ∨
      ∃ r, (c :: cs).dropWhile (· != slash) = slash :: r := by
    cases hd : (c :: cs).dropWhile (· != slash) with
    | nil => exact .inl rfl
    | cons b r =>
      have hhead := List.head?_dropWhile_not (· != slash) (c :: cs)
      simp only [hd, List.head?_cons] at hhead
      have hb : b = slash := by simpa using hhead
      exact .inr ⟨r, by rw [hb]⟩
  have hall := components_elem hne hslash hrest
  rwa [List.takeWhile_append_dropWhile, ← components_slashes ((c :: cs).dropWhile _)] at hall

theorem head_not_slash {c : UInt8} {cs : List UInt8} (h : path.dropWhile (· == slash) = c :: cs) :
    (c == slash) = false := by
  have hhead := List.head?_dropWhile_not (· == slash) path
  simpa only [h, List.head?_cons] using hhead

/-- The rest of a path has a component unless it is empty. -/
theorem components_rest (h : components (path.dropWhile (· == slash)) = []) :
    path.dropWhile (· == slash) = [] := by
  cases hd : path.dropWhile (· == slash) with
  | nil => rfl
  | cons c cs =>
    rw [hd, components_cons cs (head_not_slash hd)] at h
    cases h

end Components

section Elements

/-- A buffer that holds the name. -/
structure Holds (buf : List UInt8) (name : Name) : Prop where
  length : buf.length = dirsiz
  name : nameOf buf = name

theorem copyName_holds (hbuf : buf.length = dirsiz) (hnul : 0 ∉ elem) :
    Holds (copyName elem buf) (elem.take dirsiz) := by
  have hbytes : ∀ l : List UInt8, 0 ∉ l → ∀ b ∈ l, (b != 0) = true := by
    rintro l hl b hb
    exact bne_iff_ne.mpr fun h0 => hl (h0 ▸ hb)
  rw [copyName]
  by_cases hlong : elem.length ≥ dirsiz
  case pos =>
    have htake := hbytes (elem.take dirsiz) fun h => hnul (List.mem_of_mem_take h)
    rw [if_pos hlong]
    exact ⟨List.length_take_of_le hlong, List.takeWhile_eq_self_iff.mpr htake⟩
  case neg =>
    have hlt := Nat.lt_of_not_le hlong
    rw [if_neg hlong, List.take_of_length_le (Nat.le_of_lt hlt)]
    constructor
    · rw [List.length_append, List.length_cons, List.length_drop, hbuf]
      omega
    · rw [nameOf, List.takeWhile_append_of_pos (hbytes elem hnul)]
      simp

theorem skipelem_none (h : components path = []) (buf : List UInt8) :
    skipelem path buf = none := by
  rw [← components_slashes] at h
  simp only [skipelem, components_rest h]

/-- One call takes the first component and leaves the others. -/
theorem skipelem_some (hnul : 0 ∉ path) (hbuf : buf.length = dirsiz) {cs : List (List UInt8)}
    (h : components path = elem :: cs) :
    ∃ buf' rest, skipelem path buf = some (buf', rest) ∧ Holds buf' (elem.take dirsiz) ∧
      components rest = cs ∧ 0 ∉ rest ∧ (rest = [] ↔ cs = []) ∧
      Directories.skipelem path = some (elem.take dirsiz, rest) := by
  cases hd : path.dropWhile (· == slash) with
  | nil =>
    rw [← components_slashes, hd] at h
    cases h
  | cons c tail =>
    have hsplit := components_cons tail (head_not_slash hd)
    rw [← hd, components_slashes, h, hd] at hsplit
    obtain ⟨helem, hcs⟩ := List.cons.inj hsplit
    have hsub : ∀ b ∈ c :: tail, b ∈ path := by
      intro b hb
      rw [← hd] at hb
      exact (List.dropWhile_suffix _).subset hb
    have hskip : Directories.skipelem path = some (elem.take dirsiz,
        ((c :: tail).dropWhile (· != slash)).dropWhile (· == slash)) := by
      simp only [Directories.skipelem, hd, helem]
    refine ⟨copyName elem buf, ((c :: tail).dropWhile (· != slash)).dropWhile (· == slash), ?_,
      copyName_holds hbuf ?_, hcs.symm, ?_, ?_, hskip⟩
    · simp only [skipelem, hd, helem]
    · intro h0
      rw [helem] at h0
      exact hnul (hsub 0 ((List.takeWhile_prefix _).subset h0))
    · intro h0
      have h0' := (List.dropWhile_suffix _).subset ((List.dropWhile_suffix _).subset h0)
      exact hnul (hsub 0 h0')
    · constructor
      · intro hnil
        rw [hcs, hnil, components_nil]
      · intro hnil
        rw [hnil] at hcs
        exact components_rest hcs.symm

/-- One call leaves the first name of the path in the buffer. -/
theorem skipelem_names (hnul : 0 ∉ path) (hbuf : buf.length = dirsiz) {cs : List (List UInt8)}
    (h : components path = elem :: cs) :
    ∃ buf' rest, skipelem path buf = some (buf', rest) ∧ names path = nameOf buf' :: names rest ∧
      (names rest = [] ↔ rest = []) ∧ 0 ∉ rest ∧ buf'.length = dirsiz ∧
      rest.length < path.length := by
  obtain ⟨buf', rest, hskip, hbuf', hrest, hnul', hlast, hplain⟩ := skipelem_some hnul hbuf h
  refine ⟨buf', rest, hskip, ?_, ?_, hnul', hbuf'.length, length_skipelem hplain⟩
  · rw [names, h, List.map_cons, hbuf'.name, names, hrest]
  · rw [hlast, names, hrest, List.map_eq_nil_iff]

end Elements

/-- The calls end, and they have found the names of the path. -/
theorem calls_names (hnul : 0 ∉ path) (hbuf : buf.length = dirsiz) :
    ∃ cs, Calls path buf cs ∧ (cs.map fun c => nameOf c.1) = names path ∧
      ∀ (i : ℕ) c, cs[i]? = some c → (c.2 = [] ↔ i + 1 = cs.length) := by
  rw [names]
  induction hc : components path generalizing path buf with
  | nil =>
    refine ⟨[], .stop (skipelem_none hc buf), rfl, ?_⟩
    intro i c hi
    cases hi
  | cons elem comps ih =>
    obtain ⟨buf', rest, hskip, hbuf', hrest, hnul', hlast, -⟩ := skipelem_some hnul hbuf hc
    obtain ⟨cs, hcalls, hnames, hends⟩ := ih hnul' hbuf'.length hrest
    have hlen : cs.length = comps.length := by
      simpa only [List.length_map] using congrArg List.length hnames
    refine ⟨(buf', rest) :: cs, .call hskip hcalls, ?_, ?_⟩
    · rw [List.map_cons, hnames, hbuf'.name, List.map_cons]
    · intro i c hi
      cases i with
      | zero =>
        cases hi
        rw [hlast, List.length_cons, hlen]
        constructor
        · rintro rfl
          rfl
        · intro hone
          exact List.eq_nil_of_length_eq_zero (by omega)
      | succ i =>
        rw [hends i c hi, List.length_cons]
        omega

section References

variable {s t : System} {p : ProcId} {ip next : ℕ} {name : Name} {ns : List Name} {w : Walk}

theorem resolve_cons (s : System) (ip : ℕ) (name : Name) (ns : List Name) :
    resolve s ip (name :: ns) = (child s ip name).bind (resolve s · ns) := List.foldlM_cons

theorem further_none (h : child s ip name = none) : further s ip (name :: ns) = [] := by
  rw [further, h]

theorem further_some (h : child s ip name = some next) :
    further s ip (name :: ns) = next :: further s next ns := by
  rw [further, h]

theorem dirscan_mem {l : List Dirent} {i off : ℕ} (h : dirscan l name = some (i, off)) :
    ∃ de ∈ l, de.inum = i ∧ i ≠ 0 := by
  induction l generalizing off with
  | nil => cases h
  | cons de rest ih =>
    rw [dirscan] at h
    by_cases hde : de.inum ≠ 0 ∧ de.name = name
    · rw [if_pos hde] at h
      cases h
      exact ⟨de, List.mem_cons_self, rfl, hde.1⟩
    · rw [if_neg hde] at h
      obtain ⟨⟨i', off'⟩, hrest, heq⟩ := Option.map_eq_some_iff.mp h
      cases heq
      obtain ⟨e, he, hinum⟩ := ih hrest
      exact ⟨e, List.mem_cons_of_mem de he, hinum⟩

theorem cached_hold (s : System) (i : ℕ) : cached (hold s i) ≤ cached s + 1 := by
  have hsub : (List.range s.ninodes).filter (fun j => (hold s i).iref j ≠ 0) ⊆
      i :: (List.range s.ninodes).filter (fun j => s.iref j ≠ 0) := by
    intro j hj
    obtain ⟨hlt, href⟩ := List.mem_filter.mp hj
    by_cases hji : j = i
    · exact hji ▸ List.mem_cons_self
    · rw [hold_iref_of_ne hji] at href
      exact List.mem_cons_of_mem i (List.mem_filter.mpr ⟨hlt, href⟩)
  exact (List.subperm_of_subset (List.nodup_range.filter _) hsub).length_le

theorem iget_room (h : cached s < ninode) (i : ℕ) : iget s i = .ok (hold s i) := by
  rw [iget, if_neg fun hfull => absurd hfull.2 (Nat.not_le.mpr h)]

section Rounds

variable (name : Name) (h : Resolvable s p) (hw : w.sys = hold s ip)

include h hw

theorem iput_settled (hnone : further s ip ns = []) :
    ∃ log, (w.iput ip).refs = w.refs ++ log ∧ Settled s ip ns none log (w.iput ip).sys := by
  refine ⟨[.dropped ip], rfl, ?_, ?_, ?_⟩
  · rw [hnone]
    rfl
  · rw [hnone]
    rfl
  · rw [Walk.iput, hw, iput_hold h.anchored]
    rfl

/-- A directory is searched for a name. -/
theorem dirlookup_child (hdir : (s.inode ip).type = .dir) :
    child s ip name = none ∧ w.dirlookup ip name = .ok (w, none) ∨
    ∃ next w', child s ip name = some next ∧ w.dirlookup ip name = .ok (w', some next) ∧
      (s.inode next).type ≠ .free ∧ (w'.iput ip).sys = hold s next ∧
      (w'.iput ip).refs = w.refs ++ [.got next, .dropped ip] := by
  have hwdir : ¬(w.sys.inode ip).type ≠ .dir := by
    rw [hw]
    exact not_not_intro hdir
  rw [Walk.dirlookup, FileSystem.dirlookup, if_neg hwdir, child, if_neg (not_not_intro hdir), hw,
    hold_inode]
  cases hscan : dirscan (s.inode ip).entries name with
  | none =>
    left
    refine ⟨rfl, ?_⟩
    dsimp only
    rw [ok_bind, ← hw]
  | some r =>
    obtain ⟨next, off⟩ := r
    obtain ⟨de, hmem, rfl, hne⟩ := dirscan_mem hscan
    have hroom : cached (hold s ip) < ninode := by
      have hone := cached_hold s ip
      have htwo := h.room
      omega
    refine .inr ⟨de.inum, ⟨hold (hold s ip) de.inum, w.refs ++ [.got de.inum]⟩, rfl, ?_,
      h.entries ip de hdir hmem hne, ?_, ?_⟩
    · dsimp only
      rw [iget_room hroom, ok_bind]
      rfl
    · rw [Walk.iput, hold_comm, iput_hold (anchored_hold h.anchored _)]
    · rw [Walk.iput, List.append_assoc]
      rfl

end Rounds

/-- One step of the walk. -/
theorem Settled.step {r : Option ℕ} {log : List RefEvent} (hchild : child s ip name = some next)
    (h : Settled s next ns r log t) :
    Settled s ip (name :: ns) r (.got next :: .dropped ip :: log) t := by
  refine ⟨?_, ?_, h.sys⟩
  · rw [further_some hchild, ← h.gotten]
    rfl
  · have hgiven : (RefEvent.got next :: .dropped ip :: log).filterMap RefEvent.given =
        ip :: log.filterMap RefEvent.given := rfl
    rw [hgiven, h.given, further_some hchild]
    cases r <;> rfl

/-- The last name stands for itself in a call of `nameiparent`. -/
theorem target_step {nameiparent : Bool} (hchild : child s ip name = some next)
    (hmore : ¬(nameiparent = true ∧ ns = [])) :
    target nameiparent s ip (name :: ns) = target nameiparent s next ns ∧
      onTheWay nameiparent (name :: ns) = name :: onTheWay nameiparent ns := by
  cases nameiparent with
  | false =>
    refine ⟨?_, rfl⟩
    change resolve s ip (name :: ns) = resolve s next ns
    rw [resolve_cons, hchild, Option.bind_some]
  | true =>
    have hne : ns ≠ [] := fun hnil => hmore ⟨rfl, hnil⟩
    have hdrop : (name :: ns).dropLast = name :: ns.dropLast := List.dropLast_cons_of_ne_nil hne
    refine ⟨?_, hdrop⟩
    change parentOf s ip (name :: ns) = parentOf s next ns
    rw [parentOf, parentOf, if_neg (List.cons_ne_nil _ _), if_neg hne, hdrop, resolve_cons, hchild,
      Option.bind_some]

/-- There is no target behind a name that is not found. -/
theorem target_none {nameiparent : Bool} (hchild : child s ip name = none)
    (hmore : ¬(nameiparent = true ∧ ns = [])) :
    target nameiparent s ip (name :: ns) = none ∧
      further s ip (onTheWay nameiparent (name :: ns)) = [] := by
  cases nameiparent with
  | false =>
    refine ⟨?_, further_none hchild⟩
    change resolve s ip (name :: ns) = none
    rw [resolve_cons, hchild, Option.bind_none]
  | true =>
    have hne : ns ≠ [] := fun hnil => hmore ⟨rfl, hnil⟩
    have hdrop : (name :: ns).dropLast = name :: ns.dropLast := List.dropLast_cons_of_ne_nil hne
    constructor
    · change parentOf s ip (name :: ns) = none
      rw [parentOf, if_neg (List.cons_ne_nil _ _), hdrop, resolve_cons, hchild, Option.bind_none]
      rfl
    · change further s ip (name :: ns).dropLast = []
      rw [hdrop, further_none hchild]

/-- Only directories lead anywhere. -/
theorem target_file (nameiparent : Bool) (name : Name) (ns : List Name)
    (hfile : (s.inode ip).type ≠ .dir) :
    target nameiparent s ip (name :: ns) = none ∧
      further s ip (onTheWay nameiparent (name :: ns)) = [] := by
  have hchild : child s ip name = none := if_pos hfile
  by_cases hlast : nameiparent = true ∧ ns = []
  case neg => exact target_none hchild hlast
  case pos =>
    obtain ⟨rfl, rfl⟩ := hlast
    refine ⟨?_, rfl⟩
    change parentOf s ip [name] = none
    rw [parentOf, if_neg (List.cons_ne_nil _ _)]
    exact Option.filter_some_neg (by simpa using hfile)

/-- What a call that starts at `ip` and writes the references of `log` has found. -/
structure Found (nameiparent : Bool) (s : System) (ip : ℕ) (ns : List Name) (r : Option ℕ)
    (buf : List UInt8) (log : List RefEvent) (s' : System) : Prop where
  result : r = target nameiparent s ip ns
  settled : Settled s ip (onTheWay nameiparent ns) r log s'
  name : nameiparent = true → r.isSome → ns.getLast? = some (nameOf buf)

/-- A walk that leads nowhere gives its directory back. -/
theorem iput_found {nameiparent : Bool} (h : Resolvable s p) (hw : w.sys = hold s ip)
    (hnone : target nameiparent s ip ns = none ∧ further s ip (onTheWay nameiparent ns) = [])
    (buf : List UInt8) : ∃ log, (w.iput ip).refs = w.refs ++ log ∧
      Found nameiparent s ip ns none buf log (w.iput ip).sys := by
  obtain ⟨htarget, hfurther⟩ := hnone
  obtain ⟨log, hrefs, hsettled⟩ := iput_settled h hw hfurther
  refine ⟨log, hrefs, htarget.symm, hsettled, ?_⟩
  intro _ hr
  cases hr

theorem Found.step {nameiparent : Bool} {r : Option ℕ} {buf : List UInt8} {log : List RefEvent}
    (hchild : child s ip name = some next) (hmore : ¬(nameiparent = true ∧ ns = []))
    (h : Found nameiparent s next ns r buf log t) :
    Found nameiparent s ip (name :: ns) r buf (.got next :: .dropped ip :: log) t := by
  obtain ⟨htarget, hway⟩ := target_step hchild hmore
  refine ⟨h.result.trans htarget.symm, ?_, ?_⟩
  · rw [hway]
    exact h.settled.step hchild
  · intro hp hr
    have hne : ns ≠ [] := fun h0 => hmore ⟨hp, h0⟩
    rw [List.getLast?_cons_of_ne_nil hne]
    exact h.name hp hr

theorem leave_found {nameiparent : Bool} (h : Resolvable s p) (hw : w.sys = hold s ip)
    (buf : List UInt8) : ∃ w' r buf' log, leave nameiparent w ip buf = .ok (w', r, buf') ∧
      w'.refs = w.refs ++ log ∧ Found nameiparent s ip [] r buf' log w'.sys := by
  cases nameiparent with
  | true =>
    have hnone : target true s ip [] = none ∧ further s ip (onTheWay true []) = [] := ⟨rfl, rfl⟩
    obtain ⟨log, hrefs, hfound⟩ := iput_found h hw hnone buf
    exact ⟨w.iput ip, none, buf, log, rfl, hrefs, hfound⟩
  | false =>
    refine ⟨w, some ip, buf, [], rfl, (List.append_nil _).symm, rfl, ⟨rfl, rfl, hw⟩, ?_⟩
    exact fun hp => absurd hp Bool.false_ne_true

theorem namexLoop_found {nameiparent : Bool} {n : ℕ} (h : Resolvable s p)
    (hip : (s.inode ip).type ≠ .free) (hw : w.sys = hold s ip) (hnul : 0 ∉ path)
    (hbuf : buf.length = dirsiz) (hn : path.length ≤ n) :
    ∃ w' r buf' log, namexLoop nameiparent n w ip path buf = .ok (w', r, buf') ∧
      w'.refs = w.refs ++ log ∧ Found nameiparent s ip (names path) r buf' log w'.sys := by
  induction n generalizing ip w path buf with
  | zero =>
    obtain rfl := List.eq_nil_of_length_eq_zero (Nat.le_zero.mp hn)
    exact leave_found h hw buf
  | succ n ih =>
    rw [namexLoop]
    cases hc : components path with
    | nil =>
      rw [skipelem_none hc, names, hc]
      exact leave_found h hw buf
    | cons elem comps =>
      obtain ⟨buf', rest, hskip, hnames, hnil, hnul', hlen, hlt⟩ := skipelem_names hnul hbuf hc
      have hlock : ilock w.sys ip = .ok () := by
        rw [hw]
        exact if_neg hip
      simp only [hskip, hlock, ok_bind]
      rw [hnames]
      by_cases hdir : (s.inode ip).type = .dir
      case neg =>
        have hwdir : (w.sys.inode ip).type ≠ .dir := by
          rw [hw]
          exact hdir
        have hnone := target_file nameiparent (nameOf buf') (names rest) hdir
        obtain ⟨log, hrefs, hfound⟩ := iput_found h hw hnone buf'
        rw [if_pos hwdir]
        exact ⟨w.iput ip, none, buf', log, rfl, hrefs, hfound⟩
      case pos =>
        have hwdir : ¬(w.sys.inode ip).type ≠ .dir := by
          rw [hw]
          exact not_not_intro hdir
        rw [if_neg hwdir]
        by_cases hstop : nameiparent = true ∧ rest = []
        case pos =>
          -- the last name is left to the caller
          obtain ⟨rfl, rfl⟩ := hstop
          rw [if_pos ⟨rfl, rfl⟩]
          refine ⟨w, some ip, buf', [], rfl, (List.append_nil _).symm, ?_, ⟨rfl, rfl, hw⟩,
            fun _ _ => rfl⟩
          have hpass : (some ip).filter (fun i => decide ((s.inode i).type = .dir)) = some ip :=
            Option.filter_some_pos (decide_eq_true hdir)
          exact hpass.symm
        case neg =>
          have hmore : ¬(nameiparent = true ∧ names rest = []) := fun hs =>
            hstop ⟨hs.1, hnil.mp hs.2⟩
          rw [if_neg hstop]
          rcases dirlookup_child (nameOf buf') h hw hdir with
            ⟨hchild, hlook⟩ | ⟨next, w', hchild, hlook, hnext, hsys, hrefs⟩
          case inl =>
            obtain ⟨log, hrefs, hfound⟩ := iput_found h hw (target_none hchild hmore) buf'
            simp only [hlook, ok_bind]
            exact ⟨w.iput ip, none, buf', log, rfl, hrefs, hfound⟩
          case inr =>
            obtain ⟨w'', r, buf'', log, hrun, hlog, hfound⟩ :=
              ih hnext hsys hnul' hlen (by omega)
            simp only [hlook, ok_bind]
            refine ⟨w'', r, buf'', .got next :: .dropped ip :: log, hrun, ?_,
              hfound.step hchild hmore⟩
            rw [hlog, hrefs, List.append_assoc]
            rfl

end References

section Erasure

variable {w : Walk} {ip n : ℕ} {nameiparent : Bool}

theorem elems_names (hnul : 0 ∉ path) (hbuf : buf.length = dirsiz) : elems path = names path := by
  rw [names]
  induction hc : components path generalizing path buf with
  | nil =>
    have hnone : Directories.skipelem path = none := by
      rw [← components_slashes] at hc
      simp only [Directories.skipelem, components_rest hc]
    rw [elems_eq, hnone]
    rfl
  | cons elem comps ih =>
    obtain ⟨buf', rest, -, hbuf', hrest, hnul', -, hplain⟩ := skipelem_some hnul hbuf hc
    rw [elems_eq, hplain]
    dsimp only
    rw [ih hnul' hbuf'.length hrest, List.map_cons]

/-- The result without the log and the buffer. -/
def erase (nameiparent : Bool) (r : Walk × Option ℕ × List UInt8) : System × Option (ℕ × Name) :=
  (r.1.sys, r.2.1.map fun i => (i, if nameiparent then nameOf r.2.2 else []))

theorem leave_erase (nameiparent : Bool) (w : Walk) (ip : ℕ) (buf : List UInt8) :
    (leave nameiparent w ip buf).map (erase nameiparent) =
      namexFrom nameiparent w.sys ip [] := by
  cases nameiparent <;> rfl

/-- Over the names of the path, the loop is that of the model without a buffer. -/
theorem namexLoop_erase (hnul : 0 ∉ path) (hbuf : buf.length = dirsiz) (hn : path.length ≤ n) :
    (namexLoop nameiparent n w ip path buf).map (erase nameiparent) =
      namexFrom nameiparent w.sys ip (names path) := by
  induction n generalizing ip w path buf with
  | zero =>
    obtain rfl := List.eq_nil_of_length_eq_zero (Nat.le_zero.mp hn)
    exact leave_erase nameiparent w ip buf
  | succ n ih =>
    rw [namexLoop]
    cases hc : components path with
    | nil =>
      rw [skipelem_none hc, names, hc]
      exact leave_erase nameiparent w ip buf
    | cons elem comps =>
      obtain ⟨buf', rest, hskip, hnames, hnil, hnul', hlen, hlt⟩ := skipelem_names hnul hbuf hc
      rw [hskip, hnames, namexFrom]
      dsimp only
      cases ilock w.sys ip with
      | error e => rfl
      | ok u =>
        rw [ok_bind, ok_bind]
        by_cases hdir : (w.sys.inode ip).type ≠ .dir
        · rw [if_pos hdir, if_pos hdir]
          rfl
        · rw [if_neg hdir, if_neg hdir]
          by_cases hstop : nameiparent = true ∧ rest = []
          · have hstop' : nameiparent = true ∧ names rest = [] := ⟨hstop.1, hnil.mpr hstop.2⟩
            rw [if_pos hstop, if_pos hstop', hstop.1]
            rfl
          · have hstop' : ¬(nameiparent = true ∧ names rest = []) := fun hs =>
              hstop ⟨hs.1, hnil.mp hs.2⟩
            rw [if_neg hstop, if_neg hstop', Walk.dirlookup]
            cases FileSystem.dirlookup w.sys ip (nameOf buf') with
            | error e => rfl
            | ok q =>
              obtain ⟨s', r⟩ := q
              cases r with
              | none => rfl
              | some x => exact ih hnul' hlen (by omega)

theorem namex_erase (s : System) (p : ProcId) (hnul : 0 ∉ path) (hbuf : buf.length = dirsiz) :
    (namex s p path nameiparent buf).map (erase nameiparent) =
      FileSystem.namex s p path nameiparent := by
  rw [namex, FileSystem.namex, elems_names hnul hbuf]
  by_cases hroot : path.head? = some slash
  · rw [if_pos hroot, if_pos hroot]
    cases iget s rootino with
    | error e => rfl
    | ok t => exact namexLoop_erase hnul hbuf (Nat.le_refl _)
  · rw [if_neg hroot, if_neg hroot]
    exact namexLoop_erase hnul hbuf (Nat.le_refl _)

end Erasure

section Calls

variable {s : System} {p : ProcId}

/-- Where a path starts. -/
def start (s : System) (p : ProcId) (path : List UInt8) : ℕ :=
  if path.head? = some slash then rootino else s.cwd p

/-- A call of `namex` that comes to an end, with all references it takes and drops. -/
structure Resolved (nameiparent : Bool) (s : System) (p : ProcId) (path : List UInt8)
    (w : Walk) (r : Option ℕ) (buf : List UInt8) : Prop where
  result : r = target nameiparent s (start s p path) (names path)
  gotten : w.refs.filterMap RefEvent.gotten =
    start s p path :: further s (start s p path) (onTheWay nameiparent (names path))
  given : w.refs.filterMap RefEvent.given =
    if r.isSome then (w.refs.filterMap RefEvent.gotten).dropLast
    else w.refs.filterMap RefEvent.gotten
  sys : w.sys = r.elim s (hold s)
  name : nameiparent = true → r.isSome → (names path).getLast? = some (nameOf buf)

theorem namex_resolved (nameiparent : Bool) (h : Resolvable s p) (hnul : 0 ∉ path)
    (hbuf : buf.length = dirsiz) : ∃ w r buf', namex s p path nameiparent buf = .ok (w, r, buf') ∧
      Resolved nameiparent s p path w r buf' := by
  have hloop : ∃ w' r buf' log, namex s p path nameiparent buf = .ok (w', r, buf') ∧
      w'.refs = .got (start s p path) :: log ∧
      Found nameiparent s (start s p path) (names path) r buf' log w'.sys := by
    rw [namex, start]
    by_cases hroot : path.head? = some slash
    · have hroom : cached s < ninode := by
        have htwo := h.room
        omega
      rw [if_pos hroot, if_pos hroot, iget_room hroom, ok_bind]
      exact namexLoop_found h h.root rfl hnul hbuf (Nat.le_refl _)
    · rw [if_neg hroot, if_neg hroot]
      exact namexLoop_found h h.cwd rfl hnul hbuf (Nat.le_refl _)
  obtain ⟨w, r, buf', log, hrun, hrefs, hfound⟩ := hloop
  have hgotten : w.refs.filterMap RefEvent.gotten =
      start s p path :: further s (start s p path) (onTheWay nameiparent (names path)) := by
    rw [hrefs, ← hfound.settled.gotten]
    rfl
  refine ⟨w, r, buf', hrun, hfound.result, hgotten, ?_, hfound.settled.sys, hfound.name⟩
  rw [hgotten, ← hfound.settled.given, hrefs]
  rfl

/-- The calls of skipelem find the names of the path and see which one is the last, nameiparent
finds the directory of the last name and namei the inode of the path. -/
theorem path_resolved (path buf : List UInt8) (s : System) (p : ProcId) (hnul : 0 ∉ path)
    (hbuf : buf.length = dirsiz) (h : Resolvable s p) :
    (∃ cs, Calls path buf cs ∧ (cs.map fun c => nameOf c.1) = names path ∧
      ∀ (i : ℕ) c, cs[i]? = some c → (c.2 = [] ↔ i + 1 = cs.length)) ∧
    (∃ w r buf', namex s p path true buf = .ok (w, r, buf') ∧ Resolved true s p path w r buf') ∧
    ∃ w r buf', namex s p path false buf = .ok (w, r, buf') ∧ Resolved false s p path w r buf' :=
  ⟨calls_names hnul hbuf, namex_resolved true h hnul hbuf, namex_resolved false h hnul hbuf⟩

theorem emptyDisk_type (i : ℕ) :
    (((emptyDisk 3).inode i).type ≠ .free ↔ i = rootino) ∧
      ((emptyDisk 3).inode rootino).nlink = 1 := by
  refine ⟨?_, rfl⟩
  by_cases hi : i = rootino
  · rw [hi]
    exact ⟨fun _ => rfl, fun _ => by decide⟩
  · simp [emptyDisk, hi, freeInode]

theorem emptyDisk_resolvable : Resolvable (emptyDisk 3) ProcessTable.initproc := by
  have hroot : ((emptyDisk 3).inode rootino).type ≠ .free := (emptyDisk_type rootino).1.mpr rfl
  refine ⟨?_, hroot, hroot, ?_, by decide⟩
  · intro i htype hlink
    rw [(emptyDisk_type i).1.mp htype, (emptyDisk_type 0).2] at hlink
    cases hlink
  · intro i de hdir hmem _
    have hi := (emptyDisk_type i).1.mp (by rw [hdir]; decide)
    rw [hi] at hmem
    have hde : de.inum = rootino := by
      rcases List.mem_cons.mp hmem with rfl | hmem
      · rfl
      · rw [List.mem_singleton.mp hmem]
    rw [hde]
    exact hroot

/-- The path is `//.//..` with a buffer of zeros. -/
theorem path_resolved_dots :
    (∃ cs, Calls [47, 47, 46, 47, 47, 46, 46] (List.replicate 30 0) cs ∧
      (cs.map fun c => nameOf c.1) = names [47, 47, 46, 47, 47, 46, 46] ∧
      ∀ (i : ℕ) c, cs[i]? = some c → (c.2 = [] ↔ i + 1 = cs.length)) ∧
    (∃ w r buf', namex (emptyDisk 3) ProcessTable.initproc [47, 47, 46, 47, 47, 46, 46] true
      (List.replicate 30 0) = .ok (w, r, buf') ∧
      Resolved true (emptyDisk 3) ProcessTable.initproc [47, 47, 46, 47, 47, 46, 46] w r buf') ∧
    ∃ w r buf', namex (emptyDisk 3) ProcessTable.initproc [47, 47, 46, 47, 47, 46, 46] false
      (List.replicate 30 0) = .ok (w, r, buf') ∧
      Resolved false (emptyDisk 3) ProcessTable.initproc [47, 47, 46, 47, 47, 46, 46] w r buf' :=
  path_resolved [47, 47, 46, 47, 47, 46, 46] (List.replicate 30 0) (emptyDisk 3)
    ProcessTable.initproc (by decide) rfl emptyDisk_resolvable

end Calls

end PathNames
