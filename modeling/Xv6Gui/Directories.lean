import Mathlib.Data.List.Basic
import Mathlib.Tactic.Set

/-!
# Directory contents and path names

A directory is a file of entries, and an entry with inode number 0 is free. Names are byte
strings cut at DIRSIZ; the reading and writing of entries are those of dirlookup, dirlink,
sys_unlink and isdirempty, and paths are taken apart by skipelem.
-/
namespace Directories

abbrev Name := List UInt8

abbrev dirsiz : ℕ := 30

/-- MAXFILE blocks of BSIZE bytes, 32 bytes an entry. -/
abbrev maxEntries : ℕ := 524 * 2048 / 32

structure Dirent where
  inum : ℕ
  name : Name
  deriving DecidableEq, Repr

def slash : UInt8 := 47

/-- The name `.` -/
def dot : Name := [46]

/-- The name `..` -/
def dotdot : Name := [46, 46]

/-- The entry that carries the name, with its inode number and its place. -/
def dirscan : List Dirent → Name → Option (ℕ × ℕ)
  | [], _ => none
  | de :: rest, name =>
    if de.inum ≠ 0 ∧ de.name = name then some (de.inum, 0)
    else (dirscan rest name).map fun r => (r.1, r.2 + 1)

/-- Write an entry at the first free place, behind all others when there is none. -/
def putEntry (de : Dirent) : List Dirent → List Dirent
  | [] => [de]
  | e :: rest => if e.inum = 0 then de :: rest else e :: putEntry de rest

/-- The entry of zeros that `sys_unlink` writes. -/
def zeroDirent : Dirent := ⟨0, []⟩

def clearEntry (entries : List Dirent) (off : ℕ) : List Dirent := entries.set off zeroDirent

/-- The loop starts behind the first two entries, which `create` makes `.` and `..`. -/
def isdirempty (entries : List Dirent) : Bool := (entries.drop 2).all fun de => de.inum == 0

/-- The next element of a path, cut at DIRSIZ, and what follows it and its slashes. -/
def skipelem (path : List UInt8) : Option (Name × List UInt8) :=
  match path.dropWhile (· == slash) with
  | [] => none
  | c :: cs => some (((c :: cs).takeWhile (· != slash)).take dirsiz,
      ((c :: cs).dropWhile (· != slash)).dropWhile (· == slash))

/-- Call `skipelem` until it returns 0; every element takes at least a byte of the path. -/
def elemsUpTo : ℕ → List UInt8 → List Name
  | 0, _ => []
  | n + 1, path =>
    match skipelem path with
    | none => []
    | some (name, rest) => name :: elemsUpTo n rest

def elems (path : List UInt8) : List Name := elemsUpTo path.length path

section Paths

variable {path rest : List UInt8} {name : Name}

theorem length_skipelem (h : skipelem path = some (name, rest)) : rest.length < path.length := by
  simp only [skipelem] at h
  split at h
  · exact nomatch h
  · next c cs hs =>
    cases h
    have hlen : (c :: cs).length ≤ path.length := hs ▸ (List.dropWhile_suffix _).length_le
    have hhead := List.head?_dropWhile_not (· == slash) path
    simp only [hs, List.head?_cons] at hhead
    have hbyte : (c != slash) = true := by simp [bne, hhead]
    simp only [List.dropWhile_cons, hbyte, if_true]
    have h1 := (List.dropWhile_suffix (l := cs) (· != slash)).length_le
    have h2 := (List.dropWhile_suffix (l := cs.dropWhile (· != slash)) (· == slash)).length_le
    simp only [List.length_cons] at hlen
    omega

theorem elemsUpTo_enough (path : List UInt8) {n m : ℕ} (hn : path.length ≤ n)
    (hm : path.length ≤ m) : elemsUpTo n path = elemsUpTo m path := by
  induction n generalizing path m with
  | zero =>
    have hnil : path = [] := List.eq_nil_of_length_eq_zero (Nat.le_zero.mp hn)
    subst hnil
    cases m with
    | zero => rfl
    | succ m => rfl
  | succ n ih =>
    cases m with
    | zero =>
      have hnil : path = [] := List.eq_nil_of_length_eq_zero (Nat.le_zero.mp hm)
      subst hnil
      rfl
    | succ m =>
      simp only [elemsUpTo]
      cases hs : skipelem path with
      | none => rfl
      | some r =>
        obtain ⟨name, rest⟩ := r
        have hlt := length_skipelem hs
        simp only [ih rest (m := m) (by omega) (by omega)]

/-- `elems` is `skipelem` called again and again. -/
theorem elems_eq (path : List UInt8) : elems path =
    match skipelem path with
    | none => []
    | some (name, rest) => name :: elems rest := by
  cases path with
  | nil => rfl
  | cons c cs =>
    simp only [elems, List.length_cons, elemsUpTo]
    cases hs : skipelem (c :: cs) with
    | none => rfl
    | some r =>
      obtain ⟨name, rest⟩ := r
      have hlt := length_skipelem hs
      simp only [List.length_cons] at hlt
      have henough := elemsUpTo_enough rest (Nat.le_of_lt_succ hlt) (Nat.le_refl _)
      simp only [henough]

end Paths

end Directories
