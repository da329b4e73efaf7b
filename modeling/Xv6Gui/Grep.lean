import Mathlib.Computability.Language
import Xv6Gui.WordMemory

/-!
# Patterns and lines of grep

grep.c matches by backtracking, and cuts lines out of a buffer that it fills again and again.
What it finds in a line are the words of the pattern's language, anchored where the pattern
says so, and what it prints of a file are the lines with such a word.
-/
namespace Grep

open WordMemory Computability

/-- A string, without its zero. -/
abbrev Str := List Byte

def newline : Byte := 10

def dollar : Byte := 36

def star : Byte := 42

def dot : Byte := 46

def caret : Byte := 94

/-- `here` is matchhere for the rest of the pattern. -/
def matchstar (here : Str → Bool) (c : Byte) : Str → Bool
  | [] => here []
  | d :: text => here (d :: text) || ((d == c || c == dot) && matchstar here c text)

def matchhere (re text : Str) : Bool :=
  match re with
  | [] => true
  | c :: re =>
    if re.head? = some star then matchstar (matchhere re.tail) c text
    else if c = dollar ∧ re = [] then text.isEmpty
    else
      match text with
      | [] => false
      | d :: text => (c == dot || c == d) && matchhere re text
termination_by re.length
decreasing_by
  · rw [List.length_tail, List.length_cons]
    omega
  · exact Nat.lt_succ_self _

/-- The loop of match. -/
def matchFrom (re : Str) : Str → Bool
  | [] => matchhere re []
  | d :: text => matchhere re (d :: text) || matchFrom re text

/-- match -/
def matchLine (re text : Str) : Bool :=
  if re.head? = some caret then matchhere re.tail text else matchFrom re text

/-! ### The language of a pattern -/

inductive Item where
  | one (c : Byte)
  | many (c : Byte)

/-- A pattern without its caret, and whether it ends in a dollar. -/
def items : Str → List Item × Bool
  | [] => ([], false)
  | c :: re =>
    if re.head? = some star then ((items re.tail).map (.many c :: ·) id)
    else if c = dollar ∧ re = [] then ([], true)
    else (items re).map (.one c :: ·) id
termination_by re => re.length
decreasing_by
  · rw [List.length_tail, List.length_cons]
    omega
  · exact Nat.lt_succ_self _

def Fits (c d : Byte) : Prop := c = dot ∨ c = d

def single (c : Byte) : Language Byte := {w | ∃ d, Fits c d ∧ w = [d]}

def Item.language : Item → Language Byte
  | .one c => single c
  | .many c => (single c)∗

def language (l : List Item) : Language Byte := (l.map Item.language).prod

/-- The text begins with a word of the language, and is one if it must end there. -/
def Begins (p : List Item × Bool) (text : Str) : Prop :=
  ∃ w rest, text = w ++ rest ∧ w ∈ language p.1 ∧ (p.2 = true → rest = [])

section Matching

variable {c d : Byte} {re text w : Str} {l : List Item} {e : Bool}

theorem mem_single_kstar : w ∈ (single c)∗ ↔ ∀ d ∈ w, Fits c d := by
  rw [Language.mem_kstar]
  constructor
  · rintro ⟨L, rfl, hL⟩ d hd
    obtain ⟨y, hy, hdy⟩ := List.mem_flatten.mp hd
    obtain ⟨d', hfits, rfl⟩ := hL y hy
    rwa [List.mem_singleton.mp hdy]
  · intro h
    refine ⟨w.map fun d => [d], ?_, ?_⟩
    · rw [← List.flatMap_def, List.flatMap_singleton']
    · intro y hy
      obtain ⟨d, hd, rfl⟩ := List.mem_map.mp hy
      exact ⟨d, h d hd, rfl⟩

theorem begins_nil : Begins ([], e) text ↔ (e = true → text = []) := by
  constructor
  · rintro ⟨w, rest, rfl, hw, he⟩ h
    rw [(Language.mem_one w).mp hw, he h, List.append_nil]
  · exact fun h => ⟨[], text, rfl, Language.nil_mem_one, h⟩

theorem begins_append {i : Item} : Begins (i :: l, e) text ↔
    ∃ w rest, text = w ++ rest ∧ w ∈ i.language ∧ Begins (l, e) rest := by
  constructor
  · rintro ⟨w, rest, rfl, hw, he⟩
    rw [language, List.map_cons, List.prod_cons] at hw
    obtain ⟨a, ha, b, hb, rfl⟩ := Language.mem_mul.mp hw
    exact ⟨a, b ++ rest, List.append_assoc .., ha, b, rest, rfl, hb, he⟩
  · rintro ⟨a, _, rfl, ha, b, rest, rfl, hb, he⟩
    refine ⟨a ++ b, rest, (List.append_assoc ..).symm, ?_, he⟩
    rw [language, List.map_cons, List.prod_cons]
    exact Language.mem_mul.mpr ⟨a, ha, b, hb, rfl⟩

theorem begins_one : Begins (.one c :: l, e) text ↔
    ∃ d rest, text = d :: rest ∧ Fits c d ∧ Begins (l, e) rest := by
  rw [begins_append]
  constructor
  · rintro ⟨_, rest, rfl, ⟨d, hfits, rfl⟩, hrest⟩
    exact ⟨d, rest, rfl, hfits, hrest⟩
  · rintro ⟨d, rest, rfl, hfits, hrest⟩
    exact ⟨[d], rest, rfl, ⟨d, hfits, rfl⟩, hrest⟩

theorem begins_many : Begins (.many c :: l, e) text ↔
    ∃ w rest, text = w ++ rest ∧ (∀ d ∈ w, Fits c d) ∧ Begins (l, e) rest := by
  rw [begins_append]
  simp only [Item.language, mem_single_kstar]

theorem matchstar_iff (here : Str → Bool) : matchstar here c text = true ↔
    ∃ w rest, text = w ++ rest ∧ (∀ d ∈ w, Fits c d) ∧ here rest = true := by
  induction text with
  | nil =>
    constructor
    · exact fun h => ⟨[], [], rfl, nofun, h⟩
    · rintro ⟨w, rest, h, -, hrest⟩
      obtain ⟨-, rfl⟩ := List.append_eq_nil_iff.mp h.symm
      exact hrest
  | cons d text ih =>
    have hfits : (d == c || c == dot) = true ↔ Fits c d := by
      rw [Bool.or_eq_true, beq_iff_eq, beq_iff_eq, Fits, or_comm, eq_comm (a := d)]
    rw [matchstar, Bool.or_eq_true, Bool.and_eq_true, hfits, ih]
    constructor
    · rintro (h | ⟨hd, w, rest, rfl, hw, hrest⟩)
      · exact ⟨[], d :: text, rfl, nofun, h⟩
      · exact ⟨d :: w, rest, rfl, List.forall_mem_cons.mpr ⟨hd, hw⟩, hrest⟩
    · rintro ⟨w, rest, h, hw, hrest⟩
      cases w with
      | nil => exact .inl (h ▸ hrest)
      | cons b w =>
        obtain ⟨rfl, rfl⟩ := List.cons.inj h
        obtain ⟨hd, hw⟩ := List.forall_mem_cons.mp hw
        exact .inr ⟨hd, w, rest, rfl, hw, hrest⟩

theorem matchhere_cons : matchhere (c :: re) text =
    if re.head? = some star then matchstar (matchhere re.tail) c text
    else if c = dollar ∧ re = [] then text.isEmpty
    else
      match text with
      | [] => false
      | d :: text => (c == dot || c == d) && matchhere re text := by
  rw [matchhere.eq_def]

theorem matchhere_iff : matchhere re text = true ↔ Begins (items re) text := by
  induction h : re.length using Nat.strong_induction_on generalizing re text with
  | h n ih =>
    subst h
    cases re with
    | nil =>
      rw [matchhere, items, begins_nil]
      exact iff_of_true rfl nofun
    | cons c re =>
      rw [matchhere_cons, items]
      by_cases hstar : re.head? = some star
      · have htail : re.tail.length < (c :: re).length := by
          rw [List.length_tail, List.length_cons]
          omega
        rw [if_pos hstar, if_pos hstar, matchstar_iff]
        refine Iff.trans ?_ begins_many.symm
        refine exists_congr fun w => exists_congr fun rest => and_congr_right' ?_
        exact and_congr_right' (ih _ htail rfl)
      · rw [if_neg hstar, if_neg hstar]
        by_cases hend : c = dollar ∧ re = []
        · rw [if_pos hend, if_pos hend, begins_nil, List.isEmpty_iff]
          exact ⟨fun h _ => h, fun h => h rfl⟩
        · rw [if_neg hend, if_neg hend]
          refine Iff.trans ?_ begins_one.symm
          cases text with
          | nil => exact iff_of_false nofun (by rintro ⟨_, _, h, -⟩; cases h)
          | cons d text =>
            have hrec : matchhere re text = true ↔ Begins (items re) text :=
              ih re.length (Nat.lt_succ_self _) rfl
            rw [Bool.and_eq_true, Bool.or_eq_true, beq_iff_eq, beq_iff_eq, hrec]
            constructor
            · exact fun h => ⟨d, text, rfl, h.1, h.2⟩
            · rintro ⟨_, _, h, hfits, hrest⟩
              obtain ⟨rfl, rfl⟩ := List.cons.inj h
              exact ⟨hfits, hrest⟩

/-- Looking for a pattern anywhere is skipping characters as `.*` does. -/
theorem matchFrom_eq : matchFrom re text = matchstar (matchhere re) dot text := by
  induction text with
  | nil => rfl
  | cons d text ih => rw [matchFrom, matchstar, ih, beq_self_eq_true, Bool.or_true, Bool.true_and]

theorem matchFrom_iff : matchFrom re text = true ↔
    ∃ before rest, text = before ++ rest ∧ matchhere re rest = true := by
  rw [matchFrom_eq, matchstar_iff]
  constructor
  · rintro ⟨before, rest, h, -, hrest⟩
    exact ⟨before, rest, h, hrest⟩
  · rintro ⟨before, rest, h, hrest⟩
    exact ⟨before, rest, h, fun _ _ => .inl rfl, hrest⟩

/-- The pattern without a leading caret. -/
def body (re : Str) : Str := if re.head? = some caret then re.tail else re

/-- The backtracking matcher finds a pattern in a line exactly if a word of its language stands
there, at the start behind a caret and at the end in front of a dollar. -/
theorem match_exact (re text : Str) : matchLine re text = true ↔
    ∃ before w after, text = before ++ w ++ after ∧ w ∈ language (items (body re)).1 ∧
      (re.head? = some caret → before = []) ∧ ((items (body re)).2 = true → after = []) := by
  rw [matchLine, body]
  by_cases hcaret : re.head? = some caret
  · rw [if_pos hcaret, if_pos hcaret, matchhere_iff]
    constructor
    · rintro ⟨w, rest, rfl, hw, he⟩
      exact ⟨[], w, rest, rfl, hw, fun _ => rfl, he⟩
    · rintro ⟨before, w, after, rfl, hw, hbefore, he⟩
      rw [hbefore hcaret]
      exact ⟨w, after, rfl, hw, he⟩
  · rw [if_neg hcaret, if_neg hcaret, matchFrom_iff]
    constructor
    · rintro ⟨before, rest, rfl, h⟩
      obtain ⟨w, after, rfl, hw, he⟩ := matchhere_iff.mp h
      exact ⟨before, w, after, (List.append_assoc ..).symm, hw, fun h => absurd h hcaret, he⟩
    · rintro ⟨before, w, after, rfl, hw, -, he⟩
      refine ⟨before, w ++ after, List.append_assoc .., matchhere_iff.mpr ?_⟩
      exact ⟨w, after, rfl, hw, he⟩

end Matching

/-! ### The lines of a file -/

def bufSize : ℕ := 1024

/-- What stands on both sides of the newline that strchr finds. -/
def strchr : Str → Option (Str × Str)
  | [] => none
  | b :: p =>
    if b = 0 then none
    else if b = newline then some ([], p)
    else (strchr p).map fun r => (b :: r.1, r.2)

theorem strchr_length {p : Str} {r : Str × Str} (h : strchr p = some r) :
    r.2.length < p.length := by
  induction p generalizing r with
  | nil => cases h
  | cons b p ih =>
    rw [strchr] at h
    split at h
    · cases h
    · split at h
      · cases h
        exact Nat.lt_succ_self _
      · obtain ⟨q, hq, rfl⟩ := Option.map_eq_some_iff.mp h
        exact (ih hq).trans (Nat.lt_succ_self _)

/-- The loop over the lines in the buffer: what it prints, and what is left at p. -/
def printLines (re p : Str) : Str × Str :=
  match _h : strchr p with
  | none => ([], p)
  | some r =>
    let t := printLines re r.2
    ((if matchLine re r.1 then r.1 ++ [newline] else []) ++ t.1, t.2)
termination_by p.length
decreasing_by exact strchr_length _h

/-- One round: what it prints, and the bytes that stay in the buffer. -/
def round (re kept chunk : Str) : Str × Str :=
  let t := printLines re (kept ++ chunk)
  (t.1, if t.2.length = (kept ++ chunk).length then [] else t.2)

/-- grep with what is left of the file, of which read returns as much as fits. -/
def grep (re kept file : Str) : Str :=
  if _h : file.take (bufSize - kept.length - 1) = [] then []
  else
    let t := round re kept (file.take (bufSize - kept.length - 1))
    t.1 ++ grep re t.2 (file.drop (bufSize - kept.length - 1))
termination_by file.length
decreasing_by
  rw [List.take_eq_nil_iff, not_or] at _h
  rw [List.length_drop]
  have := List.length_pos_iff.mpr _h.2
  omega

/-- Lines, each with its newline. -/
def joined (lines : List Str) : Str := lines.flatMap (· ++ [newline])

section Lines

variable {re l p rest part kept file : Str} {lines : List Str} {n : ℕ}

theorem strchr_line (hl : newline ∉ l) (hzero : 0 ∉ l) :
    strchr (l ++ newline :: p) = some (l, p) := by
  induction l with
  | nil => rfl
  | cons b l ih =>
    obtain ⟨hb, hl⟩ := not_or.mp (List.mem_cons.not.mp hl)
    obtain ⟨hb', hzero⟩ := not_or.mp (List.mem_cons.not.mp hzero)
    rw [List.cons_append, strchr, if_neg (Ne.symm hb'), if_neg (Ne.symm hb), ih hl hzero]
    rfl

theorem strchr_none (hp : newline ∉ p) : strchr p = none := by
  induction p with
  | nil => rfl
  | cons b p ih =>
    obtain ⟨hb, hp⟩ := not_or.mp (List.mem_cons.not.mp hp)
    rw [strchr, if_neg (Ne.symm hb), ih hp, Option.map_none, ite_self]

theorem joined_cons (l : Str) (lines : List Str) :
    joined (l :: lines) = l ++ newline :: joined lines := by
  rw [joined, List.flatMap_cons, List.append_assoc]
  rfl

theorem joined_append (xs ys : List Str) : joined (xs ++ ys) = joined xs ++ joined ys :=
  List.flatMap_append

theorem printLines_joined (hl : ∀ l ∈ lines, newline ∉ l ∧ 0 ∉ l) (hp : newline ∉ part) :
    printLines re (joined lines ++ part) = (joined (lines.filter (matchLine re)), part) := by
  induction lines with
  | nil =>
    rw [printLines]
    split
    · rfl
    · rename_i r h
      rw [show joined [] ++ part = part from rfl, strchr_none hp] at h
      cases h
  | cons l lines ih =>
    obtain ⟨hhead, htail⟩ := List.forall_mem_cons.mp hl
    have hcut : strchr (joined (l :: lines) ++ part) = some (l, joined lines ++ part) := by
      rw [joined_cons, List.append_assoc, List.cons_append, strchr_line hhead.1 hhead.2]
    rw [printLines]
    split
    · rename_i h
      rw [hcut] at h
      cases h
    · rename_i r h
      rw [hcut] at h
      cases h
      dsimp only
      rw [ih htail]
      by_cases hm : matchLine re l = true
      · rw [if_pos hm, List.filter_cons_of_pos hm, joined_cons, List.append_assoc]
        rfl
      · rw [if_neg hm, List.filter_cons_of_neg hm, List.nil_append]

/-- The lines in front of a place in a file, and the part of a line between them and it. -/
theorem take_joined (hl : ∀ l ∈ lines, newline ∉ l) (hr : newline ∉ rest) (n : ℕ) :
    ∃ done todo part, lines = done ++ todo ∧
      (joined lines ++ rest).take n = joined done ++ part ∧ newline ∉ part ∧
      part ++ (joined lines ++ rest).drop n = joined todo ++ rest ∧
      (done = [] → ∀ l ∈ lines.head?, n ≤ l.length) := by
  induction lines generalizing n with
  | nil =>
    refine ⟨[], [], rest.take n, rfl, rfl, fun h => hr (List.mem_of_mem_take h), ?_, fun _ => nofun⟩
    exact List.take_append_drop n rest
  | cons l lines ih =>
    obtain ⟨hhead, htail⟩ := List.forall_mem_cons.mp hl
    have htext : joined (l :: lines) ++ rest = l ++ newline :: (joined lines ++ rest) := by
      rw [joined_cons, List.append_assoc, List.cons_append]
    by_cases hn : n ≤ l.length
    · have htake : (joined (l :: lines) ++ rest).take n = l.take n := by
        rw [htext, List.take_append_of_le_length hn]
      refine ⟨[], l :: lines, l.take n, rfl, htake, fun h => hhead (List.mem_of_mem_take h), ?_, ?_⟩
      · rw [← htake, List.take_append_drop]
      · rintro - _ ⟨⟩
        exact hn
    · obtain ⟨m, rfl⟩ : ∃ m, n = l.length + (m + 1) := ⟨n - l.length - 1, by omega⟩
      obtain ⟨done, todo, part, rfl, htake, hpart, hdrop, -⟩ := ih htail m
      refine ⟨l :: done, todo, part, rfl, ?_, hpart, ?_, fun h => absurd h (List.cons_ne_nil _ _)⟩
      · rw [htext, List.take_length_add_append, List.take_succ_cons, htake, joined_cons,
          List.append_assoc, List.cons_append]
      · rw [htext, List.drop_length_add_append, List.drop_succ_cons, hdrop]

theorem newline_mem_joined (h : lines ≠ []) : newline ∈ joined lines := by
  cases lines with
  | nil => exact absurd rfl h
  | cons l lines =>
    rw [joined_cons]
    exact List.mem_append_right _ List.mem_cons_self

theorem grep_lines (hkept : newline ∉ kept) (hlen : kept.length + 1 < bufSize)
    (hl : ∀ l ∈ lines, newline ∉ l ∧ 0 ∉ l) (hfit : ∀ l ∈ lines, l.length + 1 < bufSize)
    (hr : newline ∉ rest) (htext : kept ++ file = joined lines ++ rest) :
    grep re kept file = joined (lines.filter (matchLine re)) := by
  induction h : file.length using Nat.strong_induction_on generalizing kept file lines rest with
  | h n ih =>
    subst h
    rw [grep]
    by_cases hend : file.take (bufSize - kept.length - 1) = []
    · rw [dif_pos hend]
      have hfile : file = [] := by
        rcases List.take_eq_nil_iff.mp hend with h | h
        · omega
        · exact h
      have hlines : lines = [] := by
        by_contra hne
        refine hkept ?_
        rw [hfile, List.append_nil] at htext
        exact htext ▸ List.mem_append_left _ (newline_mem_joined hne)
      rw [hlines]
      rfl
    · rw [dif_neg hend]
      have hpos := not_or.mp (List.take_eq_nil_iff.not.mp hend)
      have hshort : (file.drop (bufSize - kept.length - 1)).length < file.length := by
        have := List.length_pos_iff.mpr hpos.2
        rw [List.length_drop]
        omega
      have hfull : kept.length ≤ bufSize - 1 := by omega
      have hroom : bufSize - 1 - kept.length = bufSize - kept.length - 1 := Nat.sub_right_comm ..
      have hbuf : kept ++ file.take (bufSize - kept.length - 1) =
          (joined lines ++ rest).take (bufSize - 1) := by
        rw [← htext, List.take_append, List.take_of_length_le hfull, hroom]
      have hleft : file.drop (bufSize - kept.length - 1) =
          (joined lines ++ rest).drop (bufSize - 1) := by
        rw [← htext, List.drop_append, List.drop_of_length_le hfull, List.nil_append, hroom]
      obtain ⟨done, todo, part, rfl, htake, hpart, hdrop, hfirst⟩ :=
        take_joined (fun l hl' => (hl l hl').1) hr (bufSize - 1)
      have hlines := List.forall_mem_append.mp hl
      have hfits := List.forall_mem_append.mp hfit
      have hprint : printLines re (joined done ++ part) =
          (joined (done.filter (matchLine re)), part) := printLines_joined hlines.1 hpart
      simp only [round, hbuf, htake, hprint]
      rw [List.filter_append, joined_append]
      refine congrArg (joined (done.filter (matchLine re)) ++ ·) ?_
      rw [← hleft] at hdrop
      by_cases hdone : done = []
      · -- A first line would be in the buffer.
        have htodo : todo = [] := by
          cases todo with
          | nil => rfl
          | cons l todo =>
            have hlong := hfirst hdone l (by rw [hdone]; rfl)
            have := hfits.2 l List.mem_cons_self
            omega
        subst hdone htodo
        have hsame : part.length = (joined [] ++ part).length := rfl
        rw [if_pos hsame]
        refine ih _ hshort List.not_mem_nil (by decide) hlines.2 hfits.2 (fun h => hr ?_) rfl rfl
        have hrest : part ++ file.drop (bufSize - kept.length - 1) = rest := hdrop
        exact hrest ▸ List.mem_append_right _ h
      · have hless : part.length < (joined done ++ part).length := by
          have := List.length_pos_of_mem (newline_mem_joined hdone)
          rw [List.length_append]
          omega
        have hbound : (joined done ++ part).length ≤ bufSize - 1 := htake ▸ List.length_take_le _ _
        rw [if_neg hless.ne]
        exact ih _ hshort hpart (by omega) hlines.2 hfits.2 hr hdrop rfl

/-- Of a file whose lines fit into the buffer, grep prints the lines that match, one after another,
wherever the reads cut them, and nothing of what follows the last newline. -/
theorem grep_exact (re rest : Str) (lines : List Str) (hl : ∀ l ∈ lines, newline ∉ l ∧ 0 ∉ l)
    (hfit : ∀ l ∈ lines, l.length + 1 < bufSize) (hr : newline ∉ rest) :
    grep re [] (joined lines ++ rest) = joined (lines.filter (matchLine re)) :=
  grep_lines nofun (by decide) hl hfit hr rfl

/-- `^a*$` on three lines and a rest. The first read ends in the second line. -/
theorem grep_exact_cut :
    grep [94, 97, 42, 36] []
        (joined [List.replicate 700 97, List.replicate 700 98, [97, 97]] ++ [97]) =
      joined [List.replicate 700 97, [97, 97]] := by
  have hend : matchhere [36] = List.isEmpty := by
    funext text
    rw [matchhere_cons, if_neg (by decide), if_pos (by decide)]
  have hline : ∀ text, matchLine [94, 97, 42, 36] text = matchstar List.isEmpty 97 text := by
    intro text
    rw [matchLine, if_pos (by decide), List.tail_cons, matchhere_cons, if_pos (by decide),
      List.tail_cons, hend]
  have hstar : ∀ n, matchstar List.isEmpty 97 (List.replicate n 97) = true := by
    intro n
    induction n with
    | zero => rfl
    | succ n ih =>
      rw [List.replicate_succ, matchstar, ih]
      rfl
  rw [grep_exact [94, 97, 42, 36] [97] [List.replicate 700 97, List.replicate 700 98, [97, 97]]
    (by decide +kernel) (by decide +kernel) (by decide)]
  have hfirst : matchLine [94, 97, 42, 36] (List.replicate 700 97) = true :=
    (hline _).trans (hstar 700)
  have hsecond : ¬ matchLine [94, 97, 42, 36] (List.replicate 700 98) = true := by
    rw [hline]
    exact Bool.false_ne_true
  have hthird : matchLine [94, 97, 42, 36] [97, 97] = true := (hline _).trans (hstar 2)
  rw [List.filter_cons_of_pos hfirst, List.filter_cons_of_neg hsecond,
    List.filter_cons_of_pos hthird, List.filter_nil]

end Lines

end Grep
