import Xv6Gui.FileContents
import Xv6Gui.FileWrites
import Mathlib.Algebra.Order.BigOperators.Group.Finset

/-!
# Writing through a shared struct file

filewrite calls of several processes through one struct file that is open for writing on a
regular file. The processes share the offset, and one of them at a time goes around the loop of
filewrite between begin_op and end_op.
-/
namespace SharedWrites

open WordMemory DiskBlocks BlockMaps GuardedRuns Ledgers BlockOwnership BlockMapping FileBlocks
  FileWrites
open WindowManagerState (Fault ProcId)
open FileContents (maxWrite)

/-- A call of `filewrite` after `i` bytes. -/
structure Call where
  addr : Memory
  n : Word
  i : ℕ

/-- What is still to write of a call. -/
def Call.rest (c : Call) : List Byte :=
  (List.range (c.n.toInt.toNat - c.i)).map fun k => c.addr (c.i + k)

/-- Each process has the calls it makes, the one it is in first. -/
structure System where
  disk : Disk
  ip : Inode
  off : Word
  todo : ProcId → List Call
  results : ProcId → List ℤ

def finish (s : System) (p : ProcId) (c : Call) (cs : List Call) : System :=
  { s with
    todo := Function.update s.todo p cs
    results := Function.update s.results p
      (s.results p ++ [if (c.i : ℤ) = c.n.toInt then c.n.toInt else -1]) }

/-- Once around the loop of `filewrite`, or out of it. -/
def step (sb : Superblock) (s : System) (p : ProcId) : Except Fault System :=
  match s.todo p with
  | [] => .ok s
  | c :: cs =>
    if (c.i : ℤ) < c.n.toInt then
      let n1 := min (c.n.toInt - c.i) maxWrite
      writei sb s.disk s.ip (fun k => c.addr (c.i + k)) s.off (BitVec.ofInt 32 n1) >>= fun r =>
        let off := if r.1 > 0 then s.off + BitVec.ofInt 32 r.1 else s.off
        let t := { s with disk := r.2.1, ip := r.2.2, off := off }
        if r.1 < 0 then .ok (finish t p c cs)
        else if r.1 ≠ n1 then .error (.panic "short filewrite")
        else
          let c' := { c with i := c.i + r.1.toNat }
          .ok { t with todo := Function.update t.todo p (c' :: cs) }
    else .ok (finish s p c cs)

/-- What the process hands to `writei` in its next round. -/
def chunk (s : System) (p : ProcId) : List (ProcId × List Byte) :=
  match s.todo p with
  | [] => []
  | c :: _ => if c.rest = [] then [] else [(p, c.rest.take maxWrite)]

def pieces (src : List Byte) : List (List Byte) :=
  if src = [] then [] else src.take maxWrite :: pieces (src.drop maxWrite)
  termination_by src.length
  decreasing_by
    have hpos := List.length_pos_iff.mpr ‹_›
    rw [List.length_drop]
    have hmax : maxWrite = 1536 := rfl
    omega

/-- The pieces that a process has yet to write. -/
def pending (s : System) (p : ProcId) : List (List Byte) :=
  (s.todo p).flatMap fun c => pieces c.rest

/-- The bytes that are yet to be written. -/
def left (s : System) : ℕ := ∑ p, ((s.todo p).map fun c => c.rest.length).sum

/-- What a call returns when nothing goes wrong. -/
def returns (c : Call) : ℤ := if 0 ≤ c.n.toInt then c.n.toInt else -1

/-- The offset is at the end of the file, and there is room for all that is yet to be written. -/
structure Ready (sb : Layout) (i : ℕ) (s : System) : Prop where
  wellMapped : WellMapped sb s.disk
  inum_lt : i < sb.ninodes
  type : (dinode sb.toSuperblock s.disk i).type = tFile
  loaded : s.ip = load sb.toSuperblock s.disk i
  at_end : s.off = (dinode sb.toSuperblock s.disk i).size
  fits : (dinode sb.toSuperblock s.disk i).size.toNat + left s ≤ maxfile * bsize
  free : (missing s.disk (dinode sb.toSuperblock s.disk i)
      (span (dinode sb.toSuperblock s.disk i).size.toNat (left s))).card ≤
    (freeBlocks sb.toSuperblock s.disk).card
  started : ∀ p, ∀ c ∈ s.todo p, (c.i : ℤ) ≤ max 0 c.n.toInt

section Costs

variable {sb : Layout} {d d' : Disk} {ip ip' : Inode} {src : Memory} {i : ℕ}

theorem freeBlocks_iupdate (hi : ip.inum < sb.ninodes) :
    freeBlocks sb.toSuperblock (iupdate sb.toSuperblock d ip) = freeBlocks sb.toSuperblock d := by
  apply Finset.filter_congr
  intro b _
  rw [marked_iupdate hi]

/-- A write takes the free blocks that the slots it fills were missing. -/
theorem writei_cost {off n : Word} {r : ℤ} (hd : WellMapped sb d) (hi : i < sb.ninodes)
    (htype : (dinode sb.toSuperblock d i).type ≠ 0)
    (hcan : ¬Refused (dinode sb.toSuperblock d i).size off n)
    (h : writei sb.toSuperblock d (load sb.toSuperblock d i) src off n = .ok (r, d', ip'))
    (k : ℕ) :
    (missing d (dinode sb.toSuperblock d i) (span off.toNat (n.toNat + k))).card +
        (freeBlocks sb.toSuperblock d').card =
      (missing d' ip'.toDinode (span (off.toNat + n.toNat) k)).card +
        (freeBlocks sb.toSuperblock d).card := by
  have hs := hd.intact hi htype
  rcases writei_cases h with ⟨hrefused, -⟩ | ⟨-, -, e, iq, hw, -, -, hcase⟩
  · exact absurd hrefused hcan
  · obtain ⟨hfills, -⟩ := writeBlocks_spec hs hw
    have hunion := hfills.card_missing_union hs (span (off.toNat + n.toNat) k)
    have hcost := hfills.cost
    rw [← span_add] at hunion
    have hsame : freeBlocks sb.toSuperblock d' = freeBlocks sb.toSuperblock e ∧
        ∀ T, missing d' ip'.toDinode T = missing e iq.toDinode T := by
      rcases hcase with ⟨-, rfl, rfl⟩ | ⟨-, hip, hd'⟩
      · exact ⟨rfl, fun _ => rfl⟩
      · have hs' := intact_setSize (hs.evolves hfills.toEvolves) (off + n)
        rw [← hip] at hs'
        rw [hd']
        refine ⟨freeBlocks_iupdate hs'.inum_lt, ?_⟩
        intro T
        apply Finset.filter_congr
        intro l _
        have hslot := slot_of_data_blocks (iupdate_data (d := e) hs'.inum_lt)
          (fun l hl => (hs'.slot_data hl).1) l
        have hfields : slot e ip'.toDinode l = slot e iq.toDinode l := by
          rw [hip]
          exact slot_congr rfl fun _ => rfl
        rw [hslot, hfields]
    rw [hsame.1, hsame.2]
    change (missing d (load sb.toSuperblock d i).toDinode _).card + _ = _
    omega

/-- Bytes written at the end of a file are appended, at the cost of the blocks they need. -/
theorem append_writes {m k : ℕ} (src : Memory) (hd : WellMapped sb d) (hi : i < sb.ninodes)
    (htype : (dinode sb.toSuperblock d i).type ≠ 0) (hle : m ≤ k)
    (hfits : (dinode sb.toSuperblock d i).size.toNat + k ≤ maxfile * bsize)
    (hfree : (missing d (dinode sb.toSuperblock d i)
        (span (dinode sb.toSuperblock d i).size.toNat k)).card ≤
      (freeBlocks sb.toSuperblock d).card) :
    ∃ d', writei sb.toSuperblock d (load sb.toSuperblock d i) src
        (dinode sb.toSuperblock d i).size (BitVec.ofNat 32 m) =
          .ok ((m : ℤ), d', load sb.toSuperblock d' i) ∧ WellMapped sb d' ∧
      (dinode sb.toSuperblock d' i).type = (dinode sb.toSuperblock d i).type ∧
      (dinode sb.toSuperblock d' i).size.toNat = (dinode sb.toSuperblock d i).size.toNat + m ∧
      contents d' (dinode sb.toSuperblock d' i) =
        contents d (dinode sb.toSuperblock d i) ++ (List.range m).map src ∧
      (missing d' (dinode sb.toSuperblock d' i)
          (span (dinode sb.toSuperblock d' i).size.toNat (k - m))).card ≤
        (freeBlocks sb.toSuperblock d').card := by
  have hlimit : maxfile * bsize = 1073152 := rfl
  rw [hlimit] at hfits
  have hm' : (BitVec.ofNat 32 m).toNat = m := by
    rw [BitVec.toNat_ofNat]
    exact Nat.mod_eq_of_lt (by omega)
  have hcan : ¬Refused (dinode sb.toSuperblock d i).size (dinode sb.toSuperblock d i).size
      (BitVec.ofNat 32 m) := by
    rw [Refused, hm', hlimit]
    omega
  have hsplit := span_add (dinode sb.toSuperblock d i).size.toNat m (k - m)
  rw [Nat.add_sub_cancel' hle] at hsplit
  have hfirst : (missing d (dinode sb.toSuperblock d i)
      (span (dinode sb.toSuperblock d i).size.toNat (BitVec.ofNat 32 m).toNat)).card ≤
        (freeBlocks sb.toSuperblock d).card := by
    rw [hm']
    rw [hsplit] at hfree
    exact (card_missing_mono _ _ Finset.subset_union_left).trans hfree
  obtain ⟨r, d', ip', h⟩ : ∃ r d' ip', writei sb.toSuperblock d (load sb.toSuperblock d i) src
      (dinode sb.toSuperblock d i).size (BitVec.ofNat 32 m) = .ok (r, d', ip') :=
    writei_returns hd hi htype fun _ => hfirst
  have hcost := writei_cost hd hi htype hcan h (k - m)
  rcases writei_spec hd hi htype h with ⟨hrefused, -⟩ | ⟨-, hr, hw⟩
  · exact absurd hrefused hcan
  obtain rfl := hw.loaded
  rw [hm'] at hr hw hcost
  rw [Nat.add_sub_cancel' hle] at hcost
  have hsize : (dinode sb.toSuperblock d' i).size.toNat =
      (dinode sb.toSuperblock d i).size.toNat + m := by
    have hmax := hw.size
    rw [max_eq_right (Nat.le_add_right _ _)] at hmax
    exact hmax
  have hcontents := hw.contents
  have hlen := length_contents d (dinode sb.toSuperblock d i)
  have hdrop : (contents d (dinode sb.toSuperblock d i)).drop
      ((dinode sb.toSuperblock d i).size.toNat + ((List.range m).map src).length) = [] :=
    List.drop_eq_nil_of_le (hlen.le.trans (Nat.le_add_right _ _))
  rw [splice, List.take_of_length_le hlen.le, hdrop, List.append_nil] at hcontents
  rw [hr] at h
  refine ⟨d', h, hw.wellMapped, hw.type, hsize, hcontents, ?_⟩
  rw [hsize]
  change _ = (missing d' (dinode sb.toSuperblock d' i) _).card + _ at hcost
  omega

end Costs

section Calls

variable {c : Call} {s t : System} {p : ProcId}

theorem length_rest (c : Call) : c.rest.length = c.n.toInt.toNat - c.i := by
  rw [Call.rest, List.length_map, List.length_range]

theorem rest_eq_nil : c.rest = [] ↔ ¬(c.i : ℤ) < c.n.toInt := by
  rw [← List.length_eq_zero_iff, length_rest]
  omega

/-- What is left after some more bytes. -/
theorem rest_drop (c : Call) (m : ℕ) : { c with i := c.i + m }.rest = c.rest.drop m := by
  apply List.ext_getElem
  · rw [List.length_drop, length_rest, length_rest]
    exact (Nat.sub_sub _ _ _).symm
  · intro k hk hk'
    simp only [Call.rest, List.getElem_map, List.getElem_range, List.getElem_drop, Nat.add_assoc]

theorem take_rest (c : Call) (m : ℕ) :
    (List.range (c.rest.take m).length).map (fun k => c.addr (c.i + k)) = c.rest.take m := by
  apply List.ext_getElem
  · rw [List.length_map, List.length_range]
  · intro k hk hk'
    simp only [Call.rest, List.getElem_map, List.getElem_range, List.getElem_take]

theorem pieces_nil : pieces [] = [] := by
  rw [pieces]
  exact if_pos rfl

theorem pieces_of_ne {src : List Byte} (h : src ≠ []) :
    pieces src = src.take maxWrite :: pieces (src.drop maxWrite) := by
  rw [pieces, if_neg h]

/-- A short write is a single piece. -/
theorem pieces_short {src : List Byte} (h : src ≠ []) (hlen : src.length ≤ maxWrite) :
    pieces src = [src] := by
  rw [pieces_of_ne h, List.take_of_length_le hlen, List.drop_eq_nil_of_le hlen, pieces_nil]

theorem finished (h : ¬(c.i : ℤ) < c.n.toInt) (hstarted : (c.i : ℤ) ≤ max 0 c.n.toInt) :
    (if (c.i : ℤ) = c.n.toInt then c.n.toInt else -1) = returns c := by
  unfold returns
  by_cases hn : 0 ≤ c.n.toInt
  · rw [max_eq_right hn] at hstarted
    rw [if_pos (le_antisymm hstarted (not_lt.mp h)), if_pos hn]
  · have hne : (c.i : ℤ) ≠ c.n.toInt := by omega
    rw [if_neg hne, if_neg hn]

/-- Only what one process has to do differs. -/
theorem left_update (hother : ∀ q ≠ p, t.todo q = s.todo q) :
    left t + ((s.todo p).map fun c => c.rest.length).sum =
      left s + ((t.todo p).map fun c => c.rest.length).sum := by
  have hsum : ∀ u : System, left u = ((u.todo p).map fun c => c.rest.length).sum +
      ∑ q ∈ Finset.univ.erase p, ((u.todo q).map fun c => c.rest.length).sum :=
    fun u => (Finset.add_sum_erase _ _ (Finset.mem_univ p)).symm
  have hrest : ∑ q ∈ Finset.univ.erase p, ((t.todo q).map fun c => c.rest.length).sum =
      ∑ q ∈ Finset.univ.erase p, ((s.todo q).map fun c => c.rest.length).sum := by
    apply Finset.sum_congr rfl
    intro q hq
    rw [hother q (Finset.ne_of_mem_erase hq)]
  rw [hsum t, hsum s, hrest]
  omega

theorem head_le_left {cs : List Call} (h : s.todo p = c :: cs) : c.rest.length ≤ left s := by
  have hp : ((s.todo p).map fun c => c.rest.length).sum ≤ left s :=
    Finset.single_le_sum (f := fun p => ((s.todo p).map fun c => c.rest.length).sum)
      (fun _ _ => Nat.zero_le _) (Finset.mem_univ p)
  rw [h, List.map_cons, List.sum_cons] at hp
  omega

end Calls

/-- The pieces in `o` go to the end of the file, those of each process in the order in which it
makes its calls, and calls return what they should. -/
structure Appends (sb : Superblock) (i : ℕ) (s : System) (o : List (ProcId × List Byte))
    (t : System) : Prop where
  contents : contents t.disk (dinode sb t.disk i) =
    FileWrites.contents s.disk (dinode sb s.disk i) ++ (o.map Prod.snd).flatten
  size : (dinode sb t.disk i).size.toNat + left t = (dinode sb s.disk i).size.toNat + left s
  pieces : ∀ p, (o.filter fun x => x.1 = p).map Prod.snd ++ pending t p = pending s p
  results : ∀ p, t.results p ++ (t.todo p).map returns = s.results p ++ (s.todo p).map returns

section Rounds

variable {sb : Layout} {s t u : System} {o o' : List (ProcId × List Byte)} {p : ProcId}
  {c : Call} {cs : List Call} {i : ℕ}

theorem Appends.refl (sb : Superblock) (i : ℕ) (s : System) : Appends sb i s [] s := by
  refine ⟨?_, rfl, fun _ => rfl, fun _ => rfl⟩
  exact (List.append_nil _).symm

theorem Appends.trans {sb : Superblock} (h : Appends sb i s o t) (h' : Appends sb i t o' u) :
    Appends sb i s (o ++ o') u := by
  constructor
  case contents =>
    rw [h'.contents, h.contents, List.map_append, List.flatten_append, List.append_assoc]
  case size => exact h'.size.trans h.size
  case pieces =>
    intro p
    rw [List.filter_append, List.map_append, List.append_assoc, h'.pieces p, h.pieces p]
  case results => exact fun p => (h'.results p).trans (h.results p)

/-- A round that leaves the loop of `filewrite`. -/
theorem finish_spec (hs : Ready sb i s) (hp : s.todo p = c :: cs)
    (hdone : ¬(c.i : ℤ) < c.n.toInt) :
    Ready sb i (finish s p c cs) ∧ Appends sb.toSuperblock i s [] (finish s p c cs) := by
  have hrest : c.rest = [] := rest_eq_nil.mpr hdone
  have hself : (finish s p c cs).todo p = cs := Function.update_self ..
  have hother : ∀ q ≠ p, (finish s p c cs).todo q = s.todo q :=
    fun q hq => Function.update_of_ne hq _ _
  have hleft : left (finish s p c cs) = left s := by
    have hsum := left_update (t := finish s p c cs) hother
    rw [hself, hp, List.map_cons, List.sum_cons, hrest, List.length_nil, Nat.zero_add] at hsum
    exact Nat.add_right_cancel hsum
  constructor
  · constructor
    case wellMapped => exact hs.wellMapped
    case inum_lt => exact hs.inum_lt
    case type => exact hs.type
    case loaded => exact hs.loaded
    case at_end => exact hs.at_end
    case fits =>
      rw [hleft]
      exact hs.fits
    case free =>
      rw [hleft]
      exact hs.free
    case started =>
      intro q e he
      by_cases hq : q = p
      · subst hq
        rw [hself] at he
        exact hs.started q e (hp ▸ List.mem_cons_of_mem c he)
      · rw [hother q hq] at he
        exact hs.started q e he
  · constructor
    case contents => exact (List.append_nil _).symm
    case size => exact congrArg ((dinode sb.toSuperblock s.disk i).size.toNat + ·) hleft
    case pieces =>
      intro q
      rw [List.filter_nil, List.map_nil, List.nil_append]
      by_cases hq : q = p
      · subst hq
        rw [pending, pending, hself, hp, List.flatMap_cons, hrest, pieces_nil, List.nil_append]
      · rw [pending, pending, hother q hq]
    case results =>
      intro q
      by_cases hq : q = p
      · subst hq
        have hresults : (finish s q c cs).results q =
            s.results q ++ [if (c.i : ℤ) = c.n.toInt then c.n.toInt else -1] :=
          Function.update_self ..
        have hstarted := hs.started q c (hp ▸ List.mem_cons_self)
        rw [hself, hp, hresults, finished hdone hstarted, List.append_assoc]
        rfl
      · have hresults : (finish s p c cs).results q = s.results q :=
          Function.update_of_ne hq _ _
        rw [hother q hq, hresults]

/-- The state after a round that writes. -/
def wrote (sb : Superblock) (i : ℕ) (s : System) (p : ProcId) (d : Disk) (c : Call)
    (cs : List Call) : System :=
  { s with
    disk := d
    ip := load sb d i
    off := (dinode sb d i).size
    todo := Function.update s.todo p
      ({ c with i := c.i + (c.rest.take maxWrite).length } :: cs) }

theorem todo_wrote_self (sb : Superblock) (i : ℕ) (s : System) (p : ProcId) (d : Disk) (c : Call)
    (cs : List Call) : (wrote sb i s p d c cs).todo p =
      { c with i := c.i + (c.rest.take maxWrite).length } :: cs := Function.update_self ..

theorem todo_wrote_of_ne {sb : Superblock} {d : Disk} {q : ProcId} (hq : q ≠ p) :
    (wrote sb i s p d c cs).todo q = s.todo q := Function.update_of_ne hq _ _

theorem left_wrote {d : Disk} (hp : s.todo p = c :: cs) :
    left (wrote sb.toSuperblock i s p d c cs) = left s - (c.rest.take maxWrite).length := by
  have hsum := left_update (t := wrote sb.toSuperblock i s p d c cs) fun q hq =>
    todo_wrote_of_ne hq
  have hle : (c.rest.take maxWrite).length ≤ c.rest.length := by
    rw [List.length_take]
    exact min_le_right _ _
  have hhead := head_le_left hp
  rw [todo_wrote_self, hp, List.map_cons, List.map_cons, List.sum_cons, List.sum_cons, rest_drop,
    List.length_drop] at hsum
  omega

theorem pieces_wrote {d : Disk} (hp : s.todo p = c :: cs) (hne : c.rest ≠ []) (q : ProcId) :
    ([(p, c.rest.take maxWrite)].filter fun x => x.1 = q).map Prod.snd ++
      pending (wrote sb.toSuperblock i s p d c cs) q = pending s q := by
  by_cases hq : p = q
  · subst hq
    have hdrop : c.rest.drop (c.rest.take maxWrite).length = c.rest.drop maxWrite := by
      rw [List.length_take]
      by_cases hle : maxWrite ≤ c.rest.length
      · rw [min_eq_left hle]
      · rw [List.drop_eq_nil_of_le (by omega), List.drop_eq_nil_of_le (by omega)]
    rw [pending, pending, todo_wrote_self, hp, List.flatMap_cons, List.flatMap_cons, rest_drop,
      hdrop, pieces_of_ne hne]
    simp only [List.filter_cons, decide_true, if_true, List.filter_nil, List.map_cons,
      List.map_nil, List.cons_append, List.nil_append]
  · have hother : (wrote sb.toSuperblock i s p d c cs).todo q = s.todo q :=
      todo_wrote_of_ne (Ne.symm hq)
    simp only [pending, hother, List.filter_cons, hq, decide_false, Bool.false_eq_true, if_false,
      List.filter_nil, List.map_nil, List.nil_append]

/-- A round for which writei writes all it is given. -/
theorem step_wrote {d' : Disk} (hp : s.todo p = c :: cs) (hmore : (c.i : ℤ) < c.n.toInt)
    (hne : c.rest ≠ [])
    (hcall : writei sb.toSuperblock s.disk s.ip (fun k => c.addr (c.i + k)) s.off
      (BitVec.ofNat 32 (c.rest.take maxWrite).length) =
        .ok (((c.rest.take maxWrite).length : ℤ), d', load sb.toSuperblock d' i))
    (hoff : s.off + BitVec.ofNat 32 (c.rest.take maxWrite).length =
      (dinode sb.toSuperblock d' i).size) :
    step sb.toSuperblock s p = .ok (wrote sb.toSuperblock i s p d' c cs) := by
  have hpos := List.length_pos_iff.mpr hne
  have hlen := length_rest c
  have hmax : maxWrite = 1536 := rfl
  have htake : (c.rest.take maxWrite).length = min maxWrite c.rest.length := List.length_take
  have hn1 : min (c.n.toInt - c.i) ((maxWrite : ℕ) : ℤ) = (c.rest.take maxWrite).length := by
    omega
  have hpos' : ((c.rest.take maxWrite).length : ℤ) > 0 := by omega
  have hnonneg : ¬((c.rest.take maxWrite).length : ℤ) < 0 := by omega
  simp only [step, hp, if_pos hmore, hn1, BitVec.ofInt_natCast, hcall, ok_bind, if_pos hpos',
    if_neg hnonneg, hoff, ne_eq, not_true_eq_false, if_false, Int.toNat_natCast]
  rfl

/-- A round that writes a piece. -/
theorem piece_spec (hs : Ready sb i s) (hp : s.todo p = c :: cs) (hmore : (c.i : ℤ) < c.n.toInt) :
    ∃ t, step sb.toSuperblock s p = .ok t ∧ Ready sb i t ∧
      Appends sb.toSuperblock i s [(p, c.rest.take maxWrite)] t := by
  have hne : c.rest ≠ [] := fun h => rest_eq_nil.mp h hmore
  have hlen := length_rest c
  have hhead := head_le_left hp
  have htake : (c.rest.take maxWrite).length = min maxWrite c.rest.length := List.length_take
  have htype : (dinode sb.toSuperblock s.disk i).type ≠ 0 := by
    rw [hs.type]
    decide
  have hle : (c.rest.take maxWrite).length ≤ left s := by omega
  obtain ⟨d', h, hwell, htype', hsize, hcontents, hfree⟩ := append_writes
    (fun k => c.addr (c.i + k)) hs.wellMapped hs.inum_lt htype hle hs.fits hs.free
  have hleft : left (wrote sb.toSuperblock i s p d' c cs) =
      left s - (c.rest.take maxWrite).length := left_wrote hp
  rw [← hleft] at hfree
  have hoff : s.off + BitVec.ofNat 32 (c.rest.take maxWrite).length =
      (dinode sb.toSuperblock d' i).size := by
    have hlimit : maxfile * bsize = 1073152 := rfl
    have hfits := hs.fits
    apply BitVec.eq_of_toNat_eq
    rw [hs.at_end, hsize, BitVec.toNat_add, BitVec.toNat_ofNat]
    omega
  refine ⟨wrote sb.toSuperblock i s p d' c cs, ?_, ?_, ?_⟩
  · apply step_wrote hp hmore hne ?_ hoff
    rw [hs.loaded, hs.at_end]
    exact h
  · constructor
    case wellMapped => exact hwell
    case inum_lt => exact hs.inum_lt
    case type => exact htype'.trans hs.type
    case loaded => rfl
    case at_end => rfl
    case fits =>
      have hfits := hs.fits
      rw [left_wrote hp]
      change (dinode sb.toSuperblock d' i).size.toNat + _ ≤ _
      omega
    case free => exact hfree
    case started =>
      intro q e he
      by_cases hq : q = p
      · subst hq
        rw [todo_wrote_self] at he
        rcases List.mem_cons.mp he with rfl | he
        · simp only
          omega
        · exact hs.started q e (hp ▸ List.mem_cons_of_mem c he)
      · rw [todo_wrote_of_ne hq] at he
        exact hs.started q e he
  · constructor
    case contents =>
      rw [List.map_singleton, List.flatten_singleton, ← take_rest c maxWrite]
      exact hcontents
    case size =>
      rw [left_wrote hp]
      change (dinode sb.toSuperblock d' i).size.toNat + _ = _
      omega
    case pieces => exact pieces_wrote hp hne
    case results =>
      intro q
      by_cases hq : q = p
      · subst hq
        rw [todo_wrote_self, hp]
        rfl
      · rw [todo_wrote_of_ne hq]
        rfl

theorem step_spec (hs : Ready sb i s) (p : ProcId) :
    ∃ t, step sb.toSuperblock s p = .ok t ∧ Ready sb i t ∧
      Appends sb.toSuperblock i s (chunk s p) t := by
  cases hp : s.todo p with
  | nil =>
    have hchunk : chunk s p = [] := by simp only [chunk, hp]
    have hstep : step sb.toSuperblock s p = .ok s := by simp only [step, hp]
    rw [hchunk]
    exact ⟨s, hstep, hs, .refl _ _ s⟩
  | cons c cs =>
    by_cases hmore : (c.i : ℤ) < c.n.toInt
    · have hchunk : chunk s p = [(p, c.rest.take maxWrite)] := by
        simp only [chunk, hp, if_neg fun h => rest_eq_nil.mp h hmore]
      rw [hchunk]
      exact piece_spec hs hp hmore
    · have hchunk : chunk s p = [] := by
        simp only [chunk, hp, if_pos (rest_eq_nil.mpr hmore)]
      have hstep : step sb.toSuperblock s p = .ok (finish s p c cs) := by
        simp only [step, hp, if_neg hmore]
      obtain ⟨hready, happends⟩ := finish_spec hs hp hmore
      rw [hchunk]
      exact ⟨_, hstep, hready, happends⟩

end Rounds

/-- In whatever order the processes go around the loop, every call returns what it should, the
file grows by the bytes written, each process finds its pieces in the order of its calls, and a
short write is in one piece. -/
theorem shared_writes (sb : Layout) (i : ℕ) (s : System) (ps : List ProcId) (hs : Ready sb i s) :
    ∃ t, run (step sb.toSuperblock) s ps = .ok t ∧
      Appends sb.toSuperblock i s (emitted (step sb.toSuperblock) chunk s ps) t ∧
      t.off = (dinode sb.toSuperblock t.disk i).size ∧
      ∀ p, ∀ c ∈ s.todo p, c.rest ≠ [] → c.rest.length ≤ maxWrite →
        (p, c.rest) ∈ emitted (step sb.toSuperblock) chunk s ps ∨ c.rest ∈ pending t p := by
  obtain ⟨t, ht, hready, happends⟩ := run_emits
    (R := Appends sb.toSuperblock i) (Appends.refl _ _) (fun _ _ _ _ _ => Appends.trans)
    (fun s p hs => step_spec hs p) hs ps
  refine ⟨t, ht, happends, hready.at_end, ?_⟩
  intro p c hc hne hshort
  have hmem : c.rest ∈ pending s p := by
    apply List.mem_flatMap.mpr
    exact ⟨c, hc, pieces_short hne hshort ▸ List.mem_singleton_self _⟩
  rw [← happends.pieces p, List.mem_append, List.mem_map] at hmem
  rcases hmem with ⟨x, hx, hsrc⟩ | hpending
  · obtain ⟨hx, hxp⟩ := List.mem_filter.mp hx
    have hpair : x = (p, c.rest) := Prod.ext (of_decide_eq_true hxp) hsrc
    exact .inl (hpair ▸ hx)
  · exact .inr hpending

/-- Two processes with an empty file, to which they write 3000 and 2 bytes. -/
def twoWriters : System where
  disk := blank
  ip := load tiny.toSuperblock blank 1
  off := 0
  todo p :=
    if p = 0 then [⟨fun _ => 99, 3000, 0⟩] else if p = 1 then [⟨fun _ => 112, 2, 0⟩] else []
  results _ := []

theorem twoWriters_left : left twoWriters = 3002 := by
  decide +kernel

/-- The write of process 1 comes between the two pieces of the other. -/
theorem shared_writes_two : ∃ t, run (step tiny.toSuperblock) twoWriters [0, 1, 0, 0, 1] = .ok t ∧
    Appends tiny.toSuperblock 1 twoWriters
      (emitted (step tiny.toSuperblock) chunk twoWriters [0, 1, 0, 0, 1]) t ∧
    (emitted (step tiny.toSuperblock) chunk twoWriters [0, 1, 0, 0, 1]).map
      (fun x => (x.1, x.2.length)) = [(0, 1536), (1, 2), (0, 1464)] := by
  have hready : Ready tiny 1 twoWriters := by
    constructor
    case wellMapped => exact wellMapped_blank
    case inum_lt => decide
    case type => decide
    case loaded => rfl
    case at_end => decide
    case fits =>
      rw [twoWriters_left]
      decide
    case free =>
      have hsize : (dinode tiny.toSuperblock twoWriters.disk 1).size.toNat = 0 := by decide
      rw [twoWriters_left, hsize, span_round 0 (by decide), span_round _ (by decide)]
      decide +kernel
    case started =>
      intro p c hc
      simp only [twoWriters] at hc
      split at hc
      · rw [List.mem_singleton.mp hc]
        decide
      · split at hc
        · rw [List.mem_singleton.mp hc]
          decide
        · cases hc
  obtain ⟨t, ht, happends, -⟩ := shared_writes tiny 1 twoWriters [0, 1, 0, 0, 1] hready
  exact ⟨t, ht, happends, by decide +kernel⟩

end SharedWrites
