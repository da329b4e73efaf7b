import Xv6Gui.PipeBytes
import Mathlib.Data.Fintype.Basic

/-!
# Wakeups on a pipe

A reader sleeps on an empty pipe and a writer on a full one, and whoever changes that wakes
them. The one exit that does not is the failure of pipewrite at a full buffer: what the
section has stored by then reaches no sleeping reader.
-/
namespace PipeWakeups

open Pipes PipeBytes GuardedRuns

variable {P : Type}

/-- Whoever is asleep has a reason to be. -/
structure NoLostWakeup (s : System P) : Prop where
  reader : ∀ p, (s.proc p).call.reads = true → (s.proc p).asleep = true →
    s.pipe.Empty ∧ s.pipe.writeopen = true
  writer : ∀ p, (s.proc p).call.writes = true → (s.proc p).asleep = true →
    s.pipe.Full ∧ s.pipe.readopen = true

def ReaderAsleep (s : System P) : Prop :=
  ∃ p, (s.proc p).call.reads = true ∧ (s.proc p).asleep = true

/-- With a reader asleep, no writer that would fail at a full buffer has more than a buffer
full left to write. -/
def FitsOrWaits (s : System P) (p : P) (rest : List UInt8) : Prop :=
  ReaderAsleep s → rest.length ≤ pipeSize ∨
    s.pipe.readopen = true ∧ (s.proc p).killed = false

def GoesOn (s : System P) (p : P) : Call → Prop
  | .writing _ rest => FitsOrWaits s p rest
  | .none | .reading _ => True

def WakesReaders (s : System P) : Event P → Prop
  | .write p bytes => FitsOrWaits s p bytes
  | .resume p => GoesOn s p (s.proc p).call
  | .read _ _ | .close _ | .kill _ => True

instance [Fintype P] (s : System P) : Decidable (ReaderAsleep s) :=
  inferInstanceAs (Decidable (∃ _, _ ∧ _))

instance [Fintype P] (s : System P) (p : P) (rest : List UInt8) :
    Decidable (FitsOrWaits s p rest) :=
  inferInstanceAs (Decidable (_ → _ ∨ _))

instance [Fintype P] (s : System P) (p : P) : (c : Call) → Decidable (GoesOn s p c)
  | .writing _ rest => inferInstanceAs (Decidable (FitsOrWaits s p rest))
  | .none | .reading _ => inferInstanceAs (Decidable True)

instance [Fintype P] (s : System P) : (e : Event P) → Decidable (WakesReaders s e)
  | .write p bytes => inferInstanceAs (Decidable (FitsOrWaits s p bytes))
  | .resume p => inferInstanceAs (Decidable (GoesOn s p (s.proc p).call))
  | .read _ _ | .close _ | .kill _ => inferInstanceAs (Decidable True)

structure Invariant (s : System P) : Prop where
  wakeups : NoLostWakeup s
  bytes : PipeBytes.Invariant s
  page : s.allocated = false → s.pipe.writeopen = false

variable {s t : System P} {p q : P} {n : ℕ} {rest : List UInt8} {e : Event P}

theorem not_full_of_empty {r : Pipe} (h : r.Empty) : ¬r.Full := by
  intro hf
  have hzero := empty_iff.mp h
  have hfill := full_iff.mp hf
  rw [hzero] at hfill
  cases hfill

theorem fill_written {r : Pipe} {w : WriteSection} {killed : Bool}
    (hw : WriteSpec killed n r rest w) : w.pipe.fill = r.fill + w.stored.length := by
  have h := congrArg List.length hw.contents
  simpa only [List.length_append, length_contents] using h

/-- From an empty pipe a section stores everything or a buffer full. -/
theorem finished_iff {r : Pipe} {w : WriteSection} {killed : Bool}
    (hw : WriteSpec killed n r rest w) (hempty : r.Empty) :
    w.rest = [] ↔ rest.length ≤ pipeSize := by
  have hfill := fill_written hw
  have hzero := empty_iff.mp hempty
  have hsplit := congrArg List.length hw.split
  simp only [List.length_append] at hsplit
  constructor
  · intro hr
    have hle := hw.fill
    rw [hr, List.length_nil] at hsplit
    omega
  · intro hlen
    by_contra hr
    have hfull : w.pipe.Full := by
      by_cases hf : r.readopen = false ∨ killed = true
      · exact (hw.failed hr hf).1
      · exact (hw.slept hr hf).1
    have hsize := full_iff.mp hfull
    have hpos := List.length_pos_iff.mpr hr
    omega

@[simp] theorem wakeup_call (s : System P) (sleeps : Call → Bool) (q : P) :
    ((wakeup s sleeps).proc q).call = (s.proc q).call := by
  simp only [wakeup]
  split <;> rfl

theorem wakeup_asleep {sleeps : Call → Bool} (h : ((wakeup s sleeps).proc q).asleep = true) :
    sleeps (s.proc q).call = false ∧ (s.proc q).asleep = true := by
  simp only [wakeup] at h
  split at h
  · cases h
  · next hn => exact ⟨by simpa using hn, h⟩

variable [DecidableEq P]

theorem writeSection_other (hq : q ≠ p) (s : System P) (n : ℕ) (rest : List UInt8) :
    (writeSection s p n rest).proc q =
      if (pipewrite (s.proc p).killed n s.pipe rest).wakesReaders = true then
        (wakeup s Call.reads).proc q
      else s.proc q := by
  simp only [writeSection]
  split <;> split <;> simp [setCall, Function.update_of_ne hq]

theorem writeSection_self (s : System P) (p : P) (n : ℕ) (rest : List UInt8) :
    ((writeSection s p n rest).proc p).call.reads = false ∧
      (((writeSection s p n rest).proc p).asleep = true →
        (pipewrite (s.proc p).killed n s.pipe rest).outcome = .sleeps) := by
  simp only [writeSection]
  split
  · simp [setCall, Call.reads]
  · next h => simp [setCall, Call.reads, h]

/-- Who is still asleep after a write section was asleep in the same call before it, and is
no reader if the section woke the readers. -/
theorem writeSection_asleep (hq : q ≠ p) (h : ((writeSection s p n rest).proc q).asleep = true) :
    ((writeSection s p n rest).proc q).call = (s.proc q).call ∧ (s.proc q).asleep = true ∧
      ((pipewrite (s.proc p).killed n s.pipe rest).wakesReaders = true →
        (s.proc q).call.reads = false) := by
  rw [writeSection_other hq] at h ⊢
  split at h
  · next hwakes =>
    obtain ⟨hreads, hasleep⟩ := wakeup_asleep h
    rw [if_pos hwakes, wakeup_call]
    exact ⟨rfl, hasleep, fun _ => hreads⟩
  · next hwakes =>
    rw [if_neg hwakes]
    exact ⟨rfl, h, fun hw => absurd hw hwakes⟩

theorem writeSection_reader (h : Invariant s) (hg : FitsOrWaits s p rest)
    (hcall : ((writeSection s p n rest).proc q).call.reads = true) :
    ((writeSection s p n rest).proc q).asleep = false := by
  by_contra hasleep
  simp only [Bool.not_eq_false] at hasleep
  have hw := pipewrite_spec (s.proc p).killed n h.bytes.fill rest
  have hq : q ≠ p := by
    intro hq
    subst hq
    rw [(writeSection_self s q n rest).1] at hcall
    cases hcall
  obtain ⟨hsame, hold, hwoken⟩ := writeSection_asleep hq hasleep
  rw [hsame] at hcall
  have hquiet : ¬(pipewrite (s.proc p).killed n s.pipe rest).wakesReaders = true := fun hwakes => by
    rw [hwoken hwakes] at hcall
    cases hcall
  have hr : (pipewrite (s.proc p).killed n s.pipe rest).rest ≠ [] := fun hr =>
    hquiet (hw.finished hr).2
  have hf : s.pipe.readopen = false ∨ (s.proc p).killed = true := by
    by_contra hf
    exact hquiet (hw.slept hr hf).2.2
  rcases hg ⟨q, hcall, hold⟩ with hlen | ⟨hopen, hkilled⟩
  · exact hr ((finished_iff hw (h.wakeups.reader q hcall hold).1).mpr hlen)
  · simp [hopen, hkilled] at hf

theorem writeSection_writer (h : Invariant s)
    (hcall : ((writeSection s p n rest).proc q).call.writes = true)
    (hasleep : ((writeSection s p n rest).proc q).asleep = true) :
    (writeSection s p n rest).pipe.Full ∧ (writeSection s p n rest).pipe.readopen = true := by
  have hw := pipewrite_spec (s.proc p).killed n h.bytes.fill rest
  rw [writeSection_pipe]
  by_cases hq : q = p
  · subst hq
    have hsleeps := (writeSection_self s q n rest).2 hasleep
    have hr : (pipewrite (s.proc q).killed n s.pipe rest).rest ≠ [] := fun hr => by
      rw [(hw.finished hr).1] at hsleeps
      cases hsleeps
    have hf : ¬(s.pipe.readopen = false ∨ (s.proc q).killed = true) := fun hf => by
      rw [(hw.failed hr hf).2.1] at hsleeps
      cases hsleeps
    refine ⟨(hw.slept hr hf).1, hw.readopen.trans ?_⟩
    simpa using fun ho => hf (Or.inl ho)
  · obtain ⟨hsame, hold, _⟩ := writeSection_asleep hq hasleep
    rw [hsame] at hcall
    obtain ⟨hfull, hopen⟩ := h.wakeups.writer q hcall hold
    refine ⟨full_iff.mpr ?_, hw.readopen.trans hopen⟩
    have hle := hw.fill
    have hfill := fill_written hw
    have hsize := full_iff.mp hfull
    omega

/-- A writer that fails at the buffer it has filled leaves a sleeping reader asleep. -/
theorem writeSection_strands (h : Invariant s) (hp : (s.proc p).asleep = false ∨
    (s.proc p).call.reads = false) (hg : ¬FitsOrWaits s p rest) :
    ¬NoLostWakeup (writeSection s p n rest) := by
  intro hgood
  simp only [FitsOrWaits] at hg
  push Not at hg
  obtain ⟨⟨q, hcall, hasleep⟩, hlen, hfails⟩ := hg
  have hw := pipewrite_spec (s.proc p).killed n h.bytes.fill rest
  have hq : q ≠ p := by
    intro hq
    subst hq
    rcases hp with hp | hp
    · rw [hp] at hasleep
      cases hasleep
    · rw [hp] at hcall
      cases hcall
  have hr : (pipewrite (s.proc p).killed n s.pipe rest).rest ≠ [] := fun hr => by
    have hfits := (finished_iff hw (h.wakeups.reader q hcall hasleep).1).mp hr
    omega
  have hf : s.pipe.readopen = false ∨ (s.proc p).killed = true := by
    by_cases ho : s.pipe.readopen = true
    · exact Or.inr (by simpa using hfails ho)
    · exact Or.inl (by simpa using ho)
  obtain ⟨hfull, _, hquiet⟩ := hw.failed hr hf
  have hsame : (writeSection s p n rest).proc q = s.proc q := by
    rw [writeSection_other hq, hquiet, if_neg (by simp)]
  have hempty := (hgood.reader q (by rw [hsame, hcall]) (by rw [hsame, hasleep])).1
  rw [writeSection_pipe] at hempty
  exact not_full_of_empty hempty hfull

theorem writeSection_wakeups_iff (h : Invariant s) (hp : (s.proc p).asleep = false ∨
    (s.proc p).call.reads = false) :
    NoLostWakeup (writeSection s p n rest) ↔ FitsOrWaits s p rest := by
  constructor
  · intro hgood
    by_contra hg
    exact writeSection_strands h hp hg hgood
  · intro hg
    refine ⟨?_, fun _ => writeSection_writer h⟩
    intro q hcall hasleep
    rw [writeSection_reader h hg hcall] at hasleep
    cases hasleep

theorem readSection_other (hq : q ≠ p) (s : System P) (n : ℕ) :
    (readSection s p n).proc q =
      if (piperead (s.proc p).killed n s.pipe).wakesWriters = true then
        (wakeup s Call.writes).proc q
      else s.proc q := by
  simp only [readSection]
  split <;> split <;> simp [setCall, Function.update_of_ne hq]

theorem readSection_self (s : System P) (p : P) (n : ℕ) :
    ((readSection s p n).proc p).call.writes = false ∧
      (((readSection s p n).proc p).asleep = true →
        (piperead (s.proc p).killed n s.pipe).outcome = .sleeps) := by
  simp only [readSection]
  split
  · simp [setCall, Call.writes]
  · next h => simp [setCall, Call.writes, h]

/-- A reader takes nothing while another one sleeps, and wakes the writers if it takes
anything. -/
theorem readSection_wakeups (h : NoLostWakeup s) : NoLostWakeup (readSection s p n) := by
  by_cases hwait : s.pipe.Empty ∧ s.pipe.writeopen = true
  · have hpipe : (readSection s p n).pipe = s.pipe := by
      rw [readSection_pipe, piperead, if_pos hwait]
      split <;> rfl
    have hquiet : (piperead (s.proc p).killed n s.pipe).wakesWriters = false := by
      rw [piperead, if_pos hwait]
      split <;> rfl
    have hother : ∀ q, q ≠ p → (readSection s p n).proc q = s.proc q := fun q hq => by
      rw [readSection_other hq, hquiet, if_neg (by simp)]
    refine ⟨?_, ?_⟩ <;> intro q hcall hasleep <;> rw [hpipe]
    · exact hwait
    · by_cases hq : q = p
      · subst hq
        rw [(readSection_self s q n).1] at hcall
        cases hcall
      · rw [hother q hq] at hcall hasleep
        exact h.writer q hcall hasleep
  · have hread : piperead (s.proc p).killed n s.pipe =
        ⟨(copyOut s.pipe n).1, (copyOut s.pipe n).2, .returns (copyOut s.pipe n).2.length, true⟩ :=
      if_neg hwait
    have hawake : ∀ q, ((readSection s p n).proc q).asleep = true →
        q ≠ p ∧ (s.proc q).call.writes = false ∧
          ((readSection s p n).proc q).call = (s.proc q).call ∧ (s.proc q).asleep = true := by
      intro q hasleep
      have hq : q ≠ p := by
        intro hq
        subst hq
        have hsleeps := (readSection_self s q n).2 hasleep
        rw [hread] at hsleeps
        cases hsleeps
      rw [readSection_other hq, hread, if_pos rfl] at hasleep ⊢
      exact ⟨hq, (wakeup_asleep hasleep).1, wakeup_call s _ q, (wakeup_asleep hasleep).2⟩
    refine ⟨?_, ?_⟩ <;> intro q hcall hasleep <;>
      obtain ⟨_, hwrites, hsame, hold⟩ := hawake q hasleep
    · rw [hsame] at hcall
      exact absurd (h.reader q hcall hold) hwait
    · rw [hsame, hwrites] at hcall
      cases hcall

omit [DecidableEq P] in
theorem pipeclose_wakeups (h : NoLostWakeup s) (writable : Bool) :
    NoLostWakeup (pipeclose s writable) := by
  cases writable with
  | true =>
    refine ⟨?_, ?_⟩ <;> intro q hcall hasleep <;> obtain ⟨hreads, hold⟩ := wakeup_asleep hasleep
    · rw [show ((pipeclose s true).proc q).call = (s.proc q).call from wakeup_call _ _ q] at hcall
      exact absurd hcall (by simp [hreads])
    · rw [show ((pipeclose s true).proc q).call = (s.proc q).call from wakeup_call _ _ q] at hcall
      exact h.writer q hcall hold
  | false =>
    refine ⟨?_, ?_⟩ <;> intro q hcall hasleep <;> obtain ⟨hwrites, hold⟩ := wakeup_asleep hasleep
    · rw [show ((pipeclose s false).proc q).call = (s.proc q).call from wakeup_call _ _ q] at hcall
      exact h.reader q hcall hold
    · rw [show ((pipeclose s false).proc q).call = (s.proc q).call from wakeup_call _ _ q] at hcall
      exact absurd hcall (by simp [hwrites])

theorem kill_wakeups (h : NoLostWakeup s) (p : P) : NoLostWakeup (kill s p) := by
  have hawake : ∀ q, ((kill s p).proc q).asleep = true → (kill s p).proc q = s.proc q := by
    intro q hasleep
    by_cases hq : q = p
    · subst hq
      simp [kill] at hasleep
    · simp [kill, Function.update_of_ne hq]
  refine ⟨?_, ?_⟩ <;> intro q hcall hasleep <;> have hsame := hawake q hasleep <;>
    rw [hsame] at hcall hasleep
  · exact h.reader q hcall hasleep
  · exact h.writer q hcall hasleep

/-- A step keeps the law exactly if it wakes the readers it has written for. -/
theorem step_wakeups_iff (h : Invariant s) (he : Enabled s e) (ht : step s e = .ok t) :
    NoLostWakeup t ↔ WakesReaders s e := by
  cases e with
  | write p bytes =>
    cases onPage_eq_ok ht
    have hcall : (s.proc p).call = .none := he
    exact writeSection_wakeups_iff h (Or.inr (by rw [hcall]; rfl))
  | read p n =>
    cases onPage_eq_ok ht
    exact iff_of_true (readSection_wakeups h.wakeups) trivial
  | resume p =>
    simp only [step] at ht
    cases hc : (s.proc p).call with
    | none => exact absurd hc he.1
    | reading n =>
      simp only [hc] at ht
      cases onPage_eq_ok ht
      refine iff_of_true (readSection_wakeups h.wakeups) ?_
      simp only [WakesReaders, hc, GoesOn]
    | writing n rest =>
      simp only [hc] at ht
      cases onPage_eq_ok ht
      simp only [WakesReaders, hc, GoesOn]
      exact writeSection_wakeups_iff h (Or.inl he.2)
  | close writable =>
    cases onPage_eq_ok ht
    exact iff_of_true (pipeclose_wakeups h.wakeups writable) trivial
  | kill p =>
    cases ht
    exact iff_of_true (kill_wakeups h.wakeups p) trivial

omit [DecidableEq P] in
theorem onPage_allocated (h : onPage s t = .ok t) : s.allocated = true := by
  by_contra hn
  simp [onPage, hn] at h

theorem step_page (h : s.allocated = false → s.pipe.writeopen = false)
    (ht : step s e = .ok t) : t.allocated = false → t.pipe.writeopen = false := by
  have hwrite : ∀ {p n rest}, onPage s (writeSection s p n rest) = .ok t →
      t.allocated = false → t.pipe.writeopen = false := by
    intro p n rest ht hfree
    cases onPage_eq_ok ht
    have hsame : (writeSection s p n rest).allocated = s.allocated := by
      simp only [writeSection]
      split <;> split <;> rfl
    rw [hsame, onPage_allocated ht] at hfree
    cases hfree
  have hread : ∀ {p n}, onPage s (readSection s p n) = .ok t →
      t.allocated = false → t.pipe.writeopen = false := by
    intro p n ht hfree
    cases onPage_eq_ok ht
    have hsame : (readSection s p n).allocated = s.allocated := by
      simp only [readSection]
      split <;> split <;> rfl
    rw [hsame, onPage_allocated ht] at hfree
    cases hfree
  cases e with
  | write p bytes => exact hwrite ht
  | read p n => exact hread ht
  | resume p =>
    simp only [step] at ht
    split at ht
    · cases ht
      exact h
    · exact hread ht
    · exact hwrite ht
  | close writable =>
    cases onPage_eq_ok ht
    cases writable <;> simp [pipeclose, wakeup]
  | kill p =>
    cases ht
    exact h

omit [DecidableEq P] in
/-- Nobody is asleep on a page that has been freed. -/
theorem freed_wakes (h : Invariant s) (hfree : s.allocated = false) (e : Event P) :
    WakesReaders s e := by
  have hnone : ¬ReaderAsleep s := by
    rintro ⟨p, hcall, hasleep⟩
    have hopen := (h.wakeups.reader p hcall hasleep).2
    rw [h.page hfree] at hopen
    cases hopen
  cases e with
  | write p bytes => exact fun hasleep => absurd hasleep hnone
  | resume p =>
    simp only [WakesReaders]
    cases (s.proc p).call with
    | writing n rest => exact fun hasleep => absurd hasleep hnone
    | _ => trivial
  | _ => trivial

theorem step_returns (e : Event P) (h : s.allocated = true) : ∃ t, step s e = .ok t := by
  cases e with
  | resume p =>
    simp only [step, onPage, h, if_true]
    split <;> exact ⟨_, rfl⟩
  | _ => simp [step, onPage, h]

theorem step_invariant (h : Invariant s) (he : Enabled s e) (hg : WakesReaders s e)
    (ht : step s e = .ok t) : Invariant t :=
  ⟨(step_wakeups_iff h he ht).mpr hg, PipeBytes.step_invariant h.bytes ht, step_page h.page ht⟩

omit [DecidableEq P] in
theorem start_invariant (data : Fin pipeSize → UInt8) : Invariant (start P data) where
  wakeups := ⟨fun _ h => (by cases h), fun _ h => by cases h⟩
  bytes := PipeBytes.start_invariant data
  page h := by cases h

/-- A run loses no wakeup exactly if every writer that fails at a full buffer finds the
sleeping readers' bytes written. -/
theorem no_lost_wakeup_iff (data : Fin pipeSize → UInt8) (events : List (Event P))
    (he : Along step Enabled (start P data) events) :
    Visits step NoLostWakeup (start P data) events ↔
      Along step WakesReaders (start P data) events := by
  refine visits_iff (fun _ h => h.wakeups) (fun s e h he => ⟨?_, ?_⟩)
    (fun _ _ _ => step_invariant) (start_invariant data) he
  · intro hgood
    by_cases hfree : s.allocated = true
    · obtain ⟨t, ht⟩ := step_returns e hfree
      exact (step_wakeups_iff h he ht).mp (hgood t ht)
    · exact freed_wakes h (by simpa using hfree) e
  · exact fun hg t ht => (step_wakeups_iff h he ht).mpr hg

/-- The process `false` reads and sleeps, and `true` brings its bytes in two sections. -/
def longWrite : List (Event Bool) :=
  [.read false 4, .write true (List.replicate 600 7), .resume false, .resume true, .close true]

theorem no_lost_wakeup_long_write :
    Visits step NoLostWakeup (start Bool fun _ => 0) longWrite :=
  (no_lost_wakeup_iff _ longWrite (by decide +kernel)).mpr (by decide +kernel)

/-- The writer is killed before it takes the lock, fills the buffer and fails. -/
def killedWriter : List (Event Bool) :=
  [.read false 4, .kill true, .write true (List.replicate 600 7)]

theorem killed_writer_strands_reader :
    ¬∀ (P : Type) [DecidableEq P] (data : Fin pipeSize → UInt8) (events : List (Event P)),
      Along step Enabled (start P data) events →
      Visits step NoLostWakeup (start P data) events := by
  intro h
  obtain ⟨s, hs, hf⟩ := execution_of_map step (start Bool fun _ => 0) killedWriter
    (fun s => ((s.proc false).call.reads, (s.proc false).asleep, s.pipe.nread, s.pipe.nwrite))
    (b := (true, true, 0, 512)) (by decide +kernel)
  obtain ⟨hcall, hrest⟩ := Prod.mk.inj hf
  obtain ⟨hasleep, hrest⟩ := Prod.mk.inj hrest
  obtain ⟨hread, hwrite⟩ := Prod.mk.inj hrest
  have hgood := (h Bool (fun _ => 0) killedWriter (by decide +kernel)).last hs
  have hempty := (hgood.reader false hcall hasleep).1
  rw [Pipe.Empty, hread, hwrite] at hempty
  cases hempty

end PipeWakeups
