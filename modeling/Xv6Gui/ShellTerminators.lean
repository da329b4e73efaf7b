import Xv6Gui.ShellRenderings

/-!
# Terminators behind the words of a command

Every slice that the parser records is a word of the line. A zero byte is put only where a word
has ended, so none of them hits a byte of a word, whatever the order and whatever stands between
the words.
-/
namespace ShellTerminators

open WordMemory ShellParser ShellTokens ShellRenderings GuardedRuns
open WindowManagerState (Fault)

/-- A line from `lo` up to the zero byte at `es`. -/
structure Line (mem : Memory) (lo es : ℕ) : Prop where
  stop : mem es = 0
  nonzero : ∀ x, lo ≤ x → x < es → mem x ≠ 0

/-- The text of a slice. -/
def text (mem : Memory) (a : Slice) : List Byte :=
  (List.range (a.eq - a.q)).map fun i => mem (a.q + i)

/-- A word of the line. -/
structure Recorded (mem : Memory) (lo es : ℕ) (a : Slice) : Prop where
  lower : lo ≤ a.q
  upper : a.eq ≤ es
  word : ∃ w, Spells mem a w

/-- What `gettoken` takes off. -/
structure Taken (mem : Memory) (es s : ℕ) (g : Gotten) : Prop where
  skipped : s ≤ g.slice.q
  ordered : g.slice.q ≤ g.slice.eq
  behind : g.slice.eq ≤ g.ps
  inside : g.ps ≤ es
  advances : s < es → s < g.ps
  word : g.ret = byte 'a' → ∃ w, Spells mem g.slice w

/-- A command has been read from `s` on, and its strings are words of the line. -/
structure Parsed (mem : Memory) (lo es s : ℕ) (r : Cmd Slice × ℕ) : Prop where
  ge : s ≤ r.2
  le : r.2 ≤ es
  recorded : ∀ a ∈ strings r.1, Recorded mem lo es a

def Keeps (mem : Memory) (lo es : ℕ) (f : ℕ → Except Fault (Cmd Slice × ℕ)) : Prop :=
  ∀ s r, lo ≤ s → s ≤ es → f s = .ok r → Parsed mem lo es s r

variable {mem : Memory} {lo es s n x argc : ℕ} {a b : Slice} {cmd ret : Cmd Slice} {tok : Byte}
  {toks : List Byte} {r : Cmd Slice × ℕ} {line : List Byte}

section Scans

theorem line_of_cstring (h : cstring mem s n = some line) : Line mem s (s + line.length) := by
  have hholds := holds_of_cstring h
  refine ⟨hholds.stop, ?_⟩
  induction n generalizing s line with
  | zero => cases h
  | succ n ih =>
    intro x hx hx'
    rw [cstring] at h
    by_cases hend : mem s = 0
    · rw [if_pos hend] at h
      obtain rfl := Option.some.inj h
      exact absurd hx' (Nat.not_lt.mpr hx)
    · rw [if_neg hend] at h
      obtain ⟨t, ht, rfl⟩ := Option.map_eq_some_iff.mp h
      rw [List.length_cons] at hx'
      by_cases hxs : x = s
      · rw [hxs]
        exact hend
      · exact ih ht (holds_of_cstring ht) x (by omega) (by omega)

/-- The loop goes over bytes of `p` and stops in front of another one or after `n` steps. -/
theorem skipWhile_spec (mem : Memory) (p : Byte → Bool) (n s : ℕ) :
    s ≤ skipWhile mem p n s ∧ skipWhile mem p n s ≤ s + n ∧
      (∀ x, s ≤ x → x < skipWhile mem p n s → p (mem x) = true) ∧
      (skipWhile mem p n s = s + n ∨ p (mem (skipWhile mem p n s)) = false) := by
  induction n generalizing s with
  | zero =>
    refine ⟨Nat.le_refl s, Nat.le_refl s, ?_, .inl rfl⟩
    intro x hx hx'
    exact absurd hx' (Nat.not_lt.mpr hx)
  | succ n ih =>
    rw [skipWhile]
    by_cases hp : p (mem s) = true
    case pos =>
      obtain ⟨hge, hle, hall, hstop⟩ := ih (s + 1)
      rw [if_pos hp]
      refine ⟨by omega, by omega, ?_, hstop.imp_left fun h => by omega⟩
      intro x hx hx'
      by_cases hxs : x = s
      · rw [hxs, hp]
      · exact hall x (by omega) hx'
    case neg =>
      rw [if_neg hp]
      refine ⟨Nat.le_refl s, by omega, ?_, .inr (Bool.eq_false_of_not_eq_true hp)⟩
      intro x hx hx'
      exact absurd hx' (Nat.not_lt.mpr hx)

theorem skipSpace_spec (mem : Memory) (hs : s ≤ es) :
    s ≤ skipSpace mem es s ∧ skipSpace mem es s ≤ es ∧
      (skipSpace mem es s = es ∨ mem (skipSpace mem es s) ∉ whitespace) := by
  obtain ⟨hge, hle, -, hstop⟩ := skipWhile_spec mem (strchr whitespace) (es - s) s
  refine ⟨hge, hle.trans (by omega), ?_⟩
  rcases hstop with hstop | hstop
  · exact .inl (hstop.trans (by omega))
  · right
    intro hspace
    rw [← skipSpace, strchr_iff.mpr hspace] at hstop
    cases hstop

theorem peek_spec (h : Line mem lo es) (hs : s ≤ es) (toks : List Byte) :
    s ≤ (peek mem es s toks).2 ∧ (peek mem es s toks).2 ≤ es ∧
      ((peek mem es s toks).1 = true → (peek mem es s toks).2 < es) := by
  obtain ⟨hge, hle, -⟩ := skipSpace_spec mem hs
  refine ⟨hge, hle, ?_⟩
  intro htok
  have hzero : mem (skipSpace mem es s) ≠ 0 :=
    of_decide_eq_true (Bool.and_eq_true_iff.mp htok).1
  refine Nat.lt_of_le_of_ne hle ?_
  intro (hend : skipSpace mem es s = es)
  rw [hend] at hzero
  exact hzero h.stop

/-- The bytes that the default case of `gettoken` goes over are a word. -/
theorem spells_skip (h : Line mem lo es) {q : ℕ} (hq : lo ≤ q) (hlt : q < es)
    (hplain : mem q ∉ whitespace ∧ mem q ∉ symbols) :
    q < skipWhile mem (fun c => !strchr whitespace c && !strchr symbols c) (es - q) q ∧
      skipWhile mem (fun c => !strchr whitespace c && !strchr symbols c) (es - q) q ≤ es ∧
      ∃ w, Spells mem
        ⟨q, skipWhile mem (fun c => !strchr whitespace c && !strchr symbols c) (es - q) q⟩ w := by
  obtain ⟨eq, heq⟩ : ∃ eq, skipWhile mem
    (fun c => !strchr whitespace c && !strchr symbols c) (es - q) q = eq := ⟨_, rfl⟩
  obtain ⟨hge, hle, hall, hstop⟩ := skipWhile_spec mem
    (fun c => !strchr whitespace c && !strchr symbols c) (es - q) q
  rw [heq] at hge hle hall hstop ⊢
  have hle' : eq ≤ es := by omega
  have hfirst : q ≠ eq := by
    rintro rfl
    rcases hstop with hstop | hstop
    · omega
    · rw [strchr_eq_false hplain.1, strchr_eq_false hplain.2] at hstop
      cases hstop
  have hlength : ((List.range (eq - q)).map fun i => mem (q + i)).length = eq - q := by
    rw [List.length_map, List.length_range]
  have hword : ∀ b ∈ (List.range (eq - q)).map (fun i => mem (q + i)),
      b ≠ 0 ∧ b ∉ whitespace ∧ b ∉ symbols := by
    intro b hb
    obtain ⟨i, hi, rfl⟩ := List.mem_map.mp hb
    have hi' := List.mem_range.mp hi
    have hp := Bool.and_eq_true_iff.mp (hall (q + i) (by omega) (by omega))
    refine ⟨h.nonzero _ (by omega) (by omega), ?_, ?_⟩
    · intro hspace
      rw [strchr_iff.mpr hspace] at hp
      exact nomatch hp.1
    · intro hsymbol
      rw [strchr_iff.mpr hsymbol] at hp
      exact nomatch hp.2
  refine ⟨by omega, hle', ⟨_, ?_, hword⟩, ?_, ?_, ?_⟩
  · intro hnil
    rw [hnil, List.length_nil] at hlength
    omega
  · intro i hi
    rw [List.getElem_map, List.getElem_range]
  · change eq = q + _
    rw [hlength]
    omega
  · change mem eq = 0 ∨ _ ∨ _
    rcases hstop with hstop | hstop
    · left
      have hend : eq = es := by omega
      rw [hend, h.stop]
    · right
      by_contra hboth
      rw [not_or] at hboth
      rw [strchr_eq_false hboth.1, strchr_eq_false hboth.2] at hstop
      cases hstop

theorem other_symbol {c : Byte} (h : (['|', '(', ')', ';', '&', '<'].map byte).contains c = false)
    (hgreater : c ≠ byte '>') : c ∉ symbols := by
  intro hc
  have hmem : c ∈ ['|', '(', ')', ';', '&', '<'].map byte ∨ c = byte '>' := by
    simp only [symbols, List.map_cons, List.map_nil, List.mem_cons, List.not_mem_nil, or_false]
      at hc ⊢
    tauto
  rcases hmem with hmem | hmem
  · rw [List.contains_iff_mem.mpr hmem] at h
    cases h
  · exact hgreater hmem

end Scans
section Tokens

/-- The token from the first byte behind whitespace up to `eq`, and the whitespace behind it. -/
theorem taken_of {ret : Byte} {eq : ℕ} (hs : s ≤ es) (heq : skipSpace mem es s ≤ eq)
    (heq' : eq ≤ es) (hadv : skipSpace mem es s = es ∨ skipSpace mem es s < eq)
    (hword : ret = byte 'a' → ∃ w, Spells mem ⟨skipSpace mem es s, eq⟩ w) :
    Taken mem es s ⟨ret, ⟨skipSpace mem es s, eq⟩, skipSpace mem es eq⟩ := by
  obtain ⟨hge, -⟩ := skipSpace_spec mem hs
  obtain ⟨hps, hps', -⟩ := skipSpace_spec mem heq'
  refine ⟨hge, heq, hps, hps', ?_, hword⟩
  intro hlt
  change s < skipSpace mem es eq
  rcases hadv with hend | hmore
  · omega
  · omega

theorem gettoken_spec (h : Line mem lo es) (hlo : lo ≤ s) (hs : s ≤ es) :
    Taken mem es s (gettoken mem es s) := by
  obtain ⟨hge, hle, hplain⟩ := skipSpace_spec mem hs
  have hbefore : mem (skipSpace mem es s) ≠ 0 → skipSpace mem es s < es := by
    intro hzero
    refine Nat.lt_of_le_of_ne hle ?_
    intro hend
    rw [hend] at hzero
    exact hzero h.stop
  rw [gettoken]
  by_cases hzero : mem (skipSpace mem es s) = 0
  case pos =>
    have hend : skipSpace mem es s = es := by
      by_contra hne
      exact h.nonzero _ (hlo.trans hge) (Nat.lt_of_le_of_ne hle hne) hzero
    rw [if_pos hzero]
    refine taken_of hs (Nat.le_refl _) hle (.inl hend) ?_
    intro (ha : mem (skipSpace mem es s) = byte 'a')
    rw [hzero] at ha
    exact absurd ha (by decide)
  case neg =>
    have hlt := hbefore hzero
    rw [if_neg hzero]
    by_cases hsymbol : (['|', '(', ')', ';', '&', '<'].map byte).contains
      (mem (skipSpace mem es s)) = true
    case pos =>
      rw [if_pos hsymbol]
      refine taken_of hs (Nat.le_succ _) hlt (.inr (Nat.lt_succ_self _)) ?_
      intro (ha : mem (skipSpace mem es s) = byte 'a')
      rw [ha] at hsymbol
      exact absurd hsymbol (by decide)
    case neg =>
      rw [if_neg hsymbol]
      by_cases hgreater : mem (skipSpace mem es s) = byte '>'
      case pos =>
        rw [if_pos hgreater]
        by_cases hagain : mem (skipSpace mem es s + 1) = byte '>'
        case pos =>
          -- the second byte is no zero byte, so the line goes on behind it
          have hnext : skipSpace mem es s + 1 ≠ es := by
            intro hend
            rw [hend, h.stop] at hagain
            exact absurd hagain (by decide)
          rw [if_pos hagain]
          refine taken_of hs (by omega) (by omega) (.inr (by omega)) ?_
          intro (ha : byte '+' = byte 'a')
          exact absurd ha (by decide)
        case neg =>
          rw [if_neg hagain]
          refine taken_of hs (Nat.le_succ _) hlt (.inr (Nat.lt_succ_self _)) ?_
          intro (ha : mem (skipSpace mem es s) = byte 'a')
          rw [ha] at hgreater
          exact absurd hgreater (by decide)
      case neg =>
        rw [if_neg hgreater]
        have hspace : mem (skipSpace mem es s) ∉ whitespace :=
          hplain.resolve_left (Nat.ne_of_lt hlt)
        obtain ⟨hq, heq, hword⟩ := spells_skip h (hlo.trans hge) hlt
          ⟨hspace, other_symbol (Bool.eq_false_of_not_eq_true hsymbol) hgreater⟩
        exact taken_of hs (Nat.le_of_lt hq) heq (.inr hq) fun _ => hword

theorem Taken.ge {g : Gotten} (h : Taken mem es s g) : s ≤ g.ps :=
  h.skipped.trans (h.ordered.trans h.behind)

theorem Taken.recorded {g : Gotten} (h : Taken mem es s g) (hlo : lo ≤ s)
    (hret : g.ret = byte 'a') : Recorded mem lo es g.slice :=
  ⟨hlo.trans h.skipped, h.behind.trans h.inside, h.word hret⟩

end Tokens

section Commands

theorem mem_redirect (ha : a ∈ strings (redirect cmd tok b)) : a ∈ strings cmd ∨ a = b := by
  have hnew : ∀ mode fd, a ∈ strings (.redir cmd b mode fd) → a ∈ strings cmd ∨ a = b := by
    intro mode fd ha
    exact (List.mem_append.mp ha).imp_right List.mem_singleton.mp
  rw [redirect] at ha
  split at ha
  · exact hnew _ _ ha
  · split at ha
    · exact hnew _ _ ha
    · split at ha
      · exact hnew _ _ ha
      · exact .inl ha

theorem mem_addArg (ha : a ∈ strings (addArg cmd b)) : a ∈ strings cmd ∨ a = b := by
  induction cmd with
  | exec argv => exact (List.mem_append.mp ha).imp_right List.mem_singleton.mp
  | redir cmd file mode fd ih =>
    rcases List.mem_append.mp ha with ha | ha
    · exact (ih ha).imp_left fun h => List.mem_append_left _ h
    · exact .inl (List.mem_append_right _ ha)
  | pipe left right => exact .inl ha
  | list left right => exact .inl ha
  | back cmd => exact .inl ha

theorem redirect_recorded (hcmd : ∀ a ∈ strings cmd, Recorded mem lo es a)
    (hb : Recorded mem lo es b) : ∀ a ∈ strings (redirect cmd tok b), Recorded mem lo es a := by
  intro a ha
  rcases mem_redirect ha with ha | rfl
  · exact hcmd a ha
  · exact hb

theorem addArg_recorded (hcmd : ∀ a ∈ strings cmd, Recorded mem lo es a)
    (hb : Recorded mem lo es b) : ∀ a ∈ strings (addArg cmd b), Recorded mem lo es a := by
  intro a ha
  rcases mem_addArg ha with ha | rfl
  · exact hcmd a ha
  · exact hb

theorem Parsed.weaken {s' : ℕ} (h : Parsed mem lo es s' r) (hs : s ≤ s') :
    Parsed mem lo es s r := ⟨hs.trans h.ge, h.le, h.recorded⟩

theorem parseredirs_parsed (h : Line mem lo es) (hlo : lo ≤ s) (hs : s ≤ es)
    (hcmd : ∀ a ∈ strings cmd, Recorded mem lo es a)
    (hr : parseredirs mem es n cmd s = .ok r) : Parsed mem lo es s r := by
  induction n generalizing cmd s with
  | zero => cases hr
  | succ n ih =>
    obtain ⟨hp, hp', -⟩ := peek_spec h hs (['<', '>'].map byte)
    rw [parseredirs] at hr
    dsimp only at hr
    split at hr
    case isTrue =>
      have htok := gettoken_spec h (hlo.trans hp) hp'
      have hps := hp.trans htok.ge
      have hfile := gettoken_spec h (hlo.trans hps) htok.inside
      have hps' := hps.trans hfile.ge
      split at hr
      · cases hr
      · next hret =>
        have hslice := hfile.recorded (hlo.trans hps) (not_not.mp hret)
        exact (ih (hlo.trans hps') hfile.inside (redirect_recorded hcmd hslice) hr).weaken hps'
    case isFalse =>
      cases hr
      exact ⟨hp, hp', hcmd⟩

theorem parseargs_parsed (h : Line mem lo es) (hlo : lo ≤ s) (hs : s ≤ es)
    (hret : ∀ a ∈ strings ret, Recorded mem lo es a)
    (hr : parseargs mem es n argc ret s = .ok r) : Parsed mem lo es s r := by
  induction n generalizing argc ret s with
  | zero => cases hr
  | succ n ih =>
    obtain ⟨hp, hp', -⟩ := peek_spec h hs (['|', ')', '&', ';'].map byte)
    have htok := gettoken_spec h (hlo.trans hp) hp'
    have hps := hp.trans htok.ge
    rw [parseargs] at hr
    dsimp only at hr
    split at hr
    · cases hr
      exact ⟨hp, hp', hret⟩
    split at hr
    · cases hr
      exact ⟨hps, htok.inside, hret⟩
    split at hr
    · cases hr
    split at hr
    · cases hr
    next hword _ =>
      have hslice := htok.recorded (hlo.trans hp) (not_not.mp hword)
      obtain ⟨u, hu, hr⟩ := bind_eq_ok.mp hr
      have hredirs := parseredirs_parsed h (hlo.trans hps) htok.inside
        (addArg_recorded hret hslice) hu
      have hrest := ih (hlo.trans (hps.trans hredirs.ge)) hredirs.le hredirs.recorded hr
      exact hrest.weaken (hps.trans hredirs.ge)

theorem parsebacks_parsed (h : Line mem lo es) (hlo : lo ≤ s) (hs : s ≤ es)
    (hcmd : ∀ a ∈ strings cmd, Recorded mem lo es a)
    (hr : parsebacks mem es n cmd s = .ok r) : Parsed mem lo es s r := by
  induction n generalizing cmd s with
  | zero => cases hr
  | succ n ih =>
    obtain ⟨hp, hp', -⟩ := peek_spec h hs [byte '&']
    rw [parsebacks] at hr
    split at hr
    · have htok := gettoken_spec h (hlo.trans hp) hp'
      have hps := hp.trans htok.ge
      have hback : ∀ a ∈ strings (.back cmd), Recorded mem lo es a := hcmd
      exact (ih (hlo.trans hps) htok.inside hback hr).weaken hps
    · cases hr
      exact ⟨hp, hp', hcmd⟩

theorem strings_append {l l' : List Slice} (hl : ∀ a ∈ l, Recorded mem lo es a)
    (hl' : ∀ a ∈ l', Recorded mem lo es a) : ∀ a ∈ l ++ l', Recorded mem lo es a :=
  fun a ha => (List.mem_append.mp ha).elim (hl a) (hl' a)

/-- Behind an operator the parser reads another command. -/
theorem operand_parsed (h : Line mem lo es) {f : ℕ → Except Fault (Cmd Slice × ℕ)}
    (hf : Keeps mem lo es f) {g : Cmd Slice → Cmd Slice → Cmd Slice}
    (hg : ∀ c d, strings (g c d) = strings c ++ strings d) {u : Cmd Slice × ℕ}
    (hu : Parsed mem lo es s u) (hlo : lo ≤ s) (toks : List Byte)
    (hr : (if (peek mem es u.2 toks).1 then
        f (gettoken mem es (peek mem es u.2 toks).2).ps >>= fun t => .ok (g u.1 t.1, t.2)
      else .ok (u.1, (peek mem es u.2 toks).2)) = Except.ok r) : Parsed mem lo es s r := by
  obtain ⟨hp, hp', -⟩ := peek_spec h hu.le toks
  have hpos := hu.ge.trans hp
  split at hr
  · have htok := gettoken_spec h (hlo.trans hpos) hp'
    have hps := hpos.trans htok.ge
    obtain ⟨t, ht, hr⟩ := bind_eq_ok.mp hr
    have hrest := hf _ _ (hlo.trans hps) htok.inside ht
    cases hr
    refine ⟨hps.trans hrest.ge, hrest.le, ?_⟩
    rw [hg]
    exact strings_append hu.recorded hrest.recorded
  · cases hr
    exact ⟨hpos, hp', hu.recorded⟩

theorem parsepipe_keeps (h : Line mem lo es) (hexec : Keeps mem lo es (parseexec mem es n))
    (hpipe : Keeps mem lo es (parsepipe mem es n)) :
    Keeps mem lo es (parsepipe mem es (n + 1)) := by
  intro s r hlo hs hr
  rw [parsepipe] at hr
  obtain ⟨u, hu, hr⟩ := bind_eq_ok.mp hr
  exact operand_parsed h hpipe (fun _ _ => rfl) (hexec s u hlo hs hu) hlo [byte '|'] hr

theorem parseline_keeps (h : Line mem lo es) (hpipe : Keeps mem lo es (parsepipe mem es n))
    (hline : Keeps mem lo es (parseline mem es n)) :
    Keeps mem lo es (parseline mem es (n + 1)) := by
  intro s r hlo hs hr
  rw [parseline] at hr
  obtain ⟨u, hu, hr⟩ := bind_eq_ok.mp hr
  obtain ⟨v, hv, hr⟩ := bind_eq_ok.mp hr
  have hfirst := hpipe s u hlo hs hu
  have hbacks := parsebacks_parsed h (hlo.trans hfirst.ge) hfirst.le hfirst.recorded hv
  exact operand_parsed h hline (fun _ _ => rfl) (hbacks.weaken hfirst.ge) hlo [byte ';'] hr

theorem parseblock_keeps (h : Line mem lo es) (hline : Keeps mem lo es (parseline mem es n)) :
    Keeps mem lo es (parseblock mem es (n + 1)) := by
  intro s r hlo hs hr
  obtain ⟨hp, hp', -⟩ := peek_spec h hs [byte '(']
  have htok := gettoken_spec h (hlo.trans hp) hp'
  have hps := hp.trans htok.ge
  rw [parseblock] at hr
  dsimp only at hr
  split at hr
  case isFalse => cases hr
  obtain ⟨u, hu, hr⟩ := bind_eq_ok.mp hr
  have hinner := (hline _ _ (hlo.trans hps) htok.inside hu).weaken hps
  obtain ⟨hq, hq', -⟩ := peek_spec h hinner.le [byte ')']
  have hpos := hinner.ge.trans hq
  have hclose := gettoken_spec h (hlo.trans hpos) hq'
  have hps' := hpos.trans hclose.ge
  split at hr
  case isFalse => cases hr
  exact (parseredirs_parsed h (hlo.trans hps') hclose.inside hinner.recorded hr).weaken hps'

theorem parseexec_keeps (h : Line mem lo es) (hblock : Keeps mem lo es (parseblock mem es n)) :
    Keeps mem lo es (parseexec mem es (n + 1)) := by
  intro s r hlo hs hr
  obtain ⟨hp, hp', -⟩ := peek_spec h hs [byte '(']
  rw [parseexec] at hr
  split at hr
  · exact (hblock _ _ (hlo.trans hp) hp' hr).weaken hp
  · obtain ⟨u, hu, hr⟩ := bind_eq_ok.mp hr
    have hredirs := parseredirs_parsed h (hlo.trans hp) hp'
      (fun a ha => absurd ha List.not_mem_nil) hu
    have hargs := parseargs_parsed h (hlo.trans (hp.trans hredirs.ge)) hredirs.le
      hredirs.recorded hr
    exact hargs.weaken (hp.trans hredirs.ge)

theorem parsers_keep (h : Line mem lo es) (n : ℕ) :
    Keeps mem lo es (parseline mem es n) ∧ Keeps mem lo es (parsepipe mem es n) ∧
      Keeps mem lo es (parseblock mem es n) ∧ Keeps mem lo es (parseexec mem es n) := by
  induction n with
  | zero =>
    have hzero : ∀ f : ℕ → Except Fault (Cmd Slice × ℕ), (∀ s, f s = .error .diverges) →
        Keeps mem lo es f := by
      intro f hf s r _ _ hr
      rw [hf] at hr
      cases hr
    refine ⟨hzero _ fun s => ?_, hzero _ fun s => ?_, hzero _ fun s => ?_, hzero _ fun s => ?_⟩
    · rw [parseline]
    · rw [parsepipe]
    · rw [parseblock]
    · rw [parseexec]
  | succ n ih =>
    obtain ⟨hline, hpipe, hblock, hexec⟩ := ih
    exact ⟨parseline_keeps h hpipe hline, parsepipe_keeps h hexec hpipe,
      parseblock_keeps h hline, parseexec_keeps h hblock⟩

end Commands

theorem text_of_spells {w : Name} (h : Spells mem a w) : text mem a = w.bytes := by
  have hlength : a.eq - a.q = w.bytes.length := by
    rw [h.length]
    omega
  refine List.ext_getElem ?_ ?_
  · rw [text, List.length_map, List.length_range, hlength]
  · intro i hi hi'
    simp only [text, List.getElem_map, List.getElem_range]
    exact h.bytes i hi'

/-- What parsecmd has parsed and terminated. -/
theorem parsecmd_parsed {mem' : Memory} (h : parsecmd n mem s = .ok (mem', cmd)) :
    ∃ line, cstring mem s n = some line ∧
      (∀ a ∈ strings cmd, Recorded mem s (s + line.length) a) ∧
      mem' = terminate mem (strings cmd) := by
  rw [parsecmd, strlen] at h
  cases hline : cstring mem s n with
  | none =>
    rw [hline] at h
    cases h
  | some line =>
    rw [hline] at h
    obtain ⟨u, hu, h⟩ := bind_eq_ok.mp h
    have hkeep := (parsers_keep (line_of_cstring hline) n).1
    have hparsed := hkeep s u (Nat.le_refl s) (Nat.le_add_right _ _) hu
    split at h
    · cases h
    · cases h
      exact ⟨line, rfl, hparsed.recorded, nulterminate_eq mem _⟩

/-- Read as a string after nulterminate, every string of the command is the text that was recorded
for it. -/
theorem parsecmd_terminated (mem mem' : Memory) (s n : ℕ) (cmd : Cmd Slice)
    (h : parsecmd n mem s = .ok (mem', cmd)) (a : Slice) (ha : a ∈ strings cmd) (k : ℕ)
    (hk : a.eq - a.q < k) : a.q < a.eq ∧ cstring mem' a.q k = some (text mem a) := by
  obtain ⟨line, -, hrecorded, rfl⟩ := parsecmd_parsed h
  obtain ⟨w, hw⟩ := (hrecorded a ha).word
  have hpos := List.length_pos_of_ne_nil w.nonempty
  have hlength := hw.length
  refine ⟨by omega, ?_⟩
  rw [text_of_spells hw]
  exact cstring_spelled hw ha (fun b hb => (hrecorded b hb).word) (by omega)

/-- `a>b` at address 100 -/
def adjoining : Memory := fun x => ((['a', '>', 'b'].map byte)[x - 100]?).getD 0

theorem parsecmd_terminated_adjoining :
    ∃ mem' cmd, parsecmd 20 adjoining 100 = .ok (mem', cmd) ∧
      ∀ a ∈ strings cmd, a.q < a.eq ∧ cstring mem' a.q 20 = some (text adjoining a) := by
  have hrun : (parsecmd 20 adjoining 100).map Prod.snd =
      .ok (.redir (.exec [⟨100, 101⟩]) ⟨102, 103⟩ 0x201 1) := by decide +kernel
  cases h : parsecmd 20 adjoining 100 with
  | error e =>
    rw [h] at hrun
    cases hrun
  | ok r =>
    obtain ⟨mem', cmd⟩ := r
    rw [h] at hrun
    obtain rfl : cmd = .redir (.exec [⟨100, 101⟩]) ⟨102, 103⟩ 0x201 1 := Except.ok.inj hrun
    refine ⟨mem', _, rfl, ?_⟩
    intro a ha
    have hshort : ∀ b ∈ strings (.redir (.exec [⟨100, 101⟩]) ⟨102, 103⟩ 0x201 1 : Cmd Slice),
        b.eq - b.q < 20 := by decide
    exact parsecmd_terminated adjoining mem' 100 20 _ h a ha 20 (hshort a ha)

end ShellTerminators
