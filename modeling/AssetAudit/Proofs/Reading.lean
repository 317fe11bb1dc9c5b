/-
AssetAudit/Proofs/Reading.lean

What words ask for, and command lines with one more flag.

Reading does not look at a flag but where the flag itself is met, and then only
to refuse it a second time.  So a step that does not meet the flag does the same
whether it was set before or not (`Spares`).  Words that ask for an audit are
read in such steps, up to two dashes at their end (`readWords_cons_cases`), so
words that do not set the flag are read alike either way (`readWords_mark`).
Hence a flag may stand in front of any words that ask for an audit without it
(`Request.ofWords_cons_flag`).

A root is not read at all but taken as it is, whatever its bytes are
(`Request.ofWords_root`).
-/
import AssetAudit.CommandLine.Request
import AssetAudit.Proofs.Outcomes

namespace AssetAudit.CommandLine

/-! ### Flags as settings -/

/-- The flag is a setting, and not a question that is answered at once. -/
def Flag.isSetting : Flag → Bool
  | .noDefaultExcludes => true
  | .json => true
  | .verbose => true
  | .help => false
  | .version => false

namespace Settings

/-- The flag is set. -/
def has (s : Settings) : Flag → Bool
  | .noDefaultExcludes => s.noDefaultExcludes
  | .json => s.json
  | .verbose => s.verbose
  | .help => false
  | .version => false

/-- The settings with the flag set. -/
def mark (s : Settings) : Flag → Settings
  | .noDefaultExcludes => { s with noDefaultExcludes := true }
  | .json => { s with json := true }
  | .verbose => { s with verbose := true }
  | .help => s
  | .version => s

theorem has_mark_self {f : Flag} (s : Settings) (h : f.isSetting = true) :
    (s.mark f).has f = true := by
  cases f <;> first | rfl | cases h

theorem has_mark_of_ne {f g : Flag} (s : Settings) (h : g ≠ f) :
    (s.mark f).has g = s.has g := by
  cases f <;> cases g <;> first | rfl | exact absurd rfl h

theorem mark_comm (s : Settings) (f g : Flag) : (s.mark f).mark g = (s.mark g).mark f := by
  cases f <;> cases g <;> rfl

theorem mark_root (s : Settings) (f : Flag) : (s.mark f).root = s.root := by
  cases f <;> rfl

theorem mark_set {s s' : Settings} {o : Valued} {v : Bytes} (f : Flag) (h : s.set o v = .ok s') :
    s'.has f = s.has f ∧ (s.mark f).set o v = .ok (s'.mark f) := by
  cases o with
  | exclude =>
    rw [set] at h ⊢
    cases text : Utf8.decode? v with
    | none =>
      rw [text] at h
      cases h
    | some pattern =>
      rw [text] at h
      cases h
      cases f <;> exact ⟨rfl, rfl⟩
  | root =>
    rw [set] at h
    split at h
    · cases h
    split at h
    · cases h
    rename_i first given
    cases h
    rw [set, mark_root, if_neg first, if_neg given]
    cases f <;> exact ⟨rfl, rfl⟩

end Settings

namespace State

/-- The state with the flag set. -/
def mark (st : State) (f : Flag) : State :=
  { st with settings := st.settings.mark f }

/-- A step of reading that does not set the flag does the same where the flag
is set already. -/
def Spares (f : Flag) (step : State → Except Stop State) : Prop :=
  ∀ ⦃st st' : State⦄, step st = .ok st' → st'.settings.has f = false →
    st.settings.has f = false ∧ step (st.mark f) = .ok (st'.mark f)

/-! ### Steps -/

theorem mark_settle {st : State} {s : Settings} (f : Flag) (h : st.settle = .ok s) :
    s.has f = st.settings.has f ∧ (st.mark f).settle = .ok (s.mark f) := by
  obtain ⟨settings, pending⟩ := st
  rcases pending with _ | ⟨o, _ | v⟩
  · cases h
    exact ⟨rfl, rfl⟩
  · cases h
  · exact Settings.mark_set f h

/-- A flag that is a setting is taken in once. -/
theorem flag_of_isSetting {g : Flag} (l : Level) (st : State) (h : g.isSetting = true) :
    st.flag l g = st.settle >>= fun s =>
      if s.has g then .error (.refused .repeated) else .ok ⟨s.mark g, none⟩ := by
  cases g <;> first | rfl | cases h

/-- Any other flag is answered. -/
theorem flag_of_not_isSetting {g : Flag} (l : Level) (st : State) (h : g.isSetting = false) :
    ∃ r, (∀ s, r ≠ .audit s) ∧ st.flag l g = st.settle >>= fun _ => .error (.answered r) := by
  cases g with
  | help => exact ⟨.help l.topic, fun _ => nofun, rfl⟩
  | version => exact ⟨.version, fun _ => nofun, rfl⟩
  | _ => cases h

/-- A flag is taken in where it is a setting that is not set yet. -/
theorem flag_eq_ok {g : Flag} {l : Level} {st st' : State} (h : st.flag l g = .ok st') :
    g.isSetting = true ∧ ∃ s, st.settle = .ok s ∧ s.has g = false ∧ st' = ⟨s.mark g, none⟩ := by
  cases setting : g.isSetting with
  | false =>
    obtain ⟨r, _, e⟩ := flag_of_not_isSetting l st setting
    rw [e] at h
    obtain ⟨_, _, h⟩ := Except.bind_eq_ok_iff.mp h
    cases h
  | true =>
    rw [flag_of_isSetting l _ setting] at h
    obtain ⟨s, settled, h⟩ := Except.bind_eq_ok_iff.mp h
    split at h
    · cases h
    rename_i unset
    cases h
    exact ⟨rfl, s, settled, Bool.eq_false_iff.mpr unset, rfl⟩

theorem spares_flag (l : Level) (f g : Flag) : Spares f (flag l · g) := by
  intro st st' h off
  dsimp only at h ⊢
  obtain ⟨setting, s, settled, unset, rfl⟩ := flag_eq_ok h
  -- the flag that was met is another, or it would be set now
  have other : g ≠ f := by
    rintro rfl
    rw [Settings.has_mark_self s setting] at off
    cases off
  obtain ⟨kept, again⟩ := mark_settle f settled
  rw [Settings.has_mark_of_ne s other.symm, kept] at off
  refine ⟨off, ?_⟩
  rw [flag_of_isSetting l _ setting, again, Except.ok_bind, Settings.has_mark_of_ne s other, unset,
    if_neg Bool.false_ne_true, Settings.mark_comm]
  rfl

/-- An option with a value leaves the flags alone. -/
theorem mark_valued {st st' : State} {o : Valued} {attached : Option Bytes} (f : Flag)
    (h : st.valued o attached = .ok st') :
    st'.settings.has f = st.settings.has f ∧
      (st.mark f).valued o attached = .ok (st'.mark f) := by
  obtain ⟨s, settled, h⟩ := Except.bind_eq_ok_iff.mp h
  obtain ⟨kept, again⟩ := mark_settle f settled
  rw [← kept, valued, again, Except.ok_bind]
  cases attached with
  | none =>
    cases h
    exact ⟨rfl, rfl⟩
  | some v =>
    obtain ⟨s', taken, h⟩ := Except.bind_eq_ok_iff.mp h
    obtain ⟨same, marked⟩ := Settings.mark_set f taken
    cases h
    refine ⟨same, ?_⟩
    dsimp only
    rw [marked, Except.ok_bind]
    rfl

/-- So does a word that is no option. -/
theorem mark_plain {st st' : State} {t : Bytes} (f : Flag) (h : st.plain t = .ok st') :
    st'.settings.has f = st.settings.has f ∧ (st.mark f).plain t = .ok (st'.mark f) := by
  obtain ⟨settings, pending⟩ := st
  rcases pending with _ | ⟨o, _ | v⟩
  · cases h
  · cases h
    exact ⟨rfl, rfl⟩
  · cases h

theorem spares_valued (f : Flag) (o : Valued) (attached : Option Bytes) :
    Spares f (valued · o attached) := by
  intro st st' h off
  obtain ⟨kept, marked⟩ := mark_valued f h
  exact ⟨kept ▸ off, marked⟩

theorem spares_plain (f : Flag) (t : Bytes) : Spares f (plain · t) := by
  intro st st' h off
  obtain ⟨kept, marked⟩ := mark_plain f h
  exact ⟨kept ▸ off, marked⟩

theorem spares_long (l : Level) (f : Flag) (name : Bytes) (attached : Option Bytes) :
    Spares f (long l · name attached) := by
  intro st st' h off
  dsimp only at h ⊢
  unfold long at h ⊢
  generalize l.long? name = switch at h ⊢
  rcases switch with _ | ⟨o | g⟩
  · cases h
  · exact spares_valued f o attached h off
  · cases attached with
    | none => exact spares_flag l f g h off
    | some v => cases h

theorem spares_cluster (l : Level) (f : Flag) (letters : Bytes) :
    Spares f (cluster l · letters) := by
  induction letters with
  | nil =>
    intro st st' h off
    cases h
    exact ⟨off, rfl⟩
  | cons c letters ih =>
    intro st st' h off
    dsimp only at h ⊢
    unfold cluster at h ⊢
    generalize l.short? c = switch at h ⊢
    rcases switch with _ | ⟨o | g⟩
    · cases h
    · exact spares_valued f o _ h off
    · dsimp only at h ⊢
      split at h
      · rename_i st₁ met
        obtain ⟨off₁, rest⟩ := ih h off
        obtain ⟨before, marked⟩ := spares_flag l f g met off₁
        dsimp only at marked
        rw [marked]
        exact ⟨before, rest⟩
      · cases h

end State

/-! ### One word -/

/-- What a word does that is no command. -/
def Word.step (l : Level) (st : State) : Word → Except Stop State
  | .escape => .error (.refused .unexpectedWord)
  | .long name attached => st.long l name attached
  | .cluster letters => st.cluster l letters
  | .plain t => st.plain t

theorem Word.spares_step (l : Level) (f : Flag) (word : Word) :
    State.Spares f (word.step l ·) := by
  cases word with
  | escape => exact fun _ _ h => nomatch h
  | long name attached => exact State.spares_long l f name attached
  | cluster letters => exact State.spares_cluster l f letters
  | plain t => exact State.spares_plain f t

/-- The first word is a command, or two dashes, or one step of reading. -/
theorem readWords_cons (l : Level) (st : State) (t : Bytes) (rest : List Bytes) :
    readWords l st (t :: rest) =
      if l = .program ∧ !st.isAwaiting ∧ t = bytesOf "scan" then do
        let inner ← readWords .scan {} rest
        let _ ← st.settle
        return inner
      else if l = .program ∧ !st.isAwaiting ∧ t = bytesOf "help" then .error (helpOn rest)
      else if Word.ofBytes t = .escape then
        if rest.isEmpty then st.settle.map (l, ·) else .error (.refused .unexpectedWord)
      else (Word.ofBytes t).step l st >>= fun st => readWords l st rest := by
  rw [readWords]
  cases Word.ofBytes t <;> rfl

/-! ### Answers on the way -/

section Answers

variable {s : Settings}

theorem Settings.set_ne_audit (s' : Settings) (o : Valued) (v : Bytes) :
    s'.set o v ≠ .error (.answered (.audit s)) := by
  cases o with
  | exclude =>
    rw [set]
    split <;> exact nofun
  | root =>
    rw [set]
    split
    · exact nofun
    split
    · exact nofun
    · exact nofun

namespace State

theorem settle_ne_audit (st : State) : st.settle ≠ .error (.answered (.audit s)) := by
  obtain ⟨settings, pending⟩ := st
  rcases pending with _ | ⟨o, _ | v⟩
  · exact nofun
  · exact nofun
  · exact Settings.set_ne_audit settings o v

theorem flag_ne_audit (l : Level) (st : State) (g : Flag) :
    st.flag l g ≠ .error (.answered (.audit s)) := by
  cases setting : g.isSetting with
  | false =>
    obtain ⟨r, aside, e⟩ := flag_of_not_isSetting l st setting
    rw [e]
    refine Except.bind_ne_error st.settle_ne_audit (fun _ h => ?_)
    exact aside s (Stop.answered.inj (Except.error.inj h))
  | true =>
    rw [flag_of_isSetting l st setting]
    refine Except.bind_ne_error st.settle_ne_audit (fun _ => ?_)
    split <;> exact nofun

theorem valued_ne_audit (st : State) (o : Valued) (attached : Option Bytes) :
    st.valued o attached ≠ .error (.answered (.audit s)) := by
  refine Except.bind_ne_error st.settle_ne_audit ?_
  intro s'
  cases attached with
  | none => exact nofun
  | some v => exact Except.bind_ne_error (Settings.set_ne_audit s' o v) (fun _ => nofun)

theorem long_ne_audit (l : Level) (st : State) (name : Bytes) (attached : Option Bytes) :
    st.long l name attached ≠ .error (.answered (.audit s)) := by
  unfold long
  rcases l.long? name with _ | ⟨o | g⟩
  · exact nofun
  · exact st.valued_ne_audit o attached
  · cases attached with
    | none => exact st.flag_ne_audit l g
    | some v => exact nofun

theorem cluster_ne_audit (l : Level) (st : State) (letters : Bytes) :
    st.cluster l letters ≠ .error (.answered (.audit s)) := by
  induction letters generalizing st with
  | nil => exact nofun
  | cons c letters ih =>
    unfold cluster
    rcases l.short? c with _ | ⟨o | g⟩
    · exact nofun
    · exact st.valued_ne_audit o _
    · dsimp only
      split
      · exact ih _
      · rename_i e met
        rw [← met]
        exact st.flag_ne_audit l g

theorem plain_ne_audit (st : State) (t : Bytes) :
    st.plain t ≠ .error (.answered (.audit s)) := by
  rw [plain]
  split <;> exact nofun

end State

theorem Word.step_ne_audit (l : Level) (st : State) (word : Word) :
    word.step l st ≠ .error (.answered (.audit s)) := by
  cases word with
  | escape => exact nofun
  | long name attached => exact st.long_ne_audit l name attached
  | cluster letters => exact st.cluster_ne_audit l letters
  | plain t => exact st.plain_ne_audit t

theorem helpOn_ne_audit (words : List Bytes) : helpOn words ≠ .answered (.audit s) := by
  unfold helpOn
  split
  · exact nofun
  · split
    · exact nofun
    split
    · exact nofun
    · exact nofun
  · exact nofun

/-- An audit is asked for at the end of the words only. -/
theorem readWords_ne_audit (l : Level) (st : State) (words : List Bytes) :
    readWords l st words ≠ .error (.answered (.audit s)) := by
  induction words generalizing l st with
  | nil => exact Except.map_ne_error st.settle_ne_audit
  | cons t rest ih =>
    rw [readWords_cons]
    split
    · refine Except.bind_ne_error (ih .scan {}) (fun _ => ?_)
      exact Except.bind_ne_error st.settle_ne_audit (fun _ => nofun)
    split
    · exact fun h => helpOn_ne_audit rest (Except.error.inj h)
    split
    · split
      · exact Except.map_ne_error st.settle_ne_audit
      · exact nofun
    · exact Except.bind_ne_error (Word.step_ne_audit l st _) (ih l)

theorem Request.readWords_of_ofWords {words : List Bytes}
    (h : Request.ofWords words = .ok (.audit s)) :
    readWords .program {} words = .ok (.program, s) := by
  rw [ofWords] at h
  split at h
  · rename_i read
    cases h
    exact read
  · cases h
  · rename_i read
    cases h
    exact absurd read (readWords_ne_audit .program {} words)
  · cases h

end Answers

/-! ### All words -/

/-- Behind a command its own options are read to the end. -/
theorem level_of_readWords_scan {st : State} {words : List Bytes} {l : Level} {s : Settings}
    (h : readWords .scan st words = .ok (l, s)) : l = .scan := by
  induction words generalizing st with
  | nil =>
    rw [readWords] at h
    obtain ⟨_, _, h⟩ := Except.map_eq_ok_iff.mp h
    cases h
    rfl
  | cons t rest ih =>
    rw [readWords_cons, if_neg (by simp), if_neg (by simp)] at h
    split at h
    · split at h
      · obtain ⟨_, _, h⟩ := Except.map_eq_ok_iff.mp h
        cases h
        rfl
      · cases h
    · obtain ⟨_, _, h⟩ := Except.bind_eq_ok_iff.mp h
      exact ih h

/-- What the first of the words does where they ask for an audit.  It is two
dashes, and then the last, or it is one step of reading; which of the two, and
which step, does not depend on what has been set. -/
theorem readWords_cons_cases {st : State} {t : Bytes} {rest : List Bytes} {s : Settings}
    (h : readWords .program st (t :: rest) = .ok (.program, s)) :
    (rest = [] ∧ st.settle = .ok s ∧ ∀ st' : State, ∀ rest',
      st'.isAwaiting = st.isAwaiting → readWords .program st' (t :: rest') =
        if rest'.isEmpty then st'.settle.map (.program, ·)
        else .error (.refused .unexpectedWord)) ∨
    ∃ st₁, (Word.ofBytes t).step .program st = .ok st₁ ∧
      readWords .program st₁ rest = .ok (.program, s) ∧ ∀ st' : State, ∀ rest',
        st'.isAwaiting = st.isAwaiting → readWords .program st' (t :: rest') =
          (Word.ofBytes t).step .program st' >>= fun st => readWords .program st rest' := by
  rw [readWords_cons] at h
  split at h
  · -- the settings would be those of the command
    obtain ⟨inner, read, h⟩ := Except.bind_eq_ok_iff.mp h
    obtain ⟨_, _, h⟩ := Except.bind_eq_ok_iff.mp h
    cases h
    cases level_of_readWords_scan read
  rename_i noScan
  split at h
  · cases h
  rename_i noHelp
  by_cases escape : Word.ofBytes t = .escape
  · rw [if_pos escape] at h
    split at h
    · rename_i none
      obtain ⟨_, settled, e⟩ := Except.map_eq_ok_iff.mp h
      cases e
      refine .inl ⟨List.isEmpty_iff.mp none, settled, fun st' rest' same => ?_⟩
      rw [readWords_cons, same, if_neg noScan, if_neg noHelp, if_pos escape]
    · cases h
  · rw [if_neg escape] at h
    obtain ⟨st₁, met, later⟩ := Except.bind_eq_ok_iff.mp h
    refine .inr ⟨st₁, met, later, fun st' rest' same => ?_⟩
    rw [readWords_cons, same, if_neg noScan, if_neg noHelp, if_neg escape]

/-- Settings without the flag are read from a state without it, and with the
flag from the state with it. -/
theorem readWords_mark {f : Flag} {st : State} {words : List Bytes} {s : Settings}
    (h : readWords .program st words = .ok (.program, s)) (off : s.has f = false) :
    st.settings.has f = false ∧
      readWords .program (st.mark f) words = .ok (.program, s.mark f) := by
  -- the end of the words, be it behind two dashes, takes in the last value
  have last : ∀ {st : State}, st.settle = .ok s → st.settings.has f = false ∧
      (st.mark f).settle.map (Level.program, ·) = .ok (Level.program, s.mark f) := by
    intro st settled
    obtain ⟨kept, again⟩ := State.mark_settle f settled
    rw [← kept, again]
    exact ⟨off, rfl⟩
  induction words generalizing st with
  | nil =>
    obtain ⟨_, settled, e⟩ := Except.map_eq_ok_iff.mp h
    cases e
    exact last settled
  | cons t rest ih =>
    have awaiting : (st.mark f).isAwaiting = st.isAwaiting := rfl
    rcases readWords_cons_cases h with ⟨rfl, settled, read⟩ | ⟨st₁, met, later, read⟩
    · rw [read _ _ awaiting]
      exact last settled
    · obtain ⟨off₁, later⟩ := ih later
      obtain ⟨before, marked⟩ := Word.spares_step .program f _ met off₁
      dsimp only at marked
      rw [read _ _ awaiting, marked, Except.ok_bind]
      exact ⟨before, later⟩

/-- The flag as a word, by its long name. -/
def Flag.word : Flag → Bytes
  | .noDefaultExcludes => bytesOf "--no-default-excludes"
  | .json => bytesOf "--json"
  | .verbose => bytesOf "--verbose"
  | .help => bytesOf "--help"
  | .version => bytesOf "--version"

/-- A flag may stand in front of words that ask for an audit without it. -/
theorem Request.ofWords_cons_flag {f : Flag} {words : List Bytes} {s : Settings}
    (h : Request.ofWords words = .ok (.audit s)) (off : s.has f = false)
    (setting : f.isSetting = true) :
    Request.ofWords (f.word :: words) = .ok (.audit (s.mark f)) := by
  have marked := (readWords_mark (readWords_of_ofWords h) off).2
  have first : readWords .program {} (f.word :: words) =
      readWords .program (State.mark {} f) words := by
    cases f with
    | noDefaultExcludes => rfl
    | json => rfl
    | verbose => rfl
    | help => cases setting
    | version => cases setting
  rw [ofWords, first, marked]

/-! ### Roots -/

/-- Whatever is not empty can be given as the root, be it text or not. -/
theorem Request.ofWords_root {root : Bytes} (written : root ≠ []) :
    Request.ofWords [bytesOf "--root=" ++ root] = .ok (.audit { root := some root }) := by
  obtain ⟨b, rest, rfl⟩ := List.exists_cons_of_ne_nil written
  rfl

example : Request.ofWords [bytesOf "--root=" ++ [0xFF]] = .ok (.audit { root := some [0xFF] }) :=
  rfl

end AssetAudit.CommandLine
