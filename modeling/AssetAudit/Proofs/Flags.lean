/-
AssetAudit/Proofs/Flags.lean

A flag put in among the words of a command line.

Two facts about reading carry the rest.  A flag takes in the value of the
option before it, which changes nothing of what is read afterwards
(`readWords_of_settle`).  And where a flag is set, a step that spares it goes on
as before, while one that sets it is refused (`Bars`); so the words behind the
new flag are read to the same settings with the flag set, or are refused.

Main result: with a flag put in anywhere, words that ask for an audit without it
ask for the audit with it, or they are refused; words that set it already are
refused (`Request.ofWords_insert_flag`).  They are never taken for anything else.
-/
import AssetAudit.Proofs.Reading

namespace AssetAudit.CommandLine

/-! ### Values taken in -/

/-- A value is refused, but it answers nothing. -/
theorem Settings.refused_of_set {s : Settings} {o : Valued} {v : Bytes} {stop : Stop}
    (h : s.set o v = .error stop) : ∃ e, stop = .refused e := by
  cases o with
  | exclude =>
    rw [set] at h
    split at h
    · cases h
    · cases h
      exact ⟨_, rfl⟩
  | root =>
    rw [set] at h
    split at h
    · cases h
      exact ⟨_, rfl⟩
    split at h
    · cases h
      exact ⟨_, rfl⟩
    · cases h

namespace State

variable {st : State} {s : Settings}

theorem refused_of_settle {stop : Stop} (h : st.settle = .error stop) :
    ∃ e, stop = .refused e := by
  obtain ⟨settings, pending⟩ := st
  rcases pending with _ | ⟨o, _ | v⟩
  · cases h
  · cases h
    exact ⟨_, rfl⟩
  · exact Settings.refused_of_set h

/-- An option that still needs its value cannot be settled. -/
theorem isAwaiting_of_settle (h : st.settle = .ok s) : st.isAwaiting = false := by
  obtain ⟨settings, pending⟩ := st
  rcases pending with _ | ⟨o, _ | v⟩
  · rfl
  · cases h
  · rfl

theorem flag_of_settle (h : st.settle = .ok s) (l : Level) (g : Flag) :
    flag l ⟨s, none⟩ g = flag l st g := by
  rw [flag, flag, h]
  rfl

theorem valued_of_settle (h : st.settle = .ok s) (o : Valued) (attached : Option Bytes) :
    valued ⟨s, none⟩ o attached = valued st o attached := by
  rw [valued, valued, h]
  rfl

theorem long_of_settle (h : st.settle = .ok s) (l : Level) (name : Bytes)
    (attached : Option Bytes) : long l ⟨s, none⟩ name attached = long l st name attached := by
  unfold long
  rcases l.long? name with _ | ⟨o | g⟩
  · rfl
  · exact valued_of_settle h o attached
  · cases attached with
    | none => exact flag_of_settle h l g
    | some v => rfl

/-- The first letter takes in the value, so the others see no difference. -/
theorem cluster_of_settle (h : st.settle = .ok s) (l : Level) (c : UInt8) (letters : Bytes) :
    cluster l ⟨s, none⟩ (c :: letters) = cluster l st (c :: letters) := by
  unfold cluster
  rcases l.short? c with _ | ⟨o | g⟩
  · rfl
  · exact valued_of_settle h o _
  · dsimp only
    rw [flag_of_settle h l g]

theorem plain_of_settle (h : st.settle = .ok s) (t : Bytes) :
    plain ⟨s, none⟩ t = plain st t := by
  obtain ⟨settings, pending⟩ := st
  rcases pending with _ | ⟨o, _ | v⟩
  · rfl
  · cases h
  · rfl

end State

theorem Word.letters_ne_nil {t letters : Bytes} (h : Word.ofBytes t = .cluster letters) :
    letters ≠ [] := by
  unfold ofBytes at h
  split at h
  · split at h
    · cases h
    split at h
    · cases h
      exact List.cons_ne_nil _ _
    · split at h <;> cases h
  · cases h

/-- A word does the same where the last value has been taken in. -/
theorem Word.step_of_settle {st : State} {s : Settings} (h : st.settle = .ok s) (l : Level)
    (t : Bytes) : (Word.ofBytes t).step l ⟨s, none⟩ = (Word.ofBytes t).step l st := by
  cases word : Word.ofBytes t with
  | escape => rfl
  | long name attached => exact State.long_of_settle h l name attached
  | cluster letters =>
    cases letters with
    | nil => exact absurd rfl (Word.letters_ne_nil word)
    | cons c letters => exact State.cluster_of_settle h l c letters
  | plain t => exact State.plain_of_settle h t

/-- All that is read is the same where the last value has been taken in. -/
theorem readWords_of_settle {st : State} {s : Settings} (h : st.settle = .ok s) (l : Level)
    (words : List Bytes) : readWords l ⟨s, none⟩ words = readWords l st words := by
  have settled : (⟨s, none⟩ : State).settle = st.settle := h.symm
  cases words with
  | nil => rw [readWords, readWords, settled]
  | cons t rest =>
    have awaiting : (⟨s, none⟩ : State).isAwaiting = st.isAwaiting :=
      (State.isAwaiting_of_settle h).symm
    rw [readWords_cons, readWords_cons, settled, awaiting, Word.step_of_settle h]

/-! ### Flags set twice -/

namespace State

/-- A step of reading that sets the flag is refused where the flag is set
already. -/
def Bars (f : Flag) (step : State → Except Stop State) : Prop :=
  ∀ ⦃st st' : State⦄, step st = .ok st' → st.settings.has f = false →
    st'.settings.has f = true → step (st.mark f) = .error (.refused .repeated)

/-- A step that leaves the flag as it is has nothing to refuse. -/
theorem Bars.of_kept {f : Flag} {step : State → Except Stop State}
    (kept : ∀ ⦃st st' : State⦄, step st = .ok st' → st'.settings.has f = st.settings.has f) :
    Bars f step := by
  intro st st' met off on
  rw [kept met, off] at on
  cases on

theorem bars_flag (l : Level) (f g : Flag) : Bars f (flag l · g) := by
  intro st st' met off on
  dsimp only at met ⊢
  obtain ⟨setting, s, settled, _, rfl⟩ := flag_eq_ok met
  obtain ⟨kept, again⟩ := mark_settle f settled
  by_cases same : f = g
  · subst same
    rw [flag_of_isSetting l _ setting, again, Except.ok_bind, Settings.has_mark_self s setting,
      if_pos rfl]
  · -- another flag would not have set this one
    rw [Settings.has_mark_of_ne s same, kept, off] at on
    cases on

theorem bars_valued (f : Flag) (o : Valued) (attached : Option Bytes) :
    Bars f (valued · o attached) :=
  .of_kept fun _ _ met => (mark_valued f met).1

theorem bars_plain (f : Flag) (t : Bytes) : Bars f (plain · t) :=
  .of_kept fun _ _ met => (mark_plain f met).1

theorem bars_long (l : Level) (f : Flag) (name : Bytes) (attached : Option Bytes) :
    Bars f (long l · name attached) := by
  intro st st' met off on
  dsimp only at met ⊢
  unfold long at met ⊢
  generalize l.long? name = switch at met ⊢
  rcases switch with _ | ⟨o | g⟩
  · cases met
  · exact bars_valued f o attached met off on
  · cases attached with
    | none => exact bars_flag l f g met off on
    | some v => cases met

theorem bars_cluster (l : Level) (f : Flag) (letters : Bytes) :
    Bars f (cluster l · letters) := by
  induction letters with
  | nil => exact .of_kept fun _ _ met => by cases met; rfl
  | cons c letters ih =>
    intro st st' met off on
    dsimp only at met ⊢
    unfold cluster at met ⊢
    generalize l.short? c = switch at met ⊢
    rcases switch with _ | ⟨o | g⟩
    · cases met
    · exact bars_valued f o _ met off on
    · dsimp only at met ⊢
      split at met
      · rename_i st₁ first
        -- the letter sets the flag, or one of the later ones does
        cases on₁ : st₁.settings.has f with
        | true =>
          have barred := bars_flag l f g first off on₁
          dsimp only at barred
          rw [barred]
        | false =>
          obtain ⟨_, marked⟩ := spares_flag l f g first on₁
          dsimp only at marked
          rw [marked]
          exact ih met on₁ on
      · cases met

end State

theorem Word.bars_step (l : Level) (f : Flag) (word : Word) : State.Bars f (word.step l ·) := by
  cases word with
  | escape => exact fun _ _ met => nomatch met
  | long name attached => exact State.bars_long l f name attached
  | cluster letters => exact State.bars_cluster l f letters
  | plain t => exact State.bars_plain f t

/-- Words that set the flag are refused where it is set already. -/
theorem readWords_mark_of_has {f : Flag} {st : State} {words : List Bytes} {s : Settings}
    (h : readWords .program st words = .ok (.program, s)) (off : st.settings.has f = false)
    (on : s.has f = true) :
    readWords .program (st.mark f) words = .error (.refused .repeated) := by
  -- the last value sets no flag, so the words do not end before one of them has
  have unended {st : State} (settled : st.settle = .ok s) : st.settings.has f ≠ false := by
    rw [← (State.mark_settle f settled).1, on]
    exact Bool.noConfusion
  induction words generalizing st with
  | nil =>
    obtain ⟨_, settled, e⟩ := Except.map_eq_ok_iff.mp h
    cases e
    exact absurd off (unended settled)
  | cons t rest ih =>
    have awaiting : (st.mark f).isAwaiting = st.isAwaiting := rfl
    rcases readWords_cons_cases h with ⟨_, settled, _⟩ | ⟨st₁, met, later, read⟩
    · exact absurd off (unended settled)
    rw [read _ _ awaiting]
    cases on₁ : st₁.settings.has f with
    | true =>
      have barred := Word.bars_step .program f _ met off on₁
      dsimp only at barred
      rw [barred]
      rfl
    | false =>
      obtain ⟨_, marked⟩ := Word.spares_step .program f _ met on₁
      dsimp only at marked
      rw [marked, Except.ok_bind]
      exact ih later on₁

/-! ### Flags put in -/

/-- The word of a flag is read as the flag, whatever stands before it. -/
theorem readWords_flag {f : Flag} (setting : f.isSetting = true) (st : State)
    (rest : List Bytes) : readWords .program st (f.word :: rest) =
      st.flag .program f >>= fun st => readWords .program st rest := by
  have noCommand : f.word ≠ bytesOf "scan" ∧ f.word ≠ bytesOf "help" := by
    cases f <;> decide
  rw [readWords, if_neg fun h => noCommand.1 h.2.2, if_neg fun h => noCommand.2 h.2.2]
  cases f with
  | noDefaultExcludes => rfl
  | json => rfl
  | verbose => rfl
  | help => cases setting
  | version => cases setting

/-- With a flag put in, words are read to the settings with the flag set, or are
refused.  The induction is on what stands before the flag. -/
theorem readWords_insert {f : Flag} (setting : f.isSetting = true) {st : State}
    {before behind : List Bytes} {s : Settings}
    (h : readWords .program st (before ++ behind) = .ok (.program, s)) :
    (s.has f = false ∧
      readWords .program st (before ++ f.word :: behind) =
        .ok (.program, s.mark f)) ∨
    ∃ e, readWords .program st (before ++ f.word :: behind) =
      .error (.refused e) := by
  induction before generalizing st with
  | nil =>
    rw [List.nil_append, readWords_flag setting, State.flag_of_isSetting _ _ setting]
    cases settled : st.settle with
    | error stop =>
      obtain ⟨e, rfl⟩ := State.refused_of_settle settled
      exact .inr ⟨e, rfl⟩
    | ok s₀ =>
      have read := (readWords_of_settle settled .program behind).trans h
      rw [Except.ok_bind]
      cases off : s₀.has f with
      | true => exact .inr ⟨.repeated, rfl⟩
      | false =>
        cases on : s.has f with
        | true => exact .inr ⟨.repeated, readWords_mark_of_has read off on⟩
        | false => exact .inl ⟨rfl, (readWords_mark read on).2⟩
  | cons t before ih =>
    rw [List.cons_append]
    rcases readWords_cons_cases h with ⟨_, _, read⟩ | ⟨st₁, met, later, read⟩
    · -- the new flag would stand behind two dashes
      rw [read _ _ rfl, if_neg (by simp)]
      exact .inr ⟨_, rfl⟩
    · rw [read _ _ rfl, met, Except.ok_bind]
      exact ih later

/-- A flag put in anywhere among words that ask for an audit: they ask for the
audit with the flag set, which it was not, or they are refused. -/
theorem Request.ofWords_insert_flag {f : Flag} (setting : f.isSetting = true)
    {before behind : List Bytes} {s : Settings}
    (h : Request.ofWords (before ++ behind) = .ok (.audit s)) :
    (s.has f = false ∧ Request.ofWords (before ++ f.word :: behind) =
      .ok (.audit (s.mark f))) ∨
    ∃ e, Request.ofWords (before ++ f.word :: behind) = .error e := by
  rcases readWords_insert setting (readWords_of_ofWords h) with ⟨off, read⟩ | ⟨e, read⟩
  · left
    rw [ofWords, read]
    exact ⟨off, rfl⟩
  · right
    rw [ofWords, read]
    exact ⟨e, rfl⟩

end AssetAudit.CommandLine
