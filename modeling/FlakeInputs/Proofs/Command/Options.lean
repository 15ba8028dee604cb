import FlakeInputs.Command.Invocation
import FlakeInputs.Proofs.Outcome

/-!
# Options that do not meddle with each other

A command line is read word by word, so what stands behind the command does not change how the
words in front of it are read.  An option that sets one thing commutes with all the others.  So the
option for a dry run can be put behind the command of any command line, which then asks for the
same work as before without writing.
-/

namespace FlakeInputs
namespace Command

variable {α σ : Type} {table : List (Switch α)} {give : σ → Given α → Except Stop σ}

/-! ## Words in front and behind -/

theorem readAll_cons {word : Text} (hword : word ≠ ['-', '-']) (words : List Text) :
    readAll table (word :: words) = do
      let reading ← read table word
      return ⟨word, reading⟩ :: (← readAll table words) := by
  rw [readAll]
  exact hword

theorem map_text_readAll {words : List Text} {rs : List (Argument α)}
    (h : readAll table words = .ok rs) : rs.map Argument.text = words := by
  induction words generalizing rs with
  | nil =>
    obtain rfl := Except.ok.inj h
    rfl
  | cons word words ih =>
    by_cases hword : word = ['-', '-']
    · subst hword
      obtain rfl := Except.ok.inj h
      simp [Function.comp_def]
    · rw [readAll_cons hword] at h
      obtain ⟨reading, -, h⟩ := Outcome.bind_eq_ok.1 h
      obtain ⟨rest, hrest, h⟩ := Outcome.bind_eq_ok.1 h
      obtain rfl := Except.ok.inj h
      rw [List.map_cons, ih hrest]

/-- Words in front of others read the same whatever the others are, if no terminator is among
them. -/
theorem exists_of_readAll_append {words : List Text} {front rest : List (Argument α)}
    (h : readAll table words = .ok (front ++ rest))
    (hfront : ∀ a ∈ front, a.reading ≠ .terminator) :
    ∃ before behind, words = before ++ behind ∧ readAll table behind = .ok rest ∧
      ∀ behind' rest', readAll table behind' = .ok rest' →
        readAll table (before ++ behind') = .ok (front ++ rest') := by
  induction front generalizing words with
  | nil => exact ⟨[], words, rfl, h, fun _ _ h' => h'⟩
  | cons a front ih =>
    cases words with
    | nil => cases h
    | cons word words =>
      by_cases hword : word = ['-', '-']
      · subst hword
        obtain ⟨ha, -⟩ := List.cons.inj (Except.ok.inj h)
        exact absurd (by rw [← ha]) (hfront a List.mem_cons_self)
      · rw [readAll_cons hword] at h
        obtain ⟨reading, hreading, h⟩ := Outcome.bind_eq_ok.1 h
        obtain ⟨rs, hrs, h⟩ := Outcome.bind_eq_ok.1 h
        obtain ⟨rfl, rfl⟩ := List.cons.inj (Except.ok.inj h)
        obtain ⟨before, behind, rfl, hbehind, hother⟩ :=
          ih hrs fun a ha => hfront a (List.mem_cons_of_mem _ ha)
        refine ⟨word :: before, behind, rfl, hbehind, ?_⟩
        intro behind' rest' hrest'
        rw [List.cons_append, readAll_cons hword, hreading, hother behind' rest' hrest']
        rfl

theorem nextValue?_append (front : List (Argument α)) (command : Argument α)
    (rest rest' : List (Argument α)) :
    nextValue? (front ++ command :: rest) = nextValue? (front ++ command :: rest') := by
  cases front with
  | nil => obtain ⟨text, _ | _ | _ | _⟩ := command <;> rfl
  | cons a front => obtain ⟨text, _ | _ | _ | _⟩ := a <;> rfl

/-- Only a word that is an operand is used up as a value. -/
theorem exists_of_takeSwitch {p p' : Progress σ} {s : Switch α} {attached? : Option Text}
    {words : List (Argument α)}
    (h : takeSwitch table give p s attached? (nextValue? words) = .ok (p', true)) :
    ∃ text rest, words = ⟨text, .operand⟩ :: rest := by
  obtain ⟨c, -, h⟩ := Outcome.bind_eq_ok.1 h
  obtain ⟨⟨given, used⟩, hcomplete, h⟩ := Outcome.bind_eq_ok.1 h
  obtain ⟨settings, -, h⟩ := Outcome.bind_eq_ok.1 h
  obtain ⟨-, rfl⟩ := Prod.mk.inj (Except.ok.inj h)
  have hnext : nextValue? words ≠ none := by
    intro hnone
    rw [hnone] at hcomplete
    unfold Cluster.complete at hcomplete
    split at hcomplete
    · simp at hcomplete
    · split at hcomplete
      · simp at hcomplete
      · simp at hcomplete
  unfold nextValue? at hnext
  split at hnext
  · exact ⟨_, _, rfl⟩
  · exact absurd rfl hnext

/-- The options in front of the first operand are taken in the same way whatever is behind it. -/
theorem exists_of_leading {p p' : Progress σ} {rs rest : List (Argument α)} {command : Argument α}
    (h : leading table give p rs = .ok (p', command :: rest)) :
    ∃ front, rs = front ++ command :: rest ∧ (∀ a ∈ front, a.reading ≠ .terminator) ∧
      ∀ rest', leading table give p (front ++ command :: rest') = .ok (p', command :: rest') := by
  induction hn : rs.length using Nat.strongRecOn generalizing p rs with
  | _ n ih =>
    subst hn
    cases rs with
    | nil =>
      rw [leading] at h
      · simp at h
      · simp
      · simp
    | cons a rs =>
      obtain ⟨text, reading⟩ := a
      cases reading with
      | unknown =>
        rw [leading] at h
        obtain ⟨front, rfl, hfront, hother⟩ := ih _ (Nat.lt_succ_self _) h rfl
        refine ⟨⟨text, .unknown⟩ :: front, rfl, by simpa using hfront, ?_⟩
        intro rest'
        rw [List.cons_append, leading, hother]
      | switch s attached? =>
        rw [leading] at h
        obtain ⟨⟨p₁, used⟩, htake, h⟩ := Outcome.bind_eq_ok.1 h
        cases used with
        | false =>
          obtain ⟨front, rfl, hfront, hother⟩ := ih _ (Nat.lt_succ_self _) h rfl
          refine ⟨⟨text, .switch s attached?⟩ :: front, rfl, by simpa using hfront, ?_⟩
          intro rest'
          rw [List.cons_append, leading, nextValue?_append front command rest' rest, htake]
          exact hother rest'
        | true =>
          obtain ⟨value, rs, rfl⟩ := exists_of_takeSwitch htake
          obtain ⟨front, rfl, hfront, hother⟩ := ih _ (Nat.lt_succ_of_lt (Nat.lt_succ_self _)) h rfl
          refine ⟨⟨text, .switch s attached?⟩ :: ⟨value, .operand⟩ :: front, rfl,
            by simpa using hfront, ?_⟩
          intro rest'
          rw [List.cons_append, leading]
          change (takeSwitch table give p s attached? (some value) >>= _) = _
          rw [show takeSwitch table give p s attached? (some value) = _ from htake]
          exact hother rest'
      | operand | terminator =>
        rw [leading] at h
        · obtain ⟨rfl, hcommand⟩ := Prod.mk.inj (Except.ok.inj h)
          obtain ⟨rfl, rfl⟩ := List.cons.inj hcommand
          refine ⟨[], rfl, by simp, ?_⟩
          intro rest'
          rw [List.nil_append, leading]
          · simp
          · simp
        · simp
        · simp

/-! ## Settings that commute -/

/-- The progress with other settings. -/
def Progress.map (f : σ → σ) (p : Progress σ) : Progress σ :=
  { p with settings := f p.settings }

section
variable {f : σ → σ} (hf : ∀ s given, give (f s) given = (give s given).map f)
include hf

theorem foldlM_give (given : List (Given α)) (s : σ) :
    given.foldlM give (f s) = (given.foldlM give s).map f := by
  induction given generalizing s with
  | nil => rfl
  | cons g given ih =>
    rw [List.foldlM_cons, List.foldlM_cons, hf]
    cases give s g with
    | error stop => rfl
    | ok s' => exact ih s'

theorem takeSwitch_map (p : Progress σ) (s : Switch α) (attached? next? : Option Text) :
    takeSwitch table give (p.map f) s attached? next? =
      (takeSwitch table give p s attached? next?).map fun (p, used) => (p.map f, used) := by
  unfold takeSwitch
  cases cluster table s attached? with
  | error stop => rfl
  | ok c =>
    simp only [Outcome.ok_bind]
    cases c.complete next? with
    | error stop => rfl
    | ok result =>
      simp only [Outcome.ok_bind]
      rw [show (p.map f).settings = f p.settings from rfl, foldlM_give hf]
      cases result.1.foldlM give p.settings with
      | error stop => rfl
      | ok settings => rfl

/-- What changes the settings in a way that commutes with every option can be done first or
last. -/
theorem arguments_map (wantsOperand : Bool) (p : Progress σ) (words : List (Argument α)) :
    arguments table give wantsOperand (p.map f) words =
      (arguments table give wantsOperand p words).map (Progress.map f) := by
  induction hn : words.length using Nat.strongRecOn generalizing p words with
  | _ n ih =>
    subst hn
    cases words with
    | nil =>
      rw [arguments, arguments]
      rfl
    | cons a rest =>
      obtain ⟨text, reading⟩ := a
      cases reading with
      | unknown =>
        rw [arguments, arguments]
        exact ih _ (Nat.lt_succ_self _) { p with extra := true } rest rfl
      | switch s attached? =>
        rw [arguments, arguments, takeSwitch_map hf]
        cases takeSwitch table give p s attached? (nextValue? rest) with
        | error stop => rfl
        | ok result =>
          have hlength := length_ite_drop_le result.2 rest
          exact ih _ (Nat.lt_succ_of_le hlength) result.1 _ rfl
      | operand =>
        rw [arguments, arguments]
        change (if wantsOperand && p.operand?.isNone then _ else _) = _
        split
        · exact ih _ (Nat.lt_succ_of_le (length_dropTerminator_le rest))
            { p with operand? := some text } _ rfl
        · exact ih _ (Nat.lt_succ_self _) { p with extra := true } rest rfl
      | terminator =>
        rw [arguments, arguments]
        have hrest := ih _ (Nat.lt_succ_self _) { p with extra := true } rest rfl
        rw [show (p.map f).operand? = p.operand? from rfl]
        cases nextValue? rest with
        | none => exact hrest
        | some value =>
          cases wantsOperand && p.operand?.isNone with
          | false => exact hrest
          | true =>
            exact ih _ (Nat.lt_succ_of_le (List.drop_sublist 1 rest).length_le)
              { p with operand? := some value } _ rfl

end

/-! ## Dry runs -/

/-- The settings for a dry run. -/
def Settings.dry (s : Settings) : Settings :=
  { s with dryRun := true }

theorem give_dry (s : Settings) (given : Given Meaning) :
    Settings.give s.dry given = (Settings.give s given).map Settings.dry := by
  unfold Settings.give
  cases given.meaning with
  | insertionLocation =>
    dsimp only
    cases given.value?.mapM Location.ofText with
    | error error => rfl
    | ok location? => rfl
  | _ => rfl

/-- The option for a dry run. -/
def dryRunWord : Text := "--dry-run".toList

/-- The job without writing. -/
def Job.dry : Job → Job
  | .add ref name? location? _ => .add ref name? location? true
  | .list json => .list json

theorem commandSettings_dry {words : List Text} {s : Settings} {operand? : Option Text}
    (h : commandSettings addSwitches true words = .ok (s, operand?)) :
    commandSettings addSwitches true (dryRunWord :: words) = .ok (s.dry, operand?) := by
  obtain ⟨readings, hreadings, h⟩ := Outcome.bind_eq_ok.1 h
  obtain ⟨p, hp, h⟩ := Outcome.bind_eq_ok.1 h
  have hread : readAll addSwitches (dryRunWord :: words) =
      .ok (⟨dryRunWord, .switch (flag "--dry-run" .dryRun) none⟩ :: readings) := by
    rw [readAll_cons (by decide), hreadings]
    rfl
  have hfirst : arguments addSwitches Settings.give true ⟨.default, none, false⟩
      (⟨dryRunWord, .switch (flag "--dry-run" .dryRun) none⟩ :: readings) =
        .ok (p.map Settings.dry) := by
    have hmap : arguments addSwitches Settings.give true
        (Progress.map Settings.dry ⟨.default, none, false⟩) readings =
          .ok (p.map Settings.dry) := by
      rw [arguments_map give_dry, hp]
      rfl
    rw [arguments]
    exact hmap
  unfold commandSettings
  rw [hread, Outcome.ok_bind, hfirst, Outcome.ok_bind]
  obtain ⟨settings, found?, extra⟩ := p
  cases extra with
  | true => cases h
  | false =>
    obtain ⟨rfl, rfl⟩ := Prod.mk.inj (Except.ok.inj h)
    rfl

/-- Behind the command that adds an input, the option for a dry run changes nothing else. -/
theorem jobOf_dry {words : List Text} {job : Job} {path? : Option Text}
    (h : jobOf "add".toList words = .ok (job, path?)) :
    jobOf "add".toList (dryRunWord :: words) = .ok (job.dry, path?) := by
  unfold jobOf at h ⊢
  rw [if_pos rfl] at h ⊢
  obtain ⟨⟨s, operand?⟩, hsettings, h⟩ := Outcome.bind_eq_ok.1 h
  rw [commandSettings_dry hsettings, Outcome.ok_bind]
  cases operand? with
  | none => cases h
  | some ref =>
    obtain ⟨rfl, rfl⟩ := Prod.mk.inj (Except.ok.inj h)
    rfl

theorem command_eq_add {command : Text} {words : List Text} {path? : Option Text} {ref : Text}
    {name? : Option Text} {location? : Option Location} {dryRun : Bool}
    (h : jobOf command words = .ok (.add ref name? location? dryRun, path?)) :
    command = "add".toList := by
  by_cases hadd : command = "add".toList
  · exact hadd
  · unfold jobOf at h
    rw [if_neg hadd] at h
    by_cases hlist : command = "list".toList
    · rw [if_pos hlist] at h
      obtain ⟨s, -, h⟩ := Outcome.bind_eq_ok.1 h
      cases h
    · rw [if_neg hlist] at h
      cases h

/-- The option for a dry run can be put behind the command of a command line that adds an input. -/
theorem exists_dry {words : List Text} {verbosity : Nat} {path? : Option Files.Path} {ref : Text}
    {name? : Option Text} {location? : Option Location} {dryRun : Bool}
    (h : Invocation.ofWords words = .ok ⟨verbosity, path?, .add ref name? location? dryRun⟩) :
    ∃ before behind, words = before ++ "add".toList :: behind ∧
      Invocation.ofWords (before ++ "add".toList :: dryRunWord :: behind) =
        .ok ⟨verbosity, path?, .add ref name? location? true⟩ := by
  obtain ⟨readings, hreadings, h⟩ := Outcome.bind_eq_ok.1 h
  obtain ⟨⟨p, left⟩, hleading, h⟩ := Outcome.bind_eq_ok.1 h
  cases left with
  | nil => cases h
  | cons command rest =>
    obtain ⟨⟨job, written?⟩, hjob, h⟩ := Outcome.bind_eq_ok.1 h
    obtain ⟨front, rfl, hfront, hother⟩ := exists_of_leading hleading
    obtain ⟨before, behind, rfl, hbehind, hread⟩ := exists_of_readAll_append hreadings hfront
    obtain ⟨settings, operand?, extra⟩ := p
    cases extra with
    | true => cases h
    | false =>
      obtain ⟨rfl, rfl, rfl⟩ := Invocation.mk.inj (Except.ok.inj h)
      have hadd := command_eq_add hjob
      cases behind with
      | nil => cases hbehind
      | cons word behind =>
        obtain ⟨rfl, -⟩ := List.cons.inj (map_text_readAll hbehind)
        rw [hadd, readAll_cons (by decide)] at hbehind
        obtain ⟨reading, hreading, hbehind⟩ := Outcome.bind_eq_ok.1 hbehind
        obtain ⟨rest', hrest, hbehind⟩ := Outcome.bind_eq_ok.1 hbehind
        obtain ⟨hcommand, rfl⟩ := List.cons.inj (Except.ok.inj hbehind)
        have hdry : readAll generalSwitches ("add".toList :: dryRunWord :: behind) =
            .ok (command :: ⟨dryRunWord, .unknown⟩ :: rest') := by
          rw [readAll_cons (by decide), readAll_cons (by decide), hreading, hrest, ← hcommand]
          rfl
        refine ⟨before, behind, by rw [hadd], ?_⟩
        unfold Invocation.ofWords
        rw [hread _ _ hdry, Outcome.ok_bind, hother, Outcome.ok_bind]
        rw [hadd] at hjob
        have hjob' := jobOf_dry hjob
        simp only [hadd, List.map_cons, hjob', Outcome.ok_bind]
        rfl

end Command
end FlakeInputs
