import SqlCompose.Cli.Args

/-! The two spellings of a flag with a value. A command reads its arguments from the left: each one
ends the reading, leads to another state, or waits for a value, and what stands behind a row of
arguments is read from the state that they lead to, if it is read at all. So a flag may stand with
its value in one argument or in front of it; only an indentation that repeats the flag is read
without the repetitions in the first spelling and refused in the second. -/

namespace SqlCompose.Cli

section Reading

variable {σ : Type} {parse : σ → List Text → Except ArgFault Command} {s : σ} {xs ys : List Text}

/-- The arguments end the reading, or what stands behind them is read from the state that they lead
to. -/
def Settles (parse : σ → List Text → Except ArgFault Command) (s : σ) (xs : List Text) : Prop :=
  (∃ result, ∀ rest, parse s (xs ++ rest) = result) ∨
    ∃ s', ∀ rest, parse s (xs ++ rest) = parse s' rest

theorem Settles.append (first : Settles parse s xs) (second : ∀ s',
    (∀ rest, parse s (xs ++ rest) = parse s' rest) → Settles parse s' ys) :
    Settles parse s (xs ++ ys) := by
  rcases first with ⟨result, stop⟩ | ⟨s', next⟩
  · exact .inl ⟨result, fun rest => by rw [List.append_assoc, stop]⟩
  · rcases second s' next with ⟨result, stop⟩ | ⟨s'', more⟩
    · exact .inl ⟨result, fun rest => by rw [List.append_assoc, next, stop]⟩
    · exact .inr ⟨s'', fun rest => by rw [List.append_assoc, next, more]⟩

theorem settles_bind (result : Except ArgFault σ)
    (step : ∀ rest, parse s (xs ++ rest) = result.bind fun s' => parse s' rest) :
    Settles parse s xs := by
  cases result with
  | error e => exact .inl ⟨.error e, step⟩
  | ok s' => exact .inr ⟨s', step⟩

/-- One argument settles the reading, or it is a flag that does so with its value. -/
def ReadsStepwise (parse : σ → List Text → Except ArgFault Command) : Prop :=
  ∀ s arg, Settles parse s [arg] ∨
    (∃ flag, parse s [arg] = .error (.noValue flag)) ∧ ∀ value, Settles parse s [arg, value]

theorem ReadsStepwise.settles (steps : ReadsStepwise parse) (s : σ) (xs : List Text)
    (closed : ∀ flag, parse s xs ≠ .error (.noValue flag)) : Settles parse s xs := by
  induction size : xs.length using Nat.strongRecOn generalizing s xs with
  | ind n ih =>
    subst size
    have goesOn : ∀ front back, xs = front ++ back → front ≠ [] → Settles parse s front →
        Settles parse s xs := by
      rintro front back rfl some settled
      have shorter : back.length < (front ++ back).length := by
        rw [List.length_append]
        exact Nat.lt_add_of_pos_left (List.length_pos_iff.mpr some)
      refine settled.append fun s' next => ih _ shorter s' back (fun flag => ?_) rfl
      rw [← next]
      exact closed flag
    cases xs with
    | nil => exact .inr ⟨s, fun _ => rfl⟩
    | cons arg xs =>
      rcases steps s arg with one | ⟨⟨flag, waits⟩, two⟩
      · exact goesOn [arg] xs rfl (by simp) one
      · cases xs with
        | nil => exact absurd waits (closed flag)
        | cons value xs => exact goesOn [arg, value] xs rfl (by simp) (two value)

theorem Settles.congr (settled : Settles parse s xs) {ys zs : List Text}
    (alike : ∀ s', parse s' ys = parse s' zs) : parse s (xs ++ ys) = parse s (xs ++ zs) := by
  rcases settled with ⟨result, stop⟩ | ⟨s', next⟩
  · rw [stop, stop]
  · rw [next, next, alike]

end Reading

def joined (flag value : Text) : Text :=
  flag ++ ['='] ++ value

theorem joined_ne (flag value : Text) : joined flag value ≠ flag := by
  simp [joined]

theorem stripLead_joined (flag value : Text) :
    Text.stripLead (flag ++ ['=']) (joined flag value) = some value :=
  Text.stripLead_eq_some_iff.mpr rfl

theorem dropLeads_append {lead : Text} (some : lead ≠ []) (s : Text) :
    dropLeads lead (lead ++ s) = dropLeads lead s := by
  have found : Text.stripLead lead (lead ++ s) = .some s := Text.stripLead_eq_some_iff.mpr rfl
  have shorter : s.length < (lead ++ s).length := by
    rw [List.length_append]
    exact Nat.lt_add_of_pos_left (List.length_pos_iff.mpr some)
  rw [dropLeads]
  split
  · next none =>
    rw [found] at none
    cases none
  · next rest same =>
    obtain rfl := Option.some.inj (found.symm.trans same)
    rw [if_pos shorter]

theorem dropLeads_eq_self {lead s : Text} (other : ¬ lead <+: s) : dropLeads lead s = s := by
  rw [dropLeads]
  split
  · rfl
  · next rest found => exact absurd ⟨rest, (Text.stripLead_eq_some_iff.mp found).symm⟩ other

theorem readIndent_dash (s : Text) : readIndent ('-' :: s) = .error (.badIndent ('-' :: s)) := by
  have none : Numeral.readSize ('-' :: s) = none := by
    simp [Numeral.readSize, Numeral.isDigit]
  rw [readIndent, none]

def parseTokenizeFrom (s : Inputs × Bool) (args : List Text) : Except ArgFault Command :=
  parseTokenize s.1 s.2 args

def parseFormatFrom (s : Inputs × Nat) (args : List Text) : Except ArgFault Command :=
  parseFormat s.1 s.2 args

theorem readsStepwise_tokenize : ReadsStepwise parseTokenizeFrom := by
  rintro ⟨i, json⟩ arg
  by_cases config : arg = configFlag
  · subst config
    refine .inr ⟨⟨configFlag, rfl⟩, fun value => .inr ⟨({ i with config := value }, json), ?_⟩⟩
    exact fun rest => rfl
  · left
    have step : ∀ rest, parseTokenizeFrom (i, json) ([arg] ++ rest) = _ := fun rest =>
      (parseTokenize.eq_def i json (arg :: rest)).trans (if_neg config)
    cases strip : Text.stripLead (configFlag ++ ['=']) arg with
    | some value =>
      simp only [strip] at step
      exact .inr ⟨({ i with config := value }, json), step⟩
    | none =>
      simp only [strip] at step
      by_cases help : isHelpFlag arg = true
      · simp only [if_pos help] at step
        exact .inl ⟨_, step⟩
      · simp only [if_neg help] at step
        by_cases asJson : arg = "--json".toList
        · simp only [if_pos asJson] at step
          exact .inr ⟨(i, true), step⟩
        · simp only [if_neg asJson] at step
          refine settles_bind ((i.takeOther arg).map (·, json)) fun rest => (step rest).trans ?_
          cases i.takeOther arg <;> rfl

theorem parseFormat_indent (i : Inputs) (extra : Nat) (value : Text) (rest : List Text) :
    parseFormat i extra (indentFlag :: value :: rest) =
      (readIndent value).bind fun extra => parseFormat i extra rest := by
  have config : indentFlag ≠ configFlag := by decide
  have strip : Text.stripLead (configFlag ++ ['=']) indentFlag = none := rfl
  have help : ¬ isHelpFlag indentFlag = true := by decide
  rw [parseFormat.eq_def]
  simp only [if_neg config, strip, if_neg help, if_true]
  cases readIndent value <;> rfl

theorem readsStepwise_format : ReadsStepwise parseFormatFrom := by
  rintro ⟨i, extra⟩ arg
  by_cases config : arg = configFlag
  · subst config
    refine .inr ⟨⟨configFlag, rfl⟩, fun value => .inr ⟨({ i with config := value }, extra), ?_⟩⟩
    exact fun rest => rfl
  · by_cases indent : arg = indentFlag
    · subst indent
      refine .inr ⟨⟨indentFlag, rfl⟩, fun value => settles_bind ((readIndent value).map (i, ·))
        fun rest => (parseFormat_indent i extra value rest).trans ?_⟩
      cases readIndent value <;> rfl
    · left
      have step : ∀ rest, parseFormatFrom (i, extra) ([arg] ++ rest) = _ := fun rest =>
        (parseFormat.eq_def i extra (arg :: rest)).trans (if_neg config)
      cases strip : Text.stripLead (configFlag ++ ['=']) arg with
      | some value =>
        simp only [strip] at step
        exact .inr ⟨({ i with config := value }, extra), step⟩
      | none =>
        simp only [strip, if_neg indent] at step
        by_cases help : isHelpFlag arg = true
        · simp only [if_pos help] at step
          exact .inl ⟨_, step⟩
        · simp only [if_neg help] at step
          by_cases both : (Text.stripLead (indentFlag ++ ['=']) arg).isSome = true
          · simp only [if_pos both] at step
            refine settles_bind ((readIndent (dropLeads (indentFlag ++ ['=']) arg)).map (i, ·))
              fun rest => (step rest).trans ?_
            cases readIndent (dropLeads (indentFlag ++ ['=']) arg) <;> rfl
          · simp only [if_neg both] at step
            refine settles_bind ((i.takeOther arg).map (·, extra)) fun rest => (step rest).trans ?_
            cases i.takeOther arg <;> rfl

theorem parseTokenize_joined (s : Inputs × Bool) (value : Text) (rest : List Text) :
    parseTokenizeFrom s (joined configFlag value :: rest) =
      parseTokenizeFrom s (configFlag :: value :: rest) := by
  rw [parseTokenizeFrom, parseTokenize.eq_def]
  simp only [if_neg (joined_ne configFlag value), stripLead_joined]
  rfl

theorem parseFormat_joined (s : Inputs × Nat) (value : Text) (rest : List Text) :
    parseFormatFrom s (joined configFlag value :: rest) =
      parseFormatFrom s (configFlag :: value :: rest) := by
  rw [parseFormatFrom, parseFormat.eq_def]
  simp only [if_neg (joined_ne configFlag value), stripLead_joined]
  rfl

theorem parseFormat_joined_indent (s : Inputs × Nat) (value : Text) (rest : List Text) :
    parseFormatFrom s (joined indentFlag value :: rest) =
      parseFormatFrom s (indentFlag :: dropLeads (indentFlag ++ ['=']) value :: rest) := by
  have config : joined indentFlag value ≠ configFlag := fun same => by
    have third := congrArg (·[2]?) same
    cases third
  have strip : Text.stripLead (configFlag ++ ['=']) (joined indentFlag value) = none := rfl
  have help : ¬ isHelpFlag (joined indentFlag value) = true := nofun
  have both : (Text.stripLead (indentFlag ++ ['=']) (joined indentFlag value)).isSome = true := by
    rw [stripLead_joined]
    rfl
  have dropped : dropLeads (indentFlag ++ ['=']) (joined indentFlag value) =
      dropLeads (indentFlag ++ ['=']) value := dropLeads_append (by simp) value
  rw [parseFormatFrom, parseFormatFrom, parseFormat_indent, parseFormat.eq_def, ← dropped]
  simp only [if_neg config, strip, if_neg help, if_neg (joined_ne indentFlag value), if_pos both]
  cases readIndent (dropLeads (indentFlag ++ ['=']) (joined indentFlag value)) <;> rfl

/-- The last of the arguments is a flag whose value is still to come. -/
def AwaitsValue (args : List Text) : Prop :=
  ∃ flag, parseArgs args = .error (.noValue flag)

/-- A flag of `tokenize` or `fmt` may be spelled in one argument with its value or in front of it,
wherever a flag is read. The configuration is the same in both spellings, for every value. An
indentation in one argument with its flag is what it is in an argument of its own, once the
repetitions of the flag in front of it are dropped: the spellings agree unless the value begins with
the flag, and such a value is refused in an argument of its own if it is read at all. -/
theorem parseArgs_spellings (before after : List Text) (value : Text) :
    (¬ AwaitsValue ("tokenize".toList :: before) →
      parseArgs ("tokenize".toList :: (before ++ joined configFlag value :: after)) =
        parseArgs ("tokenize".toList :: (before ++ configFlag :: value :: after))) ∧
    (¬ AwaitsValue ("fmt".toList :: before) →
      parseArgs ("fmt".toList :: (before ++ joined configFlag value :: after)) =
        parseArgs ("fmt".toList :: (before ++ configFlag :: value :: after)) ∧
      parseArgs ("fmt".toList :: (before ++ joined indentFlag value :: after)) =
        parseArgs ("fmt".toList ::
          (before ++ indentFlag :: dropLeads (indentFlag ++ ['=']) value :: after)) ∧
      (¬ indentFlag ++ ['='] <+: value →
        parseArgs ("fmt".toList :: (before ++ joined indentFlag value :: after)) =
          parseArgs ("fmt".toList :: (before ++ indentFlag :: value :: after))) ∧
      (indentFlag ++ ['='] <+: value →
        parseArgs ("fmt".toList :: (before ++ indentFlag :: value :: after)) =
            .error (.badIndent value) ∨
          ∀ rest, parseArgs ("fmt".toList :: (before ++ rest)) =
            parseArgs ("fmt".toList :: before))) := by
  have tokenize : ∀ args, parseArgs ("tokenize".toList :: args) =
      parseTokenizeFrom (.defaults, false) args := fun _ => rfl
  have format : ∀ args, parseArgs ("fmt".toList :: args) =
      parseFormatFrom (.defaults, 0) args := fun _ => rfl
  simp only [AwaitsValue, tokenize, format, not_exists]
  refine ⟨fun closed => ?_, fun closed => ?_⟩
  · exact (readsStepwise_tokenize.settles _ before closed).congr
      fun s => parseTokenize_joined s value after
  · have settled := readsStepwise_format.settles _ before closed
    have indent := settled.congr fun s => parseFormat_joined_indent s value after
    refine ⟨settled.congr fun s => parseFormat_joined s value after, indent, fun other => ?_,
      fun repeated => ?_⟩
    · rwa [dropLeads_eq_self other] at indent
    · obtain ⟨inner, rfl⟩ := repeated
      rcases settled with ⟨result, stop⟩ | ⟨s, next⟩
      · right
        intro rest
        have alone := stop []
        rw [List.append_nil] at alone
        rw [stop, alone]
      · left
        rw [next, parseFormatFrom, parseFormat_indent]
        have bad : readIndent (indentFlag ++ ['='] ++ inner) = _ := readIndent_dash _
        rw [bad]
        rfl

/-- A value that repeats its flag is kept for the configuration. For the indentation it is read in
one spelling and refused in the other. -/
theorem parseArgs_spellings_sample :
    parseArgs ["tokenize", "--json", "--config=--config=x"] =
      .ok (.tokenize ⟨"--config=x", none⟩ true) ∧
    parseArgs ["fmt", "-", "--extra-indent=--extra-indent=5"] = .ok (.format .defaults 5) ∧
    parseArgs ["fmt", "-", "--extra-indent", "--extra-indent=5"] =
      .error (.badIndent "--extra-indent=5") := by
  have json : ¬ AwaitsValue ["tokenize".toList, "--json".toList] := by
    rintro ⟨flag, waits⟩
    cases waits
  have dash : ¬ AwaitsValue ["fmt".toList, ['-']] := by
    rintro ⟨flag, waits⟩
    cases waits
  obtain ⟨config, -⟩ := parseArgs_spellings ["--json".toList] [] "--config=x"
  obtain ⟨-, spellings⟩ := parseArgs_spellings [['-']] [] "--extra-indent=5"
  obtain ⟨-, indent, -, refused⟩ := spellings dash
  have number : dropLeads (indentFlag ++ ['=']) "--extra-indent=5" = ['5'] :=
    (dropLeads_append (by simp) ['5']).trans (dropLeads_eq_self (by decide))
  rw [number] at indent
  refine ⟨config json, indent, ?_⟩
  rcases refused ⟨['5'], rfl⟩ with bad | ended
  · exact bad
  · cases ended ["--help".toList]

end SqlCompose.Cli
