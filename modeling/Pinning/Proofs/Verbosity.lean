import Mathlib.Data.List.Basic
import Mathlib.Tactic.SplitIfs
import Pinning.CommandLine.Program
import Pinning.Proofs.Story

/-!
# Results and diagnostics of the program

An argument before the `--` is taken in by itself, given the option that awaits its value
(`Options.take`), and a line is taken in argument by argument (`read_append`). How verbose the options
are is looked at nowhere on the way (`read_louder`). So a line that is well formed stays so with more
verbosity in it (`Louder`), wherever an option may stand, and its options are the same but for that
(`ofArgs?_louder`).

The verbosity decides which lines of the log are printed and whether warnings are logged. That shows
in the log of a run and not in its result (`runSource_logging`).
-/

namespace Pinning.CommandLine

namespace Options

/-- The options, more verbose. -/
def louder (n : ℕ) (o : Options) : Options := { o with verbosity := o.verbosity + n }

/-- Takes in one argument before the `--`. -/
def take (o : Options) (awaited : Option Valued) (arg : String) :
    Option (Options × Option Valued) :=
  match awaited, arg.toList with
  | some _, '-' :: _ :: _ => none
  | some option, _ => (o.setValue option arg).map (·, none)
  | none, '-' :: '-' :: word => o.readWord word
  | none, '-' :: c :: cs => o.readLetters (c :: cs)
  | none, _ => (o.setInput arg).map (·, none)

/-- Takes in arguments before the `--`. -/
def takeAll : Options → Option Valued → List String → Option (Options × Option Valued)
  | o, awaited, [] => some (o, awaited)
  | o, awaited, arg :: args => (o.take awaited arg).bind fun (o, awaited) => o.takeAll awaited args

/-- The argument is an option whose value comes next. -/
def AwaitsValue (arg : String) : Prop :=
  arg ∈ ["--config", "--format"]
    ∨ arg.toList.head? = some '-' ∧ arg.toList.tail.dropWhile (· = 'v') ∈ [['c'], ['f']]

instance : DecidablePred AwaitsValue := fun _ => inferInstanceAs (Decidable (_ ∨ _))

variable {o o' : Options} {awaited awaited' : Option Valued}

/-- A line goes on with no value to wait for. -/
theorem bind_settled (x : Option Options) (args : List String) :
    (x.map (·, none)).bind (fun next => next.1.read next.2 args) = x.bind fun o => o.read none args :=
  Option.bind_map ..

theorem read_cons {arg : String} (h : arg ≠ "--") (args : List String) :
    o.read awaited (arg :: args)
      = (o.take awaited arg).bind fun (o, awaited) => o.read awaited args := by
  have hlist : arg.toList ≠ ['-', '-'] := fun harg => h (String.toList_inj.1 harg)
  rw [read.eq_def, take.eq_def]
  dsimp only
  -- Both sides tell the same kinds of arguments apart, with patterns that overlap.
  split <;> split <;> simp_all [bind_settled]
  rename_i hc heq _
  exact absurd heq.1.symm hc

variable (n : ℕ) (o)

theorem addVerbose_louder : (o.louder n).addVerbose = o.addVerbose.louder n :=
  congrArg (Options.mk _ _ _ _) (Nat.add_right_comm ..)

theorem setInput_louder (name : String) :
    (o.louder n).setInput name = (o.setInput name).map (louder n) := by
  unfold setInput
  rw [apply_ite (Option.map (louder n))]
  rfl

theorem setRtl_louder : (o.louder n).setRtl = o.setRtl.map (louder n) := by
  unfold setRtl
  rw [apply_ite (Option.map (louder n))]
  rfl

theorem setValue_louder (option : Valued) (v : String) :
    (o.louder n).setValue option v = (o.setValue option v).map (louder n) := by
  have hformat : (o.louder n).format = o.format := rfl
  rcases option with _ | _
  · simp only [setValue, apply_ite (Option.map (louder n))]
    rfl
  · simp only [setValue, hformat]
    split <;> rfl

/-- With no value to wait for. -/
theorem map_settled (x : Option Options) :
    (x.map (louder n)).map (fun o => (o, (none : Option Valued)))
      = (x.map fun o => (o, none)).map (Prod.map (louder n) id) := by
  rw [Option.map_map, Option.map_map]
  rfl

theorem withValue_louder (option : Valued) (cs : List Char) :
    readLetters.withValue (o.louder n) option cs
      = (readLetters.withValue o option cs).map (Prod.map (louder n) id) := by
  unfold readLetters.withValue
  split
  · rfl
  · rw [setValue_louder, map_settled]
  · rw [setValue_louder, map_settled]

theorem readLetters_louder (cs : List Char) :
    (o.louder n).readLetters cs = (o.readLetters cs).map (Prod.map (louder n) id) := by
  fun_induction readLetters o cs with
  | case1 o => rfl
  | case2 o cs ih => rw [readLetters, addVerbose_louder, ih]
  | case3 o cs => exact o.withValue_louder n .config cs
  | case4 o cs => exact o.withValue_louder n .format cs
  | case5 => simp [readLetters, *]

theorem readWord_louder (word : List Char) :
    (o.louder n).readWord word = (o.readWord word).map (Prod.map (louder n) id) := by
  unfold readWord
  dsimp only
  split
  · rw [setRtl_louder, map_settled]
  · rw [addVerbose_louder, Option.map_some]
    rfl
  · rfl
  · rw [setValue_louder, map_settled]
  · rfl
  · rw [setValue_louder, map_settled]
  · rfl

theorem take_louder (arg : String) : (o.louder n).take awaited arg
    = (o.take awaited arg).map (Prod.map (louder n) id) := by
  unfold take
  split
  · rfl
  · rw [setValue_louder, map_settled]
  · exact o.readWord_louder n _
  · exact o.readLetters_louder n _
  · rw [setInput_louder, map_settled]

theorem read_terminator (args : List String) :
    o.read awaited ("--" :: args) = if awaited = none then args.foldlM setInput o else none := by
  rcases awaited with _ | option
  · rfl
  · rfl

theorem foldlM_setInput_louder : ∀ (args : List String) (o : Options),
    args.foldlM setInput (o.louder n) = (args.foldlM setInput o).map (louder n)
  | [], _ => rfl
  | arg :: args, o => by
    rw [List.foldlM_cons, List.foldlM_cons, setInput_louder]
    rcases o.setInput arg with _ | o'
    · rfl
    · exact foldlM_setInput_louder args o'

/-- Nothing on the way through a line looks at the verbosity. -/
theorem read_louder : ∀ (args : List String) (o : Options) (awaited : Option Valued),
    (o.louder n).read awaited args = (o.read awaited args).map (louder n)
  | [], o, awaited => by
    rw [read, read, apply_ite (Option.map (louder n))]
    rfl
  | arg :: args, o, awaited => by
    by_cases harg : arg = "--"
    · rw [harg, read_terminator, read_terminator, apply_ite (Option.map (louder n)),
        foldlM_setInput_louder]
      rfl
    · rw [read_cons harg, read_cons harg, take_louder]
      rcases o.take awaited arg with _ | ⟨o', awaited'⟩
      · rfl
      · exact read_louder args o' awaited'

variable {n o}

/-- A line goes on from where its first arguments have led. -/
theorem read_append (post : List String) : ∀ {pre : List String} {o : Options}
    {awaited : Option Valued}, "--" ∉ pre → o.read awaited (pre ++ post)
      = (o.takeAll awaited pre).bind fun (o, awaited) => o.read awaited post
  | [], _, _, _ => rfl
  | arg :: pre, o, awaited, h => by
    have harg : arg ≠ "--" := fun harg => h (harg ▸ List.mem_cons_self)
    have hpre : "--" ∉ pre := fun hpre => h (List.mem_cons_of_mem arg hpre)
    rw [List.cons_append, read_cons harg, takeAll]
    rcases o.take awaited arg with _ | ⟨o', awaited'⟩
    · rfl
    · exact read_append post hpre

theorem readLetters_awaits {cs : List Char} {option : Valued}
    (h : o.readLetters cs = some (o', some option)) :
    cs.dropWhile (· = 'v') ∈ [['c'], ['f']] := by
  have hvalue : ∀ {o : Options} {option' : Valued} {cs : List Char},
      readLetters.withValue o option' cs = some (o', some option) → cs = [] := by
    intro o option' cs h
    unfold readLetters.withValue at h
    split at h
    · rfl
    · simp at h
    · simp at h
  fun_induction readLetters o cs with
  | case1 o => cases h
  | case2 o cs ih => simpa using ih h
  | case3 o cs => simp [hvalue h]
  | case4 o cs => simp [hvalue h]
  | case5 => cases h

theorem readWord_awaits {word : List Char} {option : Valued}
    (h : o.readWord word = some (o', some option)) :
    word = "config".toList ∨ word = "format".toList := by
  have hword : ∀ {name : String}, String.ofList (word.takeWhile (· ≠ '=')) = name →
      word.drop (String.ofList (word.takeWhile (· ≠ '='))).length = [] → word = name.toList := by
    intro name hname hdrop
    rw [List.drop_eq_nil_iff, String.length_ofList] at hdrop
    have hprefix := (List.takeWhile_prefix (· ≠ '=')).eq_of_length_le hdrop
    rw [← hname, String.toList_ofList, hprefix]
  unfold readWord at h
  dsimp only at h
  split at h
  · simp at h
  · simp at h
  · exact .inl (hword ‹_› ‹_›)
  · simp at h
  · exact .inr (hword ‹_› ‹_›)
  · simp at h
  · simp at h

theorem take_awaits {arg : String} {option : Valued}
    (h : o.take awaited arg = some (o', some option)) : AwaitsValue arg := by
  unfold take at h
  split at h
  · cases h
  · simp at h
  · rename_i word harg
    have hword : arg = "--config" ∨ arg = "--format" := by
      refine (readWord_awaits h).imp (fun hword => ?_) fun hword => ?_
      · exact String.toList_inj.1 (harg.trans (by rw [hword]; rfl))
      · exact String.toList_inj.1 (harg.trans (by rw [hword]; rfl))
    exact .inl (by simpa using hword)
  · rename_i harg
    exact .inr ⟨by rw [harg]; rfl, by rw [harg]; exact readLetters_awaits h⟩
  · simp at h

theorem takeAll_awaits {option : Valued} : ∀ {pre : List String} {o : Options}
    {awaited : Option Valued}, o.takeAll awaited pre = some (o', some option) →
      (pre = [] ∧ awaited = some option) ∨ ∃ arg ∈ pre.getLast?, AwaitsValue arg
  | [], o, awaited, h => by
    rw [takeAll, Option.some.injEq, Prod.mk.injEq] at h
    exact .inl ⟨rfl, h.2⟩
  | arg :: pre, o, awaited, h => by
    rw [takeAll, Option.bind_eq_some_iff] at h
    obtain ⟨⟨o₁, awaited₁⟩, harg, hpre⟩ := h
    rcases takeAll_awaits hpre with ⟨rfl, rfl⟩ | ⟨arg', hlast, hawaits⟩
    · exact .inr ⟨arg, rfl, take_awaits harg⟩
    · refine .inr ⟨arg', ?_, hawaits⟩
      rcases pre with _ | ⟨_, _⟩
      · cases hlast
      · exact hlast

/-- A line with more verbosity in it: as an option of its own, before the `--` and where no value is
awaited, or as one letter more in an option of letters. -/
inductive Louder (args : List String) : List String → Prop
  | refl : Louder args args
  | option {pre post : List String} {arg : String} (h : Louder args (pre ++ post))
    (harg : arg ∈ ["-v", "--verbose"]) (hpre : "--" ∉ pre)
    (hlast : ∀ last ∈ pre.getLast?, ¬AwaitsValue last) : Louder args (pre ++ arg :: post)
  | letter {pre post : List String} {c : Char} {cs : List Char}
    (h : Louder args (pre ++ String.ofList ('-' :: c :: cs) :: post)) (hc : c ≠ '-')
    (hpre : "--" ∉ pre) : Louder args (pre ++ String.ofList ('-' :: 'v' :: c :: cs) :: post)

theorem take_verbose {arg : String} (h : arg ∈ ["-v", "--verbose"]) :
    o.take none arg = some (o.louder 1, none) := by
  simp only [List.mem_cons, List.not_mem_nil, or_false] at h
  rcases h with rfl | rfl
  · rfl
  · rfl

theorem ne_terminator {c : Char} {cs : List Char} (hc : c ≠ '-') :
    String.ofList ('-' :: c :: cs) ≠ "--" := by
  intro heq
  have hlist := congrArg String.toList heq
  rw [String.toList_ofList] at hlist
  cases hlist
  exact hc rfl

theorem take_letters {c : Char} {cs : List Char} (hc : c ≠ '-') :
    o.take none (String.ofList ('-' :: c :: cs)) = o.readLetters (c :: cs) := by
  simp only [take, String.toList_ofList]

theorem take_letter {c : Char} {cs : List Char} (hc : c ≠ '-') :
    o.take awaited (String.ofList ('-' :: 'v' :: c :: cs))
      = (o.take awaited (String.ofList ('-' :: c :: cs))).map (Prod.map (louder 1) id) := by
  rcases awaited with _ | option
  · rw [take_letters hc, take_letters (by decide), readLetters]
    exact o.readLetters_louder 1 (c :: cs)
  · simp only [take, String.toList_ofList]
    rfl

/-- More verbosity in a line that is well formed makes its options more verbose. -/
theorem ofArgs?_louder {args args' : List String} (h : Louder args args')
    (ho : ofArgs? args = some o) : ∃ n, ofArgs? args' = some (o.louder n) := by
  induction h with
  | refl => exact ⟨0, ho⟩
  | @option pre post arg h harg hpre hlast ih =>
    obtain ⟨n, hn⟩ := ih
    rw [ofArgs?, read_append post hpre, Option.bind_eq_some_iff] at hn
    obtain ⟨⟨o₁, awaited⟩, htake, hpost⟩ := hn
    obtain rfl : awaited = none := by
      rcases awaited with _ | option
      · rfl
      · rcases takeAll_awaits htake with ⟨-, hnone⟩ | ⟨last, hmem, hawaits⟩
        · cases hnone
        · exact absurd hawaits (hlast last hmem)
    have hdash : arg ≠ "--" := by
      rintro rfl
      simp at harg
    have hread : o₁.read none (arg :: post) = some ((o.louder n).louder 1) := by
      rw [read_cons hdash, take_verbose harg]
      exact (read_louder 1 post o₁ none).trans (congrArg (Option.map (louder 1)) hpost)
    exact ⟨n + 1, by rw [ofArgs?, read_append _ hpre, htake]; exact hread⟩
  | @letter pre post c cs h hc hpre ih =>
    obtain ⟨n, hn⟩ := ih
    rw [ofArgs?, read_append _ hpre, Option.bind_eq_some_iff] at hn
    obtain ⟨⟨o₁, awaited⟩, htake, hrest⟩ := hn
    have hread : o₁.read awaited (String.ofList ('-' :: 'v' :: c :: cs) :: post)
        = some ((o.louder n).louder 1) := by
      dsimp only at hrest
      rw [read_cons (ne_terminator hc), Option.bind_eq_some_iff] at hrest
      rw [read_cons (ne_terminator (by decide)), take_letter hc]
      obtain ⟨⟨o₂, awaited₂⟩, harg, hpost⟩ := hrest
      rw [harg]
      exact (read_louder 1 post o₂ awaited₂).trans (congrArg (Option.map (louder 1)) hpost)
    exact ⟨n + 1, by rw [ofArgs?, read_append _ hpre, htake]; exact hread⟩

end Options

/-- Whether warnings are logged makes no difference to what comes of a source. -/
theorem runSource_logging {α : Type} [Scalar α] (source : String) (config : Config α)
    (process : Direction) (b : Bool) :
    (runSource source { config with logsWarnings := b } process).result
      = (runSource source config process).result := by
  have hquiet : ∀ config : Config α,
      (runSource source { config with logsWarnings := false } process).result
        = (runSource source config process).result := by
    intro config
    unfold runSource
    rcases (Script.parse source : Except (SyntaxError α) (Script α)) with e | script
    · rfl
    · simp only [script.run_quiet config process]
  exact (hquiet { config with logsWarnings := b }).symm.trans (hquiet config)

namespace Options

/-- The settings that a line names, or the standard ones, as far as they can be read. -/
def settings? (o : Options) (file? : String → Option String) : Option (Config Float) :=
  match o.config with
  | none => some .standard
  | some name => (file? name).bind fun text => (Config.read text).toOption

theorem settings_eq_ok_iff {o : Options} {file? : String → Option String} {config : Config Float} :
    settings o file? = .ok config ↔ o.settings? file? = some config := by
  unfold settings settings?
  rcases o.config with _ | name
  · simp
  · dsimp only
    rcases file? name with _ | text
    · simp
    · dsimp only [Option.bind_some]
      cases Config.read text <;> simp [Except.mapError, Except.toOption]

/-- The text that is run, if there is one. -/
def source? (o : Options) (stdin : Option String) (file? : String → Option String) :
    Option String :=
  match o.input with
  | none => stdin
  | some name => file? name

/-- The configuration of a run but for the log: with `--rtl` from right to left, whatever the
settings say. -/
def oriented (o : Options) (settings : Config Float) : Config Float :=
  { settings with direction := if o.rtl then some .rtl else settings.direction }

/-- A report as TOML if that is the format asked for, and else as text. -/
def report (o : Options) (r : Report Float) : String :=
  if o.format = some .toml then r.toToml else r.toText

theorem render_eq_report (o : Options) (r : Report Float) :
    render (o.format.getD .text) r = o.report r := by
  unfold report
  rcases o.format with _ | - | - <;> rfl

/-- What is printed, and the exit code: the report of the source, or nothing. -/
def shown (o : Options) (stdin : Option String) (file? : String → Option String) :
    UInt8 × String :=
  match settings o file?, o.source? stdin file? with
  | .ok config, some source =>
    match (runSource source (o.oriented config) .ltr).result with
    | .ok r => (0, o.report r)
    | .error _ => (1, "")
  | _, _ => (1, "")

end Options

def Effects.shown (e : Effects) : UInt8 × String := (e.exitCode, e.stdout)

theorem shown_resolve (o : Options) (config : Config Float) (source filename : String) :
    (resolve o (o.configure config) source filename).shown
      = match (runSource source (o.oriented config) .ltr).result with
        | .ok r => (0, o.report r)
        | .error _ => (1, "") := by
  have hresult : (runSource source (o.configure config) .ltr).result
      = (runSource source (o.oriented config) .ltr).result :=
    runSource_logging source (o.oriented config) .ltr _
  simp only [resolve, hresult]
  rcases (runSource source (o.oriented config) .ltr).result with e | r
  · rfl
  · exact congrArg (Prod.mk _) (o.render_eq_report r)

/-- What the program shows depends on its options but for how verbose they are. -/
theorem shown_run {args : List String} {o : Options} (ho : Options.ofArgs? args = some o)
    (stdin : Option String) (file? : String → Option String) :
    (run args stdin file?).shown = o.shown stdin file? := by
  unfold run Options.shown Options.source?
  rw [ho]
  dsimp only
  rcases settings o file? with complaint | config
  · rfl
  · rcases o.input with _ | name
    · rcases stdin with _ | source
      · rfl
      · exact shown_resolve o config source "<stdin>"
    · dsimp only
      rcases file? name with _ | source
      · rfl
      · exact shown_resolve o config source name

namespace Options

variable {o : Options} {stdin : Option String} {file? : String → Option String}

theorem shown_of_ok {config : Config Float} {source : String} {report : Report Float}
    (hconfig : settings o file? = .ok config) (hsource : o.source? stdin file? = some source)
    (hreport : (runSource source (o.oriented config) .ltr).result = .ok report) :
    o.shown stdin file? = (0, o.report report) := by
  unfold shown
  rw [hconfig, hsource]
  dsimp only
  rw [hreport]

/-- Without a report there is nothing to show. -/
theorem exists_of_shown : (∃ config source report, settings o file? = .ok config
      ∧ o.source? stdin file? = some source
      ∧ (runSource source (o.oriented config) .ltr).result = .ok report)
    ∨ o.shown stdin file? = (1, "") := by
  unfold shown
  rcases hconfig : settings o file? with complaint | config
  · exact .inr rfl
  · rcases hsource : o.source? stdin file? with _ | source
    · exact .inr rfl
    · dsimp only
      rcases hreport : (runSource source (o.oriented config) .ltr).result with e | report
      · exact .inr rfl
      · exact .inl ⟨config, source, report, rfl, rfl, hreport⟩

end Options

/-- The program prints results and nothing else. More verbosity in a line that is well formed changes
neither the exit code nor what is printed. Nothing is printed with another exit code than 0. With
that goes the report of the input, as TOML if that is asked for and else as text: under the settings
that are asked for or the standard ones, but from right to left if that is asked for, and whether the
settings log warnings or not. An input that cannot be read has no report. -/
theorem stdout_holds_results {args : List String} {o : Options}
    (ho : Options.ofArgs? args = some o) (stdin : Option String)
    (file? : String → Option String) :
    let e := run args stdin file?
    (∀ args', Options.Louder args args' →
      (∃ n, Options.ofArgs? args' = some { o with verbosity := o.verbosity + n })
        ∧ (run args' stdin file?).exitCode = e.exitCode
        ∧ (run args' stdin file?).stdout = e.stdout)
    ∧ (e.exitCode ≠ 0 → e.stdout = "")
    ∧ (e.exitCode = 0 ↔ ∃ config source report, o.settings? file? = some config
      ∧ o.source? stdin file? = some source
      ∧ (∀ logs, (runSource source
        ⟨config.tolerance, if o.rtl then some .rtl else config.direction, logs⟩ .ltr).result
          = .ok report)
      ∧ e.stdout = if o.format = some .toml then report.toToml else report.toText) := by
  intro e
  have he : e.shown = o.shown stdin file? := shown_run ho stdin file?
  have hcode : e.exitCode = (o.shown stdin file?).1 := congrArg Prod.fst he
  have hout : e.stdout = (o.shown stdin file?).2 := congrArg Prod.snd he
  refine ⟨fun args' h => ?_, ?_, ?_⟩
  · obtain ⟨n, hn⟩ := Options.ofArgs?_louder h ho
    have he' : (run args' stdin file?).shown = e.shown := (shown_run hn stdin file?).trans he.symm
    exact ⟨⟨n, hn⟩, congrArg Prod.fst he', congrArg Prod.snd he'⟩
  · rw [hcode, hout]
    rcases Options.exists_of_shown (o := o) with ⟨_, _, _, hconfig, hsource, hreport⟩ | hnone
    · rw [Options.shown_of_ok hconfig hsource hreport]
      exact fun h => absurd rfl h
    · rw [hnone]
      exact fun _ => rfl
  · constructor
    · intro hzero
      rcases Options.exists_of_shown (o := o) with
        ⟨config, source, report, hconfig, hsource, hreport⟩ | hnone
      · have hsettings := Options.settings_eq_ok_iff.1 hconfig
        refine ⟨config, source, report, hsettings, hsource, fun logs => ?_, ?_⟩
        · exact (runSource_logging source (o.oriented config) .ltr logs).trans hreport
        · rw [hout, Options.shown_of_ok hconfig hsource hreport, Options.report]
      · rw [hcode, hnone] at hzero
        exact absurd hzero (by decide)
    · rintro ⟨config, source, report, hsettings, hsource, hreport, -⟩
      have hconfig := Options.settings_eq_ok_iff.2 hsettings
      rw [hcode, Options.shown_of_ok hconfig hsource (hreport config.logsWarnings)]

/-- A line with three options, and the same line with verbosity before, among and in them. Nothing is
printed for a script that is cut short, nor for an input that cannot be read. -/
theorem card_is_printed_alike :
    let file? (name : String) : Option String :=
      if name = "layout.toml" then some "[layout]" else none
    let args := ["-c", "layout.toml", "--rtl", "-f", "toml"]
    let louder := ["-v", "-c", "layout.toml", "--rtl", "--verbose", "-vf", "toml"]
    let e := run args (some "view card") file?
    let failed := run args (some "view") file?
    let unread := run args none file?
    Options.ofArgs? args
        = some { config := some "layout.toml", rtl := true, format := some .toml }
      ∧ Options.Louder args louder
      ∧ e.exitCode = 0 ∧ (∃ report : Report Float, e.stdout = report.toToml)
      ∧ (run louder (some "view card") file?).exitCode = 0
      ∧ (run louder (some "view card") file?).stdout = e.stdout
      ∧ failed.exitCode ≠ 0 ∧ failed.stdout = ""
      ∧ unread.exitCode ≠ 0 ∧ unread.stdout = "" := by
  intro file? args louder e failed unread
  have ho : Options.ofArgs? args
      = some { config := some "layout.toml", rtl := true, format := some .toml } := by
    decide +kernel
  have hletter : Options.Louder args ["-c", "layout.toml", "--rtl", "-vf", "toml"] :=
    @Options.Louder.letter args ["-c", "layout.toml", "--rtl"] ["toml"] 'f' [] .refl (by decide)
      (by decide)
  have hword : Options.Louder args ["-c", "layout.toml", "--rtl", "--verbose", "-vf", "toml"] :=
    @Options.Louder.option args ["-c", "layout.toml", "--rtl"] ["-vf", "toml"] "--verbose" hletter
      (by decide) (by decide) (by decide +kernel)
  have hlouder : Options.Louder args louder :=
    @Options.Louder.option args [] _ "-v" hword (by decide) (by decide) (by decide)
  obtain ⟨hmore, -, hreports⟩ := stdout_holds_results ho (some "view card") file?
  obtain ⟨-, hfails, -⟩ := stdout_holds_results ho (some "view") file?
  obtain ⟨-, hunread, -⟩ := stdout_holds_results ho none file?
  have he : e.exitCode = 0 := by decide +kernel
  have hfailed : failed.exitCode ≠ 0 := by decide +kernel
  have hnone : unread.exitCode ≠ 0 := by decide +kernel
  obtain ⟨-, -, report, -, -, -, hreport⟩ := hreports.1 he
  obtain ⟨-, hcode, hout⟩ := hmore louder hlouder
  exact ⟨ho, hlouder, he, ⟨report, hreport.trans (if_pos rfl)⟩, hcode.trans he, hout, hfailed,
    hfails hfailed, hnone, hunread hnone⟩

end Pinning.CommandLine
