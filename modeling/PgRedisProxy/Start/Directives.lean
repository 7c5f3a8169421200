import Mathlib.Data.Fintype.Pi
import PgRedisProxy.Start.Loading

/-!
# What a line of the configuration says

A `Parameter` is what one line sets, and `Parameter.given` what a line says about it when it
is read alone. `Settings.afterAll` lets the last line that says something win.
`lines_speak_alone_iff`, the main result, compares this with `init_configuration`, whose
directives take whatever `parameter_value` holds.
-/

namespace PgRedisProxy

open CLang Machine

/-- The parameters that a line sets to one value. -/
inductive Parameter where
  | port
  | tcpBacklog
  | databases
  | daemonize
  | bind
  | logfile
  | cacheRegime
  deriving DecidableEq, Repr

instance : Fintype Parameter where
  elems := {.port, .tcpBacklog, .databases, .daemonize, .bind, .logfile, .cacheRegime}
  complete := fun p => by cases p <;> decide

/-- The value of a parameter. -/
inductive Setting where
  | number (n : Int)
  | switch (on : Bool)
  | text (value : Option CString)
  | regime (cachingRegime : DumpStatus)
  deriving DecidableEq

/-- The value of every parameter. -/
abbrev Settings := Parameter → Setting

/-- The parameters of a configuration. -/
def Settings.of (config : ProxyConfiguration) : Settings
  | .port => .number config.port
  | .tcpBacklog => .number config.backlogSize
  | .databases => .number config.dbCount
  | .daemonize => .switch config.daemonize
  | .bind => .text config.rawBind
  | .logfile => .text config.logfile
  | .cacheRegime => .regime config.cachingRegime

/-! ## A line that is read alone -/

/-- `yes` and `no` -/
def yesNo (value : List UInt8) : Option Bool :=
  if value = ascii "yes" then some true
  else if value = ascii "no" then some false
  else none

/-- The regime of this name. -/
def regimeNamed (value : List UInt8) : Option DumpStatus :=
  if value = ascii "no-cache" then some .noCache
  else if value = ascii "get-cache" then some .getCache
  else if value = ascii "only-cache" then some .onlyCache
  else if value = ascii "deffer-dump" then some .defferDump
  else none

namespace Parameter

/-- The name of a parameter in the file. -/
def name : Parameter → List UInt8
  | port => ascii "port"
  | tcpBacklog => ascii "tcp-backlog"
  | databases => ascii "databases"
  | daemonize => ascii "daemonize"
  | bind => ascii "bind"
  | logfile => ascii "logfile"
  | cacheRegime => ascii "cache-regime"

/-- What a text says about a parameter, if it is well formed. -/
def read : Parameter → CString → Option Setting
  | port, value => (parseIntFromValueCorrectly value.bytes).map .number
  | tcpBacklog, value => (parseIntFromValueCorrectly value.bytes).map .number
  | databases, value => (parseIntFromValueCorrectly value.bytes).map .number
  | daemonize, value => (yesNo value.bytes).map .switch
  | bind, value => some (.text (some value))
  | logfile, value => some (.text (some value))
  | cacheRegime, value => (regimeNamed value.bytes).map .regime

end Parameter

/-- The name in a line, and the value if there is one. Comments and lines of blanks have none. -/
def lineDirective (line : CString) : Option (CString × Option CString) :=
  if line.strlen = 0 ∨ line.bytes.head? = some 35 then none
  else (scanField line.bytes).map fun field => (.ofBytes field.1, field.2.map .ofBytes)

/-- What a line says about a parameter: a well-formed value behind its name. -/
def Parameter.given (p : Parameter) (line : CString) : Option Setting :=
  match lineDirective line with
  | some (name, some value) => if name.bytes = p.name then p.read value else none
  | some (_, none) => none
  | none => none

/-- The parameters after some lines: what the last line that gives a value says. -/
def Settings.afterAll (settings : Settings) (lines : List CString) : Settings :=
  fun p => (lines.filterMap p.given).getLastD (settings p)

/-! ## What `init_configuration` makes of it -/

/-- What is stored of a value. A number is put into an `unsigned int`, and `no` stores nothing. -/
def Setting.stored : Setting → Option Setting
  | number n => some (.number (toUnsigned n))
  | switch on => if on then some (.switch true) else none
  | text value => some (.text value)
  | regime cachingRegime => some (.regime cachingRegime)

/-- What the directive of a parameter stores of a text. -/
def Parameter.take (p : Parameter) (value : CString) : Option Setting :=
  (p.read value).bind Setting.stored

namespace Loader

/-- The line that the next turn reads, if it reads one. -/
def lineRead (s : Loader) : List CString :=
  match s.control, scanLine s.input with
  | .lines, .line text _ => [.ofBytes text]
  | _, _ => []

/-- The next turn changes what the line it reads says, and nothing else. -/
def TurnAlone (s : Loader) : Prop :=
  Settings.of s.step.config = (Settings.of s.config).afterAll s.lineRead

end Loader

/-- Every line speaks for itself, and the last one that gives a value wins. -/
structure LinesSpeakAlone (file : List UInt8) (scratch : Scratch) : Prop where
  turn : ∀ n, (Loader.step^[n] (initConfiguration file scratch)).TurnAlone
  last : ∀ n, (Loader.step^[n] (initConfiguration file scratch)).Ended →
    Settings.of (Loader.step^[n] (initConfiguration file scratch)).config =
      (Settings.of .default).afterAll (linesOf file)

/-- A value that is stored as it is: a number that is one of an `unsigned int`, and `no` only if
nothing before said `yes`. -/
def Setting.Storable (current : Setting) : Setting → Prop
  | number n => 0 ≤ n ∧ n < 2 ^ 32
  | switch on => on = false → current = .switch false
  | text _ => True
  | regime _ => True

instance (current setting : Setting) : Decidable (current.Storable setting) := by
  cases setting <;> unfold Setting.Storable <;> infer_instance

/-- A line with the name of a parameter does what it says. Without a value it says nothing, so what
`parameter_value` holds has to be malformed, or what the parameter has. -/
def Settings.Harmless (settings : Settings) (left : CString) (p : Parameter) :
    Option CString → Prop
  | some value => ∀ setting ∈ p.read value, (settings p).Storable setting
  | none => ∀ setting ∈ p.take left, setting = settings p

instance (settings : Settings) (left : CString) (p : Parameter) (text : Option CString) :
    Decidable (settings.Harmless left p text) :=
  match text with
  | some value => inferInstanceAs (Decidable (∀ setting ∈ p.read value, _))
  | none => inferInstanceAs (Decidable (∀ setting ∈ p.take left, _))

/-- Each line does what it says, where `parameter_value` holds `left` and the lines before have
given these parameters. A line of blanks only ends the loop, so those behind it must say nothing
new. -/
def SpeakAlone (left : CString) (settings : Settings) : List CString → Prop
  | [] => True
  | line :: lines =>
      if line.strlen = 0 ∨ line.bytes.head? = some 35 then SpeakAlone left settings lines
      else
        match scanField line.bytes with
        | none => settings.afterAll lines = settings
        | some (name, text) =>
            let value := (text.map .ofBytes).getD left
            let next := if (CString.ofBytes name).bytes = ascii "save" then
              CString.ofBytes (strtokHead 32 value.bytes) else value
            (∀ p : Parameter, (CString.ofBytes name).bytes = p.name →
              settings.Harmless left p (text.map .ofBytes)) ∧
            SpeakAlone next (settings.afterAll [line]) lines

instance decidableSpeakAlone (left : CString) (settings : Settings) :
    (lines : List CString) → Decidable (SpeakAlone left settings lines)
  | [] => .isTrue trivial
  | line :: lines => by
      have hlines := fun left settings => decidableSpeakAlone left settings lines
      unfold SpeakAlone
      cases scanField line.bytes <;> infer_instance

/-! ## Lines -/

section Lines

variable {settings : Settings} {line : CString} {lines : List CString} {p : Parameter}

@[simp] theorem Settings.afterAll_nil : settings.afterAll [] = settings := rfl

theorem Settings.afterAll_one : settings.afterAll [line] p = (p.given line).getD (settings p) := by
  unfold afterAll
  cases h : p.given line with
  | none => simp [h]
  | some setting => simp [h]

/-- What a line says is what the lines behind it start from. -/
theorem Settings.afterAll_cons :
    settings.afterAll (line :: lines) = (settings.afterAll [line]).afterAll lines := by
  funext p
  rw [afterAll, afterAll, afterAll_one]
  cases h : p.given line with
  | none => rw [List.filterMap_cons_none h, Option.getD_none]
  | some setting => rw [List.filterMap_cons_some h, List.getLastD_cons, Option.getD_some]

theorem Settings.afterAll_append {before behind : List CString} :
    settings.afterAll (before ++ behind) = (settings.afterAll before).afterAll behind := by
  induction before generalizing settings with
  | nil => rfl
  | cons line before ih =>
      rw [List.cons_append, afterAll_cons, ih, ← afterAll_cons]

end Lines

/-! ## A directive -/

section Directive

variable {s : Loader}

theorem Parameter.name_injective : Function.Injective Parameter.name := by
  intro p q h
  cases p <;> cases q <;> first | rfl | exact absurd h (by decide)

/-- A number that does not go into `unsigned int` is stored as another one. -/
theorem toUnsigned_eq_iff {n : Int} : (toUnsigned n : Int) = n ↔ 0 ≤ n ∧ n < 2 ^ 32 := by
  unfold toUnsigned
  omega

/-- A directive with a number stores what `unsigned int` keeps of it. -/
theorem number_settings {p : Parameter} {store : Nat → ProxyConfiguration}
    (hread : p.read s.parameterValue =
      (parseIntFromValueCorrectly s.parameterValue.bytes).map .number)
    (hstore : ∀ n, Settings.of (store n) = Function.update (Settings.of s.config) p (.number n)) :
    Settings.of (s.number store).config =
      Function.update (Settings.of s.config) p
        ((p.take s.parameterValue).getD (Settings.of s.config p)) := by
  unfold Loader.number Parameter.take
  rw [hread]
  cases h : parseIntFromValueCorrectly s.parameterValue.bytes with
  | none => simp
  | some n => exact hstore _

/-- `daemonize` stores only a `yes`. -/
theorem daemonize_take (value : CString) : Parameter.daemonize.take value =
    if value.bytes = ascii "yes" then some (.switch true) else none := by
  simp only [Parameter.take, Parameter.read, yesNo]
  split_ifs <;> rfl

/-- `cache-regime` stores the regime that the value names. -/
theorem cacheRegime_settings :
    Settings.of s.cacheRegime.config =
      Function.update (Settings.of s.config) .cacheRegime
        ((Parameter.cacheRegime.take s.parameterValue).getD
          (Settings.of s.config .cacheRegime)) := by
  unfold Loader.cacheRegime Parameter.take Parameter.read regimeNamed
  simp only
  split_ifs
  all_goals
    funext q
    cases q <;> rfl

/-- The directive of a parameter changes no other one. -/
theorem directive_named (p : Parameter) (hname : s.parameterName.bytes = p.name) :
    Settings.of s.directive.config =
      Function.update (Settings.of s.config) p
        ((p.take s.parameterValue).getD (Settings.of s.config p)) := by
  cases p with
  | port =>
      have hdirective : s.directive = s.number fun n => { s.config with port := n } := by
        simp only [Loader.directive, hname, Parameter.name, if_true]
      rw [hdirective]
      refine number_settings rfl fun n => funext fun q => ?_
      cases q <;> rfl
  | tcpBacklog =>
      have hdirective : s.directive = s.number fun n => { s.config with backlogSize := n } := by
        simp [Loader.directive, hname, Parameter.name, ascii]
      rw [hdirective]
      refine number_settings rfl fun n => funext fun q => ?_
      cases q <;> rfl
  | databases =>
      have hdirective : s.directive = s.number fun n => { s.config with dbCount := n } := by
        simp [Loader.directive, hname, Parameter.name, ascii]
      rw [hdirective]
      refine number_settings rfl fun n => funext fun q => ?_
      cases q <;> rfl
  | daemonize =>
      have hdirective : s.directive =
          if s.parameterValue.bytes = ascii "yes" then { s with config.daemonize := true }
          else s := by
        simp [Loader.directive, hname, Parameter.name, ascii]
      rw [hdirective, daemonize_take]
      split_ifs
      all_goals
        funext q
        cases q <;> rfl
  | bind =>
      have hdirective : s.directive = { s with config.rawBind := some s.parameterValue } := by
        simp [Loader.directive, hname, Parameter.name, ascii]
      rw [hdirective]
      funext q
      cases q <;> rfl
  | logfile =>
      have hdirective : s.directive = { s with config.logfile := some s.parameterValue } := by
        simp [Loader.directive, hname, Parameter.name, ascii]
      rw [hdirective]
      funext q
      cases q <;> rfl
  | cacheRegime =>
      have hdirective : s.directive = s.cacheRegime := by
        simp [Loader.directive, hname, Parameter.name, ascii]
      rw [hdirective]
      exact cacheRegime_settings

/-- Any other directive changes no parameter. -/
theorem directive_other (hname : ∀ p : Parameter, s.parameterName.bytes ≠ p.name) :
    Settings.of s.directive.config = Settings.of s.config := by
  have hport : s.parameterName.bytes ≠ ascii "port" := hname .port
  have hbacklog : s.parameterName.bytes ≠ ascii "tcp-backlog" := hname .tcpBacklog
  have hdatabases : s.parameterName.bytes ≠ ascii "databases" := hname .databases
  have hbind : s.parameterName.bytes ≠ ascii "bind" := hname .bind
  have hlogfile : s.parameterName.bytes ≠ ascii "logfile" := hname .logfile
  have hdaemonize : s.parameterName.bytes ≠ ascii "daemonize" := hname .daemonize
  have hregime : s.parameterName.bytes ≠ ascii "cache-regime" := hname .cacheRegime
  simp only [Loader.directive, hport, hbacklog, hdatabases, hbind, hlogfile, hdaemonize, hregime,
    if_false]
  split_ifs <;> rfl

/-- What is stored of a well-formed value is the value, where it is storable. -/
theorem stored_getD_iff {current setting : Setting} :
    setting.stored.getD current = setting ↔ current.Storable setting := by
  cases setting with
  | number n =>
      rw [Setting.stored, Option.getD_some, Setting.number.injEq]
      exact toUnsigned_eq_iff
  | switch on => cases on <;> simp [Setting.stored, Setting.Storable]
  | text value => exact iff_of_true rfl trivial
  | regime cachingRegime => exact iff_of_true rfl trivial

/-- The directive of a parameter does what its line says, where that is harmless. -/
theorem take_eq_read_iff {settings : Settings} {left : CString} {p : Parameter}
    {text : Option CString} :
    (p.take (text.getD left)).getD (settings p) = (text.bind p.read).getD (settings p) ↔
      settings.Harmless left p text := by
  cases text with
  | none =>
      show (p.take left).getD _ = settings p ↔ ∀ setting ∈ p.take left, _
      cases p.take left with
      | none => simp
      | some setting => simp
  | some value =>
      show ((p.read value).bind Setting.stored).getD _ = (p.read value).getD _ ↔
        ∀ setting ∈ p.read value, _
      cases p.read value with
      | none => simp
      | some setting => simpa using stored_getD_iff

end Directive

/-! ## One turn -/

section Turn

variable {s : Loader}

/-- A line without a directive says nothing. -/
theorem Settings.afterAll_silent {settings : Settings} {line : CString}
    (h : lineDirective line = none) : settings.afterAll [line] = settings := by
  funext p
  rw [afterAll_one, Parameter.given, h]
  rfl

/-- What a line says that has a name. -/
theorem Parameter.given_directive {line name : CString} {text : Option CString} (p : Parameter)
    (h : lineDirective line = some (name, text)) :
    p.given line = if name.bytes = p.name then text.bind p.read else none := by
  rw [given, h]
  cases text with
  | none => simp
  | some value => rfl

/-- What `parameter_value` holds after a line with a name. -/
theorem directive_left (hcontrol : s.control = .lines) :
    s.directive.parameterValue =
      if s.parameterName.bytes = ascii "save" then
        CString.ofBytes (strtokHead 32 s.parameterValue.bytes) else s.parameterValue := by
  rcases (Loader.directive_cases hcontrol).2 with ⟨hname, hsave⟩ | ⟨hname, -, hvalue⟩
  · rw [hsave, if_pos hname]
    rfl
  · rw [hvalue, if_neg hname]

/-- A directive does what its line says, whatever `parameter_value` held, where it is harmless for
the parameter that it names. -/
theorem directive_alone_iff {left line : CString} {text : Option CString}
    (hline : lineDirective line = some (s.parameterName, text))
    (hvalue : s.parameterValue = text.getD left) :
    Settings.of s.directive.config = (Settings.of s.config).afterAll [line] ↔
      ∀ p : Parameter, s.parameterName.bytes = p.name →
        (Settings.of s.config).Harmless left p text := by
  by_cases hnamed : ∃ p : Parameter, s.parameterName.bytes = p.name
  · obtain ⟨p, hname⟩ := hnamed
    have honly : ∀ q : Parameter, s.parameterName.bytes = q.name → q = p := fun q hq =>
      Parameter.name_injective (hq.symm.trans hname)
    have hsays : (Settings.of s.config).afterAll [line] =
        Function.update (Settings.of s.config) p
          ((text.bind p.read).getD (Settings.of s.config p)) := by
      funext q
      rw [Settings.afterAll_one, q.given_directive hline]
      by_cases hq : q = p
      · subst hq
        rw [if_pos hname, Function.update_self]
      · rw [if_neg fun hqname => hq (honly q hqname), Function.update_of_ne hq, Option.getD_none]
    rw [directive_named p hname, hsays, hvalue]
    constructor
    · intro heq q hq
      obtain rfl := honly q hq
      have hp := congrFun heq q
      rw [Function.update_self, Function.update_self] at hp
      exact take_eq_read_iff.mp hp
    · intro hharmless
      rw [take_eq_read_iff.mpr (hharmless p hname)]
  · have hother : ∀ p : Parameter, s.parameterName.bytes ≠ p.name := fun p hp => hnamed ⟨p, hp⟩
    refine iff_of_true ?_ fun p hp => absurd hp (hother p)
    rw [directive_other hother]
    funext p
    rw [Settings.afterAll_one, p.given_directive hline, if_neg (hother p), Option.getD_none]

/-- Each line that is left does what it says. -/
def Loader.SpeaksAlone (s : Loader) : Prop :=
  match s.control with
  | .lines => SpeakAlone s.parameterValue (Settings.of s.config) (linesOf s.input)
  | .tokens _ => SpeakAlone s.parameterValue (Settings.of s.config) (linesOf s.input)
  | .finished => (Settings.of s.config).afterAll (linesOf s.input) = Settings.of s.config
  | .raised => (Settings.of s.config).afterAll (linesOf s.input) = Settings.of s.config

/-- A line and those behind it do what they say if this one does, and then the others do. -/
theorem parseLine_alone (hcontrol : s.control = .lines) :
    SpeakAlone s.parameterValue (Settings.of s.config) (s.line :: linesOf s.input) ↔
      Settings.of s.parseLine.config = (Settings.of s.config).afterAll [s.line] ∧
        s.parseLine.SpeaksAlone := by
  rcases Loader.parseLine_cases s with ⟨hskip, hparse⟩ | ⟨hskip, hfield, hparse⟩ |
    ⟨name, text, hskip, hfield, hparse⟩
  · rw [SpeakAlone, if_pos hskip, hparse, Settings.afterAll_silent (if_pos hskip)]
    simp only [Loader.SpeaksAlone, hcontrol, true_and]
  · have hsilent : lineDirective s.line = none := by
      rw [lineDirective, if_neg hskip, hfield]
      rfl
    rw [SpeakAlone, if_neg hskip, hfield, hparse, Settings.afterAll_silent hsilent]
    simp only [Loader.SpeaksAlone, true_and]
  · set s₁ : Loader := { s with
      parameterName := .ofBytes name
      parameterValue := (text.map .ofBytes).getD s.parameterValue }
    have hline : lineDirective s.line = some (s₁.parameterName, text.map .ofBytes) := by
      rw [lineDirective, if_neg hskip, hfield]
      rfl
    have hcontrol₁ : s₁.control = .lines := hcontrol
    have hinput : s₁.directive.input = s.input := (Loader.directive_cases hcontrol₁).1
    have hspeaks : s₁.directive.SpeaksAlone ↔
        SpeakAlone s₁.directive.parameterValue (Settings.of s₁.directive.config)
          (linesOf s.input) := by
      rcases (Loader.directive_cases hcontrol₁).2 with ⟨-, hsave⟩ | ⟨-, hstays, -⟩
      · rw [hsave]
        rfl
      · simp only [Loader.SpeaksAlone, hstays, hinput]
    rw [SpeakAlone, if_neg hskip, hfield, hparse, hspeaks, directive_alone_iff hline rfl]
    -- the lines behind start from what this one says, once the turn does what it says
    refine and_congr_right fun hharmless => ?_
    rw [(directive_alone_iff hline rfl).mpr hharmless, directive_left hcontrol₁]

/-- A turn leaves the lines behind the one it reads. -/
theorem linesOf_step : linesOf s.input = s.lineRead ++ linesOf s.step.input := by
  cases hcontrol : s.control with
  | lines =>
      rcases Loader.step_lines hcontrol with ⟨hinput, hstep⟩ | ⟨hhead, hstep⟩ |
        ⟨text, rest, hscan, hstep⟩
      · simp [Loader.lineRead, hcontrol, hstep, hinput, scanLine_eq_eof.mpr rfl]
      · simp [Loader.lineRead, hcontrol, hstep, scanLine_eq_noMatch.mpr hhead,
          Loader.parseLine_input hcontrol]
      · have hinput : s.step.input = rest := by
          rw [hstep]
          exact Loader.parseLine_input hcontrol
        simp [Loader.lineRead, hcontrol, hscan, hinput, linesOf_line hscan]
  | tokens t =>
      simp only [Loader.lineRead, hcontrol, List.nil_append]
      rcases Loader.step_tokens hcontrol with ⟨-, hstep⟩ | ⟨_, -, -, hstep⟩ | ⟨_, _, -, -, hstep⟩
      · rw [hstep]
      · rw [hstep]
      · rw [hstep]
  | finished => simp [Loader.lineRead, Loader.step, hcontrol]
  | raised => simp [Loader.lineRead, Loader.step, hcontrol]

/-- What is to hold in each state: the next turn does what its line says, and where the loops have
ended the lines that are left say nothing new. -/
def Loader.Alone (s : Loader) : Prop :=
  s.TurnAlone ∧
    (s.Ended → (Settings.of s.config).afterAll (linesOf s.input) = Settings.of s.config)

/-- The lines that are left do what they say if the next turn does, and then those that it
leaves. -/
theorem step_alone (hrunning : ¬ s.Ended) (hprogress : s.Progress) :
    s.SpeaksAlone ↔ s.Alone ∧ s.step.SpeaksAlone := by
  have halone : s.Alone ↔ s.TurnAlone := and_iff_left fun hended => absurd hended hrunning
  rw [halone]
  cases hcontrol : s.control with
  | lines =>
      rcases Loader.step_lines hcontrol with ⟨hinput, hstep⟩ | ⟨hhead, hstep⟩ |
        ⟨text, rest, hscan, hstep⟩
      · have hread : s.lineRead = [] := by
          simp only [Loader.lineRead, hcontrol, scanLine_eq_eof.mpr hinput]
        simp [Loader.TurnAlone, Loader.SpeaksAlone, hread, hcontrol, hstep, hinput, SpeakAlone]
      · -- such a turn consumes nothing of the file
        simp only [Loader.Progress, hcontrol, scanLine_eq_noMatch.mpr hhead, hstep,
          Loader.parseLine_input hcontrol, ne_eq, reduceCtorEq, not_false_eq_true, forall_const,
          lt_irrefl] at hprogress
      · have hread : s.lineRead = [.ofBytes text] := by
          simp only [Loader.lineRead, hcontrol, hscan]
        have hturn := parseLine_alone
          (s := { s with input := rest, line := .ofBytes text }) hcontrol
        rw [Loader.TurnAlone, hread, hstep, Loader.SpeaksAlone, hcontrol]
        simp only [linesOf_line hscan]
        rwa [hcontrol] at hturn
  | tokens t =>
      have hread : s.lineRead = [] := by simp only [Loader.lineRead, hcontrol]
      simp only [Loader.TurnAlone, hread, Settings.afterAll_nil]
      -- the parameters of the other directives do not depend on `save_data`
      rcases Loader.step_tokens hcontrol with ⟨-, hstep⟩ | ⟨_, -, -, hstep⟩ | ⟨_, _, -, -, hstep⟩
      · have hsame : Settings.of s.step.config = Settings.of s.config := by
          rw [hstep]
          funext p
          cases p <;> rfl
        rw [and_iff_right hsame]
        simp only [Loader.SpeaksAlone, hcontrol, hsame]
        rw [hstep]
      · rw [hstep, and_iff_right rfl]
      · rw [hstep, and_iff_right rfl]
        simp only [Loader.SpeaksAlone, hcontrol]
  | finished => simp [Loader.Ended, hcontrol] at hrunning
  | raised => simp [Loader.Ended, hcontrol] at hrunning

end Turn

/-! ## The whole file -/

section File

variable {s : Loader}

/-- Where the loops have ended, the next turn does nothing. -/
theorem ended_alone (hended : s.Ended) : s.step = s ∧ (s.SpeaksAlone ↔ s.Alone) := by
  have hturn : s.step = s → s.lineRead = [] → s.TurnAlone := by
    intro hstep hread
    rw [Loader.TurnAlone, hstep, hread, Settings.afterAll_nil]
  unfold Loader.Alone
  cases hcontrol : s.control with
  | lines => simp [Loader.Ended, hcontrol] at hended
  | tokens t => simp [Loader.Ended, hcontrol] at hended
  | finished =>
      have hstep : s.step = s := by simp only [Loader.step, hcontrol]
      have hread : s.lineRead = [] := by simp only [Loader.lineRead, hcontrol]
      rw [and_iff_right (hturn hstep hread), imp_iff_right hended]
      simp only [Loader.SpeaksAlone, hcontrol, hstep, true_and]
  | raised =>
      have hstep : s.step = s := by simp only [Loader.step, hcontrol]
      have hread : s.lineRead = [] := by simp only [Loader.lineRead, hcontrol]
      rw [and_iff_right (hturn hstep hread), imp_iff_right hended]
      simp only [Loader.SpeaksAlone, hcontrol, hstep, true_and]

/-- While every turn does what its line says, the parameters are what the lines read so far say. -/
theorem settings_iterate (hturns : ∀ n, (Loader.step^[n] s).TurnAlone) (n : Nat) :
    (Settings.of (Loader.step^[n] s).config).afterAll (linesOf (Loader.step^[n] s).input) =
      (Settings.of s.config).afterAll (linesOf s.input) := by
  induction n with
  | zero => rfl
  | succ n ih =>
      have hturn : Settings.of (Loader.step^[n] s).step.config =
          (Settings.of (Loader.step^[n] s).config).afterAll (Loader.step^[n] s).lineRead := hturns n
      rw [Function.iterate_succ_apply', hturn, ← Settings.afterAll_append, ← linesOf_step, ih]

end File

/-- Where both loops finish, every line speaks for itself and the last one wins, if and only if no
line without a value stores what `parameter_value` held, no number is out of the range of
`unsigned int`, no `no` comes after a `yes`, and nothing new comes after a line of blanks only. -/
theorem lines_speak_alone_iff {file : List UInt8} {scratch : Scratch}
    (hloads : (initConfiguration file scratch).Loads) :
    LinesSpeakAlone file scratch ↔
      SpeakAlone scratch.parameterValue (Settings.of .default) (linesOf file) := by
  have hthroughout : (∀ n, (Loader.step^[n] (initConfiguration file scratch)).Alone) ↔
      (initConfiguration file scratch).SpeaksAlone :=
    Finishes.throughout_iff (fun _ hended => ended_alone hended)
      (fun _ hrunning hprogress => step_alone hrunning hprogress) hloads
  have hgoal : (initConfiguration file scratch).SpeaksAlone ↔
      SpeakAlone scratch.parameterValue (Settings.of .default) (linesOf file) := Iff.rfl
  rw [← hgoal, ← hthroughout]
  constructor
  · rintro ⟨hturn, hlast⟩ n
    refine ⟨hturn n, fun hended => ?_⟩
    rw [settings_iterate hturn n, hlast n hended]
    rfl
  · intro hall
    have hturn : ∀ n, (Loader.step^[n] (initConfiguration file scratch)).TurnAlone :=
      fun n => (hall n).1
    refine ⟨hturn, fun n hended => ?_⟩
    rw [← (hall n).2 hended, settings_iterate hturn n]
    rfl

/-- A file whose lines give `port` twice. -/
def twoPorts : List UInt8 :=
  ascii "port 80\ndaemonize yes\nport 90\n"

/-- The lines of `twoPorts` speak for themselves. -/
theorem lines_speak_alone_twoPorts : LinesSpeakAlone twoPorts .empty := by
  have hlines : linesOf twoPorts =
      [.ofBytes (ascii "port 80"), .ofBytes (ascii "daemonize yes"),
        .ofBytes (ascii "port 90")] := by
    have hfirst : scanLine twoPorts =
        .line (ascii "port 80") (ascii "daemonize yes\nport 90\n") := rfl
    have hsecond : scanLine (ascii "daemonize yes\nport 90\n") =
        .line (ascii "daemonize yes") (ascii "port 90\n") := rfl
    have hthird : scanLine (ascii "port 90\n") = .line (ascii "port 90") [] := rfl
    rw [linesOf_line hfirst, linesOf_line hsecond, linesOf_line hthird, linesOf_nil]
  have hloads : (initConfiguration twoPorts .empty).Loads := by
    have hsaves : ∀ d ∈ directives .empty [.ofBytes (ascii "port 80"),
        .ofBytes (ascii "daemonize yes"), .ofBytes (ascii "port 90")],
        d.1.bytes ≠ ascii "save" := by decide
    refine loads_of_savesParse (by decide) fun d hd hsave => ?_
    rw [hlines] at hd
    exact absurd hsave (hsaves d hd)
  refine (lines_speak_alone_iff hloads).mpr ?_
  rw [hlines]
  decide

/-- A line without a value takes the one of the line before. -/
theorem tcp_backlog_takes_port :
    (initConfiguration (ascii "port 80\ntcp-backlog\n") .empty).Loads ∧
      ¬ LinesSpeakAlone (ascii "port 80\ntcp-backlog\n") .empty := by
  have hlines : linesOf (ascii "port 80\ntcp-backlog\n") =
      [.ofBytes (ascii "port 80"), .ofBytes (ascii "tcp-backlog")] := by
    have hfirst : scanLine (ascii "port 80\ntcp-backlog\n") =
        .line (ascii "port 80") (ascii "tcp-backlog\n") := rfl
    have hsecond : scanLine (ascii "tcp-backlog\n") = .line (ascii "tcp-backlog") [] := rfl
    rw [linesOf_line hfirst, linesOf_line hsecond, linesOf_nil]
  refine ⟨loads_of_savesParse (by decide) fun d hd hsave => ?_, fun halone => ?_⟩
  · have hsaves : ∀ d ∈ directives .empty [.ofBytes (ascii "port 80"),
        .ofBytes (ascii "tcp-backlog")], d.1.bytes ≠ ascii "save" := by decide
    rw [hlines] at hd
    exact absurd hsave (hsaves d hd)
  · have hturn := congrFun (halone.turn 1) .tcpBacklog
    revert hturn
    decide

end PgRedisProxy
