import Mathlib.Data.Prod.Lex
import Mathlib.Order.WellFounded
import PgRedisProxy.Base.Loop
import PgRedisProxy.Start.Configuration

/-!
# Loading the configuration finishes

The loop over the lines goes on as `fscanf` passes a line, the loop over the tokens of a
`save` line as `strtok` gives the next one. `Loader.loads_iff_passable` is the main result:
both loops finish, with progress in every turn, exactly if the file does not begin with a
line feed and every token of a `save` line is a number. `directives` is what the lines say
when each `save` line is looked at. What the turns write is the subject of `Start.Buffers`.
-/

namespace PgRedisProxy

open CLang Machine

/-- The names and values that the lines of a file give, up to a line of blanks only. A name without
a value is given the one before, of which `save` has left the first token. -/
def directives (value : CString) : List CString → List (CString × CString)
  | [] => []
  | line :: lines =>
      if line.strlen = 0 ∨ line.bytes.head? = some 35 then directives value lines
      else
        match scanField line.bytes with
        | none => []
        | some (name, text) =>
            let value := (text.map .ofBytes).getD value
            let next := if (CString.ofBytes name).bytes = ascii "save" then
              CString.ofBytes (strtokHead 32 value.bytes) else value
            (.ofBytes name, value) :: directives next lines

/-- Every token of every `save` line is a number. -/
def SavesParse (value : CString) (lines : List CString) : Prop :=
  ∀ d ∈ directives value lines, d.1.bytes = ascii "save" →
    ∀ token ∈ tokensOf 32 d.2.bytes, (parseIntFromValueCorrectly token).isSome

/-- The token that is looked at, and those that follow it. -/
def SaveLoop.ahead (t : SaveLoop) : List (List UInt8) :=
  match t.token with
  | none => []
  | some token => token :: tokensOf 32 t.left

/-- The bytes of the token that is looked at, and what `strtok` has left. -/
def SaveLoop.size (t : SaveLoop) : Nat :=
  (t.token.getD []).length + t.left.length

namespace Loader

/-- `init_configuration` is behind its loops, or out of them with an error. -/
def Ended (s : Loader) : Prop :=
  match s.control with
  | .lines => False
  | .tokens _ => False
  | .finished => True
  | .raised => True

/-- The next turn of a loop gets on: one for a line consumes a part of the file, one for a token
comes to the next token. A loop whose test fails is left. -/
def Progress (s : Loader) : Prop :=
  match s.control with
  | .lines => scanLine s.input ≠ .eof → s.step.input.length < s.input.length
  | .tokens t => t.token ≠ none → ∃ t', s.step.control = .tokens t' ∧ t'.size < t.size
  | .finished => True
  | .raised => True

/-- Every line that is left can be passed, and so can every token. -/
def Passable (s : Loader) : Prop :=
  match s.control with
  | .lines => s.input.head? ≠ some 10 ∧ SavesParse s.parameterValue (linesOf s.input)
  | .tokens t =>
      (∀ token ∈ t.ahead, (parseIntFromValueCorrectly token).isSome) ∧
        s.input.head? ≠ some 10 ∧ SavesParse s.parameterValue (linesOf s.input)
  | .finished => True
  | .raised => True

/-- How far the loops are from their end: what is left of the file, and then of the line. -/
def remaining (s : Loader) : Nat ×ₗ Nat :=
  toLex (s.input.length,
    match s.control with
    | .lines => 1
    | .tokens t => t.size + 2
    | .finished => 0
    | .raised => 0)

/-- Both loops finish, and every turn of one gets on. -/
def Loads (s : Loader) : Prop :=
  Finishes step Ended Progress s

/-! ## The tokens of a line -/

section Tokens

variable {s : Loader} {t : SaveLoop}

/-- The token that is looked at comes before those that `strtok` has left. -/
theorem ahead_of_token {token : List UInt8} (htoken : t.token = some token) :
    t.ahead = token :: tokensOf 32 t.left := by
  rw [SaveLoop.ahead, htoken]

/-- The next token and those behind it are the tokens of the text. -/
theorem ahead_nextToken (t : SaveLoop) (text : List UInt8) :
    (nextToken t text).ahead = tokensOf 32 text := by
  unfold nextToken
  cases h : strtok 32 text with
  | none => simp [SaveLoop.ahead, tokensOf_none h]
  | some next => simp [SaveLoop.ahead, tokensOf_some h]

theorem size_nextToken_le (t : SaveLoop) (text : List UInt8) :
    (nextToken t text).size ≤ text.length := by
  unfold nextToken
  cases h : strtok 32 text with
  | none => simp [SaveLoop.size]
  | some next => exact (strtok_eq_some h).2

theorem saveData_nextToken (t : SaveLoop) (text : List UInt8) :
    (nextToken t text).saveData = t.saveData := by
  unfold nextToken
  cases strtok 32 text <;> rfl

theorem isCurTime_nextToken (t : SaveLoop) (text : List UInt8) :
    (nextToken t text).isCurTime = t.isCurTime := by
  unfold nextToken
  cases strtok 32 text <;> rfl

/-- A token that is a number is not empty. -/
theorem ne_nil_of_parse {token : List UInt8} {value : Int}
    (h : parseIntFromValueCorrectly token = some value) : token ≠ [] := by
  rintro rfl
  cases h

/-- The token behind one that is a number is nearer to the end. -/
theorem size_nextToken_lt {token : List UInt8} {value : Int} (htoken : t.token = some token)
    (hparse : parseIntFromValueCorrectly token = some value) :
    (nextToken (t.put value) t.left).size < t.size := by
  have hle := size_nextToken_le (t.put value) t.left
  have hpos := List.length_pos_of_ne_nil (ne_nil_of_parse hparse)
  simp only [SaveLoop.size, htoken, Option.getD_some] at hle ⊢
  omega

/-- What a turn of the loop over the tokens does. -/
theorem step_tokens (hcontrol : s.control = .tokens t) :
    (t.token = none ∧
        s.step = { s with config.saveData := some t.saveData, control := .lines }) ∨
      (∃ token, t.token = some token ∧ parseIntFromValueCorrectly token = none ∧ s.step = s) ∨
      ∃ token value, t.token = some token ∧ parseIntFromValueCorrectly token = some value ∧
        s.step = { s with control := .tokens (nextToken (t.put value) t.left) } := by
  simp only [step, hcontrol, tokenTurn]
  cases htoken : t.token with
  | none => exact .inl ⟨rfl, rfl⟩
  | some token =>
      cases hparse : parseIntFromValueCorrectly token with
      | none => exact .inr (.inl ⟨token, rfl, hparse, by simp only [hparse]⟩)
      | some value => exact .inr (.inr ⟨token, value, rfl, hparse, by simp only [hparse]⟩)

/-- The loop over the tokens gets on from a number. -/
theorem tokens_progress (hcontrol : s.control = .tokens t)
    (hpass : ∀ token ∈ t.token, (parseIntFromValueCorrectly token).isSome) : s.Progress := by
  simp only [Progress, hcontrol]
  intro hne
  rcases step_tokens hcontrol with ⟨htoken, -⟩ | ⟨token, htoken, hparse, -⟩ |
    ⟨token, value, htoken, hparse, hstep⟩
  · exact absurd htoken hne
  · have hnumber := hpass token htoken
    rw [hparse] at hnumber
    cases hnumber
  · exact ⟨_, by rw [hstep], size_nextToken_lt htoken hparse⟩

/-- The loop over the tokens stops at a token that is no number, and gets on from any other. -/
theorem tokens_step (hcontrol : s.control = .tokens t) :
    (s.Passable → s.Progress) ∧
      (s.Progress → (s.Passable ↔ s.step.Passable) ∧ s.step.remaining < s.remaining) := by
  have hprogress : s.Passable → s.Progress := by
    intro hpass
    simp only [Passable, hcontrol] at hpass
    refine tokens_progress hcontrol fun token htoken => hpass.1 token ?_
    rw [SaveLoop.ahead, Option.mem_def.mp htoken]
    exact List.mem_cons_self
  refine ⟨hprogress, ?_⟩
  rcases step_tokens hcontrol with ⟨htoken, hstep⟩ | ⟨token, htoken, hparse, hstep⟩ |
    ⟨token, value, htoken, hparse, hstep⟩
  · refine fun _ => ⟨?_, ?_⟩
    · rw [hstep]
      simp [Passable, hcontrol, SaveLoop.ahead, htoken]
    · rw [hstep, Prod.Lex.lt_iff]
      exact .inr ⟨rfl, by simp [remaining, hcontrol]⟩
  · have hstuck : ¬ s.Progress := by
      simp only [Progress, hcontrol, htoken, hstep, ne_eq, reduceCtorEq, not_false_eq_true,
        forall_const, not_exists, not_and]
      rintro t' heq
      obtain rfl := Control.tokens.inj heq
      exact lt_irrefl _
    exact fun h => absurd h hstuck
  · refine fun _ => ⟨?_, ?_⟩
    · have hahead := ahead_of_token htoken
      rw [hstep]
      simp [Passable, hcontrol, hahead, ahead_nextToken (t.put value) t.left, hparse]
    · rw [hstep, Prod.Lex.lt_iff]
      refine .inr ⟨rfl, ?_⟩
      have hsize := size_nextToken_lt htoken hparse
      simp only [remaining, hcontrol, ofLex_toLex]
      omega

end Tokens

/-! ## The lines of the file -/

section Lines

variable {s : Loader}

theorem directive_save (hname : s.parameterName.bytes = ascii "save") : s.directive = s.save := by
  simp [directive, hname, ascii]

/-- Any other directive changes only the configuration. -/
theorem directive_frame (hname : s.parameterName.bytes ≠ ascii "save") :
    ∃ config, s.directive = { s with config := config } := by
  have hnumber : ∀ store, ∃ config, s.number store = { s with config := config } := by
    intro store
    unfold number
    cases parseIntFromValueCorrectly s.parameterValue.bytes with
    | none => exact ⟨s.config, rfl⟩
    | some value => exact ⟨_, rfl⟩
  have hregime : ∃ config, s.cacheRegime = { s with config := config } := by
    unfold cacheRegime
    simp only
    split_ifs <;> exact ⟨_, rfl⟩
  unfold directive
  simp only [hname, if_false]
  split_ifs
  all_goals first | exact hnumber _ | exact hregime | exact ⟨_, rfl⟩

/-- Only `save` enters the other loop, and nothing reads from the file. -/
theorem directive_cases (hcontrol : s.control = .lines) :
    s.directive.input = s.input ∧
      ((s.parameterName.bytes = ascii "save" ∧ s.directive = s.save) ∨
        (s.parameterName.bytes ≠ ascii "save" ∧ s.directive.control = .lines ∧
          s.directive.parameterValue = s.parameterValue)) := by
  by_cases hsave : s.parameterName.bytes = ascii "save"
  · have hdirective := directive_save hsave
    exact ⟨by rw [hdirective]; rfl, .inl ⟨hsave, hdirective⟩⟩
  · obtain ⟨config, hdirective⟩ := directive_frame hsave
    rw [hdirective]
    exact ⟨rfl, .inr ⟨hsave, hcontrol, rfl⟩⟩

/-- A line with a directive comes before the lines behind it. -/
theorem savesParse_cons {value line : CString} {lines : List CString} {name : List UInt8}
    {text : Option (List UInt8)} (hempty : line.strlen ≠ 0) (hcomment : line.bytes.head? ≠ some 35)
    (hfield : scanField line.bytes = some (name, text)) :
    SavesParse value (line :: lines) ↔
      ((CString.ofBytes name).bytes = ascii "save" →
        ∀ token ∈ tokensOf 32 ((text.map CString.ofBytes).getD value).bytes,
          (parseIntFromValueCorrectly token).isSome) ∧
      SavesParse (if (CString.ofBytes name).bytes = ascii "save" then
        .ofBytes (strtokHead 32 ((text.map CString.ofBytes).getD value).bytes)
        else (text.map CString.ofBytes).getD value) lines := by
  unfold SavesParse
  rw [directives, if_neg (not_or.mpr ⟨hempty, hcomment⟩), hfield, List.forall_mem_cons]

/-- What is done with a line: nothing, or an error, or its directive. -/
theorem parseLine_cases (s : Loader) :
    ((s.line.strlen = 0 ∨ s.line.bytes.head? = some 35) ∧ s.parseLine = s) ∨
      (¬ (s.line.strlen = 0 ∨ s.line.bytes.head? = some 35) ∧ scanField s.line.bytes = none ∧
        s.parseLine = { s with control := .raised }) ∨
      ∃ name text, ¬ (s.line.strlen = 0 ∨ s.line.bytes.head? = some 35) ∧
        scanField s.line.bytes = some (name, text) ∧
        s.parseLine = directive { s with
          parameterName := .ofBytes name
          parameterValue := (text.map .ofBytes).getD s.parameterValue } := by
  unfold parseLine
  by_cases hempty : s.line.strlen = 0
  · exact .inl ⟨.inl hempty, by rw [if_pos hempty]⟩
  by_cases hcomment : s.line.bytes.head? = some 35
  · exact .inl ⟨.inr hcomment, by rw [if_pos hcomment, ite_self]⟩
  rw [if_neg hempty, if_neg hcomment]
  have hskip := not_or.mpr ⟨hempty, hcomment⟩
  cases hfield : scanField s.line.bytes with
  | none => exact .inr (.inl ⟨hskip, rfl, rfl⟩)
  | some field => exact .inr (.inr ⟨field.1, field.2, hskip, rfl, rfl⟩)

/-- What is done with a line reads nothing from the file. -/
theorem parseLine_input (hcontrol : s.control = .lines) : s.parseLine.input = s.input := by
  rcases parseLine_cases s with ⟨-, hparse⟩ | ⟨-, -, hparse⟩ | ⟨name, text, -, -, hparse⟩
  · rw [hparse]
  · rw [hparse]
  · rw [hparse]
    exact (directive_cases (by exact hcontrol)).1

/-- A line is passed if it is no `save` line with a token that is no number. -/
theorem parseLine_passable (hcontrol : s.control = .lines) (hhead : s.input.head? ≠ some 10) :
    s.parseLine.Passable ↔ SavesParse s.parameterValue (s.line :: linesOf s.input) := by
  rcases parseLine_cases s with ⟨hskip, hparse⟩ | ⟨hskip, hfield, hparse⟩ |
    ⟨name, text, hskip, hfield, hparse⟩
  · rw [hparse]
    simp [hskip, Passable, hcontrol, hhead, SavesParse, directives]
  · rw [hparse]
    simp [Passable, SavesParse, directives, hskip, hfield]
  · rw [hparse]
    obtain ⟨hempty, hcomment⟩ := not_or.mp hskip
    set s₁ : Loader := { s with
      parameterName := .ofBytes name
      parameterValue := (text.map .ofBytes).getD s.parameterValue }
    obtain ⟨hinput, ⟨hname, hsave⟩ | ⟨hname, hcontrol₁, hvalue⟩⟩ := directive_cases
      (show s₁.control = .lines from hcontrol)
    · rw [savesParse_cons hempty hcomment hfield, hsave]
      show (_ ∧ s.input.head? ≠ some 10 ∧ _) ↔ _
      have hname' : (CString.ofBytes name).bytes = ascii "save" := hname
      rw [ahead_nextToken, if_pos hname']
      constructor
      · intro hpass
        exact ⟨fun _ => hpass.1, hpass.2.2⟩
      · intro hparse
        exact ⟨hparse.1 hname', hhead, hparse.2⟩
    · have hname' : (CString.ofBytes name).bytes ≠ ascii "save" := hname
      rw [savesParse_cons hempty hcomment hfield, if_neg hname']
      simp only [Passable, hcontrol₁, hinput, hvalue]
      constructor
      · intro hpass
        exact ⟨fun hsave => absurd hsave hname', hpass.2⟩
      · intro hparse
        exact ⟨hhead, hparse.2⟩

/-- What a turn of the loop over the lines does. -/
theorem step_lines (hcontrol : s.control = .lines) :
    (s.input = [] ∧ s.step = { s with control := .finished }) ∨
      (s.input.head? = some 10 ∧ s.step = s.parseLine) ∨
      ∃ text rest, scanLine s.input = .line text rest ∧
        s.step = parseLine { s with input := rest, line := .ofBytes text } := by
  simp only [step, hcontrol, lineTurn]
  cases hscan : scanLine s.input with
  | eof => exact .inl ⟨scanLine_eq_eof.mp hscan, rfl⟩
  | noMatch => exact .inr (.inl ⟨scanLine_eq_noMatch.mp hscan, rfl⟩)
  | line text rest => exact .inr (.inr ⟨text, rest, rfl, rfl⟩)

/-- The loop over the lines gets on from any line. -/
theorem lines_progress (hcontrol : s.control = .lines) (hhead : s.input.head? ≠ some 10) :
    s.Progress := by
  simp only [Progress, hcontrol]
  intro hmore
  rcases step_lines hcontrol with ⟨hinput, -⟩ | ⟨hstuck, -⟩ | ⟨text, rest, hscan, hstep⟩
  · exact absurd (scanLine_eq_eof.mpr hinput) hmore
  · exact absurd hstuck hhead
  · have hinput : s.step.input = rest := by
      rw [hstep]
      exact parseLine_input hcontrol
    rw [hinput]
    exact (scanLine_eq_line hscan).1

/-- The loop over the lines stops at a line feed at the beginning of the file, and gets on from any
line. -/
theorem lines_step (hcontrol : s.control = .lines) :
    (s.Passable → s.Progress) ∧
      (s.Progress → (s.Passable ↔ s.step.Passable) ∧ s.step.remaining < s.remaining) := by
  have hprogress : s.Passable → s.Progress := by
    intro hpass
    simp only [Passable, hcontrol] at hpass
    exact lines_progress hcontrol hpass.1
  refine ⟨hprogress, ?_⟩
  rcases step_lines hcontrol with ⟨hinput, hstep⟩ | ⟨hhead, hstep⟩ | ⟨text, rest, hscan, hstep⟩
  · -- nothing of the file is left, and the loop ends with this turn
    refine fun _ => ⟨?_, ?_⟩
    · rw [hstep]
      simp [Passable, hcontrol, hinput, SavesParse, directives]
    · rw [hstep, Prod.Lex.lt_iff]
      exact .inr ⟨rfl, by simp [remaining, hcontrol]⟩
  · -- `fscanf` matches nothing, and nothing of the file is consumed
    have hstuck : ¬ s.Progress := by
      intro hprogress
      simp only [Progress, hcontrol, scanLine_eq_noMatch.mpr hhead, ne_eq, reduceCtorEq,
        not_false_eq_true, forall_const, hstep, parseLine_input hcontrol] at hprogress
      exact lt_irrefl _ hprogress
    exact fun h => absurd h hstuck
  · obtain ⟨hshorter, hblank⟩ := scanLine_eq_line hscan
    set s₁ : Loader := { s with input := rest, line := .ofBytes text }
    have hcontrol₁ : s₁.control = .lines := hcontrol
    -- the blanks behind a line are consumed with it, so no later scan can fail to match
    have hhead : s₁.input.head? ≠ some 10 := fun hhead => by
      have := hblank 10 hhead
      cases this
    have hfirst : s.input.head? ≠ some 10 := by
      intro hfirst
      rw [scanLine_eq_noMatch.mpr hfirst] at hscan
      cases hscan
    have hinput : s.step.input = rest := by
      rw [hstep, parseLine_input hcontrol₁]
    refine fun _ => ⟨?_, ?_⟩
    · rw [hstep, parseLine_passable hcontrol₁ hhead]
      simp only [Passable, hcontrol, linesOf_line hscan]
      exact and_iff_right hfirst
    · rw [Prod.Lex.lt_iff]
      exact .inl (by simpa [remaining, hinput] using hshorter)

/-! ## Loading a file -/

/-- Both loops finish exactly from where every line and every token can be passed. -/
theorem loads_iff_passable (s : Loader) : s.Loads ↔ s.Passable := by
  have hturn : ∀ s : Loader, ¬ s.Ended → (s.Passable → s.Progress) ∧
      (s.Progress → (s.Passable ↔ s.step.Passable) ∧ s.step.remaining < s.remaining) := by
    intro s hrunning
    cases hcontrol : s.control with
    | lines => exact lines_step hcontrol
    | tokens t => exact tokens_step hcontrol
    | finished => simp [Ended, hcontrol] at hrunning
    | raised => simp [Ended, hcontrol] at hrunning
  refine finishes_iff (InvImage.wf remaining wellFounded_lt) (fun s hended => ?_)
    (fun s hpass hrunning => (hturn s hrunning).1 hpass)
    (fun s hrunning hprogress => (hturn s hrunning).2 hprogress)
  cases hcontrol : s.control with
  | lines => simp [Ended, hcontrol] at hended
  | tokens t => simp [Ended, hcontrol] at hended
  | finished => simp [step, Passable, hcontrol]
  | raised => simp [step, Passable, hcontrol]

end Lines

end Loader

/-- A file of which both loops finish. -/
theorem loads_of_savesParse {file : List UInt8} {scratch : Scratch} (hhead : file.head? ≠ some 10)
    (hsaves : SavesParse scratch.parameterValue (linesOf file)) :
    (initConfiguration file scratch).Loads :=
  (Loader.loads_iff_passable _).mpr ⟨hhead, hsaves⟩

/-- Locals that hold empty strings. -/
def Scratch.empty : Scratch :=
  ⟨.empty, .empty, .empty⟩

end PgRedisProxy
