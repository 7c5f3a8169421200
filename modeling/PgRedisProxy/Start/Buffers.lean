import PgRedisProxy.Start.Directives
import PgRedisProxy.Start.Slots

/-!
# The buffers of start-up

`Watched` runs `init_configuration` and keeps the length of the value that `strtok` works in,
so that `Watched.writes` is every write of a turn with its place in the buffer. `Inside` says
that they all stay inside. `stays_inside_iff` and `loads_iff` are the main results: which files
keep start-up inside its buffers, those of `init_table` included, and of which files both loops
finish without a write outside. In both the lines must fit, one after the other.
-/

namespace PgRedisProxy

open CLang Machine

/-- What is done with a line: nothing, or an error if it is of blanks only, or a directive. -/
inductive LineKind where
  | skipped
  | blank
  | fields (name : List UInt8) (value : Option (List UInt8))

/-- The kind of a line. -/
def lineKind (line : CString) : LineKind :=
  if line.strlen = 0 then .skipped
  else if line.bytes.head? = some 35 then .skipped
  else
    match scanField line.bytes with
    | none => .blank
    | some (name, value) => .fields name value

/-! ## What is written -/

/-- The write of `strtok` in a value of this length: it ends the token, if a delimiter does. -/
def strtokWrites (valueSize : Nat) (text : List UInt8) : List (Access StartBuffer) :=
  if strtokBehind 32 text = [] then []
  else [⟨.parameterValue, valueSize - (strtokBehind 32 text).length, 1⟩]

/-- The writes of a directive: a copy of the value, or the first call of `strtok`. -/
def directiveWrites (name value : CString) : List (Access StartBuffer) :=
  if name.bytes = ascii "bind" then [⟨.rawBind, 0, value.strlen + 1⟩]
  else if name.bytes = ascii "logfile" then [⟨.logfile, 0, value.strlen + 1⟩]
  else if name.bytes = ascii "save" then strtokWrites value.strlen value.bytes
  else []

/-- The writes of `sscanf`, and those of the directive. -/
def fieldWrites (left : CString) (line : CString) : List (Access StartBuffer) :=
  match lineKind line with
  | .skipped => []
  | .blank => []
  | .fields name value =>
      ⟨.parameterName, 0, name.length + 1⟩ ::
        (value.map fun value => ⟨.parameterValue, 0, value.length + 1⟩).toList ++
          directiveWrites (.ofBytes name) ((value.map .ofBytes).getD left)

/-- The writes of a turn of the loop over the tokens: a pair, and the next call of `strtok`. -/
def SaveLoop.writes (t : SaveLoop) (valueSize : Nat) : List (Access StartBuffer) :=
  match t.token with
  | none => []
  | some token =>
      match parseIntFromValueCorrectly token with
      | none => []
      | some _ =>
          (if t.isCurTime then [] else [⟨.saveData, t.saveData.length, 1⟩]) ++
            strtokWrites valueSize t.left

/-- `init_configuration`, and the length of the value whose tokens are looked at. -/
structure Watched where
  loader : Loader
  valueSize : Nat

namespace Watched

/-- The line that the next turn looks at. -/
def lineRead (w : Watched) : CString :=
  match scanLine w.loader.input with
  | .eof => w.loader.line
  | .noMatch => w.loader.line
  | .line text _ => .ofBytes text

/-- The writes of the next turn. -/
def writes (w : Watched) : List (Access StartBuffer) :=
  match w.loader.control with
  | .lines =>
      match scanLine w.loader.input with
      | .eof => []
      | .noMatch => fieldWrites w.loader.parameterValue w.loader.line
      | .line text _ =>
          ⟨.line, 0, text.length + 1⟩ :: fieldWrites w.loader.parameterValue (.ofBytes text)
  | .tokens t => t.writes w.valueSize
  | .finished => []
  | .raised => []

/-- The length of the value that a turn of the loop over the lines looks at. -/
def valueRead (w : Watched) : Nat :=
  match lineKind w.lineRead with
  | .skipped => w.valueSize
  | .blank => w.valueSize
  | .fields _ value => ((value.map .ofBytes).getD w.loader.parameterValue).strlen

/-- One turn. -/
def step (w : Watched) : Watched where
  loader := w.loader.step
  valueSize :=
    match w.loader.control with
    | .lines => w.valueRead
    | .tokens _ => w.valueSize
    | .finished => w.valueSize
    | .raised => w.valueSize

/-- The writes of the next turn stay inside, and if the loops are left, the number of databases is
as it should be. -/
def Inside (done : Nat → Prop) (w : Watched) : Prop :=
  AllInside (StartBuffer.size 0) w.writes ∧
    match w.loader.control with
    | .lines => True
    | .tokens _ => True
    | .finished => done w.loader.config.dbCount
    | .raised => True

/-- The next turn gets on, and what it writes stays inside. -/
def GetsOn (w : Watched) : Prop :=
  w.loader.Progress ∧ AllInside (StartBuffer.size 0) w.writes

/-- Both loops finish, every turn of one gets on, and what it writes stays inside. -/
def Loads (w : Watched) : Prop :=
  Finishes step (fun w => w.loader.Ended) GetsOn w

end Watched

/-- Start-up with this file and these locals stays inside its buffers, those of `init_table`
included. -/
def StaysInside (file : List UInt8) (scratch : Scratch) : Prop :=
  ∀ n, (Watched.step^[n] ⟨initConfiguration file scratch, 0⟩).Inside TablesInside

/-! ## What fits -/

/-- How many tokens are passed: those before the first that is no number. -/
def passed (tokens : List (List UInt8)) : Nat :=
  (tokens.takeWhile fun token => (parseIntFromValueCorrectly token).isSome).length

/-- The delimiter that `strtok` overwrites is in the buffer. -/
def DelimiterFits (valueSize : Nat) (text : List UInt8) : Prop :=
  strtokBehind 32 text = [] ∨
    valueSize < redisConfigurationMaxvalue + (strtokBehind 32 text).length

/-- At most 16 pairs are passed, and `strtok` overwrites only what is in the buffer. -/
def SaveFits (value : CString) : Prop :=
  passed (tokensOf 32 value.bytes) / 2 ≤ 16 ∧
    ∀ j ≤ passed (tokensOf 32 value.bytes),
      DelimiterFits value.strlen ((strtokLeft 32)^[j] value.bytes)

/-- The fields of a line fit, where `parameter_value` holds `left`. -/
def FieldsFit (left : CString) (line : CString) : Prop :=
  match lineKind line with
  | .skipped => True
  | .blank => True
  | .fields name text =>
      let value := (text.map .ofBytes).getD left
      name.length < redisConfigurationMaxkey ∧
        (∀ bytes ∈ text, bytes.length < redisConfigurationMaxvalue) ∧
        ((CString.ofBytes name).bytes = ascii "bind" ∨
          (CString.ofBytes name).bytes = ascii "logfile" → value.strlen < 1024) ∧
        ((CString.ofBytes name).bytes = ascii "save" → SaveFits value)

/-- What `parameter_value` holds after a directive. -/
def leftBy (name value : CString) : CString :=
  if name.bytes = ascii "save" then .ofBytes (strtokHead 32 value.bytes) else value

/-- The number of databases after a directive. -/
def dbCountBy (name value : CString) (dbCount : Nat) : Nat :=
  if name.bytes = ascii "databases" then
    ((parseIntFromValueCorrectly value.bytes).map toUnsigned).getD dbCount
  else dbCount

/-- The loops get behind a directive: it is no `save` line with a token that is no number. -/
def Passes (name value : CString) : Prop :=
  name.bytes = ascii "save" →
    ∀ token ∈ tokensOf 32 value.bytes, (parseIntFromValueCorrectly token).isSome

/-- The number of databases fits `init_table`. -/
def TablesFit (dbCount : Nat) : Prop :=
  dbCount ≤ 100000 ∨ wrap32 dbCount < 0

/-- Each line that is read fits, and at the end of the file the number of databases is as it should
be: `left` and `dbCount` are what the lines before leave in `parameter_value` and in the
configuration. -/
def LinesFit (done : Nat → Prop) (left : CString) (dbCount : Nat) : List (List UInt8) → Prop
  | [] => done dbCount
  | text :: texts =>
      text.length < redisConfigurationMaxline ∧ FieldsFit left (.ofBytes text) ∧
        match lineKind (.ofBytes text) with
        | .skipped => LinesFit done left dbCount texts
        | .blank => True
        | .fields name text =>
            let value := (text.map .ofBytes).getD left
            Passes (.ofBytes name) value →
              LinesFit done (leftBy (.ofBytes name) value)
                (dbCountBy (.ofBytes name) value dbCount) texts

/-- A file fits. One that begins with a line feed is never read: its line is what `line` held. -/
def FileFits (file : List UInt8) (scratch : Scratch) : Prop :=
  if file.head? = some 10 then FieldsFit scratch.parameterValue scratch.line
  else LinesFit TablesFit scratch.parameterValue ProxyConfiguration.default.dbCount (textsOf file)

/-! ## A line -/

section Line

variable {s : Loader} {left line : CString} {valueSize : Nat} {text : List UInt8}

/-- What is done with a line is a matter of its kind. -/
theorem parseLine_kind (s : Loader) :
    (lineKind s.line = .skipped ∧ s.parseLine = s) ∨
      (lineKind s.line = .blank ∧ s.parseLine = { s with control := .raised }) ∨
      ∃ name text, lineKind s.line = .fields name text ∧
        s.parseLine = Loader.directive { s with
          parameterName := .ofBytes name
          parameterValue := (text.map .ofBytes).getD s.parameterValue } := by
  unfold lineKind
  rcases Loader.parseLine_cases s with ⟨hempty | hcomment, hparse⟩ | ⟨hskip, hfield, hparse⟩ |
    ⟨name, text, hskip, hfield, hparse⟩
  · exact .inl ⟨if_pos hempty, hparse⟩
  · exact .inl ⟨by rw [if_pos hcomment, ite_self], hparse⟩
  · obtain ⟨hempty, hcomment⟩ := not_or.mp hskip
    exact .inr (.inl ⟨by rw [if_neg hempty, if_neg hcomment, hfield], hparse⟩)
  · obtain ⟨hempty, hcomment⟩ := not_or.mp hskip
    exact .inr (.inr ⟨name, text, by rw [if_neg hempty, if_neg hcomment, hfield], hparse⟩)

theorem directive_line : s.directive.line = s.line := by
  by_cases hname : s.parameterName.bytes = ascii "save"
  · rw [Loader.directive_save hname]
    rfl
  · obtain ⟨config, hdirective⟩ := Loader.directive_frame hname
    rw [hdirective]

/-- The number of databases is what `databases` stores. -/
theorem directive_dbCount :
    s.directive.config.dbCount =
      dbCountBy s.parameterName s.parameterValue s.config.dbCount := by
  unfold dbCountBy
  by_cases hname : s.parameterName.bytes = ascii "databases"
  · rw [if_pos hname]
    have hdirective : s.directive = s.number fun n => { s.config with dbCount := n } := by
      simp [Loader.directive, hname, ascii]
    rw [hdirective, Loader.number]
    cases parseIntFromValueCorrectly s.parameterValue.bytes <;> rfl
  · rw [if_neg hname]
    have hsame : Settings.of s.directive.config .databases = Settings.of s.config .databases := by
      by_cases hnamed : ∃ p : Parameter, s.parameterName.bytes = p.name
      · obtain ⟨p, hp⟩ := hnamed
        have hne : Parameter.databases ≠ p := by
          rintro rfl
          exact hname hp
        rw [directive_named p hp, Function.update_of_ne hne]
      · rw [directive_other fun p hp => hnamed ⟨p, hp⟩]
    exact Int.ofNat.inj (Setting.number.inj hsame)

/-- The write of `strtok` stays inside exactly if the delimiter does. -/
theorem strtokWrites_inside :
    AllInside (StartBuffer.size 0) (strtokWrites valueSize text) ↔
      DelimiterFits valueSize text := by
  unfold strtokWrites DelimiterFits
  by_cases hbehind : strtokBehind 32 text = []
  · simp [hbehind]
  · have hpos := List.length_pos_of_ne_nil hbehind
    rw [if_neg hbehind, allInside_cons, or_iff_right hbehind]
    simp only [StartBuffer.size, redisConfigurationMaxvalue, allInside_nil, and_true]
    omega

/-- The writes of a directive stay inside exactly if a copy does, and what `strtok` overwrites. -/
theorem directiveWrites_inside {name value : CString} :
    AllInside (StartBuffer.size 0) (directiveWrites name value) ↔
      (name.bytes = ascii "bind" ∨ name.bytes = ascii "logfile" → value.strlen < 1024) ∧
        (name.bytes = ascii "save" → DelimiterFits value.strlen value.bytes) := by
  unfold directiveWrites
  split_ifs with hbind hlogfile hsave
  · have hother : ascii "bind" ≠ ascii "save" := by decide
    simp only [hbind, hother, allInside_cons, allInside_nil, StartBuffer.size, Nat.zero_add,
      Nat.add_one_le_iff, true_or, true_imp_iff, false_imp_iff, and_true]
  · have hother : ascii "logfile" ≠ ascii "save" := by decide
    simp only [hlogfile, hother, allInside_cons, allInside_nil, StartBuffer.size, Nat.zero_add,
      Nat.add_one_le_iff, or_true, true_imp_iff, false_imp_iff, and_true]
  · have hcopy := not_or.mpr ⟨hbind, hlogfile⟩
    rw [strtokWrites_inside]
    exact ⟨fun h => ⟨fun hname => absurd hname hcopy, fun _ => h⟩, fun h => h.2 hsave⟩
  · simp [hbind, hlogfile, hsave]

end Line

/-! ## The tokens of a `save` line -/

section Tokens

variable {w : Watched} {t : SaveLoop} {valueSize : Nat} {text token : List UInt8}
  {done : Nat → Prop}

/-- What is to come of the loop over the tokens fits. -/
def SaveLoop.Fits (t : SaveLoop) (valueSize : Nat) : Prop :=
  (∀ j < (passed t.ahead + if t.isCurTime then 0 else 1) / 2, t.saveData.length + j < 16) ∧
    ∀ j < passed t.ahead, DelimiterFits valueSize ((strtokLeft 32)^[j] t.left)

theorem left_nextToken (t : SaveLoop) (text : List UInt8) :
    (Loader.nextToken t text).left = strtokLeft 32 text := by
  rw [← strtok_left, Loader.nextToken]
  cases strtok 32 text <;> rfl

/-- Where no token is passed, nothing more is written. -/
theorem fits_of_passed (hnone : passed t.ahead = 0) : t.Fits valueSize := by
  refine ⟨fun j hj => ?_, fun j hj => ?_⟩
  · rw [hnone] at hj
    split_ifs at hj <;> omega
  · omega

/-- A value of a `save` line fits if the first call of `strtok` does, and the loop behind it. -/
theorem saveFits_iff (value : CString) :
    SaveFits value ↔ DelimiterFits value.strlen value.bytes ∧
      (Loader.nextToken ⟨none, [], true, 0, []⟩ value.bytes).Fits value.strlen := by
  rw [SaveFits, SaveLoop.Fits, Loader.ahead_nextToken, left_nextToken, Loader.saveData_nextToken,
    Loader.isCurTime_nextToken]
  have hpairs : (∀ j < passed (tokensOf 32 value.bytes) / 2, j < 16) ↔
      passed (tokensOf 32 value.bytes) / 2 ≤ 16 := by
    constructor
    · intro h
      by_contra hmany
      exact absurd (h 16 (Nat.lt_of_not_le hmany)) (lt_irrefl 16)
    · intro h j hj
      omega
  simp only [if_true, Nat.add_zero, List.length_nil, Nat.zero_add, hpairs]
  constructor
  · rintro ⟨hpair, hdelimiters⟩
    exact ⟨hdelimiters 0 (Nat.zero_le _), hpair, fun j hj => hdelimiters (j + 1) hj⟩
  · rintro ⟨hfirst, hpair, hbehind⟩
    refine ⟨hpair, fun j hj => ?_⟩
    cases j with
    | zero => exact hfirst
    | succ j => exact hbehind j hj

/-- A token that is passed fits if its writes do, and then what is behind it. -/
theorem fits_step {value : Int} (htoken : t.token = some token)
    (hparse : parseIntFromValueCorrectly token = some value) :
    t.Fits valueSize ↔ AllInside (StartBuffer.size 0) (t.writes valueSize) ∧
      (Loader.nextToken (t.put value) t.left).Fits valueSize := by
  have hahead : passed t.ahead = passed (tokensOf 32 t.left) + 1 := by
    simp [SaveLoop.ahead, htoken, passed, hparse]
  have hdelimiters : (∀ j < passed (tokensOf 32 t.left) + 1,
        DelimiterFits valueSize ((strtokLeft 32)^[j] t.left)) ↔
      DelimiterFits valueSize t.left ∧ ∀ j < passed (tokensOf 32 t.left),
        DelimiterFits valueSize ((strtokLeft 32)^[j] (strtokLeft 32 t.left)) :=
    Nat.forall_lt_succ_left
  rw [SaveLoop.Fits, SaveLoop.Fits, Loader.ahead_nextToken, left_nextToken,
    Loader.saveData_nextToken, Loader.isCurTime_nextToken, hahead, hdelimiters, SaveLoop.writes,
    htoken]
  simp only [hparse, allInside_append, strtokWrites_inside]
  cases htime : t.isCurTime with
  | true => simp [SaveLoop.put, htime, and_left_comm]
  | false =>
      have hhalf : (passed (tokensOf 32 t.left) + 1 + 1) / 2 =
          passed (tokensOf 32 t.left) / 2 + 1 := by omega
      have hpairs : (∀ j < passed (tokensOf 32 t.left) / 2 + 1, t.saveData.length + j < 16) ↔
          t.saveData.length < 16 ∧
            ∀ j < passed (tokensOf 32 t.left) / 2, t.saveData.length + 1 + j < 16 := by
        rw [Nat.forall_lt_succ_left]
        simp only [Nat.add_zero, Nat.add_assoc, Nat.add_comm 1]
      simp only [Bool.false_eq_true, if_false, hhalf, hpairs, SaveLoop.put, htime, if_true,
        List.length_append, List.length_singleton, Nat.add_zero, allInside_cons, allInside_nil,
        StartBuffer.size, Nat.add_one_le_iff, and_true]
      tauto

/-- A loop over tokens that stays inside fits. -/
theorem tokens_inside (hcontrol : w.loader.control = .tokens t)
    (hinside : ∀ n, (Watched.step^[n] w).Inside done) : t.Fits w.valueSize := by
  induction htokens : t.ahead generalizing w t with
  | nil => exact fits_of_passed (by rw [htokens]; rfl)
  | cons first tokens ih =>
      rcases Loader.step_tokens hcontrol with ⟨htoken, -⟩ | ⟨token, htoken, hparse, -⟩ |
        ⟨token, value, htoken, hparse, hstep⟩
      · simp [SaveLoop.ahead, htoken] at htokens
      · exact fits_of_passed (by simp [SaveLoop.ahead, htoken, passed, hparse])
      · have hahead := Loader.ahead_of_token htoken
        have hnext : w.step.loader.control = .tokens (Loader.nextToken (t.put value) t.left) := by
          show w.loader.step.control = _
          rw [hstep]
        have hsize : w.step.valueSize = w.valueSize := by
          simp only [Watched.step, hcontrol]
        have hfits := ih hnext (fun n => hinside (n + 1)) (by
          rw [Loader.ahead_nextToken]
          exact (List.cons.inj (hahead.symm.trans htokens)).2)
        rw [hsize] at hfits
        have hnow := (hinside 0).1
        simp only [Function.iterate_zero, id_eq, Watched.writes, hcontrol] at hnow
        exact (fits_step htoken hparse).mpr ⟨hnow, hfits⟩

end Tokens

/-! ## The rest of the file -/

section Rest

variable {s : Loader} {w : Watched} {left line : CString} {done : Nat → Prop}

/-- What is left of a file fits. -/
def RestFits (done : Nat → Prop) (input : List UInt8) (line left : CString) (dbCount : Nat) :
    Prop :=
  if input.head? = some 10 then FieldsFit left line
  else LinesFit done left dbCount (textsOf input)

/-- What is to come fits. -/
def Watched.Fits (done : Nat → Prop) (w : Watched) : Prop :=
  match w.loader.control with
  | .lines =>
      RestFits done w.loader.input w.loader.line w.loader.parameterValue w.loader.config.dbCount
  | .tokens t =>
      t.Fits w.valueSize ∧ ((∀ token ∈ t.ahead, (parseIntFromValueCorrectly token).isSome) →
        RestFits done w.loader.input w.loader.line w.loader.parameterValue w.loader.config.dbCount)
  | .finished => done w.loader.config.dbCount
  | .raised => True

/-- The writes of `sscanf` and of the directive stay inside exactly if all fits but the tokens. -/
theorem fieldWrites_inside {name : List UInt8} {text : Option (List UInt8)}
    (hkind : lineKind line = .fields name text) :
    AllInside (StartBuffer.size 0) (fieldWrites left line) ↔
      name.length < redisConfigurationMaxkey ∧
        (∀ bytes ∈ text, bytes.length < redisConfigurationMaxvalue) ∧
        AllInside (StartBuffer.size 0)
          (directiveWrites (.ofBytes name) ((text.map .ofBytes).getD left)) := by
  rw [fieldWrites, hkind]
  simp only [List.cons_append, allInside_cons, allInside_append, StartBuffer.size, Nat.zero_add,
    Nat.add_one_le_iff]
  cases text with
  | none => simp
  | some bytes =>
      simp only [Option.map_some, Option.toList_some, allInside_cons, allInside_nil, and_true,
        StartBuffer.size, Nat.zero_add, Nat.add_one_le_iff, Option.mem_def, Option.some_inj,
        forall_eq']

/-- A line and what is behind it fit if the writes of this line stay inside, and then what is to
come behind it fits. -/
theorem parseLine_fits (hcontrol : s.control = .lines) {valueSize : Nat}
    (hsize : ∀ name text, lineKind s.line = .fields name text →
      valueSize = ((text.map .ofBytes).getD s.parameterValue).strlen) :
    (FieldsFit s.parameterValue s.line ∧
      match lineKind s.line with
      | .skipped => RestFits done s.input s.line s.parameterValue s.config.dbCount
      | .blank => True
      | .fields name text =>
          let value := (text.map .ofBytes).getD s.parameterValue
          Passes (.ofBytes name) value →
            RestFits done s.input s.line (leftBy (.ofBytes name) value)
              (dbCountBy (.ofBytes name) value s.config.dbCount)) ↔
      AllInside (StartBuffer.size 0) (fieldWrites s.parameterValue s.line) ∧
        (Watched.mk s.parseLine valueSize).Fits done := by
  rcases parseLine_kind s with ⟨hkind, hparse⟩ | ⟨hkind, hparse⟩ | ⟨name, text, hkind, hparse⟩
  · simp only [FieldsFit, fieldWrites, hkind, hparse, Watched.Fits, hcontrol, allInside_nil]
  · simp only [FieldsFit, fieldWrites, hkind, hparse, Watched.Fits, allInside_nil]
  · obtain rfl := hsize name text hkind
    set value := (text.map CString.ofBytes).getD s.parameterValue with hvalue
    set s₁ : Loader := { s with parameterName := .ofBytes name, parameterValue := value }
    have hcontrol₁ : s₁.control = .lines := hcontrol
    rw [fieldWrites_inside hkind, directiveWrites_inside, FieldsFit, hkind, hparse]
    simp only [← hvalue]
    obtain ⟨hinput, ⟨hname, hsave⟩ | ⟨hname, hlines, hleft⟩⟩ := Loader.directive_cases hcontrol₁
    · have hname₁ : (CString.ofBytes name).bytes = ascii "save" := hname
      have hdbCount : dbCountBy (.ofBytes name) value s.config.dbCount = s.config.dbCount := by
        refine if_neg ?_
        rw [hname₁]
        decide
      rw [hsave]
      simp only [Watched.Fits, Loader.save, hname₁, hdbCount, true_imp_iff, saveFits_iff,
        Loader.ahead_nextToken, Passes, leftBy, if_true]
      tauto
    · have hname₁ : (CString.ofBytes name).bytes ≠ ascii "save" := hname
      have hdbCount : s₁.directive.config.dbCount =
          dbCountBy (.ofBytes name) value s.config.dbCount := directive_dbCount
      simp only [Watched.Fits, hlines, hinput, directive_line, hdbCount, hleft, hname₁,
        Passes, leftBy, if_false, false_imp_iff, true_imp_iff, and_true]
      exact Iff.rfl

/-- What a `save` line leaves in `parameter_value` fits as the value of another one: it has one
token at most. -/
theorem saveFits_head (value : CString) :
    SaveFits (.ofBytes (strtokHead 32 value.bytes)) := by
  have hnoNul : ∀ c ∈ strtokHead 32 value.bytes, decide (c ≠ 0) = true := by
    intro c hc
    rw [decide_eq_true_eq]
    rintro rfl
    rcases List.mem_append.mp hc with hc | hc
    · exact value.noNul ((List.takeWhile_prefix _).subset hc)
    · exact value.noNul ((List.dropWhile_suffix _).subset ((List.takeWhile_prefix _).subset hc))
  have hhead : (CString.ofBytes (strtokHead 32 value.bytes)).bytes = strtokHead 32 value.bytes :=
    List.takeWhile_eq_self_iff.mpr hnoNul
  have hbehind := strtokBehind_head 32 value.bytes
  have hleft : strtokLeft 32 (strtokHead 32 value.bytes) = [] := by
    rw [strtokLeft, hbehind]
    rfl
  have hpassed : passed (tokensOf 32 (strtokHead 32 value.bytes)) ≤ 1 := by
    cases hstrtok : strtok 32 (strtokHead 32 value.bytes) with
    | none =>
        rw [tokensOf_none hstrtok]
        exact Nat.zero_le 1
    | some next =>
        have hnext : next.2 = [] := by
          rw [← hleft, ← strtok_left, hstrtok]
        have hend : tokensOf 32 [] = [] := tokensOf_none rfl
        rw [tokensOf_some hstrtok, hnext, hend]
        exact (List.takeWhile_prefix _).length_le
  rw [SaveFits, hhead]
  refine ⟨by omega, fun j hj => .inl ?_⟩
  rcases Nat.le_one_iff_eq_zero_or_eq_one.mp (hj.trans hpassed) with rfl | rfl
  · exact hbehind
  · rw [Function.iterate_one, hleft]
    rfl

/-- A line that is read again fits again. -/
theorem fieldsFit_next {name : List UInt8} {text : Option (List UInt8)}
    (hkind : lineKind line = .fields name text) (hfit : FieldsFit left line) :
    FieldsFit (leftBy (.ofBytes name) ((text.map .ofBytes).getD left)) line := by
  rw [FieldsFit, hkind] at hfit ⊢
  obtain ⟨hname, htext, hcopy, hsave⟩ := hfit
  refine ⟨hname, htext, ?_⟩
  cases text with
  | some bytes => exact ⟨hcopy, hsave⟩
  | none =>
      by_cases hsaves : (CString.ofBytes name).bytes = ascii "save"
      · have hother : ¬ ((CString.ofBytes name).bytes = ascii "bind" ∨
            (CString.ofBytes name).bytes = ascii "logfile") := by
          rw [hsaves]
          decide
        refine ⟨fun h => absurd h hother, fun _ => ?_⟩
        rw [leftBy, if_pos hsaves]
        exact saveFits_head _
      · rw [leftBy, if_neg hsaves]
        exact ⟨hcopy, hsave⟩

end Rest

/-! ## One turn -/

section Turn

variable {w : Watched} {t : SaveLoop} {done : Nat → Prop}

/-- At a token, what is to come fits if the writes of the turn stay inside, and then what is to come
behind it fits. -/
theorem tokens_fits (hcontrol : w.loader.control = .tokens t) :
    w.Fits done ↔ w.Inside done ∧ w.step.Fits done := by
  have hwrites : w.writes = t.writes w.valueSize := by simp only [Watched.writes, hcontrol]
  have hinside : w.Inside done ↔ AllInside (StartBuffer.size 0) (t.writes w.valueSize) := by
    rw [Watched.Inside, hwrites, hcontrol]
    exact and_iff_left trivial
  have hstep : w.step = ⟨w.loader.step, w.valueSize⟩ := by
    simp only [Watched.step, hcontrol]
  rw [hinside, hstep]
  simp only [Watched.Fits, hcontrol]
  rcases Loader.step_tokens hcontrol with ⟨htoken, hloader⟩ | ⟨token, htoken, hparse, hloader⟩ |
    ⟨token, value, htoken, hparse, hloader⟩
  · have hahead : t.ahead = [] := by simp [SaveLoop.ahead, htoken]
    have hfits : t.Fits w.valueSize := fits_of_passed (by simp [hahead, passed])
    simp [hloader, hahead, hfits, SaveLoop.writes, htoken]
  · have hahead := Loader.ahead_of_token htoken
    have hfits : t.Fits w.valueSize := fits_of_passed (by simp [hahead, passed, hparse])
    simp [hloader, hcontrol, hahead, hparse, hfits, SaveLoop.writes, htoken]
  · have hahead := Loader.ahead_of_token htoken
    rw [fits_step htoken hparse, hloader, hahead, List.forall_mem_cons, hparse]
    simp only [Loader.ahead_nextToken, Option.isSome_some, true_and, and_assoc]

/-- At a line, what is to come fits if the writes of the turn stay inside, and then what is to come
behind it fits. -/
theorem lines_fits (hcontrol : w.loader.control = .lines) (hhead : w.loader.input.head? ≠ some 10) :
    w.Fits done ↔ w.Inside done ∧ w.step.Fits done := by
  have hinside : w.Inside done ↔ AllInside (StartBuffer.size 0) w.writes := by
    rw [Watched.Inside, hcontrol]
    exact and_iff_left trivial
  have hstep : w.step = ⟨w.loader.step, w.valueRead⟩ := by
    simp only [Watched.step, hcontrol]
  have hfits : w.Fits done ↔ LinesFit done w.loader.parameterValue w.loader.config.dbCount
      (textsOf w.loader.input) := by
    simp only [Watched.Fits, hcontrol, RestFits, if_neg hhead]
  rw [hinside, hstep, hfits]
  rcases Loader.step_lines hcontrol with ⟨hinput, hloader⟩ | ⟨hstuck, -⟩ |
    ⟨text, rest, hscan, hloader⟩
  · have hwrites : w.writes = [] := by
      simp only [Watched.writes, hcontrol, scanLine_eq_eof.mpr hinput]
    simp [Watched.Fits, hwrites, hloader, hinput, LinesFit]
  · exact absurd hstuck hhead
  · have hrest : rest.head? ≠ some 10 := by
      intro h
      cases (scanLine_eq_line hscan).2 10 h
    set s : Loader := { w.loader with input := rest, line := .ofBytes text } with hs
    have hread : w.lineRead = s.line := by simp only [Watched.lineRead, hscan, hs]
    have hsize : ∀ name fields, lineKind s.line = .fields name fields →
        w.valueRead = ((fields.map .ofBytes).getD s.parameterValue).strlen := by
      intro name fields hkind
      simp only [Watched.valueRead, hread, hkind]
      rfl
    have hlines : s.control = .lines := hcontrol
    have hparse := @parseLine_fits s done hlines w.valueRead hsize
    have hwrites : w.writes =
        ⟨.line, 0, text.length + 1⟩ :: fieldWrites s.parameterValue s.line := by
      simp only [Watched.writes, hcontrol, hscan, hs]
    have hline : 0 + (text.length + 1) ≤ StartBuffer.size 0 .line ↔
        text.length < redisConfigurationMaxline := by
      rw [Nat.zero_add]
      exact Nat.add_one_le_iff
    rw [hwrites, allInside_cons, hline, hloader, and_assoc, ← hparse, textsOf_line hscan, LinesFit]
    simp only [RestFits, hs, if_neg hrest]

/-- What the turns do where the file begins with a line feed. -/
theorem stuck_step (hcontrol : w.loader.control = .lines)
    (hhead : w.loader.input.head? = some 10) :
    w.writes = fieldWrites w.loader.parameterValue w.loader.line ∧
      w.step = ⟨w.loader.parseLine, w.valueRead⟩ ∧
      ∀ name text, lineKind w.loader.line = .fields name text →
        w.valueRead = ((text.map .ofBytes).getD w.loader.parameterValue).strlen := by
  have hscan : scanLine w.loader.input = .noMatch := scanLine_eq_noMatch.mpr hhead
  refine ⟨by simp only [Watched.writes, hcontrol, hscan], ?_, fun name text hkind => ?_⟩
  · simp only [Watched.step, Loader.step, Loader.lineTurn, hcontrol, hscan]
  · simp only [Watched.valueRead, Watched.lineRead, hscan, hkind]

/-- Where the file begins with a line feed, the line that is looked at fits again and again. -/
theorem stuck_keeps (hcontrol : w.loader.control = .lines)
    (hhead : w.loader.input.head? = some 10) (hfits : w.Fits done) :
    w.Inside done ∧ w.step.Fits done := by
  obtain ⟨hwrites, hstep, hsize⟩ := stuck_step hcontrol hhead
  have hagain : ∀ left dbCount,
      RestFits done w.loader.input w.loader.line left dbCount ↔ FieldsFit left w.loader.line := by
    intro left dbCount
    rw [RestFits, if_pos hhead]
  have hfields : FieldsFit w.loader.parameterValue w.loader.line := by
    simp only [Watched.Fits, hcontrol] at hfits
    exact (hagain _ _).mp hfits
  rw [Watched.Inside, hwrites, hcontrol, and_iff_left trivial, hstep]
  refine (parseLine_fits hcontrol hsize).mp ⟨hfields, ?_⟩
  cases hkind : lineKind w.loader.line with
  | skipped => exact (hagain _ _).mpr hfields
  | blank => trivial
  | fields name text => exact fun _ => (hagain _ _).mpr (fieldsFit_next hkind hfields)

/-- Where the file begins with a line feed, the line that is looked at fits if everything that is
written stays inside. -/
theorem stuck_fits (hcontrol : w.loader.control = .lines)
    (hhead : w.loader.input.head? = some 10) (hinside : ∀ n, (Watched.step^[n] w).Inside done) :
    w.Fits done := by
  obtain ⟨hwrites, hstep, hsize⟩ := stuck_step hcontrol hhead
  have hnow := (hinside 0).1
  simp only [Function.iterate_zero, id_eq, hwrites] at hnow
  simp only [Watched.Fits, hcontrol, RestFits, if_pos hhead, FieldsFit]
  cases hkind : lineKind w.loader.line with
  | skipped => trivial
  | blank => trivial
  | fields name text =>
      rw [fieldWrites_inside hkind, directiveWrites_inside] at hnow
      obtain ⟨hname, htext, hcopy, hdelimiter⟩ := hnow
      refine ⟨hname, htext, hcopy, fun hsave => (saveFits_iff _).mpr ⟨hdelimiter hsave, ?_⟩⟩
      -- the tokens are those of the loop that the next turn enters
      have htokens : w.step.loader.control = .tokens (Loader.nextToken ⟨none, [], true, 0, []⟩
          ((text.map CString.ofBytes).getD w.loader.parameterValue).bytes) := by
        rw [hstep]
        rcases parseLine_kind w.loader with ⟨hkind', -⟩ | ⟨hkind', -⟩ |
          ⟨name', text', hkind', hparse⟩
        · simp [hkind] at hkind'
        · simp [hkind] at hkind'
        · rw [hkind] at hkind'
          cases hkind'
          simp only [hparse]
          rw [Loader.directive_save hsave]
          rfl
      have hloop := tokens_inside htokens fun n => hinside (n + 1)
      rwa [hstep, hsize name text hkind] at hloop

end Turn

/-! ## The whole of start-up -/

/-- Watching changes nothing. -/
theorem watched_loader (w : Watched) (n : Nat) :
    (Watched.step^[n] w).loader = Loader.step^[n] w.loader := by
  induction n generalizing w with
  | zero => rfl
  | succ n ih => exact ih w.step

/-- How far the loops of a watched run are from their end. -/
def Watched.remaining (w : Watched) : Nat ×ₗ Nat :=
  w.loader.remaining

/-- The rest of a run stays inside exactly if what is to come fits. -/
theorem watched_inside_iff (done : Nat → Prop) (w : Watched) :
    (∀ n, (Watched.step^[n] w).Inside done) ↔ w.Fits done := by
  refine throughout_iff (InvImage.wf Watched.remaining wellFounded_lt) (fun w hfits => ?_)
    fun w hinside hrest => ?_
  · cases hcontrol : w.loader.control with
    | lines =>
        by_cases hhead : w.loader.input.head? = some 10
        · exact stuck_keeps hcontrol hhead hfits
        · exact (lines_fits hcontrol hhead).mp hfits
    | tokens t => exact (tokens_fits hcontrol).mp hfits
    | finished =>
        have hstep : w.step = w := by simp only [Watched.step, Loader.step, hcontrol]
        rw [hstep]
        refine ⟨?_, hfits⟩
        simp only [Watched.Fits, hcontrol] at hfits
        simp only [Watched.Inside, Watched.writes, hcontrol, allInside_nil, true_and]
        exact hfits
    | raised =>
        have hstep : w.step = w := by simp only [Watched.step, Loader.step, hcontrol]
        rw [hstep]
        refine ⟨?_, hfits⟩
        simp only [Watched.Inside, Watched.writes, hcontrol, allInside_nil, true_and]
  · have hnow : w.Inside done := hinside 0
    cases hcontrol : w.loader.control with
    | lines =>
        by_cases hhead : w.loader.input.head? = some 10
        · exact stuck_fits hcontrol hhead hinside
        · refine (lines_fits hcontrol hhead).mpr ⟨hnow, hrest ?_⟩
          exact ((Loader.lines_step hcontrol).2 (Loader.lines_progress hcontrol hhead)).2
    | tokens t =>
        by_cases hpass : ∀ token ∈ t.token, (parseIntFromValueCorrectly token).isSome
        · refine (tokens_fits hcontrol).mpr ⟨hnow, hrest ?_⟩
          exact ((Loader.tokens_step hcontrol).2 (Loader.tokens_progress hcontrol hpass)).2
        · -- the loop stays at the token, and what is behind it is never read
          obtain ⟨token, htoken, hparse⟩ :
              ∃ token, t.token = some token ∧ parseIntFromValueCorrectly token = none := by
            simpa using hpass
          have hahead := Loader.ahead_of_token htoken
          simp only [Watched.Fits, hcontrol]
          refine ⟨fits_of_passed (by simp [hahead, passed, hparse]), fun hall => ?_⟩
          have hfirst := hall token (by rw [hahead]; exact List.mem_cons_self)
          rw [hparse] at hfirst
          cases hfirst
    | finished =>
        simp only [Watched.Inside, hcontrol] at hnow
        simp only [Watched.Fits, hcontrol]
        exact hnow.2
    | raised => simp only [Watched.Fits, hcontrol]

/-- Whatever the file contains and the locals were: start-up stays inside its buffers, whatever the
database answers, if and only if the file fits. -/
theorem stays_inside_iff (file : List UInt8) (scratch : Scratch) :
    StaysInside file scratch ↔ FileFits file scratch := by
  have htables : TablesInside = TablesFit :=
    funext fun dbCount => propext (tables_inside_iff dbCount)
  rw [StaysInside, htables]
  exact watched_inside_iff TablesFit _

/-- Where both loops finish with progress in every turn, and everything they write stays inside,
they do so in the sense of both. -/
theorem watched_loads_iff (w : Watched) :
    w.Loads ↔ w.loader.Loads ∧ ∀ n, (Watched.step^[n] w).Inside fun _ => True := by
  have hended : ∀ n, (Watched.step^[n] w).loader.Ended ↔ (Loader.step^[n] w.loader).Ended :=
    fun n => by rw [watched_loader]
  constructor
  · rintro ⟨⟨n, hn⟩, hprogress⟩
    refine ⟨⟨⟨n, (hended n).mp hn⟩, fun m hm => ?_⟩, fun m => ?_⟩
    · have hgets := (hprogress m fun h => hm ((hended m).mp h)).1
      rwa [watched_loader] at hgets
    · set v := Watched.step^[m] w with hv
      by_cases hrunning : v.loader.Ended
      · unfold Loader.Ended at hrunning
        cases hcontrol : v.loader.control with
        | lines | tokens t => simp [hcontrol] at hrunning
        | finished | raised => simp [Watched.Inside, Watched.writes, hcontrol]
      · have hinside := (hprogress m hrunning).2
        refine ⟨hinside, ?_⟩
        cases v.loader.control <;> trivial
  · rintro ⟨⟨⟨n, hn⟩, hprogress⟩, hinside⟩
    refine ⟨⟨n, (hended n).mpr hn⟩, fun m hm => ⟨?_, (hinside m).1⟩⟩
    rw [watched_loader]
    exact hprogress m fun h => hm ((hended m).mpr h)

/-- Whatever the file contains and the locals were: both loops finish, each turn gets on, and what
it writes stays inside its buffers, if and only if the file does not begin with a line feed, every
token of every `save` line is a number, and every line that is read fits. -/
theorem loads_iff (file : List UInt8) (scratch : Scratch) :
    (Watched.mk (initConfiguration file scratch) 0).Loads ↔
      file.head? ≠ some 10 ∧ SavesParse scratch.parameterValue (linesOf file) ∧
        LinesFit (fun _ => True) scratch.parameterValue ProxyConfiguration.default.dbCount
          (textsOf file) := by
  rw [watched_loads_iff, watched_inside_iff, Loader.loads_iff_passable]
  show (file.head? ≠ some 10 ∧ SavesParse scratch.parameterValue (linesOf file)) ∧
    RestFits (fun _ => True) file scratch.line scratch.parameterValue
      ProxyConfiguration.default.dbCount ↔ _
  rw [and_assoc]
  refine and_congr_right fun hhead => and_congr_right fun _ => ?_
  rw [RestFits, if_neg hhead]

/-- The line `save ""` is never left: its token is no number, and is looked at again and again. -/
theorem empty_save_hangs :
    ¬ (Watched.mk (initConfiguration (ascii "save \"\"\n") .empty) 0).Loads ∧
      ∀ n, ¬ (Loader.step^[n] (initConfiguration (ascii "save \"\"\n") .empty)).Ended := by
  have hstuck : (initConfiguration (ascii "save \"\"\n") .empty).step.step =
      (initConfiguration (ascii "save \"\"\n") .empty).step := rfl
  have hends : ∀ n, ¬ (Loader.step^[n] (initConfiguration (ascii "save \"\"\n") .empty)).Ended := by
    intro n
    cases n with
    | zero => exact id
    | succ n =>
        rw [Function.iterate_succ_apply, Function.iterate_fixed hstuck]
        exact id
  refine ⟨fun h => h.ends.elim fun n hn => hends n ?_, hends⟩
  rwa [watched_loader] at hn

/-- Start-up writes behind `line` if a line has 512 bytes, and behind the name of a table if there
are 200000 databases. -/
theorem long_line_overruns :
    ¬ StaysInside (List.replicate 512 97) .empty ∧
      ¬ StaysInside (ascii "databases 200000\n") .empty := by
  constructor
  · intro hinside
    have hkeep : ∀ c ∈ List.replicate 511 (97 : UInt8), decide (c ≠ 10) = true := by
      intro c hc
      rw [List.eq_of_mem_replicate hc]
      rfl
    have hscan : scanLine (List.replicate 512 97) = .line (List.replicate 512 97) [] := by
      rw [List.replicate_succ, scanLine, if_neg (by decide), List.takeWhile_eq_self_iff.mpr hkeep,
        List.dropWhile_eq_nil_iff.mpr hkeep]
      rfl
    have hwrites := (hinside 0).1
    simp only [Function.iterate_zero, id_eq, Watched.writes, initConfiguration, hscan,
      allInside_cons, List.length_replicate] at hwrites
    exact absurd hwrites.1 (by decide)
  · intro hinside
    have htables : TablesInside 200000 := (hinside 2).2
    have hfew := (tables_inside_iff 200000).mp htables
    revert hfew
    decide

end PgRedisProxy
