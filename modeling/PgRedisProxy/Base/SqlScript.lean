import Mathlib.Data.List.SplitBy
import PgRedisProxy.Base.Runs
import PgRedisProxy.Base.SqlText

/-!
# SQL scripts and transaction blocks

A script is the texts of some statements, one after the other. `readScript` reads a text
as PostgreSQL does, which looks for separators outside of literals only;
`readScript_plain_iff` says that the plain texts of statements are read as them exactly
if no literal holds a quote. `Backend.query` executes the statements that are read, with
transaction blocks: `query_block` says that a block is committed as a whole or not at all.
-/

namespace SqlText

variable {α : Type*}

/-- A character of SQL text, or a literal. -/
inductive Token (α : Type*) where
  | char (c : α)
  | literal (content : List α)
  deriving DecidableEq

namespace Token

/-- The text of a token, with a literal between quotes. -/
def plain (quote : α) : Token α → List α
  | char c => [c]
  | literal content => quote :: content ++ [quote]

/-- The character, unless the token is a literal. -/
def char? : Token α → Option α
  | char c => some c
  | literal _ => none

end Token

namespace Statement

/-- The tokens of a statement. -/
def tokens (s : Statement α) : List (Token α) :=
  s.head.map .char ++ s.tail.flatMap fun part => .literal part.1 :: part.2.map .char

/-- The statement with these tokens. -/
def ofTokens : List (Token α) → Statement α
  | [] => ⟨[], []⟩
  | .char c :: ts => ⟨c :: (ofTokens ts).head, (ofTokens ts).tail⟩
  | .literal content :: ts => ⟨[], (content, (ofTokens ts).head) :: (ofTokens ts).tail⟩

/-- Statements one after the other, as a single one. -/
def join (ss : List (Statement α)) : Statement α :=
  ofTokens (ss.flatMap tokens)

end Statement

/-- The statements that a text is read as: a separator outside of the literals ends each of them. -/
def readScript [DecidableEq α] (quote separator : α) (text : List α) :
    Option (List (Statement α)) :=
  (readStatement quote text).map fun s =>
    (s.tokens.splitBy fun t _ => t ≠ .char separator).map Statement.ofTokens

/-! ## Statements and their tokens -/

namespace Statement

theorem ofTokens_chars (text : List α) (ts : List (Token α)) :
    ofTokens (text.map .char ++ ts) = ⟨text ++ (ofTokens ts).head, (ofTokens ts).tail⟩ := by
  induction text with
  | nil => rfl
  | cons c text ih => simp [ofTokens, ih]

theorem ofTokens_tokens (s : Statement α) : ofTokens s.tokens = s := by
  have htail : ∀ tail : List (List α × List α),
      ofTokens (tail.flatMap fun part => .literal part.1 :: part.2.map .char) = ⟨[], tail⟩ := by
    intro tail
    induction tail with
    | nil => rfl
    | cons part tail ih => simp [ofTokens, ofTokens_chars, ih]
  rw [tokens, ofTokens_chars, htail, List.append_nil]

theorem tokens_ofTokens (ts : List (Token α)) : (ofTokens ts).tokens = ts := by
  induction ts with
  | nil => rfl
  | cons t ts ih =>
      cases t with
      | char c =>
          refine Eq.trans ?_ (congrArg (Token.char c :: ·) ih)
          simp [ofTokens, tokens]
      | literal content =>
          refine Eq.trans ?_ (congrArg (Token.literal content :: ·) ih)
          simp [ofTokens, tokens]

theorem plain_eq (quote : α) (s : Statement α) :
    s.plain quote = s.tokens.flatMap (Token.plain quote) := by
  have hchars : ∀ text : List α, (text.map Token.char).flatMap (Token.plain quote) = text := by
    intro text
    induction text with
    | nil => rfl
    | cons c text ih => simp [Token.plain, ih]
  rw [plain, tokens, List.flatMap_append, hchars, List.flatMap_assoc]
  congr 2
  funext part
  simp [Token.plain, hchars]

/-- The text of statements one after the other. -/
theorem plain_join (quote : α) (ss : List (Statement α)) :
    (join ss).plain quote = ss.flatMap (plain quote) := by
  rw [plain_eq, join, tokens_ofTokens, List.flatMap_assoc]
  congr 1
  funext s
  rw [plain_eq]

theorem sql_eq (s : Statement α) : s.sql = s.tokens.filterMap Token.char? := by
  have hchars : ∀ text : List α, (text.map Token.char).filterMap Token.char? = text := by
    intro text
    induction text with
    | nil => rfl
    | cons c text ih => simp [Token.char?, ih]
  have hpart : ∀ part : List α × List α,
      (Token.literal part.1 :: part.2.map Token.char).filterMap Token.char? = part.2 :=
    fun part => hchars part.2
  rw [sql, tokens, List.filterMap_append, hchars, List.filterMap_flatMap]
  simp only [hpart]

end Statement

/-! ## The shape of the tokens -/

/-- No character is a quote, and one stands behind each literal. -/
inductive Spaced (quote : α) : List (Token α) → Prop
  | nil : Spaced quote []
  | char {c : α} {ts : List (Token α)} : c ≠ quote → Spaced quote ts → Spaced quote (.char c :: ts)
  | literal {content : List α} {c : α} {ts : List (Token α)} :
      Spaced quote (.char c :: ts) → Spaced quote (.literal content :: .char c :: ts)

section Spaced

variable {quote separator : α} {ts : List (Token α)} {s : Statement α}

theorem Spaced.append (h : Spaced quote ts) {ts' : List (Token α)} (h' : Spaced quote ts') :
    Spaced quote (ts ++ ts') := by
  induction h with
  | nil => exact h'
  | char hc _ ih => exact .char hc ih
  | literal _ ih => exact .literal ih

theorem Spaced.chars {text : List α} (htext : quote ∉ text) (h : Spaced quote ts) :
    Spaced quote (text.map .char ++ ts) := by
  induction text with
  | nil => exact h
  | cons c text ih =>
      rw [List.mem_cons, not_or] at htext
      exact .char (Ne.symm htext.1) (ih htext.2)

/-- Behind anything a character comes last. -/
theorem Spaced.last (h : Spaced quote ts) (hne : ts ≠ []) :
    ∃ init c, ts = init ++ [Token.char c] := by
  induction h with
  | nil => exact absurd rfl hne
  | @char c ts _ _ ih =>
      by_cases hnil : ts = []
      · exact ⟨[], c, by rw [hnil]; rfl⟩
      · obtain ⟨init, c', rfl⟩ := ih hnil
        exact ⟨.char c :: init, c', rfl⟩
  | @literal content c ts _ ih =>
      obtain ⟨init, c', heq⟩ := ih (by simp)
      exact ⟨.literal content :: init, c', by rw [heq]; rfl⟩

theorem Statement.WellShaped.spaced (hs : s.WellShaped quote) : Spaced quote s.tokens := by
  have htail : ∀ tail : List (List α × List α), (∀ part ∈ tail, quote ∉ part.2 ∧ part.2 ≠ []) →
      Spaced quote (tail.flatMap fun part => .literal part.1 :: part.2.map .char) := by
    intro tail hparts
    induction tail with
    | nil => exact .nil
    | cons part tail ih =>
        obtain ⟨content, sql⟩ := part
        obtain ⟨hquote, hne⟩ := hparts (content, sql) List.mem_cons_self
        have hrest := (ih fun p hp => hparts p (List.mem_cons_of_mem _ hp)).chars hquote
        obtain ⟨c, sql, rfl⟩ := List.exists_cons_of_ne_nil hne
        exact .literal hrest
  exact (htail s.tail hs.tail_plain).chars hs.head_plain

theorem Spaced.wellShaped (h : Spaced quote ts) : (Statement.ofTokens ts).WellShaped quote := by
  induction h with
  | nil => exact ⟨by simp [Statement.ofTokens], by simp [Statement.ofTokens]⟩
  | char hc _ ih =>
      refine ⟨?_, ih.tail_plain⟩
      rw [Statement.ofTokens, List.mem_cons, not_or]
      exact ⟨Ne.symm hc, ih.head_plain⟩
  | literal _ ih =>
      refine ⟨List.not_mem_nil, fun part hpart => ?_⟩
      rcases List.mem_cons.mp hpart with rfl | hpart
      · exact ⟨ih.head_plain, List.cons_ne_nil _ _⟩
      · exact ih.tail_plain part hpart

/-- A single statement ends with the separator, and has no other outside of its literals. -/
theorem Statement.Single.tokens_eq (hs : s.Single separator) (hshape : s.WellShaped quote) :
    ∃ init, s.tokens = init ++ [.char separator] ∧ .char separator ∉ init := by
  obtain ⟨text, hsql, htext⟩ := hs
  rw [s.sql_eq] at hsql
  have hne : s.tokens ≠ [] := by
    intro hnil
    rw [hnil] at hsql
    simp at hsql
  obtain ⟨init, c, htokens⟩ := hshape.spaced.last hne
  rw [htokens, List.filterMap_append] at hsql
  obtain ⟨hinit, hlast⟩ := List.append_inj' hsql rfl
  cases hlast
  refine ⟨init, htokens, fun hmem => htext ?_⟩
  rw [← hinit]
  exact List.mem_filterMap.mpr ⟨_, hmem, rfl⟩

end Spaced

/-! ## Reading a script -/

section Read

variable {quote separator : α} {ss : List (Statement α)}

/-- The literals of statements one after the other are those of each. -/
theorem literals_join_iff :
    (∀ part ∈ (Statement.join ss).tail, quote ∉ part.1) ↔
      ∀ s ∈ ss, ∀ part ∈ s.tail, quote ∉ part.1 := by
  have htokens : ∀ s : Statement α, (∀ part ∈ s.tail, quote ∉ part.1) ↔
      ∀ content, .literal content ∈ s.tokens → quote ∉ content := by
    intro s
    simp only [Statement.tokens, List.mem_append, List.mem_map, List.mem_flatMap, List.mem_cons]
    constructor
    · rintro hparts content (⟨c, -, hc⟩ | ⟨part, hpart, hliteral | ⟨c, -, hc⟩⟩)
      · cases hc
      · cases hliteral
        exact hparts part hpart
      · cases hc
    · exact fun hliterals part hpart => hliterals part.1 (.inr ⟨part, hpart, .inl rfl⟩)
  rw [htokens, Statement.join, Statement.tokens_ofTokens]
  simp only [htokens, List.mem_flatMap]
  exact ⟨fun h s hs content hmem => h content ⟨s, hs, hmem⟩,
    fun h content ⟨s, hs, hmem⟩ => h s hs content hmem⟩

variable [DecidableEq α]

/-- Statements are told apart by the separators at their ends. -/
theorem splitBy_tokens
    (hss : ∀ s ∈ ss, ∃ init, s.tokens = init ++ [.char separator] ∧ .char separator ∉ init) :
    (ss.flatMap Statement.tokens).splitBy (fun t _ => t ≠ .char separator) =
      ss.map Statement.tokens := by
  have hends : ∀ ts ∈ ss.map Statement.tokens,
      ∃ init, ts = init ++ [.char separator] ∧ .char separator ∉ init := by
    intro ts hts
    obtain ⟨s, hs, rfl⟩ := List.mem_map.mp hts
    exact hss s hs
  rw [List.flatMap_def]
  refine List.splitBy_flatten ?_ ?_ ?_
  · intro hnil
    obtain ⟨init, heq, -⟩ := hends [] hnil
    simp at heq
  · intro ts hts
    obtain ⟨init, rfl, hinit⟩ := hends ts hts
    rw [List.isChain_iff_forall_rel_of_append_cons_cons]
    intro t t' before after heq
    -- what has a token behind it is before the separator
    have hinit' : init = (before ++ t :: t' :: after).dropLast := by
      rw [← heq, List.dropLast_concat]
    have hmem : t ∈ init := by
      rw [hinit']
      simp
    exact decide_eq_true fun ht => hinit (ht ▸ hmem)
  · rw [List.isChain_iff_forall_rel_of_append_cons_cons]
    intro ts ts' before after heq
    obtain ⟨init, rfl, -⟩ := hends ts (by rw [heq]; simp)
    obtain ⟨init', rfl, -⟩ := hends ts' (by rw [heq]; simp)
    exact ⟨by simp, by simp, by simp⟩

/-- The plain texts of single statements, one after the other, are read as these statements exactly
if no literal holds a quote. -/
theorem readScript_plain_iff
    (hss : ∀ s ∈ ss, s.WellShaped quote ∧ s.Single separator) :
    readScript quote separator (ss.flatMap (Statement.plain quote)) = some ss ↔
      ∀ s ∈ ss, ∀ part ∈ s.tail, quote ∉ part.1 := by
  have hspaced : Spaced quote (ss.flatMap Statement.tokens) := by
    induction ss with
    | nil => exact .nil
    | cons s ss ih =>
        rw [List.flatMap_cons]
        exact (hss s List.mem_cons_self).1.spaced.append
          (ih fun s' hs' => hss s' (List.mem_cons_of_mem s hs'))
  have hread := readStatement_plain_iff hspaced.wellShaped
  have hjoin : Statement.ofTokens (ss.flatMap Statement.tokens) = Statement.join ss := rfl
  rw [hjoin, Statement.plain_join, literals_join_iff] at hread
  rw [← hread, readScript]
  constructor
  · intro hscript
    obtain ⟨s, hs, hsplit⟩ := Option.map_eq_some_iff.mp hscript
    rw [hs]
    congr 1
    rw [Statement.join, ← hsplit, List.flatMap_map]
    simp only [Statement.tokens_ofTokens]
    rw [List.flatMap_id', List.flatten_splitBy, Statement.ofTokens_tokens]
  · intro hjoined
    have hsplit := splitBy_tokens fun s hs => (hss s hs).2.tokens_eq (hss s hs).1
    rw [hjoined, Option.map_some, Statement.join, Statement.tokens_ofTokens, hsplit, List.map_map]
    simp [Function.comp_def, Statement.ofTokens_tokens]

end Read

/-! ## Executing a script -/

/-- A connection: what is committed, and what an open transaction block has made of it. -/
structure Session (σ : Type*) where
  committed : σ
  block : Option σ

/-- What a database makes of a statement: a result and what it stores then, or an error. Two
statements begin and commit a transaction block, with the result `done`. -/
structure Backend (α ρ σ : Type*) where
  beginBlock : Statement α
  commitBlock : Statement α
  done : ρ
  execute : Statement α → σ → Option (ρ × σ)

/-- The statement belongs neither to the beginning nor to the end of a block. -/
def Backend.Plain {α ρ σ : Type*} (b : Backend α ρ σ) (statement : Statement α) : Prop :=
  statement ≠ b.beginBlock ∧ statement ≠ b.commitBlock

namespace Backend

variable {ρ σ : Type*} [DecidableEq α] (b : Backend α ρ σ)

/-- A statement, in a block or on its own. -/
def step (s : Session σ) (statement : Statement α) : Option (ρ × Session σ) :=
  if statement = b.beginBlock then
    some (b.done, ⟨s.committed, some (s.block.getD s.committed)⟩)
  else if statement = b.commitBlock then
    some (b.done, ⟨s.block.getD s.committed, none⟩)
  else
    match s.block with
    | some stored =>
        (b.execute statement stored).map fun (result, stored) =>
          (result, ⟨s.committed, some stored⟩)
    | none =>
        (b.execute statement s.committed).map fun (result, stored) => (result, ⟨stored, none⟩)

/-- The statements of a script, with the result of the last one. -/
def run (s : Session σ) : List (Statement α) → Option (ρ × Session σ)
  | [] => none
  | [statement] => b.step s statement
  | statement :: rest => (b.step s statement).bind fun (_, s) => run s rest

/-- A text that is sent outside of a block, and ends the block it begins. It stores nothing if it
cannot be read or one of its statements reports an error. -/
def query (quote separator : α) (text : List α) (stored : σ) : Option (ρ × σ) :=
  ((readScript quote separator text).bind (b.run ⟨stored, none⟩)).bind fun (result, s) =>
    if s.block.isNone then some (result, s.committed) else none

/-- Statements that store something, one after the other. -/
def store (stored : σ) (statements : List (Statement α)) : Option σ :=
  Machine.runFrom (fun stored statement => (b.execute statement stored).map Prod.snd) stored
    statements

/-- What is stored behind some texts, if each of them gets the result listed with it. -/
def converse [DecidableEq ρ] (quote separator : α) (stored : σ) (exchanges : List (List α × ρ)) :
    Option σ :=
  Machine.runFrom
    (fun stored exchange =>
      (b.query quote separator exchange.1 stored).bind fun (result, stored) =>
        if result = exchange.2 then some stored else none)
    stored exchanges

variable {b} {quote separator : α} {text : List α} {stored stored' : σ}

/-- A single statement on its own. -/
theorem query_single {statement : Statement α} (hplain : b.Plain statement)
    (hread : readScript quote separator text = some [statement]) {result : ρ}
    (hexecute : b.execute statement stored = some (result, stored')) :
    b.query quote separator text stored = some (result, stored') := by
  have hstep : b.step ⟨stored, none⟩ statement = some (result, ⟨stored', none⟩) := by
    simp [step, hplain.1, hplain.2, hexecute]
  simp [query, hread, run, hstep]

/-- The statements of a block, up to its end. -/
theorem run_block {committed : σ} {ss : List (Statement α)} (hss : ∀ s ∈ ss, b.Plain s)
    (hends : b.commitBlock ≠ b.beginBlock) :
    b.run ⟨committed, some stored⟩ (ss ++ [b.commitBlock]) =
      (b.store stored ss).map fun stored => (b.done, ⟨stored, none⟩) := by
  induction ss generalizing stored with
  | nil => simp [run, step, hends, store]
  | cons s ss ih =>
      obtain ⟨hbegin, hcommit⟩ := hss s List.mem_cons_self
      have hrest := fun stored => @ih stored fun s' hs' => hss s' (List.mem_cons_of_mem s hs')
      have hne : ss ++ [b.commitBlock] ≠ [] := by simp
      obtain ⟨next, rest, hsplit⟩ := List.exists_cons_of_ne_nil hne
      rw [hsplit] at hrest
      rw [List.cons_append, hsplit, run, step, if_neg hbegin, if_neg hcommit]
      · cases hexecute : b.execute s stored with
        | none => simp [store, Machine.runFrom, hexecute]
        | some next => simp [store, Machine.runFrom, hexecute, hrest]
      · simp

/-- A block is committed as a whole, unless one of its statements reports an error: then nothing
is. -/
theorem query_block {ss : List (Statement α)} (hss : ∀ s ∈ ss, b.Plain s)
    (hends : b.commitBlock ≠ b.beginBlock)
    (hread : readScript quote separator text = some (b.beginBlock :: ss ++ [b.commitBlock])) :
    b.query quote separator text stored =
      (b.store stored ss).map fun stored => (b.done, stored) := by
  have hne : ss ++ [b.commitBlock] ≠ [] := by simp
  obtain ⟨next, rest, hsplit⟩ := List.exists_cons_of_ne_nil hne
  have hrun : b.run ⟨stored, none⟩ (b.beginBlock :: ss ++ [b.commitBlock]) =
      (b.store stored ss).map fun stored => (b.done, ⟨stored, none⟩) := by
    rw [← run_block hss hends, List.cons_append, hsplit, run, step, if_pos rfl]
    · rfl
    · simp
  rw [query, hread, Option.bind_some, hrun]
  cases b.store stored ss with
  | none => rfl
  | some stored => rfl

end Backend

end SqlText
