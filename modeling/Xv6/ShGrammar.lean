import Xv6.Sh

/-! The grammar of the shell: the tokens of a line, and which token sequences are commands, with
their trees. The tokenizer of sh.c gives these tokens one at a time. -/
namespace Xv6.Sh

section Tokens

/-- `<`, `>` and `>>`. -/
inductive Redir where
  | input
  | output
  | append
  deriving DecidableEq

def Redir.mode : Redir → ℕ
  | .input => O_RDONLY
  | .output => O_WRONLY ||| O_CREATE ||| O_TRUNC
  | .append => O_WRONLY ||| O_CREATE

def Redir.fd : Redir → ℕ
  | .input => 0
  | _ => 1

inductive Token where
  | bar
  | lparen
  | rparen
  | semi
  | amp
  | redir (r : Redir)
  | word (w : List Byte)
  deriving DecidableEq

/-- A character that is in a word. -/
def isWord (c : Byte) : Bool := !strchr whitespace c && !strchr symbols c

def lex : List Byte → List Token
  | [] => []
  | c :: cs =>
    if c ∈ whitespace then lex cs
    else if c = verticalBar then .bar :: lex cs
    else if c = leftParen then .lparen :: lex cs
    else if c = rightParen then .rparen :: lex cs
    else if c = semicolon then .semi :: lex cs
    else if c = ampersand then .amp :: lex cs
    else if c = lessThan then .redir .input :: lex cs
    else if c = greaterThan then
      if cs.head? = some greaterThan then .redir .append :: lex cs.tail else .redir .output :: lex cs
    else .word (c :: cs.takeWhile isWord) :: lex (cs.dropWhile isWord)
termination_by s => s.length
decreasing_by
  all_goals simp only [List.length_cons]
  all_goals first
    | omega
    | exact Nat.lt_succ_of_le (by simp)
    | exact Nat.lt_succ_of_le (List.dropWhile_suffix isWord).length_le

/-- What `gettoken` returns for a token. -/
def Token.tok : Token → Tok
  | .bar => .bar
  | .lparen => .lparen
  | .rparen => .rparen
  | .semi => .semi
  | .amp => .amp
  | .redir .input => .less
  | .redir .output => .greater
  | .redir .append => .append
  | .word _ => .word

/-- The character with which `peek` finds the token. -/
def Token.symbol : Token → Option Byte
  | .bar => some verticalBar
  | .lparen => some leftParen
  | .rparen => some rightParen
  | .semi => some semicolon
  | .amp => some ampersand
  | .redir .input => some lessThan
  | .redir _ => some greaterThan
  | .word _ => none

end Tokens

section Grammar

/-- `redir*`, with what follows it. -/
inductive Redirs : List Token → List (Redir × List Byte) → List Token → Prop where
  | nil (ts : List Token) : Redirs ts [] ts
  | cons {ts us : List Token} {rs : List (Redir × List Byte)} (r : Redir) (file : List Byte)
    (h : Redirs ts rs us) : Redirs (.redir r :: .word file :: ts) ((r, file) :: rs) us

/-- `(word redir*)*`, with what follows it. -/
inductive Words : List Token → List (List Byte) → List (Redir × List Byte) → List Token → Prop where
  | nil (ts : List Token) : Words ts [] [] ts
  | cons {ts us vs : List Token} {rs rs' : List (Redir × List Byte)} {ws : List (List Byte)} (w : List Byte)
    (hr : Redirs ts rs us) (hw : Words us ws rs' vs) : Words (.word w :: ts) (w :: ws) (rs ++ rs') vs

/-- The redirections around a command, the last one outermost. -/
def wrap {σ : Type} (cmd : Cmd σ) (rs : List (Redir × σ)) : Cmd σ :=
  rs.foldl (fun c r => .redir c r.2 r.1.mode r.1.fd) cmd

/-- A BACK node for each `&`. -/
def backs {σ : Type} (n : ℕ) (cmd : Cmd σ) : Cmd σ := Cmd.back^[n] cmd

inductive NonTerm where
  | line
  | pipe
  | exec

/-- `Derives X ts cmd us`: the tokens of `ts` before the rest `us` are an `X` with the tree `cmd`.
`line := pipe '&'* [';' line]`, `pipe := exec ['|' pipe]`,
`exec := '(' line ')' redir* | redir* (word redir*)*`. -/
inductive Derives : NonTerm → List Token → Cmd (List Byte) → List Token → Prop where
  | line {ts us : List Token} {cmd : Cmd (List Byte)} (n : ℕ)
    (h : Derives .pipe ts cmd (List.replicate n .amp ++ us)) : Derives .line ts (backs n cmd) us
  | list {ts us vs : List Token} {cmd right : Cmd (List Byte)} (n : ℕ)
    (h : Derives .pipe ts cmd (List.replicate n .amp ++ .semi :: us)) (hr : Derives .line us right vs) :
    Derives .line ts (.list (backs n cmd) right) vs
  | single {ts us : List Token} {cmd : Cmd (List Byte)} (h : Derives .exec ts cmd us) : Derives .pipe ts cmd us
  | pipe {ts us vs : List Token} {cmd right : Cmd (List Byte)} (h : Derives .exec ts cmd (.bar :: us))
    (hr : Derives .pipe us right vs) : Derives .pipe ts (.pipe cmd right) vs
  | block {ts us vs : List Token} {cmd : Cmd (List Byte)} {rs : List (Redir × List Byte)}
    (h : Derives .line ts cmd (.rparen :: us)) (hr : Redirs us rs vs) :
    Derives .exec (.lparen :: ts) (wrap cmd rs) vs
  | simple {ts us vs : List Token} {ws : List (List Byte)} {rs rs' : List (Redir × List Byte)}
    (hr : Redirs ts rs us) (hw : Words us ws rs' vs) (hlen : ws.length ≤ MAXARGS - 1) :
    Derives .exec ts (wrap (.exec ws) (rs ++ rs')) vs

end Grammar

section Lexer

variable {s : List Byte}

theorem lex_space {c : Byte} (h : c ∈ whitespace) (cs : List Byte) : lex (c :: cs) = lex cs := by
  rw [lex, if_pos h]

theorem strchr_iff {cs : List Byte} {c : Byte} : strchr cs c = true ↔ c ∈ cs := decide_eq_true_iff

theorem skip_of_space {c : Byte} (h : c ∈ whitespace) (cs : List Byte) : skip (c :: cs) = skip cs :=
  List.dropWhile_cons_of_pos (strchr_iff.mpr h)

theorem skip_of_not_space {c : Byte} (h : c ∉ whitespace) (cs : List Byte) : skip (c :: cs) = c :: cs :=
  List.dropWhile_cons_of_neg (fun hc => h (strchr_iff.mp hc))

theorem lex_skip (s : List Byte) : lex (skip s) = lex s := by
  induction s with
  | nil => rfl
  | cons c cs ih =>
    by_cases h : c ∈ whitespace
    · rw [lex_space h, skip_of_space h, ih]
    · rw [skip_of_not_space h]

theorem skip_suffix (s : List Byte) : skip s <:+ s := List.dropWhile_suffix _

theorem skip_cons {c : Byte} {cs : List Byte} (h : skip s = c :: cs) : c ∉ whitespace := by
  intro hc
  have hhead := List.head?_dropWhile_not (strchr whitespace) s
  rw [← skip, h, List.head?_cons] at hhead
  have hno : strchr whitespace c = false := hhead
  rw [strchr_iff.mpr hc] at hno
  cases hno

theorem scan_spec {c : Byte} (cs : List Byte) (h : c ∉ whitespace) :
    ∃ t, lex (c :: cs) = t :: lex (scan (c :: cs)).2 ∧ (scan (c :: cs)).1 = t.tok ∧
      (scan (c :: cs)).2 <:+ cs ∧ (t.symbol = some c ∨ c ∉ symbols ∧ t = .word (c :: cs.takeWhile isWord) ∧
        (scan (c :: cs)).2 = cs.dropWhile isWord) := by
  rw [lex, if_neg h]
  simp only [scan]
  by_cases h1 : c = verticalBar
  · simp only [if_pos h1]
    exact ⟨_, rfl, rfl, List.suffix_rfl, .inl (by rw [h1]; rfl)⟩
  by_cases h2 : c = leftParen
  · simp only [if_neg h1, if_pos h2]
    exact ⟨_, rfl, rfl, List.suffix_rfl, .inl (by rw [h2]; rfl)⟩
  by_cases h3 : c = rightParen
  · simp only [if_neg h1, if_neg h2, if_pos h3]
    exact ⟨_, rfl, rfl, List.suffix_rfl, .inl (by rw [h3]; rfl)⟩
  by_cases h4 : c = semicolon
  · simp only [if_neg h1, if_neg h2, if_neg h3, if_pos h4]
    exact ⟨_, rfl, rfl, List.suffix_rfl, .inl (by rw [h4]; rfl)⟩
  by_cases h5 : c = ampersand
  · simp only [if_neg h1, if_neg h2, if_neg h3, if_neg h4, if_pos h5]
    exact ⟨_, rfl, rfl, List.suffix_rfl, .inl (by rw [h5]; rfl)⟩
  by_cases h6 : c = lessThan
  · simp only [if_neg h1, if_neg h2, if_neg h3, if_neg h4, if_neg h5, if_pos h6]
    exact ⟨_, rfl, rfl, List.suffix_rfl, .inl (by rw [h6]; rfl)⟩
  by_cases h7 : c = greaterThan
  · simp only [if_neg h1, if_neg h2, if_neg h3, if_neg h4, if_neg h5, if_neg h6, if_pos h7]
    have hderef : deref cs = greaterThan ↔ cs.head? = some greaterThan := by
      cases cs with
      | nil => decide
      | cons d ds => exact Option.some_inj.symm
    by_cases h8 : cs.head? = some greaterThan
    · rw [if_pos h8, if_pos (hderef.mpr h8)]
      exact ⟨_, rfl, rfl, List.tail_suffix cs, .inl (by rw [h7]; rfl)⟩
    · rw [if_neg h8, if_neg (fun hd => h8 (hderef.mp hd))]
      exact ⟨_, rfl, rfl, List.suffix_rfl, .inl (by rw [h7]; rfl)⟩
  · have hsym : c ∉ symbols := by
      simp only [symbols, List.mem_cons, List.not_mem_nil, or_false, not_or]
      exact ⟨h6, h1, h7, h5, h4, h2, h3⟩
    have hword : isWord c = true := by
      rw [isWord, strchr, strchr, decide_eq_false h, decide_eq_false hsym]
      rfl
    have hdrop : (c :: cs).dropWhile isWord = cs.dropWhile isWord := List.dropWhile_cons_of_pos hword
    simp only [if_neg h1, if_neg h2, if_neg h3, if_neg h4, if_neg h5, if_neg h6, if_neg h7]
    have heq : (c :: cs).dropWhile (fun c => !strchr whitespace c && !strchr symbols c) = cs.dropWhile isWord := hdrop
    rw [heq]
    exact ⟨_, rfl, rfl, List.dropWhile_suffix _, .inr ⟨hsym, rfl, rfl⟩⟩

/-- A word of the line: it is as long as it can be. -/
structure SpanOk (line : List Byte) (arg : Span) : Prop where
  suffix : arg.q <:+ line
  word : ∃ w, arg.q = w ++ arg.eq ∧ ∀ c ∈ w, isWord c = true
  ends : ∀ c, arg.eq.head? = some c → isWord c = false

/-- The characters from `q` to `eq`. -/
def Span.word (arg : Span) : List Byte := arg.q.take (arg.q.length - arg.eq.length)

theorem SpanOk.mono {line line' : List Byte} {arg : Span} (h : SpanOk line arg) (hs : line <:+ line') :
    SpanOk line' arg :=
  ⟨h.suffix.trans hs, h.word, h.ends⟩

theorem SpanOk.q_eq {line : List Byte} {arg : Span} (h : SpanOk line arg) : arg.q = arg.word ++ arg.eq := by
  obtain ⟨w, hw, -⟩ := h.word
  rw [Span.word, hw, List.length_append, Nat.add_sub_cancel, List.take_left]

/-- At the end of the line `gettoken` returns 0, and otherwise the first token of the rest. -/
theorem gettoken_spec (s : List Byte) :
    (lex s = [] ∧ (gettoken s).tok = .eos ∧ (gettoken s).rest = []) ∨
    ∃ t, lex s = t :: lex (gettoken s).rest ∧ (gettoken s).tok = t.tok ∧
      (gettoken s).rest <:+ s ∧ (gettoken s).rest.length < s.length ∧
      ∀ w, t = .word w → SpanOk s ⟨(gettoken s).q, (gettoken s).eq⟩ ∧ Span.word ⟨(gettoken s).q, (gettoken s).eq⟩ = w := by
  have hgot : gettoken s = ⟨(scan (skip s)).1, skip s, (scan (skip s)).2, skip (scan (skip s)).2⟩ := rfl
  rw [hgot]
  cases hs : skip s with
  | nil =>
    left
    rw [← lex_skip, hs]
    exact ⟨by rw [lex], rfl, rfl⟩
  | cons c cs =>
    right
    obtain ⟨t, hlex, htok, hsuffix, hkind⟩ := scan_spec cs (skip_cons hs)
    have hcs : c :: cs <:+ s := hs ▸ skip_suffix s
    have hrest := (skip_suffix (scan (c :: cs)).2).trans hsuffix
    refine ⟨t, ?_, htok, hrest.trans ((List.suffix_cons c cs).trans hcs), ?_, ?_⟩
    · rw [lex_skip, ← hlex, ← hs, lex_skip]
    · have h1 := hrest.length_le
      have h2 := hcs.length_le
      rw [List.length_cons] at h2
      exact Nat.lt_of_le_of_lt h1 h2
    · intro w hw
      rcases hkind with hsym | ⟨hsym, ht, hend⟩
      · rw [hw] at hsym
        cases hsym
      · have hc : isWord c = true := by
          rw [isWord, strchr, strchr, decide_eq_false (skip_cons hs), decide_eq_false hsym]
          rfl
        have hsplit : c :: cs = (c :: cs.takeWhile isWord) ++ cs.dropWhile isWord := by
          rw [List.cons_append, List.takeWhile_append_dropWhile]
        have hok : SpanOk s ⟨c :: cs, (scan (c :: cs)).2⟩ := by
          refine ⟨hcs, ⟨c :: cs.takeWhile isWord, by rw [hend]; exact hsplit, ?_⟩, ?_⟩
          · intro d hd
            rcases List.mem_cons.mp hd with rfl | hd
            · exact hc
            · exact List.mem_takeWhile_imp hd
          · intro d hd
            change (scan (c :: cs)).2.head? = some d at hd
            have hhead := List.head?_dropWhile_not isWord cs
            rw [hend] at hd
            rw [hd] at hhead
            exact hhead
        refine ⟨hok, ?_⟩
        have hq := hok.q_eq
        change c :: cs = _ ++ (scan (c :: cs)).2 at hq
        rw [hend] at hq
        have heq : Span.word ⟨c :: cs, cs.dropWhile isWord⟩ = c :: cs.takeWhile isWord :=
          List.append_cancel_right (hq.symm.trans hsplit)
        rw [hend, heq]
        rw [hw] at ht
        exact (Token.word.inj ht).symm

theorem peek_rest (toks : List Byte) (s : List Byte) : (peek toks s).2 = skip s := rfl

/-- `peek` looks at the first character of the next token. -/
theorem peek_iff {toks : List Byte} (hsub : toks ⊆ symbols) (h0 : 0 ∉ s) :
    (peek toks s).1 = true ↔ ∃ t ts c, lex s = t :: ts ∧ t.symbol = some c ∧ c ∈ toks := by
  have hpeek : (peek toks s).1 = (decide (deref (skip s) ≠ 0) && strchr toks (deref (skip s))) := rfl
  rw [hpeek, Bool.and_eq_true, decide_eq_true_iff, strchr_iff]
  cases hs : skip s with
  | nil =>
    have hlex : lex s = [] := by rw [← lex_skip, hs, lex]
    rw [hlex]
    constructor
    · exact fun h => absurd rfl h.1
    · rintro ⟨t, ts, c, h, -⟩
      cases h
  | cons c cs =>
    obtain ⟨t, hlex, -, -, hkind⟩ := scan_spec cs (skip_cons hs)
    rw [← hs, lex_skip] at hlex
    have hc0 : c ≠ 0 := by
      intro hc
      apply h0
      rw [← hc]
      exact (skip_suffix s).subset (hs ▸ List.mem_cons_self)
    have hhead : deref (c :: cs) = c := rfl
    rw [hhead]
    constructor
    · rintro ⟨-, hmem⟩
      rcases hkind with hsym | ⟨hsym, -⟩
      · exact ⟨t, _, c, hlex, hsym, hmem⟩
      · exact absurd (hsub hmem) hsym
    · rintro ⟨t', ts', c', hlex', hsym', hmem⟩
      rw [hlex] at hlex'
      obtain ⟨rfl, -⟩ := List.cons.inj hlex'
      rcases hkind with hsym | ⟨-, ht, -⟩
      · rw [hsym] at hsym'
        rw [Option.some.inj hsym']
        exact ⟨Option.some.inj hsym' ▸ hc0, hmem⟩
      · rw [ht] at hsym'
        cases hsym'

theorem symbol_inj {t t' : Token} {c : Byte} (hc : c ≠ greaterThan) (h : t.symbol = some c)
    (h' : t'.symbol = some c) : t' = t := by
  rcases t with _ | _ | _ | _ | _ | ⟨_ | _ | _⟩ | _
  all_goals
    rcases t' with _ | _ | _ | _ | _ | ⟨_ | _ | _⟩ | _
  all_goals first
    | rfl
    | exact absurd (Option.some.inj h).symm hc
    | exact absurd (h.trans h'.symm) (by decide)
    | exact absurd h.symm (Option.some_ne_none c)
    | exact absurd h'.symm (Option.some_ne_none c)

theorem peek_single {t : Token} {c : Byte} (hsym : t.symbol = some c) (hc : c ∈ symbols) (hgt : c ≠ greaterThan)
    (h0 : 0 ∉ s) : (peek [c] s).1 = true ↔ ∃ ts, lex s = t :: ts := by
  rw [peek_iff (List.cons_subset.mpr ⟨hc, List.nil_subset _⟩) h0]
  constructor
  · rintro ⟨t', ts, c', hlex, hsym', hmem⟩
    rw [List.mem_singleton.mp hmem] at hsym'
    rw [symbol_inj hgt hsym hsym'] at hlex
    exact ⟨ts, hlex⟩
  · rintro ⟨ts, hlex⟩
    exact ⟨t, ts, c, hlex, hsym, List.mem_singleton_self c⟩

theorem peek_amp (h0 : 0 ∉ s) : (peek [ampersand] s).1 = true ↔ ∃ ts, lex s = .amp :: ts :=
  peek_single rfl (by decide) (by decide) h0

theorem peek_semi (h0 : 0 ∉ s) : (peek [semicolon] s).1 = true ↔ ∃ ts, lex s = .semi :: ts :=
  peek_single rfl (by decide) (by decide) h0

theorem peek_bar (h0 : 0 ∉ s) : (peek [verticalBar] s).1 = true ↔ ∃ ts, lex s = .bar :: ts :=
  peek_single rfl (by decide) (by decide) h0

theorem peek_lparen (h0 : 0 ∉ s) : (peek [leftParen] s).1 = true ↔ ∃ ts, lex s = .lparen :: ts :=
  peek_single rfl (by decide) (by decide) h0

theorem peek_rparen (h0 : 0 ∉ s) : (peek [rightParen] s).1 = true ↔ ∃ ts, lex s = .rparen :: ts :=
  peek_single rfl (by decide) (by decide) h0

theorem peek_redir (h0 : 0 ∉ s) : (peek [lessThan, greaterThan] s).1 = true ↔ ∃ r ts, lex s = .redir r :: ts := by
  rw [peek_iff (by decide) h0]
  constructor
  · rintro ⟨t, ts, c, hlex, hsym, hmem⟩
    cases t with
    | redir r => exact ⟨r, ts, hlex⟩
    | word w => cases hsym
    | _ =>
      rw [← Option.some.inj hsym] at hmem
      exact absurd hmem (by decide)
  · rintro ⟨r, ts, hlex⟩
    cases r with
    | input => exact ⟨_, ts, lessThan, hlex, rfl, by decide⟩
    | output => exact ⟨_, ts, greaterThan, hlex, rfl, by decide⟩
    | append => exact ⟨_, ts, greaterThan, hlex, rfl, by decide⟩

/-- The tokens that end a simple command. -/
def Token.Stops (t : Token) : Prop := t = .bar ∨ t = .rparen ∨ t = .amp ∨ t = .semi

theorem peek_stop (h0 : 0 ∉ s) :
    (peek [verticalBar, rightParen, ampersand, semicolon] s).1 = true ↔ ∃ t ts, lex s = t :: ts ∧ t.Stops := by
  rw [peek_iff (by decide) h0]
  constructor
  · rintro ⟨t, ts, c, hlex, hsym, hmem⟩
    refine ⟨t, ts, hlex, ?_⟩
    rcases t with _ | _ | _ | _ | _ | ⟨_ | _ | _⟩ | _
    · exact .inl rfl
    · rw [← Option.some.inj hsym] at hmem
      exact absurd hmem (by decide)
    · exact .inr (.inl rfl)
    · exact .inr (.inr (.inr rfl))
    · exact .inr (.inr (.inl rfl))
    all_goals first | cases hsym; done | exact absurd (Option.some.inj hsym ▸ hmem) (by decide)
  · rintro ⟨t, ts, hlex, rfl | rfl | rfl | rfl⟩
    · exact ⟨_, ts, verticalBar, hlex, rfl, by decide⟩
    · exact ⟨_, ts, rightParen, hlex, rfl, by decide⟩
    · exact ⟨_, ts, ampersand, hlex, rfl, by decide⟩
    · exact ⟨_, ts, semicolon, hlex, rfl, by decide⟩

theorem gettoken_cons {t : Token} {ts : List Token} (h : lex s = t :: ts) :
    lex (gettoken s).rest = ts ∧ (gettoken s).tok = t.tok ∧ (gettoken s).rest <:+ s ∧
      (gettoken s).rest.length < s.length ∧
      ∀ w, t = .word w → SpanOk s ⟨(gettoken s).q, (gettoken s).eq⟩ ∧ Span.word ⟨(gettoken s).q, (gettoken s).eq⟩ = w := by
  rcases gettoken_spec s with ⟨hnil, -⟩ | ⟨t', hlex, htok, hrest⟩
  · rw [h] at hnil
    cases hnil
  · rw [h] at hlex
    obtain ⟨rfl, hts⟩ := List.cons.inj hlex
    exact ⟨hts.symm, htok, hrest⟩

theorem gettoken_nil (h : lex s = []) : (gettoken s).tok = .eos ∧ (gettoken s).rest = [] := by
  rcases gettoken_spec s with ⟨-, htok, hrest⟩ | ⟨t, hlex, -⟩
  · exact ⟨htok, hrest⟩
  · rw [h] at hlex
    cases hlex

theorem skip_of_lex_nil (h : lex s = []) : skip s = [] := by
  cases hs : skip s with
  | nil => rfl
  | cons c cs =>
    obtain ⟨t, hlex, -⟩ := scan_spec cs (skip_cons hs)
    rw [← hs, lex_skip, h] at hlex
    cases hlex

end Lexer

end Xv6.Sh
