import Xv6.ShGrammar

/-! The parse functions of sh.c against the grammar: they accept what is derivable, with the tree of
the derivation, and they always end, with a tree or with a message of `panic`. -/
namespace Xv6.Sh

section Strings

def Cmd.strings {σ : Type} : Cmd σ → List σ
  | .exec argv => argv
  | .redir cmd file _ _ => cmd.strings ++ [file]
  | .pipe left right => left.strings ++ right.strings
  | .list left right => left.strings ++ right.strings
  | .back cmd => cmd.strings

/-- Every string of the command is a word of the line. -/
def Cmd.SpansOk (line : List Byte) (cmd : Cmd Span) : Prop := ∀ arg ∈ cmd.strings, SpanOk line arg

theorem strings_wrap {σ : Type} (cmd : Cmd σ) (rs : List (Redir × σ)) :
    (wrap cmd rs).strings = cmd.strings ++ rs.map Prod.snd := by
  induction rs generalizing cmd with
  | nil => exact (List.append_nil _).symm
  | cons r rs ih =>
    change (wrap (.redir cmd r.2 _ _) rs).strings = _
    rw [ih, Cmd.strings, List.map_cons, List.append_assoc]
    rfl

theorem strings_backs {σ : Type} (n : ℕ) (cmd : Cmd σ) : (backs n cmd).strings = cmd.strings := by
  induction n generalizing cmd with
  | zero => rfl
  | succ n ih => exact ih (.back cmd)

theorem map_wrap {σ τ : Type} (f : σ → τ) (cmd : Cmd σ) (rs : List (Redir × σ)) :
    (wrap cmd rs).map f = wrap (cmd.map f) (rs.map (Prod.map id f)) := by
  induction rs generalizing cmd with
  | nil => rfl
  | cons r rs ih => exact ih (.redir cmd r.2 r.1.mode r.1.fd)

theorem map_backs {σ τ : Type} (f : σ → τ) (n : ℕ) (cmd : Cmd σ) : (backs n cmd).map f = backs n (cmd.map f) := by
  induction n generalizing cmd with
  | zero => rfl
  | succ n ih => exact ih (.back cmd)

theorem wrap_append {σ : Type} (cmd : Cmd σ) (rs rs' : List (Redir × σ)) :
    wrap cmd (rs ++ rs') = wrap (wrap cmd rs) rs' := List.foldl_append

theorem setArg_wrap (argv : List Span) (rs : List (Redir × Span)) (arg : Span) :
    (wrap (.exec argv) rs).setArg argv.length arg = wrap (.exec (argv ++ [arg])) rs := by
  induction rs using List.reverseRecOn with
  | nil =>
    change Cmd.exec (argv.take argv.length ++ [arg]) = _
    rw [List.take_length]
    rfl
  | append_singleton rs r ih =>
    rw [wrap_append, wrap_append, ← ih]
    rfl

end Strings

section Equations

variable {s : List Byte} {fuel : ℕ} {cmd : Cmd Span} {t : Token} {ts : List Token}

theorem gettoken_skip (h : lex s = t :: ts) :
    lex (gettoken (skip s)).rest = ts ∧ (gettoken (skip s)).tok = t.tok ∧ (gettoken (skip s)).rest <:+ s ∧
      (gettoken (skip s)).rest.length < s.length ∧
      ∀ w, t = .word w → SpanOk s ⟨(gettoken (skip s)).q, (gettoken (skip s)).eq⟩ ∧
        Span.word ⟨(gettoken (skip s)).q, (gettoken (skip s)).eq⟩ = w := by
  obtain ⟨h1, h2, h3, h4, h5⟩ := gettoken_cons (by rw [lex_skip]; exact h)
  have hs := skip_suffix s
  exact ⟨h1, h2, h3.trans hs, lt_of_lt_of_le h4 hs.length_le, fun w hw => ⟨(h5 w hw).1.mono hs, (h5 w hw).2⟩⟩

theorem tok_word_iff : t.tok = .word ↔ ∃ w, t = .word w := by
  rcases t with _ | _ | _ | _ | _ | ⟨_ | _ | _⟩ | w
  all_goals first
    | exact ⟨fun _ => ⟨w, rfl⟩, fun _ => rfl⟩
    | exact ⟨Tok.noConfusion, fun ⟨_, h⟩ => Token.noConfusion h⟩

theorem tok_ne_eos (t : Token) : t.tok ≠ .eos := by
  rcases t with _ | _ | _ | _ | _ | ⟨_ | _ | _⟩ | _
  all_goals exact Tok.noConfusion

theorem parseredirs_stop (h0 : 0 ∉ s) (h : ∀ r ts, lex s ≠ .redir r :: ts) :
    parseredirs (fuel + 1) cmd s = .ok (cmd, skip s) := by
  apply parseredirs_done
  rw [peek_redir h0]
  rintro ⟨r, ts, hlex⟩
  exact h r ts hlex

theorem parseredirs_file {r : Redir} {file : List Byte} (h0 : 0 ∉ s) (h : lex s = .redir r :: .word file :: ts) :
    ∃ arg s', parseredirs (fuel + 1) cmd s = parseredirs fuel (.redir cmd arg r.mode r.fd) s' ∧ lex s' = ts ∧
      arg.word = file ∧ SpanOk s arg ∧ s' <:+ s ∧ s'.length < s.length := by
  have hpeek : (peek [lessThan, greaterThan] s).1 = true := (peek_redir h0).mpr ⟨r, _, h⟩
  obtain ⟨hlex, htok, hrest, hlen, -⟩ := gettoken_skip h
  obtain ⟨hlex', htok', hrest', hlen', hword⟩ := gettoken_cons hlex
  obtain ⟨hspan, hfile⟩ := hword file rfl
  refine ⟨_, _, ?_, hlex', hfile, hspan.mono hrest, hrest'.trans hrest, hlen'.trans hlen⟩
  rw [parseredirs, peek_eq hpeek]
  simp only [if_true, htok']
  rw [if_neg (fun hc => hc rfl), htok]
  cases r <;> rfl

theorem parseredirs_missing {r : Redir} (h0 : 0 ∉ s) (h : lex s = .redir r :: ts) (hts : ∀ w us, ts ≠ .word w :: us) :
    parseredirs (fuel + 1) cmd s = .error .missingFile := by
  have hpeek : (peek [lessThan, greaterThan] s).1 = true := (peek_redir h0).mpr ⟨r, _, h⟩
  obtain ⟨hlex, -⟩ := gettoken_skip h
  have hno : (gettoken (gettoken (skip s)).rest).tok ≠ .word := by
    cases ts with
    | nil =>
      rw [(gettoken_nil hlex).1]
      exact Tok.noConfusion
    | cons u us =>
      rw [(gettoken_cons hlex).2.1]
      intro hu
      obtain ⟨w, rfl⟩ := tok_word_iff.mp hu
      exact hts w us rfl
  rw [parseredirs, peek_eq hpeek]
  simp only [if_true]
  rw [if_pos hno]

variable {argc : ℕ}

theorem parseargs_end (h0 : 0 ∉ s) (h : lex s = []) : parseargs (fuel + 1) cmd argc s = .ok (cmd, argc, []) := by
  have hpeek : ¬ (peek [verticalBar, rightParen, ampersand, semicolon] s).1 = true := by
    rw [peek_stop h0]
    rintro ⟨t, ts, hlex, -⟩
    rw [h] at hlex
    cases hlex
  obtain ⟨htok, hrest⟩ := gettoken_nil (s := skip s) (by rw [lex_skip]; exact h)
  rw [parseargs, peek_false hpeek]
  simp only [if_false, htok, hrest, Bool.false_eq_true]
  rfl

theorem parseargs_stop (h0 : 0 ∉ s) (h : lex s = t :: ts) (ht : t.Stops) :
    parseargs (fuel + 1) cmd argc s = .ok (cmd, argc, skip s) :=
  parseargs_done ((peek_stop h0).mpr ⟨t, ts, h, ht⟩)

theorem peek_stop_false (h0 : 0 ∉ s) (h : lex s = t :: ts) (ht : ¬ t.Stops) :
    peek [verticalBar, rightParen, ampersand, semicolon] s = (false, skip s) := by
  apply peek_false
  rw [peek_stop h0]
  rintro ⟨t', ts', hlex, ht'⟩
  rw [h] at hlex
  exact ht ((List.cons.inj hlex).1 ▸ ht')

theorem parseargs_bad (h0 : 0 ∉ s) (h : lex s = t :: ts) (ht : ¬ t.Stops) (hw : ∀ w, t ≠ .word w) :
    parseargs (fuel + 1) cmd argc s = .error .syntaxPanic := by
  have htok := (gettoken_skip h).2.1
  have hno : t.tok ≠ .word := fun hc => by
    obtain ⟨w, rfl⟩ := tok_word_iff.mp hc
    exact hw w rfl
  rw [parseargs, peek_stop_false h0 h ht]
  simp only [htok, Bool.false_eq_true, if_false]
  rw [if_neg (tok_ne_eos t), if_pos hno]

theorem not_stops_word (w : List Byte) : ¬ (Token.word w).Stops := by
  rintro (h | h | h | h) <;> cases h

theorem parseargs_full {w : List Byte} (h0 : 0 ∉ s) (h : lex s = .word w :: ts) (hargc : argc + 1 = MAXARGS) :
    parseargs (fuel + 1) cmd argc s = .error .tooManyArgs := by
  have htok := (gettoken_skip h).2.1
  rw [parseargs, peek_stop_false h0 h (not_stops_word w)]
  simp only [htok, Bool.false_eq_true, if_false]
  rw [if_neg (fun hc => by cases hc), if_neg (fun hc => hc rfl), if_neg (by omega), if_pos (by omega)]

/-- One round of the loop of `parseexec`: a word and the redirections after it. -/
theorem parseargs_word {w : List Byte} (h0 : 0 ∉ s) (h : lex s = .word w :: ts) (hargc : argc + 1 < MAXARGS) :
    ∃ arg s', parseargs (fuel + 1) cmd argc s = (match parseredirs (s'.length + 1) (cmd.setArg argc arg) s' with
        | .error e => .error e
        | .ok (ret, s) => parseargs fuel ret (argc + 1) s) ∧
      lex s' = ts ∧ arg.word = w ∧ SpanOk s arg ∧ s' <:+ s ∧ s'.length < s.length := by
  obtain ⟨hlex, htok, hrest, hlen, hword⟩ := gettoken_skip h
  obtain ⟨hspan, hw⟩ := hword w rfl
  refine ⟨_, _, ?_, hlex, hw, hspan, hrest, hlen⟩
  rw [parseargs, peek_stop_false h0 h (not_stops_word w)]
  simp only [htok, Bool.false_eq_true, if_false]
  exact (if_neg (fun hc => by cases hc)).trans ((if_neg (fun hc => hc rfl)).trans
    ((if_neg (by omega)).trans (if_neg (by omega))))

theorem parseback_stop (h0 : 0 ∉ s) (h : ∀ ts, lex s ≠ .amp :: ts) : parseback (fuel + 1) cmd s = .ok (cmd, skip s) := by
  apply parseback_done
  rw [peek_amp h0]
  rintro ⟨ts, hlex⟩
  exact h ts hlex

theorem parseback_amp (h0 : 0 ∉ s) (h : lex s = .amp :: ts) :
    ∃ s', parseback (fuel + 1) cmd s = parseback fuel (.back cmd) s' ∧ lex s' = ts ∧ s' <:+ s ∧ s'.length < s.length := by
  obtain ⟨hlex, -, hrest, hlen, -⟩ := gettoken_skip h
  refine ⟨_, ?_, hlex, hrest, hlen⟩
  rw [parseback, peek_eq ((peek_amp h0).mpr ⟨ts, h⟩)]
  rfl

end Equations

section Sound

/-- An error of the shell's own: no index is out of bounds and everything has ended. -/
def ShError.IsPanic : ShError → Prop
  | .argvIndex | .fuel | .parseblock => False
  | _ => True

/-- The result satisfies `Q`, or it is a `panic`. -/
def Outcome {α : Type} (Q : α → Prop) : Except ShError α → Prop
  | .ok r => Q r
  | .error e => e.IsPanic

theorem Outcome.imp {α : Type} {P Q : α → Prop} {m : Except ShError α} (h : Outcome P m) (himp : ∀ a, P a → Q a) :
    Outcome Q m := by
  cases m with
  | error e => exact h
  | ok a => exact himp a h

theorem Outcome.bind {β : Type} {P : Cmd Span × List Byte → Prop} {Q : β → Prop} {m : Parse}
    {f : Cmd Span → List Byte → Except ShError β} :
    Outcome P m → (∀ c s, P (c, s) → Outcome Q (f c s)) →
      Outcome Q (match m with | .error e => .error e | .ok (c, s) => f c s) := by
  intro h hf
  cases m with
  | error e => exact h
  | ok a => exact hf a.1 a.2 h

abbrev words (rs : List (Redir × Span)) : List (Redir × List Byte) := rs.map (Prod.map id Span.word)

variable {line : List Byte}

theorem parseredirs_sound (hline : 0 ∉ line) (fuel : ℕ) (cmd : Cmd Span) (s : List Byte) (hs : s <:+ line)
    (hf : s.length < fuel) :
    Outcome (fun r => ∃ rs, r.1 = wrap cmd rs ∧ r.2 <:+ s ∧ Redirs (lex s) (words rs) (lex r.2) ∧
      ∀ x ∈ rs, SpanOk line x.2) (parseredirs fuel cmd s) := by
  induction fuel generalizing cmd s with
  | zero => omega
  | succ fuel ih =>
    have h0 : 0 ∉ s := fun h => hline (hs.subset h)
    by_cases hredir : ∃ r ts, lex s = .redir r :: ts
    · obtain ⟨r, ts, hlex⟩ := hredir
      by_cases hfile : ∃ file us, ts = .word file :: us
      · obtain ⟨file, us, rfl⟩ := hfile
        obtain ⟨arg, s', heq, hlex', harg, hspan, hrest, hlen⟩ := parseredirs_file h0 hlex
        rw [heq]
        refine (ih (.redir cmd arg r.mode r.fd) s' (hrest.trans hs) (by omega)).imp fun out ⟨rs, hcmd, hsuf, hder, hok⟩ => ?_
        refine ⟨(r, arg) :: rs, hcmd, hsuf.trans hrest, ?_, ?_⟩
        · rw [hlex, ← harg]
          rw [hlex'] at hder
          exact .cons r arg.word hder
        · intro x hx
          rcases List.mem_cons.mp hx with rfl | hx
          · exact hspan.mono hs
          · exact hok x hx
      · rw [parseredirs_missing h0 hlex (fun w us h => hfile ⟨w, us, h⟩)]
        trivial
    · rw [parseredirs_stop h0 (fun r ts h => hredir ⟨r, ts, h⟩)]
      refine ⟨[], rfl, skip_suffix s, ?_, fun x hx => by cases hx⟩
      change Redirs (lex s) [] (lex (skip s))
      rw [lex_skip]
      exact .nil _

theorem parseargs_sound (hline : 0 ∉ line) (fuel : ℕ) (argv : List Span) (rs : List (Redir × Span)) (s : List Byte)
    (hs : s <:+ line) (hf : s.length < fuel) (hargv : argv.length < MAXARGS) :
    Outcome (fun r => ∃ as rs', r.1 = wrap (.exec (argv ++ as)) (rs ++ rs') ∧ r.2.1 = (argv ++ as).length ∧
      r.2.1 < MAXARGS ∧ r.2.2 <:+ s ∧ Words (lex s) (as.map Span.word) (words rs') (lex r.2.2) ∧
      (∀ a ∈ as, SpanOk line a) ∧ ∀ x ∈ rs', SpanOk line x.2)
      (parseargs fuel (wrap (.exec argv) rs) argv.length s) := by
  induction fuel generalizing argv rs s with
  | zero => omega
  | succ fuel ih =>
    have h0 : 0 ∉ s := fun h => hline (hs.subset h)
    have hnil (s' : List Byte) (hsuf : s' <:+ s) (hlex : lex s' = lex s) :
        Outcome (fun r => ∃ as rs', r.1 = wrap (.exec (argv ++ as)) (rs ++ rs') ∧ r.2.1 = (argv ++ as).length ∧
          r.2.1 < MAXARGS ∧ r.2.2 <:+ s ∧ Words (lex s) (as.map Span.word) (words rs') (lex r.2.2) ∧
          (∀ a ∈ as, SpanOk line a) ∧ ∀ x ∈ rs', SpanOk line x.2)
          (.ok (wrap (.exec argv) rs, argv.length, s')) := by
      refine ⟨[], [], ?_, ?_, hargv, hsuf, ?_, fun a ha => (List.not_mem_nil ha).elim,
        fun x hx => (List.not_mem_nil hx).elim⟩
      · rw [List.append_nil, List.append_nil]
      · rw [List.append_nil]
      · change Words (lex s) [] [] (lex s')
        rw [hlex]
        exact .nil _
    cases hlex : lex s with
    | nil =>
      rw [parseargs_end h0 hlex, ← hlex]
      exact hnil [] List.nil_suffix (by rw [hlex, lex])
    | cons t ts =>
      by_cases hstop : t.Stops
      · rw [parseargs_stop h0 hlex hstop, ← hlex]
        exact hnil _ (skip_suffix s) (lex_skip s)
      by_cases hword : ∃ w, t = .word w
      · obtain ⟨w, rfl⟩ := hword
        by_cases hfull : argv.length + 1 = MAXARGS
        · rw [parseargs_full h0 hlex hfull]
          trivial
        obtain ⟨arg, s', heq, hlex', harg, hspan, hrest, hlen⟩ := parseargs_word h0 hlex (show argv.length + 1 < MAXARGS by omega)
        rw [heq, setArg_wrap]
        have hredirs := parseredirs_sound hline (s'.length + 1) (wrap (.exec (argv ++ [arg])) rs) s' (hrest.trans hs)
          (Nat.lt_succ_self _)
        refine hredirs.bind fun cmd s2 hr => ?_
        obtain ⟨rs1, hcmd, hsuf, hder, hok⟩ := hr
        dsimp only at hcmd hsuf hder ⊢
        rw [hcmd, ← wrap_append, show argv.length + 1 = (argv ++ [arg]).length by simp]
        have hle := hsuf.length_le
        refine (ih (argv ++ [arg]) (rs ++ rs1) s2 (hsuf.trans (hrest.trans hs)) (by omega)
          (by rw [List.length_append, List.length_singleton]; omega)).imp fun out hout => ?_
        obtain ⟨as, rs', h1, h2, h3, h4, h5, h6, h7⟩ := hout
        refine ⟨arg :: as, rs1 ++ rs', ?_, ?_, h3, h4.trans (hsuf.trans hrest), ?_, ?_, ?_⟩
        · rw [h1, List.append_assoc, List.append_assoc]
          rfl
        · rw [h2, List.append_assoc]
          rfl
        · rw [List.map_cons, harg, words, List.map_append]
          rw [hlex'] at hder
          exact .cons w hder h5
        · intro a ha
          rcases List.mem_cons.mp ha with rfl | ha
          · exact hspan.mono hs
          · exact h6 a ha
        · intro x hx
          rcases List.mem_append.mp hx with hx | hx
          · exact hok x hx
          · exact h7 x hx
      · rw [parseargs_bad h0 hlex hstop (fun w h => hword ⟨w, h⟩)]
        trivial

theorem parseback_sound (hline : 0 ∉ line) (fuel : ℕ) (cmd : Cmd Span) (s : List Byte) (hs : s <:+ line)
    (hf : s.length < fuel) :
    Outcome (fun r => ∃ n, r.1 = backs n cmd ∧ r.2 <:+ s ∧ lex s = List.replicate n .amp ++ lex r.2)
      (parseback fuel cmd s) := by
  induction fuel generalizing cmd s with
  | zero => omega
  | succ fuel ih =>
    have h0 : 0 ∉ s := fun h => hline (hs.subset h)
    by_cases hamp : ∃ ts, lex s = .amp :: ts
    · obtain ⟨ts, hlex⟩ := hamp
      obtain ⟨s', heq, hlex', hrest, hlen⟩ := parseback_amp h0 hlex
      rw [heq]
      refine (ih (.back cmd) s' (hrest.trans hs) (by omega)).imp fun out ⟨n, hcmd, hsuf, hder⟩ => ?_
      refine ⟨n + 1, hcmd, hsuf.trans hrest, ?_⟩
      rw [hlex, ← hlex', hder]
      rfl
    · rw [parseback_stop h0 (fun ts h => hamp ⟨ts, h⟩)]
      exact ⟨0, rfl, skip_suffix s, (lex_skip s).symm⟩

/-- What a parse function gives for `X`: a tree for the tokens that it has read. -/
def Parses (line : List Byte) (X : NonTerm) (s : List Byte) : Parse → Prop :=
  Outcome (fun r => r.2 <:+ s ∧ Derives X (lex s) (r.1.map Span.word) (lex r.2) ∧ r.1.SpansOk line)

/-- The four functions that call each other, with as much fuel as they need. -/
structure SoundAt (line : List Byte) (fuel : ℕ) : Prop where
  full : ∀ s, s <:+ line → 4 * s.length + 4 ≤ fuel → Parses line .line s (parseline fuel s)
  pipe : ∀ s, s <:+ line → 4 * s.length + 3 ≤ fuel → Parses line .pipe s (parsepipe fuel s)
  exec : ∀ s, s <:+ line → 4 * s.length + 2 ≤ fuel → Parses line .exec s (parseexec fuel s)
  block : ∀ s ts, s <:+ line → 4 * s.length + 1 ≤ fuel → lex s = .lparen :: ts → Parses line .exec s (parseblock fuel s)

theorem parseline_sound (hline : 0 ∉ line) {fuel : ℕ} (ih : SoundAt line fuel) (s : List Byte) (hs : s <:+ line)
    (hf : 4 * s.length + 4 ≤ fuel + 1) : Parses line .line s (parseline (fuel + 1) s) := by
  have hpipe := ih.pipe s hs (by omega)
  rw [parseline]
  refine hpipe.bind fun cmd s1 ⟨hsuf1, hder1, hok1⟩ => ?_
  dsimp only at hsuf1 hder1 ⊢
  have hback := parseback_sound hline (s1.length + 1) cmd s1 (hsuf1.trans hs) (Nat.lt_succ_self _)
  refine hback.bind fun cmd2 s2 ⟨n, hcmd2, hsuf2, hlex2⟩ => ?_
  dsimp only at hcmd2 hsuf2 hlex2 ⊢
  subst hcmd2
  rw [hlex2] at hder1
  have h0 : 0 ∉ s2 := fun h => hline (hs.subset (hsuf1.subset (hsuf2.subset h)))
  have hok2 : (backs n cmd).SpansOk line := by
    rw [Cmd.SpansOk, strings_backs]
    exact hok1
  by_cases hsemi : ∃ ts, lex s2 = .semi :: ts
  · obtain ⟨ts, hlex3⟩ := hsemi
    obtain ⟨hlex4, -, hsuf4, hlen4, -⟩ := gettoken_skip hlex3
    rw [peek_eq ((peek_semi h0).mpr ⟨ts, hlex3⟩)]
    have hle := (hsuf2.trans hsuf1).length_le
    have hright := ih.full (gettoken (skip s2)).rest (hsuf4.trans (hsuf2.trans (hsuf1.trans hs))) (by omega)
    dsimp only
    rw [if_pos rfl]
    refine hright.bind fun right s3 ⟨hsuf5, hder5, hok5⟩ => ?_
    dsimp only at hsuf5 hder5 ⊢
    refine ⟨hsuf5.trans (hsuf4.trans (hsuf2.trans hsuf1)), ?_, ?_⟩
    · rw [Cmd.map, map_backs]
      rw [hlex4] at hder5
      rw [hlex3] at hder1
      exact .list n hder1 hder5
    · intro arg harg
      rcases List.mem_append.mp harg with harg | harg
      · exact hok2 arg harg
      · exact hok5 arg harg
  · rw [peek_false (by rw [peek_semi h0]; exact hsemi)]
    refine ⟨(skip_suffix s2).trans (hsuf2.trans hsuf1), ?_, hok2⟩
    dsimp only
    rw [map_backs, lex_skip]
    exact .line n hder1

theorem parsepipe_sound (hline : 0 ∉ line) {fuel : ℕ} (ih : SoundAt line fuel) (s : List Byte) (hs : s <:+ line)
    (hf : 4 * s.length + 3 ≤ fuel + 1) : Parses line .pipe s (parsepipe (fuel + 1) s) := by
  have hexec := ih.exec s hs (by omega)
  rw [parsepipe]
  refine hexec.bind fun cmd s1 ⟨hsuf1, hder1, hok1⟩ => ?_
  dsimp only at hsuf1 hder1 ⊢
  have h0 : 0 ∉ s1 := fun h => hline (hs.subset (hsuf1.subset h))
  by_cases hbar : ∃ ts, lex s1 = .bar :: ts
  · obtain ⟨ts, hlex2⟩ := hbar
    obtain ⟨hlex3, -, hsuf3, hlen3, -⟩ := gettoken_skip hlex2
    rw [peek_eq ((peek_bar h0).mpr ⟨ts, hlex2⟩)]
    have hle := hsuf1.length_le
    have hright := ih.pipe (gettoken (skip s1)).rest (hsuf3.trans (hsuf1.trans hs)) (by omega)
    dsimp only
    rw [if_pos rfl]
    refine hright.bind fun right s2 ⟨hsuf4, hder4, hok4⟩ => ?_
    dsimp only at hsuf4 hder4 ⊢
    refine ⟨hsuf4.trans (hsuf3.trans hsuf1), ?_, ?_⟩
    · rw [hlex3] at hder4
      rw [hlex2] at hder1
      exact .pipe hder1 hder4
    · intro arg harg
      rcases List.mem_append.mp harg with harg | harg
      · exact hok1 arg harg
      · exact hok4 arg harg
  · rw [peek_false (by rw [peek_bar h0]; exact hbar)]
    refine ⟨(skip_suffix s1).trans hsuf1, ?_, hok1⟩
    dsimp only
    rw [lex_skip]
    exact .single hder1

theorem parseexec_sound (hline : 0 ∉ line) {fuel : ℕ} (ih : SoundAt line fuel) (s : List Byte) (hs : s <:+ line)
    (hf : 4 * s.length + 2 ≤ fuel + 1) : Parses line .exec s (parseexec (fuel + 1) s) := by
  have h0 : 0 ∉ s := fun h => hline (hs.subset h)
  have hskip := skip_suffix s
  have hle := hskip.length_le
  rw [parseexec]
  by_cases hparen : ∃ ts, lex s = .lparen :: ts
  · obtain ⟨ts, hlex⟩ := hparen
    rw [peek_eq ((peek_lparen h0).mpr ⟨ts, hlex⟩)]
    have hblock := ih.block (skip s) ts (hskip.trans hs) (by omega) (by rw [lex_skip]; exact hlex)
    dsimp only
    rw [if_pos rfl]
    refine hblock.imp fun out ⟨hsuf, hder, hok⟩ => ?_
    rw [lex_skip] at hder
    exact ⟨hsuf.trans hskip, hder, hok⟩
  · rw [peek_false (by rw [peek_lparen h0]; exact hparen)]
    dsimp only
    rw [if_neg Bool.false_ne_true]
    have hredirs := parseredirs_sound hline ((skip s).length + 1) (.exec []) (skip s) (hskip.trans hs) (Nat.lt_succ_self _)
    refine hredirs.bind fun cmd s1 ⟨rs, hcmd, hsuf1, hder1, hok1⟩ => ?_
    dsimp only at hcmd hsuf1 hder1 ⊢
    have hargs := parseargs_sound hline (s1.length + 1) [] rs s1 (hsuf1.trans (hskip.trans hs)) (Nat.lt_succ_self _)
      (by decide)
    rw [← hcmd] at hargs
    cases h2 : parseargs (s1.length + 1) cmd 0 s1 with
    | error e =>
      rw [List.length_nil, h2] at hargs
      exact hargs
    | ok out =>
      obtain ⟨ret, argc, s2⟩ := out
      rw [List.length_nil, h2] at hargs
      obtain ⟨as, rs', hret, hargc, hlt, hsuf2, hder2, hok2, hok3⟩ := hargs
      dsimp only at hret hargc hlt hsuf2 hder2 ⊢
      rw [if_neg (not_le.mpr hlt)]
      refine ⟨hsuf2.trans (hsuf1.trans hskip), ?_, ?_⟩
      · rw [lex_skip] at hder1
        dsimp only
        rw [hret, map_wrap, List.map_append]
        refine .simple hder1 hder2 ?_
        rw [hargc, List.nil_append] at hlt
        rw [List.length_map]
        exact Nat.le_sub_one_of_lt hlt
      · intro arg harg
        dsimp only at harg
        rw [hret, strings_wrap, List.map_append] at harg
        rcases List.mem_append.mp harg with harg | harg
        · exact hok2 arg harg
        · rcases List.mem_append.mp harg with harg | harg
          · obtain ⟨x, hx, rfl⟩ := List.mem_map.mp harg
            exact hok1 x hx
          · obtain ⟨x, hx, rfl⟩ := List.mem_map.mp harg
            exact hok3 x hx

theorem parseblock_sound (hline : 0 ∉ line) {fuel : ℕ} (ih : SoundAt line fuel) (s : List Byte) (ts : List Token)
    (hs : s <:+ line) (hf : 4 * s.length + 1 ≤ fuel + 1) (hlex : lex s = .lparen :: ts) :
    Parses line .exec s (parseblock (fuel + 1) s) := by
  have h0 : 0 ∉ s := fun h => hline (hs.subset h)
  obtain ⟨hlex1, -, hsuf1, hlen1, -⟩ := gettoken_skip hlex
  have hinner := ih.full (gettoken (skip s)).rest (hsuf1.trans hs) (by omega)
  rw [parseblock, peek_eq ((peek_lparen h0).mpr ⟨ts, hlex⟩)]
  dsimp only
  rw [if_neg (by decide)]
  refine hinner.bind fun cmd s1 ⟨hsuf2, hder2, hok2⟩ => ?_
  dsimp only at hsuf2 hder2 ⊢
  have hs1 := hsuf2.trans (hsuf1.trans hs)
  have h01 : 0 ∉ s1 := fun h => hline (hs1.subset h)
  by_cases hparen : ∃ us, lex s1 = .rparen :: us
  · obtain ⟨us, hlex3⟩ := hparen
    obtain ⟨hlex4, -, hsuf4, -, -⟩ := gettoken_skip hlex3
    rw [peek_eq ((peek_rparen h01).mpr ⟨us, hlex3⟩)]
    dsimp only
    rw [if_neg (by decide)]
    refine (parseredirs_sound hline ((gettoken (skip s1)).rest.length + 1) cmd (gettoken (skip s1)).rest
      (hsuf4.trans hs1) (Nat.lt_succ_self _)).imp fun out ⟨rs, hcmd, hsuf5, hder5, hok5⟩ => ?_
    refine ⟨hsuf5.trans (hsuf4.trans (hsuf2.trans hsuf1)), ?_, ?_⟩
    · rw [hcmd, map_wrap, hlex]
      rw [hlex1, hlex3] at hder2
      rw [hlex4] at hder5
      exact .block hder2 hder5
    · intro arg harg
      rw [hcmd, strings_wrap] at harg
      rcases List.mem_append.mp harg with harg | harg
      · exact hok2 arg harg
      · obtain ⟨x, hx, rfl⟩ := List.mem_map.mp harg
        exact hok5 x hx
  · rw [peek_false (by rw [peek_rparen h01]; exact hparen)]
    trivial

theorem soundAt (hline : 0 ∉ line) (fuel : ℕ) : SoundAt line fuel := by
  induction fuel with
  | zero => exact ⟨fun _ _ _ => by omega, fun _ _ _ => by omega, fun _ _ _ => by omega, fun _ _ _ _ => by omega⟩
  | succ fuel ih =>
    exact ⟨parseline_sound hline ih, parsepipe_sound hline ih, parseexec_sound hline ih, parseblock_sound hline ih⟩

end Sound

section Complete

/-- What may come after an `X`. -/
def NonTerm.Follow : NonTerm → List Token → Prop
  | .line, us => us = [] ∨ ∃ vs, us = .rparen :: vs
  | .pipe, us => us = [] ∨ ∃ t vs, us = t :: vs ∧ (t = .rparen ∨ t = .amp ∨ t = .semi)
  | .exec, us => us = [] ∨ ∃ t vs, us = t :: vs ∧ t.Stops

variable {s : List Byte} {ts us : List Token} {fuel : ℕ}

theorem not_redir_of_follow (h : NonTerm.exec.Follow us) (r : Redir) (vs : List Token) : us ≠ .redir r :: vs := by
  rintro rfl
  rcases h with h | ⟨t, ws, h, hstop⟩
  · cases h
  · rw [← (List.cons.inj h).1] at hstop
    rcases hstop with h | h | h | h <;> cases h

theorem not_redir_of_words {ws : List (List Byte)} {rs : List (Redir × List Byte)} (h : Words ts ws rs us)
    (hus : NonTerm.exec.Follow us) (r : Redir) (vs : List Token) : ts ≠ .redir r :: vs := by
  cases h with
  | nil => exact not_redir_of_follow hus r vs
  | cons w hr hw => exact fun hc => by cases hc

theorem parseredirs_complete {rs : List (Redir × List Byte)} (h : Redirs ts rs us) (hus : ∀ r vs, us ≠ .redir r :: vs)
    (h0 : 0 ∉ s) (hlex : lex s = ts) (hf : s.length < fuel) (cmd : Cmd Span) :
    ∃ rs' s', parseredirs fuel cmd s = .ok (wrap cmd rs', s') ∧ words rs' = rs ∧ lex s' = us ∧ s' <:+ s := by
  induction h generalizing s fuel cmd with
  | nil ts =>
    obtain ⟨fuel, rfl⟩ := Nat.exists_eq_succ_of_ne_zero (Nat.ne_zero_of_lt hf)
    rw [parseredirs_stop h0 (fun r vs hc => hus r vs (hlex.symm.trans hc))]
    exact ⟨[], _, rfl, rfl, (lex_skip s).trans hlex, skip_suffix s⟩
  | cons r file h ih =>
    obtain ⟨fuel, rfl⟩ := Nat.exists_eq_succ_of_ne_zero (Nat.ne_zero_of_lt hf)
    obtain ⟨arg, s1, heq, hlex1, harg, -, hsuf1, hlen1⟩ := parseredirs_file h0 hlex
    obtain ⟨rs', s2, heq2, hrs, hlex2, hsuf2⟩ := ih hus (fun hc => h0 (hsuf1.subset hc)) hlex1
      (by omega : s1.length < fuel) (.redir cmd arg r.mode r.fd)
    refine ⟨(r, arg) :: rs', s2, heq.trans heq2, ?_, hlex2, hsuf2.trans hsuf1⟩
    rw [words, List.map_cons, ← words, hrs, ← harg]
    rfl

theorem parseargs_complete {ws : List (List Byte)} {rs : List (Redir × List Byte)} (h : Words ts ws rs us)
    (hus : NonTerm.exec.Follow us) (h0 : 0 ∉ s) (hlex : lex s = ts) (hf : s.length < fuel) (argv : List Span)
    (rs0 : List (Redir × Span)) (hlen : argv.length + ws.length < MAXARGS) :
    ∃ as rs' s', parseargs fuel (wrap (.exec argv) rs0) argv.length s =
        .ok (wrap (.exec (argv ++ as)) (rs0 ++ rs'), (argv ++ as).length, s') ∧
      as.map Span.word = ws ∧ words rs' = rs ∧ lex s' = us ∧ s' <:+ s := by
  induction h generalizing s fuel argv rs0 with
  | nil ts =>
    obtain ⟨fuel, rfl⟩ := Nat.exists_eq_succ_of_ne_zero (Nat.ne_zero_of_lt hf)
    rcases hus with rfl | ⟨t, vs, rfl, hstop⟩
    · rw [parseargs_end h0 hlex]
      refine ⟨[], [], [], ?_, rfl, rfl, by rw [lex], List.nil_suffix⟩
      rw [List.append_nil, List.append_nil]
    · rw [parseargs_stop h0 hlex hstop]
      refine ⟨[], [], skip s, ?_, rfl, rfl, (lex_skip s).trans hlex, skip_suffix s⟩
      rw [List.append_nil, List.append_nil]
  | @cons ts us vs rs rs' ws w hr hw ih =>
    obtain ⟨fuel, rfl⟩ := Nat.exists_eq_succ_of_ne_zero (Nat.ne_zero_of_lt hf)
    rw [List.length_cons] at hlen
    obtain ⟨arg, s1, heq, hlex1, harg, -, hsuf1, hlen1⟩ :=
      parseargs_word h0 hlex (show argv.length + 1 < MAXARGS by omega)
    have h01 : 0 ∉ s1 := fun hc => h0 (hsuf1.subset hc)
    obtain ⟨rs1, s2, heq2, hrs1, hlex2, hsuf2⟩ := parseredirs_complete hr (not_redir_of_words hw hus) h01 hlex1
      (Nat.lt_succ_self _) (wrap (.exec (argv ++ [arg])) rs0)
    have hle := hsuf2.length_le
    obtain ⟨as, rs2, s3, heq3, has, hrs2, hlex3, hsuf3⟩ := ih hus (fun hc => h01 (hsuf2.subset hc)) hlex2
      (by omega : s2.length < fuel) (argv ++ [arg]) (rs0 ++ rs1)
      (by rw [List.length_append, List.length_singleton]; omega)
    refine ⟨arg :: as, rs1 ++ rs2, s3, ?_, ?_, ?_, hlex3, hsuf3.trans (hsuf2.trans hsuf1)⟩
    · rw [heq, setArg_wrap, heq2]
      rw [wrap_append, List.length_append, List.length_singleton] at heq3
      dsimp only
      rw [heq3, List.append_assoc, List.append_assoc]
      rfl
    · rw [List.map_cons, harg, has]
    · rw [words, List.map_append, ← words, ← words, hrs1, hrs2]

theorem parseback_complete (n : ℕ) (hus : ∀ vs, us ≠ .amp :: vs) (h0 : 0 ∉ s)
    (hlex : lex s = List.replicate n .amp ++ us) (hf : s.length < fuel) (cmd : Cmd Span) :
    ∃ s', parseback fuel cmd s = .ok (backs n cmd, s') ∧ lex s' = us ∧ s' <:+ s := by
  induction n generalizing s fuel cmd with
  | zero =>
    obtain ⟨fuel, rfl⟩ := Nat.exists_eq_succ_of_ne_zero (Nat.ne_zero_of_lt hf)
    rw [List.replicate_zero, List.nil_append] at hlex
    rw [parseback_stop h0 (fun vs hc => hus vs (hlex.symm.trans hc))]
    exact ⟨_, rfl, (lex_skip s).trans hlex, skip_suffix s⟩
  | succ n ih =>
    obtain ⟨fuel, rfl⟩ := Nat.exists_eq_succ_of_ne_zero (Nat.ne_zero_of_lt hf)
    rw [List.replicate_succ, List.cons_append] at hlex
    obtain ⟨s1, heq, hlex1, hsuf1, hlen1⟩ := parseback_amp h0 hlex
    obtain ⟨s2, heq2, hlex2, hsuf2⟩ := ih (fun hc => h0 (hsuf1.subset hc)) hlex1 (by omega : s1.length < fuel) (.back cmd)
    exact ⟨s2, heq.trans heq2, hlex2, hsuf2.trans hsuf1⟩

/-- The function for `X`, and how much fuel it needs for a rest of `n` characters. -/
def parse : NonTerm → ℕ → List Byte → Parse
  | .line => parseline
  | .pipe => parsepipe
  | .exec => parseexec

def NonTerm.need (n : ℕ) : NonTerm → ℕ
  | .line => 4 * n + 4
  | .pipe => 4 * n + 3
  | .exec => 4 * n + 2

theorem NonTerm.need_pos {X : NonTerm} {n : ℕ} (hf : X.need n ≤ fuel) : ∃ f, fuel = f + 1 := by
  apply Nat.exists_eq_add_one_of_ne_zero
  cases X <;> simp only [need] at hf <;> omega

theorem not_lparen_of_simple {ts us vs : List Token} {ws : List (List Byte)} {rs rs' : List (Redir × List Byte)}
    (hr : Redirs ts rs us) (hw : Words us ws rs' vs) (hvs : NonTerm.exec.Follow vs) (xs : List Token) :
    ts ≠ .lparen :: xs := by
  cases hr with
  | cons r file h => exact fun hc => by cases hc
  | nil =>
    cases hw with
    | cons w h h' => exact fun hc => by cases hc
    | nil =>
      rintro rfl
      rcases hvs with h | ⟨t, ys, h, hstop⟩
      · cases h
      · rw [← (List.cons.inj h).1] at hstop
        rcases hstop with h | h | h | h <;> cases h

theorem parseline_after {n : ℕ} {c : Cmd Span} {s1 : List Byte} (h1 : parsepipe fuel s = .ok (c, s1)) (h01 : 0 ∉ s1)
    (hus : ∀ vs, us ≠ .amp :: vs) (hlex : lex s1 = List.replicate n .amp ++ us) :
    ∃ s2, lex s2 = us ∧ s2 <:+ s1 ∧ parseline (fuel + 1) s =
      if (peek [semicolon] s2).1 then
        match parseline fuel (gettoken (skip s2)).rest with
        | .error e => .error e
        | .ok (right, s) => .ok (.list (backs n c) right, s)
      else .ok (backs n c, skip s2) := by
  obtain ⟨s2, heq, hlex2, hsuf⟩ := parseback_complete n hus h01 hlex (Nat.lt_succ_self _) c
  refine ⟨s2, hlex2, hsuf, ?_⟩
  rw [parseline, h1]
  dsimp only
  rw [heq]
  rfl

theorem parse_complete {X : NonTerm} {cmd : Cmd (List Byte)} (h : Derives X ts cmd us) (hus : X.Follow us) (h0 : 0 ∉ s)
    (hlex : lex s = ts) (hf : X.need s.length ≤ fuel) :
    ∃ c s', parse X fuel s = .ok (c, s') ∧ c.map Span.word = cmd ∧ lex s' = us ∧ s' <:+ s := by
  induction h generalizing s fuel with
  | @line ts us cmd n h ih =>
    obtain ⟨fuel, rfl⟩ := NonTerm.need_pos hf
    have hamp : ∀ vs, us ≠ .amp :: vs := by
      rintro vs rfl
      rcases hus with h | ⟨vs, h⟩ <;> cases h
    have hsemi : ∀ vs, us ≠ .semi :: vs := by
      rintro vs rfl
      rcases hus with h | ⟨vs, h⟩ <;> cases h
    have hfol : NonTerm.pipe.Follow (List.replicate n .amp ++ us) := by
      cases n with
      | zero =>
        rcases hus with rfl | ⟨vs, rfl⟩
        · exact .inl rfl
        · exact .inr ⟨_, _, rfl, .inl rfl⟩
      | succ n => exact .inr ⟨_, _, rfl, .inr (.inl rfl)⟩
    obtain ⟨c, s1, h1, hc, hlex1, hsuf1⟩ := ih hfol h0 hlex (Nat.le_of_succ_le_succ hf)
    have h01 : 0 ∉ s1 := fun hc => h0 (hsuf1.subset hc)
    obtain ⟨s2, hlex2, hsuf2, heq⟩ := parseline_after h1 h01 hamp hlex1
    have hpeek : ¬ (peek [semicolon] s2).1 = true := by
      rw [peek_semi (fun hc => h01 (hsuf2.subset hc))]
      rintro ⟨vs, hvs⟩
      exact hsemi vs (hlex2.symm.trans hvs)
    rw [if_neg hpeek] at heq
    exact ⟨_, _, heq, by rw [map_backs, hc], (lex_skip s2).trans hlex2, (skip_suffix s2).trans (hsuf2.trans hsuf1)⟩
  | @list ts us vs cmd right n h hr ih ihr =>
    obtain ⟨fuel, rfl⟩ := NonTerm.need_pos hf
    have hfol : NonTerm.pipe.Follow (List.replicate n .amp ++ .semi :: us) := by
      cases n with
      | zero => exact .inr ⟨_, _, rfl, .inr (.inr rfl)⟩
      | succ n => exact .inr ⟨_, _, rfl, .inr (.inl rfl)⟩
    obtain ⟨c, s1, h1, hc, hlex1, hsuf1⟩ := ih hfol h0 hlex (Nat.le_of_succ_le_succ hf)
    have h01 : 0 ∉ s1 := fun hc => h0 (hsuf1.subset hc)
    obtain ⟨s2, hlex2, hsuf2, heq⟩ := parseline_after h1 h01 (fun vs hc => by cases hc) hlex1
    have h02 : 0 ∉ s2 := fun hc => h01 (hsuf2.subset hc)
    obtain ⟨hlex3, -, hsuf3, hlen3, -⟩ := gettoken_skip hlex2
    have hle := (hsuf2.trans hsuf1).length_le
    have hneed : NonTerm.line.need (gettoken (skip s2)).rest.length ≤ fuel := by
      change 4 * s.length + 4 ≤ fuel + 1 at hf
      change 4 * (gettoken (skip s2)).rest.length + 4 ≤ fuel
      omega
    obtain ⟨c', s3, h3, hc', hlex4, hsuf4⟩ := ihr hus (fun hc => h02 (hsuf3.subset hc)) hlex3 hneed
    rw [if_pos ((peek_semi h02).mpr ⟨us, hlex2⟩)] at heq
    change parseline fuel (gettoken (skip s2)).rest = _ at h3
    rw [h3] at heq
    refine ⟨_, _, heq, ?_, hlex4, hsuf4.trans (hsuf3.trans (hsuf2.trans hsuf1))⟩
    rw [Cmd.map, map_backs, hc, hc']
  | @single ts us cmd h ih =>
    obtain ⟨fuel, rfl⟩ := NonTerm.need_pos hf
    have hfol : NonTerm.exec.Follow us := by
      rcases hus with rfl | ⟨t, vs, rfl, rfl | rfl | rfl⟩
      · exact .inl rfl
      · exact .inr ⟨_, _, rfl, .inr (.inl rfl)⟩
      · exact .inr ⟨_, _, rfl, .inr (.inr (.inl rfl))⟩
      · exact .inr ⟨_, _, rfl, .inr (.inr (.inr rfl))⟩
    obtain ⟨c, s1, h1, hc, hlex1, hsuf1⟩ := ih hfol h0 hlex (Nat.le_of_succ_le_succ hf)
    change parseexec fuel s = _ at h1
    have hpeek : ¬ (peek [verticalBar] s1).1 = true := by
      rw [peek_bar (fun hc => h0 (hsuf1.subset hc)), hlex1]
      rintro ⟨vs, rfl⟩
      rcases hus with h | ⟨t, ws, h, ht⟩
      · cases h
      · rw [← (List.cons.inj h).1] at ht
        rcases ht with h | h | h <;> cases h
    refine ⟨c, skip s1, ?_, hc, (lex_skip s1).trans hlex1, (skip_suffix s1).trans hsuf1⟩
    change parsepipe (fuel + 1) s = _
    rw [parsepipe, h1]
    dsimp only
    rw [peek_false hpeek]
    rfl
  | @pipe ts us vs cmd right h hr ih ihr =>
    obtain ⟨fuel, rfl⟩ := NonTerm.need_pos hf
    obtain ⟨c, s1, h1, hc, hlex1, hsuf1⟩ := ih (.inr ⟨_, _, rfl, .inl rfl⟩) h0 hlex (Nat.le_of_succ_le_succ hf)
    change parseexec fuel s = _ at h1
    have h01 : 0 ∉ s1 := fun hc => h0 (hsuf1.subset hc)
    obtain ⟨hlex2, -, hsuf2, hlen2, -⟩ := gettoken_skip hlex1
    have hle := hsuf1.length_le
    have hneed : NonTerm.pipe.need (gettoken (skip s1)).rest.length ≤ fuel := by
      change 4 * s.length + 3 ≤ fuel + 1 at hf
      change 4 * (gettoken (skip s1)).rest.length + 3 ≤ fuel
      omega
    obtain ⟨c', s2, h2, hc', hlex3, hsuf3⟩ := ihr hus (fun hc => h01 (hsuf2.subset hc)) hlex2 hneed
    change parsepipe fuel (gettoken (skip s1)).rest = _ at h2
    refine ⟨.pipe c c', s2, ?_, by rw [Cmd.map, hc, hc'], hlex3, hsuf3.trans (hsuf2.trans hsuf1)⟩
    change parsepipe (fuel + 1) s = _
    rw [parsepipe, h1]
    dsimp only
    rw [peek_eq ((peek_bar h01).mpr ⟨us, hlex1⟩)]
    dsimp only
    rw [if_pos rfl, h2]
  | @block ts us vs cmd rs h hr ih =>
    -- `parseexec` peeks at the parenthesis and `parseblock` peeks again, at the skipped rest
    obtain ⟨fuel, rfl⟩ : ∃ f, fuel = f + 2 := Nat.exists_eq_add_of_le' (by
      change 4 * s.length + 2 ≤ fuel at hf
      omega)
    have h0' : 0 ∉ skip s := fun hc => h0 ((skip_suffix s).subset hc)
    have hlex' : lex (skip s) = .lparen :: ts := (lex_skip s).trans hlex
    obtain ⟨hlex1, -, hsuf1, hlen1, -⟩ := gettoken_skip hlex'
    have hle := (skip_suffix s).length_le
    have hneed : NonTerm.line.need (gettoken (skip (skip s))).rest.length ≤ fuel := by
      change 4 * s.length + 2 ≤ fuel + 2 at hf
      change 4 * (gettoken (skip (skip s))).rest.length + 4 ≤ fuel
      omega
    obtain ⟨c, s1, h1, hc, hlex2, hsuf2⟩ := ih (.inr ⟨us, rfl⟩) (fun hc => h0' (hsuf1.subset hc)) hlex1 hneed
    change parseline fuel (gettoken (skip (skip s))).rest = _ at h1
    have h01 : 0 ∉ s1 := fun hc => h0' ((hsuf2.trans hsuf1).subset hc)
    obtain ⟨hlex3, -, hsuf3, -, -⟩ := gettoken_skip hlex2
    obtain ⟨rs', s2, h2, hrs, hlex4, hsuf4⟩ := parseredirs_complete hr (not_redir_of_follow hus)
      (fun hc => h01 (hsuf3.subset hc)) hlex3 (Nat.lt_succ_self _) c
    have hsuf := hsuf4.trans (hsuf3.trans (hsuf2.trans (hsuf1.trans (skip_suffix s))))
    refine ⟨wrap c rs', s2, ?_, by rw [map_wrap, hc, ← hrs], hlex4, hsuf⟩
    change parseexec (fuel + 2) s = _
    rw [parseexec, peek_eq ((peek_lparen h0).mpr ⟨ts, hlex⟩)]
    dsimp only
    rw [if_pos rfl, parseblock, peek_eq ((peek_lparen h0').mpr ⟨ts, hlex'⟩)]
    dsimp only
    rw [if_neg (by decide), h1]
    dsimp only
    rw [peek_eq ((peek_rparen h01).mpr ⟨us, hlex2⟩)]
    dsimp only
    rw [if_neg (by decide), h2]
  | @simple ts us vs ws rs rs' hr hw hlen =>
    obtain ⟨fuel, rfl⟩ := NonTerm.need_pos hf
    have h0' : 0 ∉ skip s := fun hc => h0 ((skip_suffix s).subset hc)
    have hlt : ws.length < MAXARGS := Nat.lt_of_le_sub_one (by decide) hlen
    have hpeek : ¬ (peek [leftParen] s).1 = true := by
      rw [peek_lparen h0, hlex]
      rintro ⟨xs, hxs⟩
      exact not_lparen_of_simple hr hw hus xs hxs
    obtain ⟨rs1, s1, h1, hrs1, hlex1, hsuf1⟩ := parseredirs_complete hr (not_redir_of_words hw hus) h0'
      ((lex_skip s).trans hlex) (Nat.lt_succ_self _) (.exec [])
    obtain ⟨as, rs2, s2, h2, has, hrs2, hlex2, hsuf2⟩ := parseargs_complete hw hus
      (fun hc => h0' (hsuf1.subset hc)) hlex1 (Nat.lt_succ_self _) [] rs1 (by rw [List.length_nil, zero_add]; exact hlt)
    rw [List.length_nil, List.nil_append] at h2
    have hargc : ¬ MAXARGS ≤ as.length := by
      rw [← has, List.length_map] at hlt
      exact not_le.mpr hlt
    refine ⟨wrap (.exec as) (rs1 ++ rs2), s2, ?_, ?_, hlex2, hsuf2.trans (hsuf1.trans (skip_suffix s))⟩
    · change parseexec (fuel + 1) s = _
      rw [parseexec, peek_false hpeek]
      dsimp only
      rw [if_neg Bool.false_ne_true, h1]
      dsimp only
      rw [h2]
      dsimp only
      rw [if_neg hargc]
    · rw [map_wrap, List.map_append, Cmd.map, has]
      change wrap _ (words rs1 ++ words rs2) = _
      rw [hrs1, hrs2]

end Complete

section Buffer

variable {line buf : List Byte} {n i : ℕ}

theorem nulterminate_eq (n : ℕ) (cmd : Cmd Span) (buf : List Byte) :
    nulterminate n cmd buf = cmd.strings.foldl (terminate n) buf := by
  induction cmd generalizing buf with
  | exec argv => rfl
  | redir cmd file mode fd ih =>
    rw [nulterminate, ih, Cmd.strings, List.foldl_append]
    rfl
  | pipe left right ihl ihr => rw [nulterminate, ihl, ihr, Cmd.strings, List.foldl_append]
  | list left right ihl ihr => rw [nulterminate, ihl, ihr, Cmd.strings, List.foldl_append]
  | back cmd ih => exact ih buf

theorem length_terminated (args : List Span) (buf : List Byte) : (args.foldl (terminate n) buf).length = buf.length := by
  induction args generalizing buf with
  | nil => rfl
  | cons arg args ih => rw [List.foldl_cons, ih, terminate, List.length_set]

theorem terminated_other {args : List Span} (h : ∀ arg ∈ args, n - arg.eq.length ≠ i) :
    (args.foldl (terminate n) buf)[i]? = buf[i]? := by
  induction args generalizing buf with
  | nil => rfl
  | cons arg args ih =>
    rw [List.foldl_cons, ih (fun a ha => h a (List.mem_cons_of_mem _ ha)), terminate]
    exact List.getElem?_set_ne (h arg List.mem_cons_self)

theorem terminated_zero (args : List Span) (h : buf[i]? = some 0) : (args.foldl (terminate n) buf)[i]? = some 0 := by
  induction args generalizing buf with
  | nil => exact h
  | cons arg args ih =>
    apply ih
    rw [terminate, List.getElem?_set]
    split
    · rename_i heq
      rw [heq, if_pos (List.getElem?_eq_some_iff.mp h).1]
    · exact h

theorem terminated_end {args : List Span} {arg : Span} (h : arg ∈ args) (hlen : n - arg.eq.length < buf.length) :
    (args.foldl (terminate n) buf)[n - arg.eq.length]? = some 0 := by
  obtain ⟨pre, post, rfl⟩ := List.append_of_mem h
  rw [List.foldl_append, List.foldl_cons]
  apply terminated_zero
  rw [terminate, List.getElem?_set_self]
  rw [length_terminated]
  exact hlen

/-- The character behind a word ends it: it is no character of a word, or the NUL of the line. -/
theorem SpanOk.end_not_word {arg : Span} (h : SpanOk line arg) {c : Byte}
    (hc : (line ++ [0])[line.length - arg.eq.length]? = some c) (hi : line.length - arg.eq.length < line.length) :
    isWord c = false := by
  obtain ⟨pre, hpre⟩ := h.suffix
  obtain ⟨w, hw, -⟩ := h.word
  have hlen : line.length - arg.eq.length = (pre ++ w).length := by
    rw [← hpre, hw, ← List.append_assoc, List.length_append, Nat.add_sub_cancel]
  rw [List.getElem?_append_left hi, hlen] at hc
  rw [← hpre, hw, ← List.append_assoc, List.getElem?_append_right (Nat.le_refl _), Nat.sub_self] at hc
  exact h.ends c (by rw [List.head?_eq_getElem?]; exact hc)

/-- What `nulterminate` leaves at `q` is the word: no end of another one lies within it. -/
theorem stringAt_nulterminate (hline : 0 ∉ line) {cmd : Cmd Span} (hok : cmd.SpansOk line) {arg : Span}
    (harg : arg ∈ cmd.strings) :
    stringAt line.length (nulterminate line.length cmd (line ++ [0])) arg = arg.word := by
  have hspan := hok arg harg
  obtain ⟨pre, hpre⟩ := hspan.suffix
  obtain ⟨w, hw, hword⟩ := hspan.word
  have hq := hspan.q_eq
  have hwq : w = arg.word := List.append_cancel_right (hw.symm.trans hq)
  subst hwq
  have hlq : line.length - arg.q.length = pre.length := by rw [← hpre, List.length_append, Nat.add_sub_cancel]
  have hle : line.length - arg.eq.length = pre.length + arg.word.length := by
    rw [← hpre, hq, ← List.append_assoc, List.length_append, Nat.add_sub_cancel, List.length_append]
  have hget : ∀ j < arg.word.length, (pre ++ arg.q)[pre.length + j]? = arg.word[j]? := by
    intro j hj
    rw [List.getElem?_append_right (Nat.le_add_right _ _), Nat.add_sub_cancel_left, hq, List.getElem?_append_left hj]
  rw [hpre] at hget
  rw [nulterminate_eq, stringAt, hlq]
  set buf := cmd.strings.foldl (terminate line.length) (line ++ [0]) with hbuf
  have hmid : ∀ j < arg.word.length, buf[pre.length + j]? = arg.word[j]? := by
    intro j hj
    have hjw := List.getElem?_eq_getElem hj
    have hin : pre.length + j < line.length := (List.getElem?_eq_some_iff.mp ((hget j hj).trans hjw)).1
    rw [hbuf, terminated_other, List.getElem?_append_left hin, hget j hj]
    intro other hother heq
    have hend := (hok other hother).end_not_word (c := arg.word[j])
      (by rw [heq, List.getElem?_append_left hin, hget j hj, hjw]) (by rw [heq]; exact hin)
    rw [hword _ (List.getElem_mem hj)] at hend
    cases hend
  have hstop : buf[pre.length + arg.word.length]? = some 0 := by
    rw [hbuf, ← hle]
    apply terminated_end harg
    rw [List.length_append, List.length_singleton]
    omega
  have htake : (buf.drop pre.length).take arg.word.length = arg.word := by
    apply List.ext_getElem?
    intro j
    rw [List.getElem?_take]
    split
    · rename_i hj
      rw [List.getElem?_drop, hmid j hj]
    · rename_i hj
      rw [List.getElem?_eq_none (not_lt.mp hj)]
  have hdrop : ∃ rest, (buf.drop pre.length).drop arg.word.length = 0 :: rest := by
    rw [List.drop_drop]
    obtain ⟨hlt, h0⟩ := List.getElem?_eq_some_iff.mp hstop
    rw [List.drop_eq_getElem_cons hlt, h0]
    exact ⟨_, rfl⟩
  obtain ⟨rest, hdrop⟩ := hdrop
  rw [← List.take_append_drop arg.word.length (buf.drop pre.length), htake, hdrop, List.takeWhile_append_of_pos,
    List.takeWhile_cons_of_neg, List.append_nil]
  · decide
  · intro c hc
    have hcl : c ∈ line := by
      rw [← hpre, hq]
      exact List.mem_append_right _ (List.mem_append_left _ hc)
    exact decide_eq_true (fun h0 => hline (h0 ▸ hcl))

theorem map_congr {σ τ : Type} {f g : σ → τ} {cmd : Cmd σ} (h : ∀ arg ∈ cmd.strings, f arg = g arg) :
    cmd.map f = cmd.map g := by
  induction cmd with
  | exec argv => exact congrArg Cmd.exec (List.map_congr_left h)
  | redir cmd file mode fd ih =>
    rw [Cmd.map, Cmd.map, ih (fun a ha => h a (List.mem_append_left _ ha)),
      h file (List.mem_append_right _ List.mem_cons_self)]
  | pipe left right ihl ihr =>
    rw [Cmd.map, Cmd.map, ihl (fun a ha => h a (List.mem_append_left _ ha)),
      ihr (fun a ha => h a (List.mem_append_right _ ha))]
  | list left right ihl ihr =>
    rw [Cmd.map, Cmd.map, ihl (fun a ha => h a (List.mem_append_left _ ha)),
      ihr (fun a ha => h a (List.mem_append_right _ ha))]
  | back cmd ih => exact congrArg Cmd.back (ih h)

end Buffer

/-- `parsecmd` accepts the lines of the grammar, with the tree of the derivation; on every other
line it ends with a `panic`, and it never writes an `argv` entry out of bounds. -/
theorem parsecmd_iff_derives {line : List Byte} (hline : 0 ∉ line) :
    (∀ cmd, parsecmd line = .ok cmd ↔ Derives .line (lex line) cmd []) ∧
    ∀ e, parsecmd line = .error e → e.IsPanic := by
  have hsound := (soundAt hline (4 * line.length + 4)).full line (List.suffix_refl _) (Nat.le_refl _)
  have hcomplete : ∀ cmd, Derives .line (lex line) cmd [] → ∃ c s', parseline (4 * line.length + 4) line = .ok (c, s') ∧
      c.map Span.word = cmd ∧ lex s' = [] ∧ s' <:+ line := fun cmd h =>
    parse_complete h (.inl rfl) hline rfl (Nat.le_refl _)
  rw [parsecmd]
  cases hparse : parseline (4 * line.length + 4) line with
  | error e =>
    rw [hparse] at hsound
    refine ⟨fun cmd => ⟨fun h => (by cases h), fun h => ?_⟩, fun e' h => ?_⟩
    · obtain ⟨c, s', hc, -⟩ := hcomplete cmd h
      rw [hparse] at hc
      cases hc
    · cases h
      exact hsound
  | ok out =>
    obtain ⟨c, s⟩ := out
    rw [hparse] at hsound
    obtain ⟨hsuf, hder, hok⟩ := hsound
    dsimp only at hsuf hder hok ⊢
    have hstrings : c.map (stringAt line.length (nulterminate line.length c (line ++ [0]))) = c.map Span.word :=
      map_congr (fun arg harg => stringAt_nulterminate hline hok harg)
    rw [peek_rest, hstrings]
    by_cases hnil : skip s = []
    · rw [if_neg (not_not.mpr hnil)]
      have hlex : lex s = [] := by rw [← lex_skip, hnil, lex]
      rw [hlex] at hder
      refine ⟨fun cmd => ⟨fun h => ?_, fun h => ?_⟩, fun e h => by cases h⟩
      · cases h
        exact hder
      · obtain ⟨c', s', hc, hmap, -⟩ := hcomplete cmd h
        rw [hparse] at hc
        cases hc
        rw [hmap]
    · rw [if_pos hnil]
      refine ⟨fun cmd => ⟨fun h => (by cases h), fun h => ?_⟩, fun e h => ?_⟩
      · obtain ⟨c', s', hc, -, hlex, -⟩ := hcomplete cmd h
        rw [hparse] at hc
        cases hc
        exact absurd (skip_of_lex_nil hlex) hnil
      · cases h
        trivial

/-- `a<b|(c)&` -/
theorem parsecmd_iff_derives_pipe :
    0 ∉ ([0x61, 0x3c, 0x62, 0x7c, 0x28, 0x63, 0x29, 0x26] : List Byte) ∧
    Derives .line (lex [0x61, 0x3c, 0x62, 0x7c, 0x28, 0x63, 0x29, 0x26])
      (.back (.pipe (.redir (.exec [[0x61]]) [0x62] O_RDONLY 0) (.exec [[0x63]]))) [] := by
  have hline : 0 ∉ ([0x61, 0x3c, 0x62, 0x7c, 0x28, 0x63, 0x29, 0x26] : List Byte) := by decide
  refine ⟨hline, ((parsecmd_iff_derives hline).1 _).mp ?_⟩
  rfl

/-- In the tree that `parsecmd` returns every string is the word it was parsed from. The writes of
`nulterminate` are at the ends of these words, which lie in the line or at its NUL. -/
theorem nulterminate_words {line : List Byte} (hline : 0 ∉ line) {t : Cmd (List Byte)} (h : parsecmd line = .ok t) :
    ∃ cmd s, parseline (4 * line.length + 4) line = .ok (cmd, s) ∧
      t = cmd.map (stringAt line.length (nulterminate line.length cmd (line ++ [0]))) ∧
      Derives .line (lex line) (cmd.map Span.word) [] ∧
      (∀ arg ∈ cmd.strings, SpanOk line arg ∧ arg.eq <:+ line ∧
        stringAt line.length (nulterminate line.length cmd (line ++ [0])) arg = arg.word) ∧
      ∀ i, (∀ arg ∈ cmd.strings, line.length - arg.eq.length ≠ i) →
        (nulterminate line.length cmd (line ++ [0]))[i]? = (line ++ [0])[i]? := by
  have hsound := (soundAt hline (4 * line.length + 4)).full line (List.suffix_refl _) (Nat.le_refl _)
  rw [parsecmd] at h
  cases hparse : parseline (4 * line.length + 4) line with
  | error e =>
    rw [hparse] at h
    cases h
  | ok out =>
    obtain ⟨cmd, s⟩ := out
    rw [hparse] at hsound h
    obtain ⟨-, hder, hok⟩ := hsound
    dsimp only at hder hok h
    rw [peek_rest] at h
    split_ifs at h with hnil
    cases h
    have hlex : lex s = [] := by rw [← lex_skip, not_not.mp hnil, lex]
    refine ⟨cmd, s, rfl, rfl, hlex ▸ hder, ?_, ?_⟩
    · intro arg harg
      have hspan := hok arg harg
      have heq : arg.eq <:+ arg.q := ⟨arg.word, hspan.q_eq.symm⟩
      exact ⟨hspan, heq.trans hspan.suffix, stringAt_nulterminate hline hok harg⟩
    · intro i hi
      rw [nulterminate_eq]
      exact terminated_other hi

/-- `a<b` -/
theorem nulterminate_words_redir :
    ∃ cmd s, parseline 16 [0x61, 0x3c, 0x62] = .ok (cmd, s) ∧ ∀ arg ∈ cmd.strings,
      arg.eq <:+ [0x61, 0x3c, 0x62] ∧ stringAt 3 (nulterminate 3 cmd [0x61, 0x3c, 0x62, 0]) arg = arg.word := by
  have hline : (0 : Byte) ∉ [0x61, 0x3c, 0x62] := by decide
  have hcmd : parsecmd [0x61, 0x3c, 0x62] = .ok (.redir (.exec [[0x61]]) [0x62] O_RDONLY 0) := rfl
  obtain ⟨cmd, s, hparse, -, -, hwords, -⟩ := nulterminate_words hline hcmd
  exact ⟨cmd, s, hparse, fun arg harg => (hwords arg harg).2⟩

end Xv6.Sh
