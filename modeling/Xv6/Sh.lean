import Mathlib

/-! The parser of the shell (user/sh.c): `gettoken` and `peek`, the five parse functions, and
`nulterminate`. A `char *` into the line is the rest of the line from there on, so that `es` is the
empty rest; allocating a node always succeeds. -/
namespace Xv6.Sh

section Tokenizer

abbrev Byte := BitVec 8

/-- `whitespace` is " \t\r\n\v", `symbols` is "<|>&;()". -/
def whitespace : List Byte := [0x20, 0x09, 0x0d, 0x0a, 0x0b]
def symbols : List Byte := [0x3c, 0x7c, 0x3e, 0x26, 0x3b, 0x28, 0x29]

def lessThan : Byte := 0x3c
def verticalBar : Byte := 0x7c
def greaterThan : Byte := 0x3e
def ampersand : Byte := 0x26
def semicolon : Byte := 0x3b
def leftParen : Byte := 0x28
def rightParen : Byte := 0x29

/-- Whether `strchr(cs, c)` finds the character; it does not find the final NUL. -/
def strchr (cs : List Byte) (c : Byte) : Bool := decide (c ∈ cs)

/-- `*s` -/
def deref (s : List Byte) : Byte := s.headD 0

/-- `while(s < es && strchr(whitespace, *s)) s++;` -/
def skip (s : List Byte) : List Byte := s.dropWhile (strchr whitespace)

/-- What `gettoken` returns: 0, the character itself, '+' for ">>", and 'a' for a word. -/
inductive Tok where
  | eos
  | bar
  | lparen
  | rparen
  | semi
  | amp
  | less
  | greater
  | append
  | word
  deriving DecidableEq

/-- The token, `*q` and `*eq`, and the new `*ps`. -/
structure Got where
  tok : Tok
  q : List Byte
  eq : List Byte
  rest : List Byte

/-- The `switch` of `gettoken`: the token at `s`, and where it ends. -/
def scan (s : List Byte) : Tok × List Byte :=
  match s with
  | [] => (.eos, s)
  | c :: cs =>
    if c = verticalBar then (.bar, cs)
    else if c = leftParen then (.lparen, cs)
    else if c = rightParen then (.rparen, cs)
    else if c = semicolon then (.semi, cs)
    else if c = ampersand then (.amp, cs)
    else if c = lessThan then (.less, cs)
    else if c = greaterThan then
      if deref cs = greaterThan then (.append, cs.tail) else (.greater, cs)
    else (.word, s.dropWhile (fun c => !strchr whitespace c && !strchr symbols c))

def gettoken (s : List Byte) : Got :=
  let q := skip s
  let (ret, eq) := scan q
  ⟨ret, q, eq, skip eq⟩

def peek (toks : List Byte) (s : List Byte) : Bool × List Byte :=
  let s := skip s
  (deref s ≠ 0 && strchr toks (deref s), s)

end Tokenizer

section Commands

def MAXARGS : ℕ := 10

/-- The modes for `open` (kernel/fcntl.h). -/
def O_RDONLY : ℕ := 0x000
def O_WRONLY : ℕ := 0x001
def O_CREATE : ℕ := 0x200
def O_TRUNC : ℕ := 0x400

/-- `struct cmd`; `σ` stands for strings. An EXEC node has its words up to the first null pointer. -/
inductive Cmd (σ : Type) where
  | exec (argv : List σ)
  | redir (cmd : Cmd σ) (file : σ) (mode fd : ℕ)
  | pipe (left right : Cmd σ)
  | list (left right : Cmd σ)
  | back (cmd : Cmd σ)
  deriving DecidableEq

def Cmd.map {σ τ : Type} (f : σ → τ) : Cmd σ → Cmd τ
  | .exec argv => .exec (argv.map f)
  | .redir cmd file mode fd => .redir (cmd.map f) (f file) mode fd
  | .pipe left right => .pipe (left.map f) (right.map f)
  | .list left right => .list (left.map f) (right.map f)
  | .back cmd => .back (cmd.map f)

/-- A string while the line is parsed: `q` and `eq`. -/
structure Span where
  q : List Byte
  eq : List Byte

/-- `cmd->argv[argc] = q; cmd->eargv[argc] = eq;` where `cmd` is the EXEC node at the bottom of
the redirections `ret`. -/
def Cmd.setArg (argc : ℕ) (arg : Span) : Cmd Span → Cmd Span
  | .exec argv => .exec (argv.take argc ++ [arg])
  | .redir cmd file mode fd => .redir (cmd.setArg argc arg) file mode fd
  | cmd => cmd

/-- The calls of `panic`, an index outside of `argv`, and a loop or recursion that did not end in
time. -/
inductive ShError where
  | syntaxPanic
  | leftovers
  | missingFile
  | parseblock
  | missingParen
  | tooManyArgs
  | argvIndex
  | fuel
  deriving DecidableEq

abbrev Parse := Except ShError (Cmd Span × List Byte)

end Commands

section Parser

def parseredirs : ℕ → Cmd Span → List Byte → Parse
  | 0, _, _ => .error .fuel
  | fuel + 1, cmd, s =>
    let (more, s) := peek [lessThan, greaterThan] s
    if more then
      let op := gettoken s
      let file := gettoken op.rest
      if file.tok ≠ .word then .error .missingFile
      else
        let arg := ⟨file.q, file.eq⟩
        match op.tok with
        | .less => parseredirs fuel (.redir cmd arg O_RDONLY 0) file.rest
        | .greater => parseredirs fuel (.redir cmd arg (O_WRONLY ||| O_CREATE ||| O_TRUNC) 1) file.rest
        | .append => parseredirs fuel (.redir cmd arg (O_WRONLY ||| O_CREATE) 1) file.rest
        | _ => parseredirs fuel cmd file.rest
    else .ok (cmd, s)

/-- The loop of `parseexec`; it ends with `argc`. -/
def parseargs : ℕ → Cmd Span → ℕ → List Byte → Except ShError (Cmd Span × ℕ × List Byte)
  | 0, _, _, _ => .error .fuel
  | fuel + 1, ret, argc, s =>
    let (stop, s) := peek [verticalBar, rightParen, ampersand, semicolon] s
    if stop then .ok (ret, argc, s)
    else
      let arg := gettoken s
      if arg.tok = .eos then .ok (ret, argc, arg.rest)
      else if arg.tok ≠ .word then .error .syntaxPanic
      else if MAXARGS ≤ argc then .error .argvIndex
      else
        let ret := ret.setArg argc ⟨arg.q, arg.eq⟩
        let argc := argc + 1
        if MAXARGS ≤ argc then .error .tooManyArgs
        else
          match parseredirs (arg.rest.length + 1) ret arg.rest with
          | .error e => .error e
          | .ok (ret, s) => parseargs fuel ret argc s

/-- `while(peek(ps, es, "&"))` in `parseline`. -/
def parseback : ℕ → Cmd Span → List Byte → Parse
  | 0, _, _ => .error .fuel
  | fuel + 1, cmd, s =>
    let (more, s) := peek [ampersand] s
    if more then parseback fuel (.back cmd) (gettoken s).rest else .ok (cmd, s)

mutual

def parseline : ℕ → List Byte → Parse
  | 0, _ => .error .fuel
  | fuel + 1, s =>
    match parsepipe fuel s with
    | .error e => .error e
    | .ok (cmd, s) =>
      match parseback (s.length + 1) cmd s with
      | .error e => .error e
      | .ok (cmd, s) =>
        let (more, s) := peek [semicolon] s
        if more then
          match parseline fuel (gettoken s).rest with
          | .error e => .error e
          | .ok (right, s) => .ok (.list cmd right, s)
        else .ok (cmd, s)

def parsepipe : ℕ → List Byte → Parse
  | 0, _ => .error .fuel
  | fuel + 1, s =>
    match parseexec fuel s with
    | .error e => .error e
    | .ok (cmd, s) =>
      let (more, s) := peek [verticalBar] s
      if more then
        match parsepipe fuel (gettoken s).rest with
        | .error e => .error e
        | .ok (right, s) => .ok (.pipe cmd right, s)
      else .ok (cmd, s)

def parseexec : ℕ → List Byte → Parse
  | 0, _ => .error .fuel
  | fuel + 1, s =>
    let (block, s) := peek [leftParen] s
    if block then parseblock fuel s
    else
      match parseredirs (s.length + 1) (.exec []) s with
      | .error e => .error e
      | .ok (ret, s) =>
        match parseargs (s.length + 1) ret 0 s with
        | .error e => .error e
        -- `cmd->argv[argc] = 0;`
        | .ok (ret, argc, s) => if MAXARGS ≤ argc then .error .argvIndex else .ok (ret, s)

def parseblock : ℕ → List Byte → Parse
  | 0, _ => .error .fuel
  | fuel + 1, s =>
    let (start, s) := peek [leftParen] s
    if !start then .error .parseblock
    else
      match parseline fuel (gettoken s).rest with
      | .error e => .error e
      | .ok (cmd, s) =>
        let (stop, s) := peek [rightParen] s
        if !stop then .error .missingParen
        else
          let rest := (gettoken s).rest
          parseredirs (rest.length + 1) cmd rest

end

/-- `*eq = 0;` in a buffer that holds a line of `n` characters and its NUL. -/
def terminate (n : ℕ) (buf : List Byte) (arg : Span) : List Byte := buf.set (n - arg.eq.length) 0

def nulterminate (n : ℕ) : Cmd Span → List Byte → List Byte
  | .exec argv, buf => argv.foldl (terminate n) buf
  | .redir cmd file _ _, buf => terminate n (nulterminate n cmd buf) file
  | .pipe left right, buf => nulterminate n right (nulterminate n left buf)
  | .list left right, buf => nulterminate n right (nulterminate n left buf)
  | .back cmd, buf => nulterminate n cmd buf

/-- The string at `q` in the buffer, up to its NUL. -/
def stringAt (n : ℕ) (buf : List Byte) (arg : Span) : List Byte :=
  (buf.drop (n - arg.q.length)).takeWhile (fun c => c ≠ 0)

/-- `parsecmd` of a line, with the strings that its result points to. -/
def parsecmd (line : List Byte) : Except ShError (Cmd (List Byte)) :=
  -- no recursion is deeper: see `soundAt`
  match parseline (4 * line.length + 4) line with
  | .error e => .error e
  | .ok (cmd, s) =>
    let (_, s) := peek [] s
    if s ≠ [] then .error .leftovers
    else .ok (cmd.map (stringAt line.length (nulterminate line.length cmd (line ++ [0]))))

end Parser

section Loops

variable {s : List Byte} {fuel : ℕ} {cmd : Cmd Span}

theorem peek_eq {toks : List Byte} {b : Bool} (h : (peek toks s).1 = b) : peek toks s = (b, skip s) := by
  rw [← h]
  rfl

theorem peek_false {toks : List Byte} (h : ¬ (peek toks s).1 = true) : peek toks s = (false, skip s) :=
  peek_eq (Bool.eq_false_of_not_eq_true h)

theorem parseredirs_done (h : ¬ (peek [lessThan, greaterThan] s).1 = true) :
    parseredirs (fuel + 1) cmd s = .ok (cmd, skip s) := by
  rw [parseredirs, peek_false h]
  rfl

theorem parseargs_done {argc : ℕ} (h : (peek [verticalBar, rightParen, ampersand, semicolon] s).1 = true) :
    parseargs (fuel + 1) cmd argc s = .ok (cmd, argc, skip s) := by
  rw [parseargs, peek_eq h]
  rfl

theorem parseback_done (h : ¬ (peek [ampersand] s).1 = true) : parseback (fuel + 1) cmd s = .ok (cmd, skip s) := by
  rw [parseback, peek_false h]
  rfl

end Loops

end Xv6.Sh
