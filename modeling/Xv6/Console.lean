import Xv6.ProcMonitor

/-! Console input (kernel/console.c): `consoleread` and `consoleintr` as a client of `sleep` and
`wakeup` with the condition lock `cons.lock`. Output and echo do not touch this state. -/
namespace Xv6

def INPUT_BUF_SIZE : ℕ := 128

/-- `C('D')`, `C('U')`, `C('H')`, `C('P')`, and delete, newline, carriage return. -/
def ctrlD : BitVec 8 := 0x04
def ctrlU : BitVec 8 := 0x15
def ctrlH : BitVec 8 := 0x08
def ctrlP : BitVec 8 := 0x10
def delete : BitVec 8 := 0x7f
def newline : BitVec 8 := 0x0a
def carriageReturn : BitVec 8 := 0x0d

/-- `cons`, without its lock. The indices are `uint`: they wrap. -/
structure Cons where
  buf : ℕ → BitVec 8
  r : BitVec 32
  w : BitVec 32
  e : BitVec 32

/-- `cons.buf[i % INPUT_BUF_SIZE]` -/
def Cons.at (c : Cons) (i : BitVec 32) : BitVec 8 := c.buf (i.toNat % INPUT_BUF_SIZE)

/-- `while(cons.e != cons.w && cons.buf[(cons.e-1) % INPUT_BUF_SIZE] != '\n') cons.e--;`
for at most `fuel` rounds. -/
def Cons.killLine (c : Cons) : ℕ → Cons
  | 0 => c
  | fuel + 1 =>
    if c.e ≠ c.w ∧ c.at (c.e - 1) ≠ newline then Cons.killLine { c with e := c.e - 1 } fuel else c

/-- `c = (c == '\r') ? '\n' : c;` -/
def crToLf (ch : BitVec 8) : BitVec 8 := if ch = carriageReturn then newline else ch

/-- `cons.buf[cons.e++ % INPUT_BUF_SIZE] = c;` -/
def Cons.store (c : Cons) (ch : BitVec 8) : Cons :=
  { c with
    buf := update c.buf (c.e.toNat % INPUT_BUF_SIZE) ch
    e := c.e + 1 }

/-- The body of `consoleintr` under `cons.lock`; the flag says whether it calls
`wakeup(&cons.r)`. -/
def Cons.intr (c : Cons) (ch : BitVec 8) : Cons × Bool :=
  if ch = ctrlP then (c, false)
  -- `e - w` rounds are all that the loop can make
  else if ch = ctrlU then (c.killLine (c.e - c.w).toNat, false)
  else if ch = ctrlH ∨ ch = delete then
    (if c.e ≠ c.w then { c with e := c.e - 1 } else c, false)
  else if ch ≠ 0 ∧ (c.e - c.r).toNat < INPUT_BUF_SIZE then
    let ch := crToLf ch
    let c := c.store ch
    if ch = newline ∨ ch = ctrlD ∨ (c.e - c.r).toNat = INPUT_BUF_SIZE then
      ({ c with w := c.e }, true)
    else (c, false)
  else (c, false)

/-- A call of `consoleread(user_dst, dst, n)`: `dst i` says whether `either_copyout` can
store at `dst + i`. -/
structure ConsRead where
  dst : ℕ → Bool
  target : ℤ

/-- The points of the code between two accesses to shared data. `got` are the bytes copied
out so far, so `n` is `target - got.length`; a read that returns -1 returns `none`. -/
inductive ConsPt where
  | user
  | readAcquire (c : ConsRead)
  | readLoop (c : ConsRead) (got : List (BitVec 8))
  | readWait (c : ConsRead) (got : List (BitVec 8))
  | readKilled (c : ConsRead) (got : List (BitVec 8))
  | readByte (c : ConsRead) (got : List (BitVec 8))
  | readReturn (res : Option (List (BitVec 8)))
  | intrAcquire (ch : BitVec 8)
  | intrBody (ch : BitVec 8)
  | intrReturn

/-- The part of `consoleread`'s loop that takes a byte. -/
def Cons.take (c : Cons) (rd : ConsRead) (got : List (BitVec 8)) : Cons × ConsPt :=
  let ch := c.at c.r
  let taken := { c with r := c.r + 1 }
  if ch = ctrlD then
    -- with bytes in hand the ^D is left for the next read
    (if got = [] then taken else c, .readReturn (some got))
  else if rd.dst got.length then
    (taken,
      if ch = newline then .readReturn (some (got ++ [ch])) else .readLoop rd (got ++ [ch]))
  else (taken, .readReturn (some got))

/-- The buffer, the characters that `consoleintr` has handled, and what each `consoleread`
that has returned gave back. -/
structure ConsG where
  cons : Cons
  input : List (BitVec 8)
  returned : List (Option (List (BitVec 8)))

/-- The only channel is `&cons.r`. -/
abbrev ConsKern := Kern Unit ConsPt ConsG

inductive ConsAct where
  | consoleread (dst : ℕ → Bool) (n : ℤ)
  /-- the uart has a character; its interrupt is taken on the CPU that runs this process -/
  | intr (ch : BitVec 8)
  /-- go on in the code -/
  | go

/-- One step of thread `t` in console.c. -/
def consoleStep (s : ConsKern) (t : ℕ) : ConsPt → ConsAct → Option ConsKern
  | .user, .consoleread dst n => some (s.setPc t (.run (.readAcquire ⟨dst, n⟩)))
  | .user, .intr ch => some (s.setPc t (.run (.intrAcquire ch)))
  -- consoleread
  | .readAcquire c, .go =>
    if s.lk = none then some ((s.setLk (some t)).setPc t (.run (.readLoop c []))) else none
  | .readLoop c got, .go =>
    if 0 < c.target - got.length then some (s.setPc t (.run (.readWait c got)))
    else some (s.setPc t (.run (.readReturn (some got))))
  | .readWait c got, .go =>
    if s.g.cons.r = s.g.cons.w then some (s.setPc t (.run (.readKilled c got)))
    else some (s.setPc t (.run (.readByte c got)))
  | .readKilled c got, .go =>
    -- `killed(myproc())` takes `p->lock`
    if s.plock t = none then
      if (s.proc t).killed then some (s.setPc t (.run (.readReturn none)))
      else some (s.setPc t (.sleepLock () (.readWait c got)))
    else none
  | .readByte c got, .go =>
    let (cons, k) := s.g.cons.take c got
    some ((s.setG { s.g with cons := cons }).setPc t (.run k))
  | .readReturn res, .go =>
    some (((s.setLk none).setG { s.g with returned := s.g.returned ++ [res] }).setPc t
      (.run .user))
  -- consoleintr
  | .intrAcquire ch, .go =>
    if s.lk = none then some ((s.setLk (some t)).setPc t (.run (.intrBody ch))) else none
  | .intrBody ch, .go =>
    let (c, wake) := s.g.cons.intr ch
    some ((s.setG { s.g with cons := c, input := s.g.input ++ [ch] }).setPc t
      (if wake then .wakeup () 0 .intrReturn else .run .intrReturn))
  | .intrReturn, .go => some ((s.setLk none).setPc t (.run .user))
  | _, _ => none

def consoleClient : Client Unit ConsPt ConsG ConsAct where
  step := consoleStep
  preemptible := fun k => match k with
    | .user | .readAcquire _ => true
    | _ => false

/-- After `consoleinit`: `cons` is zero, `N` processes run in user mode, no lock is held. -/
def consoleInit : ConsKern where
  proc := fun _ => ⟨.RUNNING, none, false, 0, 0, none⟩
  plock := fun _ => none
  lk := none
  pc := fun _ => .run .user
  g := ⟨⟨fun _ => 0, 0, 0, 0⟩, [], []⟩

end Xv6
