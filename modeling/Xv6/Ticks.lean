import Xv6.ProcMonitor

/-! `sys_pause` (kernel/sysproc.c) and `clockintr` (kernel/trap.c), as a client of `sleep`
and `wakeup` with the condition lock `tickslock`. -/
namespace Xv6

/-- The points of the code between two accesses to shared data. -/
inductive TickPt where
  | user
  | pauseAcquire (n : BitVec 32)
  /-- the test of the loop, with the time `ticks0` of the call -/
  | pauseLoop (n ticks0 : BitVec 32)
  | pauseKilled (n ticks0 : BitVec 32)
  | pauseReturn (r : ℤ)
  | clockAcquire
  | clockTick
  | clockReturn

/-- The client's data is `ticks`; the only channel is `&ticks`. -/
abbrev TickKern := Kern Unit TickPt (BitVec 32)

inductive TickAct where
  | pause (n : BitVec 32)
  /-- a timer interrupt on CPU 0, which runs this process -/
  | clock
  /-- go on in the code -/
  | go

/-- One step of thread `t` in `sys_pause` or `clockintr`. -/
def tickStep (s : TickKern) (t : ℕ) : TickPt → TickAct → Option TickKern
  | .user, .pause n => some (s.setPc t (.run (.pauseAcquire (if n.toInt < 0 then 0 else n))))
  | .user, .clock => some (s.setPc t (.run .clockAcquire))
  -- sys_pause
  | .pauseAcquire n, .go =>
    if s.lk = none then some ((s.setLk (some t)).setPc t (.run (.pauseLoop n s.g))) else none
  | .pauseLoop n ticks0, .go =>
    -- `ticks - ticks0 < n` compares `uint`s
    if s.g - ticks0 < n then some (s.setPc t (.run (.pauseKilled n ticks0)))
    else some (s.setPc t (.run (.pauseReturn 0)))
  | .pauseKilled n ticks0, .go =>
    if s.plock t = none then
      if (s.proc t).killed then some (s.setPc t (.run (.pauseReturn (-1))))
      else some (s.setPc t (.sleepLock () (.pauseLoop n ticks0)))
    else none
  | .pauseReturn _, .go => some ((s.setLk none).setPc t (.run .user))
  -- clockintr
  | .clockAcquire, .go =>
    if s.lk = none then some ((s.setLk (some t)).setPc t (.run .clockTick)) else none
  | .clockTick, .go => some ((s.setG (s.g + 1)).setPc t (.wakeup () 0 .clockReturn))
  | .clockReturn, .go => some ((s.setLk none).setPc t (.run .user))
  | _, _ => none

def tickClient : Client Unit TickPt (BitVec 32) TickAct where
  step := tickStep
  preemptible := fun k => match k with
    | .user | .pauseAcquire _ => true
    | _ => false

/-- `ticks` at some time; `N` processes run in user mode, no lock is held. -/
def tickInit (ticks : BitVec 32) : TickKern where
  proc := fun _ => ⟨.RUNNING, none, false, 0, 0, none⟩
  plock := fun _ => none
  lk := none
  pc := fun _ => .run .user
  g := ticks

end Xv6
