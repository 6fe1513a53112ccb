import Colinlib.Source.Routine
import Colinlib.Source.TimerService

/-!
# Blocking calls of coroutines (`co_routineex.c`)

A blocking call registers a callback that resumes the calling coroutine, and yields. What
the callback is given is the number of that coroutine, and it resumes whatever coroutine
has this number by then.
-/
namespace Colinlib.Source.RoutineEx
open Colinlib.Theory.CMemory
open Colinlib.Source.Routine Colinlib.Source.TimingWheel Colinlib.Source.TimerService

/-- The address of `_on_sleep_timer`. -/
def onSleepTimer : UInt64 := 2

/-- What `cort_sleep` asks of `cots_add_timer`: its milliseconds are the delay in ticks. -/
def sleepTimer (env : UInt64) (ms : UInt32) (co : Nat) : Timer :=
  { delay := ms, loop := 0, cb := onSleepTimer, ud1 := env, ud2 := UInt64.ofNat co }

/-- `cort_sleep` up to its `cort_yield`, after which nothing is left to do. The timer's
handle is dropped in the source; `none` is the refusal in the main coroutine. -/
def cortSleep (self base : Nat) (env : UInt64) (ms : UInt32) (m : Machine) (sv : Cots) :
    Except Fault (Option Nat × Machine × Cots) := do
  let co := m.sch.running
  if co = mainCoId then .ok (none, m, sv) else do
    let (item, sv) ← cotsAddTimer self base sv (sleepTimer env ms co)
    let (_, m) ← cortYield m
    .ok (some item, m, sv)

/-- `_on_sleep_timer`: the number is cast to `int`, and `cort_resume` asserts that it is
not negative. -/
def onSleepTimerRun (call : Invocation) (m : Machine) : Except Fault Machine := do
  let co := narrow call.ud2
  if co < 0 then .error .assertion else do
    let (_, m) ← cortResume m co.toNat
    .ok m

end Colinlib.Source.RoutineEx
