/-
The umbrella process: who starts, stops and buries the IFLYOS app.

The handlers of DO_START and DO_STOP only enqueue a task on `exector`; the
tasks fork, signal and clear.  Each successful or failed fork leaves a
detached monitor thread blocked in `wait(nullptr)`, which reaps a child and
then enqueues the task that clears `iflyosPid` and sends EVT_STOPPED.

`Umbrella` is the state of the process together with the part of the kernel's
process table that belongs to it, `Action` everything that may happen next
(with what the kernel decides: the result of `fork`, which child exits, which
child is reaped), and `step` one action.  A task is one step.
-/
import IflyosSDK.Runs
import IflyosSDK.ThreadPool
import IflyosSDK.Interface

namespace Umbrella

/-- The lambdas enqueued on `exector`: those of `onIFLYOS_DoStart` and
`onIFLYOS_DoStop`, and the one the monitor thread enqueues. -/
inductive Task
  | doStart
  | doStop
  | clearPid
  deriving DecidableEq, Repr

/-- A forked child that `wait` has not reaped: whether a SIGTERM was sent to
it, and whether it has exited. -/
structure Child where
  pid : Int
  sigterm : Bool
  exited : Bool
  deriving DecidableEq, Repr

/-- The umbrella.  `waiting` counts the monitor threads inside `wait(nullptr)`,
`returned` those past it that have not enqueued their task; `forks` counts the
calls of `fork` and `stopped` the sends of EVT_STOPPED. -/
structure State where
  exector : ThreadPool Task
  iflyosPid : Int
  ipcVersion : Int
  children : List Child
  waiting : ℕ
  returned : ℕ
  forks : ℕ
  stopped : ℕ
  deriving DecidableEq, Repr

/-- `main` has installed its handlers and no datagram has arrived. -/
def init (ipcVersion : Int) : State :=
  ⟨.new, 0, ipcVersion, [], 0, 0, 0, 0⟩

/-- What can happen next.  `runTask pid` is the worker running the front task;
`pid` is what `fork` returns if that task calls it. -/
inductive Action
  | onDoStart
  | onDoStop
  | runTask (pid : Int)
  | childExit (pid : Int)
  | waitReturns (pid : Int)
  | waitFails
  | monitorEnqueues
  deriving DecidableEq, Repr

/-! ### The tasks -/

/-- What `fork` may return to the parent: `-1`, or a positive pid that no
unreaped child has. -/
def ForkResult (s : State) (pid : Int) : Prop :=
  pid = -1 ∨ 0 < pid ∧ ∀ c ∈ s.children, c.pid ≠ pid

instance (s : State) (pid : Int) : Decidable (ForkResult s pid) :=
  inferInstanceAs (Decidable (_ ∨ _))

/-- The task of `onIFLYOS_DoStart`.  The result of `fork` is stored unchecked,
and the monitor is started whatever it is. -/
def doStartTask (pid : Int) (s : State) : Option State :=
  if s.iflyosPid ≠ 0 then some s
  else if s.ipcVersion ≠ iflyosInterfaceCurrentVersion then some s
  else if ForkResult s pid then
    -- the child of a fork that succeeds is on its own from here
    some { s with
      iflyosPid := pid
      children := if pid = -1 then s.children else s.children ++ [⟨pid, false, false⟩]
      waiting := s.waiting + 1
      forks := s.forks + 1 }
  else none

/-- `kill(pid, SIGTERM)`: the live children it reaches are those with that pid,
and every one of them for `-1`. -/
def kill (pid : Int) (children : List Child) : List Child :=
  children.map fun c =>
    if (c.pid = pid ∨ pid = -1) ∧ ¬ c.exited then { c with sigterm := true } else c

/-- The task of `onIFLYOS_DoStop`. -/
def doStopTask (s : State) : State :=
  if s.iflyosPid ≠ 0 then { s with children := kill s.iflyosPid s.children } else s

/-- The task of the monitor: clear the pid, send EVT_STOPPED. -/
def clearPidTask (s : State) : State :=
  { s with iflyosPid := 0, stopped := s.stopped + 1 }

/-- The pid a task that starts now would pass to `kill`. -/
def killTarget (s : State) : Option Int :=
  match s.exector.tasks with
  -- a failed fork has left -1 in `iflyosPid`
  | .doStop :: _ => if s.iflyosPid ≠ 0 then some s.iflyosPid else none
  | _ => none

def runTask (pid : Int) (s : State) : Option State :=
  match s.exector.take with
  | none => none
  | some (.doStart, e) => doStartTask pid { s with exector := e }
  | some (.doStop, e) => some (doStopTask { s with exector := e })
  | some (.clearPid, e) => some (clearPidTask { s with exector := e })

/-! ### The other actions -/

/-- A handler, or the monitor after `wait`, enqueues its task. -/
def enqueue (t : Task) (s : State) : Option State :=
  (s.exector.enqueue t).map fun e => { s with exector := e }

def childExit (pid : Int) (s : State) : Option State :=
  if s.children.any fun c => c.pid = pid ∧ ¬ c.exited then
    some { s with
      children := s.children.map fun c => if c.pid = pid then { c with exited := true } else c }
  else none

/-- A monitor's `wait(nullptr)` reaps an exited child. -/
def waitReturns (pid : Int) (s : State) : Option State :=
  if 0 < s.waiting ∧ s.children.any fun c => c.pid = pid ∧ c.exited then
    some { s with
      children := s.children.filter fun c => c.pid ≠ pid
      waiting := s.waiting - 1
      returned := s.returned + 1 }
  else none

/-- A monitor's `wait(nullptr)` returns `-1` (ECHILD): there is no child. -/
def waitFails (s : State) : Option State :=
  if 0 < s.waiting ∧ s.children = [] then
    some { s with waiting := s.waiting - 1, returned := s.returned + 1 }
  else none

def monitorEnqueues (s : State) : Option State :=
  if 0 < s.returned then enqueue .clearPid { s with returned := s.returned - 1 } else none

def step (s : State) : Action → Option State
  | .onDoStart => enqueue .doStart s
  | .onDoStop => enqueue .doStop s
  | .runTask pid => runTask pid s
  | .childExit pid => childExit pid s
  | .waitReturns pid => waitReturns pid s
  | .waitFails => waitFails s
  | .monitorEnqueues => monitorEnqueues s

end Umbrella
