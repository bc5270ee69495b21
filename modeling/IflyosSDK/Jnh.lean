/-
`jnh_get`, from the request it has sent to its return.

One step is one iteration of the head loop or of the body loop.  Its label, a
`Tick`, carries what the system calls of the iteration return.  A recv that
returns more bytes than it was offered cannot happen; an access outside an
array ends the call in `Phase.fault`.

* `readHead` — an iteration of the head loop: the status code, the search for
  the blank line, the bytes of the body behind it, or the CR and LF bytes
  carried to the next iteration;
* `Jnh.fillRecv` — an iteration of the body loop;
* `Jnh.step` — one iteration of the loop the call is in.
-/
import IflyosSDK.Memory

/-! ### Return values -/

def JNHE_OK : ℤ := 0
def JNHE_CLOCK : ℤ := -300
def JNHE_TIMEOUT : ℤ := -400
def JNHE_READ : ℤ := -700
def JNHE_HTTP : ℤ := -800

/-! ### Waiting for the socket -/

/-- What the system calls of one iteration return: `clock_gettime` in
milliseconds (`none` when it fails), whether `select` reports the socket, and
the bytes of `recv` (`none` when it fails). -/
structure Tick where
  clock : Option Int32
  ready : Bool
  recv : Option Bytes
  deriving DecidableEq

/-- The bytes received, if any. -/
def Tick.chunk (t : Tick) : Bytes := t.recv.getD []

/-- The caller's two timeouts and the two times they count from.  A `long` has
32 bits. -/
structure Deadlines where
  timeoutAllMs : Int32
  timeoutAfterDNSMs : Int32
  startDNS : Int32
  startConnect : Int32

/-- The deadlines of `fetchAndSetTime(10000)`, called at time 0. -/
def Deadlines.fetchTime : Deadlines :=
  { timeoutAllMs := 10000, timeoutAfterDNSMs := 10000, startDNS := 0, startConnect := 0 }

/-- `c` arrives at time 0. -/
def Tick.received (c : Bytes) : Tick := { clock := some 0, ready := true, recv := some c }

/-- The first half of an iteration, from `clock_gettime` to `select`. -/
def Deadlines.wait (d : Deadlines) (t : Tick) : Except ℤ Unit :=
  match t.clock with
  | none => .error JNHE_CLOCK
  | some now =>
    if d.timeoutAllMs - (now - d.startDNS) ≤ 0 then .error JNHE_TIMEOUT
    else if d.timeoutAfterDNSMs - (now - d.startConnect) ≤ 0 then .error JNHE_TIMEOUT
    else if t.ready then .ok ()
    else .error JNHE_TIMEOUT

/-! ### The state of a call -/

/-- How an access leaves its array. -/
inductive Fault
  /-- A string function runs over the end of `beforeBodyLine`. -/
  | scan
  /-- `memcpy` of a negative length, or outside one of its arrays. -/
  | copy
  /-- `*tail` outside `beforeBodyLine`. -/
  | tail
  /-- `buf[4]`, or more bytes carried than `beforeBodyLine` has. -/
  | carry
  /-- The space offered to `recv` is not inside `body`. -/
  | recv
  deriving DecidableEq

inductive Phase
  /-- In the loop that looks for the end of the head. -/
  | head (beforeBodyLine : Buffer 128) (idx : ℕ)
  /-- In the loop that fills the body. -/
  | fill (idx : ℕ)
  | returned (ret : ℤ)
  | fault (f : Fault)
  deriving DecidableEq

/-- A call with the caller's `*rspCode`, `body` and `*bodyLen`, the caller's
body having `C` bytes. -/
structure Jnh (C : ℕ) where
  phase : Phase
  rspCode : ℤ
  body : Buffer C
  bodyLen : ℕ
  deriving DecidableEq

namespace Jnh

variable {C : ℕ}

/-- The state in front of the head loop. -/
def start (body : Buffer C) : Jnh C :=
  { phase := .head (.zeros 128) 0, rspCode := -1, body := body, bodyLen := C }

def ret (s : Jnh C) (e : ℤ) : Jnh C := { s with phase := .returned e }

def crash (s : Jnh C) (f : Fault) : Jnh C := { s with phase := .fault f }

end Jnh

/-! ### The head loop -/

/-- `"\r\n"` -/
def crLf : Bytes := [13, 10]

/-- `"\n\r\n"` -/
def lfCrLf : Bytes := [10, 13, 10]

theorem crLf_ne_nil : crLf ≠ [] := by decide

theorem nul_not_mem_crLf : 0 ∉ crLf := by decide

theorem lfCrLf_ne_nil : lfCrLf ≠ [] := by decide

theorem nul_not_mem_lfCrLf : 0 ∉ lfCrLf := by decide

def isCrLf (b : UInt8) : Bool := b = 13 || b = 10

/-- The status code, or how the call ends without one.  The code stands behind
`sizeof("HTTP/1.1")` bytes. -/
def readStatus (w : Buffer 128) : Except Phase ℤ :=
  match strstr crLf w.bytes with
  | .absent => .error (.returned JNHE_HTTP)
  | .overrun => .error (.fault .scan)
  | .found _ =>
    match atoi (w.bytes.drop 9) with
    | none => .error (.fault .scan)
    | some code => .ok code

/-- What is done with the bytes behind the blank line, which `strstr` found at
`bodyPtr` after a recv of `rd` bytes. -/
def copyBody {C : ℕ} (s : Jnh C) (w : Buffer 128) (rd bodyPtr : ℕ) : Jnh C :=
  -- `len` is signed, and counts from the start of the window, not from `idx`
  let len : ℤ := rd - (bodyPtr + 3)
  if s.bodyLen ≤ len then
    -- the body is full at once
    match (w.load (bodyPtr + 3) s.bodyLen).bind (s.body.store 0) with
    | none => s.crash .copy
    | some body => { s with body := body, phase := .returned JNHE_OK }
  -- as the length of `memcpy` a negative `len` is a huge one
  else if len < 0 then s.crash .copy
  else
    match (w.load (bodyPtr + 3) len.toNat).bind (s.body.store 0) with
    | none => s.crash .copy
    | some body =>
      if len = 0 then { s with body := body, bodyLen := 0, phase := .returned JNHE_OK }
      else { s with body := body, phase := .fill len.toNat }

/-- The walk of `tail` down from `&beforeBodyLine[n - 1]`, with the bytes put
into `buf` so far. -/
def collectTail (w : Bytes) : ℕ → Bytes → Except Fault Bytes
  -- tail points in front of the array
  | 0, _ => .error .tail
  | n + 1, buf =>
    match w[n]? with
    | none => .error .tail
    | some b =>
      if isCrLf b then
        -- `buf[idx++]` has room for four
        if buf.length < 4 then collectTail w n (buf ++ [b]) else .error .carry
      else .ok buf

/-- The end of an iteration that has not found the blank line: the bytes of
`buf` go back to the start of the window. -/
def carryTail {C : ℕ} (s : Jnh C) (w : Buffer 128) (idx rd : ℕ) : Jnh C :=
  match collectTail w.bytes (idx + rd + 1) [] with
  | .error f => s.crash f
  | .ok buf =>
    match w.store 0 buf.reverse with
    | none => s.crash .carry
    | some w => { s with phase := .head w buf.length }

def findBody {C : ℕ} (s : Jnh C) (w : Buffer 128) (idx rd : ℕ) : Jnh C :=
  match strstr lfCrLf w.bytes with
  | .overrun => s.crash .scan
  | .found bodyPtr => copyBody s w rd bodyPtr
  | .absent => carryTail s w idx rd

/-- An iteration of the head loop once `rd` bytes are in the window. -/
def readHead {C : ℕ} (s : Jnh C) (w : Buffer 128) (idx rd : ℕ) : Jnh C :=
  -- a status code of -1 would be read again in the next iteration
  if s.rspCode = -1 then
    match readStatus w with
    | .error p => { s with phase := p }
    | .ok code => findBody { s with rspCode := code } w idx rd
  else findBody s w idx rd

namespace Jnh

variable {C : ℕ}

/-- `recv` in the head loop and what follows it. -/
def headRecv (s : Jnh C) (w : Buffer 128) (idx : ℕ) : Option Bytes → Option (Jnh C)
  | none => some (s.ret JNHE_READ)
  | some [] => some (s.ret JNHE_READ)
  | some (b :: c) => (w.store idx (b :: c)).map fun w => readHead s w idx (b :: c).length

/-! ### The body loop -/

/-- `recv` in the body loop and what follows it. -/
def fillRecv (s : Jnh C) (idx : ℕ) (r : Option Bytes) : Option (Jnh C) :=
  if s.bodyLen < idx ∨ C < s.bodyLen then some (s.crash .recv)
  else
    match r with
    | none => some (s.ret JNHE_READ)
    -- the peer has closed, or no space was offered
    | some [] => some { s with bodyLen := idx, phase := .returned JNHE_OK }
    | some (b :: c) =>
      if idx + (b :: c).length ≤ s.bodyLen then
        (s.body.store idx (b :: c)).map fun body =>
          { s with body := body, phase := .fill (idx + (b :: c).length) }
      else none

/-- One iteration of the loop the call is in. -/
def step (d : Deadlines) (s : Jnh C) (t : Tick) : Option (Jnh C) :=
  match s.phase with
  | .head w idx =>
    match d.wait t with
    | .error e => some (s.ret e)
    | .ok () => s.headRecv w idx t.recv
  | .fill idx =>
    match d.wait t with
    | .error e => some (s.ret e)
    | .ok () => s.fillRecv idx t.recv
  | .returned _ => none
  | .fault _ => none

end Jnh
