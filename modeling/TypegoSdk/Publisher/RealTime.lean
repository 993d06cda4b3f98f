import TypegoSdk.Lib.Exec
import TypegoSdk.Lib.Mailbox

/-!
# RealTimePublisher (dds_wrapper/common/Publisher.h)

Clients share `msg_` with the publishing loop. `mutex_` guards it, and `turn_`
says whose turn it is: after `unlockAndPublish` it is NON_REALTIME until the
loop has copied the message. Every access to `turn_`, `keep_running_`, `msg_`
and the mutex is one step. `pre` is `pre_communication`, which may rewrite
`msg_`.
-/

namespace TypegoSdk.Publisher
open TypegoSdk.Lib
variable {ι Msg : Type}

inductive Turn where
  | realtime
  | nonRealtime
  | loopNotStarted
  deriving DecidableEq

/-- The places of `publishingLoop`, each named after what comes next. `acquire`
is both calls of `lock()`, since the test of the inner loop follows both. -/
inductive LoopPc where
  | start
  | setRealtime
  | outer
  | acquire
  | turnTest
  | keepTest
  | giveBack
  | prepare
  | copy
  | handBack
  | release
  | writeTest
  | write
  | post
  | leave
  | finished
  deriving DecidableEq

def LoopPc.holds : LoopPc → Bool
  | .turnTest | .keepTest | .giveBack | .prepare | .copy | .handBack | .release => true
  | _ => false

def LoopPc.started : LoopPc → Bool
  | .start | .setRealtime => false
  | _ => true

/-- A client with the mutex: in `trylock` before its look at `turn_`, free to
write `msg_`, or about to unlock. -/
inductive ClientPc where
  | checking
  | holding
  | releasing
  deriving DecidableEq

/-- A client without the mutex is in none of its calls, so the place of a client
is kept with the mutex. -/
inductive Holder (ι : Type) where
  | free
  | loop
  | client (i : ι) (pc : ClientPc)
  deriving DecidableEq

/- `mail` and `written` are not in the source: `mail` has a post for each
`unlockAndPublish` and a take for each copy made by the loop, `written` is what
was passed to `publisher_->Write`. -/
structure State (ι Msg : Type) where
  isRunning : Bool
  keepRunning : Bool
  turn : Turn
  mutex : Holder ι
  msg : Msg
  outgoing : Msg
  loop : LoopPc
  mail : List (MailEvent Msg)
  written : List Msg
  deriving DecidableEq

inductive Act (ι Msg : Type) where
  | loop
  | stop
  | trylock (i : ι)
  | lock (i : ι)
  | checkTurn (i : ι)
  | write (i : ι) (m : Msg)
  | publish (i : ι)
  | unlock (i : ι)
  | release (i : ι)
  deriving DecidableEq

namespace State

def init (msg : Msg) : State ι Msg :=
  ⟨false, true, .loopNotStarted, .free, msg, msg, .start, [], []⟩

def committed (s : State ι Msg) : List Msg := posts s.mail
def copied (s : State ι Msg) : List Msg := takes s.mail

variable [DecidableEq ι] (pre : Msg → Msg)

def publishingLoop (s : State ι Msg) : Option (State ι Msg) :=
  match s.loop with
  | .start => some {s with isRunning := true, loop := .setRealtime}
  | .setRealtime => some {s with turn := .realtime, loop := .outer}
  | .outer => some {s with loop := if s.keepRunning then .acquire else .leave}
  | .acquire => if s.mutex = .free then some {s with mutex := .loop, loop := .turnTest} else none
  | .turnTest => some {s with loop := if s.turn ≠ .nonRealtime then .keepTest else .prepare}
  | .keepTest => some {s with loop := if s.keepRunning then .giveBack else .prepare}
  | .giveBack => some {s with mutex := .free, loop := .acquire}
  | .prepare => some {s with msg := pre s.msg, loop := .copy}
  | .copy => some {s with
      outgoing := s.msg
      mail := s.mail ++ [.take s.msg]
      loop := .handBack}
  | .handBack => some {s with turn := .realtime, loop := .release}
  | .release => some {s with mutex := .free, loop := .writeTest}
  | .writeTest => some {s with loop := if s.keepRunning then .write else .post}
  | .write => some {s with written := s.written ++ [s.outgoing], loop := .post}
  | .post => some {s with loop := .outer}
  | .leave => some {s with isRunning := false, loop := .finished}
  | .finished => none

/- The second half of `trylock`, with the mutex taken. -/
def checkTurn (s : State ι Msg) (i : ι) : State ι Msg :=
  {s with mutex := .client i (if s.turn = .realtime then .holding else .releasing)}

/- The first half of `unlockAndPublish`; the message counts as committed in the
form in which `pre_communication` will send it. -/
def publish (s : State ι Msg) (i : ι) : State ι Msg :=
  {s with
    turn := .nonRealtime
    mutex := .client i .releasing
    mail := s.mail ++ [.post (pre s.msg)]}

def step (s : State ι Msg) : Act ι Msg → Option (State ι Msg)
  | .loop => s.publishingLoop pre
  | .stop => some {s with keepRunning := false}
  | .trylock i => if s.mutex = .free then some {s with mutex := .client i .checking} else none
  | .lock i => if s.mutex = .free then some {s with mutex := .client i .holding} else none
  | .checkTurn i => if s.mutex = .client i .checking then some (s.checkTurn i) else none
  | .write i m => if s.mutex = .client i .holding then some {s with msg := m} else none
  | .publish i => if s.mutex = .client i .holding then some (s.publish pre i) else none
  | .unlock i => if s.mutex = .client i .holding then some {s with mutex := .free} else none
  | .release i => if s.mutex = .client i .releasing then some {s with mutex := .free} else none

def after (msg : Msg) (acts : List (Act ι Msg)) : State ι Msg := exec (step pre) (init msg) acts

end State

end TypegoSdk.Publisher
