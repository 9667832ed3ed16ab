import ChrysaLisp.Library.Run
import ChrysaLisp.Lisp.Str

set_option autoImplicit false

/-! # Jobs

A queue of work that is handed out to children. A child is an entry of a farm, under a key that no
other has had: it is asked for of a kernel, and from when the kernel says it is up till it is told to go
it has a job or is given the next there is. A child that has gone or takes too long is told to go and
another asked for, under another key, and the job it had goes back on the queue; what is still to come
from it, the word that it is up or an answer, then finds no entry.

What is asked for of a kernel is answered once, by whichever kernel it comes to (`Jobs.asked`). A job is
told from others by a number that nothing here reads (`Job.id`).

This is `lib/task/jobs.inc`, with the farms of `farm.inc` and `local.inc`. Which node a child is asked for
of is not of the model: any may answer. -/

namespace ChrysaLisp.Task

/-- A task, on a node. -/
structure TaskId where
  mbox : ℕ
  node : ℕ
deriving DecidableEq

/-- A job: what follows the `+job` of its message, which is written as it is sent. -/
structure Job where
  id : ℕ
  body : Str
deriving DecidableEq

/-- What a child is sent: a job, with its key and where the answer goes, or nothing, which is to go. -/
inductive Mail where
  | job (key : ℤ) (reply : ℕ) (job : Job)
  | go
deriving DecidableEq

/-- An entry of a farm: `:child`, `:job` and `:timestamp`. -/
structure Val where
  child : Option TaskId
  job : Option Job
  timestamp : Option ℤ
deriving DecidableEq

/-- `(Farm ..)`, or `(Local ..)` with its `herd_max`, `herd_init` and `herd_growth`. -/
inductive Kind where
  | farm
  | herd (herd_max herd_init herd_growth : ℤ)
deriving DecidableEq

/-- What a kernel answers: the key, the task there is, if there is one, and else the node that could not
    start it, if the answer is one that says so. -/
structure Reply where
  key : ℤ
  id : Option TaskId
  node : Option ℕ
deriving DecidableEq

/-- A `Jobs`, with its farm: that one's entries, in the order of its `Fmap`, its `:key` and its
    `:refused`. `asked` is the keys no kernel has answered yet, `sent` what the children were sent. -/
structure Jobs where
  reply_mbox : ℕ
  queue : List Job
  out : ℤ
  tried : Str → ℕ
  tries : ℕ
  kind : Kind
  farm : List (ℤ × Val)
  key : ℤ
  refused : List ℕ
  asked : List ℤ
  sent : List (TaskId × Mail)

/-! ## The entries of a farm -/

/-- `:find`. -/
def find (farm : List (ℤ × Val)) (key : ℤ) : Option Val :=
  (farm.find? (fun e => decide (e.1 = key))).map (·.2)

/-- An entry is changed where it is. -/
def setVal (key : ℤ) (val : Val) (farm : List (ℤ × Val)) : List (ℤ × Val) :=
  farm.map (fun e => if e.1 = key then (key, val) else e)

/-- `:erase`: the last entry is put in place of the one that goes. -/
def erase (key : ℤ) (farm : List (ℤ × Val)) : List (ℤ × Val) :=
  match farm.findIdx? (fun e => decide (e.1 = key)), farm.getLast? with
  | some i, some last => (farm.set i last).dropLast
  | _, _ => farm

/-- The jobs the children have. -/
def hands (farm : List (ℤ × Val)) : List Job := farm.filterMap (fun e => e.2.job)

namespace Jobs

/-! ## What the farm calls, and what it does -/

/-- `dispatch`, with the entry as it has become. -/
def dispatch (now : ℤ) (j : Jobs) (key : ℤ) (val : Val) : Jobs :=
  match j.queue.getLast? with
  | some job =>
      { j with
        queue := j.queue.dropLast
        farm := setVal key { val with job := some job, timestamp := some now } j.farm
        sent := j.sent ++ val.child.toList.map (fun child => (child, .job key j.reply_mbox job)) }
  | none => { j with farm := setVal key { val with job := none, timestamp := none } j.farm }

/-- `destroy`. -/
def destroy (j : Jobs) (key : ℤ) (val : Val) : Jobs :=
  let j := { j with sent := j.sent ++ val.child.toList.map (fun child => (child, Mail.go)) }
  match val.job with
  | some job =>
      let n := j.tried job.body + 1
      { j with
        tried := fun body => if body = job.body then n else j.tried body
        tries := max n j.tries
        queue := j.queue ++ [job]
        farm := setVal key { val with job := none } j.farm }
  | none => j

/-- `stop`. -/
def stop (j : Jobs) (key : ℤ) (val : Val) : Jobs :=
  let j := j.destroy key val
  { j with farm := erase key j.farm }

/-- `start`, and `create`, which asks a kernel. -/
def start (now : ℤ) (j : Jobs) : Jobs :=
  let key := j.key + 1
  { j with
    key := key
    farm := j.farm ++ [(key, ⟨none, none, some now⟩)]
    asked := j.asked ++ [key] }

/-- `restart` of a farm. -/
def restartVal (now : ℤ) (j : Jobs) (key : ℤ) (val : Val) : Jobs := start now (j.stop key val)

/-- So many are started. -/
def starts (now : ℤ) : ℕ → Jobs → Jobs
  | 0, j => j
  | n + 1, j => starts now n (start now j)

/-- `grow`, with so many worker nodes: how many there are to be yet. -/
def lack (j : Jobs) (nodes : List ℕ) : ℕ :=
  match j.kind with
  | .farm => 0
  | .herd herd_max herd_init herd_growth =>
      (max 1 (min herd_max (herd_init + herd_growth * (nodes.length - 1))) - j.farm.length).toNat

/-- Has a child gone, or been too long? -/
def due (all_nodes : List ℕ) (timeout : Option ℤ) (now : ℤ) (val : Val) : Bool :=
  let late := match timeout, val.timestamp with
    | some timeout, some «then» => decide (timeout < now - «then»)
    | _, _ => false
  match val.child with
  | some child => if child.node ∈ all_nodes then late else true
  | none => late

/-- `:reply` of a farm, and of a herd: the entry of the child that was started. -/
def reply (now : ℤ) (all_nodes : List ℕ) (j : Jobs) (msg : Reply) : Jobs × Option Val :=
  match msg.id with
  | some _ => (j, find j.farm msg.key)
  | none =>
      match j.kind, msg.node with
      | .farm, some node =>
          let j := { j with refused := if node ∈ j.refused then j.refused else j.refused ++ [node] }
          match find j.farm msg.key with
          | some val =>
              if all_nodes.any (fun node => decide (node ∉ j.refused)) then
                (j.restartVal now msg.key val, none)
              else (j, none)
          | none => (j, none)
      | _, _ => (j, none)

/-! ## Its methods -/

/-- `idle`. -/
def idle (now : ℤ) (j : Jobs) : Jobs :=
  j.farm.foldl (fun j e => if e.2.child.isSome ∧ e.2.job = none then dispatch now j e.1 e.2 else j) j

/-- `:add`. -/
def add (now : ℤ) (j : Jobs) (jobs : List Job) : Jobs :=
  idle now { j with out := j.out + jobs.length, queue := j.queue ++ jobs }

/-- `:launched`. -/
def launched (now : ℤ) (all_nodes : List ℕ) (j : Jobs) (msg : Reply) : Jobs :=
  match j.reply now all_nodes msg with
  | (j, some val) => j.dispatch now msg.key { val with child := msg.id }
  | (j, none) => j

/-- `:job`, what an answer is to. -/
def job (j : Jobs) (key : ℤ) : Option Job := (find j.farm key).bind Val.job

/-- `:answered`. -/
def answered (now : ℤ) (j : Jobs) (key : ℤ) : Jobs × Option ℤ :=
  match find j.farm key with
  | some val =>
      if val.job.isSome then
        let j := { j with out := j.out - 1 }.dispatch now key val
        (j, some j.out)
      else (j, none)
  | none => (j, none)

/-- `:failed`. -/
def failed (now : ℤ) (j : Jobs) (key : ℤ) : Jobs × Option ℤ :=
  match find j.farm key with
  | some val =>
      if val.job.isSome then
        let val := { val with job := none, timestamp := none }
        let j := { j with out := j.out - 1, farm := setVal key val j.farm }.restartVal now key val
        (j, some j.out)
      else (j, none)
  | none => (j, none)

/-- No child has anything to do. -/
def forget (j : Jobs) : Jobs :=
  { j with farm := j.farm.map (fun e => (e.1, { e.2 with job := none, timestamp := none })) }

/-- The queue is emptied, with all that was kept of what was on it. -/
def empty (j : Jobs) (out : ℤ) : Jobs := { j with queue := [], out := out, tried := fun _ => 0, tries := 0 }

/-- `:reply_to`. -/
def replyTo (j : Jobs) (reply_mbox : ℕ) : Jobs := { j.forget.empty 0 with reply_mbox := reply_mbox }

/-- `:clear`. -/
def clear (j : Jobs) : Jobs := j.empty (hands j.farm).length

/-- `:restart`. -/
def restart (now : ℤ) (j : Jobs) : Jobs :=
  let farm := j.farm.map (fun e => (e.1, { e.2 with job := none }))
  (farm.foldl (fun j e => restartVal now j e.1 e.2) { j with farm := farm }).empty 0

/-- `:refresh`. -/
def refresh (now : ℤ) (all_nodes worker_nodes : List ℕ) (timeout : Option ℤ) (j : Jobs) : Jobs × Bool :=
  let some_due := j.farm.any (fun e => due all_nodes timeout now e.2)
  let j := j.farm.foldl
    (fun j e => if due all_nodes timeout now e.2 then restartVal now j e.1 e.2 else j) j
  let more := j.lack worker_nodes
  (starts now more j, some_due || decide (0 < more))

/-- `:close`. -/
def close (j : Jobs) : Jobs :=
  let j := j.farm.foldl (fun j e => destroy j e.1 e.2) j
  { j with farm := [] }.empty 0

/-- `(Jobs ..)`, of a farm of that size, or of a herd on so many nodes. -/
def new (reply_mbox : ℕ) (kind : Kind) (size : ℕ) (worker_nodes : List ℕ) (now : ℤ) : Jobs :=
  let j : Jobs := ⟨reply_mbox, [], 0, fun _ => 0, 0, kind, [], -1, [], [], []⟩
  match kind with
  | .farm => starts now size j
  | .herd .. => starts now (j.lack worker_nodes) j

end Jobs

/-! ## What can happen -/

/-- How a job was done with. -/
inductive Done where
  | answered
  | failed
  | cleared
deriving DecidableEq

/-- What the app does, and what comes to it, at some time. -/
inductive Event where
  | add (bodies : List Str) (now : ℤ)
  | launched (msg : Reply) (all_nodes : List ℕ) (now : ℤ)
  | answered (key now : ℤ)
  | failed (key now : ℤ)
  | refresh (all_nodes worker_nodes : List ℕ) (timeout : Option ℤ) (now : ℤ)
  | clear
  | restart (now : ℤ)
  | replyTo (reply_mbox : ℕ)
  | close

/-- The jobs, how many were ever added, and those that are done with. -/
structure World where
  jobs : Jobs
  added : ℕ
  done : List (Job × Done)

/-- The jobs of an add, each with its number. -/
def number : ℕ → List Str → List Job
  | _, [] => []
  | n, body :: rest => ⟨n, body⟩ :: number (n + 1) rest

/-- The jobs that are out. -/
def Jobs.held (j : Jobs) : List Job := j.queue ++ hands j.farm

/-- An event. A kernel answers a key that was asked for, and that key but once; an answer may come
    from any child there has been, at any time. -/
def step (w : World) : Event → World
  | .add bodies now =>
      { w with jobs := w.jobs.add now (number w.added bodies), added := w.added + bodies.length }
  | .launched msg all_nodes now =>
      if msg.key ∈ w.jobs.asked then
        { w with jobs := { w.jobs with asked := w.jobs.asked.erase msg.key }.launched now all_nodes msg }
      else w
  | .answered key now =>
      match w.jobs.answered now key with
      | (jobs, some _) =>
          { w with jobs := jobs, done := w.done ++ (w.jobs.job key).toList.map (fun job => (job, .answered)) }
      | (jobs, none) => { w with jobs := jobs }
  | .failed key now =>
      match w.jobs.failed now key with
      | (jobs, some _) =>
          { w with jobs := jobs, done := w.done ++ (w.jobs.job key).toList.map (fun job => (job, .failed)) }
      | (jobs, none) => { w with jobs := jobs }
  | .refresh all_nodes worker_nodes timeout now =>
      { w with jobs := (w.jobs.refresh now all_nodes worker_nodes timeout).1 }
  | .clear =>
      { w with jobs := w.jobs.clear, done := w.done ++ w.jobs.queue.map (fun job => (job, .cleared)) }
  | .restart now =>
      { w with jobs := w.jobs.restart now, done := w.done ++ w.jobs.held.map (fun job => (job, .cleared)) }
  | .replyTo reply_mbox =>
      { w with
        jobs := w.jobs.replyTo reply_mbox
        done := w.done ++ w.jobs.held.map (fun job => (job, .cleared)) }
  | .close =>
      { w with jobs := w.jobs.close, done := w.done ++ w.jobs.held.map (fun job => (job, .cleared)) }

/-- Jobs of which none has been added yet. -/
def World.new (reply_mbox : ℕ) (kind : Kind) (size : ℕ) (worker_nodes : List ℕ) (now : ℤ) : World :=
  ⟨.new reply_mbox kind size worker_nodes now, 0, []⟩

end ChrysaLisp.Task
