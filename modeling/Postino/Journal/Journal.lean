import Postino.Journal.Line

/-!
# The journal

`journal.log` takes the lines of effects; a rewrite sets it aside as
`journal-<seq>.log` and starts a fresh one. Changes may wait in memory
(`pending`) to be written together, and lines the disk refused (`refused`) are
written before anything else.

Two locks are involved. A thread that holds the broker's may take what is
pending and then wait for the tail's; a thread that holds the tail's may write
the lines it took after it has released the broker's. `World` has room for one
of each, and `World.step` is one thread's next step: a method of the journal up
to where it waits for the tail, its rest once it has the tail, or the write of a
thread that took the lines. An operation of the journal blocks where it says
`none`.

How the disk answers is part of a step: an `Attempt` for each write, a `Fault`
for the renames of a rewrite. Syncing is left out, but for the flags a write
sets.
-/

namespace Postino

open Lib

namespace Journal

/-! ## Files -/

/-- The journals of the data directory: those set aside, by their last sequence
number, `journal.log` and `journal.next`. -/
structure Files where
  aside : BTreeMap Nat Bytes := ∅
  log : Option Bytes := none
  next : Option Bytes := none

/-- What is done to them, one system call at a time. Renaming a file that is not
there, like removing one, changes nothing. -/
inductive FileOp where
  | removeNext
  | createNext
  /-- `journal.log` becomes `journal-<seq>.log`. -/
  | setAside (seq : Nat)
  /-- `journal-<seq>.log` becomes `journal.log` again. -/
  | restore (seq : Nat)
  /-- `journal.next` becomes `journal.log`. -/
  | publish
  deriving DecidableEq

def FileOp.run (files : Files) : FileOp → Files
  | removeNext => { files with next := none }
  | createNext => { files with next := some [] }
  | setAside seq =>
    match files.log with
    | some text => { files with aside := files.aside.insert seq text, log := none }
    | none => files
  | restore seq =>
    match files.aside[seq]? with
    | some text => { files with aside := files.aside.erase seq, log := some text }
    | none => files
  | publish =>
    match files.next with
    | some text => { files with log := some text, next := none }
    | none => files

/-- Which file an open handle writes to. -/
inductive Handle where
  | log
  | aside (seq : Nat)
  deriving DecidableEq

/-- A handle stays with its file when that is renamed. -/
def Handle.follow (handle : Handle) : FileOp → Handle
  | .setAside seq => if handle = log then aside seq else handle
  | .restore seq => if handle = aside seq then log else handle
  | _ => handle

def Files.read (files : Files) : Handle → Bytes
  | .log => files.log.getD []
  | .aside seq => (files.aside[seq]?).getD []

def Files.write (files : Files) (text : Bytes) : Handle → Files
  | .log => { files with log := some text }
  | .aside seq => { files with aside := files.aside.insert seq text }

/-- What can stop a rewrite: the state cannot be serialized, the set-aside
journal cannot be looked for, or a file cannot be created or renamed. When the
fresh journal cannot take its place, the old one is renamed back, if that
works. -/
inductive Fault where
  | head
  | lookup
  | create
  | setAside
  | publish (restored : Bool)
  deriving DecidableEq

/-- The system calls of `start_rewrite`, up to where one fails, with those that
undo the ones before it; and whether the fresh journal took over. -/
def rewrite_ops (files : Files) (seq : Nat) (fault : Option Fault) : List FileOp × Bool :=
  -- a journal already set aside under this number is not renamed over
  let set_aside := files.aside.contains seq
  match fault with
  | some .head | some .lookup => ([], false)
  | some .create => ([.removeNext], false)
  | fault =>
    if !set_aside && (fault = some .setAside || files.log.isNone) then
      ([.removeNext, .createNext, .removeNext], false)
    else
      let moved := if set_aside then [] else [.setAside seq]
      match fault with
      | some (.publish restored) =>
        let undone := if set_aside || !restored then [] else [.restore seq]
        ([.removeNext, .createNext] ++ moved ++ undone ++ [.removeNext], false)
      | _ => ([.removeNext, .createNext] ++ moved ++ [.publish], true)

/-! ## The tail -/

inductive Fsync where
  | always
  | everySec
  | never
  deriving DecidableEq

/-- How an attempt to append ends: so many bytes reached the file, and cutting
them off again works or not. -/
inductive Attempt where
  | written
  | failed (bytes : Nat) (why : String) (cut : Bool)

/-- The end of the journal, where lines are appended. -/
structure Tail where
  file : Handle := .log
  /-- Bytes of whole lines in the file. -/
  bytes : Nat := 0
  dirty : Bool := false
  /-- A fresh journal was started, and its directory is not synced yet. -/
  dir_unsynced : Bool := false
  /-- Lines for changes already made in memory that the disk refused. They are
  written, in order, before anything else. -/
  refused : Bytes := []
  /-- A write was cut short and could not be cut off again. -/
  torn : Bool := false
  /-- Why the last write failed, until one succeeds again. -/
  failure : Option String := none

end Journal

open Journal

/-- The journal with its tail and its files. -/
structure Journal where
  fsync : Fsync
  files : Files := { log := some [] }
  tail : Tail := {}
  /-- Whether changes are refused, refused lines waiting or a write torn, and
  whether refused lines wait, readable without the tail's lock. -/
  failing : Bool := false
  refused : Bool := false
  seq : Nat := 0
  /-- Bytes of lines handed to the tail since the journal was started. -/
  journaled : Nat := 0
  /-- Lines for changes already made in memory, not handed to the tail yet. -/
  pending : Bytes := []
  /-- Why the last sync failed, until one succeeds again. -/
  unsynced : Option String := none
  resnapshot : Bool := false
  /-- Set while a snapshot is being taken or written in the background. -/
  writing : Bool := false

namespace Journal

/-- `Tail::append`: whole lines, or nothing. A write cut short is cut off
again. -/
def append_tail (j : Journal) (lines : Bytes) (attempt : Attempt) : Except String Unit × Journal :=
  if j.tail.torn then
    (.error "an earlier write was cut short; restart the server to recover", j)
  else
    let file := j.files.read j.tail.file
    match attempt with
    | .failed bytes why cut =>
      -- cut back to its whole lines, or left with what came of these
      let kept := if cut then (file ++ lines.take bytes).take j.tail.bytes
        else file ++ lines.take bytes
      -- a sync that fails comes after the whole write, and after the directory's
      let synced := j.fsync = .always && lines.length ≤ bytes
      (.error why, { j with
        files := j.files.write kept j.tail.file
        tail := { j.tail with
          torn := !cut
          dir_unsynced := j.tail.dir_unsynced && !synced
          failure := some why } })
    | .written =>
      (.ok (), { j with
        files := j.files.write (file ++ lines) j.tail.file
        tail := { j.tail with
          failure := none
          dir_unsynced := j.tail.dir_unsynced && j.fsync ≠ .always
          bytes := j.tail.bytes + lines.length
          dirty := j.tail.dirty || j.fsync ≠ .always } })

/-- `TailGuard::note`: how writes go, for the checks made without the tail's
lock. -/
def note (j : Journal) : Journal :=
  { j with
    failing := j.tail.torn || !j.tail.refused.isEmpty
    refused := !j.tail.refused.isEmpty }

/-- The lines that wait because the disk refused them become `lines`. -/
def with_refused (j : Journal) (lines : Bytes) : Journal :=
  { j with tail := { j.tail with refused := lines } }

/-- `TailGuard::write`: `lines` after any the disk refused before; when it
refuses them too, they wait with those. -/
def write (j : Journal) (lines : Bytes) (attempt : Attempt) : Except String Unit × Journal :=
  let all := j.tail.refused ++ lines
  -- nothing to write, and nothing refused
  if all.isEmpty then (.ok (), (j.with_refused []).note)
  else
    match (j.with_refused []).append_tail all attempt with
    | (.ok (), j) => (.ok (), j.note)
    | (.error why, j) => (.error why, (j.with_refused all).note)

/-- `TailGuard::write_new`: the line for a change not made yet, after any
refused before. When the disk refuses it, it is dropped. -/
def write_new (j : Journal) (line : Bytes) (retry new : Attempt) : Except String Unit × Journal :=
  match j.write [] retry with
  | (.error why, j) => (.error why, j.note)
  | (.ok (), j) =>
    let (written, j) := j.append_tail line new
    (written, j.note)

/-! ## The journal's methods -/

variable {ε : Type} [EffectJson ε]

/-- Hands what is pending to whoever takes it. -/
def take_all (j : Journal) : Bytes × Journal :=
  (j.pending, { j with pending := [], journaled := j.journaled + j.pending.length })

/-- Adds the line for `effect` to the changes waiting to be written. -/
def push (j : Journal) (effect : ε) : Option Journal := do
  let line ← write_line (j.seq + 1) effect
  some { j with pending := j.pending ++ line, seq := j.seq + 1 }

/-- Whether changes are refused. -/
def refusing (j : Journal) : Bool := j.failing || j.unsynced.isSome

/-- Whether changes may wait to be written together. -/
def defers (j : Journal) : Bool := j.fsync ≠ .always && !j.refusing

/-- Whether changes wait to be written. -/
def waiting (j : Journal) : Bool := !j.pending.isEmpty || j.refused

/-- Whether writes wait for a sync to end, when not every write is synced. -/
def postponing (j : Journal) (holding_up : Bool) : Bool := j.fsync ≠ .always && holding_up

/-- The rest of `append`, once it has taken what was pending and locked the
tail. -/
def finish_append (j : Journal) (pending line : Bytes) (first retry new : Attempt) :
    Except String Unit × Journal :=
  match j.write pending first with
  -- the changes already made come first: where they are refused, so is the new one
  | (.error why, j) => (.error why, j)
  | (.ok (), j) =>
    match j.write_new line retry new with
    | (.error why, j) => (.error why, j)
    | (.ok (), j) => (.ok (), { j with journaled := j.journaled + line.length, seq := j.seq + 1 })

/-- The rest of `start_rewrite`, once it has taken what was pending and locked
the tail; whether a snapshot at the journal's number is to be written. -/
def finish_rewrite (j : Journal) (pending : Bytes) (first : Attempt) (fault : Option Fault) :
    Bool × Journal :=
  match j.write pending first with
  -- a journal is not set aside while lines wait for it
  | (.error _, j) => (false, j)
  | (.ok (), j) =>
    let (ops, fresh) := rewrite_ops j.files j.seq fault
    let files := ops.foldl FileOp.run j.files
    if fresh then
      (true, { j with
        files
        tail := { j.tail with
          file := .log, dir_unsynced := true, dirty := false, bytes := 0, torn := false }
        journaled := 0
        resnapshot := false
        writing := true }.note)
    else (false, { j with files, tail := { j.tail with file := ops.foldl .follow j.tail.file } })

/-! ## Threads -/

/-- What a thread that holds the broker's lock waits for the tail to do. -/
inductive Request (ε : Type) where
  /-- `append`, with the effect's line. -/
  | append (line : Bytes) (effect : ε)
  /-- `flush_pending`. -/
  | flush
  /-- `take_pending`: the lines are written once the broker's lock is
  released. -/
  | take
  /-- `start_rewrite`. -/
  | rewrite

/-- How the disk answers while a request is finished. -/
structure Answers where
  first : Attempt := .written
  retry : Attempt := .written
  new : Attempt := .written
  fault : Option Fault := none

/-- The journal; the thread that holds the broker's lock and waits for the tail,
with the lines it took; and the thread that holds the tail, with the lines it
will write. -/
structure World (ε : Type) where
  journal : Journal
  request : Option (Request ε × Bytes) := none
  holder : Option Bytes := none

inductive Action (ε : Type) where
  | append (effect : ε)
  | defer (effect : ε)
  /-- `busy` is whether another thread has the tail when that is looked at. -/
  | appendApplied (effect : ε) (busy : Bool)
  | flushPending (busy : Bool)
  | takePending (holding_up : Bool)
  | startRewrite
  /-- The tick's sync ended, in failure or not. -/
  | synced (failure : Option String)
  /-- The waiting thread has the tail. -/
  | finish (answers : Answers)
  /-- The thread that took the lines writes them. -/
  | write (attempt : Attempt)

/-- What a step settled: an effect is journaled, or its change refused. -/
inductive Event (ε : Type) where
  | accepted (effect : ε)
  | refused (effect : ε)

namespace World

/-- Starts waiting for the tail with what is pending. -/
def wait (w : World ε) (request : Request ε) : World ε :=
  let (pending, journal) := w.journal.take_all
  { w with journal, request := some (request, pending) }

/-- `flush_pending` as far as the tail. -/
def flush_pending (w : World ε) (busy : Bool) : World ε :=
  -- another thread that is writing is waited for, even with nothing to add
  if w.journal.pending.isEmpty && !w.journal.refused && !busy then w
  else w.wait .flush

/-- A thread with the broker's lock starts an operation of the journal. -/
def start (w : World ε) : Action ε → Option (List (Event ε) × World ε)
  -- after a sync that failed, no change that can be refused is taken
  | .append effect =>
    if w.journal.unsynced.isSome then some ([.refused effect], w)
    else
      match write_line (w.journal.seq + 1) effect with
      | none => some ([.refused effect], w)
      | some line => some ([], w.wait (.append line effect))
  | .defer effect =>
    match w.journal.push effect with
    | some journal => some ([.accepted effect], { w with journal })
    | none => some ([.refused effect], w)
  | .appendApplied effect busy =>
    match w.journal.push effect with
    | some journal => some ([.accepted effect], { w with journal }.flush_pending busy)
    | none => some ([.refused effect], w)
  | .flushPending busy => some ([], w.flush_pending busy)
  -- written by the caller without the broker's lock, where nothing stands against it
  | .takePending holding_up =>
    if w.journal.pending.isEmpty || w.journal.fsync = .always
        || w.journal.postponing holding_up || w.journal.failing then some ([], w)
    else some ([], w.wait .take)
  | .startRewrite => some ([], w.wait .rewrite)
  | .synced failure =>
    some ([], { w with journal := { w.journal with
      unsynced := failure, resnapshot := w.journal.resnapshot || failure.isSome } })
  | .finish _ | .write _ => none

/-- The waiting thread has locked the tail. -/
def finish (w : World ε) (answers : Answers) (pending : Bytes) :
    Request ε → List (Event ε) × World ε
  | .append line effect =>
    match w.journal.finish_append pending line answers.first answers.retry answers.new with
    | (.ok (), journal) => ([.accepted effect], { w with journal, request := none })
    | (.error _, journal) => ([.refused effect], { w with journal, request := none })
  | .flush => ([], { w with journal := (w.journal.write pending answers.first).2, request := none })
  | .take => ([], { w with request := none, holder := some pending })
  | .rewrite =>
    ([], { w with journal := (w.journal.finish_rewrite pending answers.first answers.fault).2
                  request := none })

/-- One step; `none` where it has to wait. -/
def step (w : World ε) : Action ε → Option (List (Event ε) × World ε)
  | .finish answers =>
    match w.request, w.holder with
    | some (request, pending), none => some (w.finish answers pending request)
    | _, _ => none
  | .write attempt =>
    match w.holder with
    | some lines =>
      some ([], { w with journal := (w.journal.write lines attempt).2, holder := none })
    | none => none
  | action => if w.request.isNone then w.start action else none

/-- Steps one after another, with what they settled. -/
def run : List (Action ε) → World ε → Option (List (Event ε) × World ε)
  | [], w => some ([], w)
  | action :: actions, w => do
    let (events, w) ← w.step action
    let (more, w) ← run actions w
    some (events ++ more, w)

end World

/-- A journal just opened in an empty data directory. -/
def fresh (fsync : Fsync) : World ε := { journal := { fsync } }

/-- The effects journaled, in order. -/
def accepted (events : List (Event ε)) : List ε :=
  events.filterMap fun
    | .accepted effect => some effect
    | .refused _ => none

end Journal

end Postino
