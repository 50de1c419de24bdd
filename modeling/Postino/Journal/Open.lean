import Postino.Journal.Journal

/-!
# The data directory

What the files of the data directory go through: the journal is appended to and
set aside, a snapshot lands and the journals it covers are removed, and a process
that starts (`open_journal`) reads what is there, removes what is left over and
cuts off a torn line. Each system call is an operation of its own, and the
process may die before or after any of them (`Node.step`).

`snapshot.json` is its number and the store it holds. What goes into a snapshot's
temporary file is left out, but not the file.
-/

namespace Postino.Journal

open Lib

/-! ## Files -/

/-- The data directory. -/
structure Disk (σ : Type) where
  files : Files := {}
  snapshot : Option (Nat × σ) := none
  /-- The temporary files of snapshots, `snapshot.<seq>.<capture>.tmp`. -/
  tmp : List (Nat × Nat) := []

inductive DiskOp where
  | file (op : FileOp)
  | removeAside (seq : Nat)
  /-- Opens `journal.log`, a new one if there is none. -/
  | createLog
  | truncate (bytes : Nat)
  | createTmp (name : Nat × Nat)
  | removeTmp (name : Nat × Nat)
  deriving DecidableEq

variable {ε σ : Type}

def DiskOp.run (disk : Disk σ) : DiskOp → Disk σ
  | file op => { disk with files := op.run disk.files }
  | removeAside seq =>
    { disk with files := { disk.files with aside := disk.files.aside.erase seq } }
  | createLog => { disk with files := { disk.files with log := some (disk.files.log.getD []) } }
  | truncate bytes =>
    { disk with files := { disk.files with log := disk.files.log.map (List.take bytes) } }
  | createTmp name => { disk with tmp := name :: disk.tmp.filter (· ≠ name) }
  | removeTmp name => { disk with tmp := disk.tmp.filter (· ≠ name) }

/-! ## Opening a journal -/

/-- "corrupt journal entry at <file>:<line>; refusing to start" -/
structure Corrupt where
  file : Handle
  line : Nat
  deriving DecidableEq

variable [EffectJson ε]

/-- The last sequence number in `file`, how many of its bytes are whole lines, and
the store with its changes. -/
def replay (snapshot_seq : Nat) (apply : σ → ε → σ) (path : Handle) (file : Bytes) (store : σ) :
    Except Corrupt (Nat × Nat × σ) :=
  let (found, store) := scan snapshot_seq apply file store
  match found.corrupt with
  | some line => .error { file := path, line }
  | none => .ok (found.seq, found.valid, store)

/-- The journals set aside, oldest first: those the snapshot covers are removed,
the others replayed. -/
def open_aside (snapshot_seq : Nat) (apply : σ → ε → σ) :
    List (Nat × Bytes) → Nat → σ → List DiskOp × Except Corrupt (Nat × σ)
  | [], seq, store => ([], .ok (seq, store))
  | (last, file) :: rest, seq, store =>
    if last ≤ snapshot_seq then
      let (ops, opened) := open_aside snapshot_seq apply rest seq store
      (.removeAside last :: ops, opened)
    else
      match replay snapshot_seq apply (.aside last) file store with
      | .error why => ([], .error why)
      | .ok (replayed, _, store) => open_aside snapshot_seq apply rest (max seq replayed) store

/-- `Journal::open`: what it does to the files, and the sequence number and the
store it starts with. Nothing else uses the directory meanwhile, so what it reads
is what was there when it started. -/
def open_journal (empty : σ) (apply : σ → ε → σ) (disk : Disk σ) :
    List DiskOp × Except Corrupt (Nat × σ) :=
  let (snapshot_seq, store) := disk.snapshot.getD (0, empty)
  let (removed, opened) := open_aside snapshot_seq apply disk.files.aside.toList snapshot_seq store
  match opened with
  | .error why => (removed, .error why)
  | .ok (seq, store) =>
    let cleaned := removed ++ disk.tmp.map .removeTmp ++ [.file .removeNext, .createLog]
    let file := disk.files.log.getD []
    match replay snapshot_seq apply .log file store with
    | .error why => (cleaned, .error why)
    | .ok (replayed, valid_bytes, store) =>
      let cut := if valid_bytes < file.length then [.truncate valid_bytes] else []
      (cleaned ++ cut, .ok (max (max seq replayed) snapshot_seq, store))

/-! ## Snapshots -/

/-- How far a snapshot is. -/
inductive Stage where
  | taking
  /-- In `persist`, with the set-aside journals it will remove. -/
  | persisting (covered : List Nat)
  /-- It is `snapshot.json`, and removes these. -/
  | landed (covered : List Nat)

structure Snapshot (σ : Type) where
  seq : Nat
  capture : Nat
  /-- The store when the rewrite started. -/
  state : σ
  stage : Stage := .taking

def Snapshot.tmp (snapshot : Snapshot σ) : Nat × Nat := (snapshot.seq, snapshot.capture)

/-! ## Processes -/

/-- A running process. -/
structure Process (σ : Type) where
  seq : Nat
  store : σ
  captures : Nat := 0
  /-- In `start_rewrite`: the operations left, and whether the fresh journal is
  then in place. -/
  rewriting : Option (List FileOp × Bool) := none
  /-- The snapshot being taken or written. -/
  snapshot : Option (Snapshot σ) := none
  /-- Snapshots given up, by their temporary files: each may still write to its
  own, or remove it. -/
  given_up : List (Nat × Nat) := []

inductive Mode (σ : Type) where
  | down
  /-- In `open_journal`: the operations left, and what it starts with. -/
  | opening (ops : List DiskOp) (opened : Except Corrupt (Nat × σ))
  /-- It did not start. -/
  | refused (why : Corrupt)
  | up (process : Process σ)

/-- The data directory, whoever uses it, and the effects whose append
completed. -/
structure Node (ε σ : Type) where
  disk : Disk σ := {}
  mode : Mode σ := .down
  journaled : List ε := []

inductive NodeMove (ε : Type) where
  | start
  /-- The next operation of `open_journal` or `start_rewrite`, or its end. -/
  | go
  | crash
  | append (effects : List ε)
  /-- The process dies in an append, with so many bytes in the file. -/
  | interrupt (effects : List ε) (bytes : Nat)
  | startRewrite
  /-- The snapshot's temporary file is written to. -/
  | flush
  | persist
  | land
  | removeCovered
  | finish
  /-- The snapshot fails, or is abandoned. -/
  | abandon
  /-- Shutdown takes over from a snapshot still being taken. -/
  | giveUp
  | flushGivenUp (name : Nat × Nat)
  | abandonGivenUp (name : Nat × Nat)

/-- The lines of `effects`, the first numbered `seq + 1`. -/
def write_lines (seq : Nat) : List ε → Option (List Bytes)
  | [] => some []
  | effect :: effects => do
    let line ← write_line (seq + 1) effect
    let lines ← write_lines (seq + 1) effects
    some (line :: lines)

/-- How many of `lines` are whole in their first `bytes` bytes. -/
def whole : List Bytes → Nat → Nat
  | [], _ => 0
  | line :: lines, bytes =>
    if line.length ≤ bytes then whole lines (bytes - line.length) + 1 else 0

def Files.append (files : Files) (text : Bytes) : Files :=
  { files with log := some (files.log.getD [] ++ text) }

/-- What a running process does next. -/
def Process.step (apply : σ → ε → σ) (node : Node ε σ) (p : Process σ) :
    NodeMove ε → Option (Node ε σ)
  | .crash => some { node with mode := .down }
  | .append effects => do
    guard p.rewriting.isNone
    let lines ← write_lines p.seq effects
    some { disk := { node.disk with files := node.disk.files.append lines.flatten }
           mode := .up { p with seq := p.seq + effects.length, store := effects.foldl apply p.store }
           journaled := node.journaled ++ effects }
  | .interrupt effects bytes => do
    guard p.rewriting.isNone
    let lines ← write_lines p.seq effects
    some { disk := { node.disk with files := node.disk.files.append (lines.flatten.take bytes) }
           mode := .down
           journaled := node.journaled ++ effects.take (whole lines bytes) }
  -- never while a snapshot is taken or written
  | .startRewrite => do
    guard (p.rewriting.isNone && p.snapshot.isNone)
    some { node with mode := .up { p with rewriting := some (rewrite_ops node.disk.files p.seq none) } }
  | .go =>
    match p.rewriting with
    | some (op :: ops, fresh) =>
      some { node with
        disk := DiskOp.run node.disk (.file op)
        mode := .up { p with rewriting := some (ops, fresh) } }
    | some ([], true) =>
      let capture := p.captures + 1
      some { node with mode := .up { p with
        rewriting := none
        captures := capture
        snapshot := some { seq := p.seq, capture, state := p.store } } }
    | some ([], false) => some { node with mode := .up { p with rewriting := none } }
    | none => none
  | .flush => do
    let snapshot ← p.snapshot
    some { node with disk := DiskOp.run node.disk (.createTmp snapshot.tmp) }
  | .persist => do
    let snapshot ← p.snapshot
    match snapshot.stage with
    | .taking =>
      let covered := (node.disk.files.aside.toList.map Prod.fst).filter (· ≤ snapshot.seq)
      some { node with
        mode := .up { p with snapshot := some { snapshot with stage := .persisting covered } } }
    | _ => none
  | .land => do
    let snapshot ← p.snapshot
    match snapshot.stage with
    | .persisting covered =>
      guard (snapshot.tmp ∈ node.disk.tmp)
      let disk := DiskOp.run node.disk (.removeTmp snapshot.tmp)
      some { node with
        disk := { disk with snapshot := some (snapshot.seq, snapshot.state) }
        mode := .up { p with snapshot := some { snapshot with stage := .landed covered } } }
    | _ => none
  | .removeCovered => do
    let snapshot ← p.snapshot
    match snapshot.stage with
    | .landed (seq :: covered) =>
      some { node with
        disk := DiskOp.run node.disk (.removeAside seq)
        mode := .up { p with snapshot := some { snapshot with stage := .landed covered } } }
    | _ => none
  | .finish => do
    let snapshot ← p.snapshot
    match snapshot.stage with
    | .landed [] => some { node with mode := .up { p with snapshot := none } }
    | _ => none
  | .abandon => do
    let snapshot ← p.snapshot
    some { node with
      disk := DiskOp.run node.disk (.removeTmp snapshot.tmp)
      mode := .up { p with snapshot := none } }
  | .giveUp => do
    let snapshot ← p.snapshot
    match snapshot.stage with
    | .taking =>
      some { node with
        mode := .up { p with snapshot := none, given_up := snapshot.tmp :: p.given_up } }
    | _ => none
  | .flushGivenUp name => do
    guard (name ∈ p.given_up)
    some { node with disk := DiskOp.run node.disk (.createTmp name) }
  | .abandonGivenUp name => do
    guard (name ∈ p.given_up)
    some { node with
      disk := DiskOp.run node.disk (.removeTmp name)
      mode := .up { p with given_up := p.given_up.filter (· ≠ name) } }
  | .start => none

def Node.step (empty : σ) (apply : σ → ε → σ) (node : Node ε σ) (move : NodeMove ε) :
    Option (Node ε σ) :=
  match node.mode, move with
  | .down, .start =>
    let (ops, opened) := open_journal empty apply node.disk
    some { node with mode := .opening ops opened }
  | .opening (op :: ops) opened, .go =>
    some { node with disk := DiskOp.run node.disk op, mode := .opening ops opened }
  | .opening [] (.ok (seq, store)), .go => some { node with mode := .up { seq, store } }
  | .opening [] (.error why), .go => some { node with mode := .refused why }
  | .opening _ _, .crash => some { node with mode := .down }
  | .up process, move => process.step apply node move
  | _, _ => none

def Node.run (empty : σ) (apply : σ → ε → σ) : List (NodeMove ε) → Node ε σ → Option (Node ε σ)
  | [], node => some node
  | move :: moves, node => do
    let node ← node.step empty apply move
    run empty apply moves node

end Postino.Journal
