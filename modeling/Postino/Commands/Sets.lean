import Postino.Commands.Lists

/-!
# Commands on sets

Members, the algebra of several sets, and random picks. A set that has become empty is
dropped with its key.
-/

namespace Postino

open Lib

namespace Exec

open Fallible

/-! ## Reading -/

def smembers (ctx : Ctx) (db : Db) : List String → Except Fault Reply
  | [_, key] => do
    let set ← set_ref db key ctx.now
    collect_within ((set.elim [] (·.toList)).map .bulk)
  | argv => .error (wrong_args_of argv)

def sismember (ctx : Ctx) (db : Db) : List String → Except Fault Reply
  | [_, key, member] => (set_ref db key ctx.now).map fun set => .of_bool (set.any (·.contains member))
  | argv => .error (wrong_args_of argv)

def smismember (ctx : Ctx) (db : Db) : List String → Except Fault Reply
  | _ :: key :: member :: members =>
    (set_ref db key ctx.now).map fun set =>
      .array ((member :: members).map fun m => .of_bool (set.any (·.contains m)))
  | argv => .error (wrong_args_of argv)

def scard (ctx : Ctx) (db : Db) : List String → Except Fault Reply
  | [_, key] => (set_ref db key ctx.now).map fun set => .of_usize (set.elim 0 (·.size))
  | argv => .error (wrong_args_of argv)

/-! ## Several sets -/

/-- A set where it is: two are one set when they are under one key. -/
abbrev Named := String × BTreeSet String

/-- The sets under `keys`, each read where it is. -/
def named_sets (ctx : Ctx) (db : Db) (keys : List String) : Except Fault (List (Option Named)) :=
  keys.mapM fun key => (set_ref db key ctx.now).map fun set => set.map fun s => (key, s)

/-- The sets named, once however often they are. -/
def once : List (Option Named) → List Named → List Named
  | [], seen => seen
  | none :: named, seen => once named seen
  | some set :: named, seen =>
    if seen.any fun s => s.1 = set.1 then once named seen else once named (seen ++ [set])

/-- Whether `set` is the first of those named. -/
def is_first (first : Option Named) (set : Named) : Bool := first.any fun f => f.1 = set.1

def members (first : Option Named) : BTreeSet String := first.elim ∅ Prod.snd

/-- The members of every set. The smallest is the one gone through. -/
def intersection (first : Option Named) (others : List Named) : List String :=
  let all := members first :: (others.filter fun s => !is_first first s).map Prod.snd
  match all.mergeSort fun s t => s.size ≤ t.size with
  | [] => []
  | smallest :: rest => smallest.toList.filter fun m => rest.all (·.contains m)

/-- Adds the members of a set, refused once the members found make too long a reply. -/
def union_with : List String → Nat → BTreeSet String → Except Fault (Nat × BTreeSet String)
  | [], bytes, union => .ok (bytes, union)
  | m :: rest, bytes, union =>
    if union.contains m then union_with rest bytes union
    else match within_reply (bytes + m.utf8ByteSize) with
      | .error f => .error f
      | .ok () => union_with rest (bytes + m.utf8ByteSize) (union.insert m)

def union_all : List (BTreeSet String) → Nat → BTreeSet String → Except Fault (BTreeSet String)
  | [], _, union => .ok union
  | set :: sets, bytes, union => do
    let (bytes, union) ← union_with set.toList bytes union
    union_all sets bytes union

/-- SINTER, SUNION and SDIFF. -/
def set_algebra (name : String) (ctx : Ctx) (db : Db) : List String → Except Fault Reply
  | _ :: key :: keys => do
    let named ← named_sets ctx db (key :: keys)
    let first := (named.head?).join
    let others := once named.tail []
    let found ←
      if name = "SINTER" then
        .ok (if named.any Option.isNone then [] else intersection first others)
      else if name = "SUNION" then
        let distinct := (others.filter fun s => !is_first first s).map Prod.snd
        (union_all (members first :: distinct) 0 ∅).map (·.toList)
      else if others.any (is_first first) then .ok []
      else .ok ((members first).toList.filter fun m => !others.any (·.2.contains m))
    collect_within (found.map .bulk)
  | argv => .error (wrong_args_of argv)

/-! ## Changing -/

/-- Adds members one after another; returns how many were new. -/
def put_members : List String → BTreeSet String → Nat × BTreeSet String
  | [], set => (0, set)
  | m :: members, set =>
    let (added, result) := put_members members (set.insert m)
    (if set.contains m then added else added + 1, result)

/-- Removes members one after another; returns how many were there. -/
def remove_members : List String → BTreeSet String → Nat × BTreeSet String
  | [], set => (0, set)
  | m :: members, set =>
    let (removed, result) := remove_members members (set.erase m)
    (if set.contains m then removed + 1 else removed, result)

/-- The members a set, if there is one, does not hold, each once. -/
def new_members (members : List String) (set : Option (BTreeSet String)) : List String :=
  (members.filter fun m => !set.any (·.contains m)).dedup

section

variable [Json]

def sadd (ctx : Ctx) : List String → Exec Error Reply
  | _ :: key :: member :: members => do
    let current ← reads (set_ref · key ctx.now)
    let new := (new_members (member :: members) current).length
    within fun _ => room_for ctx (current.elim 0 (·.size)) new
    let added ← edit_or_create .set ctx key fun set =>
      let (added, set) := put_members (member :: members) set
      (.ok added, set)
    let added ← require added
    provided (0 < added) (touch ctx key "sadd")
    prune key
    pure (.of_usize added)
  | argv => fail (.fault (wrong_args_of argv))

def srem (ctx : Ctx) : List String → Exec Fault Reply
  | _ :: key :: member :: members =>
    remove_counted .set ctx key "srem" (remove_members (member :: members))
  | argv => fail (wrong_args_of argv)

/-! ### Random picks -/

/-- The members at sampled positions, in member order. -/
def sampled (random : Random) (n : Nat) (set : BTreeSet String) : List String :=
  let positions := random.sample_distinct set.size n
  (set.toList.zipIdx.filter fun m => m.2 ∈ positions).map Prod.fst

/-- Members that may repeat, `draws` in all, their bytes counted as they are copied. -/
def repeated (random : Random) (members : List String) : Nat → Nat → Nat → Except Fault (List String)
  | _, _, 0 => .ok []
  | draw, bytes, draws + 1 =>
    let member := members.getD (random.below draw members.length) ""
    match within_reply (bytes + member.utf8ByteSize) with
    | .error f => .error f
    | .ok () => (repeated random members (draw + 1) (bytes + member.utf8ByteSize) draws).map (member :: ·)

/-- What SPOP or SRANDMEMBER picks of a set. -/
def picked (pop : Bool) (ctx : Ctx) (wanted : Option Int) (set : BTreeSet String) :
    Except Fault (List String) :=
  match wanted with
  | none => .ok (set.toList[ctx.random.below 0 set.size]?).toList
  | some n =>
    if 0 ≤ n then .ok (sampled ctx.random (min n.toNat set.size) set)
    else if pop then .error (.err "value is out of range, must be positive")
    -- a negative count for SRANDMEMBER allows repeats
    else if ctx.max_elements < n.natAbs then
      .error (.err s!"count exceeds the element limit ({ctx.max_elements})")
    else repeated ctx.random set.toList 0 0 n.natAbs

/-- The reply to a pick. -/
def picked_reply (wanted : Option Int) (picked : List String) : Reply :=
  if wanted.isSome then Reply.bulks picked else .bulk (picked.headD "")

def srandmember (ctx : Ctx) (db : Db) (argv : List String) : Except Fault Reply :=
  match argv with
  | _ :: key :: options => do
    if 1 < options.length then .error (wrong_args_of argv)
    else
      let wanted ← options.head?.elim (.ok none) fun c => (int c).map some
      match ← set_ref db key ctx.now with
      | none => pure (if wanted.isSome then .array [] else .nil)
      | some set => (picked false ctx wanted set).map (picked_reply wanted)
  | argv => .error (wrong_args_of argv)

def spop (ctx : Ctx) (argv : List String) : Exec Fault Reply :=
  match argv with
  | _ :: key :: options => do
    refuse (1 < options.length) (wrong_args_of argv)
    let wanted ← attempt (options.head?.elim (.ok none) fun c => (int c).map some)
    match ← reads (set_ref · key ctx.now) with
    | none => pure (if wanted.isSome then .array [] else .nil)
    | some set => do
      let found ← attempt (picked true ctx wanted set)
      if found.isEmpty then pure (picked_reply wanted found)
      else do
        let done ← edit .set ctx key fun set => (.ok (), (remove_members found set).2)
        require done
        prune key
        touch ctx key "spop"
        journal_as [["SREM", key] ++ found]
        pure (picked_reply wanted found)
  | argv => fail (wrong_args_of argv)

/-! ### Moving -/

/-- Moves a member from a set that holds it to another key's. -/
def move_member (ctx : Ctx) (src dst member : String) (source_len : Nat)
    (dest : Option (BTreeSet String)) : Exec Error Reply := do
  -- whatever can refuse the move is checked before anything moves
  within fun db =>
    if dest.any (·.contains member) then .ok ()
    else match room_for ctx (dest.elim 0 (·.size)) 1 with
      | .error e => .error e
      | .ok () => if dest.isNone && 1 < source_len then admit_ db dst ctx else .ok ()
  let done ← edit .set ctx src fun set => (.ok (), set.erase member)
  require done
  prune src
  -- admitted above, or in the place of the emptied source
  change fun db => if dest.isNone then db.insert dst { value := .set ∅ } else db
  let done ← edit .set ctx dst fun set => (.ok (), set.insert member)
  require done
  touch ctx src "srem"
  touch ctx dst "sadd"
  pure (.int 1)

def smove (ctx : Ctx) : List String → Exec Error Reply
  | [_, src, dst, member] => do
    let source ← reads (set_ref · src ctx.now)
    match source with
    | none => pure (.int 0)
    | some source => do
      let dest ← reads (set_ref · dst ctx.now)
      if src = dst || !source.contains member then pure (.of_bool (source.contains member))
      else move_member ctx src dst member source.size dest
  | argv => fail (.fault (wrong_args_of argv))

end

end Exec

end Postino
