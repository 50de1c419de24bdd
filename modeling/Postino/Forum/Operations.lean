import Postino.Forum.Rooms

/-!
# What can be asked of the forum

Every operation, with its arguments; what it returns is left out here.
-/

namespace Postino.Forum

open Lib Fallible

inductive Operation where
  | presence (req : PresenceRequest)
  | leave (agent session : String)
  | rename (from_ to_ : String)
  | cleanup
  | forget (name : String)
  | send (req : SendRequest)
  | lease (inbox consumer : String) (limit : Nat)
  | lease_ids (inbox consumer : String) (ids : List Id)
  | ack (inbox : String) (receipts : List String) (consumer : Option String)
  | purge (inbox : String)
  | broadcast (from_ body : String) (key : Option String)
  | read_broadcasts (agent : String) (all advance : Bool)
  | clear_broadcasts
  | create_room (req : CreateRoom) (actor : Actor)
  | join (room agent : String) (role : Option Role) (actor : Actor)
  | leave_room (room agent : String) (actor : Actor)
  | update_room (room : String) (topic : Option String) (closed : Option Bool) (actor : Actor)
  | delete_room (room : String) (actor : Actor)
  | post (req : PostRequest) (actor : Actor)
  | answer (req : AnswerRequest) (actor : Actor)
  | withdraw (room : String) (question : Id) (actor : Actor)
  | board_set (room key : String) (value : Option String) (expect : Option Nat) (actor : Actor)
  | read_room (room agent : String) (limit : Nat)
  | sweep
  | sweep_due

/-- A computation, without what it returns. -/
def discard {α : Type} (m : Op α) : Op Unit := do
  let _ ← m
  pure ()

def Operation.perform (now : Fin (2 ^ 64)) : Operation → Op Unit
  | .presence req => discard (Forum.presence req now)
  | .leave agent session => Forum.leave agent session now
  | .rename from_ to_ => Forum.rename from_ to_ now
  | .cleanup => discard (Forum.cleanup now)
  | .forget name => Forum.forget name now
  | .send req => discard (Forum.send req now)
  | .lease inbox consumer limit => discard (Forum.lease inbox consumer limit now)
  | .lease_ids inbox consumer ids => discard (Forum.lease_ids inbox consumer ids now)
  | .ack inbox receipts consumer => discard (Forum.ack inbox receipts consumer now)
  | .purge inbox => discard (Forum.purge inbox now)
  | .broadcast from_ body key => discard (Forum.broadcast from_ body key now)
  | .read_broadcasts agent all advance => discard (Forum.read_broadcasts agent all advance)
  | .clear_broadcasts => Forum.clear_broadcasts now
  | .create_room req actor => discard (Forum.create_room req actor now)
  | .join room agent role actor => discard (Forum.join room agent role actor now)
  | .leave_room room agent actor => Forum.leave_room room agent actor now
  | .update_room room topic closed actor => Forum.update_room room topic closed actor now
  | .delete_room room actor => Forum.delete_room room actor now
  | .post req actor => discard (Forum.post req actor now)
  | .answer req actor => discard (Forum.answer req actor now)
  | .withdraw room question actor => Forum.withdraw room question actor now
  | .board_set room key value expect actor => discard (Forum.board_set room key value expect actor now)
  | .read_room room agent limit => discard (Forum.read_room room agent limit)
  | .sweep => discard (Forum.sweep now)
  | .sweep_due => discard (Forum.sweep_due now)

end Postino.Forum
