import Postino.Commands.Dispatch
import Postino.Forum.Core
import Postino.Scope

/-!
# Permission

Whether a client may run a command: its scope reaches every key that the command names, for
what it does with it, and every channel that it publishes to or asks about.
-/

namespace Postino

open Lib Fallible

/-- Channels the server publishes key changes on. -/
def NOTIFICATION_PREFIXES : List String := ["__keyspace__", "__keyevent__"]

namespace Scope

def describe (patterns : List String) : String :=
  if patterns.isEmpty then "none" else ", ".intercalate patterns

def denied_key (scope : Scope) (key : String) (write : Bool) : String :=
  let reach := if write || scope.read.isEmpty then describe scope.keys
    else s!"{describe scope.keys} (and {describe scope.read} read-only)"
  let use := if write then "change" else "read"
  s!"NOPERM this token cannot {use} key {debug key}; it reaches {reach}"

def denied_channel (scope : Scope) (channel : String) : String :=
  s!"NOPERM this token cannot use channel {debug channel}; it reaches {describe scope.channels}"

end Scope

namespace Access

/-- Whether the scope reaches a key that a command names, for what the command does. -/
def permit_key (access : Access) (argv : List String) (key : Nat × Bool) : Except String Unit :=
  match argv[key.1]? with
  | none => .ok ()
  | some name =>
    if if key.2 then access.scope.can_write name else access.scope.can_read name then .ok ()
    else .error (access.scope.denied_key name key.2)

/-- Checks the channels a command publishes to or asks about. -/
def permit_channels (access : Access) (argv : List String) : Except String Unit :=
  match Name.of_ argv, argv with
  | "PUBLISH", _ :: channel :: _ =>
    if NOTIFICATION_PREFIXES.any (fun p => channel.startsWith p) then
      .error "ERR channels starting with __keyspace__ or __keyevent__ carry key-change notifications; only the server publishes to them"
    else if access.scope.can_use_channel channel then .ok ()
    else .error (access.scope.denied_channel channel)
  | "PUBSUB", _ :: sub :: asked =>
    match if Exec.is sub "NUMSUB" then asked.find? fun c => !access.scope.can_use_channel c else none with
    | some channel => .error (access.scope.denied_channel channel)
    | none => .ok ()
  | _, _ => .ok ()

/-- Checks every key a command names, and the channels, before the command runs. -/
def permit (access : Access) (argv : List String) : Except String Unit := do
  access.permit_channels argv
  if access.scope.all_keys then pure ()
  else match key_args argv with
    | none => .error ("ERR unknown command '" ++ to_ascii_lowercase (argv.headD "") ++ "'")
    | some keys => keys.forM (access.permit_key argv)

end Access

end Postino
