import Postino.Broker.Permit
import Postino.Http.Request

/-!
# Who is calling

What the head of a request decides: whether its host, path and origin are served, and whose
token it presents, narrowed to one agent when it names one. Tokens are found by a hash of
them; addresses that fail too often are locked out for a while.

* `tokens_exact` — the index finds whose token it is, whatever the hash;
* `principal_narrows` — a request acts as the owner of its token, or as an agent an
  administrator narrowed to, and reaches no more than its token does;
* `cross_site_refused` — a page of another site changes nothing.

What an address is, which of them are loopback, and the hash are parameters.
-/

namespace Postino.Api

open Lib Fallible
open Forum (JsonValue)
open Http (Response bytes split split_once)

/-! ## Configuration -/

/-- The human operator's name. -/
def OPERATOR : String := "operator"

/-- Whether `name` would pass for the operator: the name in any case. -/
def reserved (name : String) : Bool := eq_ignore_ascii_case name OPERATOR

def MIN_TOKEN_LEN : Nat := 16

def is_ascii_graphic (b : UInt8) : Bool := 33 ≤ b && b ≤ 126

/-- Tokens travel in a header: visible ASCII, long enough not to guess. -/
def check_token (token what : String) : Except String Unit :=
  if !(bytes token).all is_ascii_graphic then .error s!"invalid {what}: use printable ASCII without spaces"
  else if (bytes token).length < MIN_TOKEN_LEN then
    .error s!"invalid {what}: use at least {MIN_TOKEN_LEN} characters; \x60postino token\x60 prints a random one"
  else .ok ()

/-- An agent's credential, bound to one name, and what it reaches. -/
structure AgentToken where
  name : String
  token : String
  scope : Scope

structure Auth where
  api_token : Option String := none
  agent_tokens : List AgentToken := []

namespace Auth

def enabled (auth : Auth) : Bool := auth.api_token.isSome || !auth.agent_tokens.isEmpty

/-- No token that was seen, or comes twice. -/
def check_agents : List String → List AgentToken → Except String Unit
  | _, [] => .ok ()
  | seen, agent :: rest => do
    check_token agent.token s!"token for agent {debug agent.name}"
    if agent.token ∈ seen then
      .error s!"the token for agent {debug agent.name} is also used by another principal; give every agent its own token"
    else check_agents (seen ++ [agent.token]) rest

/-- Every token long enough, and none shared between two principals. -/
def check (auth : Auth) : Except String Unit := do
  match auth.api_token with
  | some token => check_token token "POSTINO_API_TOKEN"
  | none => .ok ()
  check_agents auth.api_token.toList auth.agent_tokens

end Auth

/-! ## Tokens -/

inductive Principal where
  | Admin
  | Agent (name : String)
  deriving DecidableEq

def constant_time_eq (a b : Bytes) : Bool :=
  if a.length ≠ b.length then false
  else (a.zip b).foldl (fun acc xy => acc ||| (xy.1 ^^^ xy.2)) 0 = 0

/-- The configured tokens, found by a hash. -/
structure Tokens where
  by_hash : BTreeMap (Fin (2 ^ 64)) (List (String × Principal))
  /-- Each agent token's scope, by agent name. -/
  scopes : BTreeMap String Scope

/-- Every configured token with whose it is. -/
def Auth.owners (auth : Auth) : List (String × Principal) :=
  auth.api_token.toList.map (fun token => (token, .Admin)) ++
    auth.agent_tokens.map fun agent => (agent.token, .Agent agent.name)

section

variable (hash_one : Bytes → Fin (2 ^ 64))

namespace Tokens

def file (by_hash : BTreeMap (Fin (2 ^ 64)) (List (String × Principal))) (owner : String × Principal) :
    BTreeMap (Fin (2 ^ 64)) (List (String × Principal)) :=
  let hash := hash_one (bytes owner.1)
  by_hash.insert hash ((by_hash[hash]?).getD [] ++ [owner])

/-- A name given more than one token keeps the first one's scope. -/
def file_scope (scopes : BTreeMap String Scope) (agent : AgentToken) : BTreeMap String Scope :=
  if scopes.contains agent.name then scopes else scopes.insert agent.name agent.scope

def new (auth : Auth) : Tokens :=
  { by_hash := auth.owners.foldl (file hash_one) ∅
    scopes := auth.agent_tokens.foldl file_scope ∅ }

/-- Whose token this is. The few that share its hash are each compared in full. -/
def principal (tokens : Tokens) (token : Bytes) : Option Principal :=
  ((tokens.by_hash[hash_one token]?).getD []).foldl
    (fun found owner => if constant_time_eq (bytes owner.1) token then some owner.2 else found) none

end Tokens

end

/-! ## Locking out -/

def MAX_AUTH_FAILURES : Nat := 20
def AUTH_WINDOW_MS : Nat := 60000
def MAX_TRACKED_ADDRESSES : Nat := 4096

variable {Ip : Type} [LinearOrder Ip]

/-- Failed authentications by address: how many, since when. -/
abbrev Lockout (Ip : Type) [LinearOrder Ip] : Type := BTreeMap Ip (Nat × Nat)

namespace Lockout

/-- Seconds left in an address's lockout, if it is locked out. -/
def wait (failures : Lockout Ip) (ip : Ip) (now : Nat) : Option Nat :=
  match failures[ip]? with
  | none => none
  | some (count, since) =>
    let elapsed := now - since
    if count ≥ MAX_AUTH_FAILURES ∧ elapsed < AUTH_WINDOW_MS then some ((AUTH_WINDOW_MS - elapsed + 999) / 1000) else none

/-- The failures whose window is not over. -/
def retain (failures : Lockout Ip) (now : Nat) : Lockout Ip :=
  failures.filter fun _ entry => now - entry.2 < AUTH_WINDOW_MS

/-- Counts a failure, in a window of its own when the last one is over. -/
def count (failures : Lockout Ip) (ip : Ip) (now : Nat) : Lockout Ip :=
  let (count, since) := (failures[ip]?).getD (0, now)
  let (count, since) := if now - since ≥ AUTH_WINDOW_MS then (0, now) else (count, since)
  failures.insert ip (count + 1, since)

def fail (failures : Lockout Ip) (ip : Ip) (now : Nat) : Lockout Ip :=
  if failures.size ≥ MAX_TRACKED_ADDRESSES ∧ !failures.contains ip then
    let failures := retain failures now
    if failures.size ≥ MAX_TRACKED_ADDRESSES then failures else count failures ip now
  else count failures ip now

end Lockout

/-! ## A request -/

/-- A JSON response. -/
def Response.json (status : Nat) (value : JsonValue) : Response :=
  { status, headers := [("Content-Type", "application/json")], body := bytes value.display }

def fail (status : Nat) (message : String) : Response :=
  Response.json status (.of_fields [("ok", .bool false), ("error", .string message)])

def is_ascii_alphanumeric (b : UInt8) : Bool := 48 ≤ b && b ≤ 57 || 65 ≤ b && b ≤ 90 || 97 ≤ b && b ≤ 122

/-- Agent names: 1-64 characters, alphanumeric first, then alphanumerics, `-`, `_`, or `.`. -/
def valid_name (name : String) : Bool :=
  (bytes name).head?.any is_ascii_alphanumeric && (bytes name).length ≤ 64 &&
    (bytes name).all fun b => is_ascii_alphanumeric b || b = 45 || b = 95 || b = 46

def name (value : String) : Except Response String :=
  if valid_name value then .ok value else .error (fail 400 s!"invalid agent name {debug value}")

/-- The token of an `Authorization` header of the Bearer scheme. -/
def bearer (value : String) : Option String :=
  match split_once ' ' value with
  | none => none
  | some (scheme, token) =>
    if eq_ignore_ascii_case scheme "bearer" then some (String.ofList (token.toList.dropWhile (· = ' '))) else none

/-- The name a Host header gives, without its port. -/
def host_name (host : String) : String :=
  if host.startsWith "[" then String.ofList (((split ']' host).headD "").toList.dropWhile (· = '['))
  else
    -- the port is what follows the last colon
    match host.toList.reverse.dropWhile (· ≠ ':') with
    | [] => host
    | _ :: name =>
      if (host.toList.reverse.takeWhile (· ≠ ':')).all Char.isDigit then String.ofList name.reverse else host

def origin_authority (origin : String) : Option String :=
  if origin.startsWith "http://" then some (String.ofList (origin.toList.drop 7))
  else if origin.startsWith "https://" then some (String.ofList (origin.toList.drop 8))
  else none

structure ApiConfig where
  auth : Auth := {}
  cors_origin : Option String := none
  allowed_hosts : List String := []

/-- What the server runs on: how tokens are hashed, and what addresses are. -/
structure Platform (Ip : Type) where
  hash_one : Bytes → Fin (2 ^ 64)
  parse_ip : String → Option Ip
  loopback_ip : Ip → Bool

section

variable (platform : Platform Ip) (cfg : ApiConfig)

/-- Whether `host` names the loopback interface. -/
def is_loopback (host : String) : Bool :=
  let host := String.ofList ((host.toList.dropWhile (· = '[')).reverse.dropWhile (· = ']')).reverse
  eq_ignore_ascii_case host "localhost" || (platform.parse_ip host).any platform.loopback_ip

namespace Server

def host_allowed (req : Http.Request) : Bool :=
  if cfg.auth.enabled && cfg.allowed_hosts.isEmpty then true
  else
    match req.header "host" with
    | none => req.http10
    | some host =>
      let name := host_name host
      if cfg.allowed_hosts.isEmpty then is_loopback platform name
      else cfg.allowed_hosts.any (fun allowed => eq_ignore_ascii_case allowed name) || is_loopback platform name

def same_origin (req : Http.Request) : Bool :=
  match req.header "origin" with
  | none => true
  | some origin =>
    if cfg.cors_origin = some origin then true
    else
      match origin_authority origin, req.header "host" with
      | some authority, some host => eq_ignore_ascii_case authority host
      | _, _ => false

def principal_for (token : Option String) : Option Principal :=
  if !cfg.auth.enabled then some .Admin
  else token.bind fun token => (Tokens.new platform.hash_one cfg.auth).principal platform.hash_one (bytes token)

/-- The token a request presents. -/
def presented (req : Http.Request) : Option String :=
  ((req.header "authorization").bind bearer).or (req.header "x-postino-token")

/-- A principal, narrowed to the agent a request names. -/
def narrow (principal : Principal) : Option String → Except Response Principal
  | none => .ok principal
  | some agent => do
    let agent ← name agent
    if reserved agent then
      .error (fail 403 "\"operator\" is the human operator; an agent cannot act under that name")
    else
      match principal with
      | .Agent own =>
        if own ≠ agent then
          .error (fail 403 s!"this token belongs to agent {debug own}; it cannot act as {debug agent}")
        else .ok (.Agent agent)
      | .Admin => .ok (.Agent agent)

/-- Who is calling, and what that leaves of the lockout. -/
def principal (lockout : Lockout Ip) (now : Nat) (req : Http.Request) (peer : Option Ip) :
    Except Response Principal × Lockout Ip :=
  let remote := peer.filter fun ip => !platform.loopback_ip ip
  match remote.bind fun ip => lockout.wait ip now with
  | some wait =>
    let response := fail 429 s!"too many failed authentications from this address; retry in {wait}s"
    (.error { response with headers := response.headers ++ [("Retry-After", toString wait)] }, lockout)
  | none =>
    match principal_for platform cfg (presented req) with
    | none =>
      let lockout := match remote, presented req with
        | some ip, some _ => lockout.fail ip now
        | _, _ => lockout
      (.error (fail 401 "authentication required"), lockout)
    | some principal => (narrow principal (req.header "x-postino-agent"), lockout)

/-- What a principal reaches in the keyspace. -/
def access : Principal → Access
  | .Admin => { admin := true, scope := Scope.all }
  | .Agent name =>
    { admin := false, scope := ((Tokens.new platform.hash_one cfg.auth).scopes[name]?).getD Scope.all }

/-- What the head of a request lets it do. -/
inductive Admission where
  | Preflight
  | Health
  | Principal (principal : Principal)

def admit_ (lockout : Lockout Ip) (now : Nat) (req : Http.Request) (peer : Option Ip) :
    Except Response Admission × Lockout Ip :=
  if !host_allowed platform cfg req then
    (.error (fail 403 "Host header not allowed; set POSTINO_ALLOWED_HOSTS to serve this name"), lockout)
  else if req.segments.head? ≠ some "api" then
    (.error (fail 404 "not found; the API lives under /api (see /api/health)"), lockout)
  else if req.method = "OPTIONS" then (.ok .Preflight, lockout)
  else if req.method ∈ ["POST", "PUT", "PATCH", "DELETE"] ∧ !same_origin cfg req then
    (.error (fail 403 "cross-origin request denied"), lockout)
  else if req.method = "GET" ∧ req.segments.tail = ["health"] then (.ok .Health, lockout)
  else
    let (result, lockout) := principal platform cfg lockout now req peer
    (result.map .Principal, lockout)

end Server

end

/-! ## Whose token it is -/

theorem fold_differ (ps : List (UInt8 × UInt8)) (acc : UInt8) :
    ps.foldl (fun acc xy => acc ||| (xy.1 ^^^ xy.2)) acc = 0 ↔ acc = 0 ∧ ∀ xy ∈ ps, xy.1 = xy.2 := by
  induction ps generalizing acc with
  | nil => simp
  | cons xy ps ih =>
    rw [List.foldl_cons, ih, UInt8.or_eq_zero_iff, UInt8.xor_eq_zero_iff, List.forall_mem_cons, and_assoc]

theorem constant_time_eq_iff (a b : Bytes) : constant_time_eq a b = true ↔ a = b := by
  unfold constant_time_eq
  by_cases hLength : a.length = b.length
  · rw [if_neg (not_not.mpr hLength), decide_eq_true_eq, fold_differ]
    constructor
    · rintro ⟨-, hSame⟩
      refine List.ext_getElem hLength fun i hI hJ => ?_
      have hMem : (a[i], b[i]) ∈ a.zip b := by
        rw [List.mem_iff_getElem]
        exact ⟨i, by rw [List.length_zip]; omega, List.getElem_zip⟩
      exact hSame _ hMem
    · rintro rfl
      refine ⟨rfl, fun xy hXY => ?_⟩
      obtain ⟨i, hI, rfl⟩ := List.mem_iff_getElem.mp hXY
      rw [List.getElem_zip]
  · rw [if_pos hLength]
    constructor
    · rintro ⟨⟩
    · rintro rfl
      exact absurd rfl hLength

/-- What is filed under a hash: the owners of it, in order. -/
theorem filed (hash_one : Bytes → Fin (2 ^ 64)) (owners : List (String × Principal)) (hash : Fin (2 ^ 64)) :
    ((owners.foldl (Tokens.file hash_one) ∅)[hash]?).getD [] = owners.filter fun o => hash_one (bytes o.1) = hash := by
  induction owners using List.reverseRecOn with
  | nil => rfl
  | append_singleton owners o ih =>
    rw [List.foldl_append, List.filter_append, ← ih, List.foldl_cons, List.foldl_nil, List.filter_singleton]
    generalize owners.foldl (Tokens.file hash_one) ∅ = filed
    unfold Tokens.file
    dsimp only
    rw [BTreeMap.get_insert]
    by_cases hSame : hash_one (bytes o.1) = hash
    · subst hSame
      simp
    · simp [hSame]

/-- The last of what is found. -/
theorem foldl_found {α β : Type} (p : α → Bool) (f : α → β) (xs : List α) (b : β) :
    xs.foldl (fun found x => if p x then some (f x) else found) none = some b → ∃ x ∈ xs, p x = true ∧ f x = b := by
  induction xs using List.reverseRecOn with
  | nil => rintro ⟨⟩
  | append_singleton xs x ih =>
    rw [List.foldl_append, List.foldl_cons, List.foldl_nil]
    by_cases hX : p x = true
    · rw [if_pos hX]
      rintro ⟨⟩
      exact ⟨x, List.mem_append_right _ (List.mem_singleton_self x), hX, rfl⟩
    · rw [if_neg hX]
      intro hFound
      obtain ⟨y, hY, hBoth⟩ := ih hFound
      exact ⟨y, List.mem_append_left _ hY, hBoth⟩

theorem foldl_some {α β : Type} {p : α → Bool} (f : α → β) {xs : List α} (h : ∃ x ∈ xs, p x = true) :
    ∃ b, xs.foldl (fun found x => if p x then some (f x) else found) none = some b := by
  induction xs using List.reverseRecOn with
  | nil =>
    obtain ⟨x, hX, -⟩ := h
    exact nomatch hX
  | append_singleton xs x ih =>
    rw [List.foldl_append, List.foldl_cons, List.foldl_nil]
    by_cases hLast : p x = true
    · exact ⟨f x, if_pos hLast⟩
    · rw [if_neg hLast]
      obtain ⟨y, hY, hP⟩ := h
      rcases List.mem_append.mp hY with hY | hY
      · exact ih ⟨y, hY, hP⟩
      · rw [List.mem_singleton.mp hY] at hP
        exact absurd hP hLast

theorem check_agents_nodup {seen : List String} {agents : List AgentToken} (h : Auth.check_agents seen agents = .ok ())
    (hSeen : seen.Nodup) : (seen ++ agents.map AgentToken.token).Nodup := by
  induction agents generalizing seen with
  | nil => rwa [List.map_nil, List.append_nil]
  | cons agent rest ih =>
    unfold Auth.check_agents at h
    cases hToken : check_token agent.token s!"token for agent {debug agent.name}" with
    | error e =>
      rw [hToken] at h
      cases h
    | ok _ =>
      rw [hToken] at h
      dsimp only [bind, Except.bind] at h
      split at h
      · cases h
      · next hNew =>
        have hAll := ih h (List.nodup_append.mpr ⟨hSeen, List.nodup_singleton _, fun a hA b hB => by
          rw [List.mem_singleton.mp hB]
          rintro rfl
          exact hNew hA⟩)
        rwa [List.append_assoc] at hAll

/-- No two principals share a token. -/
theorem check_nodup {auth : Auth} (h : auth.check = .ok ()) : (auth.owners.map Prod.fst).Nodup := by
  -- the admin's token, where there is one, comes before the agents'
  have hTokens : auth.owners.map Prod.fst = auth.api_token.toList ++ auth.agent_tokens.map AgentToken.token := by
    unfold Auth.owners
    rw [List.map_append, List.map_map, List.map_map]
    exact congrArg (· ++ _) (List.map_id _)
  have hAgents : Auth.check_agents auth.api_token.toList auth.agent_tokens = .ok () := by
    unfold Auth.check at h
    cases hToken : auth.api_token with
    | none =>
      rw [hToken] at h
      exact h
    | some token =>
      rw [hToken] at h
      dsimp only at h
      cases hCheck : check_token token "POSTINO_API_TOKEN" with
      | error e =>
        rw [hCheck] at h
        cases h
      | ok _ =>
        rw [hCheck] at h
        exact h
  rw [hTokens]
  refine check_agents_nodup hAgents ?_
  cases auth.api_token with
  | none => exact List.nodup_nil
  | some token => exact List.nodup_singleton token

/-- **The index finds whose token it is**, and nobody for any other bytes, whatever the hash
does: two tokens may share one. -/
theorem tokens_exact (hash_one : Bytes → Fin (2 ^ 64)) {auth : Auth} (h : auth.check = .ok ()) (presented : Bytes)
    (p : Principal) :
    (Tokens.new hash_one auth).principal hash_one presented = some p ↔
      ∃ token, bytes token = presented ∧ (token, p) ∈ auth.owners := by
  have hSlot := filed hash_one auth.owners (hash_one presented)
  have hSlot : ((Tokens.new hash_one auth).by_hash[hash_one presented]?).getD [] =
      auth.owners.filter fun o => hash_one (bytes o.1) = hash_one presented := hSlot
  have hMem : ∀ o : String × Principal, o ∈ auth.owners → bytes o.1 = presented →
      o ∈ auth.owners.filter fun o => hash_one (bytes o.1) = hash_one presented := by
    rintro o hO rfl
    exact List.mem_filter.mpr ⟨hO, decide_eq_true rfl⟩
  unfold Tokens.principal
  rw [hSlot]
  constructor
  · intro hFound
    obtain ⟨o, hO, hSame, rfl⟩ := foldl_found _ _ _ _ hFound
    exact ⟨o.1, (constant_time_eq_iff _ _).mp hSame, (List.mem_filter.mp hO).1⟩
  · rintro ⟨token, hBytes, hOwner⟩
    obtain ⟨q, hQ⟩ := @foldl_some _ _ (fun o : String × Principal => constant_time_eq (bytes o.1) presented) Prod.snd _
      ⟨(token, p), hMem _ hOwner hBytes, (constant_time_eq_iff _ _).mpr hBytes⟩
    obtain ⟨o, hO, hSame, rfl⟩ := foldl_found _ _ _ _ hQ
    -- two owners of one token are one
    have hToken : o.1 = token := Http.bytes_injective (((constant_time_eq_iff _ _).mp hSame).trans hBytes.symm)
    have hOne := List.inj_on_of_nodup_map (check_nodup h) (List.mem_filter.mp hO).1 hOwner hToken
    rw [hQ, hOne]

/-- Two tokens under one hash. -/
theorem tokens_exact_collision :
    let auth : Auth := { api_token := some "0123456789abcdef", agent_tokens := [⟨"ann", "fedcba9876543210", Scope.agent "ann"⟩] }
    (Tokens.new (fun _ => 0) auth).principal (fun _ => 0) (bytes "fedcba9876543210") = some (.Agent "ann") := by
  intro auth
  exact (@tokens_exact (fun _ => 0) auth (by decide +kernel) _ _).mpr
    ⟨"fedcba9876543210", rfl, List.mem_cons_of_mem _ List.mem_cons_self⟩

/-! ## What a request acts as -/

section

variable {platform : Platform Ip} {cfg : ApiConfig}

theorem narrow_ok {owner p : Principal} {agent : Option String} (h : Server.narrow owner agent = .ok p) :
    (p = owner ∨ owner = .Admin ∧ ∃ name, p = .Agent name ∧ valid_name name = true ∧ reserved name = false) ∧
      ∀ name, agent = some name → p = .Agent name := by
  cases agent with
  | none =>
    cases h
    exact ⟨.inl rfl, by rintro _ ⟨⟩⟩
  | some agent =>
    unfold Server.narrow name at h
    dsimp only at h
    by_cases hValid : valid_name agent = true
    · rw [if_pos hValid] at h
      dsimp only [bind, Except.bind] at h
      by_cases hReserved : reserved agent = true
      · rw [if_pos hReserved] at h
        cases h
      · rw [if_neg hReserved] at h
        -- an admin may act as any agent, an agent only as itself
        cases owner with
        | Admin =>
          cases h
          refine ⟨.inr ⟨rfl, agent, rfl, hValid, Bool.eq_false_iff.mpr hReserved⟩, ?_⟩
          rintro _ ⟨⟩
          rfl
        | Agent own =>
          dsimp only at h
          split at h
          · cases h
          · next hOwn =>
            cases h
            rw [not_not.mp hOwn]
            refine ⟨.inl rfl, ?_⟩
            rintro _ ⟨⟩
            rfl
    · rw [if_neg hValid] at h
      cases h

theorem permit_publish (access : Access) {word channel : String} {rest : List String}
    (hName : Name.of_ (word :: channel :: rest) = "PUBLISH") :
    ∃ why, access.permit_channels (word :: channel :: rest) =
      if NOTIFICATION_PREFIXES.any (fun p => channel.startsWith p) then .error why
      else if access.scope.can_use_channel channel then .ok () else .error (access.scope.denied_channel channel) := by
  unfold Access.permit_channels
  rw [hName]
  exact ⟨_, rfl⟩

theorem permit_pubsub (access : Access) {word sub : String} {asked : List String}
    (hName : Name.of_ (word :: sub :: asked) = "PUBSUB") :
    access.permit_channels (word :: sub :: asked) =
      (if Exec.is sub "NUMSUB" then asked.find? fun c => !access.scope.can_use_channel c else none).elim (.ok ()) fun c =>
        .error (access.scope.denied_channel c) := by
  unfold Access.permit_channels
  split
  · next hOther _ =>
    rw [hName] at hOther
    exact absurd hOther (by decide)
  · next hList =>
    cases hList
    cases (if Exec.is sub "NUMSUB" then asked.find? fun c => !access.scope.can_use_channel c else none) <;> rfl
  · next hNot => exact absurd rfl (hNot word sub asked hName)

omit [LinearOrder Ip] in
/-- An administrator may do what any agent may. -/
theorem permit_admin {name : String} {argv : List String}
    (h : (Server.access platform cfg (.Agent name)).permit argv = .ok ()) :
    (Server.access platform cfg .Admin).permit argv = .ok () := by
  have hKeys : (Server.access platform cfg .Admin).scope.all_keys = true := rfl
  have hUses : ∀ channel, (Server.access platform cfg .Admin).scope.can_use_channel channel = true := fun _ => rfl
  generalize Server.access platform cfg .Admin = admin at hKeys hUses ⊢
  generalize Server.access platform cfg (.Agent name) = agent at h
  -- `permit` looks at channels first, then at keys
  have hChannels : agent.permit_channels argv = .ok () := by
    unfold Access.permit at h
    cases hResult : agent.permit_channels argv with
    | ok _ => rfl
    | error e =>
      rw [hResult] at h
      cases h
  -- the words that name channels: PUBLISH, and PUBSUB NUMSUB
  have hAdmin : admin.permit_channels argv = .ok () := by
    rcases argv with _ | ⟨word, _ | ⟨second, rest⟩⟩
    · unfold Access.permit_channels
      split
      · next hList => cases hList
      · next hList => cases hList
      · rfl
    · unfold Access.permit_channels
      split
      · next hList => cases hList
      · next hList => cases hList
      · rfl
    · by_cases hPublish : Name.of_ (word :: second :: rest) = "PUBLISH"
      · obtain ⟨why, hAgent⟩ := permit_publish agent hPublish
        obtain ⟨why', hSame⟩ := permit_publish admin hPublish
        rw [hAgent] at hChannels
        split at hChannels
        · cases hChannels
        · next hPlain => rw [hSame, if_neg hPlain, hUses, if_pos rfl]
      · by_cases hSub : Name.of_ (word :: second :: rest) = "PUBSUB"
        · have hNone : (if Exec.is second "NUMSUB" then rest.find? fun c => !admin.scope.can_use_channel c else none) =
              none := by
            split
            · refine List.find?_eq_none.mpr fun c _ => ?_
              rw [hUses]
              decide
            · rfl
          rw [permit_pubsub admin hSub, hNone]
          rfl
        · unfold Access.permit_channels
          split
          · next hName _ => exact absurd hName hPublish
          · next hName _ => exact absurd hName hSub
          · rfl
  unfold Access.permit
  rw [hAdmin]
  dsimp only [bind, Except.bind]
  -- an admin reaches every key, so keys are not looked at
  rw [if_pos hKeys]
  rfl

/-- **A request reaches no more than its token.** It acts as the owner of the token it
presents, or as an agent that an administrator narrowed to, never under the operator's
name; where it names an agent it acts as that one; and what it is let do, the owner is. -/
theorem principal_narrows (hCheck : cfg.auth.check = .ok ()) (hOn : cfg.auth.enabled = true) {lockout : Lockout Ip} {now : Nat}
    {req : Http.Request} {peer : Option Ip} {p : Principal}
    (h : (Server.principal platform cfg lockout now req peer).1 = .ok p) :
    ∃ token owner, Server.presented req = some token ∧ (token, owner) ∈ cfg.auth.owners ∧
      (p = owner ∨ owner = .Admin ∧ ∃ name, p = .Agent name ∧ valid_name name = true ∧ reserved name = false) ∧
      (∀ name, req.header "x-postino-agent" = some name → p = .Agent name) ∧
      ((Server.access platform cfg p).admin = true → owner = .Admin) ∧
      ∀ argv, (Server.access platform cfg p).permit argv = .ok () → (Server.access platform cfg owner).permit argv = .ok () := by
  unfold Server.principal at h
  dsimp only at h
  split at h
  · cases h
  · split at h
    · cases h
    · next owner hOwner =>
      unfold Server.principal_for at hOwner
      rw [hOn, Bool.not_true, if_neg Bool.false_ne_true] at hOwner
      obtain ⟨token, hToken, hFound⟩ := Option.bind_eq_some_iff.mp hOwner
      -- found by comparing bytes, and two texts of the same bytes are one text
      obtain ⟨held, hBytes, hHeld⟩ := (tokens_exact _ hCheck _ _).mp hFound
      obtain rfl := Http.bytes_injective hBytes
      obtain ⟨hWho, hNamed⟩ := narrow_ok h
      refine ⟨held, owner, hToken, hHeld, hWho, hNamed, fun hAdmin => ?_, fun argv hPermit => ?_⟩
      · -- only an admin may be admin: an agent's access is never one
        rcases hWho with rfl | ⟨rfl, -⟩
        · cases p with
          | Admin => rfl
          | Agent name => cases hAdmin
        · rfl
      · rcases hWho with rfl | ⟨rfl, name, rfl, -⟩
        · exact hPermit
        · exact permit_admin hPermit

end

/-- The operator's token, narrowed to an agent. -/
theorem principal_narrows_agent :
    let platform : Platform Nat := ⟨fun _ => 0, fun _ => none, fun _ => false⟩
    let cfg : ApiConfig := { auth := { api_token := some "0123456789abcdef" } }
    let req : Http.Request :=
      { method := "GET", path := "/api/inbox", query := [], body := [], http10 := false, segments := ["api", "inbox"]
        headers := [("authorization", "Bearer 0123456789abcdef"), ("x-postino-agent", "ann")] }
    ∃ token owner, Server.presented req = some token ∧ (token, owner) ∈ cfg.auth.owners ∧
      ∀ argv, (Server.access platform cfg (.Agent "ann")).permit argv = .ok () →
        (Server.access platform cfg owner).permit argv = .ok () := by
  intro platform cfg req
  have hPrincipal : (Server.principal platform cfg ∅ 0 req (some 7)).1 = .ok (.Agent "ann") := by rfl
  obtain ⟨token, owner, hPresented, hOwner, -, -, -, hPermit⟩ :=
    principal_narrows (by decide +kernel) (by decide) hPrincipal
  exact ⟨token, owner, hPresented, hOwner, hPermit⟩

/-! ## Pages of other sites -/

namespace Server

/-- Whether the server answers to a name: a loopback one, or one that is allowed. -/
def serves (platform : Platform Ip) (cfg : ApiConfig) (name : String) : Bool :=
  cfg.allowed_hosts.any (fun allowed => eq_ignore_ascii_case allowed name) || is_loopback platform name

end Server

/-- `host_name`, over characters. -/
def host_chars (host : List Char) : List Char :=
  if host.head? = some '[' then (host.takeWhile (· ≠ ']')).dropWhile (· = '[')
  else
    match host.reverse.dropWhile (· ≠ ':') with
    | [] => host
    | _ :: name => if (host.reverse.takeWhile (· ≠ ':')).all Char.isDigit then name.reverse else host

theorem split_head (c : Char) (s : String) : (split c s).headD "" = String.ofList (s.toList.takeWhile (· ≠ c)) := by
  unfold split
  by_cases hIn : c ∈ s.toList
  · obtain ⟨before, after, hSplit, hNot⟩ := List.eq_append_cons_of_mem hIn
    have hBefore : ∀ x ∈ before, decide (x ≠ c) = true := fun x hx => decide_eq_true fun h => hNot (h ▸ hx)
    rw [hSplit, List.splitOn_append_cons_self_of_not_mem hNot, List.takeWhile_append_of_pos hBefore]
    simp
  · have hAll : ∀ x ∈ s.toList, decide (x ≠ c) = true := fun x hx => decide_eq_true fun h => hIn (h ▸ hx)
    rw [List.splitOn_eq_singleton hIn, List.takeWhile_eq_self_iff.mpr hAll]
    rfl

theorem host_name_toList (host : String) : (host_name host).toList = host_chars host.toList := by
  unfold host_name host_chars
  have hBracket : host.startsWith "[" = true ↔ host.toList.head? = some '[' := by
    rw [String.startsWith_string_iff, List.head?_eq_some_iff]
    exact exists_congr fun rest => eq_comm
  by_cases hStarts : host.startsWith "[" = true
  · rw [if_pos hStarts, if_pos (hBracket.mp hStarts), split_head, String.toList_ofList, String.toList_ofList]
  · rw [if_neg hStarts, if_neg fun h => hStarts (hBracket.mpr h)]
    cases host.toList.reverse.dropWhile (· ≠ ':') with
    | nil => rfl
    | cons colon name =>
      dsimp only
      split
      · exact String.toList_ofList
      · rfl

/-- The marks a name is cut at are not letters. -/
theorem host_chars_lower (host : List Char) : host_chars (host.map Char.toLower) = (host_chars host).map Char.toLower := by
  -- a bracket is no letter, so an IPv6 address in brackets stays one
  have hHead : (host.map Char.toLower).head? = some '[' ↔ host.head? = some '[' := by
    cases host with
    | nil => rfl
    | cons c host =>
      have hC := congrFun (@eq_lower '[' rfl) c
      simpa using hC
  unfold host_chars
  rw [← List.map_reverse, List.takeWhile_map, List.dropWhile_map, List.dropWhile_map, List.takeWhile_map,
    ne_lower rfl, ne_lower rfl, eq_lower rfl]
  by_cases hBracket : host.head? = some '['
  · rw [if_pos hBracket, if_pos (hHead.mpr hBracket)]
  · rw [if_neg hBracket, if_neg fun h => hBracket (hHead.mp h)]
    cases host.reverse.dropWhile (· ≠ ':') with
    | nil => rfl
    | cons colon name =>
      rw [List.map_cons]
      dsimp only
      rw [List.all_map, isDigit_lower]
      split
      · rw [List.map_reverse]
      · rfl

theorem host_name_congr {a b : String} (h : eq_ignore_ascii_case a b = true) :
    eq_ignore_ascii_case (host_name a) (host_name b) = true := by
  rw [eq_ignore_ascii_case_iff, host_name_toList, host_name_toList, ← host_chars_lower, ← host_chars_lower,
    eq_ignore_ascii_case_iff.mp h]

section

variable {platform : Platform Ip} {cfg : ApiConfig}

omit [LinearOrder Ip] in
theorem is_loopback_congr
    (hParse : ∀ a b, eq_ignore_ascii_case a b = true → platform.parse_ip a = platform.parse_ip b) {a b : String}
    (h : eq_ignore_ascii_case a b = true) : is_loopback platform a = is_loopback platform b := by
  have hTrimmed : ∀ host : String,
      (((host.toList.dropWhile (· = '[')).reverse.dropWhile (· = ']')).reverse).map Char.toLower =
        ((((host.toList.map Char.toLower).dropWhile (· = '[')).reverse.dropWhile (· = ']')).reverse) := by
    intro host
    rw [List.dropWhile_map, eq_lower rfl, ← List.map_reverse, List.dropWhile_map, eq_lower rfl, List.map_reverse]
  have hSame : eq_ignore_ascii_case
      (String.ofList ((a.toList.dropWhile (· = '[')).reverse.dropWhile (· = ']')).reverse)
      (String.ofList ((b.toList.dropWhile (· = '[')).reverse.dropWhile (· = ']')).reverse) = true := by
    rw [eq_ignore_ascii_case_iff, String.toList_ofList, String.toList_ofList, hTrimmed, hTrimmed,
      eq_ignore_ascii_case_iff.mp h]
  unfold is_loopback
  dsimp only
  rw [(eq_ignore_ascii_case_congr hSame _).1, hParse _ _ hSame]

omit [LinearOrder Ip] in
theorem serves_congr (hParse : ∀ a b, eq_ignore_ascii_case a b = true → platform.parse_ip a = platform.parse_ip b)
    {a b : String} (h : eq_ignore_ascii_case a b = true) :
    Server.serves platform cfg a = Server.serves platform cfg b := by
  unfold Server.serves
  rw [is_loopback_congr hParse h]
  congr 2
  funext allowed
  exact (eq_ignore_ascii_case_congr h allowed).2

omit [LinearOrder Ip] in
theorem host_allowed_eq (hHosts : cfg.auth.enabled = false ∨ cfg.allowed_hosts ≠ []) (req : Http.Request) :
    Server.host_allowed platform cfg req =
      match req.header "host" with
      | none => req.http10
      | some host => Server.serves platform cfg (host_name host) := by
  have hChecked : ¬ (cfg.auth.enabled && cfg.allowed_hosts.isEmpty) = true := by
    rw [Bool.and_eq_true, List.isEmpty_iff]
    rintro ⟨hOn, hNone⟩
    rcases hHosts with hOff | hSome
    · rw [hOff] at hOn
      cases hOn
    · exact hSome hNone
  unfold Server.host_allowed Server.serves
  rw [if_neg hChecked]
  cases req.header "host" with
  | none => rfl
  | some host =>
    dsimp only
    cases cfg.allowed_hosts with
    | nil => rw [List.isEmpty_nil, if_pos rfl, List.any_nil, Bool.false_or]
    | cons allowed more => rw [List.isEmpty_cons, if_neg Bool.false_ne_true]

/-- **A page of another site changes nothing**, whatever tokens it has. Where the names of hosts
are checked, nothing is answered under a name that is not served, whoever it points to; and a
change asked for from a page is refused when the page is not of a name that is served, whatever
host it was sent to. A page of the server's own, or of the origin that is configured, is let
through to its token. -/
theorem cross_site_refused (hHosts : cfg.auth.enabled = false ∨ cfg.allowed_hosts ≠ [])
    (hParse : ∀ a b, eq_ignore_ascii_case a b = true → platform.parse_ip a = platform.parse_ip b)
    (lockout : Lockout Ip) (now : Nat) (req : Http.Request) (peer : Option Ip) :
    (∀ host, req.header "host" = some host → Server.serves platform cfg (host_name host) = false →
      ∃ response, Server.admit_ platform cfg lockout now req peer = (.error response, lockout) ∧
        response.status = 403) ∧
    (∀ origin, req.header "origin" = some origin → cfg.cors_origin ≠ some origin →
      (∀ authority, origin_authority origin = some authority →
        Server.serves platform cfg (host_name authority) = false) →
      req.method ∈ ["POST", "PUT", "PATCH", "DELETE"] →
      ∃ response, Server.admit_ platform cfg lockout now req peer = (.error response, lockout) ∧
        response.status ∈ [403, 404]) ∧
    (∀ host, req.header "host" = some host → Server.serves platform cfg (host_name host) = true →
      (∀ origin, req.header "origin" = some origin → cfg.cors_origin = some origin ∨
        ∃ authority, origin_authority origin = some authority ∧ eq_ignore_ascii_case authority host = true) →
      req.segments.head? = some "api" → req.method ≠ "OPTIONS" →
      ¬ (req.method = "GET" ∧ req.segments.tail = ["health"]) →
      Server.admit_ platform cfg lockout now req peer =
        ((Server.principal platform cfg lockout now req peer).1.map .Principal,
          (Server.principal platform cfg lockout now req peer).2)) := by
  have hAllowed := @host_allowed_eq Ip platform cfg hHosts req
  refine ⟨fun host hHost hForeign => ?_, fun origin hOrigin hCors hForeign hMethod => ?_,
    fun host hHost hServed hOwn hPath hMethod hHealth => ?_⟩
  · rw [hHost] at hAllowed
    dsimp only at hAllowed
    unfold Server.admit_
    rw [hAllowed, hForeign]
    exact ⟨_, rfl, rfl⟩
  · -- where the request was sent to a name that is served, the page is not of that name
    have hCross : Server.host_allowed platform cfg req = true → Server.same_origin cfg req = false := by
      intro hHostOk
      unfold Server.same_origin
      rw [hOrigin]
      dsimp only
      rw [if_neg hCors]
      cases hAuthority : origin_authority origin with
      | none => rfl
      | some authority =>
        cases hHost : req.header "host" with
        | none => rfl
        | some host =>
          dsimp only
          by_contra hSame
          rw [Bool.not_eq_false] at hSame
          rw [hHost] at hAllowed
          have hServed := @serves_congr Ip platform cfg hParse _ _ (host_name_congr hSame)
          rw [hForeign authority hAuthority, ← show _ = Server.serves platform cfg (host_name host) from hAllowed,
            hHostOk] at hServed
          cases hServed
    -- a preflight is let through, but it is not one of the methods that write
    have hNotOptions : req.method ≠ "OPTIONS" := by
      intro hOptions
      rw [hOptions] at hMethod
      revert hMethod
      decide
    unfold Server.admit_
    by_cases hHostOk : Server.host_allowed platform cfg req = true
    · -- the path is looked at before the origin, hence a 404 outside the API
      rw [hHostOk, hCross hHostOk, Bool.not_true, if_neg Bool.false_ne_true, if_neg hNotOptions]
      split
      · exact ⟨_, rfl, by decide⟩
      · rw [if_pos ⟨hMethod, rfl⟩]
        exact ⟨_, rfl, by decide⟩
    · rw [Bool.not_eq_true] at hHostOk
      rw [hHostOk]
      exact ⟨_, rfl, by decide⟩
  · rw [hHost] at hAllowed
    have hHostOk : Server.host_allowed platform cfg req = true := hAllowed.trans hServed
    have hSame : Server.same_origin cfg req = true := by
      unfold Server.same_origin
      rw [hHost]
      cases hOrigin : req.header "origin" with
      | none => rfl
      | some origin =>
        dsimp only
        rcases hOwn origin hOrigin with hCors | ⟨authority, hAuthority, hEq⟩
        · rw [if_pos hCors]
        · rw [hAuthority]
          dsimp only
          rw [hEq, ite_self]
    unfold Server.admit_
    rw [hHostOk, hSame, Bool.not_true, if_neg Bool.false_ne_true, if_neg (not_not.mpr hPath), if_neg hMethod,
      if_neg (fun h => Bool.false_ne_true h.2), if_neg hHealth]

end

/-- An open server on this machine: a page of another site posts to it, reads it under a name of
its own, and the server's own page posts to it. -/
theorem cross_site_refused_page :
    let platform : Platform Nat :=
      ⟨fun _ => 0, fun s => if eq_ignore_ascii_case s "::1" then some 1 else none, fun ip => ip = 1⟩
    let req (method : String) (headers : List (String × String)) : Http.Request :=
      { method, path := "/api/messages", query := [], body := [], http10 := false, segments := ["api", "messages"], headers }
    (∃ response, Server.admit_ platform {} ∅ 0
        (req "POST" [("host", "localhost:7717"), ("origin", "https://news.example")]) none = (.error response, ∅) ∧
      response.status ∈ [403, 404]) ∧
    (∃ response, Server.admit_ platform {} ∅ 0 (req "GET" [("host", "news.example")]) none = (.error response, ∅) ∧
      response.status = 403) ∧
    (Server.admit_ platform {} ∅ 0
      (req "POST" [("host", "[::1]:7717"), ("origin", "http://[::1]:7717")]) none).1.toOption =
      some (.Principal .Admin) := by
  intro platform req
  have hParse : ∀ a b, eq_ignore_ascii_case a b = true → platform.parse_ip a = platform.parse_ip b := by
    intro a b hSame
    show (if _ then _ else _) = if _ then _ else _
    rw [(eq_ignore_ascii_case_congr hSame "::1").1]
  refine ⟨?_, ?_, ?_⟩
  · refine (cross_site_refused (.inl rfl) hParse _ _ _ _).2.1 "https://news.example" rfl (by decide) ?_ (by decide)
    intro authority hAuthority
    obtain rfl : "news.example" = authority := Option.some.inj (hAuthority ▸ by decide +kernel)
    decide +kernel
  · exact (cross_site_refused (.inl rfl) hParse _ _ _ _).1 "news.example" rfl (by decide +kernel)
  · rw [(cross_site_refused (.inl rfl) hParse _ _ _ _).2.2 "[::1]:7717" rfl (by decide +kernel)
      (fun origin hOrigin => ?_) rfl (by decide) (by decide)]
    · rfl
    · obtain rfl : "http://[::1]:7717" = origin := Option.some.inj hOrigin
      exact .inr ⟨"[::1]:7717", by decide +kernel, by decide +kernel⟩

end Postino.Api
