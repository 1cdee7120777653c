import Embassies.Hub.Migration
import Embassies.Lib.Dotted
import Embassies.Lib.MsgPack

/-! Jobs on their way from a resolver through the hub to a worker, and the replies back.

    `run_picoprocess` asks the database for a worker, which always raises. What follows is stated for any query in its
    place: one frame is sent, the worker's address, a bar and the packed arguments; the hub splits it at the bar and
    routes it to the worker (`hub-heart.py`), whose `poll_hub` unpacks the arguments and replies. A ROUTER socket puts the
    peer's identity before what it receives and takes it off what it sends; `recv` of the resolver's DEALER socket returns
    one frame, not one message.

    The reply reaches the resolver as two frames, the first of them empty. A call reads one: the first call reads the empty
    frame, whatever the worker returned, and the second reads what is left of the first reply. -/

namespace Embassies.Hub

open MsgPack List

/-- A frame of a multipart message. -/
abbrev Frame := Bytes

/-! ### Messages -/

/-- `MessageType`. -/
inductive MessageType where
  | picoRelease | picoKill | updateStatus | hello | heartbeat | reply | picoExec | dead
  deriving DecidableEq

/-- The byte of a message type: `R`, `K`, `S`, `H`, `B`, `Y`, `E`, `D`. -/
def MessageType.byte : MessageType → UInt8
  | .picoRelease => 82
  | .picoKill => 75
  | .updateStatus => 83
  | .hello => 72
  | .heartbeat => 66
  | .reply => 89
  | .picoExec => 69
  | .dead => 68

/-- The separator `|`. -/
def bar : UInt8 := 124

/-- `"/jobs"`. -/
def jobs : Bytes := [47, 106, 111, 98, 115]

/-- The arguments of a job. -/
structure JobArgs where
  picoId : ℤ
  publicPort : ℤ
  internalIp : Bytes
  ports : Bytes
  flags : Bool
  deriving DecidableEq

def JobArgs.tuple (args : JobArgs) : List Scalar :=
  [.int args.picoId, .int args.publicPort, .str args.internalIp, .str args.ports, .bool args.flags]

/-- `pico_id, public_port, internal_ip, ports, flags = args`. -/
def JobArgs.ofTuple : List Scalar → Option JobArgs
  | [.int picoId, .int publicPort, .str internalIp, .str ports, .bool flags] =>
    some ⟨picoId, publicPort, internalIp, ports, flags⟩
  | _ => none

/-- What `run_picoprocess` sends. -/
def requestMessage (heartIp : Bytes) (args : JobArgs) : Option Frame := do
  let msg ← packb args.tuple
  return heartIp ++ bar :: msg

/-! ### The hub -/

/-- A message from a resolver, as the frontend receives it; the frames that the backend sends. Nothing if the message does
    not unpack, which ends the hub's loop. -/
def onFrontend : List Frame → Option (List Frame)
  | [resolver, msg] =>
    match msg.splitOn bar with
    | [worker, request] => some [worker ++ jobs, [], resolver, [], MessageType.picoExec.byte :: request]
    | _ => none
  | _ => none

/-- What the hub does with a message from a worker. -/
inductive HubAction where
  /-- the worker is heard of, and the frontend is polled from now on -/
  | hello (workerIp msg : Bytes)
  | heartbeat (workerIp : Bytes)
  | dispatch (msg : Bytes)
  | forward (frames : List Frame)
  | unknown (mtype : UInt8)

/-- The address of a worker, from the identity of one of its sockets. -/
def workerIp (worker : Frame) : Bytes := worker.takeWhile (· ≠ 47)

/-- A message from a worker, as the backend receives it. -/
def onBackend : List Frame → Option HubAction
  | worker :: (mtype :: body) :: rest =>
    if mtype = MessageType.hello.byte then some (.hello (workerIp worker) (mtype :: body))
    else if mtype = MessageType.heartbeat.byte then some (.heartbeat (workerIp worker))
    else if mtype = MessageType.picoRelease.byte ∨ mtype = MessageType.picoKill.byte then some (.dispatch (mtype :: body))
    else if mtype = MessageType.updateStatus.byte then some (.dispatch (mtype :: body ++ workerIp worker))
    else if mtype = MessageType.reply.byte then rest.head?.map fun dest => .forward [dest, [], body]
    else some (.unknown mtype)
  | _ => none

/-! ### The worker -/

def bytesOf (s : String) : Bytes := s.toList.map fun c => UInt8.ofNat c.toNat

/-- `str` of a number. -/
def decimal (n : ℤ) : Bytes := bytesOf (toString n)

/-- `"None"`. -/
def noneText : Bytes := [78, 111, 110, 101]

/-- What `poll_hub` calls. -/
inductive WorkerCall where
  | picoExec (picoId : ℤ) (internalIp portmap : Bytes) (flags : Bool)
  | picoRelease (args : List Scalar)
  | picoKill (args : List Scalar)
  deriving DecidableEq

/-- `"{0}:{1}.{2}={3}:{4}".format(eth0addr, public_port, "TCP", internal_ip, ports.split(';')[0])`. -/
def portmap (eth0addr : Bytes) (args : JobArgs) : Bytes :=
  eth0addr ++ 58 :: (decimal args.publicPort ++ [46, 84, 67, 80, 61] ++ args.internalIp ++
    58 :: args.ports.takeWhile (· ≠ 59))

/-- The arguments of a request, and the call that it asks for. -/
def parseRequest (eth0addr : Bytes) : Frame → Option (List Scalar × WorkerCall)
  | [] => none
  | mtype :: packed => do
    let tuple ← unpackb packed
    if mtype = MessageType.picoExec.byte then
      let args ← JobArgs.ofTuple tuple
      return (tuple, .picoExec args.picoId args.internalIp (portmap eth0addr args) args.flags)
    else if mtype = MessageType.picoRelease.byte then return (tuple, .picoRelease tuple)
    else if mtype = MessageType.picoKill.byte then return (tuple, .picoKill tuple)
    else none

/-- What a worker has done: the identity of its socket for jobs, the arguments it got, and the call it made. -/
structure Executed where
  worker : Frame
  tuple : List Scalar
  call : WorkerCall
  deriving DecidableEq

/-- `poll_hub` of the worker with that socket: what it does and the frames that it sends. The call returns a number, or
    `None`, or it raises and nothing is sent. -/
def pollHub (eth0addr : Bytes) (outcome : WorkerCall → Option (Option ℤ)) (worker : Frame) :
    List Frame → Option (Executed × List Frame)
  | [_, address, _, request] => do
    let (tuple, call) ← parseRequest eth0addr request
    let ret ← outcome call
    return (⟨worker, tuple, call⟩, [MessageType.reply.byte :: (ret.map decimal).getD noneText, address])
  | _ => none

/-! ### Calls of a resolver -/

/-- A query for a worker, such as `find_available_worker`. -/
abbrev Query := Database → List Char → Except Raised (String × String × ℕ)

/-- One call of `run_picoprocess`, with the database it finds, and what the worker's `pico_exec` does. -/
structure Call where
  db : Database
  args : JobArgs
  /-- what `pico_exec` returns; nothing if it raises -/
  returned : Option ℤ

/-- The address of the worker that the query chooses; nothing if it raises. -/
def Call.heartIp (find : Query) (call : Call) : Option Bytes :=
  match find call.db (call.args.ports.map fun b => Char.ofNat b.toNat) with
  | .ok (_, heartIp, _) => some (bytesOf heartIp)
  | .error _ => none

/-- What became of a call. -/
structure Result where
  executed : Option Executed
  /-- the frame that is read, with the number of the request it answers; nothing if the call does not return -/
  read : Option (ℕ × Frame)
  /-- the pico is recorded as hot -/
  recorded : Bool

/-- The state of a resolver's socket and of the hub. -/
structure Wire where
  /-- the frames that have arrived, each with the number of the request it answers -/
  inbox : List (ℕ × Frame)
  /-- the hub's loop is running -/
  hub : Bool

/-- The rest of `run_picoprocess`, from `recv` on. -/
def receive (executed : Option Executed) (hub : Bool) : List (ℕ × Frame) → Result × Wire
  | [] => (⟨executed, none, false⟩, ⟨[], hub⟩)
  -- if ret: worker failed to start picoprocess
  | frame :: inbox => (⟨executed, some frame, frame.2.isEmpty⟩, ⟨inbox, hub⟩)

section Wire

variable (find : Query) (resolver : Frame) (eth0addr : Bytes)

/-- The frames that reach the resolver for what a worker sends. -/
def replyFrames (worker : Frame) (reply : List Frame) : List Frame :=
  match onBackend (worker :: reply) with
  | some (.forward (dest :: frames)) => if dest = resolver then frames else []
  | _ => []

/-- A request on its way: what a worker does, the frames that come back, and whether the hub is still running. -/
def transport (returned : Option ℤ) (msg : Frame) : Option Executed × List Frame × Bool :=
  match onFrontend [resolver, msg] with
  | some (worker :: frames) =>
    match pollHub eth0addr (fun _ => returned.map some) worker frames with
    | some (executed, reply) => (some executed, replyFrames resolver worker reply, true)
    | none => (none, [], true)
  | _ => (none, [], false)

/-- `run_picoprocess`, the `k`-th call. It raises if the query does, or if the arguments cannot be packed. -/
def runCall (k : ℕ) (wire : Wire) (call : Call) : Result × Wire :=
  match (call.heartIp find).bind fun heartIp => requestMessage heartIp call.args with
  | none => (⟨none, none, false⟩, wire)
  | some msg =>
    let (executed, frames, hub) := if wire.hub then transport resolver eth0addr call.returned msg else (none, [], false)
    receive executed hub (wire.inbox ++ frames.map fun frame => (k, frame))

/-- Calls one after the other. A call that does not return is the last. -/
def runCalls : ℕ → Wire → List Call → List Result
  | _, _, [] => []
  | k, wire, call :: calls =>
    let (result, wire) := runCall find resolver eth0addr k wire call
    if result.read.isNone then [result] else result :: runCalls (k + 1) wire calls

end Wire

/-! ### What is to hold -/

/-- What the chosen worker is to do, with exactly the arguments that were sent. -/
def Call.expected (eth0addr heartIp : Bytes) (call : Call) : Executed :=
  ⟨heartIp ++ jobs, call.args.tuple,
    .picoExec call.args.picoId call.args.internalIp (portmap eth0addr call.args) call.args.flags⟩

/-- The call reaches the chosen worker with its arguments, reads its own reply, and the pico is recorded as hot exactly if
    the worker returned success. -/
structure Served (find : Query) (eth0addr : Bytes) (k : ℕ) (call : Call) (result : Result) : Prop where
  executed : ∃ heartIp, call.heartIp find = some heartIp ∧ result.executed = some (call.expected eth0addr heartIp)
  read : ∃ frame, result.read = some (k, frame)
  recorded : result.recorded = true ↔ call.returned = some 0

def AllServed (find : Query) (eth0addr : Bytes) : ℕ → List Call → List Result → Prop
  | _, [], [] => True
  | k, call :: calls, result :: results => Served find eth0addr k call result ∧ AllServed find eth0addr (k + 1) calls results
  | _, _, _ => False

/-- A worker is found, the request has one bar, and the worker returns success. -/
structure Clean (find : Query) (call : Call) : Prop where
  heartIp : ∃ heartIp, call.heartIp find = some heartIp ∧ bar ∉ heartIp
  packed : ∃ msg, packb call.args.tuple = some msg ∧ bar ∉ msg
  returned : call.returned = some 0

/-! ### One request -/

variable {find : Query} {resolver : Frame} {eth0addr : Bytes} {call : Call} {msg : Frame} {heartIp : Bytes}
  {args : JobArgs} {calls : List Call}

/-- FRONTEND: a request with one bar is split where it was joined. -/
lemma onFrontend_request (hip : bar ∉ heartIp) (hmsg : bar ∉ msg) : onFrontend [resolver, heartIp ++ bar :: msg] =
    some [heartIp ++ jobs, [], resolver, [], MessageType.picoExec.byte :: msg] := by
  have hsplit : (heartIp ++ bar :: msg).splitOn bar = [heartIp, msg] := by
    rw [splitOn_append_cons_self, splitOn_eq_singleton hip, splitOn_eq_singleton hmsg]
    rfl
  rw [onFrontend, hsplit]

/-- FRONTEND: a request with another bar ends the loop. -/
lemma onFrontend_of_bar (h : bar ∈ heartIp ∨ bar ∈ msg) : onFrontend [resolver, heartIp ++ bar :: msg] = none := by
  have hlen : 2 < ((heartIp ++ bar :: msg).splitOn bar).length := by
    rw [length_splitOn, count_append, count_cons_self]
    rcases h with h | h
    · have hpos := count_pos_iff.mpr h
      omega
    · have hpos := count_pos_iff.mpr h
      omega
  rw [onFrontend]
  split
  next worker request hsplit =>
    rw [hsplit] at hlen
    exact absurd hlen (lt_irrefl 2)
  next => rfl

/-- WORKER: the arguments arrive as they were packed. -/
lemma parseRequest_request (h : packb args.tuple = some msg) :
    parseRequest eth0addr (MessageType.picoExec.byte :: msg) = some (args.tuple,
      .picoExec args.picoId args.internalIp (portmap eth0addr args) args.flags) := by
  rw [parseRequest, unpackb_packb h]
  rfl

/-- TRANSPORT: a request with one bar is executed; if the worker's call returns, two frames come back. -/
lemma transport_request (hip : bar ∉ heartIp) (hpack : packb call.args.tuple = some msg) (hmsg : bar ∉ msg) {n : ℤ}
    (hret : call.returned = some n) : transport resolver eth0addr call.returned (heartIp ++ bar :: msg) =
      (some (call.expected eth0addr heartIp), [[], decimal n], true) := by
  have hpoll : pollHub eth0addr (fun _ => call.returned.map some) (heartIp ++ jobs)
      [[], resolver, [], MessageType.picoExec.byte :: msg] =
        some (call.expected eth0addr heartIp, [MessageType.reply.byte :: decimal n, resolver]) := by
    rw [pollHub, parseRequest_request hpack, hret]
    rfl
  have hreply : replyFrames resolver (heartIp ++ jobs) [MessageType.reply.byte :: decimal n, resolver] =
      [[], decimal n] := by
    rw [replyFrames]
    exact if_pos rfl
  rw [transport, onFrontend_request hip hmsg]
  dsimp only
  rw [hpoll]
  dsimp only
  rw [hreply]

/-- TRANSPORT: a request with another bar is lost, and so is the hub. -/
lemma transport_of_bar {returned : Option ℤ} (h : bar ∈ heartIp ∨ bar ∈ msg) :
    transport resolver eth0addr returned (heartIp ++ bar :: msg) = (none, [], false) := by
  rw [transport, onFrontend_of_bar h]

/-- TRANSPORT: nothing comes back if the worker's call raises. -/
lemma transport_of_raised (hip : bar ∉ heartIp) (hmsg : bar ∉ msg) :
    transport resolver eth0addr none (heartIp ++ bar :: msg) = (none, [], true) := by
  have hpoll : pollHub eth0addr (fun _ => Option.map some (none : Option ℤ)) (heartIp ++ jobs)
      [[], resolver, [], MessageType.picoExec.byte :: msg] = none := by
    rw [pollHub]
    cases parseRequest eth0addr (MessageType.picoExec.byte :: msg) with
    | none => rfl
    | some parsed => rfl
  rw [transport, onFrontend_request hip hmsg]
  dsimp only
  rw [hpoll]

/-! ### Sequences of calls -/

lemma requestMessage_eq_some (h : requestMessage heartIp args = some msg) :
    ∃ packed, packb args.tuple = some packed ∧ msg = heartIp ++ bar :: packed := by
  obtain ⟨packed, hpack, h⟩ := Option.bind_eq_some_iff.mp h
  exact ⟨packed, hpack, (Option.some.inj h).symm⟩

/-- FIRST CALL: if it returns, it reads an empty frame, and a second frame is left. -/
lemma runCall_first (resolver : Frame) (eth0addr : Bytes) (hheart : call.heartIp find = some heartIp)
    (hip : bar ∉ heartIp) (hpack : packb call.args.tuple = some msg) (hmsg : bar ∉ msg) {n : ℤ}
    (hret : call.returned = some n) : runCall find resolver eth0addr 0 ⟨[], true⟩ call =
      (⟨some (call.expected eth0addr heartIp), some (0, []), true⟩, ⟨[(0, decimal n)], true⟩) := by
  have hrequest : requestMessage heartIp call.args = some (heartIp ++ bar :: msg) := by
    rw [requestMessage, hpack]
    rfl
  rw [runCall, hheart, Option.bind_some, hrequest]
  dsimp only
  rw [if_pos rfl, transport_request hip hpack hmsg hret]
  rfl

/-- FIRST CALL: it returns only if a worker is found, the request has one bar and the worker's call returns. -/
lemma of_runCall_first {frame : ℕ × Frame}
    (h : (runCall find resolver eth0addr 0 ⟨[], true⟩ call).1.read = some frame) : ∃ heartIp msg,
      call.heartIp find = some heartIp ∧ packb call.args.tuple = some msg ∧ bar ∉ heartIp ∧ bar ∉ msg ∧
        ∃ n, call.returned = some n := by
  unfold runCall at h
  cases hrequest : (call.heartIp find).bind fun heartIp => requestMessage heartIp call.args with
  | none =>
    rw [hrequest] at h
    cases h
  | some request =>
    obtain ⟨heartIp, hheart, hmessage⟩ := Option.bind_eq_some_iff.mp hrequest
    obtain ⟨msg, hpack, rfl⟩ := requestMessage_eq_some hmessage
    rw [hrequest] at h
    dsimp only at h
    rw [if_pos rfl] at h
    by_cases hbar : bar ∈ heartIp ∨ bar ∈ msg
    · rw [transport_of_bar hbar] at h
      cases h
    · obtain ⟨hip, hmsg⟩ := not_or.mp hbar
      cases hret : call.returned with
      | none =>
        rw [hret, transport_of_raised hip hmsg] at h
        cases h
      | some n => exact ⟨heartIp, msg, hheart, hpack, hip, hmsg, n, rfl⟩

/-- LATER CALL: it reads what is left of the reply to an earlier one. -/
lemma runCall_leftover {k j : ℕ} {left : Frame} {inbox : List (ℕ × Frame)} {hub : Bool} (hne : j ≠ k) (frame : Frame) :
    (runCall find resolver eth0addr k ⟨(j, left) :: inbox, hub⟩ call).1.read ≠ some (k, frame) := by
  unfold runCall
  cases (call.heartIp find).bind fun heartIp => requestMessage heartIp call.args with
  | none => rintro ⟨⟩
  | some msg =>
    intro h
    exact hne (congrArg Prod.fst (Option.some.inj h))

lemma served_of_allServed {k : ℕ} {wire : Wire}
    (h : AllServed find eth0addr k (call :: calls) (runCalls find resolver eth0addr k wire (call :: calls))) :
    Served find eth0addr k call (runCall find resolver eth0addr k wire call).1 ∧ AllServed find eth0addr (k + 1) calls
      (runCalls find resolver eth0addr (k + 1) (runCall find resolver eth0addr k wire call).2 calls) := by
  rw [runCalls] at h
  dsimp only at h
  split_ifs at h with hnone
  · obtain ⟨frame, hread⟩ := h.1.read
    rw [hread] at hnone
    cases hnone
  · exact h

lemma clean_of_allServed (h : AllServed find eth0addr 0 calls (runCalls find resolver eth0addr 0 ⟨[], true⟩ calls)) :
    calls = [] ∨ ∃ call, calls = [call] ∧ Clean find call := by
  cases calls with
  | nil => exact .inl rfl
  | cons call calls =>
    obtain ⟨hserved, hrest⟩ := served_of_allServed h
    obtain ⟨frame, hread⟩ := hserved.read
    obtain ⟨heartIp, msg, hheart, hpack, hip, hmsg, n, hret⟩ := of_runCall_first hread
    rw [runCall_first _ _ hheart hip hpack hmsg hret] at hserved hrest
    refine .inr ⟨call, ?_, ⟨heartIp, hheart, hip⟩, ⟨msg, hpack, hmsg⟩, hserved.recorded.mp rfl⟩
    cases calls with
    | nil => rfl
    | cons second calls =>
      obtain ⟨hsecond, -⟩ := served_of_allServed hrest
      obtain ⟨frame, hread⟩ := hsecond.read
      exact absurd hread (runCall_leftover Nat.zero_ne_one frame)

lemma allServed_of_clean (hclean : Clean find call) :
    AllServed find eth0addr 0 [call] (runCalls find resolver eth0addr 0 ⟨[], true⟩ [call]) := by
  obtain ⟨heartIp, hheart, hip⟩ := hclean.heartIp
  obtain ⟨msg, hpack, hmsg⟩ := hclean.packed
  rw [runCalls, runCall_first _ _ hheart hip hpack hmsg hclean.returned]
  exact ⟨⟨⟨heartIp, hheart, rfl⟩, ⟨_, rfl⟩, iff_of_true rfl hclean.returned⟩, trivial⟩

/-- QUERY: `find_available_worker` never chooses a worker. -/
lemma not_clean_findAvailableWorker : ¬Clean findAvailableWorker call := by
  rintro ⟨⟨heartIp, hheart, -⟩, -, -⟩
  obtain ⟨e, he⟩ := findAvailableWorker_raises call.db (call.args.ports.map fun b => Char.ofNat b.toNat)
  rw [Call.heartIp, he] at hheart
  cases hheart

/-- DISPATCH: with the query of the source, no sequence of calls is served but the empty one. With any query in its place,
    a sequence is served exactly if it is empty, or is one call with one bar that succeeds. -/
theorem allServed_iff (resolver : Frame) (eth0addr : Bytes) (calls : List Call) :
    (AllServed findAvailableWorker eth0addr 0 calls
      (runCalls findAvailableWorker resolver eth0addr 0 ⟨[], true⟩ calls) ↔ calls = []) ∧
    ∀ find : Query, AllServed find eth0addr 0 calls (runCalls find resolver eth0addr 0 ⟨[], true⟩ calls) ↔
      calls = [] ∨ ∃ call, calls = [call] ∧ Clean find call := by
  have hiff : ∀ find : Query, AllServed find eth0addr 0 calls (runCalls find resolver eth0addr 0 ⟨[], true⟩ calls) ↔
      calls = [] ∨ ∃ call, calls = [call] ∧ Clean find call := by
    refine fun find => ⟨clean_of_allServed, ?_⟩
    rintro (rfl | ⟨call, rfl, hclean⟩)
    · trivial
    · exact allServed_of_clean hclean
  refine ⟨(hiff findAvailableWorker).trans (or_iff_left ?_), hiff⟩
  rintro ⟨call, -, hclean⟩
  exact not_clean_findAvailableWorker hclean

/-- A job for that pico, with one worker in the database that returns success. -/
def job (picoId : ℤ) : Call := ⟨oneWorker, ⟨picoId, 1000, [50], [56], false⟩, some 0⟩

/-- A query that finds the worker. -/
def findOne : Query := fun _ _ => .ok ("10.0.0.1", "10.0.0.1", 1)

/-- One job is not served, for the query raises. If the worker were found, two jobs would not be, and a job for pico 124,
    whose number is a bar when it is packed. -/
theorem not_allServed :
    ¬AllServed findAvailableWorker [] 0 [job 1] (runCalls findAvailableWorker [100] [] 0 ⟨[], true⟩ [job 1]) ∧
    ¬AllServed findOne [] 0 [job 1, job 2] (runCalls findOne [100] [] 0 ⟨[], true⟩ [job 1, job 2]) ∧
    ¬AllServed findOne [] 0 [job 124] (runCalls findOne [100] [] 0 ⟨[], true⟩ [job 124]) := by
  refine ⟨fun h => ?_, fun h => ?_, fun h => ?_⟩
  · rcases clean_of_allServed h with h | ⟨call, -, hclean⟩
    · cases h
    · exact not_clean_findAvailableWorker hclean
  · rcases clean_of_allServed h with h | ⟨call, h, -⟩
    · cases h
    · cases h
  · rcases clean_of_allServed h with h | ⟨call, h, hclean⟩
    · cases h
    · cases h
      obtain ⟨msg, hpack, hmsg⟩ := hclean.packed
      have hbar : packb (JobArgs.tuple ⟨124, 1000, [50], [56], false⟩) =
          some [149, bar, 205, 3, 232, 161, 50, 161, 56, 194] := by decide
      cases hbar.symm.trans hpack
      exact hmsg (mem_cons_of_mem _ mem_cons_self)

end Embassies.Hub
