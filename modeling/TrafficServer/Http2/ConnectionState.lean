/-
Streams of an HTTP/2 connection (`Http2ConnectionState` in `proxy/http2/Http2ConnectionState.cc`, `Http2Stream`).

`stream_list` has the active streams in the order in which they were created. A stream is known by its address, which is how the
code deletes it, and by its id; ids of clients are odd. `create_stream` refuses ids that are not new and streams beyond the limit that
is announced, `delete_stream` may be called for a stream that is not in the list any more.

`stream_bookkeeping`: in every reachable state there is at most one stream for each id, the two counters are the numbers of streams
of each side, they are at most the limits that the last creation was checked against, and the latest ids are the greatest ids ever
created, so that no id comes back.

Left out: the transaction behind a stream, the priority tree (`DependencyTree`), timeouts, and the frames that are sent, apart from what
they do to the state of a stream.
-/
import Mathlib
import TrafficServer.Lib.Run

namespace TrafficServer.Http2

open TrafficServer.Run

/-! ## Streams -/

inductive Http2StreamState where
  | idle
  | opened
  | reservedLocal
  | reservedRemote
  | halfClosedLocal
  | halfClosedRemote
  | closed
deriving DecidableEq

inductive Http2FrameType where
  | data
  | headers
  | priority
  | rstStream
  | settings
  | pushPromise
  | ping
  | goaway
  | windowUpdate
  | continuation
deriving DecidableEq

structure Http2Stream where
  addr : ℕ
  id : ℕ
  state : Http2StreamState
  clientRwnd : ℤ
  serverRwnd : ℤ
  recvEndStream : Bool
  sendEndStream : Bool
  trailingHeader : Bool
  /-- `content-length` of the request, 0 without one -/
  contentLength : ℕ
  dataLength : ℕ
  headerBlocks : List (BitVec 8)
  requestHeaderLength : ℕ

/-- the state after a frame of this type, and whether the frame was legal -/
def Http2Stream.changeState (s : Http2Stream) (type : Http2FrameType) (endHeaders : Bool) : Http2Stream × Bool :=
  match s.state with
  | .idle =>
    match type with
    | .headers | .continuation =>
      if s.recvEndStream then ({ s with state := .halfClosedRemote }, true)
      else if s.sendEndStream then ({ s with state := .halfClosedLocal }, true)
      else ({ s with state := .opened }, true)
    | .pushPromise => ({ s with state := .reservedLocal }, true)
    | _ => (s, false)
  | .opened =>
    match type with
    | .rstStream => ({ s with state := .closed }, true)
    | .data =>
      if s.recvEndStream then ({ s with state := .halfClosedRemote }, true)
      else if s.sendEndStream then ({ s with state := .halfClosedLocal }, true)
      else (s, true)
    | _ => (s, true)
  | .reservedLocal =>
    match type with
    | .headers | .continuation => (if endHeaders then { s with state := .halfClosedRemote } else s, true)
    | _ => (s, false)
  | .reservedRemote => (s, false)
  | .halfClosedLocal =>
    if type = .rstStream ∨ s.recvEndStream then ({ s with state := .closed }, true) else ({ s with state := .closed }, false)
  | .halfClosedRemote =>
    if type = .rstStream ∨ s.sendEndStream then ({ s with state := .closed }, true)
    else if type = .headers then (s, true)
    else ({ s with state := .closed }, false)
  | .closed => (s, true)

/-! ## Errors -/

inductive Http2ErrorClass where
  | none
  | connection
  | stream
deriving DecidableEq

inductive Http2ErrorCode where
  | noError
  | protocolError
  | flowControlError
  | streamClosed
  | refusedStream
  | compressionError
  | enhanceYourCalm
deriving DecidableEq

structure Http2Error where
  cls : Http2ErrorClass
  code : Http2ErrorCode
  msg : String
deriving DecidableEq

def Http2Error.ok : Http2Error := ⟨.none, .noError, ""⟩

/-! ## The connection -/

inductive Http2SettingsIdentifier where
  | headerTableSize
  | enablePush
  | maxConcurrentStreams
  | initialWindowSize
  | maxFrameSize
  | maxHeaderListSize
deriving DecidableEq

def HTTP2_INITIAL_WINDOW_SIZE : ℕ := 65535

def HTTP2_MAX_WINDOW_SIZE : ℕ := 0x7fffffff

/-- the values before any SETTINGS frame -/
def defaultSettings : Http2SettingsIdentifier → BitVec 32
  | .headerTableSize => 4096
  | .enablePush => 1
  | .maxConcurrentStreams => 0xffffffff
  | .initialWindowSize => 65535
  | .maxFrameSize => 16384
  | .maxHeaderListSize => 0xffffffff

structure Http2ConnectionState where
  streamList : List Http2Stream
  nextStream : ℕ
  latestStreamidIn : ℕ
  latestStreamidOut : ℕ
  clientStreamsInCount : ℕ
  clientStreamsOutCount : ℕ
  clientRwnd : ℤ
  serverRwnd : ℤ
  clientSettings : Http2SettingsIdentifier → BitVec 32
  serverSettings : Http2SettingsIdentifier → BitVec 32
  /-- `Http2::initial_window_size`, the window that a stream starts with on this side -/
  initialWindowSize : BitVec 32
  halfCloseLocal : Bool

def http2IsClientStreamid (id : ℕ) : Bool := id % 2 == 1

namespace Http2ConnectionState

variable (c : Http2ConnectionState)

def isValidStreamid (id : ℕ) : Bool :=
  if http2IsClientStreamid id then id ≤ c.latestStreamidIn else id ≤ c.latestStreamidOut

def findStream (id : ℕ) : Option Http2Stream := c.streamList.find? fun s => s.id == id

/-- the stream at this address is changed -/
def modify (addr : ℕ) (f : Http2Stream → Http2Stream) : Http2ConnectionState :=
  { c with streamList := c.streamList.map fun s => if s.addr = addr then f s else s }

/-- `init` of a stream -/
def newStream (newId : ℕ) : Http2Stream where
  addr := c.nextStream
  id := newId
  state := .idle
  clientRwnd := (c.clientSettings .initialWindowSize).toNat
  serverRwnd := c.initialWindowSize.toNat
  recvEndStream := false
  sendEndStream := false
  trailingHeader := false
  contentLength := 0
  dataLength := 0
  headerBlocks := []
  requestHeaderLength := 0

def enqueueStream (newId : ℕ) : Http2ConnectionState :=
  let c' := { c with streamList := c.streamList ++ [c.newStream newId], nextStream := c.nextStream + 1 }
  if http2IsClientStreamid newId then { c' with latestStreamidIn := newId, clientStreamsInCount := c.clientStreamsInCount + 1 }
  else { c' with latestStreamidOut := newId, clientStreamsOutCount := c.clientStreamsOutCount + 1 }

/-- the checks of `create_stream` -/
def createError (newId : ℕ) : Option Http2Error :=
  if c.halfCloseLocal then
    some ⟨.stream, .refusedStream, "refused to create new stream, because ua_session is in half_close state"⟩
  else if http2IsClientStreamid newId then
    if newId ≤ c.latestStreamidIn then
      some ⟨.connection, .protocolError, "recv headers new client id less than latest stream id"⟩
    else if c.clientStreamsInCount ≥ (c.serverSettings .maxConcurrentStreams).toNat then
      some ⟨.stream, .refusedStream, "recv headers creating inbound stream beyond max_concurrent limit"⟩
    else none
  else
    if newId ≤ c.latestStreamidOut then
      some ⟨.connection, .protocolError, "recv headers new server id less than latest stream id"⟩
    else if c.clientStreamsOutCount ≥ (c.clientSettings .maxConcurrentStreams).toNat then
      some ⟨.stream, .refusedStream, "recv headers creating outbound stream beyond max_concurrent limit"⟩
    else none

/-- the new stream's address, or the error -/
def createStream (newId : ℕ) : Http2ConnectionState × Except Http2Error ℕ :=
  match c.createError newId with
  | some error => (c, .error error)
  | none => (c.enqueueStream newId, .ok c.nextStream)

/-- the stream is closed; if that is not legal the connection is shut down -/
def sendRstStreamFrame (id : ℕ) : Http2ConnectionState :=
  match c.findStream id with
  | none => c
  | some s =>
    let r := s.changeState .rstStream false
    let c := c.modify s.addr fun _ => r.1
    if r.2 then c else { c with halfCloseLocal := true }

/-- the stream at `addr`, if it is in the list -/
def streamAt (addr : ℕ) : Option Http2Stream := c.streamList.find? fun s => s.addr == addr

/-- false if the stream has already been removed -/
def deleteStream (addr : ℕ) : Http2ConnectionState × Bool :=
  match c.streamAt addr with
  | none => (c, false)
  | some s =>
    let c := if s.state = .closed then c else c.sendRstStreamFrame s.id
    let c := { c with streamList := c.streamList.filter fun s => s.addr != addr }
    (if http2IsClientStreamid s.id then { c with clientStreamsInCount := c.clientStreamsInCount - 1 }
      else { c with clientStreamsOutCount := c.clientStreamsOutCount - 1 }, true)

/-- the loop over the list, which is what it was at the start -/
def cleanupStreams : Http2ConnectionState := c.streamList.foldl (fun c s => (c.deleteStream s.addr).1) c

end Http2ConnectionState

/-- a new connection -/
def newConnection (initialWindowSize : BitVec 32) : Http2ConnectionState where
  streamList := []
  nextStream := 0
  latestStreamidIn := 0
  latestStreamidOut := 0
  clientStreamsInCount := 0
  clientStreamsOutCount := 0
  clientRwnd := HTTP2_INITIAL_WINDOW_SIZE
  serverRwnd := initialWindowSize.toNat
  clientSettings := defaultSettings
  serverSettings := defaultSettings
  initialWindowSize := initialWindowSize
  halfCloseLocal := false

/-! ## The list and the counters -/

namespace Streams

inductive Op where
  | create (newId : ℕ)
  | delete (addr : ℕ)
  | cleanup
  /-- the limits change between two calls -/
  | settings (client server : Http2SettingsIdentifier → BitVec 32)

/-- a connection, and the streams it has created with the limits they were checked against -/
structure Run where
  conn : Http2ConnectionState
  created : List (ℕ × ℕ)

/-- the limit that a creation is checked against -/
def limit (c : Http2ConnectionState) (newId : ℕ) : ℕ :=
  if http2IsClientStreamid newId then (c.serverSettings .maxConcurrentStreams).toNat
  else (c.clientSettings .maxConcurrentStreams).toNat

def step (r : Run) : Op → Run
  | .create newId =>
    match r.conn.createStream newId with
    | (c, .ok _) => ⟨c, r.created ++ [(newId, limit r.conn newId)]⟩
    | (c, .error _) => ⟨c, r.created⟩
  | .delete addr => ⟨(r.conn.deleteStream addr).1, r.created⟩
  | .cleanup => ⟨r.conn.cleanupStreams, r.created⟩
  | .settings client server => ⟨{ r.conn with clientSettings := client, serverSettings := server }, r.created⟩

/-- the streams of one side -/
def side (client : Bool) (c : Http2ConnectionState) : List Http2Stream :=
  c.streamList.filter fun s => http2IsClientStreamid s.id == client

/-- the creations of one side -/
def createdBy (client : Bool) (r : Run) : List (ℕ × ℕ) := r.created.filter fun e => http2IsClientStreamid e.1 == client

/-- one side's counter and latest id against its streams and creations -/
structure SideLaw (client : Bool) (count latest : ℕ) (r : Run) : Prop where
  count_eq : count = (side client r.conn).length
  none_yet : createdBy client r = [] → count = 0 ∧ latest = 0
  last : ∀ e, (createdBy client r).getLast? = some e → count ≤ e.2 ∧ latest = e.1
  latest_max : ∀ e ∈ createdBy client r, e.1 ≤ latest

structure Law (r : Run) : Prop where
  unique : (r.conn.streamList.map Http2Stream.id).Nodup
  inSide : SideLaw true r.conn.clientStreamsInCount r.conn.latestStreamidIn r
  outSide : SideLaw false r.conn.clientStreamsOutCount r.conn.latestStreamidOut r
  /-- an id is never reused -/
  never_again : (r.created.map Prod.fst).Nodup

/-! ## What a run keeps -/

def count (client : Bool) (c : Http2ConnectionState) : ℕ := if client then c.clientStreamsInCount else c.clientStreamsOutCount

def latest (client : Bool) (c : Http2ConnectionState) : ℕ := if client then c.latestStreamidIn else c.latestStreamidOut

structure Inv (r : Run) : Prop where
  addrs : (r.conn.streamList.map Http2Stream.addr).Nodup
  addr_lt : ∀ s ∈ r.conn.streamList, s.addr < r.conn.nextStream
  ids : (r.conn.streamList.map Http2Stream.id).Nodup
  id_created : ∀ s ∈ r.conn.streamList, s.id ∈ r.created.map Prod.fst
  never_again : (r.created.map Prod.fst).Nodup
  sides : ∀ b, SideLaw b (count b r.conn) (latest b r.conn) r

theorem Inv.law {r : Run} (h : Inv r) : Law r := ⟨h.ids, h.sides true, h.sides false, h.never_again⟩

/-- an id that was created is at most the latest of its side -/
theorem Inv.id_le {r : Run} (h : Inv r) {id : ℕ} (hid : id ∈ r.created.map Prod.fst) :
    id ≤ latest (http2IsClientStreamid id) r.conn := by
  obtain ⟨e, he, rfl⟩ := List.mem_map.mp hid
  exact (h.sides _).latest_max e (List.mem_filter.mpr ⟨he, by simp⟩)

/-- the same streams, in other states -/
structure SameKeys (c c' : Http2ConnectionState) : Prop where
  addr_eq : c'.streamList.map Http2Stream.addr = c.streamList.map Http2Stream.addr
  id_eq : c'.streamList.map Http2Stream.id = c.streamList.map Http2Stream.id
  next_eq : c'.nextStream = c.nextStream
  count_eq : ∀ b, count b c' = count b c
  latest_eq : ∀ b, latest b c' = latest b c

theorem SameKeys.refl (c : Http2ConnectionState) : SameKeys c c := ⟨rfl, rfl, rfl, fun _ => rfl, fun _ => rfl⟩

theorem side_length (b : Bool) (c : Http2ConnectionState) :
    (side b c).length = ((c.streamList.map Http2Stream.id).filter fun id => http2IsClientStreamid id == b).length := by
  rw [side, List.filter_map, List.length_map]
  rfl

theorem Inv.congr {c c' : Http2ConnectionState} {created : List (ℕ × ℕ)} (h : Inv ⟨c, created⟩) (hs : SameKeys c c') :
    Inv ⟨c', created⟩ where
  addrs := by rw [hs.addr_eq]; exact h.addrs
  addr_lt s hmem := by
    have : s.addr ∈ c.streamList.map Http2Stream.addr := hs.addr_eq ▸ List.mem_map_of_mem hmem
    obtain ⟨s', hs', heq⟩ := List.mem_map.mp this
    rw [hs.next_eq, ← heq]
    exact h.addr_lt s' hs'
  ids := by rw [hs.id_eq]; exact h.ids
  id_created s hmem := by
    have : s.id ∈ c.streamList.map Http2Stream.id := hs.id_eq ▸ List.mem_map_of_mem hmem
    obtain ⟨s', hs', heq⟩ := List.mem_map.mp this
    rw [← heq]
    exact h.id_created s' hs'
  never_again := h.never_again
  sides b := by
    have hside := h.sides b
    rw [hs.count_eq, hs.latest_eq]
    refine ⟨?_, hside.none_yet, hside.last, hside.latest_max⟩
    rw [hside.count_eq, side_length, side_length, hs.id_eq]

theorem modify_sameKeys (c : Http2ConnectionState) (addr : ℕ) (f : Http2Stream → Http2Stream) (hf : ∀ s ∈ c.streamList, s.addr = addr →
    (f s).addr = s.addr ∧ (f s).id = s.id) : SameKeys c (c.modify addr f) := by
  have hkeep : ∀ s ∈ c.streamList, (if s.addr = addr then f s else s).addr = s.addr ∧ (if s.addr = addr then f s else s).id = s.id := by
    intro s hs
    by_cases ha : s.addr = addr
    · rw [if_pos ha]
      exact hf s hs ha
    · rw [if_neg ha]
      exact ⟨rfl, rfl⟩
  refine ⟨?_, ?_, rfl, fun _ => rfl, fun _ => rfl⟩
  · rw [Http2ConnectionState.modify, List.map_map]
    exact List.map_congr_left fun s hs => (hkeep s hs).1
  · rw [Http2ConnectionState.modify, List.map_map]
    exact List.map_congr_left fun s hs => (hkeep s hs).2

/-- only the state changes -/
theorem changeState_eq (s : Http2Stream) (type : Http2FrameType) (endHeaders : Bool) :
    (s.changeState type endHeaders).1 = { s with state := (s.changeState type endHeaders).1.state } := by
  unfold Http2Stream.changeState
  cases s.state <;> cases type <;> dsimp only <;> first | rfl | (split_ifs <;> rfl)

theorem eq_of_addr {l : List Http2Stream} (h : (l.map Http2Stream.addr).Nodup) {s s' : Http2Stream} (hs : s ∈ l) (hs' : s' ∈ l)
    (heq : s.addr = s'.addr) : s = s' := List.inj_on_of_nodup_map h hs hs' heq

theorem sendRst_sameKeys {c : Http2ConnectionState} (h : (c.streamList.map Http2Stream.addr).Nodup) (id : ℕ) :
    SameKeys c (c.sendRstStreamFrame id) := by
  unfold Http2ConnectionState.sendRstStreamFrame
  cases hfind : c.findStream id with
  | none => exact SameKeys.refl c
  | some s =>
    have hmem : s ∈ c.streamList := List.mem_of_find?_eq_some hfind
    have hsame := modify_sameKeys c s.addr (fun _ => (s.changeState .rstStream false).1) fun s' hs' ha => by
      rw [eq_of_addr h hs' hmem ha, changeState_eq]
      exact ⟨rfl, rfl⟩
    dsimp only
    by_cases hok : (s.changeState .rstStream false).2 = true
    · rw [if_pos hok]
      exact hsame
    · rw [if_neg hok]
      exact ⟨hsame.addr_eq, hsame.id_eq, hsame.next_eq, hsame.count_eq, hsame.latest_eq⟩

/-- a reset changes the state of one stream -/
theorem sendRst_mem {c : Http2ConnectionState} (h : (c.streamList.map Http2Stream.addr).Nodup) {id : ℕ} {s' : Http2Stream}
    (hs' : s' ∈ (c.sendRstStreamFrame id).streamList) :
    ∃ s ∈ c.streamList, s' = s ∨ s' = (s.changeState .rstStream false).1 := by
  unfold Http2ConnectionState.sendRstStreamFrame at hs'
  cases hfind : c.findStream id with
  | none =>
    rw [hfind] at hs'
    exact ⟨s', hs', Or.inl rfl⟩
  | some s =>
    have hmem : s ∈ c.streamList := List.mem_of_find?_eq_some hfind
    have hlist : s' ∈ (c.modify s.addr fun _ => (s.changeState .rstStream false).1).streamList := by
      simp only [hfind] at hs'
      split_ifs at hs'
      · exact hs'
      · exact hs'
    obtain ⟨s₀, hs₀, rfl⟩ := List.mem_map.mp hlist
    refine ⟨s₀, hs₀, ?_⟩
    by_cases ha : s₀.addr = s.addr
    · rw [if_pos ha, eq_of_addr h hs₀ hmem ha]
      exact Or.inr rfl
    · rw [if_neg ha]
      exact Or.inl rfl

theorem delete_mem {c : Http2ConnectionState} (h : (c.streamList.map Http2Stream.addr).Nodup) {addr : ℕ} {s' : Http2Stream}
    (hs' : s' ∈ (c.deleteStream addr).1.streamList) : ∃ s ∈ c.streamList, s' = s ∨ s' = (s.changeState .rstStream false).1 := by
  unfold Http2ConnectionState.deleteStream at hs'
  cases hat : c.streamAt addr with
  | none =>
    rw [hat] at hs'
    exact ⟨s', hs', Or.inl rfl⟩
  | some s =>
    have hlist : s' ∈ (if s.state = .closed then c else c.sendRstStreamFrame s.id).streamList := by
      simp only [hat] at hs'
      split_ifs at hs' ⊢
      all_goals exact (List.mem_filter.mp hs').1
    by_cases hclosed : s.state = .closed
    · rw [if_pos hclosed] at hlist
      exact ⟨s', hlist, Or.inl rfl⟩
    · rw [if_neg hclosed] at hlist
      exact sendRst_mem h hlist

/-! ### Creation -/

/-- the checks that a new stream has passed -/
theorem createError_none {c : Http2ConnectionState} {newId : ℕ} (h : c.createError newId = none) :
    latest (http2IsClientStreamid newId) c < newId ∧ count (http2IsClientStreamid newId) c < limit c newId := by
  unfold Http2ConnectionState.createError at h
  unfold latest count limit
  cases hc : http2IsClientStreamid newId <;> simp only [hc] at h ⊢ <;> split_ifs at h <;> simp_all

theorem enqueueStream_list (c : Http2ConnectionState) (newId : ℕ) :
    (c.enqueueStream newId).streamList = c.streamList ++ [c.newStream newId] ∧ (c.enqueueStream newId).nextStream = c.nextStream + 1 := by
  unfold Http2ConnectionState.enqueueStream
  dsimp only
  split_ifs <;> exact ⟨rfl, rfl⟩

theorem enqueueStream_side (c : Http2ConnectionState) (newId : ℕ) (b : Bool) :
    (b = http2IsClientStreamid newId →
      count b (c.enqueueStream newId) = count b c + 1 ∧ latest b (c.enqueueStream newId) = newId) ∧
    (b ≠ http2IsClientStreamid newId →
      count b (c.enqueueStream newId) = count b c ∧ latest b (c.enqueueStream newId) = latest b c) := by
  unfold Http2ConnectionState.enqueueStream count latest
  dsimp only
  cases http2IsClientStreamid newId <;> cases b <;> simp

theorem create_inv {r : Run} {newId : ℕ} (h : Inv r) (hnone : r.conn.createError newId = none) :
    Inv ⟨r.conn.enqueueStream newId, r.created ++ [(newId, limit r.conn newId)]⟩ := by
  obtain ⟨hlatest, hcount⟩ := createError_none hnone
  obtain ⟨hlist, hnext⟩ := enqueueStream_list r.conn newId
  have hnew : newId ∉ r.created.map Prod.fst := fun hid => absurd (h.id_le hid) (Nat.not_le_of_lt hlatest)
  have hsplit : ∀ b, createdBy b ⟨r.conn.enqueueStream newId, r.created ++ [(newId, limit r.conn newId)]⟩ =
      createdBy b r ++ if http2IsClientStreamid newId == b then [(newId, limit r.conn newId)] else [] := by
    intro b
    simp only [createdBy, List.filter_append, List.filter_cons, List.filter_nil]
  have hsides : ∀ b, side b (r.conn.enqueueStream newId) =
      side b r.conn ++ if http2IsClientStreamid newId == b then [r.conn.newStream newId] else [] := by
    intro b
    simp only [side, hlist, List.filter_append, List.filter_cons, List.filter_nil]
    rfl
  refine ⟨?_, ?_, ?_, ?_, ?_, fun b => ?_⟩
  · dsimp only
    rw [hlist, List.map_append, List.nodup_append]
    refine ⟨h.addrs, List.nodup_singleton _, ?_⟩
    intro a ha a' ha'
    obtain ⟨s, hs, rfl⟩ := List.mem_map.mp ha
    obtain rfl := List.mem_singleton.mp ha'
    exact Nat.ne_of_lt (h.addr_lt s hs)
  · intro s hs
    dsimp only at hs ⊢
    rw [hlist] at hs
    rw [hnext]
    rcases List.mem_append.mp hs with hs | hs
    · exact Nat.lt_succ_of_lt (h.addr_lt s hs)
    · obtain rfl := List.mem_singleton.mp hs
      exact Nat.lt_succ_self _
  · dsimp only
    rw [hlist, List.map_append, List.nodup_append]
    refine ⟨h.ids, List.nodup_singleton _, ?_⟩
    intro a ha a' ha'
    obtain ⟨s, hs, rfl⟩ := List.mem_map.mp ha
    obtain rfl := List.mem_singleton.mp ha'
    exact fun heq => hnew (heq ▸ h.id_created s hs)
  · intro s hs
    dsimp only at hs ⊢
    rw [hlist] at hs
    rw [List.map_append]
    rcases List.mem_append.mp hs with hs | hs
    · exact List.mem_append_left _ (h.id_created s hs)
    · obtain rfl := List.mem_singleton.mp hs
      exact List.mem_append_right _ (List.mem_singleton.mpr rfl)
  · dsimp only
    rw [List.map_append, List.nodup_append]
    refine ⟨h.never_again, List.nodup_singleton _, ?_⟩
    intro a ha a' ha'
    obtain rfl := List.mem_singleton.mp ha'
    exact fun heq => hnew (heq ▸ ha)
  · have hside := h.sides b
    obtain ⟨hsame, hother⟩ := enqueueStream_side r.conn newId b
    by_cases hb : b = http2IsClientStreamid newId
    · obtain ⟨h1, h2⟩ := hsame hb
      have hbeq : (http2IsClientStreamid newId == b) = true := by rw [hb]; exact beq_self_eq_true _
      rw [← hb] at hlatest hcount
      have hcr := hsplit b
      have hsi := hsides b
      rw [if_pos hbeq] at hcr hsi
      dsimp only
      rw [h1, h2]
      refine ⟨?_, ?_, ?_, ?_⟩
      · rw [hsi, List.length_append, List.length_singleton, hside.count_eq]
      · intro hnil
        rw [hcr] at hnil
        exact absurd hnil (by simp)
      · intro e he
        rw [hcr, List.getLast?_concat] at he
        obtain rfl := Option.some.inj he
        exact ⟨hcount, rfl⟩
      · intro e he
        rw [hcr] at he
        rcases List.mem_append.mp he with he | he
        · exact (hside.latest_max e he).trans (Nat.le_of_lt hlatest)
        · obtain rfl := List.mem_singleton.mp he
          exact le_refl _
    · obtain ⟨h1, h2⟩ := hother hb
      have hbeq : ¬ (http2IsClientStreamid newId == b) = true := by
        rw [beq_iff_eq]
        exact fun heq => hb heq.symm
      have hcr := hsplit b
      have hsi := hsides b
      rw [if_neg hbeq, List.append_nil] at hcr hsi
      dsimp only
      rw [h1, h2]
      exact ⟨by rw [hsi]; exact hside.count_eq, fun hnil => hside.none_yet (hcr ▸ hnil), fun e he => hside.last e (hcr ▸ he),
        fun e he => hside.latest_max e (hcr ▸ he)⟩

/-! ### Deletion -/

theorem filter_addr {l₁ l₂ : List Http2Stream} {s : Http2Stream} (h : ((l₁ ++ s :: l₂).map Http2Stream.addr).Nodup) :
    (l₁ ++ s :: l₂).filter (fun s' => s'.addr != s.addr) = l₁ ++ l₂ := by
  rw [List.map_append, List.map_cons, List.nodup_middle, List.nodup_cons] at h
  have hkeep : ∀ l : List Http2Stream, (∀ s' ∈ l, s' ∈ l₁ ∨ s' ∈ l₂) → l.filter (fun s' => s'.addr != s.addr) = l := by
    intro l hl
    rw [List.filter_eq_self]
    intro s' hs'
    rw [bne_iff_ne]
    intro heq
    apply h.1
    rw [← heq, ← List.map_append]
    exact List.mem_map_of_mem (List.mem_append.mpr (hl s' hs'))
  rw [List.filter_append, List.filter_cons, if_neg (by simp), hkeep l₁ fun _ => Or.inl, hkeep l₂ fun _ => Or.inr]

theorem delete_inv {r : Run} {addr : ℕ} (h : Inv r) : Inv ⟨(r.conn.deleteStream addr).1, r.created⟩ := by
  unfold Http2ConnectionState.deleteStream
  cases hat : r.conn.streamAt addr with
  | none => exact h
  | some s =>
    dsimp only
    have haddr : s.addr = addr := by
      have := List.find?_some hat
      simpa using this
    -- the stream is reset, which changes its state at most
    generalize hc : (if s.state = .closed then r.conn else r.conn.sendRstStreamFrame s.id) = c
    have hsame : SameKeys r.conn c := by
      rw [← hc]
      split_ifs
      · exact SameKeys.refl _
      · exact sendRst_sameKeys h.addrs s.id
    have hmem : s ∈ r.conn.streamList := List.mem_of_find?_eq_some hat
    have hinv : Inv ⟨c, r.created⟩ := h.congr (c := r.conn) hsame
    obtain ⟨s', hs', haddr', hid⟩ : ∃ s' ∈ c.streamList, s'.addr = addr ∧ s'.id = s.id := by
      obtain ⟨i, hi, hget⟩ := List.mem_iff_getElem.mp hmem
      have hlen : i < c.streamList.length := by
        have := congrArg List.length hsame.addr_eq
        simp only [List.length_map] at this
        omega
      refine ⟨c.streamList[i], List.getElem_mem hlen, ?_, ?_⟩
      · have := congrArg (fun l => l[i]?) hsame.addr_eq
        simp only [List.getElem?_map, List.getElem?_eq_getElem hlen, List.getElem?_eq_getElem hi, Option.map_some, hget] at this
        exact (Option.some.inj this).trans haddr
      · have := congrArg (fun l => l[i]?) hsame.id_eq
        simp only [List.getElem?_map, List.getElem?_eq_getElem hlen, List.getElem?_eq_getElem hi, Option.map_some, hget] at this
        exact Option.some.inj this
    obtain ⟨l₁, l₂, hl⟩ := List.append_of_mem hs'
    have hfilter : (c.streamList.filter fun s => s.addr != addr) = l₁ ++ l₂ := by
      rw [hl, ← haddr']
      exact filter_addr (hl ▸ hinv.addrs)
    have hsub : (l₁ ++ l₂).Sublist c.streamList := by
      rw [hl]
      exact List.Sublist.append_left (List.sublist_cons_self s' l₂) l₁
    rw [hfilter]
    generalize hd : (if http2IsClientStreamid s.id = true then
      ({ c with streamList := l₁ ++ l₂, clientStreamsInCount := c.clientStreamsInCount - 1 } : Http2ConnectionState)
      else { c with streamList := l₁ ++ l₂, clientStreamsOutCount := c.clientStreamsOutCount - 1 }) = d
    have hfields : d.streamList = l₁ ++ l₂ ∧ d.nextStream = c.nextStream ∧ ∀ b, latest b d = latest b c ∧
        count b d = count b c - if http2IsClientStreamid s.id == b then 1 else 0 := by
      rw [← hd]
      unfold latest count
      cases http2IsClientStreamid s.id <;> refine ⟨rfl, rfl, fun b => ?_⟩ <;> cases b <;> simp
    obtain ⟨hdl, hdn, hdb⟩ := hfields
    refine ⟨?_, fun s₀ hs₀ => ?_, ?_, fun s₀ hs₀ => ?_, h.never_again, fun b => ?_⟩
    · dsimp only
      rw [hdl]
      exact hinv.addrs.sublist (hsub.map _)
    · dsimp only at hs₀ ⊢
      rw [hdl] at hs₀
      rw [hdn]
      exact hinv.addr_lt s₀ (hsub.subset hs₀)
    · dsimp only
      rw [hdl]
      exact hinv.ids.sublist (hsub.map _)
    · dsimp only at hs₀
      rw [hdl] at hs₀
      exact hinv.id_created s₀ (hsub.subset hs₀)
    · have hside := hinv.sides b
      obtain ⟨hb1, hb2⟩ := hdb b
      have hcount : count b d = (side b d).length := by
        have hlen := hside.count_eq
        dsimp only at hlen
        rw [side, hl, List.filter_append, List.filter_cons, hid] at hlen
        rw [hb2, hlen, side, hdl, List.filter_append]
        split_ifs <;> simp only [List.length_append, List.length_cons] <;> omega
      dsimp only
      rw [hb1]
      refine ⟨hcount, fun hnil => ?_, fun e he => ?_, hside.latest_max⟩
      · obtain ⟨h0, h0'⟩ := hside.none_yet hnil
        dsimp only at h0 h0'
        exact ⟨by rw [hb2, h0, Nat.zero_sub], h0'⟩
      · obtain ⟨h0, h0'⟩ := hside.last e he
        dsimp only at h0 h0'
        exact ⟨by rw [hb2]; exact (Nat.sub_le _ _).trans h0, h0'⟩

theorem cleanup_inv {r : Run} (h : Inv r) : Inv ⟨r.conn.cleanupStreams, r.created⟩ := by
  unfold Http2ConnectionState.cleanupStreams
  generalize r.conn.streamList = l
  obtain ⟨c, created⟩ := r
  dsimp only
  induction l generalizing c with
  | nil => exact h
  | cons s l ih => exact ih _ (delete_inv h)

theorem step_inv {r : Run} (h : Inv r) (op : Op) : Inv (step r op) := by
  cases op with
  | create newId =>
    rw [step, Http2ConnectionState.createStream]
    cases hnone : r.conn.createError newId with
    | some error => exact h
    | none => exact create_inv h hnone
  | delete addr => exact delete_inv h
  | cleanup => exact cleanup_inv h
  | settings client server => exact h.congr (c := r.conn) ⟨rfl, rfl, rfl, fun _ => rfl, fun _ => rfl⟩

theorem new_inv (initialWindowSize : BitVec 32) : Inv ⟨newConnection initialWindowSize, []⟩ := by
  refine ⟨List.nodup_nil, by simp [newConnection], List.nodup_nil, by simp [newConnection], List.nodup_nil, fun b => ?_⟩
  cases b <;> exact ⟨rfl, fun _ => ⟨rfl, rfl⟩, fun e he => absurd he (by simp [createdBy]), fun e he => absurd he (by simp [createdBy])⟩

theorem stream_bookkeeping (initialWindowSize : BitVec 32) (ops : List Op) :
    Law (ops.foldl step ⟨newConnection initialWindowSize, []⟩) := by
  have hrun : Along step (fun _ _ => True) ⟨newConnection initialWindowSize, []⟩ ops := along_of_forall fun _ _ => trivial
  exact (hrun.inv (I := Inv) (fun r op h _ => step_inv h op) (new_inv initialWindowSize)).law

end Streams

end TrafficServer.Http2
