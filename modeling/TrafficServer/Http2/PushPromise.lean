/-
Promised streams (`send_push_promise_frame`).

A PUSH_PROMISE frame promises the id behind the latest one of this side, and after it is sent the stream is created. `create_stream` may
refuse: the session is half closed, or the peer's limit of streams is reached. Then the promise has been sent, there is no stream, and
the latest id is what it was, so that the next push promises the same id again (`promised_twice`).

`fulfilled_iff`: in a run of pushes, other creations, deletions and changes of the settings no id is promised twice and every promised
stream is created, exactly if every push that sends a promise finds the session open, room for a stream, and an id.
-/
import TrafficServer.Http2.SendHeaders

namespace TrafficServer.Http2

open TrafficServer.Run

/-- a PUSH_PROMISE frame with its CONTINUATION frames -/
structure PushPromise where
  promisedStreamid : ℕ
  frames : List HeaderFrame

/-- the buffer of a PUSH_PROMISE frame without the promised id -/
def PUSH_PROMISE_BUF_LEN : ℕ := HEADERS_BUF_LEN - 4

def pushPromiseFrames (block : Bytes) : List HeaderFrame :=
  ⟨.pushPromise, block.length ≤ PUSH_PROMISE_BUF_LEN, false, block.take PUSH_PROMISE_BUF_LEN⟩ ::
    continuationFrames (block.drop PUSH_PROMISE_BUF_LEN)

/-- `send_push_promise_frame` with what the encoder made of the request, if it did: the promise that is sent, and whether the stream is
created -/
def Http2ConnectionState.sendPushPromiseFrame (c : Http2ConnectionState) (encoded : Option Bytes) :
    Http2ConnectionState × Option PushPromise × Bool :=
  if c.clientSettings .enablePush = 0 then (c, none, false)
  else
    match encoded with
    | none => (c, none, false)
    | some block =>
      let id := (c.latestStreamidOut + 2) % 2 ^ 32
      let promise : PushPromise := ⟨id, pushPromiseFrames block⟩
      match c.createStream id with
      | (c, .error _) => (c, some promise, false)
      | (c, .ok addr) => (c.modify addr fun s => (s.changeState .pushPromise true).1, some promise, true)

/-! ## Runs -/

namespace Push

inductive Op where
  | push (encoded : Option Bytes)
  /-- another stream -/
  | create (newId : BitVec 32)
  | delete (addr : ℕ)
  | settings (client server : Http2SettingsIdentifier → BitVec 32)
  /-- the session is half closed -/
  | shutdown

inductive Event where
  | promised (id : ℕ)
  | created (id : ℕ)
deriving DecidableEq

structure Run where
  conn : Http2ConnectionState
  log : List Event

def step (r : Run) : Op → Run
  | .push encoded =>
    match r.conn.sendPushPromiseFrame encoded with
    | (c, none, _) => { r with conn := c }
    | (c, some promise, false) => ⟨c, r.log ++ [.promised promise.promisedStreamid]⟩
    | (c, some promise, true) => ⟨c, r.log ++ [.promised promise.promisedStreamid, .created promise.promisedStreamid]⟩
  | .create newId =>
    match r.conn.createStream newId.toNat with
    | (c, .error _) => { r with conn := c }
    | (c, .ok _) => ⟨c, r.log ++ [.created newId.toNat]⟩
  | .delete addr => { r with conn := (r.conn.deleteStream addr).1 }
  | .settings client server => { r with conn := { r.conn with clientSettings := client, serverSettings := server } }
  | .shutdown => { r with conn := { r.conn with halfCloseLocal := true } }

def start (initialWindowSize : BitVec 32) : Run := ⟨newConnection initialWindowSize, []⟩

/-- the promised ids, in their order -/
def promisedIds (log : List Event) : List ℕ := log.filterMap fun
  | .promised id => some id
  | .created _ => none

/-- no id is promised twice, and behind a promise the stream is created -/
structure Fulfilled (log : List Event) : Prop where
  once : (promisedIds log).Nodup
  created : ∀ log₁ id log₂, log = log₁ ++ .promised id :: log₂ → .created id ∈ log₂

/-- a promise is sent: pushes are enabled and the request could be encoded -/
def Sends (c : Http2ConnectionState) (encoded : Option Bytes) : Prop := c.clientSettings .enablePush ≠ 0 ∧ encoded ≠ none

/-- the session is open, the peer allows another stream, and there is an id -/
structure HasRoom (c : Http2ConnectionState) : Prop where
  session_open : c.halfCloseLocal = false
  count_lt : c.clientStreamsOutCount < (c.clientSettings .maxConcurrentStreams).toNat
  id_lt : c.latestStreamidOut + 2 < 2 ^ 32

/-- a push that sends a promise can keep it -/
def Keepable (r : Run) : Op → Prop
  | .push encoded => Sends r.conn encoded → HasRoom r.conn
  | _ => True

/-! ## The log -/

theorem promisedIds_append (log log' : List Event) : promisedIds (log ++ log') = promisedIds log ++ promisedIds log' :=
  List.filterMap_append

/-- what is behind a promise, in a log that goes on with `more` -/
theorem Fulfilled.behind {log more : List Event} (h : Fulfilled log) {log₁ log₂ : List Event} {id : ℕ}
    (heq : log ++ more = log₁ ++ .promised id :: log₂) :
    .created id ∈ log₂ ∨ ∃ mid, more = mid ++ .promised id :: log₂ := by
  rcases List.append_eq_append_iff.mp heq with ⟨mid, _, hmore⟩ | ⟨mid, hlog, hmore⟩
  · exact Or.inr ⟨mid, hmore⟩
  · cases mid with
    | nil => exact Or.inr ⟨[], hmore.symm⟩
    | cons e mid =>
      obtain ⟨rfl, rfl⟩ := List.cons.inj hmore
      exact Or.inl (List.mem_append_left _ (h.created log₁ id mid hlog))

/-- a stream that was not promised -/
theorem Fulfilled.create {log : List Event} (h : Fulfilled log) (id : ℕ) : Fulfilled (log ++ [.created id]) := by
  refine ⟨?_, fun log₁ id' log₂ heq => ?_⟩
  · have hsame : promisedIds (log ++ [.created id]) = promisedIds log := by
      rw [promisedIds_append]
      exact List.append_nil _
    rw [hsame]
    exact h.once
  · rcases h.behind heq with hmem | ⟨mid, hmore⟩
    · exact hmem
    · have hlast : Event.promised id' ∈ [Event.created id] := by
        rw [hmore]
        simp
      exact absurd (List.mem_singleton.mp hlast) (by simp)

/-- a promise that is kept -/
theorem Fulfilled.promise {log : List Event} (h : Fulfilled log) {id : ℕ} (hnew : id ∉ promisedIds log) :
    Fulfilled (log ++ [.promised id, .created id]) := by
  refine ⟨?_, fun log₁ id' log₂ heq => ?_⟩
  · have hids : promisedIds (log ++ [.promised id, .created id]) = promisedIds log ++ [id] := by
      rw [promisedIds_append]
      rfl
    rw [hids]
    exact h.once.append (List.nodup_singleton id) (by simpa using hnew)
  · rcases h.behind heq with hmem | ⟨mid, hmore⟩
    · exact hmem
    · cases mid with
      | nil =>
        obtain ⟨hid, rfl⟩ := List.cons.inj hmore
        obtain rfl := Event.promised.inj hid
        exact List.mem_singleton.mpr rfl
      | cons e mid =>
        have hlast : Event.promised id' ∈ [Event.created id] := by
          rw [(List.cons.inj hmore).2]
          simp
        exact absurd (List.mem_singleton.mp hlast) (by simp)

/-- a promise that is not kept -/
theorem not_fulfilled (log : List Event) (id : ℕ) : ¬ Fulfilled (log ++ [.promised id]) := by
  intro h
  exact absurd (h.created log id [] rfl) (by simp)

/-! ## What a run keeps -/

/-- the ids of this side are even, and the promised ones are not new any more -/
structure Inv (r : Run) : Prop where
  fulfilled : Fulfilled r.log
  latest_even : http2IsClientStreamid r.conn.latestStreamidOut = false
  latest_lt : r.conn.latestStreamidOut < 2 ^ 32
  promised_le : ∀ id ∈ promisedIds r.log, id ≤ r.conn.latestStreamidOut

theorem createStream_latest {c c' : Http2ConnectionState} {newId addr : ℕ} (h : c.createStream newId = (c', .ok addr)) :
    c'.latestStreamidOut = if http2IsClientStreamid newId then c.latestStreamidOut else newId := by
  unfold Http2ConnectionState.createStream at h
  cases herr : c.createError newId with
  | some error =>
    rw [herr] at h
    exact absurd (Prod.mk.inj h).2 (by simp)
  | none =>
    rw [herr] at h
    obtain ⟨rfl, _⟩ := Prod.mk.inj h
    unfold Http2ConnectionState.enqueueStream
    dsimp only
    split_ifs
    · rfl
    · rfl

theorem createStream_error {c c' : Http2ConnectionState} {newId : ℕ} {error : Http2Error} (h : c.createStream newId = (c', .error error)) :
    c' = c ∧ c.createError newId = some error := by
  unfold Http2ConnectionState.createStream at h
  cases herr : c.createError newId with
  | some error' =>
    rw [herr] at h
    obtain ⟨rfl, herror⟩ := Prod.mk.inj h
    exact ⟨rfl, congrArg some (Except.error.inj herror)⟩
  | none =>
    rw [herr] at h
    exact absurd (Prod.mk.inj h).2 (by simp)

/-- a stream that is created is newer than the others of its side -/
theorem createStream_new {c c' : Http2ConnectionState} {newId addr : ℕ} (h : c.createStream newId = (c', .ok addr)) :
    Streams.latest (http2IsClientStreamid newId) c < newId := by
  unfold Http2ConnectionState.createStream at h
  cases herr : c.createError newId with
  | some error =>
    rw [herr] at h
    exact absurd (Prod.mk.inj h).2 (by simp)
  | none => exact (Streams.createError_none herr).1

/-- the id that is promised next -/
theorem next_even {latest : ℕ} (h : http2IsClientStreamid latest = false) : http2IsClientStreamid ((latest + 2) % 2 ^ 32) = false := by
  unfold http2IsClientStreamid at h ⊢
  simp only [beq_eq_false_iff_ne, ne_eq] at h ⊢
  omega

/-- when the promised stream is created -/
theorem createError_next {c : Http2ConnectionState} (heven : http2IsClientStreamid c.latestStreamidOut = false)
    (hlt : c.latestStreamidOut < 2 ^ 32) : c.createError ((c.latestStreamidOut + 2) % 2 ^ 32) = none ↔ HasRoom c := by
  have hid : c.latestStreamidOut + 2 < 2 ^ 32 ↔ ¬ (c.latestStreamidOut + 2) % 2 ^ 32 ≤ c.latestStreamidOut := by
    unfold http2IsClientStreamid at heven
    simp only [beq_eq_false_iff_ne, ne_eq] at heven
    omega
  unfold Http2ConnectionState.createError
  rw [next_even heven]
  simp only [Bool.false_eq_true, ↓reduceIte]
  constructor
  · intro h
    split_ifs at h with hshut hold hfull
    exact ⟨Bool.eq_false_of_not_eq_true hshut, not_le.mp hfull, hid.mpr hold⟩
  · intro h
    rw [if_neg (by simp [h.session_open]), if_neg (hid.mp h.id_lt), if_neg (not_le.mpr h.count_lt)]

theorem deleteStream_latest (c : Http2ConnectionState) (addr : ℕ) : (c.deleteStream addr).1.latestStreamidOut = c.latestStreamidOut := by
  have hreset : ∀ id, (c.sendRstStreamFrame id).latestStreamidOut = c.latestStreamidOut := by
    intro id
    unfold Http2ConnectionState.sendRstStreamFrame
    cases c.findStream id with
    | none => rfl
    | some s =>
      dsimp only
      split_ifs
      · rfl
      · rfl
  unfold Http2ConnectionState.deleteStream
  cases c.streamAt addr with
  | none => rfl
  | some s =>
    dsimp only
    split_ifs
    · rfl
    · exact hreset s.id
    · rfl
    · exact hreset s.id

/-- a step that leaves the log and the latest id alone -/
theorem Inv.congr {r : Run} (h : Inv r) {c : Http2ConnectionState} (hlatest : c.latestStreamidOut = r.conn.latestStreamidOut) :
    Inv { r with conn := c } where
  fulfilled := h.fulfilled
  latest_even := by rw [hlatest]; exact h.latest_even
  latest_lt := by rw [hlatest]; exact h.latest_lt
  promised_le := by rw [hlatest]; exact h.promised_le

theorem create_inv {r : Run} (h : Inv r) (newId : BitVec 32) : Inv (step r (.create newId)) := by
  rw [step]
  cases hcreate : r.conn.createStream newId.toNat with
  | mk c result =>
    cases result with
    | error error =>
      obtain ⟨rfl, _⟩ := createStream_error hcreate
      exact h
    | ok addr =>
      have hlatest := createStream_latest hcreate
      have hnew := createStream_new hcreate
      have hids : promisedIds (r.log ++ [.created newId.toNat]) = promisedIds r.log := by
        rw [promisedIds_append]
        exact List.append_nil _
      dsimp only
      refine ⟨h.fulfilled.create newId.toNat, ?_, ?_, fun id hmem => ?_⟩
      · dsimp only
        rw [hlatest]
        split_ifs with hclient
        · exact h.latest_even
        · exact Bool.eq_false_of_not_eq_true hclient
      · dsimp only
        rw [hlatest]
        split_ifs
        · exact h.latest_lt
        · exact newId.isLt
      · dsimp only at hmem ⊢
        rw [hids] at hmem
        have hle := h.promised_le id hmem
        rw [hlatest]
        split_ifs with hclient
        · exact hle
        · rw [Bool.eq_false_of_not_eq_true hclient] at hnew
          exact hle.trans hnew.le

/-- a push that can keep its promise -/
theorem push_inv {r : Run} (h : Inv r) {encoded : Option Bytes} (hroom : Sends r.conn encoded → HasRoom r.conn) :
    Inv (step r (.push encoded)) := by
  rw [step]
  unfold Http2ConnectionState.sendPushPromiseFrame
  by_cases hoff : r.conn.clientSettings .enablePush = 0
  · rw [if_pos hoff]
    exact h
  rw [if_neg hoff]
  cases encoded with
  | none => exact h
  | some block =>
    have hnone := (createError_next h.latest_even h.latest_lt).mpr (hroom ⟨hoff, by simp⟩)
    dsimp only
    cases hcreate : r.conn.createStream ((r.conn.latestStreamidOut + 2) % 2 ^ 32) with
    | mk c result =>
      cases result with
      | error error =>
        rw [(createStream_error hcreate).2] at hnone
        exact absurd hnone (by simp)
      | ok addr =>
        have heven := next_even h.latest_even
        have hlatest := createStream_latest hcreate
        have hnew := createStream_new hcreate
        rw [heven] at hlatest hnew
        dsimp only
        refine ⟨h.fulfilled.promise fun hmem => ?_, ?_, ?_, fun id hmem => ?_⟩
        · exact absurd (h.promised_le _ hmem) (not_le.mpr hnew)
        · exact hlatest ▸ heven
        · exact hlatest ▸ Nat.mod_lt _ (by decide)
        · dsimp only at hmem
          rw [promisedIds_append] at hmem
          rcases List.mem_append.mp hmem with hmem | hmem
          · exact hlatest ▸ (h.promised_le id hmem).trans hnew.le
          · exact hlatest ▸ (List.mem_singleton.mp hmem).le

/-- a push that cannot -/
theorem push_broken {r : Run} (h : Inv r) {encoded : Option Bytes} (hsends : Sends r.conn encoded) (hroom : ¬ HasRoom r.conn) :
    ¬ Fulfilled (step r (.push encoded)).log := by
  obtain ⟨block, rfl⟩ := Option.ne_none_iff_exists'.mp hsends.2
  rw [step]
  unfold Http2ConnectionState.sendPushPromiseFrame
  rw [if_neg hsends.1]
  dsimp only
  cases hcreate : r.conn.createStream ((r.conn.latestStreamidOut + 2) % 2 ^ 32) with
  | mk c result =>
    cases result with
    | error error => exact not_fulfilled r.log _
    | ok addr =>
      refine absurd ((createError_next h.latest_even h.latest_lt).mp ?_) hroom
      unfold Http2ConnectionState.createStream at hcreate
      cases hnone : r.conn.createError ((r.conn.latestStreamidOut + 2) % 2 ^ 32) with
      | none => rfl
      | some error =>
        rw [hnone] at hcreate
        exact absurd (Prod.mk.inj hcreate).2 (by simp)

theorem step_inv {r : Run} (h : Inv r) {op : Op} (hkeep : Keepable r op) : Inv (step r op) := by
  cases op with
  | push encoded => exact push_inv h hkeep
  | create newId => exact create_inv h newId
  | delete addr => exact h.congr (deleteStream_latest r.conn addr)
  | settings client server => exact h.congr rfl
  | shutdown => exact h.congr rfl

/-! ## Whole runs -/

theorem start_inv (initialWindowSize : BitVec 32) : Inv (start initialWindowSize) where
  fulfilled := ⟨List.nodup_nil, fun log₁ id log₂ heq => absurd heq (by simp [start])⟩
  latest_even := rfl
  latest_lt := Nat.two_pow_pos 32
  promised_le id hid := absurd hid (by simp [start, promisedIds])

/-- In a run no id is promised twice and every promised stream is created, in every state, exactly if each push that sends a promise finds
the session open, room for a stream and an id. -/
theorem fulfilled_iff (initialWindowSize : BitVec 32) (ops : List Op) :
    (∀ n, Fulfilled ((ops.take n).foldl step (start initialWindowSize)).log) ↔ Along step Keepable (start initialWindowSize) ops := by
  have hall : Along step (fun _ _ => True) (start initialWindowSize) ops := along_of_forall fun _ _ => trivial
  refine along_iff (I := Inv) (Q := fun r => Fulfilled r.log) (fun r h => h.fulfilled) (fun r op h _ hkeep => step_inv h hkeep)
    (fun r op h _ hkeep => ?_) hall (start_inv initialWindowSize)
  cases op with
  | push encoded =>
    obtain ⟨hsends, hroom⟩ := Classical.not_imp.mp hkeep
    exact push_broken h hsends hroom
  | create newId => exact absurd trivial hkeep
  | delete addr => exact absurd trivial hkeep
  | settings client server => exact absurd trivial hkeep
  | shutdown => exact absurd trivial hkeep

/-- The peer allows no stream of this side: two pushes promise stream 2, and there is none. -/
theorem promised_twice : ¬ ∀ (initialWindowSize : BitVec 32) (ops : List Op),
    Fulfilled (ops.foldl step (start initialWindowSize)).log := by
  intro h
  have hlog := h 65535 [.settings (Function.update defaultSettings .maxConcurrentStreams 0) defaultSettings, .push (some []), .push (some [])]
  have htwice : ¬ (promisedIds ([Op.settings (Function.update defaultSettings .maxConcurrentStreams 0) defaultSettings, .push (some []),
      .push (some [])].foldl step (start 65535)).log).Nodup := by decide
  exact htwice hlog.once

end Push

end TrafficServer.Http2
