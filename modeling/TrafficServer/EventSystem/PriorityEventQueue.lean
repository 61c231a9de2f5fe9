/-
`PriorityEventQueue` (`iocore/eventsystem/I_PriorityEventQueue.h`, `PQ-List.cc`): the timers of a thread, in ten lists by how long they have
to wait.

An event goes into the first list whose bucket time is not less than its time to wait. `check_ready` looks again at the lists for which a bit of
the tick counter has changed since the last check, and puts every event of theirs in the list for the time that it has left; what has been
cancelled is freed. List `i` above the first is for events behind the next multiple of `PQ_BUCKET_TIME(i - 1)` (`Late`): as long as the bits of the counter from `i - 1` on
do not change, this multiple has not been reached.

`Placed` says that the events in the queue are each in the list that `in_heap` names. The result is `timers_complete`, for every run in
which no two checks are 256 ticks apart.
-/
import Mathlib
import TrafficServer.Lib.Run

namespace TrafficServer.EventSystem.Timers

open TrafficServer.Run

/-! ## State -/

variable {E : Type*}

/-- `N_PQ_LIST` -/
def nPqList : ℕ := 10

/-- `PQ_BUCKET_TIME`, in nanoseconds -/
def pqBucketTime (i : ℕ) : ℕ := 5000000 * 2 ^ i

/-- the tick counter -/
def buckets (now : ℕ) : ℕ := now / pqBucketTime 0 % 2 ^ 32

/-- the queue, and the fields of the events that it uses -/
structure State (E : Type*) where
  after : ℕ → List E
  lastCheckTime : ℕ
  lastCheckBuckets : ℕ
  timeoutAt : E → ℤ
  inThePriorityQueue : E → Bool
  inHeap : E → ℕ
  cancelled : E → Bool

namespace State

def init (now : ℕ) (timeoutAt : E → ℤ) (inHeap : E → ℕ) (cancelled : E → Bool) : State E :=
  ⟨fun _ => [], now, buckets now, timeoutAt, fun _ => false, inHeap, cancelled⟩

variable [DecidableEq E]

/-- the list for an event that has to wait for `t` -/
def enqueueList (t : ℤ) : ℕ :=
  if t ≤ pqBucketTime 3 then
    if t ≤ pqBucketTime 1 then if t ≤ pqBucketTime 0 then 0 else 1
    else if t ≤ pqBucketTime 2 then 2 else 3
  else if t ≤ pqBucketTime 7 then
    if t ≤ pqBucketTime 5 then if t ≤ pqBucketTime 4 then 4 else 5
    else if t ≤ pqBucketTime 6 then 6 else 7
  else if t ≤ pqBucketTime 8 then 8 else 9

/-- `after[i].enqueue(e)`, with the list in `in_heap` -/
def putIn (s : State E) (i : ℕ) (e : E) : State E :=
  { s with inHeap := Function.update s.inHeap e i, after := Function.update s.after i (s.after i ++ [e]) }

def enqueue (s : State E) (e : E) (now : ℕ) : State E :=
  { s with inThePriorityQueue := Function.update s.inThePriorityQueue e true }.putIn (enqueueList (s.timeoutAt e - now)) e

def remove (s : State E) (e : E) : State E :=
  { s with inThePriorityQueue := Function.update s.inThePriorityQueue e false
           after := Function.update s.after (s.inHeap e) ((s.after (s.inHeap e)).erase e) }

def dequeueReady (s : State E) : State E × Option E :=
  match s.after 0 with
  | [] => (s, none)
  | e :: q =>
    ({ s with inThePriorityQueue := Function.update s.inThePriorityQueue e false, after := Function.update s.after 0 q }, some e)

/-- the loop that counts the bits of `todo_buckets` -/
def todoLists : ℕ → ℕ → ℕ
  | 0, _ => 0
  | fuel + 1, todo => if todo = 0 then 0 else todoLists fuel (todo / 2) + 1

/-- the loop that finds the list for an event, from list `j` down -/
def listFrom (t : ℤ) : ℕ → ℕ
  | 0 => 0
  | j + 1 => if t ≤ pqBucketTime j then listFrom t j else j + 1

/-- what a check does with an event of list `i` -/
def recheck (now i : ℕ) (s : State E) (e : E) : State E :=
  if s.cancelled e then
    { s with inThePriorityQueue := Function.update s.inThePriorityQueue e false, cancelled := Function.update s.cancelled e false }
  else s.putIn (listFrom (s.timeoutAt e - now) i) e

/-- list `i` is emptied, and its events looked at in their order -/
def recheckList (now : ℕ) (s : State E) (i : ℕ) : State E :=
  (s.after i).foldl (recheck now i) { s with after := Function.update s.after i [] }

def checkReady (s : State E) (now : ℕ) : State E :=
  let todo := (buckets now ^^^ s.lastCheckBuckets) &&& (2 ^ (nPqList - 1) - 1)
  ((List.range (todoLists todo todo)).map (· + 1)).foldl (recheckList now)
    { s with lastCheckTime := now, lastCheckBuckets := buckets now }

end State

/-- the calls; the owner of an event sets its timeout before it is enqueued, and can cancel it at any time -/
inductive Op (E : Type*) where
  | enqueue (e : E) (timeoutAt : ℤ) (now : ℕ)
  | remove (e : E)
  | dequeueReady
  | checkReady (now : ℕ)
  | cancel (e : E)

section Runs

variable [DecidableEq E]

def step (s : State E) : Op E → State E
  | .enqueue e timeoutAt now => { s with timeoutAt := Function.update s.timeoutAt e timeoutAt }.enqueue e now
  | .remove e => s.remove e
  | .dequeueReady => s.dequeueReady.1
  | .checkReady now => s.checkReady now
  | .cancel e => { s with cancelled := Function.update s.cancelled e true }

/-- An event that is enqueued is not in the queue, and one that is removed is; no time is before the last check, and a check is less than 256
ticks behind it. -/
def Allowed (s : State E) : Op E → Prop
  | .enqueue e _ now => s.inThePriorityQueue e = false ∧ s.lastCheckTime ≤ now
  | .remove e => s.inThePriorityQueue e = true
  | .checkReady now => s.lastCheckTime ≤ now ∧ now < s.lastCheckTime + 256 * pqBucketTime 0
  | _ => True

instance decidableAllowed (s : State E) : DecidablePred (Allowed s)
  | .enqueue e _ now => inferInstanceAs (Decidable (s.inThePriorityQueue e = false ∧ s.lastCheckTime ≤ now))
  | .remove e => inferInstanceAs (Decidable (s.inThePriorityQueue e = true))
  | .checkReady now => inferInstanceAs (Decidable (s.lastCheckTime ≤ now ∧ now < s.lastCheckTime + 256 * pqBucketTime 0))
  | .dequeueReady => isTrue trivial
  | .cancel _ => isTrue trivial

/-- the events that should be in the queue behind an operation; a check may free those that have been cancelled -/
def track (s : State E) (m : Set E) : Op E → Set E
  | .enqueue e _ _ => insert e m
  | .remove e => {x | x ∈ m ∧ x ≠ e}
  | .dequeueReady => {x | x ∈ m ∧ s.dequeueReady.2 ≠ some x}
  | .checkReady now => {x | x ∈ m ∧ (s.cancelled x = false ∨ (s.checkReady now).inThePriorityQueue x = true)}
  | .cancel _ => m

/-- the same behind a run -/
def members (s : State E) (m : Set E) : List (Op E) → Set E
  | [] => m
  | op :: ops => members (step s op) (track s m op) ops

end Runs

/-! ## Buckets -/

theorem two_pow_le_of_lt_todoLists {fuel todo i : ℕ} (hf : todo ≤ fuel) : i < State.todoLists fuel todo ↔ 2 ^ i ≤ todo := by
  induction fuel generalizing todo i with
  | zero =>
    have hpos : 0 < 2 ^ i := Nat.two_pow_pos i
    rw [State.todoLists]
    omega
  | succ fuel ih =>
    rw [State.todoLists]
    split_ifs with h0
    · have hpos : 0 < 2 ^ i := Nat.two_pow_pos i
      omega
    · cases i with
      | zero =>
        rw [pow_zero]
        omega
      | succ i =>
        rw [Nat.succ_lt_succ_iff, ih (by omega), pow_succ, Nat.le_div_iff_mul_le Nat.two_pos]

/-- Two counters that are close do not differ from bit `j` on, if the nine bits that are looked at do not. -/
theorem div_eq_of_xor_lt {a b j : ℕ} (hj : j < 9) (hle : a ≤ b) (hb : b ≤ a + 256) (hxor : (b ^^^ a) % 2 ^ 9 < 2 ^ j) :
    a / 2 ^ j = b / 2 ^ j := by
  have hsplit : 2 ^ 9 = 2 ^ j * 2 ^ (9 - j) := by rw [← pow_add]; congr 1; omega
  have hlow : (b / 2 ^ j ^^^ a / 2 ^ j) % 2 ^ (9 - j) = 0 := by
    rw [← Nat.xor_div_two_pow, ← Nat.mod_mul_right_div_self, ← hsplit]
    exact Nat.div_eq_of_lt hxor
  rw [Nat.xor_mod_two_pow, Nat.xor_eq_zero_iff] at hlow
  have hmono : a / 2 ^ j ≤ b / 2 ^ j := Nat.div_le_div_right hle
  obtain ⟨m, hm⟩ : 2 ^ (9 - j) ∣ b / 2 ^ j - a / 2 ^ j := (Nat.modEq_iff_dvd' hmono).mp hlow.symm
  cases m with
  | zero => omega
  | succ m =>
    -- the counters would be more than 256 apart
    exfalso
    have hpow : 2 ^ j ≤ 256 := Nat.pow_le_pow_right Nat.two_pos (by omega : j ≤ 8)
    have h1 : a < 2 ^ j * (a / 2 ^ j) + 2 ^ j := Nat.lt_mul_div_succ a (Nat.two_pow_pos j)
    have h2 : 2 ^ j * (b / 2 ^ j) ≤ b := Nat.mul_div_le b (2 ^ j)
    have h3 : b / 2 ^ j = a / 2 ^ j + 2 ^ (9 - j) * (m + 1) := by omega
    have h4 : 2 ^ j * (b / 2 ^ j) = 2 ^ j * (a / 2 ^ j) + 2 ^ 9 * (m + 1) := by
      rw [h3, Nat.mul_add, hsplit, Nat.mul_assoc]
    omega

/-- The time is behind the next multiple of the bucket time of the list before list `i`. -/
def Late (now i : ℕ) (t : ℤ) : Prop := ((now / pqBucketTime (i - 1) + 1) * pqBucketTime (i - 1) : ℕ) ≤ t

theorem pqBucketTime_pos (i : ℕ) : 0 < pqBucketTime i := Nat.mul_pos (by decide) (Nat.two_pow_pos i)

theorem late_of_lt {now i : ℕ} {t : ℤ} (h : (pqBucketTime (i - 1) : ℤ) < t - now) : Late now i t := by
  have hdiv : now / pqBucketTime (i - 1) * pqBucketTime (i - 1) ≤ now := Nat.div_mul_le_self _ _
  rw [Late, Nat.add_mul, Nat.one_mul]
  omega

theorem Late.lt {now i : ℕ} {t : ℤ} (h : Late now i t) : (now : ℤ) < t := by
  have hlt := Nat.lt_mul_div_succ now (pqBucketTime_pos (i - 1))
  rw [Nat.mul_comm] at hlt
  exact lt_of_lt_of_le (Int.ofNat_lt.mpr hlt) h

/-- until the list is looked at again -/
theorem Late.mono {last now i : ℕ} {t : ℤ} (h : Late last i t) (hi : 0 < i ∧ i < nPqList) (hle : last ≤ now)
    (hnow : now < last + 256 * pqBucketTime 0) (hbits : (buckets now ^^^ buckets last) &&& (2 ^ (nPqList - 1) - 1) < 2 ^ (i - 1)) :
    Late now i t := by
  have hdiv : ∀ n : ℕ, n / pqBucketTime (i - 1) = n / pqBucketTime 0 / 2 ^ (i - 1) := by
    intro n
    rw [Nat.div_div_eq_div_mul, pqBucketTime, pqBucketTime, pow_zero, Nat.mul_one]
  have hticks : now / pqBucketTime 0 ≤ last / pqBucketTime 0 + 256 := by
    rw [← Nat.add_mul_div_right _ _ (pqBucketTime_pos 0)]
    exact Nat.div_le_div_right hnow.le
  have hxor : (now / pqBucketTime 0 ^^^ last / pqBucketTime 0) % 2 ^ 9 < 2 ^ (i - 1) := by
    rw [Nat.and_two_pow_sub_one_eq_mod, buckets, buckets, ← Nat.xor_mod_two_pow, Nat.mod_mod_of_dvd _ (by decide)] at hbits
    exact hbits
  have heq := div_eq_of_xor_lt (by unfold nPqList at hi; omega) (Nat.div_le_div_right hle) hticks hxor
  rw [Late, hdiv, ← heq, ← hdiv]
  exact h

section Lists

variable [DecidableEq E]

omit [DecidableEq E] in
theorem listFrom_spec (t : ℤ) (i : ℕ) : State.listFrom t i ≤ i ∧ (0 < State.listFrom t i → (pqBucketTime (State.listFrom t i - 1) : ℤ) < t) := by
  induction i with
  | zero => exact ⟨le_rfl, fun h => absurd h (lt_irrefl 0)⟩
  | succ i ih =>
    rw [State.listFrom]
    split_ifs with h
    · exact ⟨ih.1.trans (Nat.le_succ i), ih.2⟩
    · exact ⟨le_rfl, fun _ => not_le.mp h⟩

omit [DecidableEq E] in
theorem enqueueList_spec (t : ℤ) : State.enqueueList t < nPqList ∧ (0 < State.enqueueList t → (pqBucketTime (State.enqueueList t - 1) : ℤ) < t) := by
  unfold State.enqueueList nPqList
  split_ifs <;> exact ⟨by decide, fun h => by first | exact not_le.mp ‹_› | exact absurd h (lt_irrefl 0)⟩

/-! ## Placement -/

/-- The events in the queue, without those of `q`, are each in the list that `in_heap` names, and in a list that has been looked at at that time
only what has to wait. -/
structure Placed (now : ℕ) (seen : ℕ → Prop) (s : State E) (q : List E) : Prop where
  mem : ∀ e i, e ∈ s.after i ↔ s.inThePriorityQueue e = true ∧ s.inHeap e = i ∧ e ∉ q
  nodup : ∀ i, (s.after i).Nodup
  lt : ∀ e, s.inThePriorityQueue e = true → e ∉ q → s.inHeap e < nPqList
  late : ∀ e, s.inThePriorityQueue e = true → e ∉ q → 0 < s.inHeap e → seen (s.inHeap e) → Late now (s.inHeap e) (s.timeoutAt e)
  restNodup : q.Nodup
  rest : ∀ e ∈ q, s.inThePriorityQueue e = true

variable {now i : ℕ} {seen : ℕ → Prop} {s s' : State E} {e : E} {q : List E}

theorem Placed.putIn (h : Placed now seen s (e :: q)) (hi : i < nPqList) (hlate : 0 < i → Late now i (s.timeoutAt e)) :
    Placed now seen (s.putIn i e) q := by
  have hne : ∀ x, x ≠ e → (x ∉ e :: q ↔ x ∉ q) := fun x hx => by rw [List.mem_cons, not_or, and_iff_right hx]
  have heq : e ∉ q := (List.nodup_cons.mp h.restNodup).1
  have hself : Function.update s.inHeap e i e = i := Function.update_self ..
  have hother : ∀ x, x ≠ e → Function.update s.inHeap e i x = s.inHeap x := fun x hx => Function.update_of_ne hx ..
  refine ⟨fun x j => ?_, fun j => ?_, fun x hx hxq => ?_, fun x hx hxq hpos hseen => ?_, (List.nodup_cons.mp h.restNodup).2,
    fun x hx => h.rest x (List.mem_cons_of_mem e hx)⟩
  · show x ∈ Function.update s.after i (s.after i ++ [e]) j ↔ s.inThePriorityQueue x = true ∧ Function.update s.inHeap e i x = j ∧ x ∉ q
    by_cases hx : x = e
    · rw [hx, hself]
      by_cases hj : j = i
      · rw [hj, Function.update_self]
        exact iff_of_true (List.mem_append_right _ List.mem_cons_self) ⟨h.rest e List.mem_cons_self, rfl, heq⟩
      · rw [Function.update_of_ne hj, h.mem]
        exact iff_of_false (fun hc => hc.2.2 List.mem_cons_self) fun hc => hj hc.2.1.symm
    · rw [hother x hx, ← hne x hx, ← h.mem]
      by_cases hj : j = i
      · rw [hj, Function.update_self, List.mem_append, List.mem_singleton]
        exact or_iff_left hx
      · rw [Function.update_of_ne hj]
  · show (Function.update s.after i (s.after i ++ [e]) j).Nodup
    by_cases hj : j = i
    · rw [hj, Function.update_self]
      refine List.nodup_append.mpr ⟨h.nodup i, List.nodup_singleton e, fun a ha b hb => ?_⟩
      rw [List.mem_singleton.mp hb]
      rintro rfl
      exact ((h.mem a i).mp ha).2.2 List.mem_cons_self
    · rw [Function.update_of_ne hj]
      exact h.nodup j
  · show Function.update s.inHeap e i x < nPqList
    by_cases hxe : x = e
    · rwa [hxe, hself]
    · rw [hother x hxe]
      exact h.lt x hx ((hne x hxe).mpr hxq)
  · have hx' : s.inThePriorityQueue x = true := hx
    show Late now (Function.update s.inHeap e i x) (s.timeoutAt x)
    have hpos' : 0 < Function.update s.inHeap e i x := hpos
    have hseen' : seen (Function.update s.inHeap e i x) := hseen
    by_cases hxe : x = e
    · rw [hxe, hself] at hpos' ⊢
      exact hlate hpos'
    · rw [hother x hxe] at hpos' hseen' ⊢
      exact h.late x hx' ((hne x hxe).mpr hxq) hpos' hseen'

/-- an event of `q` leaves the queue -/
theorem Placed.drop (h : Placed now seen s (e :: q)) (hafter : s'.after = s.after) (hinHeap : s'.inHeap = s.inHeap) (htimeout : s'.timeoutAt = s.timeoutAt)
    (hflag : s'.inThePriorityQueue = Function.update s.inThePriorityQueue e false) : Placed now seen s' q := by
  have hne : ∀ x, x ≠ e → (x ∉ e :: q ↔ x ∉ q) := fun x hx => by rw [List.mem_cons, not_or, and_iff_right hx]
  have heq : e ∉ q := (List.nodup_cons.mp h.restNodup).1
  have hother : ∀ x, s'.inThePriorityQueue x = true → x ≠ e ∧ s.inThePriorityQueue x = true := by
    intro x hx
    rw [hflag] at hx
    have hxe : x ≠ e := by
      rintro rfl
      rw [Function.update_self] at hx
      cases hx
    rw [Function.update_of_ne hxe] at hx
    exact ⟨hxe, hx⟩
  refine ⟨fun x j => ?_, fun j => ?_, fun x hx hxq => ?_, fun x hx hxq hpos hseen => ?_, (List.nodup_cons.mp h.restNodup).2, fun x hx => ?_⟩
  · rw [hafter, hinHeap, h.mem]
    by_cases hx : x = e
    · rw [hx]
      exact iff_of_false (fun hc => hc.2.2 List.mem_cons_self) fun hc => (hother e hc.1).1 rfl
    · rw [hflag, Function.update_of_ne hx, hne x hx]
  · rw [hafter]
    exact h.nodup j
  · rw [hinHeap]
    exact h.lt x (hother x hx).2 ((hne x (hother x hx).1).mpr hxq)
  · rw [hinHeap] at hpos hseen ⊢
    rw [htimeout]
    exact h.late x (hother x hx).2 ((hne x (hother x hx).1).mpr hxq) hpos hseen
  · have hxe : x ≠ e := by
      rintro rfl
      exact heq hx
    rw [hflag, Function.update_of_ne hxe]
    exact h.rest x (List.mem_cons_of_mem e hx)

omit [DecidableEq E] in
/-- list `i` is taken out -/
theorem Placed.takeOut (h : Placed now seen s []) {seen' : ℕ → Prop} (hseen : ∀ j, j ≠ i → seen' j → seen j) :
    Placed now seen' { s with after := Function.update s.after i [] } (s.after i) := by
  have hin : ∀ x, x ∈ s.after i ↔ s.inThePriorityQueue x = true ∧ s.inHeap x = i := fun x => by simpa using h.mem x i
  refine ⟨fun x j => ?_, fun j => ?_, fun x hx _ => h.lt x hx List.not_mem_nil, fun x hx hxq hpos hs => ?_, h.nodup i, fun x hx => ((hin x).mp hx).1⟩
  · show x ∈ Function.update s.after i [] j ↔ s.inThePriorityQueue x = true ∧ s.inHeap x = j ∧ x ∉ s.after i
    by_cases hj : j = i
    · rw [hj, Function.update_self, hin]
      exact iff_of_false List.not_mem_nil fun hc => hc.2.2 ⟨hc.1, hc.2.1⟩
    · rw [Function.update_of_ne hj, h.mem, hin]
      refine and_congr_right fun _ => and_congr_right fun hxj => iff_of_true List.not_mem_nil ?_
      rintro ⟨-, hxi⟩
      exact hj (hxj.symm.trans hxi)
  · show (Function.update s.after i [] j).Nodup
    by_cases hj : j = i
    · rw [hj, Function.update_self]
      exact List.nodup_nil
    · rw [Function.update_of_ne hj]
      exact h.nodup j
  · have hne : s.inHeap x ≠ i := fun hxi => hxq ((hin x).mpr ⟨hx, hxi⟩)
    exact h.late x hx List.not_mem_nil hpos (hseen _ hne hs)

/-- a check frees no event that has not been cancelled, and leaves the timeouts alone -/
structure Kept (s s' : State E) : Prop where
  timeoutAt : s'.timeoutAt = s.timeoutAt
  lastCheck : s'.lastCheckTime = s.lastCheckTime ∧ s'.lastCheckBuckets = s.lastCheckBuckets
  queued : ∀ e, s'.inThePriorityQueue e = true → s.inThePriorityQueue e = true
  stays : ∀ e, s.cancelled e = false → s'.inThePriorityQueue e = s.inThePriorityQueue e ∧ s'.cancelled e = false

omit [DecidableEq E] in
theorem Kept.refl (s : State E) : Kept s s := ⟨rfl, ⟨rfl, rfl⟩, fun _ h => h, fun _ h => ⟨rfl, h⟩⟩

omit [DecidableEq E] in
theorem Kept.trans {s'' : State E} (h : Kept s s') (h' : Kept s' s'') : Kept s s'' := by
  refine ⟨h'.timeoutAt.trans h.timeoutAt, ⟨h'.lastCheck.1.trans h.lastCheck.1, h'.lastCheck.2.trans h.lastCheck.2⟩, fun e he => h.queued e (h'.queued e he),
    fun e he => ?_⟩
  obtain ⟨h1, h2⟩ := h.stays e he
  obtain ⟨h3, h4⟩ := h'.stays e h2
  exact ⟨h3.trans h1, h4⟩

/-! ## A check -/

theorem recheck_spec (h : Placed now seen s (e :: q)) (hi : i < nPqList) :
    Placed now seen (State.recheck now i s e) q ∧ Kept s (State.recheck now i s e) := by
  unfold State.recheck
  split_ifs with hc
  · refine ⟨h.drop rfl rfl rfl rfl, rfl, ⟨rfl, rfl⟩, fun x hx => ?_, fun x hx => ?_⟩
    · by_cases hxe : x = e
      · rw [hxe]
        exact h.rest e List.mem_cons_self
      · have hx' : Function.update s.inThePriorityQueue e false x = true := hx
        rwa [Function.update_of_ne hxe] at hx'
    · have hxe : x ≠ e := by
        rintro rfl
        rw [hx] at hc
        cases hc
      exact ⟨Function.update_of_ne hxe .., (Function.update_of_ne hxe ..).trans hx⟩
  · obtain ⟨hle, hlt⟩ := listFrom_spec (s.timeoutAt e - now) i
    exact ⟨h.putIn (lt_of_le_of_lt hle hi) fun hpos => late_of_lt (hlt hpos), rfl, ⟨rfl, rfl⟩, fun _ hx => hx, fun _ hx => ⟨rfl, hx⟩⟩

/-- the events of a list -/
theorem recheck_foldl (h : Placed now seen s q) (hi : i < nPqList) :
    Placed now seen (q.foldl (State.recheck now i) s) [] ∧ Kept s (q.foldl (State.recheck now i) s) := by
  induction q generalizing s with
  | nil => exact ⟨h, Kept.refl s⟩
  | cons e q ih =>
    obtain ⟨h1, h2⟩ := recheck_spec h hi
    obtain ⟨h3, h4⟩ := ih h1
    exact ⟨h3, h2.trans h4⟩

theorem recheckList_spec (h : Placed now seen s []) {seen' : ℕ → Prop} (hseen : ∀ j, j ≠ i → seen' j → seen j) (hi : i < nPqList) :
    Placed now seen' (State.recheckList now s i) [] ∧ Kept s (State.recheckList now s i) := by
  obtain ⟨h1, h2⟩ := recheck_foldl (h.takeOut hseen) hi
  have hkept : Kept s { s with after := Function.update s.after i [] } := ⟨rfl, ⟨rfl, rfl⟩, fun _ hx => hx, fun _ hx => ⟨rfl, hx⟩⟩
  exact ⟨h1, hkept.trans h2⟩

/-- the first `n` lists above list 0 -/
theorem recheckLists_spec (h : Placed now seen s []) (n : ℕ) (hn : n < nPqList) :
    Placed now (fun j => j ≤ n ∨ seen j) (((List.range n).map (· + 1)).foldl (State.recheckList now) s) [] ∧
      Kept s (((List.range n).map (· + 1)).foldl (State.recheckList now) s) := by
  induction n with
  | zero =>
    refine ⟨⟨h.mem, h.nodup, h.lt, fun e he hq hpos hs => h.late e he hq hpos (hs.resolve_left (by omega)), h.restNodup, h.rest⟩, Kept.refl s⟩
  | succ n ih =>
    obtain ⟨h1, h2⟩ := ih (by omega)
    rw [List.range_succ, List.map_append, List.foldl_append]
    have hseen : ∀ j, j ≠ n + 1 → j ≤ n + 1 ∨ seen j → j ≤ n ∨ seen j := fun j hj hs => hs.imp_left fun hle => by omega
    obtain ⟨h3, h4⟩ := recheckList_spec h1 hseen hn
    exact ⟨h3, h2.trans h4⟩

/-! ## The invariant -/

structure Inv (s : State E) (m : Set E) : Prop where
  placed : Placed s.lastCheckTime (fun _ => True) s []
  lastCheckBuckets : s.lastCheckBuckets = buckets s.lastCheckTime
  members : ∀ e, s.inThePriorityQueue e = true ↔ e ∈ m

variable {m : Set E}

theorem checkReady_spec (h : Inv s m) (hok : Allowed s (.checkReady now)) :
    Inv (s.checkReady now) (track s m (.checkReady now)) ∧ (s.checkReady now).lastCheckTime = now ∧
      Kept { s with lastCheckTime := now, lastCheckBuckets := buckets now } (s.checkReady now) := by
  have hle := hok.1
  obtain ⟨todo, htodo⟩ : ∃ todo, todo = (buckets now ^^^ s.lastCheckBuckets) &&& (2 ^ (nPqList - 1) - 1) := ⟨_, rfl⟩
  have hiff : ∀ i, i < State.todoLists todo todo ↔ 2 ^ i ≤ todo := fun i => two_pow_le_of_lt_todoLists le_rfl
  have hlists : State.todoLists todo todo < nPqList := by
    have hlt : todo < 2 ^ 9 := by
      rw [htodo, Nat.and_two_pow_sub_one_eq_mod]
      exact Nat.mod_lt _ (Nat.two_pow_pos _)
    have hnot : ¬ 9 < State.todoLists todo todo := fun hn => absurd ((hiff 9).mp hn) (not_le.mpr hlt)
    unfold nPqList
    omega
  -- the lists that are not looked at again
  have hstart : Placed now (fun j => State.todoLists todo todo < j) { s with lastCheckTime := now, lastCheckBuckets := buckets now } [] := by
    refine ⟨h.placed.mem, h.placed.nodup, h.placed.lt, fun e he hq hpos hseen => ?_, h.placed.restNodup, h.placed.rest⟩
    refine (h.placed.late e he hq hpos trivial).mono ⟨hpos, h.placed.lt e he List.not_mem_nil⟩ hle hok.2 ?_
    rw [← h.lastCheckBuckets, ← htodo]
    exact not_le.mp fun hn => absurd ((hiff _).mpr hn) (not_lt.mpr (Nat.le_sub_one_of_lt hseen))
  have hcheck : s.checkReady now = ((List.range (State.todoLists todo todo)).map (· + 1)).foldl (State.recheckList now)
      { s with lastCheckTime := now, lastCheckBuckets := buckets now } := by rw [htodo]; rfl
  obtain ⟨hplaced, hkept⟩ := recheckLists_spec hstart _ hlists
  rw [← hcheck] at hplaced hkept
  have htime : (s.checkReady now).lastCheckTime = now := hkept.lastCheck.1
  refine ⟨⟨?_, ?_, fun e => ?_⟩, htime, hkept⟩
  · rw [htime]
    exact ⟨hplaced.mem, hplaced.nodup, hplaced.lt, fun e he hq hpos _ => hplaced.late e he hq hpos (le_or_gt _ _), hplaced.restNodup, hplaced.rest⟩
  · rw [htime]
    exact hkept.lastCheck.2
  · rw [track, Set.mem_ofPred_eq, ← h.members]
    constructor
    · intro he
      exact ⟨hkept.queued e he, Or.inr he⟩
    · rintro ⟨he, hc | he'⟩
      · exact (hkept.stays e hc).1.trans he
      · exact he'

/-- what has come to its time is in the first list -/
theorem checkReady_due (h : Inv s m) (hok : Allowed s (.checkReady now)) (he : s.inThePriorityQueue e = true) (hc : s.cancelled e = false)
    (hdue : s.timeoutAt e ≤ now) : e ∈ (s.checkReady now).after 0 := by
  obtain ⟨hinv, htime, hkept⟩ := checkReady_spec h hok
  have hqueued : (s.checkReady now).inThePriorityQueue e = true := (hkept.stays e hc).1.trans he
  refine (hinv.placed.mem e 0).mpr ⟨hqueued, ?_, List.not_mem_nil⟩
  by_contra hpos
  have hlate := hinv.placed.late e hqueued List.not_mem_nil (Nat.pos_of_ne_zero hpos) trivial
  rw [htime, hkept.timeoutAt] at hlate
  exact absurd hdue (not_le.mpr hlate.lt)

/-! ## The other operations -/

theorem enqueue_spec (h : Inv s m) {t : ℤ} (hok : Allowed s (.enqueue e t now)) : Inv (step s (.enqueue e t now)) (insert e m) := by
  obtain ⟨hnot, hle⟩ := hok
  have hnone : ∀ i, e ∉ s.after i := fun i hin => by
    have he := ((h.placed.mem e i).mp hin).1
    rw [hnot] at he
    cases he
  have hwait : Placed s.lastCheckTime (fun _ => True) { s with
      timeoutAt := Function.update s.timeoutAt e t
      inThePriorityQueue := Function.update s.inThePriorityQueue e true } [e] := by
    have hflag : ∀ x, x ∉ [e] → Function.update s.inThePriorityQueue e true x = s.inThePriorityQueue x := fun x hx =>
      Function.update_of_ne (fun hxe => hx (List.mem_singleton.mpr hxe)) ..
    refine ⟨fun x i => ?_, h.placed.nodup, fun x hx hxe => ?_, fun x hx hxe hpos _ => ?_, List.nodup_singleton e, fun x hx => ?_⟩
    · show x ∈ s.after i ↔ Function.update s.inThePriorityQueue e true x = true ∧ s.inHeap x = i ∧ x ∉ [e]
      by_cases hxe : x ∈ [e]
      · rw [List.mem_singleton.mp hxe]
        exact iff_of_false (hnone i) fun hc => hc.2.2 List.mem_cons_self
      · rw [hflag x hxe, h.placed.mem]
        exact and_congr_right fun _ => and_congr_right fun _ => iff_of_true List.not_mem_nil hxe
    · exact h.placed.lt x ((hflag x hxe).symm.trans hx) List.not_mem_nil
    · show Late s.lastCheckTime (s.inHeap x) (Function.update s.timeoutAt e t x)
      rw [Function.update_of_ne fun heq => hxe (List.mem_singleton.mpr heq)]
      exact h.placed.late x ((hflag x hxe).symm.trans hx) List.not_mem_nil hpos trivial
    · rw [List.mem_singleton.mp hx]
      exact Function.update_self ..
  have htime : Function.update s.timeoutAt e t e = t := Function.update_self ..
  obtain ⟨hlt, hwaits⟩ := enqueueList_spec (t - now)
  have hput : step s (.enqueue e t now) = State.putIn { s with
      timeoutAt := Function.update s.timeoutAt e t
      inThePriorityQueue := Function.update s.inThePriorityQueue e true } (State.enqueueList (t - now)) e := by
    rw [step, State.enqueue]
    dsimp only
    rw [htime]
  rw [hput]
  refine ⟨hwait.putIn hlt fun hpos => ?_, h.lastCheckBuckets, fun x => ?_⟩
  · show Late s.lastCheckTime _ (Function.update s.timeoutAt e t e)
    rw [htime]
    refine late_of_lt (lt_of_lt_of_le (hwaits hpos) ?_)
    omega
  · show Function.update s.inThePriorityQueue e true x = true ↔ x ∈ insert e m
    by_cases hxe : x = e
    · rw [hxe, Function.update_self]
      exact iff_of_true rfl (Set.mem_insert e m)
    · rw [Function.update_of_ne hxe, h.members]
      exact (or_iff_right hxe).symm

/-- one event leaves list `i` and the queue -/
theorem Inv.takeEvent (h : Inv s m) (he : e ∈ s.after i) {l : List E} (hl : ∀ x, x ∈ l ↔ x ∈ s.after i ∧ x ≠ e) (hnodup : l.Nodup) :
    Inv { s with inThePriorityQueue := Function.update s.inThePriorityQueue e false, after := Function.update s.after i l }
      {x | x ∈ m ∧ x ≠ e} := by
  have hflag := (h.placed.mem e i).mp he
  have hout : Placed s.lastCheckTime (fun _ => True) { s with after := Function.update s.after i l } [e] := by
    refine ⟨fun x j => ?_, fun j => ?_, fun x hx _ => h.placed.lt x hx List.not_mem_nil, fun x hx _ => h.placed.late x hx List.not_mem_nil,
      List.nodup_singleton e, fun x hx => ?_⟩
    · show x ∈ Function.update s.after i l j ↔ s.inThePriorityQueue x = true ∧ s.inHeap x = j ∧ x ∉ [e]
      have hold : x ∈ s.after j ↔ s.inThePriorityQueue x = true ∧ s.inHeap x = j := by simpa using h.placed.mem x j
      rw [List.mem_singleton, ← and_assoc, ← hold]
      by_cases hj : j = i
      · rw [hj, Function.update_self, hl]
      · rw [Function.update_of_ne hj]
        refine (and_iff_left_of_imp fun hx hxe => ?_).symm
        rw [hxe] at hx
        exact hj (((h.placed.mem e j).mp hx).2.1.symm.trans hflag.2.1)
    · show (Function.update s.after i l j).Nodup
      by_cases hj : j = i
      · rwa [hj, Function.update_self]
      · rw [Function.update_of_ne hj]
        exact h.placed.nodup j
    · rw [List.mem_singleton.mp hx]
      exact hflag.1
  refine ⟨hout.drop rfl rfl rfl rfl, h.lastCheckBuckets, fun x => ?_⟩
  show Function.update s.inThePriorityQueue e false x = true ↔ x ∈ m ∧ x ≠ e
  by_cases hxe : x = e
  · rw [hxe, Function.update_self]
    exact iff_of_false Bool.false_ne_true fun hc => hc.2 rfl
  · rw [Function.update_of_ne hxe, h.members]
    exact (and_iff_left hxe).symm

theorem remove_spec (h : Inv s m) (hok : Allowed s (.remove e)) : Inv (s.remove e) {x | x ∈ m ∧ x ≠ e} := by
  have he : e ∈ s.after (s.inHeap e) := (h.placed.mem e _).mpr ⟨hok, rfl, List.not_mem_nil⟩
  have hnodup := h.placed.nodup (s.inHeap e)
  exact h.takeEvent he (fun x => by rw [hnodup.mem_erase_iff, and_comm]) (hnodup.erase e)

theorem dequeueReady_spec (h : Inv s m) : Inv s.dequeueReady.1 {x | x ∈ m ∧ s.dequeueReady.2 ≠ some x} := by
  cases hl : s.after 0 with
  | nil =>
    have heq : s.dequeueReady = (s, none) := by rw [State.dequeueReady, hl]
    rw [heq]
    refine ⟨h.placed, h.lastCheckBuckets, fun x => ?_⟩
    rw [h.members]
    exact (and_iff_left (by simp)).symm
  | cons e q =>
    have hnodup := h.placed.nodup 0
    rw [hl, List.nodup_cons] at hnodup
    have heq : s.dequeueReady = ({ s with
        inThePriorityQueue := Function.update s.inThePriorityQueue e false
        after := Function.update s.after 0 q }, some e) := by rw [State.dequeueReady, hl]
    have htake := h.takeEvent (i := 0) (e := e) (l := q) (by rw [hl]; exact List.mem_cons_self) (fun x => ?_) hnodup.2
    · have hset : {x | x ∈ m ∧ some e ≠ some x} = {x | x ∈ m ∧ x ≠ e} := by
        ext x
        simp [eq_comm]
      rw [heq, hset]
      exact htake
    · rw [hl, List.mem_cons]
      constructor
      · intro hx
        refine ⟨Or.inr hx, ?_⟩
        rintro rfl
        exact hnodup.1 hx
      · rintro ⟨hx, hne⟩
        exact hx.resolve_left hne

/-! ## Runs -/

theorem step_inv (h : Inv s m) {op : Op E} (hok : Allowed s op) : Inv (step s op) (track s m op) := by
  cases op with
  | enqueue e t now => exact enqueue_spec h hok
  | remove e => exact remove_spec h hok
  | dequeueReady => exact dequeueReady_spec h
  | checkReady now => exact (checkReady_spec h hok).1
  | cancel e =>
    exact ⟨⟨h.placed.mem, h.placed.nodup, h.placed.lt, h.placed.late, h.placed.restNodup, h.placed.rest⟩, h.lastCheckBuckets, h.members⟩

theorem run_inv (h : Inv s m) (ops : List (Op E)) (hok : Along step Allowed s ops) : Inv (ops.foldl step s) (members s m ops) := by
  induction ops generalizing s m with
  | nil => exact h
  | cons op ops ih => exact ih (step_inv h hok.1) hok.2

omit [DecidableEq E] in
theorem init_inv (now : ℕ) (timeoutAt : E → ℤ) (inHeap : E → ℕ) (cancelled : E → Bool) : Inv (State.init now timeoutAt inHeap cancelled) ∅ where
  placed := ⟨fun _ _ => by simp [State.init], fun _ => List.nodup_nil, fun _ he => absurd he Bool.false_ne_true, fun _ he => absurd he Bool.false_ne_true, List.nodup_nil,
    fun _ he => absurd he List.not_mem_nil⟩
  lastCheckBuckets := rfl
  members := fun _ => by simp [State.init]

/-- In every run whose checks are less than 256 ticks apart: the events in the queue are those that should be, each once in the list that `in_heap` names; and
a check brings those that have come to their time, and have not been cancelled, into the first list. -/
theorem timers_complete (start : ℕ) (timeoutAt : E → ℤ) (inHeap : E → ℕ) (cancelled : E → Bool) (ops : List (Op E))
    (hok : Along step Allowed (State.init start timeoutAt inHeap cancelled) ops) :
    let s := ops.foldl step (State.init start timeoutAt inHeap cancelled)
    (∀ now e, Allowed s (.checkReady now) → s.inThePriorityQueue e = true → s.cancelled e = false → s.timeoutAt e ≤ now → e ∈ (s.checkReady now).after 0) ∧
      (∀ e, s.inThePriorityQueue e = true → s.inHeap e < nPqList ∧ ∀ i, (s.after i).count e = if s.inHeap e = i then 1 else 0) ∧
      (∀ e, s.inThePriorityQueue e = false → ∀ i, e ∉ s.after i) ∧
      ∀ e, s.inThePriorityQueue e = true ↔ e ∈ members (State.init start timeoutAt inHeap cancelled) ∅ ops := by
  intro s
  have h : Inv s _ := run_inv (init_inv start timeoutAt inHeap cancelled) ops hok
  refine ⟨fun now e hcheck he hc hdue => checkReady_due h hcheck he hc hdue, fun e he => ⟨h.placed.lt e he List.not_mem_nil, fun i => ?_⟩,
    fun e he i hin => ?_, h.members⟩
  · have hmem : e ∈ s.after i ↔ s.inHeap e = i := by simpa [he] using h.placed.mem e i
    split_ifs with hi
    · exact List.count_eq_one_of_mem (h.placed.nodup i) (hmem.mpr hi)
    · exact List.count_eq_zero_of_not_mem fun hin => hi (hmem.mp hin)
  · have hin' := ((h.placed.mem e i).mp hin).1
    rw [he] at hin'
    cases hin'

end Lists

/-- two timers, one of which is cancelled -/
def twoTimers : List (Op ℕ) := [.enqueue 1 30000000 1000000, .enqueue 2 900000000 2000000, .checkReady 12000000, .cancel 2]

/-- The other is ready after 31 ms. -/
theorem twoTimers_complete : 1 ∈ ((twoTimers.foldl step (State.init 0 (fun _ => 0) (fun _ => 0) fun _ => false)).checkReady 31000000).after 0 :=
  (timers_complete 0 (fun _ => 0) (fun _ => 0) (fun _ => false) twoTimers (by decide)).1 31000000 1 (by decide) (by decide) (by decide) (by decide)

end TrafficServer.EventSystem.Timers
