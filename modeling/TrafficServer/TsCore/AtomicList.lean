/-
The lock-free list of `src/tscore/ink_queue.cc` (`ink_atomiclist_push`, `ink_atomiclist_pop`, `ink_atomiclist_popall`), under any interleaving
of its threads. `freelist_free` and `freelist_new` are the same two loops.

The head is a pointer with a version of `w` bits, 16 or 64 with the width of the compare-and-swap, and only a pop counts it on. A step of a
thread is one access to what the threads share: the load of the head, the link of an item, the compare-and-swap. Memory is sequentially
consistent. `history` is what the calls have done, in the order of their compare-and-swaps.

`history_legal`: as long as an item is pushed only by who has it, and no pop sleeps through `2 ^ w` others between its load and its
compare-and-swap, the history is one of a stack whose operations are atomic, and the links are that stack. The source says why the version
is there, and the last example is the list without it.
-/
import TrafficServer.Lib.LinkSeg
import TrafficServer.Lib.Run

namespace TrafficServer.TsCore.AtomicList

open TrafficServer.LinkSeg TrafficServer.Run

/-! ## The list -/

/-- `head_p` -/
structure Head (w : ℕ) where
  pointer : Option ℕ
  version : BitVec w
deriving DecidableEq

/-- where a thread is in one of the three loops -/
inductive Pc (w : ℕ) where
  | idle
  | push (item : ℕ)
  | pushLoaded (item : ℕ) (head : Head w)
  | pushLinked (item : ℕ) (head : Head w)
  | pop
  | popLoaded (item : ℕ) (version : BitVec w)
  | popRead (item : ℕ) (version : BitVec w) (next : Option ℕ)
  | popped (item : ℕ)
  | popall
  | popallLoaded (head : Head w)

/-- what a call has done, with what it returns -/
inductive Event where
  | pushed (item : ℕ) (h : Option ℕ)
  | popped (ret : Option ℕ)
  | poppedAll (ret : Option ℕ)

structure State (w : ℕ) where
  head : Head w
  next : ℕ → Option ℕ
  pc : ℕ → Pc w
  history : List Event
  /-- how often the version has been counted on since the pop of a thread has loaded the head -/
  since : ℕ → ℕ

inductive Op where
  | push (item : ℕ)
  | pop
  | popall

inductive Act where
  | call (t : ℕ) (op : Op)
  | run (t : ℕ)

namespace State

variable {w : ℕ}

/-- `ink_atomiclist_init` -/
def init : State w := ⟨⟨none, 0⟩, fun _ => none, fun _ => .idle, [], fun _ => 0⟩

def goto (s : State w) (t : ℕ) (pc : Pc w) : State w := { s with pc := Function.update s.pc t pc }

def setNext (s : State w) (item : ℕ) (next : Option ℕ) : State w := { s with next := Function.update s.next item next }

def did (s : State w) (event : Event) : State w := { s with history := s.history ++ [event] }

/-- the compare-and-swap of a pop has been successful -/
def countOn (s : State w) (pointer : Option ℕ) : State w :=
  { s with head := ⟨pointer, s.head.version + 1⟩, since := fun t => s.since t + 1 }

/-- the next access of a thread -/
def run (s : State w) (t : ℕ) : State w :=
  match s.pc t with
  | .idle => s
  | .push item => s.goto t (.pushLoaded item s.head)
  | .pushLoaded item head => (s.setNext item head.pointer).goto t (.pushLinked item head)
  | .pushLinked item head =>
    if s.head = head then ({ s with head := ⟨some item, head.version⟩ }.did (.pushed item head.pointer)).goto t .idle
    else s.goto t (.push item)
  | .pop =>
    match s.head.pointer with
    | none => (s.did (.popped none)).goto t .idle
    | some item => { s with since := Function.update s.since t 0 }.goto t (.popLoaded item s.head.version)
  | .popLoaded item version => s.goto t (.popRead item version (s.next item))
  | .popRead item version next =>
    if s.head = ⟨some item, version⟩ then ((s.countOn next).did (.popped (some item))).goto t (.popped item) else s.goto t .pop
  | .popped item => (s.setNext item none).goto t .idle
  | .popall =>
    match s.head.pointer with
    | none => (s.did (.poppedAll none)).goto t .idle
    | some _ => s.goto t (.popallLoaded s.head)
  | .popallLoaded head =>
    if s.head = head then ((s.countOn none).did (.poppedAll head.pointer)).goto t .idle else s.goto t .popall

/-- a thread that is idle can call -/
def call (s : State w) (t : ℕ) (op : Op) : State w :=
  match s.pc t, op with
  | .idle, .push item => s.goto t (.push item)
  | .idle, .pop => s.goto t .pop
  | .idle, .popall => s.goto t .popall
  | _, _ => s

def step (s : State w) : Act → State w
  | .call t op => s.call t op
  | .run t => s.run t

end State

/-! ## The stack -/

/-- an atomic operation on a stack, if it returns what the event says -/
def apply (l : List ℕ) : Event → Option (List ℕ)
  | .pushed item h => if h = l.head? then some (item :: l) else none
  | .popped ret => if ret = l.head? then some l.tail else none
  | .poppedAll ret => if ret = l.head? then some [] else none

def replay (history : List Event) : Option (List ℕ) := history.foldlM apply []

theorem replay_append {history : List Event} {l l' : List ℕ} {event : Event} (h : replay history = some l) (happly : apply l event = some l') :
    replay (history ++ [event]) = some l' := by
  rw [replay] at h ⊢
  rw [List.foldlM_append, h]
  simpa using happly

/-! ## The invariant -/

variable {w : ℕ} {s : State w} {l : List ℕ} {t : ℕ}

/-- the item that a thread has for itself -/
def Pc.item : Pc w → Option ℕ
  | .push item | .pushLoaded item _ | .pushLinked item _ | .popped item => some item
  | _ => none

/-- what a thread knows: as long as the version has not been counted on, the item it has loaded is in the list -/
def Knows (s : State w) (l : List ℕ) (t : ℕ) : Pc w → Prop
  | .pushLinked item head => s.next item = head.pointer
  | .popLoaded item version => s.head.version = version + BitVec.ofNat w (s.since t) ∧ (s.since t = 0 → item ∈ l)
  | .popRead item version next =>
    s.head.version = version + BitVec.ofNat w (s.since t) ∧ (s.since t = 0 → item ∈ l ∧ next = s.next item)
  | _ => True

/-- the invariant for the threads of `T` -/
structure Inv (T : Set ℕ) (s : State w) (l : List ℕ) : Prop where
  history : replay s.history = some l
  links : LSeg s.next s.head.pointer l none
  held : ∀ u ∈ T, ∀ x, (s.pc u).item = some x → x ∉ l
  apart : ∀ u ∈ T, ∀ u' ∈ T, ∀ x, (s.pc u).item = some x → (s.pc u').item = some x → u = u'
  knows : ∀ u ∈ T, Knows s l u (s.pc u)

/-- the item is neither in the list nor with a thread -/
def Outside (s : State w) (item : ℕ) : Prop :=
  (∀ u, (s.pc u).item ≠ some item) ∧ ∀ l, replay s.history = some l → item ∉ l

/-- only who has an item pushes it, and no pop sleeps through `2 ^ w` others -/
def Permitted (s : State w) : Act → Prop
  | .call _ (.push item) => Outside s item
  | .call _ _ => True
  | .run t => ∀ item version next, s.pc t = .popRead item version next → s.since t < 2 ^ w

/-- nobody but `t` has the item -/
def Own (s : State w) (l : List ℕ) (t : ℕ) (item : ℕ) : Prop := item ∉ l ∧ ∀ u ≠ t, (s.pc u).item ≠ some item

theorem Inv.rest (h : Inv Set.univ s l) (t : ℕ) : Inv {t}ᶜ s l :=
  ⟨h.history, h.links, fun u _ => h.held u trivial, fun u _ u' _ => h.apart u trivial u' trivial, fun u _ => h.knows u trivial⟩

theorem Inv.own (h : Inv Set.univ s l) {item : ℕ} (hitem : (s.pc t).item = some item) : Own s l t item :=
  ⟨h.held t trivial item hitem, fun u hne hu => hne (h.apart u trivial t trivial item hu hitem)⟩

theorem Own.only {item : ℕ} (h : Own s l t item) (x : ℕ) (hx : some item = some x) : Own s l t x := Option.some.inj hx ▸ h

theorem head?_of_links {next : ℕ → Option ℕ} {o : Option ℕ} (h : LSeg next o l none) : o = l.head? := by
  cases l with
  | nil => exact h
  | cons x l => exact h.1

/-- the thread moves on, and has an item only where nobody else has it -/
theorem Inv.goto (h : Inv {t}ᶜ s l) {pc : Pc w} (hitem : ∀ x, pc.item = some x → Own s l t x) (hknows : Knows s l t pc) :
    Inv Set.univ (s.goto t pc) l := by
  have hself : (s.goto t pc).pc t = pc := Function.update_self ..
  have hother : ∀ u ≠ t, (s.goto t pc).pc u = s.pc u := fun u hne => Function.update_of_ne hne ..
  refine ⟨h.history, h.links, fun u _ x hx => ?_, fun u _ u' _ x hu hu' => ?_, fun u _ => ?_⟩
  · by_cases hne : u = t
    · rw [hne, hself] at hx
      exact (hitem x hx).1
    · rw [hother u hne] at hx
      exact h.held u hne x hx
  · by_cases hne : u = t
    · by_cases hne' : u' = t
      · rw [hne, hne']
      · rw [hne, hself] at hu
        rw [hother u' hne'] at hu'
        exact absurd hu' ((hitem x hu).2 u' hne')
    · rw [hother u hne] at hu
      by_cases hne' : u' = t
      · rw [hne', hself] at hu'
        exact absurd hu ((hitem x hu').2 u hne)
      · rw [hother u' hne'] at hu'
        exact h.apart u hne u' hne' x hu hu'
  · by_cases hne : u = t
    · rw [hne, hself]
      exact hknows
    · rw [hother u hne]
      exact h.knows u hne

/-- the link of an item is written by who has it -/
theorem Inv.setNext (h : Inv {t}ᶜ s l) {item : ℕ} (hown : Own s l t item) (next : Option ℕ) : Inv {t}ᶜ (s.setNext item next) l := by
  have hkept : ∀ x ≠ item, (s.setNext item next).next x = s.next x := fun x hne => Function.update_of_ne hne ..
  have hlist : ∀ x ∈ l, (s.setNext item next).next x = s.next x := fun x hx => hkept x fun heq => hown.1 (heq ▸ hx)
  refine ⟨h.history, h.links.congr hlist, h.held, h.apart, fun u hu => ?_⟩
  have hknows := h.knows u hu
  show Knows (s.setNext item next) l u (s.pc u)
  cases hpc : s.pc u with
  | pushLinked x head =>
    rw [hpc] at hknows
    have hne : x ≠ item := fun heq => hown.2 u hu (by rw [hpc, heq]; rfl)
    exact (hkept x hne).trans hknows
  | popRead x version n =>
    rw [hpc] at hknows
    refine ⟨hknows.1, fun hzero => ?_⟩
    obtain ⟨hmem, hnext⟩ := hknows.2 hzero
    exact ⟨hmem, hnext.trans (hlist x hmem).symm⟩
  | popLoaded x version =>
    rw [hpc] at hknows
    exact hknows
  | idle | push | pushLoaded | pop | popped | popall | popallLoaded => trivial

/-- an item has been linked to the head and is pushed -/
theorem Inv.pushed (h : Inv {t}ᶜ s l) {item : ℕ} (hown : Own s l t item) (hnext : s.next item = s.head.pointer) :
    Inv {t}ᶜ ({ s with head := ⟨some item, s.head.version⟩ }.did (.pushed item s.head.pointer)) (item :: l) := by
  refine ⟨replay_append h.history (if_pos (head?_of_links h.links)), ⟨rfl, ?_⟩, fun u hu x hx => ?_, h.apart, fun u hu => ?_⟩
  · show LSeg s.next (s.next item) l none
    rw [hnext]
    exact h.links
  · rw [List.mem_cons, not_or]
    exact ⟨fun heq => hown.2 u hu (heq ▸ hx), h.held u hu x hx⟩
  · have hknows := h.knows u hu
    show Knows _ (item :: l) u (s.pc u)
    cases hpc : s.pc u with
    | pushLinked x head =>
      rw [hpc] at hknows
      exact hknows
    | popRead x version n =>
      rw [hpc] at hknows
      exact ⟨hknows.1, fun hzero => ⟨List.mem_cons_of_mem item (hknows.2 hzero).1, (hknows.2 hzero).2⟩⟩
    | popLoaded x version =>
      rw [hpc] at hknows
      exact ⟨hknows.1, fun hzero => List.mem_cons_of_mem item (hknows.2 hzero)⟩
    | idle | push | pushLoaded | pop | popped | popall | popallLoaded => trivial

/-- a call has found the list empty -/
theorem Inv.did (h : Inv {t}ᶜ s l) {event : Event} (happly : apply l event = some l) : Inv {t}ᶜ (s.did event) l :=
  ⟨replay_append h.history happly, h.links, h.held, h.apart, h.knows⟩

/-- a pop has loaded the head -/
theorem Inv.loaded (h : Inv {t}ᶜ s l) : Inv {t}ᶜ { s with since := Function.update s.since t 0 } l := by
  refine ⟨h.history, h.links, h.held, h.apart, fun u hu => ?_⟩
  have hsince : Function.update s.since t 0 u = s.since u := Function.update_of_ne hu ..
  have hknows := h.knows u hu
  unfold Knows at hknows ⊢
  dsimp only
  rw [hsince]
  exact hknows

/-- the version has been counted on, so what has been loaded before is no promise -/
theorem Inv.countOn (h : Inv {t}ᶜ s l) {event : Event} {l' : List ℕ} {o : Option ℕ} (happly : apply l event = some l')
    (hlinks : LSeg s.next o l' none) (hsub : ∀ x ∈ l', x ∈ l) : Inv {t}ᶜ ((s.countOn o).did event) l' := by
  have hversion : ∀ (version : BitVec w) (n : ℕ), s.head.version = version + BitVec.ofNat w n →
      s.head.version + 1 = version + BitVec.ofNat w (n + 1) := by
    intro version n heq
    rw [heq, BitVec.ofNat_add, BitVec.add_assoc]
    rfl
  refine ⟨replay_append h.history happly, hlinks, fun u hu x hx hmem => h.held u hu x hx (hsub x hmem), h.apart, fun u hu => ?_⟩
  have hknows := h.knows u hu
  show Knows _ l' u (s.pc u)
  cases hpc : s.pc u with
  | pushLinked x head =>
    rw [hpc] at hknows
    exact hknows
  | popRead x version n =>
    rw [hpc] at hknows
    exact ⟨hversion version _ hknows.1, fun hzero => absurd hzero (Nat.succ_ne_zero _)⟩
  | popLoaded x version =>
    rw [hpc] at hknows
    exact ⟨hversion version _ hknows.1, fun hzero => absurd hzero (Nat.succ_ne_zero _)⟩
  | idle | push | pushLoaded | pop | popped | popall | popallLoaded => trivial

/-! ## The steps -/

theorem call_inv (h : Inv Set.univ s l) {op : Op} (hperm : Permitted s (.call t op)) : Inv Set.univ (s.call t op) l := by
  unfold State.call
  cases hpc : s.pc t with
  | idle =>
    cases op with
    | push item =>
      refine (h.rest t).goto (fun x hx => ?_) trivial
      obtain rfl := Option.some.inj hx
      exact ⟨hperm.2 l h.history, fun u _ => hperm.1 u⟩
    | pop => exact (h.rest t).goto nofun trivial
    | popall => exact (h.rest t).goto nofun trivial
  | _ => exact h

/-- the compare-and-swap of a pop succeeds only where nobody has popped since its load -/
theorem since_eq_zero {version : BitVec w} {n : ℕ} (h : version = version + BitVec.ofNat w n) (hlt : n < 2 ^ w) : n = 0 := by
  have htoNat := congrArg BitVec.toNat (BitVec.self_eq_add_right.mp h)
  rw [BitVec.toNat_ofNat, Nat.mod_eq_of_lt hlt] at htoNat
  exact htoNat

/-- A pop that succeeds takes the item it has loaded, which is the first one of the list. -/
theorem Inv.taken (h : Inv Set.univ s l) {item : ℕ} {version : BitVec w} {next : Option ℕ} (hpc : s.pc t = .popRead item version next)
    (hsame : s.head = ⟨some item, version⟩) (hlt : s.since t < 2 ^ w) :
    ∃ l', Inv Set.univ (((s.countOn next).did (.popped (some item))).goto t (.popped item)) l' := by
  have hknows := h.knows t trivial
  rw [hpc] at hknows
  have hversion : version = version + BitVec.ofNat w (s.since t) := by
    rw [← hknows.1, hsame]
  obtain ⟨-, hnext⟩ := hknows.2 (since_eq_zero hversion hlt)
  have hlinks := h.links
  have hnodup := hlinks.nodup
  have hhead := head?_of_links hlinks
  rw [hsame] at hlinks hhead
  cases l with
  | nil => cases hhead
  | cons x l =>
    obtain rfl : item = x := Option.some.inj hhead
    have htail : LSeg s.next next l none := hnext ▸ hlinks.2
    have happly : apply (item :: l) (.popped (some item)) = some l := if_pos rfl
    have hown : Own ((s.countOn next).did (.popped (some item))) l t item :=
      ⟨(List.nodup_cons.mp hnodup).1, fun u _ hitem => h.held u trivial item hitem List.mem_cons_self⟩
    exact ⟨l, ((h.rest t).countOn happly htail fun y hy => List.mem_cons_of_mem item hy).goto hown.only trivial⟩

theorem run_inv (h : Inv Set.univ s l) (hperm : Permitted s (.run t)) : ∃ l', Inv Set.univ (s.run t) l' := by
  have hknows := h.knows t trivial
  have hhead := head?_of_links h.links
  unfold State.run
  cases hpc : s.pc t with
  | idle => exact ⟨l, h⟩
  | push item =>
    have hown : Own s l t item := h.own (by rw [hpc]; rfl)
    exact ⟨l, (h.rest t).goto hown.only trivial⟩
  | pushLoaded item head =>
    have hown : Own s l t item := h.own (by rw [hpc]; rfl)
    exact ⟨l, ((h.rest t).setNext hown _).goto hown.only (Function.update_self ..)⟩
  | pushLinked item head =>
    have hown : Own s l t item := h.own (by rw [hpc]; rfl)
    rw [hpc] at hknows
    dsimp only
    split_ifs with hsame
    · subst hsame
      exact ⟨item :: l, ((h.rest t).pushed hown hknows).goto nofun trivial⟩
    · exact ⟨l, (h.rest t).goto hown.only trivial⟩
  | pop =>
    cases l with
    | nil =>
      rw [hhead]
      exact ⟨[], ((h.rest t).did rfl).goto nofun trivial⟩
    | cons item l =>
      rw [hhead]
      exact ⟨item :: l, (h.rest t).loaded.goto nofun ⟨by simp, fun _ => List.mem_cons_self⟩⟩
  | popLoaded item version =>
    rw [hpc] at hknows
    exact ⟨l, (h.rest t).goto nofun ⟨hknows.1, fun hzero => ⟨hknows.2 hzero, rfl⟩⟩⟩
  | popRead item version next =>
    dsimp only
    split_ifs with hsame
    · exact h.taken hpc hsame (hperm item version next hpc)
    · exact ⟨l, (h.rest t).goto nofun trivial⟩
  | popped item =>
    have hown : Own s l t item := h.own (by rw [hpc]; rfl)
    exact ⟨l, ((h.rest t).setNext hown none).goto nofun trivial⟩
  | popall =>
    cases l with
    | nil =>
      rw [hhead]
      exact ⟨[], ((h.rest t).did rfl).goto nofun trivial⟩
    | cons item l =>
      rw [hhead]
      exact ⟨item :: l, (h.rest t).goto nofun trivial⟩
  | popallLoaded head =>
    dsimp only
    split_ifs with hsame
    · subst hsame
      have happly : apply l (.poppedAll s.head.pointer) = some [] := if_pos hhead
      exact ⟨[], ((h.rest t).countOn happly rfl fun x hx => absurd hx List.not_mem_nil).goto nofun trivial⟩
    · exact ⟨l, (h.rest t).goto nofun trivial⟩

/-- Along a permitted run the history is that of an atomic stack, and the links are the stack. -/
theorem history_legal (acts : List Act) (h : Along State.step Permitted (State.init (w := w)) acts) :
    ∃ items, replay (acts.foldl State.step (State.init (w := w))).history = some items ∧
      LSeg (acts.foldl State.step (State.init (w := w))).next (acts.foldl State.step (State.init (w := w))).head.pointer items none := by
  have hinit : ∃ l, Inv Set.univ (State.init (w := w)) l :=
    ⟨[], rfl, rfl, fun _ _ _ hx => absurd hx nofun, fun _ _ _ _ _ hx => absurd hx nofun, fun _ _ => trivial⟩
  obtain ⟨items, hinv⟩ := h.inv (I := fun s => ∃ l, Inv Set.univ s l) (fun s a ⟨l, hinv⟩ hperm => by
    cases a with
    | call t op => exact ⟨l, call_inv hinv hperm⟩
    | run t => exact run_inv hinv hperm) hinit
  exact ⟨items, hinv.history, hinv.links⟩

/-- thread 0 pushes an item that thread 1 pops -/
def handOver : List Act := [.call 0 (.push 1), .run 0, .run 0, .run 0, .call 1 .pop, .run 1, .run 1, .run 1, .run 1]

theorem history_legal_handOver : ∃ items, replay (handOver.foldl State.step (State.init (w := 16))).history = some items ∧
    LSeg (handOver.foldl State.step (State.init (w := 16))).next (handOver.foldl State.step (State.init (w := 16))).head.pointer items none :=
  history_legal handOver
    ⟨⟨nofun, fun _ h => Option.some.inj h ▸ List.not_mem_nil⟩, fun _ _ _ _ => by decide, fun _ _ _ _ => by decide, fun _ _ _ _ => by decide,
      trivial, fun _ _ _ _ => by decide, fun _ _ _ _ => by decide, fun _ _ _ _ => by decide, fun _ _ _ _ => by decide, trivial⟩

/-- Thread 1 has read that 1 is behind 2 before 2 is popped, and pushed again behind 3; without a version its pop loses 3. -/
def aba : List Act :=
  [.call 0 (.push 1), .run 0, .run 0, .run 0, .call 0 (.push 2), .run 0, .run 0, .run 0, .call 1 .pop, .run 1, .run 1,
   .call 0 .pop, .run 0, .run 0, .run 0, .run 0, .call 0 (.push 3), .run 0, .run 0, .run 0, .call 0 (.push 2), .run 0, .run 0, .run 0,
   .run 1, .call 0 .pop, .run 0, .run 0, .run 0]

example : replay (aba.foldl State.step (State.init (w := 0))).history = none ∧
    replay (aba.foldl State.step (State.init (w := 16))).history = some [3, 1] := by
  decide

end TrafficServer.TsCore.AtomicList
