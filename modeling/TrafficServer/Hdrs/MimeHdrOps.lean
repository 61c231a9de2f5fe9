/-
Attaching and detaching fields (`mime_hdr_field_attach` and `mime_hdr_field_detach` in `proxy/hdrs/MIME.cc`) keep a header well formed.

Detaching always does. The walk of `mime_hdr_field_attach` looks up the slot of the next duplicate only once, so that a field that belongs
behind at least two of its duplicates and before another is put behind all of them. `InOrder` excludes that; it holds of a field in the last
slot, and so of every header that is built by the parser (`parseFields_wellFormed`).
-/
import TrafficServer.Hdrs.MimeHdrInv

namespace TrafficServer.Hdrs.MimeHdr

open HttpParse Cooked NextIndex

namespace MIMEHdrImpl

variable {mh mh' : MIMEHdrImpl} {i : ℕ} {f : MIMEField ℕ}

/-! ## Detaching -/

theorem wksIdx_of_key {P Q : Type} {f : MIMEField P} {g : MIMEField Q} (h : f.key = g.key) : f.wksIdx = g.wksIdx := by
  cases hidx : f.wksIdx with
  | some idx =>
    rw [key_eq_wks.mpr hidx] at h
    exact (key_eq_wks.mp h.symm).symm
  | none =>
    cases hgidx : g.wksIdx with
    | none => rfl
    | some idx =>
      rw [key_eq_wks.mpr hgidx] at h
      exact absurd (hidx.symm.trans (key_eq_wks.mp h)) nofun

@[simp] theorem modify_length (mh : MIMEHdrImpl) (i : ℕ) (g : MIMEField ℕ → MIMEField ℕ) : (mh.modify i g).slots.length = mh.slots.length :=
  List.length_modify g mh.slots i

@[simp] theorem modify_presenceBits (mh : MIMEHdrImpl) (i : ℕ) (g : MIMEField ℕ → MIMEField ℕ) :
    (mh.modify i g).presenceBits = mh.presenceBits := rfl

@[simp] theorem modify_slotAccelerators (mh : MIMEHdrImpl) (i : ℕ) (g : MIMEField ℕ → MIMEField ℕ) :
    (mh.modify i g).slotAccelerators = mh.slotAccelerators := rfl

theorem modify_self {g : MIMEField ℕ → MIMEField ℕ} (hi : mh.slots[i]? = some f) : (mh.modify i g).slots[i]? = some (g f) := by
  simp [modify, hi]

theorem modify_ne {g : MIMEField ℕ → MIMEField ℕ} {j : ℕ} (h : j ≠ i) : (mh.modify i g).slots[j]? = mh.slots[j]? := by
  simp [modify, h.symm]

@[simp] theorem setFor_slots (mh : MIMEHdrImpl) (f : MIMEField ℕ) (i : ℕ) : (mh.setFor f i).slots = mh.slots := by
  unfold setFor
  cases f.wksIdx <;> rfl

@[simp] theorem setFor_cookedStuff (mh : MIMEHdrImpl) (f : MIMEField ℕ) (i : ℕ) : (mh.setFor f i).cookedStuff = mh.cookedStuff := by
  unfold setFor
  cases f.wksIdx <;> rfl

@[simp] theorem unsetFor_cookedStuff (mh : MIMEHdrImpl) (f : MIMEField ℕ) : (mh.unsetFor f).cookedStuff = mh.cookedStuff := by
  unfold unsetFor
  cases f.wksIdx <;> rfl

@[simp] theorem unsetFor_slots (mh : MIMEHdrImpl) (f : MIMEField ℕ) : (mh.unsetFor f).slots = mh.slots := by
  unfold unsetFor
  cases f.wksIdx <;> rfl

/-- the bits and the accelerators are set without a look at the fields -/
theorem setFor_presence_congr {g : MIMEField ℕ} (hidx : g.wksIdx = f.wksIdx) (hbits : mh'.presenceBits = mh.presenceBits)
    (haccel : mh'.slotAccelerators = mh.slotAccelerators) (i : ℕ) :
    (mh'.setFor g i).presenceBits = (mh.setFor f i).presenceBits ∧ (mh'.setFor g i).slotAccelerators = (mh.setFor f i).slotAccelerators := by
  unfold setFor
  rw [hidx]
  cases f.wksIdx with
  | none => exact ⟨hbits, haccel⟩
  | some idx => simp only [setAcceleratorsAndPresenceBits, hbits, haccel, and_self]

/-- the cooked values do not matter to the lists of the fields -/
theorem Erased.recompute (h : mh.Erased i f mh') (g : MIMEField ℕ) : mh.Erased i f (mh'.recomputeFor g) := by
  unfold recomputeFor
  split_ifs
  · exact ⟨h.length, h.field, h.other, h.unset, h.moved, h.same⟩
  · exact h

theorem Inserted.recompute (h : mh.Inserted i f mh') (g : MIMEField ℕ) : mh.Inserted i f (mh'.recomputeFor g) := by
  unfold recomputeFor
  split_ifs
  · exact ⟨h.length, h.field, h.other, h.presence, h.same⟩
  · exact h

theorem atKey_self (hi : mh.slots[i]? = some f) (hlive : f.isLive = true) : mh.atKey f.key i = true := atKey_iff.mpr ⟨f, hi, hlive, rfl⟩

/-- the walk meets the predecessor, as each step comes nearer to the field -/
theorem detachWalk_spec (hwf : mh.WellFormed) (hi : mh.slots[i]? = some f) (hlive : f.isLive = true) :
    ∀ n j, i - j ≤ n → mh.atKey f.key j = true → j < i →
      ∃ p, mh.detachWalk i n (some j) = some p ∧ mh.atKey f.key p = true ∧ mh.nextOf f.key p = some i := by
  intro n
  induction n with
  | zero => exact fun j hn _ hji => absurd hn (by omega)
  | succ n ih =>
    intro j hn hat hji
    obtain ⟨g, hg, hglive, hkey⟩ := atKey_iff.mp hat
    have hnext := hwf.linked j g hg hglive
    rw [hkey] at hnext
    rw [detachWalk, hg, Option.bind_some, hnext]
    cases hm : mh.nextOf f.key j with
    | none =>
      have hno := (next_eq_none_iff (bounded_atKey mh _)).mp hm i hji
      exact absurd (hno.symm.trans (atKey_self hi hlive)) Bool.false_ne_true
    | some m =>
      obtain ⟨hjm, hatm, hbetween⟩ := (next_eq_some_iff (bounded_atKey mh _)).mp hm
      by_cases hmi : m = i
      · subst hmi
        exact ⟨j, if_pos rfl, hat, hm⟩
      · have hlt : m < i := by
          by_contra hle
          have hno := hbetween i hji (lt_of_le_of_ne (not_lt.mp hle) (Ne.symm hmi))
          exact Bool.false_ne_true (hno.symm.trans (atKey_self hi hlive))
        rw [if_neg fun heq => hmi (Option.some.inj heq)]
        exact ih m (by omega) hatm hlt

theorem detached_field (hi : mh.slots[i]? = some f) :
    ∃ f', (mh.modify i fun g => { g with readiness := .detached, nextDup := none }).slots[i]? = some f' ∧
      Kept { f with readiness := .detached } f' ∧ f'.nextDup = none :=
  ⟨{ f with readiness := .detached, nextDup := none }, modify_self hi, ⟨rfl, rfl, rfl, rfl, rfl, rfl⟩, rfl⟩

/-- a field that is the first of its list, and the only one -/
theorem erased_only (hi : mh.slots[i]? = some f) (hfirst : mh.firstOf f.key = some i) (hnext : mh.nextOf f.key i = none) :
    mh.Erased i f ((mh.unsetFor f).modify i fun g => { g with readiness := .detached, nextDup := none }) where
  length := by simp
  field := detached_field ((congrArg (fun l => l[i]?) (unsetFor_slots mh f)).trans hi)
  other := by
    intro j hj g' hg'
    rw [modify_ne hj, unsetFor_slots] at hg'
    refine ⟨g', hg', ⟨rfl, rfl, rfl, rfl, rfl, rfl⟩, fun hand => ?_, fun _ => rfl, fun hand => ?_, fun _ => rfl⟩
    · -- the first one has no predecessor
      have hlt := ((next_eq_some_iff (bounded_atKey mh _)).mp hand.2).1
      have hno := ((first_eq_some_iff (bounded_atKey mh _)).mp hfirst).2 j hlt
      exact absurd (hno.symm.trans hand.1) Bool.false_ne_true
    · exact absurd (hnext.symm.trans hand.2) nofun
  unset := fun _ _ => ⟨by simp [modify], by simp [modify]⟩
  moved := fun _ next hsome => absurd (hnext.symm.trans hsome) nofun
  same := fun hne => absurd hfirst hne

/-- the first field of a list that goes on -/
theorem erased_head (hi : mh.slots[i]? = some f) (hfirst : mh.firstOf f.key = some i) {next : ℕ} {g : MIMEField ℕ}
    (hnext : mh.nextOf f.key i = some next) (hg : mh.slots[next]? = some g) :
    mh.Erased i f (((mh.modify next fun g => { g with dupHead := true }).setFor g next).modify i fun g =>
      { g with readiness := .detached, nextDup := none }) where
  length := by simp
  field := by
    have hne : i ≠ next := (((next_eq_some_iff (bounded_atKey mh _)).mp hnext).1).ne
    exact detached_field (by rw [setFor_slots, modify_ne hne, hi])
  other := by
    intro j hj g' hg'
    rw [modify_ne hj, setFor_slots] at hg'
    have hnobody : ¬ (mh.atKey f.key j = true ∧ mh.nextOf f.key j = some i) := by
      intro hand
      have hlt := ((next_eq_some_iff (bounded_atKey mh _)).mp hand.2).1
      have hno := ((first_eq_some_iff (bounded_atKey mh _)).mp hfirst).2 j hlt
      exact Bool.false_ne_true (hno.symm.trans hand.1)
    by_cases hjn : j = next
    · subst hjn
      rw [modify_self hg, Option.some.injEq] at hg'
      subst hg'
      exact ⟨g, hg, ⟨rfl, rfl, rfl, rfl, rfl, rfl⟩, fun hand => absurd hand hnobody, fun _ => rfl, fun _ => rfl,
        fun hno => absurd ⟨hfirst, hnext⟩ hno⟩
    · rw [modify_ne hjn] at hg'
      refine ⟨g', hg', ⟨rfl, rfl, rfl, rfl, rfl, rfl⟩, fun hand => absurd hand hnobody, fun _ => rfl, fun hand => ?_, fun _ => rfl⟩
      exact absurd (Option.some.inj (hand.2.symm.trans hnext)) hjn
  unset := fun _ hnone => absurd (hnext.symm.trans hnone) nofun
  moved := by
    intro _ next' hsome
    obtain rfl := Option.some.inj (hnext.symm.trans hsome)
    have hidx : g.wksIdx = f.wksIdx := (wksIdx_of_key (key_of_nextOf hg hnext)).symm
    rw [modify_presenceBits, modify_slotAccelerators]
    exact setFor_presence_congr hidx (modify_presenceBits mh next _) (modify_slotAccelerators mh next _) next
  same := fun hne => absurd hfirst hne

/-- a field behind another one -/
theorem erased_behind (hwf : mh.WellFormed) (hi : mh.slots[i]? = some f) (hlive : f.isLive = true) (hfirst : mh.firstOf f.key ≠ some i)
    {prev : ℕ} (hat : mh.atKey f.key prev = true) (hprev : mh.nextOf f.key prev = some i) :
    mh.Erased i f ((mh.modify prev fun g => { g with nextDup := f.nextDup }).modify i fun g =>
      { g with readiness := .detached, nextDup := none }) where
  length := by simp
  field := by
    have hne : i ≠ prev := (((next_eq_some_iff (bounded_atKey mh _)).mp hprev).1).ne'
    exact detached_field (by rw [modify_ne hne, hi])
  other := by
    intro j hj g' hg'
    rw [modify_ne hj] at hg'
    obtain ⟨hlt, -, hbetween⟩ := (next_eq_some_iff (bounded_atKey mh _)).mp hprev
    by_cases hjp : j = prev
    · subst hjp
      obtain ⟨g, hg, -⟩ := atKey_iff.mp hat
      rw [modify_self hg, Option.some.injEq] at hg'
      subst hg'
      exact ⟨g, hg, ⟨rfl, rfl, rfl, rfl, rfl, rfl⟩, fun _ => hwf.linked i f hi hlive, fun hno => absurd ⟨hat, hprev⟩ hno,
        fun hand => absurd hand.1 hfirst, fun _ => rfl⟩
    · rw [modify_ne hjp] at hg'
      refine ⟨g', hg', ⟨rfl, rfl, rfl, rfl, rfl, rfl⟩, fun hand => ?_, fun _ => rfl, fun hand => absurd hand.1 hfirst, fun _ => rfl⟩
      -- two predecessors are one
      exfalso
      obtain ⟨hji, -, hbetween'⟩ := (next_eq_some_iff (bounded_atKey mh _)).mp hand.2
      rcases Nat.lt_or_gt_of_ne hjp with hless | hmore
      · exact Bool.false_ne_true ((hbetween' prev hless hlt).symm.trans hat)
      · exact Bool.false_ne_true ((hbetween j hmore hji).symm.trans hand.1)
  unset := fun hsome => absurd hsome hfirst
  moved := fun hsome => absurd hsome hfirst
  same := fun _ => ⟨by simp [modify], by simp [modify]⟩

theorem fieldDetach_erased (hwf : mh.WellFormed) (hi : mh.slots[i]? = some f) (hlive : f.isLive = true) :
    ∃ mh₁, mh.Erased i f mh₁ ∧ mh₁.cookedStuff = mh.cookedStuff ∧ mh.fieldDetach i = some (mh₁.recomputeFor f) := by
  have hhead := hwf.headed i f hi hlive
  have hnext := hwf.linked i f hi hlive
  rw [fieldDetach, hi, Option.bind_some, if_neg (by simpa using not_isDetached hlive)]
  by_cases hdup : f.dupHead = true
  · have hfirst := hhead.mp hdup
    rw [if_pos hdup]
    cases hn : f.nextDup with
    | none => exact ⟨_, erased_only hi hfirst (hnext.symm.trans hn), unsetFor_cookedStuff mh f, rfl⟩
    | some next =>
      have hnext' : mh.nextOf f.key i = some next := hnext.symm.trans hn
      obtain ⟨g, hg, -⟩ := atKey_iff.mp ((next_eq_some_iff (bounded_atKey mh _)).mp hnext').2.1
      dsimp only
      rw [hg]
      exact ⟨_, erased_head hi hfirst hnext' hg, setFor_cookedStuff _ g next, rfl⟩
  · have hfirst : mh.firstOf f.key ≠ some i := fun heq => hdup (hhead.mpr heq)
    rw [if_neg hdup, fieldFind_eq hwf (hwf.named f (List.mem_of_getElem? hi))]
    have hself := atKey_self hi hlive
    cases hj : mh.firstOf f.key with
    | none => exact absurd (((first_eq_none_iff (bounded_atKey mh _)).mp hj i).symm.trans hself) Bool.false_ne_true
    | some j =>
      obtain ⟨hat, hbefore⟩ := (first_eq_some_iff (bounded_atKey mh _)).mp hj
      have hji : j < i := by
        by_contra hle
        rcases Nat.eq_or_lt_of_le (not_lt.mp hle) with heq | hlt
        · exact hfirst (heq ▸ hj)
        · exact Bool.false_ne_true ((hbefore i hlt).symm.trans hself)
      have hlength : i < mh.slots.length := (List.getElem?_eq_some_iff.mp hi).1
      obtain ⟨prev, hwalk, hprev, hnext'⟩ := detachWalk_spec hwf hi hlive mh.slots.length j (by omega) hat hji
      rw [hwalk]
      exact ⟨_, erased_behind hwf hi hlive hfirst hprev hnext', rfl, rfl⟩

/-! ## Attaching -/

/-- a slot is not behind two fields of the name and before a third -/
def InOrder (mh : MIMEHdrImpl) (k : Key) (i : ℕ) : Prop :=
  ∀ a b c, mh.atKey k a = true → mh.atKey k b = true → mh.atKey k c = true → a < b → b < i → c < i

theorem isLive_eq_false (hdetached : f.isDetached = true) : f.isLive = false := by
  cases hlive : f.isLive with
  | false => rfl
  | true => exact absurd hdetached (not_isDetached hlive)

theorem not_atKey (hi : mh.slots[i]? = some f) (hdetached : f.isDetached = true) (k : Key) : mh.atKey k i = false := by
  cases hat : mh.atKey k i with
  | false => rfl
  | true =>
    obtain ⟨g, hg, hlive, -⟩ := atKey_iff.mp hat
    obtain rfl := Option.some.inj (hi.symm.trans hg)
    exact absurd hdetached (not_isDetached hlive)

/-- nothing else is behind the slot: the walk goes to the end of the list -/
theorem attachWalk_last (hwf : mh.WellFormed) (hsame : ∀ j ≠ i, mh'.slots[j]? = mh.slots[j]?) {k : Key} {nextSlotnum : ℕ} (hnext : nextSlotnum < i)
    (hall : ∀ c, mh.atKey k c = true → c < i) :
    ∀ n prev prevSlotnum, i - prev ≤ n → mh.atKey k prev = true → prevSlotnum < i →
      ∃ r s, mh'.attachWalk i nextSlotnum n prev prevSlotnum (mh.nextOf k prev) = some (r, s, none) ∧ s < i ∧ mh.atKey k r = true ∧
        mh.nextOf k r = none := by
  intro n
  induction n with
  | zero =>
    intro prev prevSlotnum hn hat _
    exact absurd (hall prev hat) (by omega)
  | succ n ih =>
    intro prev prevSlotnum hn hat hslot
    cases hm : mh.nextOf k prev with
    | none => exact ⟨prev, prevSlotnum, by rw [attachWalk, if_pos hslot], hslot, hat, hm⟩
    | some m =>
      obtain ⟨hpm, hatm, -⟩ := (next_eq_some_iff (bounded_atKey mh k)).mp hm
      have hmi := hall m hatm
      obtain ⟨g, hg, hglive, hkey⟩ := atKey_iff.mp hatm
      rw [attachWalk, if_pos hslot, if_neg (not_lt.mpr hnext.le), hsame m hmi.ne, hg, Option.bind_some, hwf.linked m g hg hglive, hkey]
      exact ih m nextSlotnum (by omega) hatm hnext

/-- the last slot is behind all fields -/
theorem inOrder_last (hi : mh.slots[i]? = some f) (hdetached : f.isDetached = true) (hlength : mh.slots.length = i + 1) (k : Key) :
    mh.InOrder k i := by
  intro a b c _ _ hc _ _
  have hlt := bounded_atKey mh k c hc
  have hne : c ≠ i := by
    intro heq
    rw [heq, not_atKey hi hdetached] at hc
    cases hc
  omega

theorem attachWalk_past (mh : MIMEHdrImpl) {nextSlotnum n prev prevSlotnum : ℕ} (nextDup : Option ℕ) (h : i < prevSlotnum) :
    mh.attachWalk i nextSlotnum (n + 1) prev prevSlotnum nextDup = some (prev, prevSlotnum, nextDup) := by
  cases nextDup with
  | none => rw [attachWalk, if_neg (not_lt.mpr h.le)]
  | some next => rw [attachWalk, if_neg (not_lt.mpr h.le)]

/-- the field to put a new one behind, if there is one before it -/
theorem attachWalk_behind (hwf : mh.WellFormed) (hsame : ∀ j ≠ i, mh'.slots[j]? = mh.slots[j]?) {k : Key} (hat : mh.atKey k i = false)
    (horder : mh.InOrder k i) {p n : ℕ} (hp : mh.atKey k p = true) (hpi : p < i) (hn : i ≤ n) :
    ∃ r s next, mh'.attachWalk i ((mh.nextOf k p).getD 0) n p p (mh.nextOf k p) = some (r, s, next) ∧ ¬ s > i ∧ mh.Before k i r ∧
      next = mh.nextOf k r := by
  obtain ⟨n, rfl⟩ := Nat.exists_eq_succ_of_ne_zero (show n ≠ 0 by omega)
  cases hm : mh.nextOf k p with
  | none => exact ⟨p, p, none, by rw [attachWalk, if_pos hpi], not_lt.mpr hpi.le, ⟨hp, hpi, fun y hy => absurd (hm.symm.trans hy) nofun⟩, hm.symm⟩
  | some m =>
    obtain ⟨hpm, hatm, -⟩ := (next_eq_some_iff (bounded_atKey mh k)).mp hm
    rw [Option.getD_some, attachWalk, if_pos hpi]
    by_cases hmi : i < m
    · rw [if_pos hmi]
      refine ⟨p, p, some m, rfl, not_lt.mpr hpi.le, ⟨hp, hpi, fun y hy => ?_⟩, hm.symm⟩
      rwa [← Option.some.inj (hm.symm.trans hy)]
    · have hne : m ≠ i := by
        intro heq
        rw [heq, hat] at hatm
        cases hatm
      have hlt : m < i := lt_of_le_of_ne (not_lt.mp hmi) hne
      obtain ⟨g, hg, hglive, hkey⟩ := atKey_iff.mp hatm
      rw [if_neg hmi, hsame m hne, hg, Option.bind_some, hwf.linked m g hg hglive, hkey]
      obtain ⟨r, s, hwalk, hs, hr, hlast⟩ := attachWalk_last hwf hsame hlt (fun c hc => horder p m c hp hatm hc hpm hlt) n m m (by omega) hatm hlt
      refine ⟨r, s, none, hwalk, not_lt.mpr hs.le, ⟨hr, horder p m r hp hatm hr hpm hlt, fun y hy => ?_⟩, hlast.symm⟩
      exact absurd (hlast.symm.trans hy) nofun

/-- behind the slot comes what comes behind its predecessor -/
theorem nextOf_of_before {k : Key} {r : ℕ} (h : mh.Before k i r) : mh.nextOf k i = mh.nextOf k r := by
  obtain ⟨-, hri, hbehind⟩ := h
  cases hm : mh.nextOf k r with
  | none =>
    have hno := (next_eq_none_iff (bounded_atKey mh k)).mp hm
    exact (next_eq_none_iff (bounded_atKey mh k)).mpr fun j hij => hno j (hri.trans hij)
  | some m =>
    obtain ⟨-, hatm, hbetween⟩ := (next_eq_some_iff (bounded_atKey mh k)).mp hm
    exact (next_eq_some_iff (bounded_atKey mh k)).mpr ⟨hbehind m hm, hatm, fun j hij hjm => hbetween j (hri.trans hij) hjm⟩

/-- there is one field to put a new one behind -/
theorem before_unique {k : Key} {r j : ℕ} (h : mh.Before k i r) (h' : mh.Before k i j) : j = r := by
  rcases Nat.lt_trichotomy j r with hless | heq | hmore
  · -- the one behind `j` is not behind `r`
    cases hm : mh.nextOf k j with
    | none => exact absurd (((next_eq_none_iff (bounded_atKey mh k)).mp hm r hless).symm.trans h.1) Bool.false_ne_true
    | some m =>
      obtain ⟨-, -, hbetween⟩ := (next_eq_some_iff (bounded_atKey mh k)).mp hm
      exact absurd ((hbetween r hless (h.2.1.trans (h'.2.2 m hm))).symm.trans h.1) Bool.false_ne_true
  · exact heq
  · cases hm : mh.nextOf k r with
    | none => exact absurd (((next_eq_none_iff (bounded_atKey mh k)).mp hm j hmore).symm.trans h'.1) Bool.false_ne_true
    | some m =>
      obtain ⟨-, -, hbetween⟩ := (next_eq_some_iff (bounded_atKey mh k)).mp hm
      exact absurd ((hbetween j hmore (h'.2.1.trans (h.2.2 m hm))).symm.trans h'.1) Bool.false_ne_true

/-- what comes before a field that is before the first one is nothing -/
theorem not_before_of_isHead {k : Key} {j : ℕ} (hhead : mh.IsHead k i) : ¬ mh.Before k i j := by
  intro h
  cases hfirst : mh.firstOf k with
  | none => exact absurd (((first_eq_none_iff (bounded_atKey mh k)).mp hfirst j).symm.trans h.1) Bool.false_ne_true
  | some p =>
    have hno := ((first_eq_some_iff (bounded_atKey mh k)).mp hfirst).2 j (h.2.1.trans (hhead p hfirst))
    exact Bool.false_ne_true (hno.symm.trans h.1)

/-- behind a slot before the first one comes the first one -/
theorem nextOf_of_isHead {k : Key} (hhead : mh.IsHead k i) : mh.nextOf k i = mh.firstOf k := by
  cases hfirst : mh.firstOf k with
  | none => exact (next_eq_none_iff (bounded_atKey mh k)).mpr fun j _ => (first_eq_none_iff (bounded_atKey mh k)).mp hfirst j
  | some p =>
    obtain ⟨hat, hbefore⟩ := (first_eq_some_iff (bounded_atKey mh k)).mp hfirst
    exact (next_eq_some_iff (bounded_atKey mh k)).mpr ⟨hhead p hfirst, hat, fun j _ hjp => hbefore j hjp⟩

theorem attachHead_presence (hbits : mh'.presenceBits = mh.presenceBits) (haccel : mh'.slotAccelerators = mh.slotAccelerators)
    (nextDup : Option ℕ) : (mh'.attachHead i f nextDup).presenceBits = (mh.setFor f i).presenceBits ∧
      (mh'.attachHead i f nextDup).slotAccelerators = (mh.setFor f i).slotAccelerators := by
  unfold attachHead
  apply setFor_presence_congr rfl
  · cases nextDup <;> exact hbits
  · cases nextDup <;> exact haccel

theorem attachHead_cookedStuff (mh : MIMEHdrImpl) (nextDup : Option ℕ) : (mh.attachHead i f nextDup).cookedStuff = mh.cookedStuff := by
  unfold attachHead
  rw [setFor_cookedStuff]
  cases nextDup <;> rfl

/-- there was no field of the name -/
theorem inserted_only (hwf : mh.WellFormed) (hi : mh.slots[i]? = some f) (hdetached : f.isDetached = true) (hnone : mh.firstOf f.key = none) :
    mh.Inserted i f ((mh.modify i fun g => { g with readiness := .live }).attachHead i f none) := by
  have hhead : mh.IsHead f.key i := fun y hy => absurd (hnone.symm.trans hy) nofun
  have hslots : ((mh.modify i fun g => { g with readiness := .live }).attachHead i f none).slots =
      ((mh.modify i fun g => { g with readiness := .live }).modify i fun g => { g with dupHead := true, nextDup := g.nextDup }).slots :=
    setFor_slots _ f i
  refine ⟨?_, ?_, ?_, fun _ => ?_, fun hno => absurd hhead hno⟩
  · rw [hslots, modify_length, modify_length]
  · refine ⟨{ f with readiness := .live, dupHead := true }, ?_, ⟨rfl, rfl, rfl, rfl, rfl, rfl⟩, ?_, iff_of_true rfl hhead⟩
    · rw [hslots, modify_self (modify_self hi)]
    · rw [nextOf_of_isHead hhead, hnone]
      exact hwf.alone f (List.mem_of_getElem? hi) hdetached
  · intro j hj g' hg'
    rw [hslots, modify_ne hj, modify_ne hj] at hg'
    exact ⟨g', hg', ⟨rfl, rfl, rfl, rfl, rfl, rfl⟩, fun hb => absurd hb (not_before_of_isHead hhead), fun _ => rfl,
      fun hand => absurd (hnone.symm.trans hand.2) nofun, fun _ => rfl⟩
  · exact attachHead_presence (modify_presenceBits mh i _) (modify_slotAccelerators mh i _) _

/-- the field comes before the first one -/
theorem inserted_head (hi : mh.slots[i]? = some f) {p : ℕ} (hfirst : mh.firstOf f.key = some p) (hip : i < p) :
    mh.Inserted i f ((mh.modify i fun g => { g with readiness := .live }).attachHead i f (some p)) := by
  have hhead : mh.IsHead f.key i := by
    intro y hy
    rwa [← Option.some.inj (hfirst.symm.trans hy)]
  have hslots : ((mh.modify i fun g => { g with readiness := .live }).attachHead i f (some p)).slots =
      (((mh.modify i fun g => { g with readiness := .live }).modify p fun g => { g with dupHead := false }).modify i fun g =>
        { g with dupHead := true, nextDup := some p }).slots := setFor_slots _ f i
  refine ⟨?_, ?_, ?_, fun _ => ?_, fun hno => absurd hhead hno⟩
  · rw [hslots, modify_length, modify_length, modify_length]
  · refine ⟨{ f with readiness := .live, dupHead := true, nextDup := some p }, ?_, ⟨rfl, rfl, rfl, rfl, rfl, rfl⟩, ?_, iff_of_true rfl hhead⟩
    · have hmid : ((mh.modify i fun g => { g with readiness := .live }).modify p fun g => { g with dupHead := false }).slots[i]? =
          some { f with readiness := .live } := by rw [modify_ne hip.ne, modify_self hi]
      rw [hslots, modify_self hmid]
    · rw [nextOf_of_isHead hhead, hfirst]
  · intro j hj g' hg'
    rw [hslots, modify_ne hj] at hg'
    by_cases hjp : j = p
    · subst hjp
      obtain ⟨g, hg, -⟩ := atKey_iff.mp ((first_eq_some_iff (bounded_atKey mh _)).mp hfirst).1
      have hmid : (mh.modify i fun g => { g with readiness := .live }).slots[j]? = some g := by rw [modify_ne hj, hg]
      rw [modify_self hmid, Option.some.injEq] at hg'
      subst hg'
      exact ⟨g, hg, ⟨rfl, rfl, rfl, rfl, rfl, rfl⟩, fun hb => absurd hb (not_before_of_isHead hhead), fun _ => rfl, fun _ => rfl,
        fun hno => absurd ⟨hhead, hfirst⟩ hno⟩
    · rw [modify_ne hjp, modify_ne hj] at hg'
      exact ⟨g', hg', ⟨rfl, rfl, rfl, rfl, rfl, rfl⟩, fun hb => absurd hb (not_before_of_isHead hhead), fun _ => rfl,
        fun hand => absurd (Option.some.inj (hand.2.symm.trans hfirst)) hjp, fun _ => rfl⟩
  · exact attachHead_presence (modify_presenceBits mh i _) (modify_slotAccelerators mh i _) _

/-- the field comes behind another one -/
theorem inserted_behind (hi : mh.slots[i]? = some f) {prev : ℕ} (hb : mh.Before f.key i prev) :
    mh.Inserted i f ((mh.modify i fun g => { g with readiness := .live }).attachBehind i prev (mh.nextOf f.key prev)) := by
  have hnot : ¬ mh.IsHead f.key i := fun hhead => not_before_of_isHead hhead hb
  have hslots : ((mh.modify i fun g => { g with readiness := .live }).attachBehind i prev (mh.nextOf f.key prev)).slots =
      (((mh.modify i fun g => { g with readiness := .live }).modify prev fun g => { g with nextDup := some i }).modify i fun g =>
        { g with dupHead := false, nextDup := mh.nextOf f.key prev }).slots := rfl
  have hpi : prev < i := hb.2.1
  refine ⟨?_, ?_, ?_, fun hhead => absurd hhead hnot, fun _ => ⟨rfl, rfl⟩⟩
  · rw [hslots, modify_length, modify_length, modify_length]
  · refine ⟨{ f with readiness := .live, dupHead := false, nextDup := mh.nextOf f.key prev }, ?_, ⟨rfl, rfl, rfl, rfl, rfl, rfl⟩, ?_,
      iff_of_false Bool.false_ne_true hnot⟩
    · have hmid : ((mh.modify i fun g => { g with readiness := .live }).modify prev fun g => { g with nextDup := some i }).slots[i]? =
          some { f with readiness := .live } := by rw [modify_ne hpi.ne', modify_self hi]
      rw [hslots, modify_self hmid]
    · exact (nextOf_of_before hb).symm
  · intro j hj g' hg'
    rw [hslots, modify_ne hj] at hg'
    by_cases hjp : j = prev
    · subst hjp
      obtain ⟨g, hg, -⟩ := atKey_iff.mp hb.1
      have hmid : (mh.modify i fun g => { g with readiness := .live }).slots[j]? = some g := by rw [modify_ne hj, hg]
      rw [modify_self hmid, Option.some.injEq] at hg'
      subst hg'
      exact ⟨g, hg, ⟨rfl, rfl, rfl, rfl, rfl, rfl⟩, fun _ => rfl, fun hno => absurd hb hno, fun hand => absurd hand.1 hnot, fun _ => rfl⟩
    · rw [modify_ne hjp, modify_ne hj] at hg'
      exact ⟨g', hg', ⟨rfl, rfl, rfl, rfl, rfl, rfl⟩, fun hb' => absurd (before_unique hb hb') hjp, fun _ => rfl,
        fun hand => absurd hand.1 hnot, fun _ => rfl⟩

theorem fieldAttach_inserted (hwf : mh.WellFormed) (hi : mh.slots[i]? = some f) (hdetached : f.isDetached = true) (horder : mh.InOrder f.key i)
    {checkForDups : Bool} (hcheck : checkForDups = true ∨ mh.firstOf f.key = none) :
    ∃ mh₁, mh.Inserted i f mh₁ ∧ mh₁.cookedStuff = mh.cookedStuff ∧
      mh.fieldAttach i checkForDups = some (if f.value.isSome then mh₁.recomputeFor f else mh₁) := by
  have hat := not_atKey hi hdetached f.key
  have hprev : (if checkForDups then mh.fieldFind f.key else none) = mh.firstOf f.key := by
    rcases hcheck with rfl | hnone
    · exact fieldFind_eq hwf (hwf.named f (List.mem_of_getElem? hi))
    · cases checkForDups with
      | true => exact fieldFind_eq hwf (hwf.named f (List.mem_of_getElem? hi))
      | false => exact hnone.symm
  rw [fieldAttach, hi, Option.bind_some, if_neg (by simpa using hdetached), hprev]
  cases hfirst : mh.firstOf f.key with
  | none => exact ⟨_, inserted_only hwf hi hdetached hfirst, attachHead_cookedStuff _ none, rfl⟩
  | some p =>
    obtain ⟨hatp, -⟩ := (first_eq_some_iff (bounded_atKey mh _)).mp hfirst
    obtain ⟨g, hg, hglive, hkey⟩ := atKey_iff.mp hatp
    have hpi : p ≠ i := by
      intro heq
      rw [heq, hat] at hatp
      cases hatp
    have hsame : ∀ j ≠ i, (mh.modify i fun g => { g with readiness := .live }).slots[j]? = mh.slots[j]? := fun j hj => modify_ne hj
    have hlength : i < mh.slots.length := (List.getElem?_eq_some_iff.mp hi).1
    dsimp only
    rw [hsame p hpi, hg, Option.bind_some, hwf.linked p g hg hglive, hkey, modify_length]
    rcases Nat.lt_or_gt_of_ne hpi with hless | hmore
    · obtain ⟨r, s, next, hwalk, hs, hb, rfl⟩ := attachWalk_behind hwf hsame hat horder hatp hless hlength.le
      rw [hwalk, Option.map_some, if_neg hs]
      exact ⟨_, inserted_behind hi hb, rfl, rfl⟩
    · obtain ⟨n, hn⟩ := Nat.exists_eq_succ_of_ne_zero (show mh.slots.length ≠ 0 by omega)
      rw [hn, attachWalk_past _ _ hmore, Option.map_some, if_pos hmore]
      exact ⟨_, inserted_head hi hfirst hmore, attachHead_cookedStuff _ (some p), rfl⟩

theorem fieldAttach_wellFormed (hwf : mh.WellFormed) (hi : mh.slots[i]? = some f) (hdetached : f.isDetached = true)
    (horder : mh.InOrder f.key i) {checkForDups : Bool} (hcheck : checkForDups = true ∨ mh.firstOf f.key = none)
    (h : mh.fieldAttach i checkForDups = some mh') : mh'.WellFormed := by
  obtain ⟨mh₁, hins, -, heq⟩ := fieldAttach_inserted hwf hi hdetached horder hcheck
  obtain rfl := Option.some.inj (heq.symm.trans h)
  have hnot := isLive_eq_false hdetached
  split_ifs
  · exact (hins.recompute f).wellFormed hwf hi hnot
  · exact hins.wellFormed hwf hi hnot

/-! ## The fields that are not linked -/

/-- the live fields are where they were -/
theorem wellFormed_of_live (hwf : mh.WellFormed) (hbits : mh'.presenceBits = mh.presenceBits) (haccel : mh'.slotAccelerators = mh.slotAccelerators)
    (hat : ∀ k j, mh'.atKey k j = mh.atKey k j) (hnamed : ∀ g' ∈ mh'.slots, g'.wksIdx = hdrtokenTokenize g'.name)
    (halone : ∀ g' ∈ mh'.slots, g'.isDetached = true → g'.nextDup = none)
    (hlive : ∀ (j : ℕ) (g' : MIMEField ℕ), mh'.slots[j]? = some g' → g'.isLive = true →
      ∃ g, mh.slots[j]? = some g ∧ g.isLive = true ∧ g'.key = g.key ∧ g'.nextDup = g.nextDup ∧ g'.dupHead = g.dupHead) : mh'.WellFormed := by
  have hfirst : ∀ k, mh'.firstOf k = mh.firstOf k := fun k => first_congr (bounded_atKey mh' k) (bounded_atKey mh k) (hat k)
  have hnext : ∀ k j, mh'.nextOf k j = mh.nextOf k j := fun k j => next_congr (bounded_atKey mh' k) (bounded_atKey mh k) (hat k)
  refine ⟨hnamed, ?_, ?_, halone, ?_, ?_⟩
  · intro j g' hg' hglive
    obtain ⟨g, hg, hglive, hkey, hdup, -⟩ := hlive j g' hg' hglive
    rw [hdup, hkey, hnext]
    exact hwf.linked j g hg hglive
  · intro j g' hg' hglive
    obtain ⟨g, hg, hglive, hkey, -, hhead⟩ := hlive j g' hg' hglive
    rw [hhead, hkey, hfirst]
    exact hwf.headed j g hg hglive
  · intro idx b hb
    rw [hbits, hfirst]
    exact hwf.present idx b hb
  · intro idx s j hs hj
    rw [haccel]
    exact hwf.accelerated idx s j hs (hfirst (.wks idx) ▸ hj)

theorem modify_atKey (hi : mh.slots[i]? = some f) {g : MIMEField ℕ → MIMEField ℕ} (hlive : (g f).isLive = f.isLive)
    (hkey : f.isLive = true → (g f).key = f.key) (k : Key) (j : ℕ) : (mh.modify i g).atKey k j = mh.atKey k j := by
  unfold atKey
  by_cases hj : j = i
  · subst hj
    rw [modify_self hi, hi, Option.any_some, Option.any_some, hlive]
    cases hl : f.isLive with
    | false => rfl
    | true => rw [hkey hl]
  · rw [modify_ne hj]

/-- a field that is not linked may change, and so may the value of one that is -/
theorem modify_wellFormed (hwf : mh.WellFormed) (hi : mh.slots[i]? = some f) {g : MIMEField ℕ → MIMEField ℕ}
    (hlive : (g f).isLive = f.isLive) (hlinks : f.isLive = true → (g f).key = f.key ∧ (g f).nextDup = f.nextDup ∧ (g f).dupHead = f.dupHead)
    (hnamed : (g f).wksIdx = hdrtokenTokenize (g f).name) (halone : (g f).isDetached = true → (g f).nextDup = none) :
    (mh.modify i g).WellFormed := by
  have hcases : ∀ (j : ℕ) (g' : MIMEField ℕ), (mh.modify i g).slots[j]? = some g' → (j = i ∧ g' = g f) ∨ mh.slots[j]? = some g' := by
    intro j g' hg'
    by_cases hj : j = i
    · subst hj
      rw [modify_self hi] at hg'
      exact Or.inl ⟨rfl, (Option.some.inj hg').symm⟩
    · rw [modify_ne hj] at hg'
      exact Or.inr hg'
  refine wellFormed_of_live hwf rfl rfl (modify_atKey hi hlive fun hl => (hlinks hl).1) ?_ ?_ ?_
  · intro g' hmem
    obtain ⟨j, hj⟩ := List.mem_iff_getElem?.mp hmem
    rcases hcases j g' hj with ⟨-, rfl⟩ | hold
    · exact hnamed
    · exact hwf.named g' (List.mem_of_getElem? hold)
  · intro g' hmem
    obtain ⟨j, hj⟩ := List.mem_iff_getElem?.mp hmem
    rcases hcases j g' hj with ⟨-, rfl⟩ | hold
    · exact halone
    · exact hwf.alone g' (List.mem_of_getElem? hold)
  · intro j g' hg' hglive
    rcases hcases j g' hg' with ⟨rfl, rfl⟩ | hold
    · have hl : f.isLive = true := hlive ▸ hglive
      exact ⟨f, hi, hl, hlinks hl⟩
    · exact ⟨g', hold, hglive, rfl, rfl, rfl⟩

theorem recomputeFor_wellFormed (hwf : mh.WellFormed) (g : MIMEField ℕ) : (mh.recomputeFor g).WellFormed := by
  unfold recomputeFor
  split_ifs
  · exact ⟨hwf.named, hwf.linked, hwf.headed, hwf.alone, hwf.present, hwf.accelerated⟩
  · exact hwf

theorem fieldDestroy_wellFormed (hwf : mh.WellFormed) (hi : mh.slots[i]? = some f) (hnot : f.isLive = false) : (mh.fieldDestroy i).WellFormed :=
  modify_wellFormed hwf hi hnot.symm (fun hlive => absurd (hnot.symm.trans hlive) Bool.false_ne_true) (hwf.named f (List.mem_of_getElem? hi))
    nofun

theorem fieldCreate_slots (mh : MIMEHdrImpl) (j : ℕ) :
    mh.fieldCreate.slots[j]? = if j = mh.slots.length then some MIMEField.init else mh.slots[j]? := by
  unfold fieldCreate
  split_ifs with hj
  · simp [hj]
  · rw [List.getElem?_append]
    split_ifs with hlt
    · rfl
    · rw [List.getElem?_eq_none (not_lt.mp hlt), List.getElem?_eq_none]
      simp
      omega

theorem fieldCreate_atKey (mh : MIMEHdrImpl) (k : Key) (j : ℕ) : mh.fieldCreate.atKey k j = mh.atKey k j := by
  unfold atKey
  rw [fieldCreate_slots]
  split_ifs with hj
  · rw [hj, List.getElem?_eq_none le_rfl]
    rfl
  · rfl

theorem fieldCreate_wellFormed (hwf : mh.WellFormed) : mh.fieldCreate.WellFormed := by
  have hold : ∀ (j : ℕ) (g' : MIMEField ℕ), mh.fieldCreate.slots[j]? = some g' → g' = MIMEField.init ∨ mh.slots[j]? = some g' := by
    intro j g' hg'
    rw [fieldCreate_slots] at hg'
    split_ifs at hg' with hj
    · exact Or.inl (Option.some.inj hg').symm
    · exact Or.inr hg'
  refine wellFormed_of_live hwf rfl rfl mh.fieldCreate_atKey ?_ ?_ ?_
  · intro g' hmem
    obtain ⟨j, hj⟩ := List.mem_iff_getElem?.mp hmem
    rcases hold j g' hj with rfl | hg
    · decide +kernel
    · exact hwf.named g' (List.mem_of_getElem? hg)
  · intro g' hmem
    obtain ⟨j, hj⟩ := List.mem_iff_getElem?.mp hmem
    rcases hold j g' hj with rfl | hg
    · exact fun _ => rfl
    · exact hwf.alone g' (List.mem_of_getElem? hg)
  · intro j g' hg' hlive
    rcases hold j g' hg' with rfl | hg
    · exact absurd hlive Bool.false_ne_true
    · exact ⟨g', hg, hlive, rfl, rfl, rfl⟩

/-! ## The parser -/

theorem fieldNameValueSet_self (hi : mh.slots[i]? = some f) (name value : Bytes) (rawPrintable : Bool) :
    ∃ f', (mh.fieldNameValueSet i name value rawPrintable).slots[i]? = some f' ∧ f'.isDetached = f.isDetached ∧ f'.value ≠ none :=
  ⟨_, modify_self hi, rfl, nofun⟩

theorem fieldNameValueSet_wellFormed (hwf : mh.WellFormed) (hi : mh.slots[i]? = some f) (hdetached : f.isDetached = true) (name value : Bytes)
    (rawPrintable : Bool) : (mh.fieldNameValueSet i name value rawPrintable).WellFormed :=
  modify_wellFormed hwf hi rfl (fun hlive => absurd ((isLive_eq_false hdetached).symm.trans hlive) Bool.false_ne_true) rfl
    (hwf.alone f (List.mem_of_getElem? hi))

theorem fieldNameValueSet_length (mh : MIMEHdrImpl) (name value : Bytes) (rawPrintable : Bool) :
    (mh.fieldCreate.fieldNameValueSet mh.slots.length name value rawPrintable).slots.length = mh.slots.length + 1 := by
  rw [fieldNameValueSet, modify_length, fieldCreate, List.length_append, List.length_singleton]

/-- a line of a header is read, and the field is put into the last slot -/
theorem parseField_wellFormed (hwf : mh.WellFormed) (name value : Bytes) (rawPrintable : Bool) :
    ∃ mh', mh.parseField name value rawPrintable = some mh' ∧ mh'.WellFormed := by
  have hcreated : mh.fieldCreate.slots[mh.slots.length]? = some MIMEField.init := by rw [fieldCreate_slots, if_pos rfl]
  have hset := fieldNameValueSet_wellFormed (fieldCreate_wellFormed hwf) hcreated rfl name value rawPrintable
  obtain ⟨f, hi, hdetached, -⟩ := fieldNameValueSet_self hcreated name value rawPrintable
  have horder := inOrder_last hi hdetached (fieldNameValueSet_length mh name value rawPrintable) f.key
  obtain ⟨mh₁, -, -, hattach⟩ := fieldAttach_inserted hset hi hdetached horder (Or.inl rfl)
  exact ⟨_, hattach, fieldAttach_wellFormed hset hi hdetached horder (Or.inl rfl) hattach⟩

/-- every header that is read is well formed -/
theorem parseFields_wellFormed : ∀ (lines : List (Bytes × Bytes × Bool)) {mh : MIMEHdrImpl}, mh.WellFormed →
    ∃ mh', mh.parseFields lines = some mh' ∧ mh'.WellFormed
  | [], mh, hwf => ⟨mh, rfl, hwf⟩
  | line :: lines, mh, hwf => by
    obtain ⟨mh₁, hparse, hwf₁⟩ := parseField_wellFormed hwf line.1 line.2.1 line.2.2
    rw [parseFields, List.foldlM_cons, hparse]
    exact parseFields_wellFormed lines hwf₁

/-! ## Deleting -/

/-- fields of a name have been deleted, and nothing else has changed -/
structure Removed (k : Key) (mh mh' : MIMEHdrImpl) : Prop where
  length : mh'.slots.length = mh.slots.length
  others : ∀ j, mh.atKey k j = false → mh'.slots[j]? = mh.slots[j]?
  fields : ∀ (j : ℕ) (g' : MIMEField ℕ), mh'.slots[j]? = some g' → g'.isLive = true → ∃ g, mh.slots[j]? = some g ∧ Kept g g'

theorem Removed.refl (k : Key) (mh : MIMEHdrImpl) : Removed k mh mh := ⟨rfl, fun _ _ => rfl, fun _ g' hg' _ => ⟨g', hg', rfl, rfl, rfl, rfl, rfl, rfl⟩⟩

theorem Removed.atKey {k : Key} (h : Removed k mh mh') {k' : Key} {j : ℕ} (hat : mh'.atKey k' j = true) : mh.atKey k' j = true := by
  obtain ⟨g', hg', hlive, rfl⟩ := atKey_iff.mp hat
  obtain ⟨g, hg, hkept⟩ := h.fields j g' hg' hlive
  exact atKey_iff.mpr ⟨g, hg, hkept.isLive.symm.trans hlive, hkept.key.symm⟩

theorem Removed.trans {k : Key} {mh'' : MIMEHdrImpl} (h : Removed k mh mh') (h' : Removed k mh' mh'') : Removed k mh mh'' := by
  refine ⟨h'.length.trans h.length, fun j hj => ?_, fun j g'' hg'' hlive => ?_⟩
  · have hj' : mh'.atKey k j = false := by
      cases hat : mh'.atKey k j with
      | false => rfl
      | true => exact absurd (hj.symm.trans (h.atKey hat)) Bool.false_ne_true
    exact (h'.others j hj').trans (h.others j hj)
  · obtain ⟨g', hg', hkept'⟩ := h'.fields j g'' hg'' hlive
    obtain ⟨g, hg, hkept⟩ := h.fields j g' hg' (hkept'.isLive.symm.trans hlive)
    exact ⟨g, hg, hkept'.name.trans hkept.name, hkept'.wksIdx.trans hkept.wksIdx, hkept'.readiness.trans hkept.readiness,
      hkept'.value.trans hkept.value, hkept'.rawPrintable.trans hkept.rawPrintable, hkept'.cooked.trans hkept.cooked⟩

/-- a field of another name has stayed as it was -/
theorem Erased.other_eq (h : mh.Erased i f mh') (hi : mh.slots[i]? = some f) (hlive : f.isLive = true) {j : ℕ} (hj : mh.atKey f.key j = false) :
    mh'.slots[j]? = mh.slots[j]? := by
  have hji : j ≠ i := by
    intro heq
    subst heq
    exact Bool.false_ne_true (hj.symm.trans (atKey_self hi hlive))
  cases hg' : mh'.slots[j]? with
  | none =>
    rw [List.getElem?_eq_none_iff, h.length, ← List.getElem?_eq_none_iff] at hg'
    exact hg'.symm
  | some g' =>
    obtain ⟨g, hg, hkept, -, hnext, -, hhead⟩ := h.other j hji g' hg'
    have hnext' := hnext fun hand => Bool.false_ne_true (hj.symm.trans hand.1)
    have hhead' := hhead fun hand =>
      Bool.false_ne_true (hj.symm.trans ((next_eq_some_iff (bounded_atKey mh _)).mp hand.2).2.1)
    rw [hg]
    obtain ⟨hname, hidx, hready, hvalue, hraw, hcooked⟩ := hkept
    cases g
    cases g'
    simp_all

theorem fieldDelete_spec (hwf : mh.WellFormed) (hi : mh.slots[i]? = some f) (hlive : f.isLive = true) :
    ∃ mh', mh.fieldDelete i = some mh' ∧ mh'.WellFormed ∧ Removed f.key mh mh' ∧
      ∀ k j, mh'.atKey k j = true ↔ mh.atKey k j = true ∧ j ≠ i := by
  obtain ⟨mh₀, herased₀, -, hdetach⟩ := fieldDetach_erased hwf hi hlive
  have herased := herased₀.recompute f
  obtain ⟨f₁, hf₁, hkept₁, -⟩ := herased.field
  have hnot : f₁.isLive = false := herased.not_isLive hf₁
  have hdead : ∀ (j : ℕ) (g' : MIMEField ℕ), ((mh₀.recomputeFor f).fieldDestroy i).slots[j]? = some g' → g'.isLive = true → j ≠ i := by
    intro j g' hg' hglive heq
    subst heq
    rw [fieldDestroy, modify_self hf₁, Option.some.injEq] at hg'
    subst hg'
    cases hglive
  refine ⟨(mh₀.recomputeFor f).fieldDestroy i, by rw [fieldDelete, hdetach]; rfl, fieldDestroy_wellFormed (herased.wellFormed hwf hi) hf₁ hnot, ?_, ?_⟩
  · refine ⟨(modify_length _ i _).trans herased.length, fun j hj => ?_, fun j g' hg' hglive => ?_⟩
    · have hji : j ≠ i := by
        intro heq
        subst heq
        exact Bool.false_ne_true (hj.symm.trans (atKey_self hi hlive))
      rw [fieldDestroy, modify_ne hji]
      exact herased.other_eq hi hlive hj
    · have hji := hdead j g' hg' hglive
      rw [fieldDestroy, modify_ne hji] at hg'
      obtain ⟨g, hg, hkept, -⟩ := herased.other j hji g' hg'
      exact ⟨g, hg, hkept⟩
  · intro k j
    rw [← herased.atKey_iff]
    by_cases hj : j = i
    · subst hj
      refine iff_of_false (fun hat => ?_) fun hat => ?_
      · obtain ⟨g', hg', hglive, -⟩ := MIMEHdrImpl.atKey_iff.mp hat
        exact hdead j g' hg' hglive rfl
      · exact ((herased.atKey_iff k j).mp hat).2 rfl
    · rw [MIMEHdrImpl.atKey_iff, MIMEHdrImpl.atKey_iff, fieldDestroy, modify_ne hj]

/-- all fields of a name are deleted, each time the first that is left -/
theorem fieldDeleteAll_spec {k : Key} :
    ∀ n {mh : MIMEHdrImpl}, mh.WellFormed → 0 < n → (∀ i ∈ mh.firstOf k, mh.slots.length - i < n) →
      ∃ mh', fieldDeleteAll n (mh.firstOf k) mh = some mh' ∧ mh'.WellFormed ∧ Removed k mh mh' ∧ ∀ j, mh'.atKey k j = false := by
  intro n
  induction n with
  | zero => exact fun _ hn _ => absurd hn (lt_irrefl 0)
  | succ n ih =>
    intro mh hwf _ hfuel
    cases hfirst : mh.firstOf k with
    | none => exact ⟨mh, rfl, hwf, Removed.refl k mh, (first_eq_none_iff (bounded_atKey mh k)).mp hfirst⟩
    | some i =>
      obtain ⟨hat, -⟩ := (first_eq_some_iff (bounded_atKey mh k)).mp hfirst
      obtain ⟨f, hi, hlive, rfl⟩ := atKey_iff.mp hat
      obtain ⟨mh₁, hdelete, hwf₁, hremoved, hat₁⟩ := fieldDelete_spec hwf hi hlive
      have hfirst₁ : mh₁.firstOf f.key = mh.nextOf f.key i := by
        have herase := first_erase (bounded_atKey mh f.key) (bounded_atKey mh₁ f.key) (hat₁ f.key)
        rwa [if_pos (show first (mh.atKey f.key) mh.slots.length = some i from hfirst)] at herase
      have hlength : i < mh.slots.length := (List.getElem?_eq_some_iff.mp hi).1
      have hless : mh.slots.length - i < n + 1 := hfuel i hfirst
      obtain ⟨mh', hall, hwf', hremoved', hnone⟩ := ih hwf₁ (by omega) (by
        intro m hm
        rw [hfirst₁] at hm
        obtain ⟨him, -⟩ := (next_eq_some_iff (bounded_atKey mh f.key)).mp hm
        rw [hremoved.length]
        omega)
      refine ⟨mh', ?_, hwf', hremoved.trans hremoved', hnone⟩
      rw [fieldDeleteAll, hi, Option.bind_some, hdelete, Option.bind_some, hwf.linked i f hi hlive, ← hfirst₁]
      exact hall

end MIMEHdrImpl

end TrafficServer.Hdrs.MimeHdr
